import Marotte.Terminal.Writes
import Mathlib.Data.List.Infix

/-! # A stream in chunks

The calls of `Write` and `Flush` on one parser answer what `Parse` answers of the whole string,
however it is cut into chunks.
-/
namespace Marotte.Terminal

open Runes

variable {cur : Style} {pending a : Bytes} {n : ℕ}

/-- A call: `Offset` before it and what it answers. -/
structure Call where
  offset : ℕ
  text : Bytes
  spans : List Span

/-- The calls of `Write`, one for each chunk, and of `Flush` at the end. -/
def Parser.stream (p : Parser) : List Bytes → List Call
  | [] => [⟨p.offset, p.flush.1.1, p.flush.1.2⟩]
  | chunk :: chunks =>
    ⟨p.offset, (p.write chunk).1.1, (p.write chunk).1.2⟩ :: (p.write chunk).2.stream chunks

/-- The characters of a stream with their styles. -/
def streamed (cur : Style) (pending : Bytes) : List Bytes → List (Char × Style)
  | [] => painted cur (neutralizeESC pending)
  | chunk :: chunks =>
    (styled cur (pending ++ chunk)).out
      ++ streamed (styled cur (pending ++ chunk)).cur (styled cur (pending ++ chunk)).pending chunks

theorem stream_text (p : Parser) (chunks : List Bytes) :
    (p.stream chunks).flatMap Call.text = encoded (streamed p.cur p.pending chunks) := by
  induction chunks generalizing p with
  | nil =>
    rw [Parser.stream, List.flatMap_cons, List.flatMap_nil, List.append_nil]
    exact (flush_styled p).1
  | cons chunk chunks ih =>
    obtain ⟨htext, -, hnext⟩ := write_styled p chunk
    rw [Parser.stream, List.flatMap_cons, ih, streamed, encoded_append, hnext]
    exact congrArg (· ++ _) htext

theorem stream_shows (p : Parser) (chunks : List Bytes) :
    Shows p.offset (streamed p.cur p.pending chunks) ((p.stream chunks).flatMap Call.spans) := by
  induction chunks generalizing p with
  | nil =>
    rw [Parser.stream, List.flatMap_cons, List.flatMap_nil, List.append_nil]
    exact (flush_styled p).2
  | cons chunk chunks ih =>
    obtain ⟨-, hshows, hnext⟩ := write_styled p chunk
    have hrest := ih (p.write chunk).2
    rw [Parser.stream, List.flatMap_cons, streamed]
    rw [hnext] at hrest ⊢
    exact hshows.append hrest

/-- `Offset` before a call is what the calls before it emitted. -/
theorem stream_offset (p : Parser) (chunks : List Bytes) (before : List Call) (c : Call)
    (after : List Call) (h : p.stream chunks = before ++ c :: after) :
    c.offset = p.offset + utf16Len (before.flatMap Call.text) := by
  induction chunks generalizing p before with
  | nil =>
    cases before with
    | nil =>
      rw [← (List.cons.inj h).1, List.flatMap_nil, utf16Len_nil, Nat.add_zero]
    | cons d before =>
      have hlength := congrArg List.length h
      simp [Parser.stream] at hlength
  | cons chunk chunks ih =>
    cases before with
    | nil =>
      rw [← (List.cons.inj h).1, List.flatMap_nil, utf16Len_nil, Nat.add_zero]
    | cons d before =>
      obtain ⟨hd, hrest⟩ := List.cons.inj h
      obtain ⟨htext, -, hnext⟩ := write_styled p chunk
      rw [ih _ _ hrest, ← hd, List.flatMap_cons, htext, utf16Len_encoded_append, hnext]
      exact Nat.add_assoc _ _ _

/-! ## Chunks do not matter -/

/-- What is read behind a first part is what is read of the whole behind it. -/
theorem streamed_append (a : Bytes) (chunks : List Bytes)
    (hopen : ∀ before, before <+: chunks.flatten →
      (openEscape (a ++ before)).length ≤ maxPendingBytes)
    (cur : Style) :
    (styled cur a).out ++ streamed (styled cur a).cur (styled cur a).pending chunks
      = (styled cur (a ++ chunks.flatten)).out
        ++ painted (styled cur (a ++ chunks.flatten)).cur
            (neutralizeESC (styled cur (a ++ chunks.flatten)).pending) := by
  induction chunks generalizing a with
  | nil => rw [streamed, List.flatten_nil, List.append_nil]
  | cons chunk chunks ih =>
    have ha := hopen [] (List.nil_prefix)
    rw [List.append_nil] at ha
    have happend := styled_append a ha cur chunk
    have hrest := ih (a ++ chunk) fun before hbefore => by
      rw [List.append_assoc]
      exact hopen (chunk ++ before) (by
        rw [List.flatten_cons]
        exact (List.prefix_append_right_inj chunk).2 hbefore)
    rw [List.flatten_cons, ← List.append_assoc, ← hrest, streamed, happend]
    exact (List.append_assoc _ _ _).symm

theorem flush_spans (p : Parser) (htext : p.flush.1.1 = []) : p.flush.1.2 = [] := by
  by_cases hp : p.pending = []
  · rw [Parser.flush, if_pos hp]
  · have hpos := width_painted_pos (neutralizeESC_ne_nil hp) p.cur
    rw [← utf16Len_encoded, ← (flush_styled p).1, htext, utf16Len_nil] at hpos
    omega

theorem parse_stream (s : Bytes) :
    parse s
      = ((newParser.stream [s]).flatMap Call.text, (newParser.stream [s]).flatMap Call.spans) := by
  have hparse : parse s = if (newParser.write s).2.flush.1.1 ≠ [] then
      ((newParser.write s).1.1 ++ (newParser.write s).2.flush.1.1,
        (newParser.write s).1.2 ++ (newParser.write s).2.flush.1.2)
    else (newParser.write s).1 := rfl
  simp only [Parser.stream, List.flatMap_cons, List.flatMap_nil, List.append_nil]
  rw [hparse]
  split
  · rfl
  · next hnil =>
    rw [not_not] at hnil
    rw [hnil, flush_spans _ hnil, List.append_nil, List.append_nil]

theorem styled_nil (cur : Style) : styled cur [] = ⟨[], cur, []⟩ := by
  rw [styled_text List.not_mem_nil, painted, settled]
  simp [heldTail, lastStart]

/-- In chunks the same is read as in one. -/
theorem streamed_whole (chunks : List Bytes)
    (hopen : ∀ before, before <+: chunks.flatten → (openEscape before).length ≤ maxPendingBytes) :
    streamed .default [] chunks = streamed .default [] [chunks.flatten] := by
  have hwhole := streamed_append [] chunks hopen .default
  rw [styled_nil, List.nil_append, List.nil_append] at hwhole
  rw [hwhole, streamed, streamed, List.nil_append]

/-- The calls on chunks answer the text of `Parse` and give each unit its style. -/
theorem stream_agrees (chunks : List Bytes)
    (hopen : ∀ before, before <+: chunks.flatten → (openEscape before).length ≤ maxPendingBytes) :
    (newParser.stream chunks).flatMap Call.text = (parse chunks.flatten).1
      ∧ ∀ k, styleAt ((newParser.stream chunks).flatMap Call.spans) k
          = styleAt (parse chunks.flatten).2 k := by
  have hone := stream_text newParser [chunks.flatten]
  have hread := streamed_whole chunks hopen
  refine ⟨?_, fun k => ?_⟩
  · rw [stream_text, parse_stream, hone]
    exact congrArg encoded hread
  · have hchunks := (stream_shows newParser chunks).style k
    have hwhole := (stream_shows newParser [chunks.flatten]).style k
    rw [show newParser.offset + k = k from Nat.zero_add k] at hchunks hwhole
    rw [hchunks, parse_stream, hwhole]
    exact congrArg (fun out => ((unitStyles out)[k]?).getD .default) hread

theorem openEscape_length (b : Bytes) : (openEscape b).length ≤ b.length := by
  induction Style.default, b using scan_induction with
  | htext cur x hx =>
    rw [openEscape_text hx]
    exact Nat.zero_le _
  | hheld cur x r hx h =>
    rw [openEscape_held hx h, List.length_append]
    omega
  | hsequence cur x r n st hx h ih =>
    rw [openEscape_sequence hx h, List.length_append]
    rw [List.length_drop] at ih
    omega

/-- Where no sequence of a prefix is too long before it is terminated, the calls of a parser on the
chunks of a string answer the text of `Parse` and give each unit its style, and `Offset` before each
call is the length of what was emitted. -/
theorem stream_parse (chunks : List Bytes)
    (hopen : ∀ before, before <+: chunks.flatten → (openEscape before).length ≤ maxPendingBytes) :
    (newParser.stream chunks).flatMap Call.text = (parse chunks.flatten).1
      ∧ (∀ k, styleAt ((newParser.stream chunks).flatMap Call.spans) k
          = styleAt (parse chunks.flatten).2 k)
      ∧ ∀ before c after, newParser.stream chunks = before ++ c :: after →
          c.offset = utf16Len (before.flatMap Call.text) := by
  obtain ⟨htext, hstyle⟩ := stream_agrees chunks hopen
  refine ⟨htext, hstyle, fun before c after h => ?_⟩
  rw [stream_offset newParser chunks before c after h]
  exact Nat.zero_add _

/-- `é` in bold, cut within the sequence and within the character. -/
theorem stream_parse_cut :
    (newParser.stream [[0x1b, 0x5b], [0x31, 0x6d, 0xc3], [0xa9]]).flatMap Call.text
        = (parse [0x1b, 0x5b, 0x31, 0x6d, 0xc3, 0xa9]).1
      ∧ (∀ k, styleAt ((newParser.stream [[0x1b, 0x5b], [0x31, 0x6d, 0xc3], [0xa9]]).flatMap
          Call.spans) k = styleAt (parse [0x1b, 0x5b, 0x31, 0x6d, 0xc3, 0xa9]).2 k)
      ∧ ∀ before c after,
          newParser.stream [[0x1b, 0x5b], [0x31, 0x6d, 0xc3], [0xa9]] = before ++ c :: after →
          c.offset = utf16Len (before.flatMap Call.text) :=
  stream_parse [[0x1b, 0x5b], [0x31, 0x6d, 0xc3], [0xa9]] fun before hbefore =>
    (openEscape_length before).trans (hbefore.length_le.trans (by decide))

end Marotte.Terminal
