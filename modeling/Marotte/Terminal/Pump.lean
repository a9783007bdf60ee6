import Marotte.Terminal.Addressed
import Marotte.Terminal.Ring

/-! # The output of a command, streamed and kept

The pump writes every read into the ring and publishes it, cut before a character that is not
whole, sanitized and parsed. The output of a terminal is the sanitized text of the ring, parsed at
once.
-/
namespace Marotte.Terminal

open Runes

variable {hidden : Char → Bool} {s x y : Bytes} {buf raw : Bytes} {reads chunks rest : List Bytes}

/-! ## The model -/

/-- Invisible code points that may carry a prompt: tags, controls of the writing direction and
characters without a width. -/
def isHidden (isBidiControl : Char → Bool) (c : Char) : Bool :=
  (0xE0000 ≤ c.toNat && c.toNat ≤ 0xE007F) || isBidiControl c
    || [0x00AD, 0x200B, 0x200C, 0x200D, 0xFEFF, 0x2060, 0x2061, 0x2062, 0x2063, 0x2064].contains
      c.toNat

/-- `sanitize.Unicode`: what is hidden is removed, and an invalid byte is replaced by U+FFFD. -/
def unicode (isHidden : Char → Bool) (s : Bytes) : Bytes :=
  (pieces s).flatMap fun p => if isHidden p.char then [] else String.utf8EncodeChar p.char

/-- `DecodeLastRune`: U+FFFD of width one where no character ends, of width zero for nothing. -/
def decodeLastRune (b : Bytes) : Char × ℕ :=
  match (pieces b).getLast? with
  | none => (replacement, 0)
  | some (.rune c) => (c, c.utf8Size)
  | some (.stray _) => (replacement, 1)

/-- How many trailing bytes form an incomplete character. -/
def incompleteTailLen (b : Bytes) : ℕ :=
  if (decodeLastRune b).1 ≠ replacement ∨ 1 < (decodeLastRune b).2 then 0
  else
    match [1, 2, 3, 4].find? fun i =>
      i ≤ b.length ∧ (b.drop (b.length - i)).head?.any runeStart with
    | none => 0
    | some i => if fullRune (b.drop (b.length - i)) then 0 else i

structure AgentTerminal where
  output : ByteRing
  ansi : Parser

/-- What a client is sent of a chunk. -/
structure TerminalOutput where
  data : Bytes
  spans : List Span
  offset : ℕ

/-- The loop of `pumpOutput`: the terminal, the carried bytes and what was published. -/
structure Pump where
  term : AgentTerminal
  pending : Bytes
  published : List TerminalOutput

namespace Pump

/-- `emitter`: a chunk that leaves nothing to show is not published. -/
def emit (isHidden : Char → Bool) (p : Pump) (raw : Bytes) : Pump :=
  let base := p.term.ansi.offset
  let ((text, parsed), ansi) := p.term.ansi.write (unicode isHidden raw)
  { p with
    term := { p.term with ansi := ansi }
    published :=
      if text = [] ∧ parsed = [] then p.published else p.published ++ [⟨text, parsed, base⟩] }

def read (isHidden : Char → Bool) (p : Pump) (buf : Bytes) : Pump :=
  if buf = [] then p
  else
    let p := { p with term := { p.term with output := p.term.output.write buf } }
    let chunk := p.pending ++ buf
    let hold := incompleteTailLen chunk
    let out := chunk.take (chunk.length - hold)
    let p := if out = [] then p else p.emit isHidden out
    { p with pending := chunk.drop (chunk.length - hold) }

/-- The end of the stream: the carried bytes are emitted and the parser releases what it holds. -/
def finish (isHidden : Char → Bool) (p : Pump) : Pump :=
  let p := if p.pending = [] then p else p.emit isHidden p.pending
  let base := p.term.ansi.offset
  let ((text, parsed), ansi) := p.term.ansi.flush
  { p with
    term := { p.term with ansi := ansi }
    published := if text = [] then p.published else p.published ++ [⟨text, parsed, base⟩] }

end Pump

/-- `pumpOutput` on what the reads of the pipe return. -/
def pumpOutput (isHidden : Char → Bool) (term : AgentTerminal) (reads : List Bytes) : Pump :=
  (reads.foldl (Pump.read isHidden) ⟨term, [], []⟩).finish isHidden

def newAgentTerminal (capacity : ℕ) (h : 0 < capacity) : AgentTerminal :=
  ⟨.newByteRing capacity h, newParser⟩

/-- `Output` of a terminal that is known. -/
def output (isHidden : Char → Bool) (term : AgentTerminal) : Bytes × List Span :=
  let raw := term.output.string
  if raw = [] then ([], []) else parse (unicode isHidden raw)

/-! ## The carry -/

theorem lastStart_encode (c : Char) :
    lastStart (String.utf8EncodeChar c) = some (String.utf8EncodeChar c) := by
  obtain ⟨u, us, hu, hstart, hconts⟩ := encode_bytes c
  rw [hu, lastStart, lastStart_none.2 hconts, Option.none_or, if_pos hstart]

theorem heldTail_encode (s : Bytes) (c : Char) : heldTail (s ++ String.utf8EncodeChar c) = [] := by
  have hfull := fullRune_encode c []
  rw [List.append_nil] at hfull
  have hlast : lastStart (s ++ String.utf8EncodeChar c) = some (String.utf8EncodeChar c) := by
    rw [lastStart_append, lastStart_encode, Option.some_or]
  rw [heldTail_of_some hlast, if_neg (by simp [hfull])]

theorem fullRune_of_length (h : 4 ≤ s.length) : fullRune s = true := by
  obtain ⟨b0, b1, b2, s, rfl⟩ : ∃ b0 b1 b2 t, s = b0 :: b1 :: b2 :: t := by
    rcases s with - | ⟨b0, - | ⟨b1, - | ⟨b2, s⟩⟩⟩
    · contradiction
    · contradiction
    · contradiction
    · exact ⟨b0, b1, b2, s, rfl⟩
  have hsize : runeSize b0 ≤ 4 := by
    rw [runeSize]
    repeat' split
    all_goals omega
  simp only [List.length_cons] at h
  rw [fullRune, decide_eq_true (by omega)]
  rfl

theorem heldTail_of_rune {c : Char} (h : (pieces s).getLast? = some (.rune c)) :
    heldTail s = [] := by
  obtain ⟨ps, hps⟩ := List.getLast?_eq_some_iff.1 h
  have hs := flatMap_pieces s
  rw [hps, List.flatMap_append, List.flatMap_cons, List.flatMap_nil, List.append_nil] at hs
  rw [← hs]
  exact heldTail_encode _ c

theorem heldTail_of_decodeLastRune
    (h : (decodeLastRune s).1 ≠ replacement ∨ 1 < (decodeLastRune s).2) : heldTail s = [] := by
  rw [decodeLastRune] at h
  split at h
  · simp at h
  · next c hc => exact heldTail_of_rune hc
  · simp at h

/-- The walk over four bytes finds what the walk over three does. -/
theorem incompleteTailLen_eq (b : Bytes) : incompleteTailLen b = (heldTail b).length := by
  rw [incompleteTailLen]
  split
  · next hlast => rw [heldTail_of_decodeLastRune hlast, List.length_nil]
  · rw [← incompleteRuneTail_eq, incompleteRuneTail, show [1, 2, 3, 4] = [1, 2, 3] ++ [4] from rfl,
      List.find?_append]
    cases [1, 2, 3].find? fun i => i ≤ b.length ∧ (b.drop (b.length - i)).head?.any runeStart with
    | some i => rfl
    | none =>
      rw [Option.none_or]
      split
      · rfl
      · next i hi =>
        have hmem := List.mem_singleton.1 (List.mem_of_find?_eq_some hi)
        have hfound := List.find?_some hi
        simp only [decide_eq_true_eq] at hfound
        rw [if_pos (fullRune_of_length (by rw [List.length_drop]; omega))]

/-! ## What is published -/

/-- What was published is what a parser answers on the chunks so far, and the parser of the terminal
goes on behind them. -/
structure Emitted (chunks : List Bytes) (p : Pump) : Prop where
  data : ∀ rest, p.published.flatMap TerminalOutput.data
      ++ (p.term.ansi.stream rest).flatMap Call.text
    = (newParser.stream (chunks ++ rest)).flatMap Call.text
  spans : ∀ rest, p.published.flatMap TerminalOutput.spans
      ++ (p.term.ansi.stream rest).flatMap Call.spans
    = (newParser.stream (chunks ++ rest)).flatMap Call.spans

theorem Emitted.emit {p : Pump} (h : Emitted chunks p) (hidden : Char → Bool) (raw : Bytes) :
    Emitted (chunks ++ [unicode hidden raw]) (p.emit hidden raw) := by
  have hpublished : (p.emit hidden raw).published.flatMap TerminalOutput.data
        = p.published.flatMap TerminalOutput.data ++ (p.term.ansi.write (unicode hidden raw)).1.1
      ∧ (p.emit hidden raw).published.flatMap TerminalOutput.spans
        = p.published.flatMap TerminalOutput.spans
          ++ (p.term.ansi.write (unicode hidden raw)).1.2 := by
    simp only [Pump.emit]
    split
    · next hnil => rw [hnil.1, hnil.2, List.append_nil, List.append_nil]; exact ⟨rfl, rfl⟩
    · simp
  have hansi : (p.emit hidden raw).term.ansi = (p.term.ansi.write (unicode hidden raw)).2 := rfl
  constructor
  · intro rest
    have hnext := h.data (unicode hidden raw :: rest)
    rw [Parser.stream, List.flatMap_cons, ← List.append_assoc] at hnext
    rw [hpublished.1, hansi, hnext, List.append_assoc, List.singleton_append]
  · intro rest
    have hnext := h.spans (unicode hidden raw :: rest)
    rw [Parser.stream, List.flatMap_cons, ← List.append_assoc] at hnext
    rw [hpublished.2, hansi, hnext, List.append_assoc, List.singleton_append]

theorem take_settled (s : Bytes) : s.take (s.length - (heldTail s).length) = settled s :=
  rfl

/-- The chunks that are emitted of some reads behind the carried bytes. -/
def emittedChunks (pending : Bytes) : List Bytes → List Bytes
  | [] => if pending = [] then [] else [pending]
  | buf :: reads =>
    if buf = [] then emittedChunks pending reads
    else
      (if settled (pending ++ buf) = [] then [] else [settled (pending ++ buf)])
        ++ emittedChunks (heldTail (pending ++ buf)) reads

theorem unicode_nil (hidden : Char → Bool) : unicode hidden [] = [] := by
  rw [unicode, pieces_nil, List.flatMap_nil]

theorem unicode_append (hidden : Char → Bool) (x y : Bytes) :
    unicode hidden (x ++ y) = unicode hidden (settled x) ++ unicode hidden (heldTail x ++ y) := by
  rw [unicode, pieces_settled, List.flatMap_append, unicode, unicode]

/-- The chunks are cut where sanitizing does not see the cut. -/
theorem flatten_emittedChunks (hidden : Char → Bool) (pending : Bytes) (reads : List Bytes) :
    ((emittedChunks pending reads).map (unicode hidden)).flatten
      = unicode hidden (pending ++ reads.flatten) := by
  induction reads generalizing pending with
  | nil =>
    rw [emittedChunks, List.flatten_nil, List.append_nil]
    split
    · next hnil => rw [hnil, unicode_nil, List.map_nil, List.flatten_nil]
    · rw [List.map_singleton, List.flatten_singleton]
  | cons buf reads ih =>
    rw [emittedChunks]
    split
    · next hnil => rw [ih, hnil, List.flatten_cons, List.nil_append]
    · rw [List.map_append, List.flatten_append, ih, List.flatten_cons, ← List.append_assoc,
        unicode_append hidden (pending ++ buf)]
      congr 1
      split
      · next hnil => rw [hnil, unicode_nil, List.map_nil, List.flatten_nil]
      · rw [List.map_singleton, List.flatten_singleton]

/-- What the parser releases at the end is published when it is not empty. -/
theorem Emitted.flush {p : Pump} (h : Emitted chunks p) :
    (if p.term.ansi.flush.1.1 = [] then p.published
        else p.published ++ [⟨p.term.ansi.flush.1.1, p.term.ansi.flush.1.2,
          p.term.ansi.offset⟩]).flatMap TerminalOutput.data
      = (newParser.stream chunks).flatMap Call.text
    ∧ (if p.term.ansi.flush.1.1 = [] then p.published
        else p.published ++ [⟨p.term.ansi.flush.1.1, p.term.ansi.flush.1.2,
          p.term.ansi.offset⟩]).flatMap TerminalOutput.spans
      = (newParser.stream chunks).flatMap Call.spans := by
  have hdata := h.data []
  have hspans := h.spans []
  rw [List.append_nil, Parser.stream, List.flatMap_cons, List.flatMap_nil, List.append_nil]
    at hdata hspans
  rw [← hdata, ← hspans]
  split
  · next hnil =>
    simp only
    rw [hnil, flush_spans _ hnil, List.append_nil, List.append_nil]
    exact ⟨rfl, rfl⟩
  · simp

/-- What the pump emits goes on behind what it has emitted. -/
theorem Emitted.pumped {p : Pump} (h : Emitted chunks p) (hidden : Char → Bool)
    (reads : List Bytes) :
    ∃ q, (reads.foldl (Pump.read hidden) p).finish hidden
        = { q with
            term := { q.term with ansi := q.term.ansi.flush.2 }
            published := if q.term.ansi.flush.1.1 = [] then q.published
              else q.published ++ [⟨q.term.ansi.flush.1.1, q.term.ansi.flush.1.2,
                q.term.ansi.offset⟩] }
      ∧ Emitted (chunks ++ (emittedChunks p.pending reads).map (unicode hidden)) q
      ∧ q.term.output = reads.foldl ByteRing.write p.term.output := by
  induction reads generalizing p chunks with
  | nil =>
    refine ⟨if p.pending = [] then p else p.emit hidden p.pending, rfl, ?_, ?_⟩
    · rw [emittedChunks]
      split
      · rw [List.map_nil, List.append_nil]
        exact h
      · exact h.emit hidden p.pending
    · split <;> rfl
  | cons buf reads ih =>
    rw [List.foldl_cons, List.foldl_cons, emittedChunks]
    by_cases hbuf : buf = []
    · rw [if_pos hbuf, Pump.read, if_pos hbuf, ByteRing.write, if_pos hbuf]
      exact ih h
    · have hread : p.read hidden buf = { (if settled (p.pending ++ buf) = [] then
            { p with term := { p.term with output := p.term.output.write buf } }
          else Pump.emit hidden { p with term := { p.term with output := p.term.output.write buf } }
            (settled (p.pending ++ buf))) with pending := heldTail (p.pending ++ buf) } := by
        rw [Pump.read, if_neg hbuf]
        simp only [incompleteTailLen_eq, drop_heldTail, take_settled]
      have hwritten : Emitted chunks
          { p with term := { p.term with output := p.term.output.write buf } } := ⟨h.data, h.spans⟩
      rw [if_neg hbuf, hread]
      split
      · exact ih (p := { p with
          term := { p.term with output := p.term.output.write buf }
          pending := heldTail (p.pending ++ buf) }) ⟨h.data, h.spans⟩
      · have hemit := hwritten.emit hidden (settled (p.pending ++ buf))
        rw [List.map_append, List.map_singleton, ← List.append_assoc]
        exact ih (p := { Pump.emit hidden
          { p with term := { p.term with output := p.term.output.write buf } }
          (settled (p.pending ++ buf)) with pending := heldTail (p.pending ++ buf) })
          ⟨hemit.data, hemit.spans⟩

/-- The pump publishes what a parser answers on the sanitized chunks, and leaves a ring that took
every read. -/
theorem pumpOutput_published (hidden : Char → Bool) (ring : ByteRing) (reads : List Bytes) :
    (pumpOutput hidden ⟨ring, newParser⟩ reads).published.flatMap TerminalOutput.data
        = (newParser.stream ((emittedChunks [] reads).map (unicode hidden))).flatMap Call.text
      ∧ (pumpOutput hidden ⟨ring, newParser⟩ reads).published.flatMap TerminalOutput.spans
        = (newParser.stream ((emittedChunks [] reads).map (unicode hidden))).flatMap Call.spans
      ∧ (pumpOutput hidden ⟨ring, newParser⟩ reads).term.output
        = reads.foldl ByteRing.write ring := by
  have hstart : Emitted [] ⟨⟨ring, newParser⟩, [], []⟩ := ⟨fun _ => rfl, fun _ => rfl⟩
  obtain ⟨q, hq, hemitted, houtput⟩ := hstart.pumped hidden reads
  obtain ⟨hdata, hspans⟩ := hemitted.flush
  rw [pumpOutput, hq]
  exact ⟨hdata, hspans, houtput⟩

/-! ## What is kept -/

/-- A stream that fits is what the ring holds. -/
theorem ring_bytes (capacity : ℕ) (h : 0 < capacity) (hfits : reads.flatten.length ≤ capacity) :
    (reads.foldl ByteRing.write (.newByteRing capacity h)).bytes = reads.flatten := by
  obtain ⟨hholds, hlength, -⟩ := ByteRing.holds_writes capacity h reads
  rw [hholds.bytes, hlength, Recent.rtake_of_length_le hfits]

theorem dropInvalid_valid (hvalid : ∀ b, .stray b ∉ pieces s) : dropInvalid s = s := by
  conv_rhs => rw [← flatMap_pieces s]
  rw [dropInvalid]
  refine List.flatMap_congr fun p hp => ?_
  cases p with
  | rune c => rfl
  | stray b => exact absurd hp (hvalid b)

theorem parse_nil : parse [] = ([], []) := by
  have hscan : ∀ w : Writer, w.scan [] = w := fun w => by rw [Writer.scan, if_pos rfl]
  have hwrite : newParser.write [] = (([], []), newParser) := by
    simp only [Parser.write, newParser, List.append_nil, hscan]
    rfl
  have hflush : newParser.flush = (([], []), newParser) := rfl
  have hparse : parse [] = if (newParser.write []).2.flush.1.1 ≠ [] then
      ((newParser.write []).1.1 ++ (newParser.write []).2.flush.1.1,
        (newParser.write []).1.2 ++ (newParser.write []).2.flush.1.2)
    else (newParser.write []).1 := rfl
  rw [hparse, hwrite, hflush, if_neg (by simp)]

/-- A command whose bytes are valid UTF-8, fit the ring and hold no sequence too long before it is
terminated: what was published is the text that is kept, each of its units in the same style. -/
theorem published_output (capacity : ℕ) (h : 0 < capacity) (hidden : Char → Bool)
    (reads : List Bytes) (hfits : reads.flatten.length ≤ capacity)
    (hvalid : ∀ b, .stray b ∉ pieces reads.flatten)
    (hopen : ∀ before, before <+: unicode hidden reads.flatten →
      (openEscape before).length ≤ maxPendingBytes) :
    (pumpOutput hidden (newAgentTerminal capacity h) reads).published.flatMap TerminalOutput.data
        = (output hidden (pumpOutput hidden (newAgentTerminal capacity h) reads).term).1
      ∧ ∀ k, styleAt ((pumpOutput hidden (newAgentTerminal capacity h) reads).published.flatMap
            TerminalOutput.spans) k
          = styleAt (output hidden
            (pumpOutput hidden (newAgentTerminal capacity h) reads).term).2 k := by
  obtain ⟨hdata, hspans, hring⟩ := pumpOutput_published hidden (.newByteRing capacity h) reads
  have hchunks := flatten_emittedChunks hidden [] reads
  rw [List.nil_append] at hchunks
  have houtput : output hidden (pumpOutput hidden (newAgentTerminal capacity h) reads).term
      = parse (unicode hidden reads.flatten) := by
    rw [output, newAgentTerminal, hring, ByteRing.string, ring_bytes capacity h hfits,
      dropInvalid_valid hvalid]
    split
    · next hnil => rw [hnil, unicode_nil, parse_nil]
    · rfl
  rw [← hchunks] at hopen houtput
  rw [houtput, newAgentTerminal, hdata, hspans]
  exact stream_agrees _ hopen

/-- `é` in bold, read in three parts and cut within the sequence and within the character. -/
theorem published_output_cut :
    let reads : List Bytes := [[0x1b, 0x5b], [0x31, 0x6d, 0xc3], [0xa9]]
    let pump := pumpOutput (isHidden fun _ => false) (newAgentTerminal 16 (Nat.succ_pos 15)) reads
    pump.published.flatMap TerminalOutput.data = (output (isHidden fun _ => false) pump.term).1
      ∧ ∀ k, styleAt (pump.published.flatMap TerminalOutput.spans) k
          = styleAt (output (isHidden fun _ => false) pump.term).2 k := by
  intro reads pump
  have hpieces : pieces reads.flatten = ['\x1b', '[', '1', 'm', 'é'].map .rune := by
    have h := pieces_encodes ['\x1b', '[', '1', 'm', 'é'] []
    rw [pieces_nil, List.append_nil, List.append_nil] at h
    exact h
  have hunicode : unicode (isHidden fun _ => false) reads.flatten = reads.flatten := by
    rw [unicode, hpieces]
    decide
  refine published_output 16 (Nat.succ_pos 15) (isHidden fun _ => false) reads (by decide)
    (fun b hb => ?_) (fun before hbefore => ?_)
  · rw [hpieces] at hb
    simp at hb
  · rw [hunicode] at hbefore
    exact (openEscape_length before).trans (hbefore.length_le.trans (by decide))

/-! ## Where they differ -/

theorem toNat_ofNat_ascii {b : UInt8} (hb : b.toNat < 128) :
    (Char.ofNat b.toNat).toNat = b.toNat := by
  have hvalid : Nat.isValidChar b.toNat := .inl (by omega)
  rw [Char.ofNat, dif_pos hvalid]
  rfl

theorem encode_ascii {b : UInt8} (hb : b.toNat < 128) :
    String.utf8EncodeChar (Char.ofNat b.toNat) = [b] := by
  have hval : (Char.ofNat b.toNat).val.toNat = b.toNat := toNat_ofNat_ascii hb
  rw [String.utf8EncodeChar]
  simp only [hval]
  rw [if_pos (by omega)]
  simp

theorem pieces_ascii (h : ∀ b ∈ s, b.toNat < 128) :
    pieces s = s.map fun b => .rune (Char.ofNat b.toNat) := by
  induction s with
  | nil => rw [pieces_nil, List.map_nil]
  | cons b s ih =>
    rw [List.forall_mem_cons] at h
    rw [List.map_cons, ← ih h.2, ← pieces_encode, encode_ascii h.1, List.singleton_append]

theorem isHidden_ascii {b : UInt8} (hb : b.toNat < 128) :
    isHidden (fun _ => false) (Char.ofNat b.toNat) = false := by
  have hval := toNat_ofNat_ascii hb
  rw [isHidden, hval]
  simp only [List.contains_cons, List.contains_nil, Bool.or_false, Bool.or_eq_false_iff,
    Bool.and_eq_false_iff, decide_eq_false_iff_not, beq_eq_false_iff_ne]
  omega

/-- Sanitizing leaves text of ASCII as it is. -/
theorem unicode_ascii (h : ∀ b ∈ s, b.toNat < 128) : unicode (isHidden fun _ => false) s = s := by
  rw [unicode, pieces_ascii h, List.flatMap_map]
  conv_rhs => rw [← List.flatMap_singleton' s]
  refine List.flatMap_congr fun b hb => ?_
  simp only [Piece.char, isHidden_ascii (h b hb), encode_ascii (h b hb)]
  rfl

theorem heldTail_ascii (h : ∀ b ∈ s, b.toNat < 128) : heldTail s = [] := by
  cases hs : s.getLast? with
  | none => rw [List.getLast?_eq_none_iff.1 hs, heldTail, lastStart]
  | some b =>
    obtain ⟨x, rfl⟩ := List.getLast?_eq_some_iff.1 hs
    have hb : b.toNat < 128 := h b (by simp)
    rw [← encode_ascii hb]
    exact heldTail_encode x _

theorem settled_ascii (h : ∀ b ∈ s, b.toNat < 128) : settled s = s := by
  have hsettled := settled_append_heldTail s
  rw [heldTail_ascii h, List.append_nil] at hsettled
  exact hsettled

/-- Of ASCII every read is emitted as it is. -/
theorem emittedChunks_ascii (h : ∀ buf ∈ reads, buf ≠ [] ∧ ∀ b ∈ buf, b.toNat < 128) :
    (emittedChunks [] reads).map (unicode (isHidden fun _ => false)) = reads := by
  induction reads with
  | nil => rw [emittedChunks, if_pos rfl, List.map_nil]
  | cons buf reads ih =>
    rw [List.forall_mem_cons] at h
    rw [emittedChunks, if_neg h.1.1, List.nil_append, settled_ascii h.1.2, heldTail_ascii h.1.2,
      if_neg h.1.1, List.singleton_append, List.map_cons, ih h.2, unicode_ascii h.1.2]

theorem encoded_painted_ne_nil (hs : s ≠ []) (cur : Style) (out : List (Char × Style)) :
    encoded (painted cur s ++ out) ≠ [] := by
  intro hnil
  have hwidth := utf16Len_encoded (painted cur s ++ out)
  have hpos := width_painted_pos hs cur
  rw [hnil, utf16Len_nil, width_append] at hwidth
  omega

theorem terminated_bel (h : ∀ c ∈ s, c ≠ 0x07 ∧ c ≠ ESC) (rest : Bytes) :
    terminated (s ++ 0x07 :: rest) = some (s.length + 1) := by
  induction s with
  | nil => rfl
  | cons c s ih =>
    rw [List.forall_mem_cons] at h
    rw [List.cons_append, terminated, if_neg h.1.1, if_neg fun hesc => h.1.2 hesc.1, ih h.2]
    rfl

theorem painted_nil (cur : Style) : painted cur [] = [] := by
  rw [painted, pieces_nil, List.map_nil]

theorem styled_command (h : ∀ c ∈ s, c ≠ 0x07 ∧ c ≠ ESC) (cur : Style) :
    styled cur (commandStart s) = unterminated cur (commandStart s) := by
  refine (styled_held (List.not_mem_nil (a := ESC)) (commandStart_open h cur)).trans ?_
  rw [painted_nil]
  rfl

/-- A command that is too long is released before its terminator comes. -/
theorem stream_command (h : ∀ c ∈ s, c ≠ 0x07 ∧ c ≠ ESC) (hlength : s.length = 4094)
    (rest : List Bytes) :
    (newParser.stream (commandStart s :: [0x61] :: rest)).flatMap Call.text ≠ [] := by
  have hmore : ∀ c ∈ s ++ [0x61], c ≠ 0x07 ∧ c ≠ ESC := fun c hc =>
    (List.mem_append.1 hc).elim (h c) fun hc => by
      rw [List.mem_singleton.1 hc]
      decide
  have hlong : ∀ t, (commandStart t).length = t.length + 2 := fun t => by
    rw [commandStart, List.length_cons, List.length_cons]
  have hfirst : styled .default (commandStart s) = ⟨[], .default, commandStart s⟩ := by
    rw [styled_command h, unterminated, if_neg (by rw [hlong, hlength, maxPendingBytes]; omega)]
  have hsecond : styled .default (commandStart s ++ [0x61])
      = ⟨painted .default (neutralizeESC (commandStart (s ++ [0x61]))), .default, []⟩ := by
    have hstyled := styled_command hmore .default
    rw [unterminated, if_pos (by
      rw [hlong, List.length_append, hlength, List.length_singleton, maxPendingBytes]
      omega)] at hstyled
    exact hstyled
  rw [stream_text, streamed, newParser, List.nil_append, hfirst, List.nil_append, streamed, hsecond]
  exact encoded_painted_ne_nil (neutralizeESC_ne_nil (List.cons_ne_nil _ _)) _ _

/-- A terminated command leaves no text. -/
theorem parse_command (h : ∀ c ∈ s, c ≠ 0x07 ∧ c ≠ ESC) :
    (parse (commandStart s ++ [0x07])).1 = [] := by
  have hscan : scanEscape .default (commandStart (s ++ [0x07]))
      = some ((commandStart (s ++ [0x07])).length, .default) := by
    rw [scanEscape_command, terminated_bel h, Option.map_some]
    simp [commandStart]
  have hstyled : styled .default (commandStart (s ++ [0x07])) = ⟨[], .default, []⟩ := by
    refine (styled_sequence (List.not_mem_nil (a := ESC)) hscan).trans ?_
    rw [painted_nil]
    have hdrop : (commandStart (s ++ [0x07])).drop (commandStart (s ++ [0x07])).length = [] :=
      List.drop_length
    exact (congrArg (fun b => (styled .default b).after []) hdrop).trans (by rw [styled_nil]; rfl)
  rw [parse_stream, stream_text, streamed, newParser, List.nil_append]
  change encoded ((styled .default (commandStart (s ++ [0x07]))).out
    ++ streamed (styled .default (commandStart (s ++ [0x07]))).cur
      (styled .default (commandStart (s ++ [0x07]))).pending []) = []
  rw [hstyled, streamed, neutralizeESC, List.flatMap_nil, painted_nil]
  rfl

theorem valid_ascii (h : ∀ b ∈ s, b.toNat < 128) : ∀ b, .stray b ∉ pieces s := fun b hb => by
  rw [pieces_ascii h] at hb
  obtain ⟨c, -, hc⟩ := List.mem_map.1 hb
  contradiction

theorem pieces_ff : pieces [0xff] = [.stray 0xff] := by
  have hnone : decodeRune [0xff] = none := by
    cases hd : decodeRune [0xff] with
    | none => rfl
    | some c =>
      obtain ⟨rest, hrest⟩ := exists_of_decodeRune hd
      rcases encode_cases c with ⟨b, hc, hb⟩ | ⟨b0, b1, hc, hb⟩ | ⟨b0, b1, b2, hc, hb⟩
        | ⟨b0, b1, b2, b3, hc, hb⟩
      all_goals
        rw [hc] at hrest
        simp only [List.cons_append, List.nil_append, List.cons.injEq] at hrest
        rw [← hrest.1] at hb
        simp at hb
  rw [pieces_stray hnone, pieces_nil]

/-- An invalid byte is published as U+FFFD and not kept. -/
theorem stray_differs :
    (pumpOutput (isHidden fun _ => false) (newAgentTerminal 16 (Nat.succ_pos 15))
        [[0xff]]).published.flatMap TerminalOutput.data
      ≠ (output (isHidden fun _ => false)
        (pumpOutput (isHidden fun _ => false) (newAgentTerminal 16 (Nat.succ_pos 15))
          [[0xff]]).term).1 := by
  obtain ⟨hdata, -, hring⟩ := pumpOutput_published (isHidden fun _ => false)
    (.newByteRing 16 (Nat.succ_pos 15)) [[0xff]]
  have hunicode : unicode (isHidden fun _ => false) [0xff] = String.utf8EncodeChar replacement := by
    rw [unicode, pieces_ff]
    decide
  have hchunks : (emittedChunks [] [[0xff]]).map (unicode (isHidden fun _ => false))
      = [String.utf8EncodeChar replacement] := by
    rw [show emittedChunks [] [[0xff]] = [[0xff]] by decide, List.map_singleton, hunicode]
  have hkept : dropInvalid [0xff] = [] := by
    rw [dropInvalid, pieces_ff]
    rfl
  have htext : styled .default (String.utf8EncodeChar replacement)
      = ⟨painted .default (String.utf8EncodeChar replacement), .default, []⟩ := by
    rw [styled_text (by decide)]
    rfl
  rw [output, newAgentTerminal, hring, hdata, hchunks, ByteRing.string,
    ring_bytes 16 (Nat.succ_pos 15) (by decide), List.flatten_singleton, hkept, if_pos rfl,
    stream_text, streamed, newParser, List.nil_append, htext]
  exact encoded_painted_ne_nil String.utf8EncodeChar_ne_nil _ _

/-- A command of 4097 bytes is released before its terminator is read, and removed from what is
kept. -/
theorem command_differs (h : ∀ c ∈ s, c ≠ 0x07 ∧ c ≠ ESC ∧ c.toNat < 128)
    (hlength : s.length = 4094) :
    (pumpOutput (isHidden fun _ => false) (newAgentTerminal 8192 (Nat.succ_pos 8191))
        [commandStart s, [0x61], [0x07]]).published.flatMap TerminalOutput.data
      ≠ (output (isHidden fun _ => false)
        (pumpOutput (isHidden fun _ => false) (newAgentTerminal 8192 (Nat.succ_pos 8191))
          [commandStart s, [0x61], [0x07]]).term).1 := by
  obtain ⟨hdata, -, hring⟩ := pumpOutput_published (isHidden fun _ => false)
    (.newByteRing 8192 (Nat.succ_pos 8191)) [commandStart s, [0x61], [0x07]]
  have hascii : ∀ b ∈ commandStart s, b.toNat < 128 := by
    rw [commandStart, List.forall_mem_cons, List.forall_mem_cons]
    exact ⟨by decide, by decide, fun b hb => (h b hb).2.2⟩
  have hchunks : (emittedChunks [] [commandStart s, [0x61], [0x07]]).map
      (unicode (isHidden fun _ => false)) = [commandStart s, [0x61], [0x07]] := by
    refine emittedChunks_ascii ?_
    simp only [List.forall_mem_cons, List.not_mem_nil, false_implies, implies_true, and_true]
    exact ⟨⟨List.cons_ne_nil _ _, hascii⟩, ⟨by decide, by decide⟩, by decide, by decide⟩
  have hflat : [commandStart s, [0x61], [0x07]].flatten = commandStart (s ++ [0x61]) ++ [0x07] := by
    simp [commandStart]
  have hall : ∀ b ∈ commandStart (s ++ [0x61]) ++ [0x07], b.toNat < 128 := by
    intro b hb
    rw [← hflat] at hb
    simp only [List.flatten_cons, List.flatten_nil, List.mem_append, List.mem_singleton,
      List.not_mem_nil, or_false] at hb
    rcases hb with hb | rfl | rfl
    · exact hascii b hb
    · decide
    · decide
  have hplain : ∀ c ∈ s ++ [0x61], c ≠ 0x07 ∧ c ≠ ESC := fun c hc =>
    (List.mem_append.1 hc).elim (fun hc => ⟨(h c hc).1, (h c hc).2.1⟩) fun hc => by
      rw [List.mem_singleton.1 hc]
      decide
  have hfits : [commandStart s, [0x61], [0x07]].flatten.length ≤ 8192 := by
    rw [hflat]
    simp [commandStart, hlength]
  rw [output, newAgentTerminal, hring, hdata, hchunks, ByteRing.string,
    ring_bytes 8192 (Nat.succ_pos 8191) hfits, hflat, dropInvalid_valid (valid_ascii hall),
    if_neg (by simp), unicode_ascii hall, parse_command hplain]
  exact stream_command (fun c hc => ⟨(h c hc).1, (h c hc).2.1⟩) hlength [[0x07]]

/-- What is published is not always what is kept: of an invalid byte, and of a command that grows
too long before it is terminated. -/
theorem published_differs :
    (pumpOutput (isHidden fun _ => false) (newAgentTerminal 16 (Nat.succ_pos 15))
        [[0xff]]).published.flatMap TerminalOutput.data
      ≠ (output (isHidden fun _ => false)
        (pumpOutput (isHidden fun _ => false) (newAgentTerminal 16 (Nat.succ_pos 15))
          [[0xff]]).term).1
    ∧ (pumpOutput (isHidden fun _ => false) (newAgentTerminal 8192 (Nat.succ_pos 8191))
        [commandStart (List.replicate 4094 0x61), [0x61], [0x07]]).published.flatMap
          TerminalOutput.data
      ≠ (output (isHidden fun _ => false)
        (pumpOutput (isHidden fun _ => false) (newAgentTerminal 8192 (Nat.succ_pos 8191))
          [commandStart (List.replicate 4094 0x61), [0x61], [0x07]]).term).1 := by
  refine ⟨stray_differs, command_differs (fun c hc => ?_) List.length_replicate⟩
  rw [List.eq_of_mem_replicate hc]
  decide

end Marotte.Terminal
