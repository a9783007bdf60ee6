import Marotte.Terminal.Spans

/-! # What the calls of a parser answer

A call of `Write` answers the text of what `styled` makes of the held bytes and the chunk, and spans
that show it.
-/
namespace Marotte.Terminal

open Runes

variable {offset n : ℕ} {spans : List Span} {out : List (Char × Style)} {st : Style} {w : Writer}
  {s t buf : Bytes}

/-! ## Texts -/

theorem find_least (p : ℕ → Bool) (m : ℕ) (hbelow : ∀ n, 0 < n → n ≤ m → p n = false)
    (hm : p (m + 1) = true) : [1, 2, 3].find? p = if m < 3 then some (m + 1) else none := by
  rcases m with - | - | - | m
  · simp_all
  · simp_all
  · simp_all
  · simp [hbelow]

theorem incompleteRuneTail_eq (b : Bytes) : incompleteRuneTail b = (heldTail b).length := by
  rw [incompleteRuneTail, heldTail]
  cases h : lastStart b with
  | none =>
    have hnone := lastStart_none.1 h
    rw [List.find?_eq_none.2]
    · rfl
    · rintro n - hn
      simp only [decide_eq_true_eq, Option.any_eq_true] at hn
      obtain ⟨-, v, hv, hstart⟩ := hn
      rw [hnone v (List.mem_of_mem_drop (List.mem_of_mem_head? hv))] at hstart
      contradiction
  | some t =>
    obtain ⟨x, u, us, rfl, rfl, hstart, hconts⟩ := lastStart_some h
    have hdrop : ∀ n ≤ us.length + 1,
        (x ++ u :: us).drop ((x ++ u :: us).length - n) = (u :: us).drop (us.length + 1 - n) := by
      intro n hn
      rw [List.length_append, List.length_cons,
        show x.length + (us.length + 1) - n = x.length + (us.length + 1 - n) by omega,
        List.drop_length_add_append]
    rw [find_least _ us.length]
    · by_cases hlt : us.length < 3
      · rw [if_pos hlt]
        simp only [hdrop _ (Nat.le_refl _), Nat.sub_self, List.drop_zero, List.length_cons]
        split
        · next hfull => rw [if_neg (by simp [hfull])]; rfl
        · next hfull => rw [if_pos ⟨by omega, by simpa using hfull⟩, List.length_cons]
      · rw [if_neg hlt]
        simp only [List.length_cons]
        rw [if_neg (by omega)]
        rfl
    · intro n hpos hn
      have hsub : us.length + 1 - n = us.length - n + 1 := by omega
      rw [decide_eq_false_iff_not, hdrop n (by omega), hsub, List.drop_succ_cons, List.head?_drop]
      rintro ⟨-, hany⟩
      obtain ⟨v, hv, hv'⟩ := (Option.any_eq_true ..).1 hany
      rw [hconts v (List.mem_of_getElem? hv)] at hv'
      contradiction
    · rw [decide_eq_true_eq, hdrop _ (Nat.le_refl _), Nat.sub_self]
      exact ⟨by simp, by simpa using hstart⟩

/-- Characters as bytes. -/
def encoded (out : List (Char × Style)) : Bytes :=
  out.flatMap fun p => String.utf8EncodeChar p.1

theorem encoded_append (out out' : List (Char × Style)) :
    encoded (out ++ out') = encoded out ++ encoded out' := by
  rw [encoded, List.flatMap_append, encoded, encoded]

theorem encoded_chars (out : List (Char × Style)) :
    encoded out = (out.map Prod.fst).flatMap String.utf8EncodeChar := by
  rw [encoded, List.flatMap_map]

theorem pieces_encoded (out : List (Char × Style)) (s : Bytes) :
    pieces (encoded out ++ s) = (out.map fun p => .rune p.1) ++ pieces s := by
  rw [encoded_chars, pieces_encodes, List.map_map]
  rfl

theorem utf16Len_encoded_append (out : List (Char × Style)) (s : Bytes) :
    utf16Len (encoded out ++ s) = width out + utf16Len s := by
  rw [utf16Len, pieces_encoded, List.map_append, List.sum_append, ← utf16Len, List.map_map, width,
    unitStyles, List.length_flatMap]
  simp only [List.length_replicate]
  rfl

theorem utf16Len_nil : utf16Len [] = 0 := by
  rw [utf16Len, pieces_nil, List.map_nil, List.sum_nil]

theorem utf16Len_encoded (out : List (Char × Style)) : utf16Len (encoded out) = width out := by
  have happend := utf16Len_encoded_append out []
  rw [List.append_nil, utf16Len_nil, Nat.add_zero] at happend
  exact happend

theorem validUTF8PerByte_eq (cur : Style) (s : Bytes) :
    validUTF8PerByte s = encoded (painted cur s) := by
  rw [validUTF8PerByte, encoded, painted, List.flatMap_map]

/-! ## A call of `Write` -/

/-- What a call has made so far is the text of characters and the spans of all but the last run of
them, which has the style of now. -/
structure Wrote (offset : ℕ) (out : List (Char × Style)) (w : Writer) : Prop where
  text : w.sb = encoded out
  emitted : w.emitted = width out
  start : w.p.offset = offset
  current : w.openStyle = w.p.cur
  spans : ∃ closed run, out = closed ++ run ∧ Shows offset closed w.spans
    ∧ w.openStart = offset + width closed ∧ ∀ p ∈ run, p.2 = w.p.cur

theorem Wrote.write (h : Wrote offset out w) (s : Bytes) :
    Wrote offset (out ++ painted w.p.cur s) (w.write s) where
  text := by rw [Writer.write, h.text, encoded_append, validUTF8PerByte_eq w.p.cur]
  emitted := by
    rw [Writer.write, h.emitted, width_append, validUTF8PerByte_eq w.p.cur, utf16Len_encoded]
  start := h.start
  current := h.current
  spans := by
    obtain ⟨closed, run, rfl, hshows, hstart, hrun⟩ := h.spans
    refine ⟨closed, run ++ painted w.p.cur s, by simp, hshows, hstart, fun p hp => ?_⟩
    rcases List.mem_append.1 hp with hp | hp
    · exact hrun p hp
    · obtain ⟨q, -, rfl⟩ := List.mem_map.1 hp
      rfl

/-- The open run closed, all that was written is shown. -/
theorem Wrote.shows (h : Wrote offset out w) :
    Shows offset out (w.closeRun (offset + w.emitted)).spans := by
  obtain ⟨closed, run, rfl, hshows, hstart, hrun⟩ := h.spans
  have happend := hshows.append (shows_run (offset + width closed) hrun)
  rw [Writer.closeRun, h.current, h.emitted, hstart, width_append, ← Nat.add_assoc]
  split
  · next hclose =>
    rw [if_pos hclose] at happend
    exact happend
  · next hclose =>
    rw [if_neg hclose, List.append_nil] at happend
    exact happend

theorem Wrote.restyle (h : Wrote offset out w) (st : Style) : Wrote offset out (w.restyle st) := by
  have hkeeps : ∀ n, (w.closeRun n).sb = w.sb ∧ (w.closeRun n).emitted = w.emitted
      ∧ (w.closeRun n).p = w.p := fun n => by
    rw [Writer.closeRun]
    split <;> exact ⟨rfl, rfl, rfl⟩
  obtain ⟨hsb, hemitted, hp⟩ := hkeeps (offset + w.emitted)
  rw [Writer.restyle, h.start]
  constructor
  · exact hsb.trans h.text
  · exact hemitted.trans h.emitted
  · simp only [hp, h.start]
  · rfl
  · refine ⟨out, [], (List.append_nil out).symm, h.shows, ?_,
      fun p hp => absurd hp List.not_mem_nil⟩
    simp only [h.emitted]

theorem Writer.write_nil (w : Writer) : w.write [] = w := by
  have hvalid : validUTF8PerByte [] = [] := by rw [validUTF8PerByte, pieces_nil, List.flatMap_nil]
  rw [write, hvalid, utf16Len_nil, List.append_nil, Nat.add_zero]

theorem scan_text {x : Bytes} (hx : ESC ∉ x) (w : Writer) :
    w.scan x = if x = [] then w else w.writeTail x := by
  rw [Writer.scan]
  split
  · rfl
  · simp only [dropWhile_plain hx, if_true]

theorem scan_held {x r : Bytes} (hx : ESC ∉ x) (h : scanEscape w.p.cur (ESC :: r) = none) :
    w.scan (x ++ ESC :: r) = (w.write x).hold (ESC :: r) := by
  have hwrite : (if x = [] then w else w.write x) = w.write x := by
    split
    · next hnil => rw [hnil, Writer.write_nil]
    · rfl
  rw [Writer.scan, if_neg (by simp)]
  simp only [takeWhile_text hx, dropWhile_text hx, hwrite]
  rw [if_neg (List.cons_ne_nil _ _)]
  split
  · rfl
  · next heq =>
    rw [dropWhile_text hx, takeWhile_text hx, hwrite] at heq
    have hnone := h.symm.trans heq
    contradiction

theorem scan_sequence {x r : Bytes} (hx : ESC ∉ x)
    (h : scanEscape w.p.cur (ESC :: r) = some (n, st)) :
    w.scan (x ++ ESC :: r)
      = (if st ≠ w.p.cur then (w.write x).restyle st else w.write x).scan ((ESC :: r).drop n) := by
  have hwrite : (if x = [] then w else w.write x) = w.write x := by
    split
    · next hnil => rw [hnil, Writer.write_nil]
    · rfl
  conv_lhs => rw [Writer.scan, if_neg (by simp)]
  simp only [takeWhile_text hx, dropWhile_text hx, hwrite]
  rw [if_neg (List.cons_ne_nil _ _)]
  split
  · next heq =>
    rw [dropWhile_text hx, takeWhile_text hx, hwrite] at heq
    have hsome := h.symm.trans heq
    contradiction
  · next heq =>
    rw [dropWhile_text hx, takeWhile_text hx, hwrite] at heq
    obtain ⟨rfl, rfl⟩ := Prod.mk.inj (Option.some.inj (h.symm.trans heq))
    rfl

theorem Wrote.wait (h : Wrote offset out w) (rest : Bytes) :
    Wrote offset out { w with p := { w.p with pending := rest } } :=
  ⟨h.text, h.emitted, h.start, h.current, h.spans⟩

theorem drop_heldTail (s : Bytes) : s.drop (s.length - (heldTail s).length) = heldTail s := by
  have hsettled := settled_append_heldTail s
  rw [settled] at hsettled
  exact List.append_cancel_left (hsettled.trans (List.take_append_drop _ s).symm) |>.symm

theorem Wrote.writeTail (h : Wrote offset out w) (hpending : w.p.pending = []) (tail : Bytes) :
    Wrote offset (out ++ painted w.p.cur (settled tail)) (w.writeTail tail)
      ∧ (w.writeTail tail).p.cur = w.p.cur ∧ (w.writeTail tail).p.pending = heldTail tail := by
  have heq : w.writeTail tail
      = Writer.write { w with p := { w.p with pending := heldTail tail } } (settled tail) := by
    simp only [Writer.writeTail, incompleteRuneTail_eq, drop_heldTail]
    split
    · rfl
    · next hzero =>
      rw [List.length_pos_iff, ne_eq, not_not] at hzero
      rw [settled, hzero]
      congr 1
      rw [← hpending]
  rw [heq]
  exact ⟨(h.wait (heldTail tail)).write (settled tail), rfl, rfl⟩

theorem Wrote.hold (h : Wrote offset out w) (hpending : w.p.pending = []) (rest : Bytes) :
    Wrote offset (out ++ (unterminated w.p.cur rest).out) (w.hold rest)
      ∧ (w.hold rest).p.cur = (unterminated w.p.cur rest).cur
      ∧ (w.hold rest).p.pending = (unterminated w.p.cur rest).pending := by
  rw [Writer.hold, unterminated]
  split
  · exact ⟨h.write (neutralizeESC rest), rfl, hpending⟩
  · rw [List.append_nil]
    exact ⟨h.wait rest, rfl, rfl⟩

/-- A scan writes what `styled` makes of its input and leaves what waits. -/
theorem scan_styled (cur : Style) (buf : Bytes) (hcur : w.p.cur = cur) (hpending : w.p.pending = [])
    (h : Wrote offset out w) :
    Wrote offset (out ++ (styled cur buf).out) (w.scan buf)
      ∧ (w.scan buf).p.cur = (styled cur buf).cur
      ∧ (w.scan buf).p.pending = (styled cur buf).pending := by
  induction cur, buf using scan_induction generalizing w out with
  | htext cur x hx =>
    subst hcur
    rw [scan_text hx, styled_text hx]
    split
    · next hnil =>
      rw [hnil]
      exact ⟨by simpa [painted, settled] using h, rfl, hpending⟩
    · exact h.writeTail hpending x
  | hheld cur x r hx hnone =>
    subst hcur
    rw [scan_held hx hnone, styled_held hx hnone, Scanned.after, ← List.append_assoc]
    exact (h.write x).hold hpending (ESC :: r)
  | hsequence cur x r n st hx hsome ih =>
    subst hcur
    rw [scan_sequence hx hsome, styled_sequence hx hsome, Scanned.after, ← List.append_assoc]
    have hwrite := h.write x
    split
    · refine ih rfl ?_ (hwrite.restyle st)
      have hkeeps : ∀ n, ((w.write x).closeRun n).p = w.p := fun n => by
        rw [Writer.closeRun]
        split <;> rfl
      rw [Writer.restyle]
      simp only [hkeeps, hpending]
    · next hst =>
      rw [not_not] at hst
      exact ih hst.symm hpending hwrite

/-- A call answers what is read of the held bytes and the chunk, and spans that show it. -/
theorem write_styled (p : Parser) (chunk : Bytes) :
    (p.write chunk).1.1 = encoded (styled p.cur (p.pending ++ chunk)).out
      ∧ Shows p.offset (styled p.cur (p.pending ++ chunk)).out (p.write chunk).1.2
      ∧ (p.write chunk).2 = ⟨(styled p.cur (p.pending ++ chunk)).pending,
          (styled p.cur (p.pending ++ chunk)).cur,
          p.offset + width (styled p.cur (p.pending ++ chunk)).out⟩ := by
  have hstart : Wrote p.offset [] ⟨{ p with pending := [] }, [], [], 0, p.offset, p.cur⟩ :=
    ⟨rfl, rfl, rfl, rfl, [], [], rfl, shows_nil p.offset, rfl, fun _ h => absurd h List.not_mem_nil⟩
  obtain ⟨hwrote, hcur, hpending⟩ :=
    scan_styled (w := ⟨{ p with pending := [] }, [], [], 0, p.offset, p.cur⟩) p.cur
      (p.pending ++ chunk) rfl rfl hstart
  rw [List.nil_append] at hwrote
  simp only [Parser.write]
  generalize Writer.scan _ _ = w at hwrote hcur hpending ⊢
  rw [hwrote.start, hcur, hpending, hwrote.emitted]
  refine ⟨hwrote.text, ?_, rfl⟩
  rw [← hwrote.emitted]
  exact hwrote.shows

theorem neutralizeESC_ne_nil (hs : s ≠ []) : neutralizeESC s ≠ [] := by
  obtain ⟨b, s, rfl⟩ := List.exists_cons_of_ne_nil hs
  rw [neutralizeESC, List.flatMap_cons]
  intro hnil
  have hfirst := (List.append_eq_nil_iff.1 hnil).1
  split at hfirst
  · exact String.utf8EncodeChar_ne_nil hfirst
  · contradiction

theorem width_painted_pos (hs : s ≠ []) (cur : Style) : 0 < width (painted cur s) := by
  rcases pieces_cases s with rfl | ⟨p, rest, -, hpieces⟩
  · contradiction
  · have hunits : 0 < units p.char := by
      rw [units]
      split <;> omega
    rw [width, painted, hpieces, List.map_cons, unitStyles, List.flatMap_cons, List.length_append,
      List.length_replicate]
    exact Nat.add_pos_left hunits _

/-- What is held is released in the style of now. -/
theorem flush_styled (p : Parser) :
    p.flush.1.1 = encoded (painted p.cur (neutralizeESC p.pending))
      ∧ Shows p.offset (painted p.cur (neutralizeESC p.pending)) p.flush.1.2 := by
  have hwidth : utf16Len (validUTF8PerByte (neutralizeESC p.pending))
      = width (painted p.cur (neutralizeESC p.pending)) := by
    rw [validUTF8PerByte_eq p.cur, utf16Len_encoded]
  rw [Parser.flush]
  split
  · next hnil =>
    have hempty : painted p.cur (neutralizeESC p.pending) = [] := by
      rw [hnil, neutralizeESC, List.flatMap_nil, painted, pieces_nil, List.map_nil]
    rw [hempty]
    exact ⟨rfl, shows_nil p.offset⟩
  · next hne =>
    refine ⟨validUTF8PerByte_eq p.cur _, ?_⟩
    have hst : ∀ q ∈ painted p.cur (neutralizeESC p.pending), q.2 = p.cur := by
      intro q hq
      obtain ⟨piece, -, rfl⟩ := List.mem_map.1 hq
      rfl
    have hrun := shows_run p.offset hst
    have hpos := width_painted_pos (neutralizeESC_ne_nil hne) p.cur
    simp only [hwidth]
    rw [if_congr (and_iff_right (by omega)) rfl rfl] at hrun
    exact hrun

end Marotte.Terminal
