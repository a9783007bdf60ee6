import Marotte.Terminal.Stream

/-! # The stretches of a stream

A stream falls into text, sequences that are removed and sequences that were too long before they
were terminated. What remains are the runs of text between the sequences that are removed.
-/
namespace Marotte.Terminal

open Runes

variable {cur st : Style} {a b s t x r : Bytes} {xs ys : List Stretch} {n : ℕ}

inductive Stretch where
  | text (s : Bytes)
  | removed (s : Bytes)
  | released (s : Bytes)
  deriving DecidableEq

/-- The bytes of the input in a stretch. -/
def Stretch.bytes : Stretch → Bytes
  | .text s => s
  | .removed s => s
  | .released s => s

/-- The stretches of a string before the sequence at its end that is not terminated. -/
def stretches (buf : Bytes) : List Stretch :=
  let before := buf.takeWhile fun b => b ≠ ESC
  let rest := buf.dropWhile fun b => b ≠ ESC
  if _hrest : rest = [] then [.text buf]
  else
    match _h : scanEscape .default rest with
    | none => [.text before]
    | some (n, _) => .text before :: .removed (rest.take n) :: stretches (rest.drop n)
termination_by buf.length
decreasing_by exact length_drop_escape _h _hrest

/-- The stretches of a stream. A sequence at the end of a chunk is released when it is too long, and
so is one at the end. -/
def streamStretches (held : Bytes) : List Bytes → List Stretch
  | [] => if held = [] then [] else [.released held]
  | chunk :: chunks =>
    let rest := openEscape (held ++ chunk)
    if maxPendingBytes < rest.length then
      stretches (held ++ chunk) ++ .released rest :: streamStretches [] chunks
    else stretches (held ++ chunk) ++ streamStretches rest chunks

/-- The runs of what remains, from the first sequence that is removed to the last. -/
def runs : List Stretch → List Bytes
  | [] => [[]]
  | .text s :: xs => (s ++ (runs xs).headD []) :: (runs xs).tail
  | .removed _ :: xs => [] :: runs xs
  | .released s :: xs => (neutralizeESC s ++ (runs xs).headD []) :: (runs xs).tail

/-- What remains as text: invalid bytes are replaced one by one. -/
def remains (xs : List Stretch) : Bytes :=
  (runs xs).flatMap validUTF8PerByte

/-- No character reaches over the end of a sequence that is released. -/
def Unbroken (xs : List Stretch) : Prop :=
  ∀ before s after, xs = before ++ .released s :: after →
    Apart (neutralizeESC s) ((runs after).headD [])

/-! ## The stretches by cases -/

theorem stretches_text (hx : ESC ∉ x) : stretches x = [.text x] := by
  rw [stretches]
  exact dif_pos (dropWhile_plain hx)

theorem stretches_held (hx : ESC ∉ x) (h : scanEscape cur (ESC :: r) = none) :
    stretches (x ++ ESC :: r) = [.text x] := by
  rw [stretches]
  simp only [takeWhile_text hx, dropWhile_text hx]
  rw [dif_neg (List.cons_ne_nil _ _)]
  split
  · rfl
  · next heq =>
    rw [dropWhile_text hx, scanEscape_none h] at heq
    contradiction

theorem stretches_sequence (hx : ESC ∉ x) (h : scanEscape cur (ESC :: r) = some (n, st)) :
    stretches (x ++ ESC :: r)
      = .text x :: .removed ((ESC :: r).take n) :: stretches ((ESC :: r).drop n) := by
  obtain ⟨st', hst⟩ := scanEscape_style h .default
  conv_lhs => rw [stretches]
  simp only [takeWhile_text hx, dropWhile_text hx]
  rw [dif_neg (List.cons_ne_nil _ _)]
  split
  · next heq =>
    rw [dropWhile_text hx, hst] at heq
    contradiction
  · next heq =>
    rw [dropWhile_text hx, hst] at heq
    obtain ⟨rfl, -⟩ := Prod.mk.inj (Option.some.inj heq)
    rfl

/-- The stretches and the sequence at the end are the whole string. -/
theorem stretches_bytes (b : Bytes) : (stretches b).flatMap Stretch.bytes ++ openEscape b = b := by
  induction Style.default, b using scan_induction with
  | htext cur x hx =>
    rw [stretches_text hx, openEscape_text hx, List.append_nil, List.flatMap_cons, List.flatMap_nil,
      List.append_nil, Stretch.bytes]
  | hheld cur x r hx h =>
    rw [stretches_held hx h, openEscape_held hx h, List.flatMap_cons, List.flatMap_nil,
      List.append_nil, Stretch.bytes]
  | hsequence cur x r n st hx h ih =>
    rw [stretches_sequence hx h, openEscape_sequence hx h, List.flatMap_cons, List.flatMap_cons,
      Stretch.bytes, Stretch.bytes, List.append_assoc, List.append_assoc, ih, List.take_append_drop]

theorem streamStretches_bytes (held : Bytes) (chunks : List Bytes) :
    (streamStretches held chunks).flatMap Stretch.bytes = held ++ chunks.flatten := by
  induction chunks generalizing held with
  | nil =>
    rw [streamStretches, List.flatten_nil, List.append_nil]
    split
    · next hnil => rw [hnil, List.flatMap_nil]
    · rw [List.flatMap_cons, List.flatMap_nil, List.append_nil, Stretch.bytes]
  | cons chunk chunks ih =>
    have hbytes := stretches_bytes (held ++ chunk)
    rw [List.flatten_cons, ← List.append_assoc, streamStretches]
    split
    · rw [List.flatMap_append, List.flatMap_cons, ih, Stretch.bytes, List.nil_append,
        ← List.append_assoc, hbytes]
    · rw [List.flatMap_append, ih, ← List.append_assoc, hbytes]

/-! ## Runs cut where a sequence was released -/

/-- The runs as they are written: cut behind what is released, too. -/
def segments : List Stretch → List Bytes
  | [] => [[]]
  | .text s :: xs => (s ++ (segments xs).headD []) :: (segments xs).tail
  | .removed _ :: xs => [] :: segments xs
  | .released s :: xs => neutralizeESC s :: segments xs

/-- The pieces of strings that are read each by itself. -/
def readAll (ss : List Bytes) : List Piece :=
  ss.flatMap pieces

/-- The pieces of runs behind a text. -/
def readBehind (t : Bytes) (ss : List Bytes) : List Piece :=
  pieces (t ++ ss.headD []) ++ readAll ss.tail

/-- What is released begins with ESC. -/
def Escapes (xs : List Stretch) : Prop :=
  ∀ s, .released s ∈ xs → ∃ r, s = ESC :: r

theorem unbroken_cons {y : Stretch} (hy : ∀ s, y ≠ .released s) :
    Unbroken (y :: xs) ↔ Unbroken xs := by
  constructor
  · intro h before s after hxs
    exact h (y :: before) s after (by rw [hxs, List.cons_append])
  · intro h before s after hxs
    cases before with
    | nil => exact absurd (List.cons.inj hxs).1 (hy s)
    | cons z before => exact h before s after (List.cons.inj hxs).2

theorem unbroken_released :
    Unbroken (.released s :: xs) ↔ Apart (neutralizeESC s) ((runs xs).headD []) ∧ Unbroken xs := by
  constructor
  · intro h
    exact ⟨h [] s xs rfl, fun before s' after hxs => h (.released s :: before) s' after (by
      rw [hxs, List.cons_append])⟩
  · rintro ⟨hapart, h⟩ before s' after hxs
    cases before with
    | nil =>
      obtain ⟨hs, rfl⟩ := List.cons.inj hxs
      rw [← Stretch.released.inj hs]
      exact hapart
    | cons z before => exact h before s' after (List.cons.inj hxs).2

/-- ESC neutralised is a character. -/
theorem neutralizeESC_esc (r : Bytes) :
    neutralizeESC (ESC :: r) = String.utf8EncodeChar replacement ++ neutralizeESC r := by
  rw [neutralizeESC, List.flatMap_cons, if_pos rfl, neutralizeESC]

theorem readBehind_nil (ss : List Bytes) (h : ss ≠ []) : readBehind [] ss = readAll ss := by
  obtain ⟨s, ss, rfl⟩ := List.exists_cons_of_ne_nil h
  rw [readBehind, List.nil_append, List.headD_cons, List.tail_cons, readAll, readAll,
    List.flatMap_cons]

theorem readBehind_append (t s : Bytes) (ss : List Bytes) :
    readBehind t ((s ++ ss.headD []) :: ss.tail) = readBehind (t ++ s) ss := by
  rw [readBehind, List.headD_cons, List.tail_cons, readBehind, List.append_assoc]

theorem readBehind_text (t s : Bytes) (xs : List Stretch) :
    readBehind t (segments (.text s :: xs)) = readBehind (t ++ s) (segments xs) := by
  rw [segments, readBehind_append]

theorem readBehind_cut (t s : Bytes) (ss : List Bytes) :
    readBehind t (s :: ss) = pieces (t ++ s) ++ readAll ss := by
  rw [readBehind, List.headD_cons, List.tail_cons]

theorem runs_ne_nil (xs : List Stretch) : runs xs ≠ [] := by
  cases xs with
  | nil => exact List.cons_ne_nil _ _
  | cons x xs => cases x <;> exact List.cons_ne_nil _ _

theorem segments_ne_nil (xs : List Stretch) : segments xs ≠ [] := by
  cases xs with
  | nil => exact List.cons_ne_nil _ _
  | cons x xs => cases x <;> exact List.cons_ne_nil _ _

/-- The runs read whole are no longer than the runs read as they are written, and the same where no
character is broken. -/
theorem read_runs (xs : List Stretch) (hesc : Escapes xs) (t : Bytes) :
    (readBehind t (runs xs)).length ≤ (readBehind t (segments xs)).length
      ∧ ((readBehind t (runs xs)).length = (readBehind t (segments xs)).length ↔ Unbroken xs)
      ∧ (Unbroken xs → readBehind t (runs xs) = readBehind t (segments xs)) := by
  induction xs generalizing t with
  | nil =>
    have hnone : Unbroken [] := fun before s after h => by
      have hlength := congrArg List.length h
      simp at hlength
    exact ⟨Nat.le_refl _, iff_of_true rfl hnone, fun _ => rfl⟩
  | cons y xs ih =>
    have hxs : Escapes xs := fun s hs => hesc s (List.mem_cons_of_mem _ hs)
    cases y with
    | text s =>
      rw [runs, segments, readBehind_append, readBehind_append, unbroken_cons (by simp)]
      exact ih hxs (t ++ s)
    | removed s =>
      obtain ⟨hle, hiff, heq⟩ := ih hxs []
      rw [readBehind_nil _ (runs_ne_nil xs), readBehind_nil _ (segments_ne_nil xs)] at hle hiff heq
      rw [runs, segments, readBehind_cut, readBehind_cut, unbroken_cons (by simp),
        List.length_append, List.length_append, Nat.add_left_cancel_iff]
      exact ⟨Nat.add_le_add_left hle _, hiff, fun h => congrArg _ (heq h)⟩
    | released s =>
      obtain ⟨r, rfl⟩ := hesc s List.mem_cons_self
      obtain ⟨hle, hiff, heq⟩ := ih hxs []
      obtain ⟨v, vs, hv, hstart, -⟩ := encode_bytes replacement
      have htail :
          heldTail (t ++ neutralizeESC (ESC :: r)) = heldTail (neutralizeESC (ESC :: r)) := by
        rw [neutralizeESC_esc, hv, List.cons_append, heldTail_append_start t hstart]
      have hapart : Apart (t ++ neutralizeESC (ESC :: r)) ((runs xs).headD [])
          ↔ Apart (neutralizeESC (ESC :: r)) ((runs xs).headD []) := by
        rw [Apart, htail, Apart]
      rw [readBehind_nil _ (segments_ne_nil xs)] at hle hiff heq
      rw [runs, segments, readBehind_append, readBehind_cut, unbroken_released, ← hapart,
        readBehind]
      rw [readBehind, List.nil_append] at hle hiff heq
      have hcut := length_pieces_append_le (t ++ neutralizeESC (ESC :: r)) ((runs xs).headD [])
      simp only [List.length_append] at hle hiff hcut ⊢
      refine ⟨by omega, ?_, ?_⟩
      · constructor
        · intro hlength
          refine ⟨Classical.byContradiction fun hbroken => ?_, hiff.1 (by omega)⟩
          have hlt := length_pieces_of_not_apart hbroken
          omega
        · rintro ⟨hwhole, hrest⟩
          have hlength := hiff.2 hrest
          rw [pieces_append_of_apart hwhole, List.length_append]
          omega
      · rintro ⟨hwhole, hrest⟩
        rw [pieces_append_of_apart hwhole, List.append_assoc, heq hrest]

/-! ## What is written -/

/-- A text before the stretches is read by itself. -/
def Fresh (xs : List Stretch) : Prop :=
  ∀ t, readBehind t (segments xs) = pieces t ++ readBehind [] (segments xs)

theorem fresh_removed (s : Bytes) (xs : List Stretch) : Fresh (.removed s :: xs) := fun t => by
  rw [segments, readBehind_cut, readBehind_cut, List.append_nil, List.append_nil, pieces_nil,
    List.nil_append]

theorem fresh_released (r : Bytes) (xs : List Stretch) : Fresh (.released (ESC :: r) :: xs) :=
  fun t => by
    obtain ⟨v, vs, hv, hstart, -⟩ := encode_bytes replacement
    rw [segments, readBehind_cut, readBehind_cut, neutralizeESC_esc, hv, List.cons_append,
      pieces_append_start t hstart, List.nil_append, List.append_assoc]

theorem Fresh.text_nil (h : Fresh xs) : Fresh (.text [] :: xs) := fun t => by
  rw [segments, readBehind_append, readBehind_append, List.append_nil, List.append_nil]
  exact h t

theorem openEscape_cases (b : Bytes) :
    openEscape b = [] ∨ ∃ r, openEscape b = ESC :: r ∧ ∀ cur, scanEscape cur (ESC :: r) = none := by
  induction Style.default, b using scan_induction with
  | htext cur x hx => exact .inl (openEscape_text hx)
  | hheld cur x r hx h => exact .inr ⟨r, openEscape_held hx h, scanEscape_none h⟩
  | hsequence cur x r n st hx h ih =>
    rw [openEscape_sequence hx h]
    exact ih

/-- What a sequence that is not terminated goes on to is no text of the run before it. -/
theorem fresh_streamStretches (r : Bytes) (chunks : List Bytes)
    (hopen : scanEscape .default (ESC :: r) = none) :
    Fresh (streamStretches (ESC :: r) chunks) := by
  have hnil : ESC ∉ ([] : Bytes) := List.not_mem_nil
  induction chunks generalizing r with
  | nil =>
    rw [streamStretches, if_neg (List.cons_ne_nil _ _)]
    exact fresh_released r []
  | cons chunk chunks ih =>
    rw [streamStretches, List.cons_append]
    cases h : scanEscape .default (ESC :: (r ++ chunk)) with
    | none =>
      have hstretches := stretches_held hnil h
      have hescape := openEscape_held hnil h
      rw [List.nil_append] at hstretches hescape
      rw [hstretches, hescape]
      split
      · exact (fresh_released _ _).text_nil
      · exact (ih (r ++ chunk) h).text_nil
    | some p =>
      obtain ⟨n, st⟩ := p
      have hstretches := stretches_sequence hnil h
      rw [List.nil_append] at hstretches
      rw [hstretches]
      split <;> exact (fresh_removed _ _).text_nil

/-- The characters that are read. -/
def readChars (ps : List Piece) : List Char :=
  ps.map Piece.char

theorem map_painted (cur : Style) (s : Bytes) :
    (painted cur s).map Prod.fst = readChars (pieces s) := by
  rw [painted, List.map_map, readChars]
  rfl

/-- A scan writes the stretches: what waits is a text or the sequence that is not terminated. -/
theorem styled_stretches (cur : Style) (b : Bytes) :
    (openEscape b = [] → ESC ∉ (styled cur b).pending
      ∧ ∀ zs, readChars (readBehind [] (segments (stretches b ++ zs)))
        = (styled cur b).out.map Prod.fst
          ++ readChars (readBehind (styled cur b).pending (segments zs)))
    ∧ (openEscape b ≠ [] →
      ∃ out cur', styled cur b = (unterminated cur' (openEscape b)).after out
        ∧ ∀ zs, Fresh zs → readChars (readBehind [] (segments (stretches b ++ zs)))
          = out.map Prod.fst ++ readChars (readBehind [] (segments zs))) := by
  induction cur, b using scan_induction with
  | htext cur x hx =>
    refine ⟨fun _ => ?_, fun hne => absurd (openEscape_text hx) hne⟩
    rw [styled_text hx, stretches_text hx]
    refine ⟨fun hmem => hx ?_, fun zs => ?_⟩
    · rw [← settled_append_heldTail x]
      exact List.mem_append_right _ hmem
    · rw [List.singleton_append, segments, readBehind_append, List.nil_append, map_painted,
        readBehind, pieces_settled, readBehind, readChars, readChars, readChars, List.append_assoc,
        List.map_append]
  | hheld cur x r hx h =>
    refine ⟨fun hnil => ?_, fun _ => ⟨painted cur x, cur, ?_, fun zs hzs => ?_⟩⟩
    · rw [openEscape_held hx h] at hnil
      contradiction
    · rw [openEscape_held hx h, styled_held hx h]
    · rw [stretches_held hx h, List.singleton_append, segments, readBehind_append, List.nil_append,
        hzs, map_painted, readChars, readChars, readChars, List.map_append]
  | hsequence cur x r n st hx h ih =>
    have hbehind : ∀ zs, readChars (readBehind [] (segments (stretches (x ++ ESC :: r) ++ zs)))
        = (painted cur x).map Prod.fst
          ++ readChars (readBehind [] (segments (stretches ((ESC :: r).drop n) ++ zs))) := by
      intro zs
      rw [stretches_sequence hx h, List.cons_append, List.cons_append, segments, readBehind_append,
        List.nil_append, segments, readBehind_cut, List.append_nil,
        ← readBehind_nil _ (segments_ne_nil _), map_painted, readChars, readChars, readChars,
        List.map_append]
    rw [openEscape_sequence hx h, styled_sequence hx h]
    refine ⟨fun hnil => ⟨(ih.1 hnil).1, fun zs => ?_⟩, fun hne => ?_⟩
    · rw [hbehind, (ih.1 hnil).2, Scanned.after, List.map_append, List.append_assoc]
    · obtain ⟨out, cur', hstyled, hout⟩ := ih.2 hne
      refine ⟨painted cur x ++ out, cur', ?_, fun zs hzs => ?_⟩
      · rw [hstyled, Scanned.after_after]
      · rw [hbehind, hout zs hzs, List.map_append, List.append_assoc]

end Marotte.Terminal
