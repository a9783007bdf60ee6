import Marotte.Terminal.Ansi

/-! # What a scan makes of a string

The characters of a string with their styles, the style behind them and the bytes that wait for
more. A string may be scanned in two parts: what waits after the first is scanned with the second.
-/
namespace Marotte.Terminal

open Runes

variable {cur cur' st : Style} {a b x r : Bytes} {n : ℕ}

/-! ## Sequences and what follows them -/

theorem terminated_append (h : terminated a = some n) (b : Bytes) :
    terminated (a ++ b) = some n := by
  induction a generalizing n with
  | nil => contradiction
  | cons c a ih =>
    rw [terminated] at h
    rw [List.cons_append, terminated]
    split at h
    · next hbel => rw [if_pos hbel, h]
    · next hbel =>
      rw [if_neg hbel]
      split at h
      · next hst =>
        rw [List.head?_append, hst.2, Option.some_or, if_pos ⟨hst.1, rfl⟩, h]
      · next hst =>
        obtain ⟨m, hm, rfl⟩ := Option.map_eq_some_iff.1 h
        rw [ih hm, if_neg, Option.map_some]
        rintro ⟨hc, hhead⟩
        cases a with
        | nil => contradiction
        | cons d a => exact hst ⟨hc, hhead⟩

theorem terminated_le (h : terminated a = some n) : n ≤ a.length := by
  induction a generalizing n with
  | nil => contradiction
  | cons c a ih =>
    rw [terminated] at h
    rw [List.length_cons]
    split at h
    · have hn := Option.some.inj h
      omega
    · split at h
      · next hst =>
        have hn := Option.some.inj h
        have hpos : a ≠ [] := fun hnil => by
          rw [hnil] at hst
          cases hst.2
        have := List.length_pos_iff.2 hpos
        omega
      · obtain ⟨m, hm, rfl⟩ := Option.map_eq_some_iff.1 h
        have := ih hm
        omega

/-- The parameters of a control sequence end before the first byte that is none. -/
theorem params_cases (s : Bytes) :
    (∀ d ∈ s, isParam d = true)
      ∨ ∃ params c rest, s = params ++ c :: rest ∧ (∀ d ∈ params, isParam d = true)
        ∧ isParam c = false := by
  induction s with
  | nil => exact .inl fun d hd => absurd hd List.not_mem_nil
  | cons c s ih =>
    cases hc : isParam c with
    | false => exact .inr ⟨[], c, s, rfl, fun d hd => absurd hd List.not_mem_nil, hc⟩
    | true =>
      rcases ih with hall | ⟨params, d, rest, rfl, hparams, hd⟩
      · exact .inl (List.forall_mem_cons.2 ⟨hc, hall⟩)
      · exact .inr ⟨c :: params, d, rest, rfl, List.forall_mem_cons.2 ⟨hc, hparams⟩, hd⟩

theorem scanCSI_none (h : ∀ d ∈ b.drop 2, isParam d = true) : scanCSI cur b = none := by
  rw [scanCSI, List.dropWhile_eq_nil_iff.2 h]

theorem scanCSI_some {params rest : Bytes} {c : UInt8} (hb : b.drop 2 = params ++ c :: rest)
    (hparams : ∀ d ∈ params, isParam d = true) (hc : isParam c = false) :
    scanCSI cur b = some (if 0x40 ≤ c ∧ c ≤ 0x7e then
        (2 + params.length + 1, if c ≠ 0x6d then cur else applySGR cur params)
      else (2 + params.length, cur)) := by
  have htake : (b.drop 2).takeWhile isParam = params := by
    rw [hb, List.takeWhile_append_of_pos hparams, List.takeWhile_cons_of_neg (by simp [hc]),
      List.append_nil]
  have hdrop : (b.drop 2).dropWhile isParam = c :: rest := by
    rw [hb, List.dropWhile_append_of_pos hparams, List.dropWhile_cons_of_neg (by simp [hc])]
  rw [scanCSI, htake, hdrop]
  simp only
  split
  · split <;> rfl
  · rfl

/-- A scan ends a sequence within a string, whatever the style is and whatever follows. -/
def Ends (scan : Style → Bytes → Option (ℕ × Style)) (a : Bytes) (n : ℕ) (f : Style → Style) :
    Prop :=
  n ≤ a.length ∧ ∀ cur b, scan cur (a ++ b) = some (n, f cur)

theorem scanCSI_ends {c d : UInt8} (h : scanCSI cur (c :: d :: a) = some (n, st)) :
    ∃ f, f cur = st ∧ Ends scanCSI (c :: d :: a) n f := by
  rcases params_cases a with hall | ⟨params, e, rest, rfl, hparams, he⟩
  · have hnone : scanCSI cur (c :: d :: a) = none := scanCSI_none hall
    rw [h] at hnone
    contradiction
  · have hb : ∀ b, (c :: d :: (params ++ e :: rest) ++ b).drop 2 = params ++ e :: (rest ++ b) := by
      simp
    have hsome := fun cur b => @scanCSI_some cur _ params _ e (hb b) hparams he
    have hself := hsome cur []
    rw [List.append_nil, h, Option.some.injEq, eq_comm] at hself
    split at hself
    · next hfinal =>
      obtain ⟨rfl, hst⟩ := Prod.mk.inj hself
      refine ⟨fun cur => if e ≠ 0x6d then cur else applySGR cur params, hst, ?_, fun cur b => ?_⟩
      · simp only [List.length_cons, List.length_append]
        omega
      · rw [hsome, if_pos hfinal]
    · next hfinal =>
      obtain ⟨rfl, hst⟩ := Prod.mk.inj hself
      refine ⟨id, hst, ?_, fun cur b => ?_⟩
      · simp only [List.length_cons, List.length_append]
        omega
      · rw [hsome, if_neg hfinal, id]

theorem scanStringTerminated_ends {c d : UInt8}
    (h : scanStringTerminated cur (c :: d :: a) = some (n, st)) :
    ∃ f, f cur = st ∧ Ends scanStringTerminated (c :: d :: a) n f := by
  obtain ⟨m, hm, hn⟩ := Option.map_eq_some_iff.1 h
  obtain ⟨rfl, hst⟩ := Prod.mk.inj hn
  refine ⟨id, hst, ?_, fun cur b => ?_⟩
  · have hle := terminated_le hm
    simpa using hle
  · exact Option.map_eq_some_iff.2 ⟨m, terminated_append hm b, rfl⟩

/-- A sequence that is terminated is the same in every style and before more bytes. -/
theorem scanEscape_ends (h : scanEscape cur a = some (n, st)) :
    ∃ f, f cur = st ∧ Ends scanEscape a n f := by
  rw [scanEscape.eq_def] at h
  split at h
  · next c d a =>
    have heq := fun cur b => scanEscape.eq_def cur (c :: d :: a ++ b)
    simp only [List.cons_append] at heq
    split at h
    · next hd =>
      obtain ⟨f, hst, hle, hf⟩ := scanCSI_ends h
      refine ⟨f, hst, hle, fun cur b => (heq cur b).trans ?_⟩
      rw [if_pos hd]
      exact hf cur b
    · next hcsi =>
      split at h
      · next hd =>
        obtain ⟨f, hst, hle, hf⟩ := scanStringTerminated_ends h
        refine ⟨f, hst, hle, fun cur b => (heq cur b).trans ?_⟩
        rw [if_neg hcsi, if_pos hd]
        exact hf cur b
      · next hosc =>
        split at h
        · next hd =>
          split at h
          · contradiction
          · next hne =>
            obtain ⟨rfl, hst⟩ := Prod.mk.inj (Option.some.inj h)
            have hpos := List.length_pos_iff.2 hne
            refine ⟨id, hst, ?_, fun cur b => (heq cur b).trans ?_⟩
            · rw [List.length_cons, List.length_cons]
              omega
            · rw [if_neg hcsi, if_neg hosc, if_pos hd,
                if_neg fun hnil => hne (List.append_eq_nil_iff.1 hnil).1, id]
        · next hset =>
          split at h
          · next hd =>
            obtain ⟨f, hst, hle, hf⟩ := scanStringTerminated_ends h
            refine ⟨f, hst, hle, fun cur b => (heq cur b).trans ?_⟩
            rw [if_neg hcsi, if_neg hosc, if_neg hset, if_pos hd]
            exact hf cur b
          · next hd =>
            obtain ⟨rfl, hst⟩ := Prod.mk.inj (Option.some.inj h)
            refine ⟨id, hst, by simp, fun cur b => (heq cur b).trans ?_⟩
            rw [if_neg hcsi, if_neg hosc, if_neg hset, if_neg hd, id]
  · contradiction

theorem scanEscape_le (h : scanEscape cur a = some (n, st)) : n ≤ a.length := by
  obtain ⟨f, -, hle, -⟩ := scanEscape_ends h
  exact hle

theorem scanEscape_append (h : scanEscape cur a = some (n, st)) (b : Bytes) :
    scanEscape cur (a ++ b) = some (n, st) := by
  obtain ⟨f, rfl, -, hf⟩ := scanEscape_ends h
  exact hf cur b

theorem scanEscape_none (h : scanEscape cur a = none) (cur' : Style) :
    scanEscape cur' a = none := by
  cases h' : scanEscape cur' a with
  | none => rfl
  | some p =>
    obtain ⟨n, st⟩ := p
    obtain ⟨f, -, -, hf⟩ := scanEscape_ends h'
    have hsome := hf cur []
    rw [List.append_nil, h] at hsome
    contradiction

/-- A sequence has the same length in every style. -/
theorem scanEscape_style (h : scanEscape cur a = some (n, st)) (cur' : Style) :
    ∃ st', scanEscape cur' a = some (n, st') := by
  obtain ⟨f, -, -, hf⟩ := scanEscape_ends h
  have hsome := hf cur' []
  rw [List.append_nil] at hsome
  exact ⟨f cur', hsome⟩

/-! ## The scan of a string -/

/-- The characters with their styles, the style behind them and the bytes that wait for more. -/
structure Scanned where
  out : List (Char × Style)
  cur : Style
  pending : Bytes

/-- What is read behind characters. -/
def Scanned.after (out : List (Char × Style)) (scanned : Scanned) : Scanned :=
  { scanned with out := out ++ scanned.out }

/-- The characters of a text, all of one style. -/
def painted (cur : Style) (s : Bytes) : List (Char × Style) :=
  (pieces s).map fun p => (p.char, cur)

/-- A sequence that is not terminated waits, unless it is too long: it is text then. -/
def unterminated (cur : Style) (rest : Bytes) : Scanned :=
  if maxPendingBytes < rest.length then ⟨painted cur (neutralizeESC rest), cur, []⟩
  else ⟨[], cur, rest⟩

theorem length_drop_escape (h : scanEscape cur (b.dropWhile fun b => b ≠ ESC) = some (n, st))
    (hrest : ¬ (b.dropWhile fun b => b ≠ ESC) = []) :
    ((b.dropWhile fun b => b ≠ ESC).drop n).length < b.length := by
  have hpos := scanEscape_pos h
  have hle : (b.dropWhile fun b => b ≠ ESC).length ≤ b.length :=
    (List.dropWhile_suffix _).length_le
  have := List.length_pos_iff.2 hrest
  rw [List.length_drop]
  omega

/-- Text has the style the sequences before it make. Of a text at the end what may begin a character
waits. -/
def styled (cur : Style) (buf : Bytes) : Scanned :=
  let before := buf.takeWhile fun b => b ≠ ESC
  let rest := buf.dropWhile fun b => b ≠ ESC
  if _hrest : rest = [] then ⟨painted cur (settled buf), cur, heldTail buf⟩
  else
    match _h : scanEscape cur rest with
    | none => (unterminated cur rest).after (painted cur before)
    | some (n, st) => (styled st (rest.drop n)).after (painted cur before)
termination_by buf.length
decreasing_by exact length_drop_escape _h _hrest

/-- The sequence at the end of a string that is not terminated, or nothing. -/
def openEscape (buf : Bytes) : Bytes :=
  let rest := buf.dropWhile fun b => b ≠ ESC
  if _hrest : rest = [] then []
  else
    match _h : scanEscape .default rest with
    | none => rest
    | some (n, _) => openEscape (rest.drop n)
termination_by buf.length
decreasing_by exact length_drop_escape _h _hrest

/-! ## The scan by its cases -/

theorem takeWhile_text (hx : ESC ∉ x) (r : Bytes) :
    (x ++ ESC :: r).takeWhile (fun b => b ≠ ESC) = x := by
  rw [List.takeWhile_append_of_pos fun b hb => by simpa using fun h : b = ESC => hx (h ▸ hb)]
  simp

theorem dropWhile_text (hx : ESC ∉ x) (r : Bytes) :
    (x ++ ESC :: r).dropWhile (fun b => b ≠ ESC) = ESC :: r := by
  rw [List.dropWhile_append_of_pos fun b hb => by simpa using fun h : b = ESC => hx (h ▸ hb)]
  simp

theorem dropWhile_plain (hx : ESC ∉ x) : x.dropWhile (fun b => b ≠ ESC) = [] := by
  rw [List.dropWhile_eq_nil_iff]
  intro b hb
  simpa using fun h : b = ESC => hx (h ▸ hb)

theorem styled_text (hx : ESC ∉ x) :
    styled cur x = ⟨painted cur (settled x), cur, heldTail x⟩ := by
  rw [styled]
  exact dif_pos (dropWhile_plain hx)

theorem styled_held (hx : ESC ∉ x) (h : scanEscape cur (ESC :: r) = none) :
    styled cur (x ++ ESC :: r) = (unterminated cur (ESC :: r)).after (painted cur x) := by
  rw [styled]
  simp only [takeWhile_text hx, dropWhile_text hx]
  rw [dif_neg (List.cons_ne_nil _ _)]
  split
  · rfl
  · next heq =>
    rw [dropWhile_text hx, h] at heq
    contradiction

theorem styled_sequence (hx : ESC ∉ x) (h : scanEscape cur (ESC :: r) = some (n, st)) :
    styled cur (x ++ ESC :: r) = (styled st ((ESC :: r).drop n)).after (painted cur x) := by
  conv_lhs => rw [styled]
  simp only [takeWhile_text hx, dropWhile_text hx]
  rw [dif_neg (List.cons_ne_nil _ _)]
  split
  · next heq =>
    rw [dropWhile_text hx, h] at heq
    contradiction
  · next heq =>
    rw [dropWhile_text hx, h] at heq
    obtain ⟨rfl, rfl⟩ := Prod.mk.inj (Option.some.inj heq)
    rfl

theorem openEscape_text (hx : ESC ∉ x) : openEscape x = [] := by
  rw [openEscape]
  exact dif_pos (dropWhile_plain hx)

theorem openEscape_held (hx : ESC ∉ x) (h : scanEscape cur (ESC :: r) = none) :
    openEscape (x ++ ESC :: r) = ESC :: r := by
  rw [openEscape]
  simp only [dropWhile_text hx]
  rw [dif_neg (List.cons_ne_nil _ _)]
  split
  · rfl
  · next heq =>
    rw [dropWhile_text hx, scanEscape_none h] at heq
    contradiction

theorem openEscape_sequence (hx : ESC ∉ x) (h : scanEscape cur (ESC :: r) = some (n, st)) :
    openEscape (x ++ ESC :: r) = openEscape ((ESC :: r).drop n) := by
  obtain ⟨st', hst⟩ := scanEscape_style h .default
  conv_lhs => rw [openEscape]
  simp only [dropWhile_text hx]
  rw [dif_neg (List.cons_ne_nil _ _)]
  split
  · next heq =>
    rw [dropWhile_text hx, hst] at heq
    contradiction
  · next heq =>
    rw [dropWhile_text hx, hst] at heq
    obtain ⟨rfl, -⟩ := Prod.mk.inj (Option.some.inj heq)
    rfl

/-- A scan ends in text or in a sequence that is not terminated, or goes on behind a sequence. -/
theorem scan_induction {P : Style → Bytes → Prop} (htext : ∀ cur x, ESC ∉ x → P cur x)
    (hheld : ∀ cur x r, ESC ∉ x → scanEscape cur (ESC :: r) = none → P cur (x ++ ESC :: r))
    (hsequence : ∀ cur x r n st, ESC ∉ x → scanEscape cur (ESC :: r) = some (n, st) →
      P st ((ESC :: r).drop n) → P cur (x ++ ESC :: r)) (cur : Style) (b : Bytes) : P cur b := by
  induction hlen : b.length using Nat.strong_induction_on generalizing cur b with
  | _ k ih =>
    by_cases hb : ESC ∈ b
    · obtain ⟨x, r, rfl, hx⟩ := List.eq_append_cons_of_mem hb
      cases h : scanEscape cur (ESC :: r) with
      | none => exact hheld cur x r hx h
      | some p =>
        obtain ⟨n, st⟩ := p
        have hpos := scanEscape_pos h
        refine hsequence cur x r n st hx h (ih _ ?_ st _ rfl)
        rw [List.length_append, List.length_cons] at hlen
        rw [List.length_drop, List.length_cons]
        omega
    · exact htext cur b hb

/-! ## Two parts -/

theorem Scanned.after_after (out out' : List (Char × Style)) (scanned : Scanned) :
    (scanned.after out').after out = scanned.after (out ++ out') := by
  rw [after, after, after, List.append_assoc]

/-- Text before a sequence is read by itself. -/
theorem styled_behind (hx : ESC ∉ x) (cur : Style) (r : Bytes) :
    styled cur (x ++ ESC :: r) = (styled cur (ESC :: r)).after (painted cur x) := by
  have hnil : ESC ∉ ([] : Bytes) := List.not_mem_nil
  have hempty : painted cur [] = [] := by rw [painted, pieces_nil, List.map_nil]
  cases h : scanEscape cur (ESC :: r) with
  | none =>
    have hself := styled_held hnil h
    rw [hempty, List.nil_append] at hself
    rw [styled_held hx h, hself, Scanned.after_after, List.append_nil]
  | some p =>
    obtain ⟨n, st⟩ := p
    have hself := styled_sequence hnil h
    rw [hempty, List.nil_append] at hself
    rw [styled_sequence hx h, hself, Scanned.after_after, List.append_nil]

/-- What waits after a first part is scanned with the second. -/
theorem styled_append (a : Bytes) (hopen : (openEscape a).length ≤ maxPendingBytes) (cur : Style)
    (b : Bytes) :
    styled cur (a ++ b)
      = (styled (styled cur a).cur ((styled cur a).pending ++ b)).after (styled cur a).out := by
  induction cur, a using scan_induction with
  | htext cur a ha =>
    rw [styled_text ha]
    simp only
    by_cases hb : ESC ∈ b
    · obtain ⟨x, r, rfl, hx⟩ := List.eq_append_cons_of_mem hb
      have hheld : ESC ∉ heldTail a ++ x := fun hmem => (List.mem_append.1 hmem).elim
        (fun hmem => ha (settled_append_heldTail a ▸ List.mem_append_right _ hmem)) hx
      have hpainted :
          painted cur (a ++ x) = painted cur (settled a) ++ painted cur (heldTail a ++ x) := by
        rw [painted, pieces_settled, List.map_append, painted, painted]
      rw [← List.append_assoc, styled_behind (by simp [ha, hx]), ← List.append_assoc,
        styled_behind hheld, Scanned.after_after, hpainted]
    · have hheld : ESC ∉ heldTail a ++ b := fun hmem => (List.mem_append.1 hmem).elim
        (fun hmem => ha (settled_append_heldTail a ▸ List.mem_append_right _ hmem)) hb
      rw [styled_text (by simp [ha, hb]), styled_text hheld, Scanned.after]
      simp only [Scanned.mk.injEq, true_and]
      refine ⟨?_, heldTail_settled a b⟩
      rw [painted, pieces_settled_append, List.map_append, painted, painted]
  | hheld cur x r hx h =>
    rw [openEscape_held hx h] at hopen
    have hwaits : unterminated cur (ESC :: r) = ⟨[], cur, ESC :: r⟩ := if_neg (by omega)
    rw [styled_held hx h, hwaits, List.append_assoc, List.cons_append, styled_behind hx]
    simp only [Scanned.after, List.append_nil, List.cons_append]
  | hsequence cur x r n st hx h ih =>
    rw [openEscape_sequence hx h] at hopen
    have happend := scanEscape_append h b
    rw [List.cons_append] at happend
    rw [styled_sequence hx h, List.append_assoc, List.cons_append, styled_sequence hx happend,
      ← List.cons_append, List.drop_append_of_le_length (scanEscape_le h), ih hopen]
    simp only [Scanned.after, List.append_assoc]

end Marotte.Terminal
