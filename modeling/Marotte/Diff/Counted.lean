import Marotte.Diff.Script

/-! # What a script counts

A script of `m` old and `n` new lines that keeps `common` of them adds and deletes the rest. Every
exact way to a script keeps as many lines as the two sides have in common.
-/
namespace Marotte.Diff

/-! ## Slices -/

section Slices

variable {α : Type*} {l : List α} {lo mid hi : ℕ}

theorem length_slice (h : hi ≤ l.length) : (slice l lo hi).length = hi - lo := by
  rw [slice, List.length_take, List.length_drop]
  omega

theorem slice_zero (l : List α) : slice l 0 l.length = l := by
  rw [slice, List.drop_zero, Nat.sub_zero, List.take_length]

theorem take_slice (h : mid ≤ hi) : (slice l lo hi).take (mid - lo) = slice l lo mid := by
  rw [slice, slice, List.take_take]
  congr 1
  omega

theorem drop_slice (h : lo ≤ mid) : (slice l lo hi).drop (mid - lo) = slice l mid hi := by
  rw [slice, slice, List.drop_take, List.drop_drop]
  congr 1
  · omega
  · congr 1
    omega

theorem slice_append (hlo : lo ≤ mid) (hhi : mid ≤ hi) :
    slice l lo mid ++ slice l mid hi = slice l lo hi := by
  rw [← take_slice hhi, ← drop_slice hlo]
  exact List.take_append_drop ..

theorem getElem?_slice {i : ℕ} (h : lo + i < hi) : (slice l lo hi)[i]? = l[lo + i]? := by
  rw [slice, List.getElem?_take_of_lt (by omega), List.getElem?_drop]

theorem slice_singleton {x : α} (h : l[lo]? = some x) : slice l lo (lo + 1) = [x] := by
  apply List.ext_getElem?
  intro i
  cases i with
  | zero => rw [getElem?_slice (by omega), Nat.add_zero, h, List.getElem?_cons_zero]
  | succ i =>
    rw [List.getElem?_eq_none_iff.mpr, List.getElem?_eq_none_iff.mpr]
    · rw [List.length_singleton]
      omega
    · rw [slice, List.length_take]
      omega

theorem mem_slice {x : α} : x ∈ slice l lo hi ↔ ∃ j ∈ List.range' lo (hi - lo), l[j]? = some x := by
  rw [List.mem_iff_getElem?]
  constructor
  · rintro ⟨i, hi'⟩
    have hlt : i < hi - lo := by
      by_contra hge
      rw [slice, List.getElem?_take_eq_none (by omega)] at hi'
      cases hi'
    rw [getElem?_slice (by omega)] at hi'
    exact ⟨lo + i, List.mem_range'_1.mpr (by omega), hi'⟩
  · rintro ⟨j, hj, hx⟩
    rw [List.mem_range'_1] at hj
    refine ⟨j - lo, ?_⟩
    rw [getElem?_slice (by omega), show lo + (j - lo) = j by omega, hx]

end Slices

/-! ## Counts -/

/-- A script that keeps `common` lines of `m` old and `n` new ones. -/
structure Counted (lines : List DiffLine) (m n common : ℕ) : Prop where
  adds : (stats lines).adds + common = n
  dels : (stats lines).dels + common = m

variable {lines lines' : List DiffLine} {m n common m' n' common' : ℕ}

theorem counted_nil : Counted [] 0 0 0 := ⟨rfl, rfl⟩

theorem Counted.append (h : Counted lines m n common) (h' : Counted lines' m' n' common') :
    Counted (lines ++ lines') (m + m') (n + n') (common + common') := by
  obtain ⟨hadds, hdels⟩ := h
  obtain ⟨hadds', hdels'⟩ := h'
  simp only [stats] at hadds hdels hadds' hdels'
  constructor
  · simp only [stats, List.countP_append]
    omega
  · simp only [stats, List.countP_append]
    omega

theorem counted_delLine (aOrig : List Line) (aOffset i : ℕ) :
    Counted [delLine aOrig aOffset i] 1 0 0 := ⟨rfl, rfl⟩

theorem counted_addLine (bOrig : List Line) (bOffset j : ℕ) :
    Counted [addLine bOrig bOffset j] 0 1 0 := ⟨rfl, rfl⟩

theorem counted_ctxLine (aOrig : List Line) (aOffset bOffset i j : ℕ) :
    Counted [ctxLine aOrig aOffset bOffset i j] 1 1 1 := ⟨rfl, rfl⟩

theorem Counted.map {ι : Type*} {f : ι → DiffLine} (h : ∀ i, Counted [f i] m n common)
    (is : List ι) : Counted (is.map f) (is.length * m) (is.length * n) (is.length * common) := by
  induction is with
  | nil => simpa using counted_nil
  | cons i is ih =>
    rw [List.length_cons, Nat.succ_mul, Nat.succ_mul, Nat.succ_mul, Nat.add_comm _ m,
      Nat.add_comm _ n, Nat.add_comm _ common]
    exact (h i).append ih

theorem counted_delRun (aOrig : List Line) (aOffset lo hi : ℕ) :
    Counted (delRun aOrig aOffset lo hi) (hi - lo) 0 0 := by
  simpa [delRun] using Counted.map (counted_delLine aOrig aOffset) (List.range' lo (hi - lo))

theorem counted_addRun (bOrig : List Line) (bOffset lo hi : ℕ) :
    Counted (addRun bOrig bOffset lo hi) 0 (hi - lo) 0 := by
  simpa [addRun] using Counted.map (counted_addLine bOrig bOffset) (List.range' lo (hi - lo))

theorem Counted.congr (h : Counted lines m n common) (hm : m = m') (hn : n = n')
    (hc : common = common') : Counted lines m' n' common' := by
  subst hm hn hc
  exact h

/-! ## The walk -/

theorem counted_walk (a b aNormMid bNormMid : List Line) (p i j : ℕ) :
    Counted
      (walk a b aNormMid bNormMid (lcsTable aNormMid bNormMid) p aNormMid.length bNormMid.length i j)
      (aNormMid.length - i) (bNormMid.length - j) (lcs (aNormMid.drop i) (bNormMid.drop j)) := by
  fun_induction walk a b aNormMid bNormMid (lcsTable aNormMid bNormMid) p aNormMid.length
    bNormMid.length i j with
  | case1 i j hij heq ih =>
    rw [List.getElem?_eq_getElem hij.1, List.getElem?_eq_getElem hij.2, Option.some.injEq] at heq
    rw [List.drop_eq_getElem_cons hij.1, List.drop_eq_getElem_cons hij.2, lcs_cons_cons,
      if_pos heq]
    apply ((counted_ctxLine a 0 0 (p + i) (p + j)).append ih).congr
    · omega
    · omega
    · omega
  | case2 i j hij hne hcell ih =>
    rw [cellAt_lcsTable, cellAt_lcsTable] at hcell
    rw [List.getElem?_eq_getElem hij.1, List.getElem?_eq_getElem hij.2, Option.some.injEq] at hne
    rw [List.drop_eq_getElem_cons hij.2] at hcell ih ⊢
    rw [List.drop_eq_getElem_cons hij.1] at hcell ⊢
    rw [lcs_cons_cons, if_neg hne, max_eq_left hcell]
    apply ((counted_delLine a 0 (p + i)).append ih).congr
    · omega
    · omega
    · omega
  | case3 i j hij hne hcell ih =>
    rw [cellAt_lcsTable, cellAt_lcsTable] at hcell
    rw [List.getElem?_eq_getElem hij.1, List.getElem?_eq_getElem hij.2, Option.some.injEq] at hne
    rw [List.drop_eq_getElem_cons hij.1] at hcell ih ⊢
    rw [List.drop_eq_getElem_cons hij.2] at hcell ⊢
    rw [lcs_cons_cons, if_neg hne, max_eq_right (Nat.le_of_not_ge hcell)]
    apply ((counted_addLine b 0 (p + j)).append ih).congr
    · omega
    · omega
    · omega
  | case4 i j hij =>
    have hzero : lcs (aNormMid.drop i) (bNormMid.drop j) = 0 := by
      by_cases hi : i < aNormMid.length
      · rw [List.drop_of_length_le (l := bNormMid) (by omega), lcs_nil_right]
      · rw [List.drop_of_length_le (by omega), lcs_nil_left]
    apply ((counted_delRun a 0 (p + i) (p + aNormMid.length)).append
      (counted_addRun b 0 (p + j) (p + bNormMid.length))).congr
    · omega
    · omega
    · exact hzero.symm

/-! ## Divide and conquer -/

/-- A fold that keeps the greatest score and where it was reached. -/
theorem foldl_best (score : ℕ → ℕ) (js : List ℕ) (best : ℕ × ℤ) :
    let last := js.foldl
      (fun (best : ℕ × ℤ) j => if best.2 < score j then (j, (score j : ℤ)) else best) best
    best.2 ≤ last.2 ∧ (∀ j ∈ js, (score j : ℤ) ≤ last.2) ∧
      (last = best ∨ last.1 ∈ js ∧ last.2 = score last.1) := by
  induction js generalizing best with
  | nil => exact ⟨le_rfl, fun _ h => absurd h List.not_mem_nil, .inl rfl⟩
  | cons j js ih =>
    rw [List.foldl_cons]
    by_cases hlt : best.2 < score j
    · rw [if_pos hlt]
      obtain ⟨hle, hall, hor⟩ := ih (j, (score j : ℤ))
      refine ⟨le_trans hlt.le hle, fun j' hj' => ?_, .inr ?_⟩
      · rcases List.mem_cons.mp hj' with rfl | hj'
        · exact hle
        · exact hall j' hj'
      · rcases hor with heq | ⟨hmem, heq⟩
        · rw [heq]
          exact ⟨List.mem_cons_self, rfl⟩
        · exact ⟨List.mem_cons_of_mem j hmem, heq⟩
    · rw [if_neg hlt]
      obtain ⟨hle, hall, hor⟩ := ih best
      refine ⟨hle, fun j' hj' => ?_, ?_⟩
      · rcases List.mem_cons.mp hj' with rfl | hj'
        · exact le_trans (not_lt.mp hlt) hle
        · exact hall j' hj'
      · rcases hor with heq | ⟨hmem, heq⟩
        · exact .inl heq
        · exact .inr ⟨List.mem_cons_of_mem j hmem, heq⟩

/-- The split lies in the range and no index of the range scores higher. -/
theorem bestSplit_spec (score : ℕ → ℕ) {lo hi : ℕ} (h : lo ≤ hi) :
    lo ≤ bestSplit score lo hi ∧ bestSplit score lo hi ≤ hi ∧
      ∀ j, lo ≤ j → j ≤ hi → score j ≤ score (bestSplit score lo hi) := by
  obtain ⟨-, hall, hor⟩ := foldl_best score (List.range' lo (hi + 1 - lo)) (lo, -1)
  rcases hor with heq | ⟨hmem, heq⟩
  · have hlo := hall lo (List.mem_range'_1.mpr (by omega))
    rw [heq] at hlo
    omega
  · rw [List.mem_range'_1] at hmem
    change lo ≤ bestSplit score lo hi ∧ bestSplit score lo hi < _ at hmem
    refine ⟨hmem.1, by omega, fun j hlo hhi => ?_⟩
    have hj := hall j (List.mem_range'_1.mpr (by omega))
    rw [heq] at hj
    exact_mod_cast hj

variable {a b aOrig bOrig : List Line} {aOffset bOffset aLo aHi bLo bHi : ℕ}

/-- What a split of the new side scores: the two halves' common lines. -/
theorem score_eq {aMid j : ℕ} (hbHi : bHi ≤ b.length) (hlo : bLo ≤ j) (hhi : j ≤ bHi) :
    (lcsLastRow a aLo aMid b bLo bHi).getD (j - bLo) 0 +
        (lcsLastRow (slice a aMid aHi).reverse 0 (slice a aMid aHi).reverse.length
          (slice b bLo bHi).reverse 0 (slice b bLo bHi).reverse.length).getD (bHi - j) 0 =
      lcs (slice a aLo aMid) ((slice b bLo bHi).take (j - bLo)) +
        lcs (slice a aMid aHi) ((slice b bLo bHi).drop (j - bLo)) := by
  have hlen : (slice b bLo bHi).length = bHi - bLo := length_slice hbHi
  have hrev : (slice b bLo bHi).reverse.take (bHi - j) =
      ((slice b bLo bHi).drop (j - bLo)).reverse := by
    rw [List.take_reverse, hlen]
    congr 2
    omega
  rw [lcsLastRow, lcsLastRow, slice_zero, slice_zero, getD_lastRow _ _ (by omega),
    getD_lastRow _ _ (by rw [List.length_reverse]; omega), hrev, lcs_reverse]

/-- The chosen split loses nothing. -/
theorem splitPoint_spec {aMid : ℕ} (hlo : aLo ≤ aMid) (hhi : aMid ≤ aHi) (hb : bLo ≤ bHi)
    (hbHi : bHi ≤ b.length) :
    let bestJ := splitPoint a b aLo aMid aHi bLo bHi
    bLo ≤ bestJ ∧ bestJ ≤ bHi ∧
      lcs (slice a aLo aMid) (slice b bLo bestJ) + lcs (slice a aMid aHi) (slice b bestJ bHi) =
        lcs (slice a aLo aHi) (slice b bLo bHi) := by
  intro bestJ
  obtain ⟨hbest, hbest', hall⟩ := bestSplit_spec (fun j =>
    (lcsLastRow a aLo aMid b bLo bHi).getD (j - bLo) 0 +
      (lcsLastRow (slice a aMid aHi).reverse 0 (slice a aMid aHi).reverse.length
        (slice b bLo bHi).reverse 0 (slice b bLo bHi).reverse.length).getD (bHi - j) 0) hb
  change bLo ≤ bestJ at hbest
  change bestJ ≤ bHi at hbest'
  have hscore : ∀ j, bLo ≤ j → j ≤ bHi →
      lcs (slice a aLo aMid) ((slice b bLo bHi).take (j - bLo)) +
          lcs (slice a aMid aHi) ((slice b bLo bHi).drop (j - bLo)) ≤
        lcs (slice a aLo aMid) ((slice b bLo bHi).take (bestJ - bLo)) +
          lcs (slice a aMid aHi) ((slice b bLo bHi).drop (bestJ - bLo)) := by
    intro j hj hj'
    rw [← score_eq hbHi hj hj', ← score_eq hbHi hbest hbest']
    exact hall j hj hj'
  refine ⟨hbest, hbest', ?_⟩
  have hgreatest := @lcs_split_of_greatest _ _ (slice a aLo aMid) (slice a aMid aHi)
    (slice b bLo bHi) (bestJ - bLo) ?_
  · rw [take_slice hbest', drop_slice hbest, slice_append hlo hhi] at hgreatest
    exact hgreatest
  · intro i hi
    rw [length_slice hbHi] at hi
    have hj := hscore (bLo + i) (by omega) (by omega)
    rw [Nat.add_sub_cancel_left] at hj
    exact hj

/-- The base case of one old line. -/
theorem counted_single (haHi : aHi ≤ a.length) (hm : aHi - aLo = 1) :
    Counted
      (match (List.range' bLo (bHi - bLo)).find? fun j => b[j]? = a[aLo]? with
        | none => delLine aOrig aOffset aLo :: addRun bOrig bOffset bLo bHi
        | some matchIdx =>
          addRun bOrig bOffset bLo matchIdx ++
            ctxLine aOrig aOffset bOffset aLo matchIdx :: addRun bOrig bOffset (matchIdx + 1) bHi)
      1 (bHi - bLo) (lcs (slice a aLo aHi) (slice b bLo bHi)) := by
  have hx : a[aLo]? = some a[aLo] := List.getElem?_eq_getElem (by omega)
  rw [show aHi = aLo + 1 by omega, slice_singleton hx, lcs_singleton]
  split
  · next hfind =>
    rw [List.find?_eq_none] at hfind
    have hnot : a[aLo] ∉ slice b bLo bHi := by
      intro hmem
      obtain ⟨j, hj, heq⟩ := mem_slice.mp hmem
      exact hfind j hj (by rw [heq, hx, decide_eq_true_eq])
    rw [if_neg hnot]
    apply ((counted_delLine aOrig aOffset aLo).append (counted_addRun bOrig bOffset bLo bHi)).congr
    · omega
    · omega
    · rfl
  · next matchIdx hfind =>
    have hmem := List.mem_range'_1.mp (List.mem_of_find?_eq_some hfind)
    have heq : b[matchIdx]? = some a[aLo] := by
      have htest := List.find?_some hfind
      rw [decide_eq_true_eq] at htest
      rw [htest, hx]
    have hin : a[aLo] ∈ slice b bLo bHi :=
      mem_slice.mpr ⟨matchIdx, List.mem_of_find?_eq_some hfind, heq⟩
    rw [if_pos hin]
    apply ((counted_addRun bOrig bOffset bLo matchIdx).append
      ((counted_ctxLine aOrig aOffset bOffset aLo matchIdx).append
        (counted_addRun bOrig bOffset (matchIdx + 1) bHi))).congr
    · omega
    · omega
    · omega

/-- The divide and conquer keeps as many lines as the two sides have in common. -/
theorem counted_hirschbergDiff (h : aLo < aHi) (haHi : aHi ≤ a.length) (hb : bLo ≤ bHi)
    (hbHi : bHi ≤ b.length) :
    Counted (hirschbergDiff a b aOrig bOrig aOffset bOffset aLo aHi bLo bHi h)
      (aHi - aLo) (bHi - bLo) (lcs (slice a aLo aHi) (slice b bLo bHi)) := by
  induction hm : aHi - aLo using Nat.strong_induction_on generalizing aLo aHi bLo bHi with
  | _ m ih =>
    rw [hirschbergDiff]
    split
    · next hn =>
      have hempty : slice b bLo bHi = [] := by rw [slice, hn, List.take_zero]
      rw [hempty, lcs_nil_right, hn, ← hm]
      exact counted_delRun aOrig aOffset aLo aHi
    · split
      · next hone =>
        rw [← hm, hone]
        exact counted_single haHi hone
      · next hne =>
        obtain ⟨hlo, hhi, hsplit⟩ := @splitPoint_spec a b aLo aHi bLo bHi
          (aLo + (aHi - aLo) / 2) (by omega) (by omega) hb hbHi
        have hleft := @ih (aLo + (aHi - aLo) / 2 - aLo) (by omega) aLo (aLo + (aHi - aLo) / 2) bLo
          _ (by omega) (by omega) hlo (hhi.trans hbHi) rfl
        have hright := @ih (aHi - (aLo + (aHi - aLo) / 2)) (by omega) (aLo + (aHi - aLo) / 2) aHi
          _ bHi (by omega) haHi hhi hbHi rfl
        apply (hleft.append hright).congr
        · omega
        · omega
        · exact hsplit

end Marotte.Diff
