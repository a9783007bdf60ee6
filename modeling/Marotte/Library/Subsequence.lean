import Mathlib.Data.List.Basic
import Mathlib.Order.Bounds.Basic

/-! # Longest common subsequences

The length of a longest common subsequence by the recursion on the first elements, and what it
is: the greatest length of a list that is a sublist of both. The laws that an alignment algorithm
rests on follow from that: symmetry, reversal, common ends and a split of either side.
-/
namespace Marotte

variable {α : Type*} [DecidableEq α]

def lcs : List α → List α → ℕ
  | [], _ => 0
  | _ :: _, [] => 0
  | x :: xs, y :: ys =>
    if x = y then lcs xs ys + 1 else max (lcs xs (y :: ys)) (lcs (x :: xs) ys)
termination_by xs ys => xs.length + ys.length

@[simp] theorem lcs_nil_left (ys : List α) : lcs [] ys = 0 := by
  rw [lcs]

@[simp] theorem lcs_nil_right (xs : List α) : lcs xs [] = 0 := by
  cases xs <;> rw [lcs]

theorem lcs_cons_cons (x y : α) (xs ys : List α) :
    lcs (x :: xs) (y :: ys) =
      if x = y then lcs xs ys + 1 else max (lcs xs (y :: ys)) (lcs (x :: xs) ys) := by
  rw [lcs]

variable {xs ys c : List α}

/-- Some common sublist has this length. -/
theorem exists_common_sublist (xs ys : List α) :
    ∃ c : List α, c.Sublist xs ∧ c.Sublist ys ∧ c.length = lcs xs ys := by
  fun_induction lcs xs ys with
  | case1 ys => exact ⟨[], List.nil_sublist _, List.nil_sublist _, rfl⟩
  | case2 x xs => exact ⟨[], List.nil_sublist _, List.nil_sublist _, rfl⟩
  | case3 xs x ys ih =>
    obtain ⟨c, hxs, hys, hlen⟩ := ih
    exact ⟨x :: c, hxs.cons_cons x, hys.cons_cons x, by rw [List.length_cons, hlen]⟩
  | case4 x xs y ys hne ih₁ ih₂ =>
    obtain ⟨c₁, hxs₁, hys₁, hlen₁⟩ := ih₁
    obtain ⟨c₂, hxs₂, hys₂, hlen₂⟩ := ih₂
    rcases le_total (lcs xs (y :: ys)) (lcs (x :: xs) ys) with hle | hle
    · exact ⟨c₂, hxs₂, hys₂.cons y, by rw [hlen₂, max_eq_right hle]⟩
    · exact ⟨c₁, hxs₁.cons x, hys₁, by rw [hlen₁, max_eq_left hle]⟩

/-- No common sublist is longer. -/
theorem length_le_lcs (hxs : c.Sublist xs) (hys : c.Sublist ys) : c.length ≤ lcs xs ys := by
  fun_induction lcs xs ys generalizing c with
  | case1 ys => rw [List.sublist_nil.mp hxs, List.length_nil]
  | case2 x xs => rw [List.sublist_nil.mp hys, List.length_nil]
  | case3 xs x ys ih =>
    have htail := ih hxs.tail hys.tail
    rw [List.length_tail] at htail
    omega
  | case4 x xs y ys hne ih₁ ih₂ =>
    rcases List.sublist_cons_iff.mp hxs with hxs' | ⟨r, rfl, -⟩
    · exact le_trans (ih₁ hxs' hys) (Nat.le_max_left ..)
    · rcases List.sublist_cons_iff.mp hys with hys' | ⟨r', heq, -⟩
      · exact le_trans (ih₂ hxs hys') (Nat.le_max_right ..)
      · exact absurd (List.cons.inj heq).1 hne

theorem lcs_le_left (xs ys : List α) : lcs xs ys ≤ xs.length := by
  obtain ⟨c, hxs, -, hlen⟩ := exists_common_sublist xs ys
  rw [← hlen]
  exact hxs.length_le

theorem lcs_le_right (xs ys : List α) : lcs xs ys ≤ ys.length := by
  obtain ⟨c, -, hys, hlen⟩ := exists_common_sublist xs ys
  rw [← hlen]
  exact hys.length_le

theorem lcs_comm (xs ys : List α) : lcs xs ys = lcs ys xs := by
  apply le_antisymm
  · obtain ⟨c, hxs, hys, hlen⟩ := exists_common_sublist xs ys
    rw [← hlen]
    exact length_le_lcs hys hxs
  · obtain ⟨c, hys, hxs, hlen⟩ := exists_common_sublist ys xs
    rw [← hlen]
    exact length_le_lcs hxs hys

theorem lcs_le_reverse (xs ys : List α) : lcs xs ys ≤ lcs xs.reverse ys.reverse := by
  obtain ⟨c, hxs, hys, hlen⟩ := exists_common_sublist xs ys
  rw [← hlen, ← List.length_reverse]
  exact length_le_lcs hxs.reverse hys.reverse

theorem lcs_reverse (xs ys : List α) : lcs xs.reverse ys.reverse = lcs xs ys := by
  apply le_antisymm
  · simpa using lcs_le_reverse xs.reverse ys.reverse
  · exact lcs_le_reverse xs ys

/-- The recursion from the last elements. -/
theorem lcs_concat_concat (x y : α) (xs ys : List α) :
    lcs (xs ++ [x]) (ys ++ [y]) =
      if x = y then lcs xs ys + 1 else max (lcs xs (ys ++ [y])) (lcs (xs ++ [x]) ys) := by
  rw [← lcs_reverse, List.reverse_concat', List.reverse_concat', lcs_cons_cons,
    ← List.reverse_concat', ← List.reverse_concat', lcs_reverse, lcs_reverse, lcs_reverse]

theorem lcs_singleton (x : α) (ys : List α) : lcs [x] ys = if x ∈ ys then 1 else 0 := by
  induction ys with
  | nil => rw [lcs_nil_right, if_neg List.not_mem_nil]
  | cons y ys ih =>
    rw [lcs_cons_cons, lcs_nil_left, lcs_nil_left, ih]
    by_cases hxy : x = y
    · rw [if_pos hxy, hxy, if_pos List.mem_cons_self]
    · rw [if_neg hxy, Nat.zero_max]
      simp only [List.mem_cons, hxy, false_or]

theorem lcs_append_left (p xs ys : List α) : lcs (p ++ xs) (p ++ ys) = p.length + lcs xs ys := by
  induction p with
  | nil => rw [List.nil_append, List.nil_append, List.length_nil, Nat.zero_add]
  | cons x p ih =>
    rw [List.cons_append, List.cons_append, lcs_cons_cons, if_pos rfl, ih, List.length_cons]
    omega

theorem lcs_append_right (s xs ys : List α) : lcs (xs ++ s) (ys ++ s) = lcs xs ys + s.length := by
  rw [← lcs_reverse, List.reverse_append, List.reverse_append, lcs_append_left, lcs_reverse,
    List.length_reverse, Nat.add_comm]

/-! ## Splitting one side -/

theorem lcs_split_le (xs₁ xs₂ ys : List α) (k : ℕ) :
    lcs xs₁ (ys.take k) + lcs xs₂ (ys.drop k) ≤ lcs (xs₁ ++ xs₂) ys := by
  obtain ⟨c₁, hxs₁, hys₁, hlen₁⟩ := exists_common_sublist xs₁ (ys.take k)
  obtain ⟨c₂, hxs₂, hys₂, hlen₂⟩ := exists_common_sublist xs₂ (ys.drop k)
  have hys : (c₁ ++ c₂).Sublist ys := by
    rw [← List.take_append_drop k ys]
    exact hys₁.append hys₂
  rw [← hlen₁, ← hlen₂, ← List.length_append]
  exact length_le_lcs (hxs₁.append hxs₂) hys

/-- Some split of the other side loses nothing. -/
theorem exists_lcs_split (xs₁ xs₂ ys : List α) :
    ∃ k ≤ ys.length, lcs (xs₁ ++ xs₂) ys = lcs xs₁ (ys.take k) + lcs xs₂ (ys.drop k) := by
  obtain ⟨c, hxs, hys, hlen⟩ := exists_common_sublist (xs₁ ++ xs₂) ys
  obtain ⟨c₁, c₂, rfl, hxs₁, hxs₂⟩ := List.sublist_append_iff.mp hxs
  obtain ⟨ys₁, ys₂, rfl, hys₁, hys₂⟩ := List.append_sublist_iff.mp hys
  refine ⟨ys₁.length, by rw [List.length_append]; omega, le_antisymm ?_ (lcs_split_le ..)⟩
  rw [← hlen, List.length_append, List.take_left, List.drop_left]
  exact Nat.add_le_add (length_le_lcs hxs₁ hys₁) (length_le_lcs hxs₂ hys₂)

/-- A split at which the halves' sum is greatest is exact. -/
theorem lcs_split_of_greatest {xs₁ xs₂ ys : List α} {k : ℕ}
    (h : ∀ i ≤ ys.length, lcs xs₁ (ys.take i) + lcs xs₂ (ys.drop i) ≤
      lcs xs₁ (ys.take k) + lcs xs₂ (ys.drop k)) :
    lcs xs₁ (ys.take k) + lcs xs₂ (ys.drop k) = lcs (xs₁ ++ xs₂) ys := by
  apply le_antisymm
  · exact lcs_split_le ..
  · obtain ⟨i, hi, heq⟩ := exists_lcs_split xs₁ xs₂ ys
    rw [heq]
    exact h i hi

end Marotte
