import Mathlib.Data.List.DropRight
import Mathlib.Data.Nat.Basic

/-! # The last elements of a list

A list cut to its last elements, and what is left of it when more are added.
-/
namespace Marotte.Recent

variable {α : Type*} {n : ℕ} {l p : List α}

theorem rtake_of_length_le (h : l.length ≤ n) : l.rtake n = l := by
  rw [List.rtake, Nat.sub_eq_zero_of_le h, List.drop_zero]

theorem length_rtake_le (n : ℕ) (l : List α) : (l.rtake n).length ≤ n := by
  rw [List.rtake, List.length_drop]
  omega

/-- What is added pushes out as many. -/
theorem rtake_append (h : n ≤ l.length) (hp : p.length ≤ n) :
    (l ++ p).rtake n = (l.rtake n).drop p.length ++ p := by
  have hle : (l ++ p).length - n ≤ l.length := by
    rw [List.length_append]
    omega
  rw [List.rtake, List.drop_append_of_le_length hle, List.rtake, List.drop_drop, List.length_append]
  congr 2
  omega

/-- What is added last is all that matters when it is long enough. -/
theorem rtake_append_of_le (hp : n ≤ p.length) : (l ++ p).rtake n = p.rtake n := by
  rw [List.rtake, List.drop_append, List.length_append, List.drop_of_length_le (by omega),
    List.nil_append, List.rtake]
  congr 1
  omega

/-- Elements may be dropped before more are added. -/
theorem rtake_rtake_append (n : ℕ) (l p : List α) :
    (l.rtake n ++ p).rtake n = (l ++ p).rtake n := by
  rw [List.rtake, List.rtake, List.rtake, List.length_append, List.length_append, List.length_drop,
    List.drop_append, List.drop_append, List.drop_drop, List.length_drop]
  congr 2 <;> omega

end Marotte.Recent
