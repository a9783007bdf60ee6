import Mathlib.Algebra.Ring.Nat
import Mathlib.Data.List.Basic
import Mathlib.Data.List.Infix

/-! # Separated records and torn tails

A sequence read as records ended by a separator. What follows the last separator is
the torn tail; any cut of an intact sequence keeps a prefix of its records.
-/
namespace Marotte.Lines

variable {α : Type*} (sep : α)

/-- Records written one after the other, each ended by the separator. -/
def join (ls : List (List α)) : List α := ls.flatMap (· ++ [sep])

@[simp] theorem join_nil : join sep ([] : List (List α)) = [] := rfl

@[simp] theorem join_cons (l : List α) (ls : List (List α)) :
    join sep (l :: ls) = l ++ sep :: join sep ls := by
  simp [join]

@[simp] theorem join_append (ls ms : List (List α)) :
    join sep (ls ++ ms) = join sep ls ++ join sep ms := by
  simp [join]

variable [DecidableEq α]

/-- The records a separator ends, without it, and the tail that no separator ends. -/
def split : List α → List (List α) × List α
  | [] => ([], [])
  | a :: as =>
    if a = sep then ([] :: (split as).1, (split as).2)
    else match (split as).1 with
      | [] => ([], a :: (split as).2)
      | l :: ls => ((a :: l) :: ls, (split as).2)

theorem join_split (xs : List α) : join sep (split sep xs).1 ++ (split sep xs).2 = xs := by
  induction xs with
  | nil => rfl
  | cons a as ih =>
    unfold split
    split
    · rename_i h
      subst h
      simpa using ih
    · split
      · rename_i hl
        rw [hl] at ih
        simpa using ih
      · rename_i l ls hl
        rw [hl] at ih
        simpa using ih

theorem split_append_sep {l : List α} (hl : sep ∉ l) (xs : List α) :
    split sep (l ++ sep :: xs) = (l :: (split sep xs).1, (split sep xs).2) := by
  induction l with
  | nil => simp [split]
  | cons a as ih =>
    have ha : a ≠ sep := fun h => hl (by simp [h])
    have has : sep ∉ as := fun h => hl (List.mem_cons_of_mem a h)
    simp [split, ha, ih has]

theorem split_of_notMem {xs : List α} (h : sep ∉ xs) : split sep xs = ([], xs) := by
  induction xs with
  | nil => rfl
  | cons a as ih =>
    have ha : a ≠ sep := fun he => h (by simp [he])
    simp [split, ha, ih (fun hm => h (List.mem_cons_of_mem a hm))]

/-- Records without the separator and a tail without it read back as they were written. -/
theorem split_join_append {ls : List (List α)} {tail : List α} (hls : ∀ l ∈ ls, sep ∉ l)
    (ht : sep ∉ tail) : split sep (join sep ls ++ tail) = (ls, tail) := by
  induction ls with
  | nil => simpa using split_of_notMem sep ht
  | cons l ls ih =>
    have hl := ih (fun m hm => hls m (List.mem_cons_of_mem l hm))
    simp [split_append_sep sep (hls l (by simp)), hl]

theorem split_join {ls : List (List α)} (hls : ∀ l ∈ ls, sep ∉ l) :
    split sep (join sep ls) = (ls, []) := by
  simpa using split_join_append sep hls (List.not_mem_nil : sep ∉ ([] : List α))

theorem notMem_of_mem_split {xs l : List α} (hl : l ∈ (split sep xs).1) : sep ∉ l := by
  induction xs generalizing l with
  | nil => simp [split] at hl
  | cons a as ih =>
    by_cases ha : a = sep
    · simp only [split, ha, if_true, List.mem_cons] at hl
      rcases hl with rfl | h
      · exact List.not_mem_nil
      · exact ih h
    · cases hs : (split sep as).1 with
      | nil => simp [split, ha, hs] at hl
      | cons m ms =>
        simp only [split, ha, if_false, hs, List.mem_cons] at hl
        rcases hl with rfl | h
        · have hm : sep ∉ m := ih (by simp [hs])
          simp [hm, Ne.symm ha]
        · exact ih (by simp [hs, h])

/-- The first records of a cut are first records of the whole, whatever the cut left after them. -/
theorem split_take {ls : List (List α)} (hls : ∀ l ∈ ls, sep ∉ l) (k : ℕ) :
    (split sep ((join sep ls).take k)).1 <+: ls := by
  induction ls generalizing k with
  | nil => simp [split]
  | cons l ls ih =>
    have hl : sep ∉ l := hls l (by simp)
    by_cases hk : k ≤ l.length
    · have hcut : (join sep (l :: ls)).take k = l.take k := by
        simp [List.take_append_of_le_length hk]
      rw [hcut, split_of_notMem sep (fun h => hl (List.mem_of_mem_take h))]
      exact List.nil_prefix
    · obtain ⟨j, rfl⟩ : ∃ j, k = l.length + (j + 1) := ⟨k - l.length - 1, by omega⟩
      have hcut : (join sep (l :: ls)).take (l.length + (j + 1)) =
          l ++ sep :: (join sep ls).take j := by
        simp [List.take_append]
      rw [hcut, split_append_sep sep hl]
      exact List.cons_prefix_cons.mpr
        ⟨rfl, ih (fun m hm => hls m (List.mem_cons_of_mem l hm)) j⟩

end Marotte.Lines
