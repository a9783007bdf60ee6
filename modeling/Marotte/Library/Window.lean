import Mathlib.Data.List.Basic
import Mathlib.Data.List.Infix
import Mathlib.Data.List.Nodup
import Mathlib.Data.List.GetD

/-! # Closed windows of an ordered list

The members between two named ends, both included. Ends are found at their first
occurrence; a window with a missing end, or with its ends the wrong way round, is empty.
-/
namespace Marotte.Window

variable {α : Type*}

/-- The window as positions: some occurrence of each end, with the member between. -/
def Between (order : List α) (a b x : α) : Prop :=
  ∃ i j k : ℕ, i ≤ j ∧ j ≤ k ∧ order[i]? = some a ∧ order[j]? = some x ∧ order[k]? = some b

variable [DecidableEq α]

def window (order : List α) (a b : α) : List α :=
  match order.idxOf? a, order.idxOf? b with
  | some i, some j => (order.drop i).take (j + 1 - i)
  | _, _ => []

/-- A name is found where it was when it was there before, or is not among what is added. -/
theorem idxOf?_append_eq {order xs : List α} {a : α} (h : a ∈ order ∨ a ∉ xs) :
    (order ++ xs).idxOf? a = order.idxOf? a := by
  by_cases ha : a ∈ order
  · obtain ⟨i, hi⟩ := Option.ne_none_iff_exists'.mp (fun hn => (List.idxOf?_eq_none_iff.mp hn) ha)
    simp [List.idxOf?, List.findIdx?_append] at hi ⊢
    simp [hi]
  · rw [List.idxOf?_eq_none_iff.mpr ha, List.idxOf?_eq_none_iff]
    simp [ha, h.resolve_left ha]

theorem lt_length_of_idxOf? {order : List α} {a : α} {i : ℕ} (h : order.idxOf? a = some i) :
    i < order.length := by
  simp only [List.idxOf?] at h
  exact (List.findIdx?_eq_some_iff_getElem.mp h).1

theorem getElem?_of_idxOf? {order : List α} {a : α} {i : ℕ} (h : order.idxOf? a = some i) :
    order[i]? = some a := by
  simp only [List.idxOf?] at h
  obtain ⟨hi, he, -⟩ := List.findIdx?_eq_some_iff_getElem.mp h
  simpa [List.getElem?_eq_getElem hi] using he

/-- Without repetition a member's first position is its only one. -/
theorem idxOf?_of_getElem? {order : List α} (hn : order.Nodup) {a : α} {i : ℕ}
    (h : order[i]? = some a) : order.idxOf? a = some i := by
  have hm : a ∈ order := List.mem_of_getElem? h
  obtain ⟨j, hj⟩ := Option.ne_none_iff_exists'.mp
    (fun hnone => (List.idxOf?_eq_none_iff.mp hnone) hm)
  rw [hj, (List.getElem?_inj (lt_length_of_idxOf? hj) hn).mp ((getElem?_of_idxOf? hj).trans h.symm)]

/-- What is added behind an order moves no window whose ends it does not supply. -/
theorem window_append {order xs : List α} {a b : α} (ha : a ∈ order ∨ a ∉ xs)
    (hb : b ∈ order ∨ b ∉ xs) : window (order ++ xs) a b = window order a b := by
  unfold window
  rw [idxOf?_append_eq ha, idxOf?_append_eq hb]
  cases hi : order.idxOf? a with
  | none => rfl
  | some i =>
    cases hj : order.idxOf? b with
    | none => rfl
    | some j =>
      have hil := lt_length_of_idxOf? hi
      have hjl := lt_length_of_idxOf? hj
      simp only
      rw [List.drop_append_of_le_length (by omega), List.take_append_of_le_length (by simp; omega)]

theorem window_subset (order : List α) (a b : α) : window order a b ⊆ order := by
  unfold window
  cases order.idxOf? a with
  | none => simp
  | some i =>
    cases order.idxOf? b with
    | none => simp
    | some j =>
      simp only
      intro x hx
      exact List.drop_subset _ _ (List.take_subset _ _ hx)

/-- Over an order without repetition a window is its closed range of positions. -/
theorem mem_window_iff {order : List α} (hn : order.Nodup) {a b x : α} :
    x ∈ window order a b ↔ Between order a b x := by
  constructor
  · intro hx
    unfold window at hx
    cases hi : order.idxOf? a with
    | none => simp [hi] at hx
    | some i =>
      cases hj : order.idxOf? b with
      | none => simp [hi, hj] at hx
      | some j =>
        simp only [hi, hj] at hx
        obtain ⟨m, hm⟩ := List.mem_iff_getElem?.mp hx
        have hlt : m < j + 1 - i := by
          by_contra hge
          rw [List.getElem?_eq_none (by simp; omega)] at hm
          simp at hm
        rw [List.getElem?_take_of_lt hlt, List.getElem?_drop] at hm
        exact ⟨i, i + m, j, by omega, by omega, getElem?_of_idxOf? hi, hm, getElem?_of_idxOf? hj⟩
  · rintro ⟨i, j, k, hij, hjk, ha, hx, hb⟩
    simp only [window, idxOf?_of_getElem? hn ha, idxOf?_of_getElem? hn hb]
    refine List.mem_iff_getElem?.mpr ⟨j - i, ?_⟩
    rw [List.getElem?_take_of_lt (by omega), List.getElem?_drop]
    rwa [show i + (j - i) = j by omega]

/-- The window from a member to the last one is the whole suffix. -/
theorem window_getLast {pre post : List α} {a b : α} (hn : (pre ++ a :: post).Nodup)
    (hb : (a :: post).getLast? = some b) : window (pre ++ a :: post) a b = a :: post := by
  have hi : (pre ++ a :: post).idxOf? a = some pre.length :=
    idxOf?_of_getElem? hn (by simp)
  have hj : (pre ++ a :: post).idxOf? b = some (pre.length + post.length) := by
    refine idxOf?_of_getElem? hn ?_
    rw [List.getElem?_append_right (by omega), ← hb, List.getLast?_eq_getElem?]
    congr 1
    simp
  simp only [window, hi, hj, List.drop_left]
  exact List.take_of_length_le (by simp; omega)

theorem window_eq_drop {order : List α} {a b : α} (hn : order.Nodup) (ha : a ∈ order)
    (hb : order.getLast? = some b) : window order a b = order.drop (order.idxOf a) := by
  obtain ⟨pre, post, rfl⟩ := List.append_of_mem ha
  have hpre : a ∉ pre := fun h => (List.nodup_append.mp hn).2.2 a h a (by simp) rfl
  rw [window_getLast hn (by rwa [List.getLast?_append_cons] at hb)]
  simp [List.idxOf_append_of_notMem hpre]

/-- What a filter keeps outside a suffix is what it keeps of the prefix before it. -/
theorem filter_notMem_drop {order : List α} (hn : order.Nodup) (f : α → Bool) (i : ℕ) :
    order.filter (fun x => f x && decide (x ∉ order.drop i)) = (order.take i).filter f := by
  have hsplit : (order.take i ++ order.drop i).Nodup := by rwa [List.take_append_drop]
  have hdisj := (List.nodup_append.mp hsplit).2.2
  have hdrop : (order.drop i).filter (fun x => f x && decide (x ∉ order.drop i)) = [] := by
    rw [List.filter_eq_nil_iff]
    intro x hx
    simp [hx]
  have htake : (order.take i).filter (fun x => f x && decide (x ∉ order.drop i)) =
      (order.take i).filter f := by
    refine List.filter_congr (fun x hx => ?_)
    have hx' : x ∉ order.drop i := fun hd => hdisj x hx x hd rfl
    simp [hx']
  conv_lhs => rw [← List.take_append_drop i order, List.filter_append]
  simp only [List.take_append_drop]
  rw [htake, hdrop, List.append_nil]

end Marotte.Window
