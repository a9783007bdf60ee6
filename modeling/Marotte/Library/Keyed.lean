import Mathlib.Data.List.Nodup

/-! # Insertion-ordered maps

A list read as a map through a key of its elements: a lookup finds the first element of a
key, a write replaces in place or appends, and an erasure drops the key.
-/
namespace Marotte.Keyed

variable {α κ : Type*} [DecidableEq κ] (key : α → κ)

def find (l : List α) (k : κ) : Option α := l.find? (key · = k)

def erase (l : List α) (k : κ) : List α := l.filter (key · ≠ k)

def set (l : List α) (a : α) : List α :=
  if key a ∈ l.map key then l.map fun b => if key b = key a then a else b else l ++ [a]

variable {key} {l : List α} {a b : α} {k k' : κ}

theorem key_of_find (h : find key l k = some a) : key a = k := by
  simpa using List.find?_some h

theorem mem_of_find (h : find key l k = some a) : a ∈ l := List.mem_of_find?_eq_some h

theorem find_eq_none : find key l k = none ↔ k ∉ l.map key := by
  simp [find, List.find?_eq_none]

theorem find_isSome : (find key l k).isSome ↔ k ∈ l.map key := by
  rw [Option.isSome_iff_ne_none, ne_eq, find_eq_none, not_not]

theorem find_of_mem (hl : (l.map key).Nodup) (h : a ∈ l) : find key l (key a) = some a := by
  cases hf : find key l (key a) with
  | none => exact absurd (List.mem_map_of_mem h) (find_eq_none.mp hf)
  | some b => rw [List.inj_on_of_nodup_map hl (mem_of_find hf) h (key_of_find hf)]

@[simp] theorem find_erase_self : find key (erase key l k) k = none := by
  simp [find_eq_none, erase]

theorem find_erase_of_ne (h : k' ≠ k) : find key (erase key l k) k' = find key l k' := by
  induction l with
  | nil => rfl
  | cons b l ih =>
    by_cases hb : key b = k
    · simpa [erase, find, hb, List.find?_cons, Ne.symm h] using ih
    · rw [erase, List.filter_cons_of_pos (by simpa using hb)]
      unfold find
      rw [List.find?_cons, List.find?_cons]
      split
      · rfl
      · exact ih

theorem erase_of_find_none (h : find key l k = none) : erase key l k = l := by
  rw [erase, List.filter_eq_self]
  intro a ha
  have hne : key a ≠ k := by
    rintro rfl
    exact find_eq_none.mp h (List.mem_map_of_mem ha)
  simpa using hne

/-- A lookup that finds an element that is kept finds it among those that are. -/
theorem find_filter {keep : α → Bool} (h : find key l k = some a) (ha : keep a = true) :
    find key (l.filter keep) k = some a := by
  induction l with
  | nil => cases h
  | cons b l ih =>
    rw [find, List.find?_cons] at h
    by_cases hb : key b = k
    · simp only [hb, decide_true] at h
      cases h
      rw [List.filter_cons_of_pos ha, find, List.find?_cons]
      simp only [hb, decide_true]
    · simp only [hb, decide_false] at h
      rw [List.filter_cons]
      split
      · rw [find, List.find?_cons]
        simp only [hb, decide_false]
        exact ih h
      · exact ih h

theorem mem_erase : a ∈ erase key l k ↔ a ∈ l ∧ key a ≠ k := by simp [erase]

theorem nodup_erase (h : (l.map key).Nodup) : ((erase key l k).map key).Nodup :=
  h.sublist (List.filter_sublist.map key)

theorem set_of_mem (h : key a ∈ l.map key) :
    set key l a = l.map fun b => if key b = key a then a else b := if_pos h

theorem set_of_not_mem (h : key a ∉ l.map key) : set key l a = l ++ [a] := if_neg h

theorem keys_set_of_mem (h : key a ∈ l.map key) : (set key l a).map key = l.map key := by
  rw [set_of_mem h, List.map_map]
  apply List.map_congr_left
  intro b _
  by_cases hb : key b = key a
  · simp [hb]
  · simp [hb]

theorem nodup_set (h : (l.map key).Nodup) : ((set key l a).map key).Nodup := by
  by_cases ha : key a ∈ l.map key
  · rw [keys_set_of_mem ha]
    exact h
  · rw [set_of_not_mem ha, List.map_append]
    exact h.append (List.nodup_singleton _) (by simpa using ha)

theorem mem_keys_set : k ∈ (set key l a).map key ↔ k ∈ l.map key ∨ k = key a := by
  by_cases ha : key a ∈ l.map key
  · rw [keys_set_of_mem ha]
    constructor
    · exact .inl
    · rintro (h | rfl)
      · exact h
      · exact ha
  · rw [set_of_not_mem ha, List.map_append, List.mem_append, List.map_singleton,
      List.mem_singleton]

theorem mem_set (h : b ∈ set key l a) : b = a ∨ b ∈ l ∧ key b ≠ key a := by
  by_cases ha : key a ∈ l.map key
  · rw [set_of_mem ha] at h
    obtain ⟨c, hc, rfl⟩ := List.mem_map.mp h
    by_cases hk : key c = key a
    · simp [hk]
    · simp [hk, hc]
  · rw [set_of_not_mem ha] at h
    rcases List.mem_append.mp h with h | h
    · exact .inr ⟨h, fun hk => ha (hk ▸ List.mem_map_of_mem h)⟩
    · exact .inl (List.mem_singleton.mp h)

theorem mem_set_of_ne (h : b ∈ l) (hne : key b ≠ key a) : b ∈ set key l a := by
  by_cases ha : key a ∈ l.map key
  · rw [set_of_mem ha]
    exact List.mem_map.mpr ⟨b, h, if_neg hne⟩
  · rw [set_of_not_mem ha]
    exact List.mem_append_left _ h

theorem self_mem_set : a ∈ set key l a := by
  by_cases ha : key a ∈ l.map key
  · rw [set_of_mem ha]
    obtain ⟨c, hc, hk⟩ := List.mem_map.mp ha
    exact List.mem_map.mpr ⟨c, hc, by simp [hk]⟩
  · rw [set_of_not_mem ha]
    exact List.mem_append_right _ (List.mem_singleton_self a)

theorem find_set_key : find key (set key l a) (key a) = some a := by
  obtain ⟨b, hb⟩ := Option.isSome_iff_exists.mp
    (find_isSome.mpr (mem_keys_set.mpr (.inr rfl)) : (find key (set key l a) (key a)).isSome)
  rcases mem_set (mem_of_find hb) with rfl | ⟨_, hne⟩
  · exact hb
  · exact absurd (key_of_find hb) hne

theorem find_set_self (hl : (l.map key).Nodup) : find key (set key l a) (key a) = some a :=
  find_of_mem (nodup_set hl) self_mem_set

theorem find_map_of_ne (h : k ≠ key a) :
    find key (l.map fun b => if key b = key a then a else b) k = find key l k := by
  induction l with
  | nil => rfl
  | cons b l ih =>
    by_cases hb : key b = key a
    · have ha : ¬ key a = k := fun hk => h hk.symm
      simpa [find, List.find?_cons, hb, ha] using ih
    · unfold find at ih ⊢
      simp only [List.map_cons, if_neg hb, List.find?_cons, ih]

theorem find_set_of_ne (h : k ≠ key a) : find key (set key l a) k = find key l k := by
  by_cases ha : key a ∈ l.map key
  · rw [set_of_mem ha, find_map_of_ne h]
  · rw [set_of_not_mem ha]
    unfold find
    rw [List.find?_append, List.find?_cons_of_neg (by simpa using h.symm)]
    simp

theorem filterMap_cons_toList {β : Type*} (g : α → Option β) (a : α) (l : List α) :
    (a :: l).filterMap g = (g a).toList ++ l.filterMap g := by
  cases h : g a <;> simp [h]

/-- Of distinct keys, a partial map that answers on one key only finds at most one element. -/
theorem filterMap_eq_find {β : Type*} {g : α → Option β} (hl : (l.map key).Nodup)
    (hg : ∀ a, key a ≠ k → g a = none) :
    l.filterMap g = ((find key l k).bind g).toList := by
  induction l with
  | nil => rfl
  | cons b l ih =>
    rw [List.map_cons, List.nodup_cons] at hl
    rw [filterMap_cons_toList, ih hl.2]
    by_cases hb : key b = k
    · subst hb
      have hnone : find key l (key b) = none := find_eq_none.mpr hl.1
      have hself : find key (b :: l) (key b) = some b := by simp [find]
      rw [hnone, hself]
      exact List.append_nil _
    · rw [hg b hb]
      simp [find, hb]

end Marotte.Keyed
