import Mathlib.Data.List.Nodup
import Mathlib.Data.List.Induction
import Mathlib.Data.List.Flatten

/-! # Grouping a list by a key

The groups stand in the order their keys first appear, and each keeps the list's own
order. Blocks of one key each are grouped into themselves.
-/
namespace Marotte.Grouping

variable {α κ : Type*} [DecidableEq κ] (key : α → κ)

/-- The keys of a list, each where it first appears. -/
def keys (xs : List α) : List κ := (xs.map key).eraseDups

/-- The elements of one key. -/
def group (xs : List α) (k : κ) : List α := xs.filter (fun x => key x = k)

@[simp] theorem keys_nil : keys key ([] : List α) = [] := rfl

@[simp] theorem group_nil (k : κ) : group key ([] : List α) k = [] := rfl

theorem group_append (xs ys : List α) (k : κ) :
    group key (xs ++ ys) k = group key xs k ++ group key ys k := List.filter_append ..

@[simp] theorem mem_keys {xs : List α} {k : κ} : k ∈ keys key xs ↔ ∃ x ∈ xs, key x = k := by
  simp [keys]

@[simp] theorem mem_group {xs : List α} {k : κ} {x : α} :
    x ∈ group key xs k ↔ x ∈ xs ∧ key x = k := by
  simp [group]

theorem nodup_eraseDups (ks : List κ) : ks.eraseDups.Nodup := by
  induction hn : ks.length using Nat.strongRecOn generalizing ks with
  | ind n ih =>
    cases ks with
    | nil => simp
    | cons k ks =>
      rw [List.eraseDups_cons, List.nodup_cons]
      constructor
      · simp
      · apply ih _ _ _ rfl
        have := List.length_filter_le (fun b => !b == k) ks
        simp only [List.length_cons] at hn
        omega

theorem nodup_keys (xs : List α) : (keys key xs).Nodup := nodup_eraseDups _

theorem keys_append (xs ys : List α) :
    keys key (xs ++ ys) =
      keys key xs ++ keys key (ys.filter (fun y => key y ∉ xs.map key)) := by
  rw [keys, List.map_append, List.eraseDups_append, keys, keys]
  congr 2
  induction ys with
  | nil => rfl
  | cons y ys ih =>
    rw [List.map_cons, List.cons_removeAll, ih, List.filter_cons]
    by_cases h : key y ∈ xs.map key
    · simp [h]
    · simp [h]

/-- The group of one key in a list of blocks. -/
theorem group_flatMap {ks : List κ} {block : κ → List α} (hn : ks.Nodup)
    (hkey : ∀ k ∈ ks, ∀ x ∈ block k, key x = k) (k : κ) :
    group key (ks.flatMap block) k = if k ∈ ks then block k else [] := by
  induction ks with
  | nil => rfl
  | cons k' ks ih =>
    obtain ⟨hk', hn⟩ := List.nodup_cons.mp hn
    have ih := ih hn (fun k hk => hkey k (List.mem_cons_of_mem _ hk))
    rw [List.flatMap_cons, group_append, ih]
    by_cases h : k = k'
    · subst h
      have hself : group key (block k) k = block k := by
        rw [group, List.filter_eq_self]
        intro x hx
        simpa using hkey k (by simp) x hx
      rw [hself, if_neg hk', if_pos (by simp), List.append_nil]
    · have hnil : group key (block k') k = [] := by
        rw [group, List.filter_eq_nil_iff]
        intro x hx
        simpa [hkey k' (by simp) x hx] using Ne.symm h
      rw [hnil, List.nil_append]
      simp [h]

/-- The keys of a list of blocks, none of them empty. -/
theorem keys_flatMap {ks : List κ} {block : κ → List α} (hn : ks.Nodup)
    (hne : ∀ k ∈ ks, block k ≠ []) (hkey : ∀ k ∈ ks, ∀ x ∈ block k, key x = k) :
    keys key (ks.flatMap block) = ks := by
  induction ks with
  | nil => rfl
  | cons k ks ih =>
    obtain ⟨hk, hn⟩ := List.nodup_cons.mp hn
    have hsub : ∀ k' ∈ ks, k' ∈ k :: ks := fun k' hk' => List.mem_cons_of_mem _ hk'
    have ih := ih hn (fun k' hk' => hne k' (hsub k' hk')) (fun k' hk' => hkey k' (hsub k' hk'))
    have hall : ∀ x ∈ block k, key x = k := hkey k (by simp)
    have hrest : (ks.flatMap block).filter (fun y => key y ∉ (block k).map key) =
        ks.flatMap block := by
      rw [List.filter_eq_self]
      intro y hy
      obtain ⟨k', hk', hy⟩ := List.mem_flatMap.mp hy
      have hy' : key y = k' := hkey k' (hsub k' hk') y hy
      simp only [decide_eq_true_eq, List.mem_map, not_exists, not_and]
      intro x hx hxy
      rw [hall x hx, hy'] at hxy
      exact hk (hxy ▸ hk')
    have hone : keys key (block k) = [k] := by
      obtain ⟨x, xs, hx⟩ := List.exists_cons_of_ne_nil (hne k (by simp))
      rw [hx] at hall ⊢
      rw [keys, List.map_cons, List.eraseDups_cons, hall x (by simp)]
      have hnil : (xs.map key).filter (fun b => !b == k) = [] := by
        rw [List.filter_eq_nil_iff]
        intro b hb
        obtain ⟨y, hy, rfl⟩ := List.mem_map.mp hb
        simp [hall y (List.mem_cons_of_mem _ hy)]
      rw [hnil, List.eraseDups_nil]
    rw [List.flatMap_cons, keys_append, hrest, hone, ih, List.singleton_append]

/-- The groups of some keys hold what has one of them. -/
theorem flatMap_group_perm_filter {ks : List κ} (hn : ks.Nodup) (xs : List α) :
    (ks.flatMap (group key xs)).Perm (xs.filter (fun x => key x ∈ ks)) := by
  induction ks with
  | nil => simp
  | cons k ks ih =>
    obtain ⟨hk, hn⟩ := List.nodup_cons.mp hn
    have hsplit := List.filter_append_perm (fun x => decide (key x = k))
      (xs.filter (fun x => key x ∈ k :: ks))
    have hfirst : (xs.filter (fun x => key x ∈ k :: ks)).filter (fun x => key x = k) =
        group key xs k := by
      rw [List.filter_filter, group]
      apply List.filter_congr
      intro x _
      by_cases h : key x = k <;> simp [h]
    have hrest : (xs.filter (fun x => key x ∈ k :: ks)).filter (fun x => !decide (key x = k)) =
        xs.filter (fun x => key x ∈ ks) := by
      rw [List.filter_filter]
      apply List.filter_congr
      intro x _
      by_cases h : key x = k <;> simp [h, hk]
    rw [hfirst, hrest] at hsplit
    rw [List.flatMap_cons]
    exact ((ih hn).append_left _).trans hsplit

/-- Keeping the elements of some keys keeps those keys, in their order. -/
theorem keys_filter (p : κ → Bool) (xs : List α) :
    keys key (xs.filter (fun x => p (key x))) = (keys key xs).filter p := by
  induction xs using List.reverseRecOn with
  | nil => rfl
  | append_singleton xs x ih =>
    rw [List.filter_append, keys_append, keys_append, List.filter_append, ih]
    congr 1
    by_cases hp : p (key x) = true
    · have hone : [x].filter (fun x => p (key x)) = [x] := by simp [hp]
      rw [hone]
      by_cases hx : key x ∈ xs.map key
      · have hkept : key x ∈ (xs.filter (fun x => p (key x))).map key := by
          obtain ⟨y, hy, hyx⟩ := List.mem_map.mp hx
          exact List.mem_map.mpr ⟨y, List.mem_filter.mpr ⟨hy, by simpa [hyx] using hp⟩, hyx⟩
        rw [List.filter_cons_of_neg (by simpa [and_assoc] using hkept),
          List.filter_cons_of_neg (by simpa using hx)]
        rfl
      · have hkept : key x ∉ (xs.filter (fun x => p (key x))).map key := by
          intro hm
          obtain ⟨y, hy, hyx⟩ := List.mem_map.mp hm
          exact hx (List.mem_map.mpr ⟨y, List.mem_of_mem_filter hy, hyx⟩)
        rw [List.filter_cons_of_pos (by simpa using hkept),
          List.filter_cons_of_pos (by simpa using hx)]
        have hsingle : keys key [x] = [key x] := by simp [keys, List.eraseDups_cons]
        rw [List.filter_nil, List.filter_nil, hsingle, List.filter_cons_of_pos hp, List.filter_nil]
    · have hnone : [x].filter (fun x => p (key x)) = [] := by simpa using hp
      rw [hnone, List.filter_nil, keys_nil, eq_comm, List.filter_eq_nil_iff]
      intro k hk
      obtain ⟨y, hy, rfl⟩ := (mem_keys key).mp hk
      rw [List.mem_singleton.mp (List.mem_of_mem_filter hy)]
      exact hp

/-- Of a list without repetition, the members of a sublist are the sublist. -/
theorem filter_mem_sublist {l s : List κ} (hl : l.Nodup) (h : s.Sublist l) :
    l.filter (· ∈ s) = s := by
  induction h with
  | slnil => rfl
  | @cons s l a h ih =>
    have ha : a ∉ s := fun hm => (List.nodup_cons.mp hl).1 (h.subset hm)
    rw [List.filter_cons_of_neg (by simpa using ha), ih (List.nodup_cons.mp hl).2]
  | @cons_cons s l a h ih =>
    have hrest : l.filter (· ∈ a :: s) = l.filter (· ∈ s) := by
      apply List.filter_congr
      intro b hb
      have hne : b ≠ a := fun heq => (List.nodup_cons.mp hl).1 (heq ▸ hb)
      simp [hne]
    rw [List.filter_cons_of_pos (by simp), hrest, ih (List.nodup_cons.mp hl).2]

end Marotte.Grouping
