import Marotte.Library.Grouping
import Mathlib.Data.List.Forall2

/-! # Weaving inserts into a spine

Two lists woven into one, each in its own order. The inserts of a walk hang off the spine: one that
has no place of its own follows the last one before it that has.
-/
namespace Marotte

/-! ## Lists side by side -/

theorem forall₂_mapIdx {α β : Type*} {R : α → β → Prop} {f : ℕ → α → β} (h : ∀ i a, R a (f i a))
    (l : List α) : List.Forall₂ R l (l.mapIdx f) := by
  induction l generalizing f with
  | nil => exact .nil
  | cons a l ih =>
    rw [List.mapIdx_cons]
    exact .cons (h 0 a) (ih fun i => h (i + 1))

theorem forall₂_zipIdx {α β : Type*} {R : α → β → Prop} {f : α × ℕ → β} {l : List α} {k : ℕ}
    (h : ∀ p ∈ l.zipIdx k, R p.1 (f p)) : List.Forall₂ R l ((l.zipIdx k).map f) := by
  induction l generalizing k with
  | nil => exact .nil
  | cons a l ih =>
    rw [List.zipIdx_cons] at h ⊢
    exact .cons (h (a, k) List.mem_cons_self) (ih fun p hp => h p (List.mem_cons_of_mem _ hp))

theorem zipIdx_filter_fst {α : Type*} (p : ℕ → Bool) (l : List α) :
    (l.zipIdx.filter fun q => p q.2).map Prod.fst =
      ((List.range l.length).filter p).filterMap (l[·]?) := by
  induction l using List.reverseRecOn with
  | nil => rfl
  | append_singleton l a ih =>
    have hbefore : ((List.range l.length).filter p).filterMap ((l ++ [a])[·]?) =
        ((List.range l.length).filter p).filterMap (l[·]?) := by
      apply List.filterMap_congr
      intro i hi
      exact List.getElem?_append_left (List.mem_range.1 (List.mem_filter.1 hi).1)
    rw [List.zipIdx_append, List.filter_append, List.map_append, ih, List.length_append,
      List.length_singleton, List.range_succ, List.filter_append, List.filterMap_append, hbefore]
    congr 1
    by_cases h : p l.length = true
    · simp [h]
    · simp [h]

theorem forall₂_trans {α β γ : Type*} {R : α → β → Prop} {S : β → γ → Prop} {T : α → γ → Prop}
    (hT : ∀ a b c, R a b → S b c → T a c) {as : List α} {bs : List β} {cs : List γ}
    (h : List.Forall₂ R as bs) (h' : List.Forall₂ S bs cs) : List.Forall₂ T as cs := by
  induction h generalizing cs with
  | nil =>
    cases h'
    exact .nil
  | cons hab _ ih =>
    cases h' with
    | cons hbc hrest => exact .cons (hT _ _ _ hab hbc) (ih hrest)

theorem forall₂_append_split {α β : Type*} {R : α → β → Prop} {as as' : List α} {bs : List β}
    (h : List.Forall₂ R (as ++ as') bs) :
    ∃ cs cs', bs = cs ++ cs' ∧ List.Forall₂ R as cs ∧ List.Forall₂ R as' cs' := by
  induction as generalizing bs with
  | nil => exact ⟨[], bs, rfl, .nil, h⟩
  | cons a as ih =>
    cases h with
    | cons hab hrest =>
      obtain ⟨cs, cs', rfl, hcs, hcs'⟩ := ih hrest
      exact ⟨_ :: cs, cs', rfl, .cons hab hcs, hcs'⟩

theorem mem_of_forall₂ {α β : Type*} {R : α → β → Prop} {as : List α} {bs : List β}
    (h : List.Forall₂ R as bs) {a : α} (ha : a ∈ as) : ∃ b ∈ bs, R a b := by
  induction h with
  | nil => exact absurd ha List.not_mem_nil
  | cons hab _ ih =>
    rcases List.mem_cons.1 ha with rfl | ha
    · exact ⟨_, List.mem_cons_self, hab⟩
    · obtain ⟨b, hb, hR⟩ := ih ha
      exact ⟨b, List.mem_cons_of_mem _ hb, hR⟩

theorem mem_of_forall₂_right {α β : Type*} {R : α → β → Prop} {as : List α} {bs : List β}
    (h : List.Forall₂ R as bs) {b : β} (hb : b ∈ bs) : ∃ a ∈ as, R a b :=
  mem_of_forall₂ h.flip hb

/-! ## Woven lists -/

inductive Woven {α : Type*} : List α → List α → List α → Prop
  | nil : Woven [] [] []
  | left {xs ys zs : List α} (x : α) (h : Woven xs ys zs) : Woven (x :: xs) ys (x :: zs)
  | right {xs ys zs : List α} (y : α) (h : Woven xs ys zs) : Woven xs (y :: ys) (y :: zs)

namespace Woven

variable {α β : Type*} {xs ys zs xs' ys' zs' : List α}

theorem append (h : Woven xs ys zs) (h' : Woven xs' ys' zs') :
    Woven (xs ++ xs') (ys ++ ys') (zs ++ zs') := by
  induction h with
  | nil => exact h'
  | left x _ ih => exact ih.left x
  | right y _ ih => exact ih.right y

theorem lefts (xs : List α) : Woven xs [] xs := by
  induction xs with
  | nil => exact .nil
  | cons x xs ih => exact ih.left x

theorem rights (ys : List α) : Woven [] ys ys := by
  induction ys with
  | nil => exact .nil
  | cons y ys ih => exact ih.right y

theorem perm (h : Woven xs ys zs) : zs.Perm (xs ++ ys) := by
  induction h with
  | nil => exact .nil
  | left x _ ih => exact ih.cons x
  | right y _ ih => exact (ih.cons y).trans List.perm_middle.symm

theorem sublist (h : Woven xs ys zs) : xs.Sublist zs := by
  induction h with
  | nil => exact List.Sublist.slnil
  | left x _ ih => exact ih.cons_cons x
  | right y _ ih => exact ih.cons y

/-- What is so of a woven list's elements is so of both its parts. -/
theorem forall₂ {R : α → β → Prop} {ws : List β} (h : Woven xs ys zs) (hR : List.Forall₂ R zs ws) :
    ∃ us vs, Woven us vs ws ∧ List.Forall₂ R xs us ∧ List.Forall₂ R ys vs := by
  induction h generalizing ws with
  | nil =>
    cases hR
    exact ⟨[], [], .nil, .nil, .nil⟩
  | left x _ ih =>
    cases hR with
    | cons hx hrest =>
      obtain ⟨us, vs, hwoven, hus, hvs⟩ := ih hrest
      exact ⟨_ :: us, vs, hwoven.left _, .cons hx hus, hvs⟩
  | right y _ ih =>
    cases hR with
    | cons hy hrest =>
      obtain ⟨us, vs, hwoven, hus, hvs⟩ := ih hrest
      exact ⟨us, _ :: vs, hwoven.right _, hus, .cons hy hvs⟩

/-- A woven list that its spine fills has no inserts. -/
theorem eq_of_length_le (h : Woven xs ys zs) (hlen : zs.length ≤ xs.length) :
    ys = [] ∧ zs = xs := by
  have hperm := h.perm.length_eq
  rw [List.length_append] at hperm
  have hnil : ys = [] := List.length_eq_zero_iff.1 (by omega)
  exact ⟨hnil, (h.sublist.eq_of_length (by omega)).symm⟩

end Woven

namespace Weave

variable {ι β γ : Type*}

/-- The inserts of a walk, each with what it hangs off. -/
def hang (place : β → Option ι) (anchor : ι) : List β → List (ι × β)
  | [] => []
  | b :: bs =>
    match place b with
    | some i => hang place i bs
    | none => (anchor, b) :: hang place anchor bs

theorem hang_snd (place : β → Option ι) (anchor : ι) (bs : List β) :
    (hang place anchor bs).map Prod.snd = bs.filter fun b => (place b).isNone := by
  induction bs generalizing anchor with
  | nil => rfl
  | cons b bs ih =>
    rw [hang]
    cases h : place b with
    | some i => rw [ih, List.filter_cons_of_neg (by simp [h])]
    | none => rw [List.map_cons, ih, List.filter_cons_of_pos (by simp [h])]

/-- An insert hangs off the start, or off a place of the walk. -/
theorem hang_fst {place : β → Option ι} {anchor : ι} {bs : List β} {p : ι × β}
    (hp : p ∈ hang place anchor bs) : p.1 = anchor ∨ ∃ b ∈ bs, place b = some p.1 := by
  induction bs generalizing anchor with
  | nil => exact absurd hp List.not_mem_nil
  | cons b bs ih =>
    rw [hang] at hp
    cases h : place b with
    | some i =>
      rw [h] at hp
      apply Or.inr
      rcases ih hp with rfl | ⟨b', hb', hplace⟩
      · exact ⟨b, List.mem_cons_self, h⟩
      · exact ⟨b', List.mem_cons_of_mem _ hb', hplace⟩
    | none =>
      rw [h] at hp
      rcases List.mem_cons.1 hp with rfl | hp
      · exact .inl rfl
      · refine (ih hp).imp_right ?_
        rintro ⟨b', hb', hplace⟩
        exact ⟨b', List.mem_cons_of_mem _ hb', hplace⟩

variable {σ : Type*} [DecidableEq ι]

/-- What hangs off one place, in the order of the walk. -/
def bucket (hung : List (ι × β)) (i : ι) : List β := (Grouping.group Prod.fst hung i).map Prod.snd

/-- Each place of the spine, followed by what hangs off it. -/
def weave (place : σ → ι) (emit : σ → γ) (insert : β → γ) (hung : List (ι × β)) (spine : List σ) :
    List γ :=
  spine.flatMap fun s => emit s :: (bucket hung (place s)).map insert

theorem woven_weave (place : σ → ι) (emit : σ → γ) (insert : β → γ) (hung : List (ι × β))
    (spine : List σ) :
    Woven (spine.map emit) (((spine.map place).flatMap (bucket hung)).map insert)
      (weave place emit insert hung spine) := by
  induction spine with
  | nil => exact .nil
  | cons s spine ih =>
    rw [List.map_cons, List.map_cons, List.flatMap_cons, List.map_append, weave, List.flatMap_cons,
      List.cons_append]
    exact ((Woven.rights _).append ih).left (emit s)

/-- Places that every insert hangs off lose none of them. -/
theorem buckets_perm {hung : List (ι × β)} {places : List ι} (hplaces : places.Nodup)
    (hhung : ∀ p ∈ hung, p.1 ∈ places) :
    (places.flatMap (bucket hung)).Perm (hung.map Prod.snd) := by
  have hperm := (Grouping.flatMap_group_perm_filter Prod.fst hplaces hung).map Prod.snd
  rw [List.map_flatMap, List.filter_eq_self.2 (by simpa using hhung)] at hperm
  exact hperm

end Weave
end Marotte
