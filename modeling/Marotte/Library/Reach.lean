import Mathlib.Data.List.Basic
import Mathlib.Logic.Relation

/-! # Reachability along a finite relation

A worklist walk that marks as it goes meets exactly what can be reached, and a relation
without cycles keeps none when an edge back to its own source is not closed.
-/
namespace Marotte.Reach

open Relation

variable {α : Type*}

/-- No element reaches itself by one step or more. -/
def Acyclic (r : α → α → Prop) : Prop := ∀ a, ¬ TransGen r a a

theorem Acyclic.mono {r s : α → α → Prop} (h : Acyclic r) (hs : ∀ a b, s a b → r a b) :
    Acyclic s :=
  fun a ha => h a (TransGen.mono (fun u v => hs u v) a a ha)

/-- A path that may take one new edge takes it once or not at all. -/
theorem transGen_edge {r : α → α → Prop} {a b x y : α} (hback : ¬ ReflTransGen r b a)
    (h : TransGen (fun u v => r u v ∨ (u = a ∧ v = b)) x y) :
    TransGen r x y ∨ (ReflTransGen r x a ∧ ReflTransGen r b y) := by
  induction h with
  | single hstep =>
    rcases hstep with hr | ⟨rfl, rfl⟩
    · exact .inl (.single hr)
    · exact .inr ⟨.refl, .refl⟩
  | tail _ hstep ih =>
    rcases hstep with hr | ⟨rfl, rfl⟩
    · rcases ih with hxy | ⟨hxa, hby⟩
      · exact .inl (hxy.tail hr)
      · exact .inr ⟨hxa, hby.tail hr⟩
    · rcases ih with hxy | ⟨_, hby⟩
      · exact .inr ⟨hxy.to_reflTransGen, .refl⟩
      · exact absurd hby hback

/-- One more edge closes no cycle unless its target already reaches its source. -/
theorem Acyclic.edge {r : α → α → Prop} {a b : α} (h : Acyclic r)
    (hback : ¬ ReflTransGen r b a) : Acyclic (fun u v => r u v ∨ (u = a ∧ v = b)) := by
  intro x hx
  rcases transGen_edge hback hx with hxx | ⟨hxa, hbx⟩
  · exact h x hxx
  · exact hback (hbx.trans hxa)

variable [DecidableEq α] (children : α → List α)

/-- Marks the elements not met yet, and puts each on the stack. -/
def mark (state : List α × List α) (kids : List α) : List α × List α :=
  kids.foldl (fun s kid => if kid ∈ s.1 then s else (kid :: s.1, kid :: s.2)) state

/-- The walk from a stack of marked elements whose children are still to be met. -/
def walk : ℕ → List α × List α → List α
  | 0, state => state.1
  | _ + 1, (seen, []) => seen
  | n + 1, (seen, cur :: pending) => walk n (mark (seen, pending) (children cur))

/-- How many steps the walk can still take over a all. -/
def remaining (all : List α) (state : List α × List α) : ℕ :=
  (all.filter (fun x => x ∉ state.1)).length + state.2.length

omit children in
theorem mem_mark (state : List α × List α) (kids : List α) :
    (∀ x, x ∈ (mark state kids).1 ↔ x ∈ state.1 ∨ x ∈ kids) ∧
      (∀ x, x ∈ (mark state kids).2 ↔ x ∈ state.2 ∨ x ∈ kids ∧ x ∉ state.1) := by
  induction kids generalizing state with
  | nil => simp [mark]
  | cons kid kids ih =>
    rw [mark, List.foldl_cons]
    by_cases hk : kid ∈ state.1
    · rw [if_pos hk]
      obtain ⟨h₁, h₂⟩ := ih state
      constructor
      · intro x
        rw [show (kids.foldl _ state) = mark state kids from rfl, h₁, List.mem_cons]
        grind
      · intro x
        rw [show (kids.foldl _ state) = mark state kids from rfl, h₂, List.mem_cons]
        grind
    · rw [if_neg hk]
      obtain ⟨h₁, h₂⟩ := ih (kid :: state.1, kid :: state.2)
      constructor
      · intro x
        rw [show (kids.foldl _ (kid :: state.1, kid :: state.2)) = mark _ kids from rfl, h₁]
        grind
      · intro x
        rw [show (kids.foldl _ (kid :: state.1, kid :: state.2)) = mark _ kids from rfl, h₂]
        grind

omit children in
theorem remaining_mark {all : List α} (state : List α × List α) {kids : List α}
    (hkids : ∀ x ∈ kids, x ∈ all) :
    remaining all (mark state kids) ≤ remaining all state := by
  induction kids generalizing state with
  | nil => exact Nat.le_refl _
  | cons kid kids ih =>
    have hrest : ∀ x ∈ kids, x ∈ all := fun x hx => hkids x (List.mem_cons_of_mem _ hx)
    rw [mark, List.foldl_cons]
    by_cases hk : kid ∈ state.1
    · rw [if_pos hk]
      exact ih state hrest
    · rw [if_neg hk]
      apply Nat.le_trans (ih (kid :: state.1, kid :: state.2) hrest)
      have hlt : (all.filter (fun x => x ∉ kid :: state.1)).length <
          (all.filter (fun x => x ∉ state.1)).length := by
        have hsub : all.filter (fun x => x ∉ kid :: state.1) =
            (all.filter (fun x => x ∉ state.1)).filter (fun x => x ≠ kid) := by
          rw [List.filter_filter]
          apply List.filter_congr
          intro x _
          simp
        rw [hsub]
        apply List.length_filter_lt_length_iff_exists.mpr
        exact ⟨kid, List.mem_filter.mpr ⟨hkids kid (by simp), by simpa using hk⟩, by simp⟩
      simp only [remaining, List.length_cons]
      omega

/-- A walk with enough steps ends with the marked elements, closed under children. -/
theorem walk_closed {all : List α} (hu : ∀ x, ∀ kid ∈ children x, kid ∈ all) {n : ℕ}
    {state : List α × List α} (hn : remaining all state ≤ n)
    (hopen : ∀ x ∈ state.1, x ∈ state.2 ∨ ∀ kid ∈ children x, kid ∈ state.1) :
    (∀ x ∈ state.1, x ∈ walk children n state) ∧
      ∀ x ∈ walk children n state, ∀ kid ∈ children x, kid ∈ walk children n state := by
  induction n generalizing state with
  | zero =>
    have hnil : state.2 = [] := by
      apply List.length_eq_zero_iff.mp
      unfold remaining at hn
      omega
    constructor
    · exact fun x hx => hx
    · intro x hx
      exact (hopen x hx).resolve_left (by simp [hnil])
  | succ n ih =>
    obtain ⟨seen, pending⟩ := state
    cases pending with
    | nil =>
      constructor
      · exact fun x hx => hx
      · intro x hx
        exact (hopen x hx).resolve_left (by simp)
    | cons cur pending =>
      obtain ⟨hseen, hpend⟩ := mem_mark (seen, pending) (children cur)
      have hle := remaining_mark (seen, pending) (hu cur)
      have hstep : remaining all (mark (seen, pending) (children cur)) ≤ n := by
        simp only [remaining, List.length_cons] at hn hle ⊢
        omega
      have hinv : ∀ x ∈ (mark (seen, pending) (children cur)).1,
          x ∈ (mark (seen, pending) (children cur)).2 ∨
            ∀ kid ∈ children x, kid ∈ (mark (seen, pending) (children cur)).1 := by
        intro x hx
        simp only [hpend, hseen]
        rcases (hseen x).mp hx with hx | hx
        · rcases hopen x hx with hp | hk
          · rcases List.mem_cons.mp hp with rfl | hp
            · exact .inr (fun kid hkid => .inr hkid)
            · exact .inl (.inl hp)
          · exact .inr (fun kid hkid => .inl (hk kid hkid))
        · by_cases hs : x ∈ seen
          · rcases hopen x hs with hp | hk
            · rcases List.mem_cons.mp hp with rfl | hp
              · exact .inr (fun kid hkid => .inr hkid)
              · exact .inl (.inl hp)
            · exact .inr (fun kid hkid => .inl (hk kid hkid))
          · exact .inl (.inr ⟨hx, hs⟩)
      obtain ⟨hsub, hclosed⟩ := ih hstep hinv
      exact ⟨fun x hx => hsub x ((hseen x).mpr (.inl hx)), hclosed⟩

/-- The walk meets nothing that the marked elements do not reach. -/
theorem walk_sound {start : α} {n : ℕ} {state : List α × List α}
    (h : ∀ x ∈ state.1 ++ state.2, ReflTransGen (fun a b => b ∈ children a) start x) :
    ∀ x ∈ walk children n state, ReflTransGen (fun a b => b ∈ children a) start x := by
  induction n generalizing state with
  | zero => exact fun x hx => h x (List.mem_append_left _ hx)
  | succ n ih =>
    obtain ⟨seen, pending⟩ := state
    cases pending with
    | nil => exact fun x hx => h x (List.mem_append_left _ hx)
    | cons cur pending =>
      apply ih
      obtain ⟨hseen, hpend⟩ := mem_mark (seen, pending) (children cur)
      intro x hx
      have hkid : x ∈ children cur → ReflTransGen (fun a b => b ∈ children a) start x :=
        fun hk => (h cur (by simp)).tail hk
      rcases List.mem_append.mp hx with hx | hx
      · rcases (hseen x).mp hx with hx | hx
        · exact h x (by simp [hx])
        · exact hkid hx
      · rcases (hpend x).mp hx with hx | hx
        · exact h x (by simp [hx])
        · exact hkid hx.1

/-- The walk from one element, over a all that holds it and every child. -/
theorem mem_walk_iff {all : List α} (hu : ∀ x, ∀ kid ∈ children x, kid ∈ all)
    {start : α} (hs : start ∈ all) {n : ℕ} (hn : all.length ≤ n) (x : α) :
    x ∈ walk children n ([start], [start]) ↔
      ReflTransGen (fun a b => b ∈ children a) start x := by
  constructor
  · exact walk_sound children (by simp [ReflTransGen.refl]) x
  · intro h
    have hle : remaining all ([start], [start]) ≤ n := by
      have hlt : (all.filter (fun x => x ∉ [start])).length < all.length := by
        apply List.length_filter_lt_length_iff_exists.mpr
        exact ⟨start, hs, by simp⟩
      simp only [remaining, List.length_singleton]
      omega
    obtain ⟨hsub, hclosed⟩ := walk_closed children hu hle (by simp)
    induction h with
    | refl => exact hsub start (by simp)
    | tail _ hstep ih => exact hclosed _ ih _ hstep

end Marotte.Reach
