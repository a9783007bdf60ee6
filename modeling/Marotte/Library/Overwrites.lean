import Mathlib.Data.List.Basic

/-! # Updates that overwrite

A family of updates each of which sets what it sets, whatever was there: done again it changes
nothing, and what it set before another of them is set again. A run of such updates may be replayed
over its own outcome.
-/
namespace Marotte

variable {α F : Type*}

/-- The second time an update is done settles what it sets. -/
structure Overwrites (app : F → α → α) : Prop where
  again : ∀ f x, app f (app f x) = app f x
  absorb : ∀ f g x, app f (app g (app f x)) = app f (app g x)

def runUpdates (app : F → α → α) (x : α) (updates : List F) : α :=
  updates.foldl (fun x f => app f x) x

variable {app : F → α → α}

theorem runUpdates_append (x : α) (fs gs : List F) :
    runUpdates app x (fs ++ gs) = runUpdates app (runUpdates app x fs) gs := List.foldl_append

@[simp] theorem runUpdates_nil (x : α) : runUpdates app x [] = x := rfl

@[simp] theorem runUpdates_cons (x : α) (f : F) (fs : List F) :
    runUpdates app x (f :: fs) = runUpdates app (app f x) fs := rfl

namespace Overwrites

/-- What agrees once an update is done agrees behind any run before it. -/
theorem congr_run (h : Overwrites app) {f : F} {x y : α} (hxy : app f x = app f y) (gs : List F) :
    app f (runUpdates app x gs) = app f (runUpdates app y gs) := by
  induction gs generalizing x y with
  | nil => exact hxy
  | cons g gs ih =>
    apply ih
    rw [← h.absorb f g x, hxy, h.absorb f g y]

theorem absorb_run (h : Overwrites app) (f : F) (gs : List F) (x : α) :
    app f (runUpdates app (app f x) gs) = app f (runUpdates app x gs) :=
  h.congr_run (h.again f x) gs

/-- A value that a run leaves is still left by it when one more update is done and replayed. -/
theorem run_concat (h : Overwrites app) {gs : List F} {x : α} (hx : runUpdates app x gs = x)
    (f : F) : runUpdates app (app f x) (gs ++ [f]) = app f x := by
  rw [runUpdates_append, runUpdates_cons, runUpdates_nil, h.absorb_run, hx]

end Overwrites

/-! ## A source that publishes its updates, and copies of it

A write that states nothing may change the source at will; a follower takes a fresh copy for it.
-/

variable {states : F → Prop} {log : List F} {source source' : α}

/-- From position `k` on the log leads a copy to the source, unless a write states nothing. -/
def Leads (app : F → α → α) (states : F → Prop) (log : List F) (source : α) (k : ℕ) (copy : α) :
    Prop :=
  (∀ f ∈ log.drop k, states f) → runUpdates app copy (log.drop k) = source

/-- The source is left alone by the writes that led to it. -/
def Replayed (app : F → α → α) (states : F → Prop) (log : List F) (source : α) : Prop :=
  ∀ k, (∀ f ∈ log.drop k, states f) → runUpdates app source (log.drop k) = source

theorem Leads.publish {k : ℕ} {copy : α} (h : Leads app states log source k copy)
    (hk : k ≤ log.length) {f : F} (hf : states f → source' = app f source) :
    Leads app states (log ++ [f]) source' k copy := by
  intro hall
  rw [List.drop_append_of_le_length hk] at hall ⊢
  rw [List.forall_mem_append] at hall
  rw [runUpdates_append, h hall.1, hf (hall.2 f (List.mem_singleton_self f))]
  rfl

theorem Replayed.publish (h : Replayed app states log source) (happ : Overwrites app) {f : F}
    (hf : states f → source' = app f source) : Replayed app states (log ++ [f]) source' := by
  intro k hall
  by_cases hk : k ≤ log.length
  · rw [List.drop_append_of_le_length hk] at hall ⊢
    rw [List.forall_mem_append] at hall
    rw [hf (hall.2 f (List.mem_singleton_self f))]
    exact happ.run_concat (h k hall.1) f
  · rw [List.drop_eq_nil_of_le (by simp; omega), runUpdates_nil]

/-- A copy taken now. -/
theorem leads_now (app : F → α → α) (states : F → Prop) (log : List F) (source : α) :
    Leads app states log source log.length source := by
  intro _
  rw [List.drop_length, runUpdates_nil]

theorem Leads.apply {k : ℕ} {copy : α} (h : Leads app states log source k copy) {f : F}
    (hf : log[k]? = some f) (hstates : states f) :
    Leads app states log source (k + 1) (app f copy) := by
  intro hall
  have hdrop : log.drop k = f :: log.drop (k + 1) := by
    obtain ⟨hlt, hget⟩ := List.getElem?_eq_some_iff.mp hf
    rw [List.drop_eq_getElem_cons hlt, hget]
  have hlead := h (by
    rw [hdrop, List.forall_mem_cons]
    exact ⟨hstates, hall⟩)
  rwa [hdrop, runUpdates_cons] at hlead

/-- A copy taken at `taken` may stand in for one that is at `k`, ahead or behind, if the writes
between leave it alone. -/
theorem Leads.adopt {k taken : ℕ} {copy : α} (h : Leads app states log source taken copy)
    (htaken : taken ≤ log.length) (hreplayed : Replayed app states (log.take taken) copy)
    (hsince : ∀ f ∈ (log.take k).drop taken, states f)
    (hspared : runUpdates app copy ((log.take k).drop taken) = copy) :
    Leads app states log source k copy := by
  intro hall
  by_cases hk : k ≤ taken
  · have hdrop : log.drop k = (log.take taken).drop k ++ log.drop taken := by
      conv_lhs => rw [← List.take_append_drop taken log]
      exact List.drop_append_of_le_length (by rw [List.length_take]; omega)
    rw [hdrop, List.forall_mem_append] at hall
    rw [hdrop, runUpdates_append, hreplayed k hall.1]
    exact h hall.2
  · have hdrop : log.drop taken = (log.take k).drop taken ++ log.drop k := by
      conv_lhs => rw [← List.take_append_drop k log]
      exact List.drop_append_of_le_length (by rw [List.length_take]; omega)
    have hlead := h (by
      rw [hdrop, List.forall_mem_append]
      exact ⟨hsince, hall⟩)
    rwa [hdrop, runUpdates_append, hspared] at hlead

/-! ## Partial updates of an element and of the first element of a list that takes one -/

variable {f g : α → Option α}

/-- A partial update, with nothing done where it does not land. -/
def done (f : α → Option α) (x : α) : α := (f x).getD x

theorem done_of_some {x y : α} (h : f x = some y) : done f x = y := by rw [done, h, Option.getD_some]

/-- Two partial updates that land after each other where they landed before, and of which the first
sets again what the second left of it. -/
structure Absorbs (f g : α → Option α) : Prop where
  lands : ∀ x, (f (done g x)).isSome = (f x).isSome
  back : ∀ x, (g (done f x)).isSome = (g x).isSome
  again : ∀ x, done f (done f x) = done f x
  absorb : ∀ x, done f (done g (done f x)) = done f (done g x)

def patchFirst (f : α → Option α) : List α → Option (List α)
  | [] => none
  | x :: xs =>
    match f x with
    | some y => some (y :: xs)
    | none => (patchFirst f xs).map (x :: ·)

theorem isSome_patchFirst_cons (f : α → Option α) (x : α) (xs : List α) :
    (patchFirst f (x :: xs)).isSome = ((f x).isSome || (patchFirst f xs).isSome) := by
  rw [patchFirst]
  cases f x with
  | none => simp
  | some y => simp

theorem done_patchFirst_cons (f : α → Option α) (x : α) (xs : List α) :
    done (patchFirst f) (x :: xs) =
      if (f x).isSome then done f x :: xs else x :: done (patchFirst f) xs := by
  rw [done, done, done, patchFirst]
  cases f x with
  | none => cases patchFirst f xs <;> simp
  | some y => simp

theorem patchFirst_lands (h : ∀ x, (f (done g x)).isSome = (f x).isSome) (xs : List α) :
    (patchFirst f (done (patchFirst g) xs)).isSome = (patchFirst f xs).isSome := by
  induction xs with
  | nil => rfl
  | cons x xs ih =>
    rw [done_patchFirst_cons]
    split
    · rw [isSome_patchFirst_cons, isSome_patchFirst_cons, h]
    · rw [isSome_patchFirst_cons, isSome_patchFirst_cons, ih]

theorem patchFirst_again (hlands : ∀ x, (f (done f x)).isSome = (f x).isSome)
    (hagain : ∀ x, done f (done f x) = done f x) (xs : List α) :
    done (patchFirst f) (done (patchFirst f) xs) = done (patchFirst f) xs := by
  induction xs with
  | nil => rfl
  | cons x xs ih =>
    rw [done_patchFirst_cons]
    split
    · next hf => rw [done_patchFirst_cons, hlands, if_pos hf, hagain]
    · next hf => rw [done_patchFirst_cons, if_neg hf, ih]

/-- The first element that takes an update is the same before and after the other update. -/
theorem Absorbs.patchFirst (h : Absorbs f g) (hself : ∀ x, (f (done f x)).isSome = (f x).isSome) :
    Absorbs (patchFirst f) (patchFirst g) where
  lands := patchFirst_lands h.lands
  back := patchFirst_lands h.back
  again := patchFirst_again hself h.again
  absorb xs := by
    induction xs with
    | nil => rfl
    | cons x xs ih =>
      by_cases hf : (f x).isSome
      · by_cases hg : (g x).isSome
        · have hgf : (g (done f x)).isSome := by rwa [h.back]
          have hfg : (f (done g x)).isSome := by rwa [h.lands]
          have hfgf : (f (done g (done f x))).isSome := by rwa [h.lands, hself]
          rw [done_patchFirst_cons f, if_pos hf, done_patchFirst_cons g, if_pos hgf,
            done_patchFirst_cons f, if_pos hfgf, done_patchFirst_cons g, if_pos hg,
            done_patchFirst_cons f, if_pos hfg, h.absorb]
        · have hgf : ¬ (g (done f x)).isSome := by rwa [h.back]
          have hff : (f (done f x)).isSome := by rwa [hself]
          rw [done_patchFirst_cons f, if_pos hf, done_patchFirst_cons g, if_neg hgf,
            done_patchFirst_cons f, if_pos hff, done_patchFirst_cons g, if_neg hg,
            done_patchFirst_cons f, if_pos hf, h.again]
      · by_cases hg : (g x).isSome
        · have hfg : ¬ (f (done g x)).isSome := by rwa [h.lands]
          rw [done_patchFirst_cons f, if_neg hf, done_patchFirst_cons g, if_pos hg,
            done_patchFirst_cons f, if_neg hfg, patchFirst_again hself h.again,
            done_patchFirst_cons g, if_pos hg, done_patchFirst_cons f, if_neg hfg]
        · rw [done_patchFirst_cons f, if_neg hf, done_patchFirst_cons g, if_neg hg,
            done_patchFirst_cons f, if_neg hf, ih, done_patchFirst_cons g, if_neg hg,
            done_patchFirst_cons f, if_neg hf]

end Marotte
