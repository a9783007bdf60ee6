import Mathlib.Data.List.Basic
import Mathlib.Data.List.Infix

/-! # Replaying a log up to its first unusable record

A partial step read as a fold: `replay` stops at the first record the step refuses and
keeps the state it had there, while `List.foldlM` answers only when every record is usable.
-/
namespace Marotte.Replay

variable {σ α : Type*} (step : σ → α → Option σ)

/-- The state after the longest usable prefix. -/
def replay : σ → List α → σ
  | s, [] => s
  | s, a :: as =>
    match step s a with
    | none => s
    | some s' => replay s' as

/-- Every record of the list is usable, and together they lead from one state to the other. -/
def Accepts (s : σ) (as : List α) (s' : σ) : Prop := as.foldlM step s = some s'

variable {step}

@[simp] theorem accepts_nil {s s' : σ} : Accepts step s [] s' ↔ s = s' := by
  simp [Accepts]

theorem accepts_cons {s s' : σ} {a : α} {as : List α} :
    Accepts step s (a :: as) s' ↔ ∃ t, step s a = some t ∧ Accepts step t as s' := by
  simp [Accepts, Option.bind_eq_some_iff]

theorem accepts_append {s s' : σ} {as bs : List α} :
    Accepts step s (as ++ bs) s' ↔ ∃ t, Accepts step s as t ∧ Accepts step t bs s' := by
  simp [Accepts, List.foldlM_append, Option.bind_eq_some_iff]

theorem accepts_concat {s s' : σ} {as : List α} {a : α} :
    Accepts step s (as ++ [a]) s' ↔ ∃ t, Accepts step s as t ∧ step t a = some s' := by
  simp [accepts_append, accepts_cons]

theorem Accepts.unique {s t t' : σ} {as : List α} (h : Accepts step s as t)
    (h' : Accepts step s as t') : t = t' :=
  Option.some.inj (h.symm.trans h')

theorem Accepts.of_initial {s s' : σ} {as bs : List α} (h : Accepts step s bs s')
    (hp : as <+: bs) : ∃ t, Accepts step s as t := by
  obtain ⟨cs, rfl⟩ := hp
  obtain ⟨t, ht, -⟩ := accepts_append.mp h
  exact ⟨t, ht⟩

/-- A replay runs through whatever is accepted. -/
theorem replay_append {s t : σ} {as bs : List α} (h : Accepts step s as t) :
    replay step s (as ++ bs) = replay step t bs := by
  induction as generalizing s with
  | nil => simp_all
  | cons a as ih =>
    obtain ⟨u, hu, hs⟩ := accepts_cons.mp h
    simp [replay, hu, ih hs]

theorem Accepts.replay_eq {s t : σ} {as : List α} (h : Accepts step s as t) :
    replay step s as = t := by
  simpa [replay] using (replay_append h : replay step s (as ++ []) = replay step t [])

/-- A replay is the accepted prefix, and what it stopped at is refused there. -/
theorem exists_accepts_replay (step : σ → α → Option σ) (s : σ) (as : List α) :
    ∃ pre post, as = pre ++ post ∧ Accepts step s pre (replay step s as) ∧
      ∀ a ∈ post.head?, step (replay step s as) a = none := by
  induction as generalizing s with
  | nil => exact ⟨[], [], rfl, by simp [replay], by simp⟩
  | cons a as ih =>
    cases h : step s a with
    | none => exact ⟨[], a :: as, rfl, by simp [replay, h], by simp [replay, h]⟩
    | some u =>
      obtain ⟨pre, post, rfl, hpre, hpost⟩ := ih u
      refine ⟨a :: pre, post, rfl, ?_, ?_⟩
      · exact accepts_cons.mpr ⟨u, h, by simpa [replay, h] using hpre⟩
      · simpa [replay, h] using hpost

/-- What every usable step keeps holds after every accepted run. -/
theorem Accepts.induction {P : σ → Prop} (hstep : ∀ s a t, P s → step s a = some t → P t)
    {s t : σ} {as : List α} (h : Accepts step s as t) (hs : P s) : P t := by
  induction as generalizing s with
  | nil => exact accepts_nil.mp h ▸ hs
  | cons a as ih =>
    obtain ⟨u, hu, ht⟩ := accepts_cons.mp h
    exact ih ht (hstep s a u hs hu)

end Marotte.Replay
