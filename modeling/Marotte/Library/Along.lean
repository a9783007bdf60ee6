import Mathlib.Data.List.Induction

/-! # Runs of a step function

A run folds a total step over events. `Along` is a condition on every step of a run, each in the
state it is taken from, and an invariant that the steps under the condition keep holds of the run.
-/
namespace Marotte

variable {σ ε : Type*} {step : σ → ε → σ}

/-- The state that a list of events leads to. -/
def runFrom (step : σ → ε → σ) (s : σ) (events : List ε) : σ := events.foldl step s

theorem runFrom_append (s : σ) (events events' : List ε) :
    runFrom step s (events ++ events') = runFrom step (runFrom step s events) events' :=
  List.foldl_append

theorem runFrom_concat (s : σ) (events : List ε) (e : ε) :
    runFrom step s (events ++ [e]) = step (runFrom step s events) e := runFrom_append s events [e]

def Along (step : σ → ε → σ) (P : σ → ε → Prop) : σ → List ε → Prop
  | _, [] => True
  | s, e :: events => P s e ∧ Along step P (step s e) events

instance Along.decidable {P : σ → ε → Prop} [∀ s e, Decidable (P s e)] (s : σ) (events : List ε) :
    Decidable (Along step P s events) :=
  match events with
  | [] => isTrue trivial
  | e :: events =>
    have := Along.decidable (P := P) (step s e) events
    inferInstanceAs (Decidable (P s e ∧ Along step P (step s e) events))

theorem along_append {P : σ → ε → Prop} {s : σ} {events events' : List ε} :
    Along step P s (events ++ events') ↔
      Along step P s events ∧ Along step P (runFrom step s events) events' := by
  induction events generalizing s with
  | nil => exact ⟨fun h => ⟨trivial, h⟩, And.right⟩
  | cons e events ih =>
    rw [List.cons_append, Along, Along, ih, and_assoc]
    rfl

/-- An invariant that every step under a condition keeps. -/
theorem Along.invariant {P : σ → ε → Prop} {Q : σ → Prop} {s : σ} {events : List ε}
    (h : Along step P s events) (hs : Q s) (hstep : ∀ s e, Q s → P s e → Q (step s e)) :
    Q (runFrom step s events) := by
  induction events generalizing s with
  | nil => exact hs
  | cons e events ih => exact ih h.2 (hstep s e hs h.1)

/-- An invariant that every step keeps. -/
theorem runFrom_invariant {Q : σ → Prop} {s : σ} (hs : Q s) (hstep : ∀ s e, Q s → Q (step s e))
    (events : List ε) : Q (runFrom step s events) := by
  induction events generalizing s with
  | nil => exact hs
  | cons e events ih => exact ih (hstep s e hs)

/-- A condition that an invariant of every step implies is met along every run. -/
theorem along_of_invariant {P : σ → ε → Prop} {Q : σ → Prop} {s : σ} (hs : Q s)
    (hP : ∀ s e, Q s → P s e) (hstep : ∀ s e, Q s → Q (step s e)) (events : List ε) :
    Along step P s events := by
  induction events generalizing s with
  | nil => trivial
  | cons e events ih => exact ⟨hP s e hs, ih (hstep s e hs)⟩

/-- Two conditions that agree wherever an invariant holds are met along the same runs. -/
theorem along_iff {P R : σ → ε → Prop} {Q : σ → Prop} {s : σ} (hs : Q s)
    (hPR : ∀ s e, Q s → (P s e ↔ R s e)) (hstep : ∀ s e, Q s → R s e → Q (step s e))
    (events : List ε) : Along step P s events ↔ Along step R s events := by
  induction events generalizing s with
  | nil => exact Iff.rfl
  | cons e events ih =>
    constructor
    · rintro ⟨hP, hrest⟩
      have hR := (hPR s e hs).mp hP
      exact ⟨hR, (ih (hstep s e hs hR)).mp hrest⟩
    · rintro ⟨hR, hrest⟩
      exact ⟨(hPR s e hs).mpr hR, (ih (hstep s e hs hR)).mpr hrest⟩

/-- Two conditions that agree wherever a third one is met are met along the same runs. -/
theorem Along.congr {P R S : σ → ε → Prop} {s : σ} {events : List ε} (h : Along step P s events)
    (hRS : ∀ s e, P s e → (R s e ↔ S s e)) : Along step R s events ↔ Along step S s events := by
  induction events generalizing s with
  | nil => exact Iff.rfl
  | cons e events ih => exact and_congr (hRS s e h.1) (ih h.2)

/-- A prefix of a run meets the conditions that the run meets. -/
theorem Along.of_prefix {P : σ → ε → Prop} {s : σ} {before events : List ε}
    (h : Along step P s events) (hpre : before <+: events) : Along step P s before := by
  obtain ⟨rest, rfl⟩ := hpre
  exact (along_append.mp h).1

end Marotte
