import Marotte.Library.Subsequence

/-! # Alignments of two sequences

A script that walks through two sequences at once: a step keeps an element of both, deletes one of
the first or inserts one of the second. What it keeps is a common subsequence of the two.
-/
namespace Marotte

inductive EditStep where
  | keep
  | delete
  | insert
  deriving DecidableEq

/-- A script that leads from one sequence to another. -/
inductive Aligns {α : Type*} : List EditStep → List α → List α → Prop
  | nil : Aligns [] [] []
  | keep {script : List EditStep} {xs ys : List α} (x : α) (h : Aligns script xs ys) :
      Aligns (.keep :: script) (x :: xs) (x :: ys)
  | delete {script : List EditStep} {xs ys : List α} (x : α) (h : Aligns script xs ys) :
      Aligns (.delete :: script) (x :: xs) ys
  | insert {script : List EditStep} {xs ys : List α} (y : α) (h : Aligns script xs ys) :
      Aligns (.insert :: script) xs (y :: ys)

/-! ## Positions -/

/-- How many elements of the first sequence a script has walked over. -/
def consumed (script : List EditStep) : ℕ := script.countP (· ≠ .insert)

/-- How many elements of the second sequence a script has walked over. -/
def reached (script : List EditStep) : ℕ := script.countP (· ≠ .delete)

/-- The script takes a step of the kind at position `k` of the second sequence. -/
def StepAt (script : List EditStep) (kind : EditStep) (k : ℕ) : Prop :=
  ∃ before behind, script = before ++ kind :: behind ∧ reached before = k

variable {script script' : List EditStep} {kind step : EditStep} {k : ℕ}

@[simp] theorem consumed_nil : consumed [] = 0 := rfl

@[simp] theorem consumed_keep : consumed (.keep :: script) = consumed script + 1 := by
  simp [consumed]

@[simp] theorem consumed_delete : consumed (.delete :: script) = consumed script + 1 := by
  simp [consumed]

@[simp] theorem consumed_insert : consumed (.insert :: script) = consumed script := by
  simp [consumed]

@[simp] theorem reached_nil : reached [] = 0 := rfl

@[simp] theorem reached_keep : reached (.keep :: script) = reached script + 1 := by
  simp [reached]

@[simp] theorem reached_insert : reached (.insert :: script) = reached script + 1 := by
  simp [reached]

@[simp] theorem reached_delete : reached (.delete :: script) = reached script := by
  simp [reached]

theorem reached_cons : reached (step :: script) = reached [step] + reached script := by
  cases step with
  | keep => simp [Nat.add_comm]
  | delete => simp
  | insert => simp [Nat.add_comm]

@[simp] theorem not_stepAt_nil : ¬ StepAt [] kind k := by
  rintro ⟨before, behind, h, -⟩
  cases before with
  | nil => cases h
  | cons s before => cases h

/-- A script takes a step at its head or in its tail. -/
theorem stepAt_cons :
    StepAt (step :: script) kind k ↔
      step = kind ∧ k = 0 ∨ ∃ k', StepAt script kind k' ∧ reached [step] + k' = k := by
  constructor
  · rintro ⟨before, behind, h, rfl⟩
    cases before with
    | nil =>
      obtain ⟨rfl, rfl⟩ := List.cons.inj h
      exact .inl ⟨rfl, rfl⟩
    | cons s before =>
      obtain ⟨rfl, rfl⟩ := List.cons.inj h
      exact .inr ⟨reached before, ⟨before, behind, rfl, rfl⟩, reached_cons.symm⟩
  · rintro (⟨rfl, rfl⟩ | ⟨k', ⟨before, behind, rfl, rfl⟩, rfl⟩)
    · exact ⟨[], script, rfl, rfl⟩
    · exact ⟨step :: before, behind, rfl, reached_cons⟩

theorem StepAt.cons (h : StepAt script kind k) (step : EditStep) :
    StepAt (step :: script) kind (reached [step] + k) :=
  stepAt_cons.mpr (.inr ⟨k, h, rfl⟩)

/-! ## What a script leads to -/

namespace Aligns

variable {α : Type*} {xs ys xs' ys' : List α}

theorem append (h : Aligns script xs ys) (h' : Aligns script' xs' ys') :
    Aligns (script ++ script') (xs ++ xs') (ys ++ ys') := by
  induction h with
  | nil => exact h'
  | keep x _ ih => exact .keep x ih
  | delete x _ ih => exact .delete x ih
  | insert y _ ih => exact .insert y ih

theorem keepAll (xs : List α) : Aligns (List.replicate xs.length .keep) xs xs := by
  induction xs with
  | nil => exact .nil
  | cons x xs ih => exact .keep x ih

theorem reached_eq (h : Aligns script xs ys) : reached script = ys.length := by
  induction h with
  | nil => rfl
  | keep x _ ih => rw [reached_keep, ih, List.length_cons]
  | delete x _ ih => rw [reached_delete, ih]
  | insert y _ ih => rw [reached_insert, ih, List.length_cons]

/-- An element of the second sequence is inserted or kept, and then it is one of the first. -/
theorem kept_or_inserted (h : Aligns script xs ys) (hk : k < ys.length) :
    StepAt script .insert k ∨
      ∃ before behind, script = before ++ .keep :: behind ∧ reached before = k ∧
        xs[consumed before]? = ys[k]? := by
  induction h generalizing k with
  | nil => cases hk
  | @keep script xs ys x h ih =>
    cases k with
    | zero => exact .inr ⟨[], script, rfl, rfl, rfl⟩
    | succ k =>
      rcases ih (Nat.lt_of_succ_lt_succ hk) with hinsert | ⟨before, behind, rfl, rfl, hget⟩
      · exact .inl (stepAt_cons.mpr (.inr ⟨k, hinsert, Nat.add_comm 1 k⟩))
      · exact .inr ⟨.keep :: before, behind, rfl, reached_keep, by simpa using hget⟩
  | @delete script xs ys x h ih =>
    rcases ih hk with hinsert | ⟨before, behind, rfl, rfl, hget⟩
    · exact .inl (stepAt_cons.mpr (.inr ⟨k, hinsert, Nat.zero_add k⟩))
    · exact .inr ⟨.delete :: before, behind, rfl, reached_delete, by simpa using hget⟩
  | @insert script xs ys y h ih =>
    cases k with
    | zero => exact .inl ⟨[], script, rfl, rfl⟩
    | succ k =>
      rcases ih (Nat.lt_of_succ_lt_succ hk) with hinsert | ⟨before, behind, rfl, rfl, hget⟩
      · exact .inl (stepAt_cons.mpr (.inr ⟨k, hinsert, Nat.add_comm 1 k⟩))
      · exact .inr ⟨.insert :: before, behind, rfl, reached_insert, by simpa using hget⟩

theorem eq_of_nil_left (h : Aligns script [] ys) : script = List.replicate ys.length .insert := by
  generalize hxs : ([] : List α) = xs at h
  induction h with
  | nil => rfl
  | keep x _ _ => cases hxs
  | delete x _ _ => cases hxs
  | insert y _ ih => rw [ih hxs, List.length_cons, List.replicate_succ]

theorem eq_of_nil_right (h : Aligns script xs []) : script = List.replicate xs.length .delete := by
  generalize hys : ([] : List α) = ys at h
  induction h with
  | nil => rfl
  | keep x _ _ => cases hys
  | delete x _ ih => rw [ih hys, List.length_cons, List.replicate_succ]
  | insert y _ _ => cases hys

end Aligns

end Marotte
