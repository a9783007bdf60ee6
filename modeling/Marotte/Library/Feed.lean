import Mathlib.Data.List.Basic

/-! # A map followed through its feed

A source writes one key at a time and publishes each write; a follower applies the published writes
in order and may install a snapshot of the source. A key that no write still to be applied is about
is settled once the follower agrees with the source on it.
-/
namespace Marotte.Feed

variable {F κ ν : Type*} (about : F → κ) (effect : F → ν)

/-- No write of a list is about a key. -/
def Untouched (writes : List F) (k : κ) : Prop := ∀ w ∈ writes, about w ≠ k

/-- The source holds for each key the effect of the last write about it. -/
def Current (log : List F) (source : κ → ν) : Prop :=
  ∀ i w, log[i]? = some w → Untouched about (log.drop (i + 1)) (about w) →
    source (about w) = effect w

/-- The follower at a position of the log agrees with the source on a key that nothing still to be
applied is about. -/
def Settled (log : List F) (source follower : κ → ν) (applied : ℕ) (k : κ) : Prop :=
  Untouched about (log.drop applied) k → follower k = source k

/-- A snapshot taken at a position of the log: what nothing since is about is the source's. -/
structure Snapshot (log : List F) (source : κ → ν) (taken : ℕ) (answer : κ → ν) : Prop where
  le : taken ≤ log.length
  same : ∀ k, Untouched about (log.drop taken) k → answer k = source k

variable {about effect} {log : List F} {source source' follower follower' : κ → ν}

theorem untouched_append {xs ys : List F} {k : κ} :
    Untouched about (xs ++ ys) k ↔ Untouched about xs k ∧ Untouched about ys k := by
  simp only [Untouched, List.mem_append]
  constructor
  · intro h
    exact ⟨fun w hw => h w (.inl hw), fun w hw => h w (.inr hw)⟩
  · rintro ⟨hx, hy⟩ w (hw | hw)
    · exact hx w hw
    · exact hy w hw

theorem untouched_singleton {w : F} {k : κ} : Untouched about [w] k ↔ about w ≠ k := by
  simp [Untouched]

theorem current_nil (source : κ → ν) : Current about effect [] source := by
  intro i w hw
  simp at hw

theorem drop_concat {applied : ℕ} (h : applied ≤ log.length) (w : F) :
    (log ++ [w]).drop applied = log.drop applied ++ [w] := List.drop_append_of_le_length h

/-- The source writes and publishes. -/
theorem Current.publish (h : Current about effect log source) {w : F}
    (hself : source' (about w) = effect w) (hother : ∀ k, k ≠ about w → source' k = source k) :
    Current about effect (log ++ [w]) source' := by
  intro i w' hw' huntouched
  by_cases hi : i < log.length
  · rw [List.getElem?_append_left hi] at hw'
    rw [drop_concat hi, untouched_append, untouched_singleton] at huntouched
    rw [hother _ (Ne.symm huntouched.2)]
    exact h i w' hw' huntouched.1
  · rw [List.getElem?_append_right (Nat.le_of_not_lt hi)] at hw'
    rw [List.mem_singleton.mp (List.mem_of_getElem? hw')]
    exact hself

theorem Settled.publish {applied : ℕ} {k : κ} (h : Settled about log source follower applied k)
    (hle : applied ≤ log.length) {w : F} (hother : ∀ k, k ≠ about w → source' k = source k) :
    Settled about (log ++ [w]) source' follower applied k := by
  intro huntouched
  rw [drop_concat hle, untouched_append, untouched_singleton] at huntouched
  rw [hother k (Ne.symm huntouched.2)]
  exact h huntouched.1

theorem Snapshot.publish {taken : ℕ} {answer : κ → ν} (h : Snapshot about log source taken answer)
    {w : F} (hother : ∀ k, k ≠ about w → source' k = source k) :
    Snapshot about (log ++ [w]) source' taken answer where
  le := by
    rw [List.length_append]
    exact Nat.le_add_right_of_le h.le
  same k huntouched := by
    rw [drop_concat h.le, untouched_append, untouched_singleton] at huntouched
    rw [hother k (Ne.symm huntouched.2)]
    exact h.same k huntouched.1

theorem snapshot_now (log : List F) (source : κ → ν) :
    Snapshot about log source log.length source :=
  ⟨Nat.le_refl _, fun _ _ => rfl⟩

theorem drop_of_getElem? {applied : ℕ} {w : F} (h : log[applied]? = some w) :
    log.drop applied = w :: log.drop (applied + 1) := by
  obtain ⟨hlt, hw⟩ := List.getElem?_eq_some_iff.mp h
  rw [List.drop_eq_getElem_cons hlt, hw]

/-- A write that is applied settles its key. -/
theorem settled_applied {applied : ℕ} {w : F} (h : Current about effect log source)
    (hw : log[applied]? = some w) (hself : follower' (about w) = effect w) :
    Settled about log source follower' (applied + 1) (about w) := by
  intro huntouched
  rw [hself, h applied w hw huntouched]

theorem Settled.apply {applied : ℕ} {w : F} {k : κ}
    (h : Settled about log source follower applied k) (hcurrent : Current about effect log source)
    (hw : log[applied]? = some w) (hself : follower' (about w) = effect w)
    (hother : ∀ k, k ≠ about w → follower' k = follower k) :
    Settled about log source follower' (applied + 1) k := by
  by_cases hk : k = about w
  · subst hk
    exact settled_applied hcurrent hw hself
  · intro huntouched
    rw [hother k hk]
    apply h
    rw [drop_of_getElem? hw]
    intro w' hw'
    rcases List.mem_cons.mp hw' with rfl | hw'
    · exact Ne.symm hk
    · exact huntouched w' hw'

/-- What no write of a whole log is about, or a write from before a position is. -/
theorem untouched_or_applied (taken : ℕ) {applied : ℕ} {k : κ}
    (h : Untouched about (log.drop applied) k) :
    Untouched about (log.drop taken) k ∨ ∃ w ∈ (log.take applied).drop taken, about w = k := by
  by_cases hexists : ∃ w ∈ (log.take applied).drop taken, about w = k
  · exact .inr hexists
  · left
    intro w hw hk
    by_cases hle : applied ≤ taken
    · apply h w _ hk
      have hdrop : log.drop taken = (log.drop applied).drop (taken - applied) := by
        rw [List.drop_drop, Nat.add_sub_cancel' hle]
      rw [hdrop] at hw
      exact List.mem_of_mem_drop hw
    · have hsplit : log.drop taken = (log.take applied).drop taken ++ log.drop applied := by
        have hlog := List.take_append_drop applied log
        by_cases hlength : applied ≤ log.length
        · conv_lhs => rw [← hlog]
          rw [List.drop_append_of_le_length]
          rw [List.length_take]
          omega
        · rw [List.take_of_length_le (by omega), List.drop_of_length_le (by omega : log.length ≤ applied),
            List.append_nil]
      rw [hsplit, List.mem_append] at hw
      rcases hw with hw | hw
      · exact hexists ⟨w, hw, hk⟩
      · exact h w hw hk

end Marotte.Feed
