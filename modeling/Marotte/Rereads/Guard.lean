import Marotte.Rereads.Rungs
import Mathlib.Data.List.Range

/-! # One read at a time

What the guard and the answered cause say of the reads of a run, and what one step keeps.
-/
namespace Marotte.Rereads

variable {α : Type} {s : RunStore α} {read : Read} {reply : Reply α} {cause : Text} {t : Timer}

/-- The answer of a settled read. -/
def Settled.answer (x : Settled α) : Option α :=
  match x.outcome with
  | .answered value => some value
  | _ => none

theorem Settled.answer_eq_some {x : Settled α} {value : α} :
    x.answer = some value ↔ x.outcome = .answered value := by
  obtain ⟨read, outcome⟩ := x
  cases outcome <;> simp [Settled.answer]

namespace RunStore

/-- What every step keeps holds after one, case by case. -/
theorem step_induction {Q : RunStore α → Prop} (hs : Q s)
    (invalidate : ∀ cause, Q (s.invalidateRun cause))
    (settle : ∀ read ∈ s.reads, ∀ reply, Q (s.settle read reply))
    (fire : ∀ t ∈ s.retries.timers, Q (s.fire t)) (e : Event α) : Q (s.step e) := by
  cases e with
  | invalidate cause => exact invalidate cause
  | settle serial reply =>
    rw [step]
    split
    · exact hs
    · next read hfind => exact settle read (List.mem_of_find?_eq_some hfind) reply
  | fire timer =>
    rw [step]
    split
    · exact hs
    · next t hfind => exact fire t (List.mem_of_find?_eq_some hfind)

/-- At most one read is open, which the flag tells. Settled and open reads are those issued, in
order, and the cell holds the last answer. A standing cause is that of an open or an answered
read. -/
structure Guard (s : RunStore α) : Prop where
  open_reads : s.reads = [] ∧ s.inFlight = false ∧ s.stale = none
    ∨ ∃ read, s.reads = [read] ∧ s.inFlight = true
  serials : s.settled.map (fun x => x.read.serial) ++ s.reads.map Read.serial
    = List.range s.issued
  cell : s.cell = (s.settled.filterMap Settled.answer).getLast?
  cause : ∀ cause, s.answeredCause = some cause → cause ≠ []
    ∧ ((∃ read ∈ s.reads, read.cause = cause)
      ∨ ∃ x ∈ s.settled, x.read.cause = cause ∧ x.answer ≠ none)

namespace Guard

theorem length_le (h : s.Guard) : s.reads.length ≤ 1 := by
  rcases h.open_reads with ⟨hreads, -⟩ | ⟨read, hreads, -⟩ <;> simp [hreads]

theorem eq_of_mem (h : s.Guard) (hmem : read ∈ s.reads) : s.reads = [read] := by
  rcases h.open_reads with ⟨hreads, -⟩ | ⟨read', hreads, -⟩
  · rw [hreads] at hmem
    exact absurd hmem List.not_mem_nil
  · rw [hreads] at hmem ⊢
    rw [List.mem_singleton.1 hmem]

theorem flag (h : s.Guard) : s.inFlight = true ↔ s.reads ≠ [] := by
  rcases h.open_reads with ⟨hreads, hflag, -⟩ | ⟨read, hreads, hflag⟩ <;> simp [hreads, hflag]

/-- The open read is the last one issued. -/
theorem serial (h : s.Guard) (hmem : read ∈ s.reads) : read.serial + 1 = s.issued := by
  have hserials := h.serials
  rw [h.eq_of_mem hmem] at hserials
  have hlast := congrArg List.getLast? hserials
  rw [List.map_singleton, List.getLast?_concat, List.getLast?_range] at hlast
  split at hlast
  · contradiction
  · have := Option.some.inj hlast
    omega

theorem fetchRun (h : s.Guard) (hidle : s.reads = []) (cause : Text) :
    (s.fetchRun cause).Guard where
  open_reads := .inr ⟨⟨s.issued, cause⟩, by simp [RunStore.fetchRun, hidle], rfl⟩
  serials := by
    have hserials := h.serials
    rw [hidle, List.map_nil, List.append_nil] at hserials
    simp only [RunStore.fetchRun, hidle, List.nil_append, List.map_singleton, hserials,
      List.range_succ]
  cell := h.cell
  cause c hc := by
    simp only [RunStore.fetchRun] at hc
    split at hc
    · next hnil =>
      obtain ⟨hne, hread | hsettled⟩ := h.cause c hc
      · exact ⟨hne, .inl ⟨hread.choose, List.mem_append_left _ hread.choose_spec.1,
          hread.choose_spec.2⟩⟩
      · exact ⟨hne, .inr hsettled⟩
    · next hne =>
      obtain rfl := Option.some.inj hc
      exact ⟨hne, .inl ⟨_, List.mem_append_right _ (List.mem_singleton_self _), rfl⟩⟩

theorem invalidateRun (h : s.Guard) (cause : Text) : (s.invalidateRun cause).Guard := by
  rw [RunStore.invalidateRun]
  split
  · exact h
  · rcases h.open_reads with ⟨hreads, hflag, -⟩ | ⟨read, hreads, hflag⟩
    · rw [if_neg (by simp [hflag])]
      exact h.fetchRun hreads cause
    · rw [if_pos hflag]
      exact ⟨.inr ⟨read, hreads, hflag⟩, h.serials, h.cell, h.cause⟩

/-- The store once a read is closed and before the trailing one is issued. -/
theorem reads_conclude (h : s.Guard) (hmem : read ∈ s.reads) (reply : Reply α) :
    ((s.close read (s.outcome reply)).conclude read.cause reply).reads = [] := by
  have hreads : (s.close read (s.outcome reply)).reads = [] := by
    simp [close, h.eq_of_mem hmem]
  cases reply with
  | state value => exact hreads
  | failed status => exact hreads

theorem settled_conclude (s : RunStore α) (read : Read) (reply : Reply α) :
    ((s.close read (s.outcome reply)).conclude read.cause reply).settled
      = s.settled ++ [⟨read, s.outcome reply⟩] := by
  cases reply with
  | state value => rfl
  | failed status => rfl

/-- A failed read answers nothing. -/
theorem answer_failed (s : RunStore α) (read : Read) (status : ℕ) :
    (Settled.mk read (s.outcome (.failed status))).answer = none := by
  rw [outcome]
  split
  · rfl
  · split <;> rfl

end Guard

/-- What holds between the two reads of a settled one, where no read is open. -/
structure Idle (s : RunStore α) : Prop where
  reads : s.reads = []
  serials : s.settled.map (fun x => x.read.serial) = List.range s.issued
  cell : s.cell = (s.settled.filterMap Settled.answer).getLast?
  cause : ∀ cause, s.answeredCause = some cause → cause ≠ []
    ∧ ∃ x ∈ s.settled, x.read.cause = cause ∧ x.answer ≠ none

namespace Guard

theorem idle_conclude (h : s.Guard) (hmem : read ∈ s.reads) (reply : Reply α) :
    ((s.close read (s.outcome reply)).conclude read.cause reply).Idle := by
  have hreads := h.eq_of_mem hmem
  have hserials := h.serials
  rw [hreads, List.map_singleton] at hserials
  constructor
  · exact h.reads_conclude hmem reply
  · rw [settled_conclude, List.map_append, List.map_singleton]
    cases reply with
    | state value => exact hserials
    | failed status => exact hserials
  · rw [settled_conclude, List.filterMap_append]
    cases reply with
    | state value => exact (List.getLast?_concat ..).symm
    | failed status =>
      rw [List.filterMap_cons_none (answer_failed s read status), List.filterMap_nil,
        List.append_nil]
      exact h.cell
  · intro cause hcause
    rw [settled_conclude]
    cases reply with
    | state value =>
      obtain ⟨hne, ⟨r, hr, hrc⟩ | ⟨x, hx, hxc⟩⟩ := h.cause cause hcause
      · rw [hreads, List.mem_singleton] at hr
        subst hr
        exact ⟨hne, _, List.mem_append_right _ (List.mem_singleton_self _), hrc,
          Option.some_ne_none value⟩
      · exact ⟨hne, x, List.mem_append_left _ hx, hxc⟩
    | failed status =>
      simp only [conclude, close] at hcause
      split at hcause
      · next hnil =>
        obtain ⟨hne, ⟨r, hr, hrc⟩ | ⟨x, hx, hxc⟩⟩ := h.cause cause hcause
        · rw [hreads, List.mem_singleton] at hr
          exact absurd (hrc.symm.trans (hr ▸ hnil)) hne
        · exact ⟨hne, x, List.mem_append_left _ hx, hxc⟩
      · contradiction

end Guard

namespace Idle

theorem guard (h : s.Idle) (hflag : s.inFlight = false) (hstale : s.stale = none) : s.Guard where
  open_reads := .inl ⟨h.reads, hflag, hstale⟩
  serials := by rw [h.reads, List.map_nil, List.append_nil, h.serials]
  cell := h.cell
  cause cause hcause := (h.cause cause hcause).imp_right .inr

theorem trail (h : s.Idle) (hflag : s.inFlight = false) : s.trail.Guard := by
  rw [RunStore.trail]
  split
  · next hstale => exact h.guard hflag hstale
  · next next hstale =>
    have hidle : ({ s with stale := none } : RunStore α).Idle :=
      ⟨h.reads, h.serials, h.cell, h.cause⟩
    exact (hidle.guard hflag rfl).fetchRun h.reads next

end Idle

namespace Guard

theorem settle (h : s.Guard) (hmem : read ∈ s.reads) (reply : Reply α) :
    (s.settle read reply).Guard := by
  refine (h.idle_conclude hmem reply).trail ?_
  cases reply with
  | state value => rfl
  | failed status => rfl

theorem expire (h : s.Guard) (t : Timer) : (s.expire t).Guard :=
  ⟨h.open_reads, h.serials, h.cell, h.cause⟩

theorem fire (h : s.Guard) (t : Timer) : (s.fire t).Guard :=
  (h.expire t).invalidateRun t.cause

theorem step (h : s.Guard) (e : Event α) : (s.step e).Guard :=
  step_induction h h.invalidateRun (fun _ hmem => h.settle hmem) (fun t _ => h.fire t) e

theorem empty : (empty : RunStore α).Guard where
  open_reads := .inl ⟨rfl, rfl, rfl⟩
  serials := rfl
  cell := rfl
  cause cause hcause := by contradiction

end Guard

/-! ## The answer in the cell -/

/-- The state is the answer of the newest-issued read that answered. -/
def Newest (s : RunStore α) (value : α) : Prop :=
  ∃ x ∈ s.settled, x.outcome = .answered value
    ∧ ∀ y ∈ s.settled, y.answer ≠ none → y.read.serial ≤ x.read.serial

/-- The last element of a filtered list, and what comes after it. -/
theorem getLast?_answers {settled : List (Settled α)} {value : α}
    (h : (settled.filterMap Settled.answer).getLast? = some value) :
    ∃ before x after, settled = before ++ x :: after ∧ x.answer = some value
      ∧ ∀ y ∈ after, y.answer = none := by
  induction settled using List.reverseRecOn with
  | nil => contradiction
  | append_singleton settled x ih =>
    rw [List.filterMap_append] at h
    cases hx : x.answer with
    | none =>
      rw [List.filterMap_cons_none hx, List.filterMap_nil, List.append_nil] at h
      obtain ⟨before, x', after, rfl, hx', hafter⟩ := ih h
      refine ⟨before, x', after ++ [x], by simp, hx', fun y hy => ?_⟩
      rcases List.mem_append.1 hy with hy | hy
      · exact hafter y hy
      · exact List.mem_singleton.1 hy ▸ hx
    | some v =>
      rw [List.filterMap_cons_some hx, List.filterMap_nil, List.getLast?_concat] at h
      exact ⟨settled, x, [], rfl, hx.trans h, fun y hy => absurd hy List.not_mem_nil⟩

/-- The cell holds the newest-issued answer. -/
theorem Guard.newest (h : s.Guard) {value : α} (hcell : s.cell = some value) : s.Newest value := by
  rw [h.cell] at hcell
  obtain ⟨before, x, after, hsettled, hx, hafter⟩ := getLast?_answers hcell
  refine ⟨x, by simp [hsettled], Settled.answer_eq_some.1 hx, fun y hy hne => ?_⟩
  have hsorted : (s.settled.map fun x => x.read.serial).Pairwise (· < ·) :=
    (h.serials ▸ List.pairwise_lt_range).sublist (List.sublist_append_left ..)
  rw [hsettled, List.map_append, List.map_cons, List.pairwise_append] at hsorted
  rw [hsettled, List.mem_append, List.mem_cons] at hy
  rcases hy with hy | rfl | hy
  · exact (hsorted.2.2 _ (List.mem_map_of_mem hy) _ List.mem_cons_self).le
  · exact le_rfl
  · exact absurd (hafter y hy) hne

/-- An answer leaves the cell filled. -/
theorem Guard.cell_of_answer (h : s.Guard) {x : Settled α} (hx : x ∈ s.settled) {value : α}
    (hanswer : x.answer = some value) : ∃ v, s.cell = some v := by
  rw [h.cell, ← Option.isSome_iff_exists, List.getLast?_isSome]
  exact List.ne_nil_of_mem (List.mem_filterMap.2 ⟨x, hx, hanswer⟩)

end RunStore

end Marotte.Rereads
