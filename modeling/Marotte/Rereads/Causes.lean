import Marotte.Rereads.Fresh

/-! # The causes of a re-read

An invalidation is dropped for a read issued since its cause was first named. All that holds of the
reads of a run, for every run.
-/
namespace Marotte.Rereads

variable {α : Type} {s s₀ : RunStore α} {read : Read} {reply : Reply α} {cause : Text} {t : Timer}

namespace RunStore

/-- No invalidation has named the cause. -/
structure Unnamed (cause : Text) (s : RunStore α) : Prop where
  stale : s.stale ≠ some cause
  answeredCause : s.answeredCause ≠ some cause
  timers : ∀ t ∈ s.retries.timers, t.cause ≠ cause
  reads : ∀ read ∈ s.reads, read.cause ≠ cause
  settled : ∀ x ∈ s.settled, x.read.cause ≠ cause

namespace Unnamed

variable {other : Text}

theorem fetchRun (h : Unnamed cause s) (hne : other ≠ cause) :
    Unnamed cause (s.fetchRun other) where
  stale := h.stale
  answeredCause := by
    simp only [RunStore.fetchRun]
    split
    · exact h.answeredCause
    · exact fun heq => hne (Option.some.inj heq)
  timers := h.timers
  reads r hr := by
    rcases List.mem_append.1 hr with hr | hr
    · exact h.reads r hr
    · obtain rfl := List.mem_singleton.1 hr
      exact hne
  settled := h.settled

theorem invalidateRun (h : Unnamed cause s) (hne : other ≠ cause) :
    Unnamed cause (s.invalidateRun other) := by
  rw [RunStore.invalidateRun]
  split
  · exact h
  · split
    · exact ⟨fun heq => hne (Option.some.inj heq), h.answeredCause, h.timers, h.reads, h.settled⟩
    · exact h.fetchRun hne

theorem timers_scheduleRunRetry {r : Retries} (h : ∀ t ∈ r.timers, t.cause ≠ cause)
    (hne : other ≠ cause) : ∀ t ∈ (r.scheduleRunRetry other).timers, t.cause ≠ cause := by
  rw [Retries.scheduleRunRetry]
  split
  · exact h
  · intro t ht
    rcases List.mem_append.1 ht with ht | ht
    · exact h t (Retries.mem_clearTimeout.1 ht).1
    · obtain rfl := List.mem_singleton.1 ht
      exact hne

theorem conclude (h : Unnamed cause s) (hne : other ≠ cause) (reply : Reply α) :
    Unnamed cause (s.conclude other reply) := by
  have hcancel : ∀ t ∈ s.retries.cancelRunRetry.timers, t.cause ≠ cause := fun t ht =>
    h.timers t (Retries.mem_clearTimeout.1 ht).1
  cases reply with
  | state value => exact ⟨h.stale, h.answeredCause, hcancel, h.reads, h.settled⟩
  | failed status =>
    refine ⟨h.stale, ?_, ?_, h.reads, h.settled⟩
    · simp only [RunStore.conclude]
      split
      · exact h.answeredCause
      · exact (Option.some_ne_none _).symm
    · simp only [RunStore.conclude]
      split
      · exact hcancel
      · exact timers_scheduleRunRetry h.timers hne

theorem trail (h : Unnamed cause s) : Unnamed cause s.trail := by
  rcases s.trail_cases with ⟨-, heq⟩ | ⟨next, hstale, heq⟩
  · rwa [heq]
  · rw [heq]
    have hnext : next ≠ cause := fun hnext => h.stale (hstale.trans (congrArg some hnext))
    exact fetchRun (s := { s with stale := none })
      ⟨(Option.some_ne_none _).symm, h.answeredCause, h.timers, h.reads, h.settled⟩ hnext

theorem settle (h : Unnamed cause s) (hmem : read ∈ s.reads) (reply : Reply α) :
    Unnamed cause (s.settle read reply) := by
  have hclose : Unnamed cause (s.close read (s.outcome reply)) := by
    refine ⟨h.stale, h.answeredCause, h.timers, fun r hr => h.reads r (List.mem_of_mem_filter hr),
      fun x hx => ?_⟩
    rcases List.mem_append.1 hx with hx | hx
    · exact h.settled x hx
    · obtain rfl := List.mem_singleton.1 hx
      exact h.reads read hmem
  exact (hclose.conclude (h.reads read hmem) reply).trail

theorem fire (h : Unnamed cause s) (ht : t ∈ s.retries.timers) : Unnamed cause (s.fire t) :=
  invalidateRun (s := s.expire t) ⟨h.stale, h.answeredCause,
    fun u hu => h.timers u (Retries.mem_clearTimeout.1 hu).1, h.reads, h.settled⟩ (h.timers t ht)

theorem step (h : Unnamed cause s) {e : Event α} (he : e ≠ .invalidate cause) :
    Unnamed cause (s.step e) := by
  cases e with
  | invalidate other => exact h.invalidateRun fun heq => he (congrArg Event.invalidate heq)
  | settle serial reply =>
    rw [RunStore.step]
    split
    · exact h
    · next read hfind => exact h.settle (List.mem_of_find?_eq_some hfind) reply
  | fire timer =>
    rw [RunStore.step]
    split
    · exact h
    · next t hfind => exact h.fire (List.mem_of_find?_eq_some hfind)

theorem runFrom {events : List (Event α)} (hevents : Event.invalidate cause ∉ events) :
    Unnamed cause (runFrom RunStore.step RunStore.empty events) := by
  induction events using List.reverseRecOn with
  | nil =>
    refine ⟨(Option.some_ne_none _).symm, (Option.some_ne_none _).symm, fun t ht => ?_,
      fun r hr => ?_, fun x hx => ?_⟩
    · contradiction
    · contradiction
    · contradiction
  | append_singleton events e ih =>
    rw [runFrom_concat]
    rw [List.mem_append, not_or, List.mem_singleton] at hevents
    exact (ih hevents.1).step (Ne.symm hevents.2)

end Unnamed

/-- The reads issued so far. -/
def known (s : RunStore α) : List Read :=
  s.settled.map Settled.read ++ s.reads

theorem known_fetchRun (s : RunStore α) (cause : Text) :
    (s.fetchRun cause).known = s.known ++ [⟨s.issued, cause⟩] := by
  simp only [known, fetchRun, List.append_assoc]

/-- A read that one step makes known is issued by it. -/
def Grows (s s' : RunStore α) : Prop :=
  s.issued ≤ s'.issued ∧ ∀ read ∈ s'.known, read ∈ s.known ∨ s.issued ≤ read.serial

theorem grows_refl (s : RunStore α) : Grows s s :=
  ⟨le_rfl, fun _ hmem => .inl hmem⟩

theorem grows_fetchRun (s : RunStore α) (cause : Text) : Grows s (s.fetchRun cause) := by
  refine ⟨Nat.le_succ _, fun r hr => ?_⟩
  rw [known_fetchRun] at hr
  rcases List.mem_append.1 hr with hr | hr
  · exact .inl hr
  · obtain rfl := List.mem_singleton.1 hr
    exact .inr le_rfl

theorem grows_invalidateRun (s : RunStore α) (cause : Text) : Grows s (s.invalidateRun cause) := by
  rw [invalidateRun]
  split
  · exact grows_refl s
  · split
    · exact ⟨le_rfl, fun _ hmem => .inl hmem⟩
    · exact grows_fetchRun s cause

theorem grows_settle (h : s.Guard) (hmem : read ∈ s.reads) (reply : Reply α) :
    Grows s (s.settle read reply) := by
  have hknown : ((s.close read (s.outcome reply)).conclude read.cause reply).known = s.known := by
    rw [known, h.reads_conclude hmem, Guard.settled_conclude, known, h.eq_of_mem hmem,
      List.map_append, List.map_singleton, List.append_nil]
  have hissued := Pending.issued_conclude s read reply
  rw [settle]
  rcases trail_cases ((s.close read (s.outcome reply)).conclude read.cause reply) with
    ⟨-, heq⟩ | ⟨next, -, heq⟩
  · rw [heq]
    exact ⟨hissued.ge, fun _ hr => .inl (hknown ▸ hr)⟩
  · rw [heq]
    obtain ⟨hle, hgrows⟩ := grows_fetchRun
      ({ (s.close read (s.outcome reply)).conclude read.cause reply with stale := none }) next
    refine ⟨hissued.ge.trans hle, fun r hr => (hgrows r hr).imp (fun hmem => ?_) hissued.ge.trans⟩
    exact hknown ▸ hmem

theorem grows_step (h : s.Guard) (e : Event α) : Grows s (s.step e) :=
  step_induction (grows_refl s) (grows_invalidateRun s) (fun _ hmem => grows_settle h hmem)
    (fun t _ => grows_invalidateRun (s.expire t) t.cause) e

theorem grows_runFrom (h : s.Inv) (events : List (Event α)) :
    Grows s (Marotte.runFrom step s events) := by
  induction events using List.reverseRecOn with
  | nil => exact grows_refl s
  | append_singleton events e ih =>
    rw [runFrom_concat]
    have hinv : (Marotte.runFrom step s events).Inv :=
      runFrom_invariant h (fun _ e h => h.step e) events
    obtain ⟨hle, hgrows⟩ := grows_step hinv.guard e
    refine ⟨ih.1.trans hle, fun r hr => ?_⟩
    rcases hgrows r hr with hr | hr
    · exact ih.2 r hr
    · exact .inr (ih.1.trans hr)

/-- A read is open or has answered that was issued under the cause since a state. -/
def Covered (s₀ s : RunStore α) (cause : Text) : Prop :=
  (∃ read ∈ s.reads, read.cause = cause ∧ s₀.issued ≤ read.serial)
    ∨ ∃ x ∈ s.settled, x.read.cause = cause ∧ s₀.issued ≤ x.read.serial ∧ x.answer ≠ none

/-- A read issued since a state has answered and the cell holds the newest-issued answer, or one
was refused or exhausted the ladder. -/
def Resolved (s₀ s : RunStore α) : Prop :=
  ∃ x ∈ s.settled, s₀.issued ≤ x.read.serial
    ∧ ((∃ value, x.outcome = .answered value ∧ ∃ newest, s.cell = some newest ∧ s.Newest newest)
      ∨ x.outcome = .refused ∨ x.outcome = .gaveUp)

theorem covered_of_drops (h : s.Guard) (hunnamed : Unnamed cause s₀) (hgrows : Grows s₀ s)
    (hdrop : s.Drops cause) : Covered s₀ s cause := by
  have hserial : ∀ read ∈ s.known, read.cause = cause → s₀.issued ≤ read.serial := by
    intro read hread hcause
    rcases hgrows.2 read hread with hknown | hserial
    · rcases List.mem_append.1 hknown with hsettled | hopen
      · obtain ⟨x, hx, rfl⟩ := List.mem_map.1 hsettled
        exact absurd hcause (hunnamed.settled x hx)
      · exact absurd hcause (hunnamed.reads read hopen)
    · exact hserial
  rcases (h.cause cause hdrop.2).2 with ⟨read, hread, hcause⟩ | ⟨x, hx, hcause, hanswer⟩
  · exact .inl ⟨read, hread, hcause, hserial read (List.mem_append_right _ hread) hcause⟩
  · exact .inr ⟨x, hx, hcause,
      hserial x.read (List.mem_append_left _ (List.mem_map_of_mem hx)) hcause, hanswer⟩

theorem Met.resolved (h : Met s₀ s) (hguard : s.Guard) : Resolved s₀ s := by
  obtain ⟨⟨read, outcome⟩, hx, hserial, hretried⟩ := h
  refine ⟨_, hx, hserial, ?_⟩
  cases outcome with
  | answered value =>
    obtain ⟨newest, hcell⟩ := hguard.cell_of_answer hx rfl
    exact .inl ⟨value, rfl, newest, hcell, hguard.newest hcell⟩
  | refused => exact .inr (.inl rfl)
  | gaveUp => exact .inr (.inr rfl)
  | retried => exact absurd rfl hretried

/-- An invalidation that is not dropped is resolved, or a read is open or the ladder has a timer and
fewer than five reads have settled since. -/
theorem resolved_or_live (hdrop : ¬ s₀.Drops cause) (h : s₀.Inv) (events : List (Event α)) :
    let s := Marotte.runFrom step s₀ (.invalidate cause :: events)
    Resolved s₀ s
      ∨ (s.reads ≠ [] ∨ s.retries.Armed) ∧ s.settled.length < s₀.settled.length + 5 := by
  have hrun : (Marotte.runFrom step (s₀.invalidateRun cause) events).Inv
      ∧ Pending s₀ (Marotte.runFrom step (s₀.invalidateRun cause) events) :=
    runFrom_invariant (Q := fun s => s.Inv ∧ Pending s₀ s)
      ⟨h.invalidateRun cause, Pending.of_invalidateRun h.guard hdrop⟩
      (fun _ e ⟨hinv, hpending⟩ => ⟨hinv.step e, hpending.step hinv e⟩) events
  obtain ⟨hinv, -, hmet | howed⟩ := hrun
  · exact .inl (hmet.resolved hinv.guard)
  · exact .inr (howed.live hinv.rungs)

end RunStore

/-! ## Every run -/

open RunStore

theorem eventsOf_append (workflowID : Text) (before after : List (Text × Event α)) (e : Event α) :
    eventsOf workflowID (before ++ (workflowID, e) :: after)
      = eventsOf workflowID before ++ e :: eventsOf workflowID after := by
  rw [eventsOf, List.filter_append, List.map_append, List.filter_cons_of_pos (by simp),
    List.map_cons, eventsOf, eventsOf]

theorem mem_eventsOf {workflowID : Text} {events : List (Text × Event α)} {e : Event α} :
    e ∈ eventsOf workflowID events ↔ (workflowID, e) ∈ events := by
  simp only [eventsOf, List.mem_map, List.mem_filter, decide_eq_true_eq]
  constructor
  · rintro ⟨⟨id, e⟩, ⟨hmem, rfl⟩, rfl⟩
    exact hmem
  · intro hmem
    exact ⟨_, ⟨hmem, rfl⟩, rfl⟩

theorem run_split {workflowID : Text} (h : workflowID ≠ []) (before after : List (Text × Event α))
    (e : Event α) :
    run (before ++ (workflowID, e) :: after) workflowID
      = runFrom RunStore.step (run before workflowID) (e :: eventsOf workflowID after) := by
  rw [run_eq h, run_eq h, eventsOf_append, runFrom_append]

theorem inv_run {workflowID : Text} (h : workflowID ≠ []) (events : List (Text × Event α)) :
    (run events workflowID).Inv :=
  run_eq h events ▸ Inv.runFrom _

theorem unnamed_run {workflowID : Text} (h : workflowID ≠ []) {events : List (Text × Event α)}
    (hevents : (workflowID, .invalidate cause) ∉ events) :
    Unnamed cause (run events workflowID) :=
  run_eq h events ▸ Unnamed.runFrom (mt mem_eventsOf.1 hevents)

/-- Whatever the order of invalidations, replies and timers of any runs, at most one read of a run is
open. An invalidation without a cause, and the first that names one, is resolved by a read issued
since, or a read is open or the ladder has a timer, until five reads have settled. One is dropped
only for a read under its cause, issued since the cause was first named, that is open or has
answered. And no ladder fires more than three timers. -/
theorem reread_fresh {workflowID : Text} (h : workflowID ≠ []) (events : List (Text × Event α)) :
    let s := run events workflowID
    s.reads.length ≤ 1
    ∧ (∀ before cause after, events = before ++ (workflowID, .invalidate cause) :: after →
        cause = [] ∨ (workflowID, .invalidate cause) ∉ before →
        Resolved (run before workflowID) s
          ∨ (s.reads ≠ [] ∨ s.retries.Armed)
            ∧ s.settled.length < (run before workflowID).settled.length + 5)
    ∧ (∀ cause, s.Drops cause →
        ∃ before after, events = before ++ (workflowID, .invalidate cause) :: after
          ∧ (workflowID, .invalidate cause) ∉ before ∧ Covered (run before workflowID) s cause)
    ∧ ∀ ladder, s.retries.fires.count ladder ≤ RUN_RETRY_LIMIT := by
  intro s
  have hinv : s.Inv := inv_run h events
  refine ⟨hinv.guard.length_le, ?_, ?_, fun ladder => ?_⟩
  · intro before cause after hevents hfirst
    have hdrop : ¬ (run before workflowID).Drops cause := by
      rintro ⟨hne, hanswered⟩
      exact (unnamed_run h (hfirst.resolve_left hne)).answeredCause hanswered
    have hs : s = _ := hevents ▸ run_split h before after (.invalidate cause)
    rw [hs]
    exact resolved_or_live hdrop (inv_run h before) _
  · intro cause hdrop
    have hnamed : (workflowID, .invalidate cause) ∈ events := by
      by_contra hnot
      exact (unnamed_run h hnot).answeredCause hdrop.2
    obtain ⟨before, after, hevents, hfirst⟩ := List.eq_append_cons_of_mem hnamed
    have hs : s = _ := hevents ▸ run_split h before after (.invalidate cause)
    refine ⟨before, after, hevents, hfirst,
      covered_of_drops hinv.guard (unnamed_run h hfirst) ?_ hdrop⟩
    rw [hs]
    exact grows_runFrom (inv_run h before) _
  · have hcount := hinv.rungs.count ladder
    have hspent := Retries.spent_le hinv.rungs ladder
    omega

theorem reread_fresh_gap :
    let s := run [(['r'], .invalidate ['g']), (['r'], .settle 0 (.failed 502))] ['r']
    s.reads.length ≤ 1
    ∧ (∀ before cause after,
        [(['r'], .invalidate ['g']), (['r'], .settle 0 (.failed 502))]
            = before ++ (['r'], .invalidate cause) :: after →
        cause = [] ∨ (['r'], .invalidate cause) ∉ before →
        Resolved (run before ['r']) s
          ∨ (s.reads ≠ [] ∨ s.retries.Armed)
            ∧ s.settled.length < (run before ['r']).settled.length + 5)
    ∧ (∀ cause, s.Drops cause →
        ∃ before after,
          [(['r'], (.invalidate ['g'] : Event ℕ)), (['r'], .settle 0 (.failed 502))]
              = before ++ (['r'], .invalidate cause) :: after
            ∧ (['r'], .invalidate cause) ∉ before ∧ Covered (run before ['r']) s cause)
    ∧ ∀ ladder, s.retries.fires.count ladder ≤ RUN_RETRY_LIMIT :=
  reread_fresh (by decide) _

/-- The events of one run between its two answers: a ladder is exhausted and a later failure begins
another. -/
def exhausted : List (Event ℕ) :=
  [.invalidate [], .settle 1 (.failed 502), .fire 0, .settle 2 (.failed 502), .fire 1,
    .settle 3 (.failed 502), .fire 2, .settle 4 (.failed 502), .invalidate [],
    .settle 5 (.failed 502), .fire 3]

/-- Four timers fire between two answers. -/
theorem fires_between_answers :
    let first := [Event.invalidate [], .settle 0 (.state 0)].map fun e => (['r'], e)
    let between := exhausted.map fun e => (['r'], e)
    let s := run (first ++ between ++ [(['r'], .settle 6 (.state 1))]) ['r']
    s.settled.map Settled.answer = [some 0, none, none, none, none, none, some 1]
      ∧ (run first ['r']).settled.map Settled.answer = [some 0]
      ∧ (run first ['r']).retries.fires.length + 4
        = (run (first ++ between) ['r']).retries.fires.length := by
  decide

end Marotte.Rereads
