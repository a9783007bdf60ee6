import Marotte.Rereads.Guard

/-! # A re-read is fresh

An invalidation that is not dropped is owed a read issued after it, until one answers or is refused
or exhausts the ladder.
-/
namespace Marotte.Rereads

variable {α : Type} {s s₀ : RunStore α} {read : Read} {reply : Reply α} {cause : Text} {t : Timer}

namespace RunStore

theorem trail_cases (s : RunStore α) :
    s.stale = none ∧ s.trail = s
      ∨ ∃ next, s.stale = some next
        ∧ s.trail = ({ s with stale := none } : RunStore α).fetchRun next := by
  rw [trail]
  cases hstale : s.stale with
  | none => exact .inl ⟨rfl, rfl⟩
  | some next => exact .inr ⟨next, rfl, rfl⟩

@[simp] theorem retries_trail (s : RunStore α) : s.trail.retries = s.retries := by
  rcases s.trail_cases with ⟨-, heq⟩ | ⟨next, -, heq⟩ <;> rw [heq] <;> rfl

@[simp] theorem settled_trail (s : RunStore α) : s.trail.settled = s.settled := by
  rcases s.trail_cases with ⟨-, heq⟩ | ⟨next, -, heq⟩ <;> rw [heq] <;> rfl

@[simp] theorem settled_settle (s : RunStore α) (read : Read) (reply : Reply α) :
    (s.settle read reply).settled = s.settled ++ [⟨read, s.outcome reply⟩] := by
  rw [settle, settled_trail, Guard.settled_conclude]

@[simp] theorem settled_invalidateRun (s : RunStore α) (cause : Text) :
    (s.invalidateRun cause).settled = s.settled := by
  rw [invalidateRun]
  split
  · rfl
  · split <;> rfl

/-! ## The timer of the ladder -/

/-- With no read open, the cause of the ladder's timer is not one that is dropped. -/
structure Inv (s : RunStore α) : Prop where
  guard : s.Guard
  rungs : s.retries.Rungs
  quiet : s.reads = [] → ∀ l, s.retries.runRetries = some l → ∀ t ∈ s.retries.timers,
    l.timer = some t.id → ¬ s.Drops t.cause

namespace Inv

theorem invalidateRun (h : s.Inv) (cause : Text) : (s.invalidateRun cause).Inv where
  guard := h.guard.invalidateRun cause
  rungs := by
    rw [RunStore.invalidateRun]
    split
    · exact h.rungs
    · split <;> exact h.rungs
  quiet := by
    rw [RunStore.invalidateRun]
    split
    · exact h.quiet
    · split
      · exact h.quiet
      · intro hreads
        exact absurd hreads (List.append_ne_nil_of_right_ne_nil _ (List.cons_ne_nil _ _))

theorem rungs_conclude (h : s.retries.Rungs) (read : Read) (reply : Reply α) :
    ((s.close read (s.outcome reply)).conclude read.cause reply).retries.Rungs := by
  cases reply with
  | state value => exact h.cancelRunRetry
  | failed status =>
    simp only [conclude]
    split
    · exact h.cancelRunRetry
    · exact h.scheduleRunRetry read.cause

/-- A failed read leaves no claim on the cause its timer was armed with. -/
theorem quiet_conclude (h : s.retries.Rungs) (read : Read) (reply : Reply α) {l : RunRetry}
    (hl : ((s.close read (s.outcome reply)).conclude read.cause reply).retries.runRetries = some l)
    (ht : t ∈ ((s.close read (s.outcome reply)).conclude read.cause reply).retries.timers)
    (htimer : l.timer = some t.id) :
    ¬ ((s.close read (s.outcome reply)).conclude read.cause reply).Drops t.cause := by
  cases reply with
  | state value => contradiction
  | failed status =>
    simp only [conclude] at hl ht
    split at hl
    · contradiction
    · next hstatus =>
      rw [if_neg hstatus] at ht
      rw [Retries.cause_of_scheduleRunRetry h hl ht htimer]
      rintro ⟨hne, hcause⟩
      simp only [conclude, if_neg hne] at hcause
      contradiction

theorem settle (h : s.Inv) (hmem : read ∈ s.reads) (reply : Reply α) :
    (s.settle read reply).Inv where
  guard := h.guard.settle hmem reply
  rungs := by
    rw [RunStore.settle, retries_trail]
    exact rungs_conclude h.rungs read reply
  quiet := by
    rw [RunStore.settle]
    rcases trail_cases ((s.close read (s.outcome reply)).conclude read.cause reply) with
      ⟨-, heq⟩ | ⟨next, -, heq⟩
    · rw [heq]
      intro _ l hl t ht htimer
      exact quiet_conclude h.rungs read reply hl ht htimer
    · rw [heq]
      intro hreads
      exact absurd hreads (List.append_ne_nil_of_right_ne_nil _ (List.cons_ne_nil _ _))

theorem expire (h : s.Inv) (ht : t ∈ s.retries.timers) : (s.expire t).Inv where
  guard := h.guard.expire t
  rungs := h.rungs.expire ht
  quiet hreads l hl u hu htimer := by
    obtain ⟨hl', hu'⟩ := Retries.of_expire hl hu htimer
    exact h.quiet hreads l hl' u hu' htimer

theorem fire (h : s.Inv) (ht : t ∈ s.retries.timers) : (s.fire t).Inv :=
  (h.expire ht).invalidateRun t.cause

theorem step (h : s.Inv) (e : Event α) : (s.step e).Inv :=
  step_induction h h.invalidateRun (fun _ hmem => h.settle hmem) (fun _ ht => h.fire ht) e

theorem empty : (empty : RunStore α).Inv where
  guard := .empty
  rungs := by
    constructor
    · intro t ht
      contradiction
    · intro k hk
      contradiction
    · intro l hl
      contradiction
    · intro l hl
      contradiction
    · intro k
      exact Nat.zero_le _
  quiet _ l hl := by contradiction

theorem runFrom (events : List (Event α)) :
    (runFrom RunStore.step RunStore.empty events).Inv :=
  runFrom_invariant Inv.empty (fun _ e h => h.step e) events

end Inv

/-! ## What an invalidation is owed -/

/-- A read issued since has settled, other than by a failure that is retried. -/
def Met (s₀ s : RunStore α) : Prop :=
  ∃ x ∈ s.settled, s₀.issued ≤ x.read.serial ∧ x.outcome ≠ .retried

/-- A read is open with another to trail it, or one issued since is open or the ladder that retries
it has a timer, and each that settled counts on the ladder. -/
def Owed (s₀ s : RunStore α) : Prop :=
  s.reads ≠ [] ∧ s.stale ≠ none ∧ s.settled.length = s₀.settled.length
    ∨ s.settled.length ≤ s₀.settled.length + 1 + s.retries.ladder.attempts
      ∧ ((∃ read ∈ s.reads, s₀.issued ≤ read.serial) ∨ s.reads = [] ∧ s.retries.Armed)

def Pending (s₀ s : RunStore α) : Prop :=
  s₀.issued ≤ s.issued ∧ (Met s₀ s ∨ Owed s₀ s)

theorem pending_fetchRun (hle : s₀.issued ≤ s.issued)
    (hcount : s.settled.length ≤ s₀.settled.length + 1 + s.retries.ladder.attempts) (cause : Text) :
    Pending s₀ (s.fetchRun cause) :=
  ⟨hle.trans (Nat.le_succ _), .inr (.inr ⟨hcount, .inl ⟨⟨s.issued, cause⟩,
    List.mem_append_right _ (List.mem_singleton_self _), hle⟩⟩)⟩

namespace Pending

theorem invalidateRun (h : Pending s₀ s) (hguard : s.Guard) (cause : Text) :
    Pending s₀ (s.invalidateRun cause) := by
  obtain ⟨hle, hmet | howed⟩ := h
  · refine ⟨hle.trans ?_, .inl ?_⟩
    · rw [RunStore.invalidateRun]
      split
      · exact le_rfl
      · split
        · exact le_rfl
        · exact Nat.le_succ _
    · rwa [Met, settled_invalidateRun]
  · rw [RunStore.invalidateRun]
    split
    · exact ⟨hle, .inr howed⟩
    · split
      · next hflag =>
        rcases howed with ⟨hreads, -, hcount⟩ | hafter
        · exact ⟨hle, .inr (.inl ⟨hreads, Option.some_ne_none _, hcount⟩)⟩
        · exact ⟨hle, .inr (.inr hafter)⟩
      · next hflag =>
        rcases howed with ⟨hreads, -⟩ | ⟨hcount, -⟩
        · exact absurd (hguard.flag.2 hreads) hflag
        · exact pending_fetchRun hle hcount cause

theorem trail (hle : s₀.issued ≤ s.issued)
    (hcount : s.settled.length ≤ s₀.settled.length + 1 + s.retries.ladder.attempts)
    (hreads : s.reads = []) (h : s.stale ≠ none ∨ s.retries.Armed) : Pending s₀ s.trail := by
  rcases s.trail_cases with ⟨hstale, heq⟩ | ⟨next, -, heq⟩
  · rw [heq]
    exact ⟨hle, .inr (.inr ⟨hcount, .inr ⟨hreads, h.resolve_left fun hne => hne hstale⟩⟩)⟩
  · rw [heq]
    exact pending_fetchRun (s := { s with stale := none }) hle hcount next

theorem issued_conclude (s : RunStore α) (read : Read) (reply : Reply α) :
    ((s.close read (s.outcome reply)).conclude read.cause reply).issued = s.issued := by
  cases reply <;> rfl

theorem stale_conclude (s : RunStore α) (read : Read) (reply : Reply α) :
    ((s.close read (s.outcome reply)).conclude read.cause reply).stale = s.stale := by
  cases reply <;> rfl

theorem issued_settle (s : RunStore α) (read : Read) (reply : Reply α) :
    s.issued ≤ (s.settle read reply).issued := by
  rw [RunStore.settle]
  have hissued := issued_conclude s read reply
  rcases trail_cases ((s.close read (s.outcome reply)).conclude read.cause reply) with
    ⟨-, heq⟩ | ⟨next, -, heq⟩
  · rw [heq, hissued]
  · rw [heq]
    exact hissued.ge.trans (Nat.le_succ _)

/-- A failure that is retried arms the ladder for one attempt more. -/
theorem conclude_of_retried (h : s.outcome reply = .retried) (read : Read) :
    s.retries.ladder.attempts < RUN_RETRY_LIMIT
      ∧ ((s.close read (s.outcome reply)).conclude read.cause reply).retries
        = s.retries.scheduleRunRetry read.cause := by
  cases reply with
  | state value => contradiction
  | failed status =>
    rw [outcome] at h
    split at h
    · contradiction
    · next hstatus =>
      split at h
      · contradiction
      · next hlimit =>
        refine ⟨Nat.lt_of_not_le hlimit, ?_⟩
        simp only [conclude, if_neg hstatus]
        rfl

theorem settle (h : Pending s₀ s) (hguard : s.Guard) (hmem : read ∈ s.reads) (reply : Reply α) :
    Pending s₀ (s.settle read reply) := by
  obtain ⟨hle, hmet | howed⟩ := h
  · obtain ⟨x, hx, hmet⟩ := hmet
    refine ⟨hle.trans (issued_settle s read reply), .inl ⟨x, ?_, hmet⟩⟩
    rw [settled_settle]
    exact List.mem_append_left _ hx
  · have hissued : s₀.issued ≤ _ := hle.trans (issued_conclude s read reply).ge
    have hreads := hguard.reads_conclude hmem reply
    have hlength := congrArg List.length (Guard.settled_conclude s read reply)
    rw [List.length_append, List.length_singleton] at hlength
    rcases howed with ⟨-, hstale, hcount⟩ | ⟨hcount, hopen⟩
    · -- the read issued before settles and the one that trails it is issued
      rw [← stale_conclude s read reply] at hstale
      exact Pending.trail hissued (by omega) hreads (.inl hstale)
    · have hserial : s₀.issued ≤ read.serial := by
        rcases hopen with ⟨r, hr, hserial⟩ | ⟨hnil, -⟩
        · rw [hguard.eq_of_mem hmem, List.mem_singleton] at hr
          exact hr ▸ hserial
        · rw [hnil] at hmem
          exact absurd hmem List.not_mem_nil
      by_cases hretried : s.outcome reply = .retried
      · obtain ⟨hlimit, hretries⟩ := conclude_of_retried hretried read
        have hattempts := Retries.attempts_scheduleRunRetry hlimit read.cause
        rw [← hretries] at hattempts
        refine Pending.trail hissued (by omega) hreads (.inr ?_)
        rw [hretries]
        exact Retries.armed_scheduleRunRetry hlimit read.cause
      · refine ⟨hle.trans (issued_settle s read reply),
          .inl ⟨⟨read, s.outcome reply⟩, ?_, hserial, hretried⟩⟩
        rw [settled_settle]
        exact List.mem_append_right _ (List.mem_singleton_self _)

/-- A timer that fires costs nothing unless it is the ladder's and no read is open. -/
theorem expire (h : Pending s₀ s) (hinv : s.Inv) (ht : t ∈ s.retries.timers)
    (hother : s.reads = [] → ∀ l, s.retries.runRetries = some l → l.timer ≠ some t.id) :
    Pending s₀ (s.expire t) := by
  obtain ⟨hle, hmet | hbefore | ⟨hcount, hopen⟩⟩ := h
  · exact ⟨hle, .inl hmet⟩
  · exact ⟨hle, .inr (.inl hbefore)⟩
  · rw [← Retries.attempts_expire s.retries t] at hcount
    exact ⟨hle, .inr (.inr ⟨hcount, hopen.imp_right fun ⟨hreads, harmed⟩ =>
      ⟨hreads, harmed.expire hinv.rungs ht (hother hreads)⟩⟩)⟩

theorem fire (h : Pending s₀ s) (hinv : s.Inv) (ht : t ∈ s.retries.timers) :
    Pending s₀ (s.fire t) := by
  have hguard : (s.expire t).Guard := hinv.guard.expire t
  by_cases hcurrent : s.reads = [] ∧ ∃ l, s.retries.runRetries = some l ∧ l.timer = some t.id
  · obtain ⟨hreads, l, hl, htimer⟩ := hcurrent
    obtain ⟨hle, hmet | ⟨hne, -⟩ | ⟨hcount, -⟩⟩ := h
    · exact invalidateRun (s := s.expire t) ⟨hle, .inl hmet⟩ hguard t.cause
    · exact absurd hreads hne
    · -- the ladder's own timer is not dropped
      have hdrop : ¬ (s.expire t).Drops t.cause := hinv.quiet hreads l hl t ht htimer
      have hflag : (s.expire t).inFlight ≠ true := fun hflag => hguard.flag.1 hflag hreads
      rw [RunStore.fire, RunStore.invalidateRun, if_neg hdrop, if_neg hflag]
      rw [← Retries.attempts_expire s.retries t] at hcount
      exact pending_fetchRun (s := s.expire t) hle hcount t.cause
  · exact (h.expire hinv ht fun hreads l hl htimer =>
      hcurrent ⟨hreads, l, hl, htimer⟩).invalidateRun hguard t.cause

theorem step (h : Pending s₀ s) (hinv : s.Inv) (e : Event α) : Pending s₀ (s.step e) :=
  step_induction h (h.invalidateRun hinv.guard) (fun _ hmem => h.settle hinv.guard hmem)
    (fun _ ht => h.fire hinv ht) e

/-- An invalidation that is not dropped. -/
theorem of_invalidateRun (h : s₀.Guard) (hdrop : ¬ s₀.Drops cause) :
    Pending s₀ (s₀.invalidateRun cause) := by
  rw [RunStore.invalidateRun, if_neg hdrop]
  split
  · next hflag =>
    exact ⟨le_rfl, .inr (.inl ⟨h.flag.1 hflag, Option.some_ne_none _, rfl⟩)⟩
  · exact pending_fetchRun le_rfl (by omega) cause

end Pending

/-- Until an invalidation is met a read is open or the ladder has a timer, and fewer than five reads
have settled since. -/
theorem Owed.live (h : Owed s₀ s) (hrungs : s.retries.Rungs) :
    (s.reads ≠ [] ∨ s.retries.Armed) ∧ s.settled.length < s₀.settled.length + 5 := by
  rcases h with ⟨hreads, -, hcount⟩ | ⟨hcount, hopen⟩
  · exact ⟨.inl hreads, by omega⟩
  · have hattempts : s.retries.ladder.attempts ≤ 3 := by
      cases hl : s.retries.runRetries with
      | none =>
        rw [Retries.ladder_of_none hl]
        exact Nat.zero_le _
      | some l => exact Retries.ladder_of_some hl ▸ (hrungs.current l hl).2
    refine ⟨?_, by omega⟩
    rcases hopen with ⟨read, hmem, -⟩ | ⟨-, harmed⟩
    · exact .inl (List.ne_nil_of_mem hmem)
    · exact .inr harmed

end RunStore

end Marotte.Rereads
