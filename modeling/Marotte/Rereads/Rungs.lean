import Marotte.Library.Along
import Mathlib.Data.List.Count
import Mathlib.Data.Nat.Basic
import Mathlib.Logic.Function.Basic
import Mathlib.Order.Basic

/-! # The re-reads of a run

The guard, the trailing cause, the answered cause and the retry ladder behind the reads of a run,
under invalidations, settled reads and timers in any order. A timer may fire at any time.
-/
namespace Marotte.Rereads

abbrev Text := List Char

def RUN_RETRY_LIMIT : ℕ := 3

def RUN_GONE_STATUS : ℕ := 404

/-- A read the run was asked for. Reads are numbered as they are issued. -/
structure Read where
  serial : ℕ
  cause : Text
  deriving DecidableEq

/-- A ladder, with the place it has among the ladders of the run. -/
structure RunRetry where
  id : ℕ
  timer : Option ℕ
  attempts : ℕ
  deriving DecidableEq

/-- A timer that is due, and the ladder and the cause it was armed with. -/
structure Timer where
  id : ℕ
  ladder : ℕ
  cause : Text
  deriving DecidableEq

/-- A status is 0 when there was no answer. -/
inductive Reply (α : Type) where
  | state (value : α)
  | failed (status : ℕ)

inductive Outcome (α : Type) where
  | answered (value : α)
  | refused
  | gaveUp
  | retried
  deriving DecidableEq

structure Settled (α : Type) where
  read : Read
  outcome : Outcome α
  deriving DecidableEq

/-- The ladder of a run, the timers that are due, the number of timers and of ladders there have
been, and the ladders of the timers that fired. -/
structure Retries where
  runRetries : Option RunRetry
  timers : List Timer
  armed : ℕ
  ladders : ℕ
  fires : List ℕ

/-- What the store keeps of one run, its open reads, their number and what has become of the
settled ones. -/
structure RunStore (α : Type) where
  inFlight : Bool
  stale : Option Text
  answeredCause : Option Text
  cell : Option α
  retries : Retries
  reads : List Read
  issued : ℕ
  settled : List (Settled α)

inductive Event (α : Type) where
  | invalidate (cause : Text)
  | settle (serial : ℕ) (reply : Reply α)
  | fire (timer : ℕ)

/-! ## Timers -/

namespace Retries

def clearTimeout (r : Retries) (timer : Option ℕ) : Retries :=
  { r with timers := r.timers.filter fun t => some t.id ≠ timer }

def ladder (r : Retries) : RunRetry :=
  r.runRetries.getD ⟨r.ladders, none, 0⟩

def cancelRunRetry (r : Retries) : Retries :=
  { r.clearTimeout r.ladder.timer with runRetries := none }

/-- An exhausted ladder is dropped and its timer, where one is due, is not cleared. -/
def scheduleRunRetry (r : Retries) (cause : Text) : Retries :=
  if RUN_RETRY_LIMIT ≤ r.ladder.attempts then { r with runRetries := none }
  else
    let ladder := r.ladder
    let r := r.clearTimeout ladder.timer
    { r with
      timers := r.timers ++ [⟨r.armed, ladder.id, cause⟩]
      armed := r.armed + 1
      ladders := max r.ladders (ladder.id + 1)
      runRetries := some ⟨ladder.id, some r.armed, ladder.attempts + 1⟩ }

/-- A timer that fires is no longer due, and the ladder it was armed with has none. -/
def expire (r : Retries) (timer : Timer) : Retries :=
  { r.clearTimeout (some timer.id) with
    runRetries := r.runRetries.map fun l =>
      if l.id = timer.ladder then { l with timer := none } else l
    fires := r.fires ++ [timer.ladder] }

end Retries

variable {α : Type}

namespace RunStore

/-! ## Reads -/

/-- What a read does before it waits. -/
def fetchRun (s : RunStore α) (cause : Text) : RunStore α :=
  { s with
    inFlight := true
    answeredCause := if cause = [] then s.answeredCause else some cause
    reads := s.reads ++ [⟨s.issued, cause⟩]
    issued := s.issued + 1 }

/-- An invalidation the run is already read for. -/
def Drops (s : RunStore α) (cause : Text) : Prop :=
  cause ≠ [] ∧ s.answeredCause = some cause

instance (s : RunStore α) (cause : Text) : Decidable (s.Drops cause) :=
  inferInstanceAs (Decidable (_ ∧ _))

def invalidateRun (s : RunStore α) (cause : Text) : RunStore α :=
  if s.Drops cause then s
  else if s.inFlight then { s with stale := some cause }
  else s.fetchRun cause

def outcome (s : RunStore α) : Reply α → Outcome α
  | .state value => .answered value
  | .failed status =>
    if status = RUN_GONE_STATUS then .refused
    else if RUN_RETRY_LIMIT ≤ s.retries.ladder.attempts then .gaveUp
    else .retried

/-- The read is no longer in flight. -/
def close (s : RunStore α) (read : Read) (outcome : Outcome α) : RunStore α :=
  { s with
    inFlight := false
    reads := s.reads.filter fun r => r ≠ read
    settled := s.settled ++ [⟨read, outcome⟩] }

/-- A read that produced nothing claims nothing. -/
def conclude (s : RunStore α) (cause : Text) : Reply α → RunStore α
  | .state value => { s with cell := some value, retries := s.retries.cancelRunRetry }
  | .failed status =>
    { s with
      answeredCause := if cause = [] then s.answeredCause else none
      retries :=
        if status = RUN_GONE_STATUS then s.retries.cancelRunRetry
        else s.retries.scheduleRunRetry cause }

def trail (s : RunStore α) : RunStore α :=
  match s.stale with
  | none => s
  | some next => { s with stale := none }.fetchRun next

/-- What a read does once its reply is there. -/
def settle (s : RunStore α) (read : Read) (reply : Reply α) : RunStore α :=
  ((s.close read (s.outcome reply)).conclude read.cause reply).trail

def expire (s : RunStore α) (timer : Timer) : RunStore α :=
  { s with retries := s.retries.expire timer }

def fire (s : RunStore α) (timer : Timer) : RunStore α :=
  (s.expire timer).invalidateRun timer.cause

/-- Only an open read settles and only a due timer fires. -/
def step (s : RunStore α) : Event α → RunStore α
  | .invalidate cause => s.invalidateRun cause
  | .settle serial reply =>
    match s.reads.find? fun r => r.serial = serial with
    | none => s
    | some read => s.settle read reply
  | .fire timer =>
    match s.retries.timers.find? fun t => t.id = timer with
    | none => s
    | some t => s.fire t

def empty : RunStore α where
  inFlight := false
  stale := none
  answeredCause := none
  cell := none
  retries := ⟨none, [], 0, 0, []⟩
  reads := []
  issued := 0
  settled := []

end RunStore

/-! ## All runs -/

/-- The store of every run. The empty id is no run. -/
def step (w : Text → RunStore α) (e : Text × Event α) : Text → RunStore α :=
  if e.1 = [] then w else Function.update w e.1 ((w e.1).step e.2)

def run (events : List (Text × Event α)) : Text → RunStore α :=
  runFrom step (fun _ => .empty) events

/-- The events of one run. -/
def eventsOf (workflowID : Text) (events : List (Text × Event α)) : List (Event α) :=
  (events.filter fun e => e.1 = workflowID).map Prod.snd

theorem run_eq {workflowID : Text} (h : workflowID ≠ []) (events : List (Text × Event α)) :
    run events workflowID = runFrom RunStore.step .empty (eventsOf workflowID events) := by
  induction events using List.reverseRecOn with
  | nil => rfl
  | append_singleton events e ih =>
    rw [run, runFrom_concat, ← run, step, eventsOf, List.filter_append, List.map_append]
    by_cases he : e.1 = workflowID
    · subst he
      rw [if_neg h, Function.update_self, ih, List.filter_cons_of_pos (by simp)]
      exact (runFrom_concat _ _ _).symm
    · rw [List.filter_cons_of_neg (by simpa using he), List.filter_nil, List.map_nil,
        List.append_nil, ← eventsOf, ← ih]
      split
      · rfl
      · rw [Function.update_of_ne (Ne.symm he)]

end Marotte.Rereads

/-! ## The rungs of a ladder

A ladder arms three timers at most, and the timer it has is the only one of its own that is due.
-/
namespace Marotte.Rereads



variable {r : Retries} {l : RunRetry} {t : Timer} {cause : Text}

namespace Retries

/-- How many timers a ladder may have armed so far. -/
def spent (r : Retries) (ladder : ℕ) : ℕ :=
  match r.runRetries with
  | none => RUN_RETRY_LIMIT
  | some l => if l.id = ladder then l.attempts else RUN_RETRY_LIMIT

structure Rungs (r : Retries) : Prop where
  timers : ∀ t ∈ r.timers, t.id < r.armed ∧ t.ladder < r.ladders
  fires : ∀ k ∈ r.fires, k < r.ladders
  current : ∀ l, r.runRetries = some l → l.id < r.ladders ∧ l.attempts ≤ RUN_RETRY_LIMIT
  own : ∀ l, r.runRetries = some l → ∀ t ∈ r.timers, t.ladder = l.id → l.timer = some t.id
  count : ∀ k, r.fires.count k + r.timers.countP (fun t => t.ladder = k) ≤ r.spent k

/-- A timer of the ladder is due. -/
def Armed (r : Retries) : Prop :=
  ∃ l, r.runRetries = some l ∧ ∃ t ∈ r.timers, l.timer = some t.id

theorem mem_clearTimeout {timer : Option ℕ} :
    t ∈ (r.clearTimeout timer).timers ↔ t ∈ r.timers ∧ some t.id ≠ timer := by
  rw [clearTimeout, List.mem_filter, decide_eq_true_iff]

theorem countP_clearTimeout_le (r : Retries) (timer : Option ℕ) (p : Timer → Bool) :
    (r.clearTimeout timer).timers.countP p ≤ r.timers.countP p :=
  List.Sublist.countP_le (List.filter_sublist ..)

theorem ladder_of_some (h : r.runRetries = some l) : r.ladder = l := by
  rw [ladder, h, Option.getD_some]

theorem ladder_of_none (h : r.runRetries = none) : r.ladder = ⟨r.ladders, none, 0⟩ := by
  rw [ladder, h, Option.getD_none]

theorem spent_le (h : r.Rungs) (k : ℕ) : r.spent k ≤ RUN_RETRY_LIMIT := by
  rw [spent]
  split
  · exact le_rfl
  · next l hl =>
    split
    · exact (h.current l hl).2
    · exact le_rfl

namespace Rungs

/-- Timers may be cleared and the ladder dropped. -/
theorem drop (h : r.Rungs) (timer : Option ℕ) :
    ({ r.clearTimeout timer with runRetries := none } : Retries).Rungs where
  timers t ht := h.timers t (mem_clearTimeout.1 ht).1
  fires := h.fires
  current l hl := by contradiction
  own l hl := by contradiction
  count k := by
    have hle := countP_clearTimeout_le r timer fun t => t.ladder = k
    have hcount := h.count k
    have hspent := spent_le h k
    simp only [spent]
    exact (Nat.add_le_add_left hle _).trans (hcount.trans hspent)

theorem cancelRunRetry (h : r.Rungs) : r.cancelRunRetry.Rungs :=
  h.drop _

theorem exhaust (h : r.Rungs) : ({ r with runRetries := none } : Retries).Rungs where
  timers := h.timers
  fires := h.fires
  current l hl := by contradiction
  own l hl := by contradiction
  count k := (h.count k).trans (spent_le h k)

theorem ladder_id_lt (h : r.Rungs) : r.ladder.id ≤ r.ladders := by
  cases hl : r.runRetries with
  | none => exact (congrArg RunRetry.id (ladder_of_none hl)).le
  | some l => exact ladder_of_some hl ▸ (h.current l hl).1.le

/-- What the ladder has armed when it may arm another. -/
theorem count_ladder (h : r.Rungs) :
    r.fires.count r.ladder.id + r.timers.countP (fun t => t.ladder = r.ladder.id)
      ≤ r.ladder.attempts := by
  cases hl : r.runRetries with
  | none =>
    have hfires : r.fires.count r.ladders = 0 :=
      List.count_eq_zero.2 fun hmem => lt_irrefl _ (h.fires _ hmem)
    have htimers : r.timers.countP (fun t => t.ladder = r.ladders) = 0 :=
      List.countP_eq_zero.2 fun t ht => by simpa using (h.timers t ht).2.ne
    simp only [ladder_of_none hl, hfires, htimers, Nat.add_zero, le_rfl]
  | some l =>
    have hcount := h.count l.id
    simp only [spent, hl, if_true] at hcount
    rwa [ladder_of_some hl]

/-- The timers left when the ladder's own is cleared are none of the ladder's. -/
theorem ladder_ne (h : r.Rungs) (ht : t ∈ (r.clearTimeout r.ladder.timer).timers) :
    t.ladder ≠ r.ladder.id := by
  obtain ⟨hmem, hne⟩ := mem_clearTimeout.1 ht
  intro hladder
  cases hl : r.runRetries with
  | none =>
    rw [ladder_of_none hl] at hladder
    exact (h.timers t hmem).2.ne hladder
  | some l =>
    rw [ladder_of_some hl] at hladder hne
    exact hne (h.own l hl t hmem hladder).symm

theorem scheduleRunRetry (h : r.Rungs) (cause : Text) : (r.scheduleRunRetry cause).Rungs := by
  rw [Retries.scheduleRunRetry]
  split
  · exact h.exhaust
  · next hlimit =>
    have hid := h.ladder_id_lt
    constructor
    · intro t ht
      simp only [List.mem_append, List.mem_singleton] at ht ⊢
      rcases ht with ht | rfl
      · have := h.timers t (mem_clearTimeout.1 ht).1
        simp only [clearTimeout]
        omega
      · simp only [clearTimeout]
        omega
    · intro k hk
      exact (h.fires k hk).trans_le (le_max_left _ _)
    · intro l hl
      obtain rfl := Option.some.inj hl
      exact ⟨lt_of_lt_of_le (Nat.lt_succ_self _) (le_max_right _ _), Nat.lt_of_not_le hlimit⟩
    · intro l hl t ht hladder
      obtain rfl := Option.some.inj hl
      simp only [List.mem_append, List.mem_singleton] at ht
      rcases ht with ht | rfl
      · exact absurd hladder (h.ladder_ne ht)
      · rfl
    · intro k
      have hle := countP_clearTimeout_le r r.ladder.timer fun t => t.ladder = k
      have hcount := h.count k
      simp only [spent, List.countP_append, List.countP_singleton]
      by_cases hk : r.ladder.id = k
      · subst hk
        have hladder := h.count_ladder
        simp only [decide_true, if_true, clearTimeout] at hle ⊢
        omega
      · have hspent := spent_le h k
        simp only [hk, decide_false, if_false, clearTimeout, Bool.false_eq_true] at hle ⊢
        omega

/-- A timer that fires leaves one fewer due. -/
theorem countP_expire (ht : t ∈ r.timers) :
    (r.clearTimeout (some t.id)).timers.countP (fun u => u.ladder = t.ladder) + 1
      ≤ r.timers.countP (fun u => u.ladder = t.ladder) := by
  have hsplit := List.countP_eq_countP_filter_add r.timers (fun u => u.ladder = t.ladder)
    fun u => some u.id ≠ some t.id
  have hpos : 0 < (r.timers.filter fun u => !decide (some u.id ≠ some t.id)).countP
      fun u => u.ladder = t.ladder :=
    List.countP_pos_iff.2 ⟨t, List.mem_filter.2 ⟨ht, by simp⟩, by simp⟩
  simp only [clearTimeout]
  omega

theorem spent_expire (r : Retries) (t : Timer) (k : ℕ) : (r.expire t).spent k = r.spent k := by
  cases hl : r.runRetries with
  | none => simp only [spent, expire, hl, Option.map_none]
  | some l =>
    simp only [spent, expire, hl, Option.map_some]
    split <;> rfl

theorem expire (h : r.Rungs) (ht : t ∈ r.timers) : (r.expire t).Rungs where
  timers u hu := h.timers u (mem_clearTimeout.1 hu).1
  fires k hk := by
    rcases List.mem_append.1 hk with hk | hk
    · exact h.fires k hk
    · obtain rfl := List.mem_singleton.1 hk
      exact (h.timers t ht).2
  current l hl := by
    obtain ⟨l', hl', rfl⟩ := Option.map_eq_some_iff.1 hl
    have := h.current l' hl'
    split <;> exact this
  own l hl u hu hladder := by
    obtain ⟨hmem, hne⟩ := mem_clearTimeout.1 hu
    obtain ⟨l', hl', rfl⟩ := Option.map_eq_some_iff.1 hl
    by_cases heq : l'.id = t.ladder
    · rw [if_pos heq] at hladder
      have htimer := h.own l' hl' t ht heq.symm
      exact absurd ((h.own l' hl' u hmem hladder).symm.trans htimer) hne
    · rw [if_neg heq] at hladder ⊢
      exact h.own l' hl' u hmem hladder
  count k := by
    rw [spent_expire]
    have hcount := h.count k
    have hle := countP_clearTimeout_le r (some t.id) fun u => u.ladder = k
    simp only [Retries.expire, List.count_append, List.count_singleton]
    by_cases hk : t.ladder = k
    · subst hk
      have := countP_expire ht
      simp only [clearTimeout, beq_self_eq_true, if_true] at this ⊢
      omega
    · simp only [clearTimeout, beq_iff_eq, hk, if_false] at hle ⊢
      omega

end Rungs

/-- A failure that does not exhaust the ladder leaves it with a timer for the cause of the read. -/
theorem armed_scheduleRunRetry (hlimit : r.ladder.attempts < RUN_RETRY_LIMIT) (cause : Text) :
    (r.scheduleRunRetry cause).Armed := by
  rw [scheduleRunRetry, if_neg hlimit.not_ge]
  exact ⟨_, rfl, ⟨r.armed, r.ladder.id, cause⟩, List.mem_append_right _ (List.mem_singleton_self _),
    rfl⟩

theorem attempts_scheduleRunRetry (hlimit : r.ladder.attempts < RUN_RETRY_LIMIT) (cause : Text) :
    (r.scheduleRunRetry cause).ladder.attempts = r.ladder.attempts + 1 := by
  rw [scheduleRunRetry, if_neg hlimit.not_ge, ladder_of_some rfl]

theorem cause_of_scheduleRunRetry (h : r.Rungs)
    (hl : (r.scheduleRunRetry cause).runRetries = some l)
    (ht : t ∈ (r.scheduleRunRetry cause).timers) (htimer : l.timer = some t.id) :
    t.cause = cause := by
  rw [scheduleRunRetry] at hl ht
  split at hl
  · contradiction
  · next hlimit =>
    rw [if_neg hlimit] at ht
    obtain rfl := Option.some.inj hl
    simp only [List.mem_append, List.mem_singleton] at ht
    rcases ht with ht | rfl
    · have hlt := (h.timers t (mem_clearTimeout.1 ht).1).1
      exact absurd (Option.some.inj htimer).symm hlt.ne
    · rfl

theorem attempts_expire (r : Retries) (t : Timer) :
    (r.expire t).ladder.attempts = r.ladder.attempts := by
  cases hl : r.runRetries with
  | none =>
    simp only [ladder, expire, hl, Option.map_none, Option.getD_none]
  | some l =>
    simp only [ladder, expire, hl, Option.map_some, Option.getD_some]
    split <;> rfl

/-- Another timer than the ladder's leaves it armed. -/
theorem Armed.expire (harmed : r.Armed) (h : r.Rungs) (ht : t ∈ r.timers)
    (hne : ∀ l, r.runRetries = some l → l.timer ≠ some t.id) : (r.expire t).Armed := by
  obtain ⟨l, hl, u, hu, htimer⟩ := harmed
  have hladder : l.id ≠ t.ladder := fun heq => hne l hl (h.own l hl t ht heq.symm)
  refine ⟨l, ?_, u, mem_clearTimeout.2 ⟨hu, ?_⟩, htimer⟩
  · rw [Retries.expire, hl, Option.map_some, if_neg hladder]
  · rw [← htimer]
    exact hne l hl

/-- What a timer of the ladder was before another one fired. -/
theorem of_expire (hl : (r.expire t).runRetries = some l) {u : Timer}
    (hu : u ∈ (r.expire t).timers) (htimer : l.timer = some u.id) :
    r.runRetries = some l ∧ u ∈ r.timers := by
  obtain ⟨l', hl', rfl⟩ := Option.map_eq_some_iff.1 hl
  split at htimer
  · contradiction
  · next heq =>
    rw [if_neg heq]
    exact ⟨hl', (mem_clearTimeout.1 hu).1⟩

end Retries

end Marotte.Rereads
