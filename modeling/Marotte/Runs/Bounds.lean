import Mathlib.Algebra.Order.Ring.Int
import Mathlib.Logic.Function.Basic

/-! # Run leases

What the runtime holds about a run it put on the wire: the one deadline the run has, and the
slot that deadline is composed from. Times and durations count nanoseconds.
-/
namespace Marotte.Runs

abbrev Time := ℤ

def minute : Time := 60 * 10 ^ 9

/-- A run's record. A deadline of `none` is the zero time: the run is not bounded. -/
structure Lease where
  deadline : Option Time := none
  slotAt : Option Time := none
  deriving DecidableEq

def Lease.bounded (l : Lease) : Bool := l.deadline.isSome

/-- The inputs that `nextDeadline` composes. -/
structure Bounds where
  slotAt : Option Time
  backstopAt : Option Time
  idle : Time
  floor : Time

/-- The one deadline of a run. The floor outranks the window and the slot, and the backstop,
clamped last, outranks the floor. -/
def nextDeadline (now : Time) (b : Bounds) : Time :=
  let deadline := now + b.idle
  let deadline := match b.slotAt with
    | some slot => if slot < deadline then slot else deadline
    | none => deadline
  let deadline := if deadline < now + b.floor then now + b.floor else deadline
  match b.backstopAt with
  | some backstop => if backstop < deadline then backstop else deadline
  | none => deadline

/-- The leases held, by workflow id. -/
abbrev Leases := String → Option Lease

namespace Leases

/-- The leases of a file, opened by a new process: a deadline on disk describes a process that
is gone, and is parked. -/
def newStore (stored : Leases) : Leases := fun workflowID =>
  if workflowID = "" then none else (stored workflowID).map fun l => { l with deadline := none }

def get (s : Leases) (workflowID : String) : Option Lease := s workflowID

/-- A lease granted, in place of any held for the run. -/
def put (s : Leases) (workflowID : String) (l : Lease) : Leases :=
  Function.update s workflowID (some l)

def release (s : Leases) (workflowID : String) : Leases := Function.update s workflowID none

/-- Re-stamp a deadline, or park it; no lease, nothing stored. -/
def setDeadline (s : Leases) (workflowID : String) (deadline : Option Time) : Option Leases :=
  (s workflowID).map fun l => Function.update s workflowID (some { l with deadline })

end Leases

/-! ## Run bounds

The deadline that every run gets, the timer that enforces it, the claim that arbitrates every
ending, and the reasons that outlive the runs. Each definition is what one hold of a lock does.
-/

/-- How long a run may execute without observable progress. -/
def runIdleWindow : Time := 15 * minute

/-- The executing time that a run gets whatever its progress says. -/
def runBackstop : Time := 36 * 60 * minute

/-- The smallest movement a refill spends a write on. -/
def refillGranularity : Time := minute

def minRunBudget : Time := 5 * minute

def runEndOverran : String := "overran"

def runEndStalled : String := "stalled"

def runEndOrphaned : String := "orphaned"

def maxRunEndReasons : ℕ := 256

def maxCancelRetries : ℕ := 3

/-- A timer of the map; a fired or stopped one is not pending. -/
structure Timer where
  deadline : Time
  pending : Bool
  deriving DecidableEq

/-- The bounds, with the leases they are written to. `terminating` names for each claimed run
the thread that took the claim, and `unretried` the runs whose refused cancel found its
re-attempts spent since their deadline was last stamped: the source logs those. -/
structure RunBounds where
  leases : Leases := fun _ => none
  timers : String → Option Timer := fun _ => none
  terminating : String → Option ℕ := fun _ => none
  cancelRetries : String → ℕ := fun _ => 0
  armedAt : String → Option Time := fun _ => none
  executed : String → Time := fun _ => 0
  reasons : String → Option String := fun _ => none
  order : List String := []
  unretried : String → Bool := fun _ => false

namespace RunBounds

variable (s : RunBounds) (workflowID : String)

/-! ## The deadline and its timer -/

/-- The instant a stretch begun at `stretchStart` spends the backstop is fixed. -/
def runBoundsLocked (l : Lease) (stretchStart : Time) : Bounds where
  slotAt := l.slotAt
  backstopAt := some (stretchStart + (runBackstop - s.executed workflowID))
  idle := runIdleWindow
  floor := minRunBudget

/-- The two callers of the stamp: a start, and observable progress. -/
inductive Stamp where
  | arm | refill
  deriving DecidableEq

/-- The caller's policy: the earliest arm wins, and a parked run is not refilled. -/
def decide (kind : Stamp) (l : Lease) (now : Time) : RunBounds × Option Time :=
  match kind with
  | .arm =>
    if l.bounded then (s, none)
    else
      let s := { s with armedAt := Function.update s.armedAt workflowID (some now) }
      (s, some (nextDeadline now (s.runBoundsLocked workflowID l now)))
  | .refill =>
    match l.deadline with
    | none => (s, none)
    | some deadline =>
      let start := (s.armedAt workflowID).getD now
      let next := nextDeadline now (s.runBoundsLocked workflowID l start)
      if now < deadline ∧ next ≤ deadline + refillGranularity then (s, none) else (s, some next)

/-- The one timer of the current deadline, in place of any earlier one. -/
def setTimerLocked (deadline : Time) : RunBounds :=
  { s with
    timers := Function.update s.timers workflowID (some { deadline, pending := true })
    unretried := Function.update s.unretried workflowID false }

def stopTimer : RunBounds := { s with timers := Function.update s.timers workflowID none }

/-- Add the open stretch to the executing time, and close it. -/
def bankExecuted (now : Time) : RunBounds :=
  match s.armedAt workflowID with
  | none => s
  | some start =>
    { s with
      executed := Function.update s.executed workflowID (s.executed workflowID + (now - start))
      armedAt := Function.update s.armedAt workflowID none }

/-- The stretch bookkeeping of a run, dropped. -/
def clearStretch : RunBounds :=
  { s with
    armedAt := Function.update s.armedAt workflowID none
    executed := Function.update s.executed workflowID 0 }

def clearExecuted : RunBounds := s.clearStretch workflowID

def backstopSpent (now : Time) : Bool :=
  let spent := s.executed workflowID + ((s.armedAt workflowID).map (now - ·)).getD 0
  runBackstop ≤ spent

/-! ## The claim -/

def claimed : Bool := (s.terminating workflowID).isSome

/-- The claim itself: the one caller that finds it free takes it. -/
def claimLocked (thread : ℕ) : RunBounds × Bool :=
  if s.claimed workflowID then (s, false)
  else ({ s with terminating := Function.update s.terminating workflowID (some thread) }, true)

def releaseTermination : RunBounds :=
  { s with terminating := Function.update s.terminating workflowID none }

/-- One of the re-attempts of a refused cancel, while the budget lasts. -/
def claimCancelRetry : RunBounds × Bool :=
  if maxCancelRetries ≤ s.cancelRetries workflowID then
    ({ s with unretried := Function.update s.unretried workflowID true }, false)
  else
    let n := s.cancelRetries workflowID + 1
    ({ s with cancelRetries := Function.update s.cancelRetries workflowID n }, true)

def clearCancelRetries : RunBounds :=
  { s with cancelRetries := Function.update s.cancelRetries workflowID 0 }

/-! ## The reasons -/

/-- Forget a run's recorded termination, so that a re-driven run is bounded again. -/
def clearEnd : RunBounds :=
  let s := { s with
    terminating := Function.update s.terminating workflowID none
    cancelRetries := Function.update s.cancelRetries workflowID 0 }
  if s.reasons workflowID = none then s
  else { s with
    reasons := Function.update s.reasons workflowID none
    order := s.order.filter (· ≠ workflowID) }

/-- The oldest reasons go until the queue is within its cap. -/
def evict (reasons : String → Option String) : List String → (String → Option String) × List String
  | [] => (reasons, [])
  | id :: order =>
    if maxRunEndReasons < (id :: order).length then evict (Function.update reasons id none) order
    else (reasons, id :: order)

/-- Note why a run was stopped; a user's cancel has no reason and notes nothing. -/
def recordEnd (reason : String) : RunBounds :=
  if workflowID = "" ∨ reason = "" then s
  else
    let order := if s.reasons workflowID = none then s.order ++ [workflowID] else s.order
    let kept := evict (Function.update s.reasons workflowID (some reason)) order
    { s with reasons := kept.1, order := kept.2 }

end RunBounds
end Marotte.Runs
