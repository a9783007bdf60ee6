import Marotte.Runs.Bounds

/-! # Interleaved operations on the bounds

Every operation is a program of steps, one for each hold of a lock and one for each answer
from outside. Any thread may take the next step, so that an operation can be preempted between
its write to the leases and its update of the timers or the claims.
-/
namespace Marotte.Runs

open RunBounds (Stamp)

/-- One step of an operation on a run. A stamp holds the bounds' lock over its three steps,
and so does the claim of an expired deadline over its two. -/
inductive Instr where
  | stamp (kind : Stamp)
  | stampWrite (deadline : Time) (own : Bool)
  | stampTimer (deadline : Time) (own : Bool)
  | disarm
  | bankExecuted
  | parkDeadline
  | stopTimer
  | releaseLease
  | releaseTermination
  | clearCancelRetries
  | clearExecuted
  | clearEnd
  | grantIfMissing
  | grant (slotAt : Option Time)
  | invoke
  | claim (reason : String)
  | cancelRPC (reason : String)
  | recordEnd (reason : String)
  | releaseIfOver
  | retryTermination (reason : String)
  | retryBounded (reason : String)
  | expired (armedFor : Time)
  | expiredSpent (armedFor : Time) (held slotRanOut : Bool)
  | expiredWorking (armedFor : Time) (reason : String) (asks : Bool)
  | expiredRefill (armedFor : Time) (reason : String)
  | expiredRead (armedFor : Time) (reason : String)
  | expiredClaim (reason : String)
  | claimOrphan
  | restartPaused
  | orphanRPC
  deriving DecidableEq

/-- Whether a step runs inside the bounds' lock. -/
def Instr.locks : Instr → Bool
  | .disarm | .parkDeadline | .releaseLease | .grantIfMissing | .grant _ | .invoke => false
  | .cancelRPC _ | .releaseIfOver | .retryBounded _ | .expired _ | .expiredWorking .. => false
  | .restartPaused | .orphanRPC => false
  | _ => true

/-- A running operation. `holder` is the reason it took the run's claim with, while it has not
handed the claim back; `landed` says that its cancel was accepted. -/
structure Thread where
  workflowID : String
  program : List Instr
  holder : Option String := none
  landed : Bool := false
  deriving DecidableEq

/-- The bounds, the clock, the scheduled re-attempts and the running operations. `mu` is the
thread inside the bounds' lock between two of its steps, and `cancelled` the thread of a run's
last user cancel that landed. -/
structure Host where
  bounds : RunBounds := {}
  now : Time := 0
  mu : Option ℕ := none
  retries : List (String × String) := []
  threads : ℕ → Option Thread := fun _ => none
  next : ℕ := 0
  cancelled : String → Option ℕ := fun _ => none

/-! ## The programs -/

def disarmDeadline : List Instr := [.disarm]

/-- The lease leads, so that no stamp can follow the timer's stop. -/
def forgetBounds : List Instr :=
  [.releaseLease, .stopTimer, .releaseTermination, .clearCancelRetries, .clearExecuted]

/-- The claim winner's part: nothing is touched until the cancel lands. -/
def finishTermination (reason : String) : List Instr := [.cancelRPC reason]

def rearmRetried : List Instr := [.clearEnd, .disarm, .grantIfMissing, .stamp .arm]

/-- What is asked of the bounds from outside. -/
inductive Operation where
  | launch (slotAt : Option Time)
  | start | arm | progress | nodeProgress | paused | cancel | complete | delete | rearm
  | sweepOrphan
  deriving DecidableEq

def Operation.program : Operation → List Instr
  | .launch slotAt => [.grant slotAt, .invoke]
  | .start => [.grantIfMissing, .stamp .arm]
  | .arm => [.stamp .arm]
  | .progress => [.stamp .refill]
  | .nodeProgress => [.clearCancelRetries, .stamp .refill]
  | .paused => disarmDeadline
  | .cancel => [.claim ""]
  | .complete => forgetBounds
  | .delete => forgetBounds ++ [.clearEnd]
  | .rearm => rearmRetried
  | .sweepOrphan => [.claimOrphan]

/-! ## One step of a thread -/

/-- What a step leaves: the bounds, the lock, the re-attempts, and its thread's own part. -/
structure Outcome where
  bounds : RunBounds
  program : List Instr
  mu : Option ℕ
  retries : List (String × String)
  holder : Option String
  landed : Bool

namespace Host

variable (s : Host)

/-- Nothing but the program moves. -/
def proceed (thread : Thread) (program : List Instr) : Outcome where
  bounds := s.bounds
  program := program
  mu := s.mu
  retries := s.retries
  holder := thread.holder
  landed := thread.landed

def update (thread : Thread) (bounds : RunBounds) (program : List Instr) : Outcome :=
  { s.proceed thread program with bounds }

def updateLeases (thread : Thread) (leases : Leases) (program : List Instr) : Outcome :=
  s.update thread { s.bounds with leases } program

/-- The stamp's read and decision; a decision to write keeps the lock. -/
def stampOutcome (t : ℕ) (thread : Thread) (kind : Stamp) (own : Bool) (skip rest : List Instr) :
    Outcome :=
  match s.bounds.leases.get thread.workflowID with
  | none => s.proceed thread skip
  | some l =>
    match s.bounds.decide thread.workflowID kind l s.now with
    | (b, none) => s.update thread b skip
    | (b, some deadline) =>
      { s.update thread b (.stampWrite deadline own :: rest) with mu := some t }

/-- The claim, and what its winner does. -/
def claimOutcome (t : ℕ) (thread : Thread) (reason : String) (won rest : List Instr) : Outcome :=
  if s.bounds.claimed thread.workflowID then s.proceed thread rest
  else
    { s.update thread (s.bounds.claimLocked thread.workflowID t).1 (won ++ rest) with
      holder := some reason }

/-- One step of a thread; `answer` is what the outside answers where the step asks it. -/
def outcome (t : ℕ) (thread : Thread) (answer : Bool) (rest : List Instr) : Instr → Outcome
  | .stamp kind => s.stampOutcome t thread kind false rest rest
  | .stampWrite deadline own =>
    match s.bounds.leases.setDeadline thread.workflowID (some deadline) with
    | some leases => s.updateLeases thread leases (.stampTimer deadline own :: rest)
    | none =>
      -- the lease went away between the read and the write
      { s.update thread (s.bounds.clearStretch thread.workflowID) rest with mu := none }
  | .stampTimer deadline own =>
    { s.update thread (s.bounds.setTimerLocked thread.workflowID deadline)
        (if own then [] else rest) with mu := none }
  | .disarm =>
    if (s.bounds.leases.get thread.workflowID).any Lease.bounded then
      s.proceed thread (.bankExecuted :: .parkDeadline :: .stopTimer :: rest)
    else s.proceed thread (.stopTimer :: rest)
  | .bankExecuted => s.update thread (s.bounds.bankExecuted thread.workflowID s.now) rest
  | .parkDeadline =>
    s.updateLeases thread
      ((s.bounds.leases.setDeadline thread.workflowID none).getD s.bounds.leases) rest
  | .stopTimer => s.update thread (s.bounds.stopTimer thread.workflowID) rest
  | .releaseLease => s.updateLeases thread (s.bounds.leases.release thread.workflowID) rest
  | .releaseTermination =>
    { s.update thread (s.bounds.releaseTermination thread.workflowID) rest with holder := none }
  | .clearCancelRetries => s.update thread (s.bounds.clearCancelRetries thread.workflowID) rest
  | .clearExecuted => s.update thread (s.bounds.clearExecuted thread.workflowID) rest
  | .clearEnd => s.update thread (s.bounds.clearEnd thread.workflowID) rest
  | .grantIfMissing =>
    s.proceed thread
      (if (s.bounds.leases.get thread.workflowID).isSome then rest else .grant none :: rest)
  | .grant slotAt =>
    s.updateLeases thread (s.bounds.leases.put thread.workflowID { slotAt }) rest
  | .invoke => s.proceed thread ((if answer then .stamp .arm else .releaseLease) :: rest)
  | .claim reason => s.claimOutcome t thread reason (finishTermination reason) rest
  | .cancelRPC reason =>
    if answer then
      { s.proceed thread
          (.disarm :: .recordEnd reason :: .clearCancelRetries :: .releaseIfOver :: rest) with
        landed := true }
    else s.proceed thread (.releaseTermination :: .retryTermination reason :: rest)
  | .recordEnd reason => s.update thread (s.bounds.recordEnd thread.workflowID reason) rest
  | .releaseIfOver =>
    s.proceed thread
      (if (s.bounds.leases.get thread.workflowID).isSome ∧ answer then .releaseLease :: rest
        else rest)
  | .retryTermination reason =>
    let claim := s.bounds.claimCancelRetry thread.workflowID
    { s.update thread claim.1 rest with
      retries := if claim.2 then (thread.workflowID, reason) :: s.retries else s.retries }
  | .retryBounded reason =>
    s.proceed thread
      (if (s.bounds.leases.get thread.workflowID).any Lease.bounded then .claim reason :: rest
        else rest)
  | .expired armedFor =>
    let l := s.bounds.leases.get thread.workflowID
    let slotRanOut := (l.bind Lease.slotAt).any (· ≤ armedFor)
    s.proceed thread (.expiredSpent armedFor l.isSome slotRanOut :: rest)
  | .expiredSpent armedFor held slotRanOut =>
    let spent := s.bounds.backstopSpent thread.workflowID s.now
    let reason := if slotRanOut ∨ spent then runEndOverran else runEndStalled
    s.proceed thread (.expiredWorking armedFor reason (held && !slotRanOut && !spent) :: rest)
  | .expiredWorking armedFor reason asks =>
    s.proceed thread
      ((if asks ∧ answer then .expiredRefill armedFor reason else .expiredRead armedFor reason) ::
        rest)
  | .expiredRefill armedFor reason =>
    -- a refill that stamps returns; one that does not goes on to the claim
    s.stampOutcome t thread .refill true (.expiredRead armedFor reason :: rest)
      (.expiredRead armedFor reason :: rest)
  | .expiredRead armedFor reason =>
    if (s.bounds.leases.get thread.workflowID).any (·.deadline = some armedFor) then
      { s.proceed thread (.expiredClaim reason :: rest) with mu := some t }
    else s.proceed thread rest
  | .expiredClaim reason =>
    { s.claimOutcome t thread reason (finishTermination reason) rest with mu := none }
  | .claimOrphan => s.claimOutcome t thread runEndOrphaned [.restartPaused] rest
  | .restartPaused =>
    s.proceed thread (if answer then .disarm :: .orphanRPC :: rest else .releaseTermination :: rest)
  | .orphanRPC =>
    if answer then
      { s.proceed thread (.recordEnd runEndOrphaned :: .releaseLease :: rest) with landed := true }
    else s.proceed thread (.releaseTermination :: rest)

/-- A thread after a step, or nothing when its operation is over. -/
def Outcome.thread (o : Outcome) (workflowID : String) : Option Thread :=
  if o.program = [] then none
  else some { workflowID, program := o.program, holder := o.holder, landed := o.landed }

/-- A user's cancel that lands is noted by its thread. -/
def noteCancelled (t : ℕ) (thread : Thread) (instr : Instr) (answer : Bool) :
    String → Option ℕ :=
  if instr = .cancelRPC "" ∧ answer then Function.update s.cancelled thread.workflowID (some t)
  else s.cancelled

def commit (t : ℕ) (thread : Thread) (instr : Instr) (answer : Bool) (o : Outcome) : Host :=
  { s with
    bounds := o.bounds
    mu := o.mu
    retries := o.retries
    threads := Function.update s.threads t (Outcome.thread o thread.workflowID)
    cancelled := s.noteCancelled t thread instr answer }

/-- A step inside the bounds' lock waits while another thread holds it. -/
def exec (t : ℕ) (thread : Thread) (answer : Bool) (instr : Instr) (rest : List Instr) :
    Option Host :=
  if instr.locks ∧ s.mu ≠ none ∧ s.mu ≠ some t then none
  else some (s.commit t thread instr answer (s.outcome t thread answer rest instr))

end Host

/-! ## Events and runs -/

/-- What happens next: the clock moves, an operation or a callback begins, or a thread steps. -/
inductive Event where
  | tick (elapsed : ℕ)
  | spawn (workflowID : String) (op : Operation)
  | fires (workflowID : String)
  | retryFires (workflowID reason : String)
  | step (t : ℕ) (answer : Bool)
  deriving DecidableEq

namespace Host

/-- A new thread, at the next number. -/
def spawn (s : Host) (workflowID : String) (program : List Instr) : Host :=
  { s with
    threads := Function.update s.threads s.next (some { workflowID, program })
    next := s.next + 1 }

/-- A fired timer stays in the map and is no longer pending. -/
def spendTimer (s : Host) (workflowID : String) (timer : Timer) : Host :=
  { s with bounds := { s.bounds with
      timers := Function.update s.bounds.timers workflowID (some { timer with pending := false }) } }

def step (s : Host) : Event → Option Host
  | .tick elapsed => some { s with now := s.now + elapsed }
  | .spawn id op => if id = "" then none else some (s.spawn id op.program)
  | .fires id =>
    match s.bounds.timers id with
    | some timer =>
      if timer.pending ∧ timer.deadline ≤ s.now then
        some ((s.spendTimer id timer).spawn id [.expired timer.deadline])
      else none
    | none => none
  | .retryFires id reason =>
    if (id, reason) ∈ s.retries then
      some ({ s with retries := s.retries.erase (id, reason) }.spawn id [.retryBounded reason])
    else none
  | .step t answer =>
    match s.threads t with
    | some { program := instr :: rest, workflowID, holder, landed } =>
      s.exec t { program := instr :: rest, workflowID, holder, landed } answer instr rest
    | _ => none

def run (s : Host) : List Event → Option Host
  | [] => some s
  | e :: events => (s.step e).bind fun s => s.run events

theorem run_append (s : Host) (events events' : List Event) :
    s.run (events ++ events') = (s.run events).bind fun s => s.run events' := by
  induction events generalizing s with
  | nil => rfl
  | cons e events ih =>
    simp only [List.cons_append, run, ih]
    cases s.step e <;> rfl

theorem run_snoc {s s' : Host} {events : List Event} {e : Event} :
    s.run (events ++ [e]) = some s' ↔ ∃ s₁, s.run events = some s₁ ∧ s₁.step e = some s' := by
  rw [run_append, Option.bind_eq_some_iff]
  constructor
  · rintro ⟨s₁, h₁, h⟩
    exact ⟨s₁, h₁, by simpa [run] using h⟩
  · rintro ⟨s₁, h₁, h⟩
    exact ⟨s₁, h₁, by simpa [run] using h⟩

end Host

/-- The process as it starts, over the leases of its file: no deadline, no operation. -/
def boot (stored : Leases) : Host := { bounds := { leases := Leases.newStore stored } }

end Marotte.Runs
