import Mathlib.Data.Int.Notation
import Mathlib.Data.List.Basic
import Mathlib.Logic.Function.Basic
import Marotte.Turns.Source

/-! # One chat's turn registry

A chat has its own open turn, that frames fold into, and the prompt's turn that is owed a bracket.
Each operation is one hold of the mutex. A finalize claims its turn, runs its effects with no lock
and then finishes it; the state `finalizing` is what every other door waits on meanwhile.
-/
namespace Marotte.Turns

inductive TurnState where
  | idle
  | opened
  | finalizing
  deriving DecidableEq

/-- One turn's record. `closes` counts how often its done channel was closed, and `claims` how
often a closer won it. -/
structure Turn where
  source : TurnOpenSource := .prompt
  acked : Bool := false
  finalizing : Bool := false
  holds : ℤ := 0
  claims : ℕ := 0
  closes : ℕ := 0
  deriving DecidableEq

/-- A chat's turns by their open sequence; a record above `nextSeq` is of no turn. The closers are
the turns whose finalize runs its effects: claimed by it, and not finished. -/
structure ChatTurns where
  own : Option ℕ := none
  pending : Option ℕ := none
  turns : ℕ → Turn := fun _ => {}
  retained : List ℕ := []
  nextSeq : ℕ := 0
  reserved : Option TurnOpenSource := none
  state : TurnState := .idle
  closers : List ℕ := []

/-- What a door that opens turns answers: it waits, the slot is held, the log refused, a turn
opened, or the open turn was joined. -/
inductive DoorAnswer where
  | parked
  | held
  | failed
  | opened (t : ℕ)
  | joined (t : ℕ)
  deriving DecidableEq

namespace ChatTurns

variable (s : ChatTurns)

def setTurn (t : ℕ) (f : Turn → Turn) : ChatTurns :=
  { s with turns := Function.update s.turns t (f (s.turns t)) }

def reserve (source : TurnOpenSource) : ChatTurns :=
  match s.reserved with
  | some _ => s
  | none => { s with reserved := some source }

def releaseReservation : ChatTurns := { s with reserved := none }

/-- A prompt-class turn goes to pending, and to own when own is free; every other source goes to
own. -/
def openLocked (source : TurnOpenSource) : ChatTurns :=
  let t := s.nextSeq + 1
  let s := { s with nextSeq := t, turns := Function.update s.turns t { source }, state := .opened }
  if source.acknowledgeable then
    { s with pending := some t, own := if s.own.isNone then some t else s.own }
  else { s with own := some t }

def slotFreeLocked (source : TurnOpenSource) : Bool :=
  match source with
  | .localShell => s.own.isNone
  | .prompt | .emptyRetry => s.pending.isNone
  | .wireTurnStart | .workflowStep => s.own.isNone

/-- `appended` is whether the log took the turn's opening. -/
def openTurn (source : TurnOpenSource) (appended : Bool) : ChatTurns × DoorAnswer :=
  if s.state = .finalizing then (s, .parked)
  else if s.slotFreeLocked source = false then (s, .held)
  else if appended = false then (s, .failed)
  else
    ((s.openLocked source).setTurn (s.nextSeq + 1) fun t => { t with holds := t.holds + 1 },
      .opened (s.nextSeq + 1))

/-- A frame of the chat's own session that found no open turn. -/
def openWireTurn (appended : Bool) : ChatTurns × DoorAnswer :=
  if s.state = .finalizing then (s, .parked)
  else
    match s.own with
    | some o => if (s.turns o).finalizing then (s, .held) else (s, .joined o)
    | none =>
      if appended = false then (s, .failed)
      else
        ((s.openLocked .wireTurnStart).setTurn (s.nextSeq + 1) fun t => { t with acked := true },
          .opened (s.nextSeq + 1))

/-- An open turn by its id, own or pending. -/
def live (id : ℕ) : Bool := s.own = some id ∨ s.pending = some id

/-- The turn becomes own when own is still free; no wait. -/
def startTurn (id : ℕ) : ChatTurns :=
  if s.live id = false ∨ (s.turns id).finalizing then s
  else if s.own.isNone then { s with own := some id, state := .opened }
  else s

/-- What a bracket finds: whether the pending turn took it, or the own turn whose end was lost. -/
structure Bound where
  bound : Bool := false
  lost : Option ℕ := none
  deriving DecidableEq

/-- The pending turn leaves its slot and becomes own. -/
def bindPending : ChatTurns × Bound :=
  if s.state = .finalizing then (s, {})
  else
    match s.pending.filter fun p => ¬ ((s.turns p).acked ∨ (s.turns p).finalizing) with
    | none => (s, { lost := s.own.filter fun o => (s.turns o).acked })
    | some p =>
      if s.own ≠ none ∧ s.own ≠ some p then (s, { lost := s.own })
      else
        ({ s.setTurn p (fun t => { t with acked := true }) with
            pending := none, own := some p, state := .opened },
          { bound := true })

/-- The provisionally bound prompt turn. -/
def revisable : Option ℕ :=
  s.own.filter fun pre => (s.turns pre).acked ∧ (s.turns pre).source.acknowledgeable ∧
    ¬ (s.turns pre).finalizing

/-- The agent's turn opens as own, and the prompt's turn drops back to pending. -/
def reviseTurnBinding (appended : Bool) : ChatTurns × Option ℕ :=
  if s.state = .finalizing then (s, none)
  else
    match s.revisable with
    | none => (s, none)
    | some pre =>
      if appended = false then (s, none)
      else
        let agent := s.nextSeq + 1
        ({ ((s.openLocked .wireTurnStart).setTurn agent fun t => { t with acked := true }).setTurn pre
              fun t => { t with acked := false } with
            pending := some pre },
          some agent)

/-- The own turn, unless a closer has it. -/
def foldTarget : Option ℕ := s.own.filter fun o => ¬ (s.turns o).finalizing

/-- The claim of an unclaimed live turn: an own turn's claim is the exclusion. -/
def claimLocked (t : ℕ) : ChatTurns :=
  { s.setTurn t (fun t => { t with finalizing := true, claims := t.claims + 1 }) with
    closers := t :: s.closers
    state := if s.own = some t then .finalizing else s.state }

/-- First wins; whether the claim was won. -/
def claimTurn (id : ℕ) : ChatTurns × Bool :=
  if s.state = .finalizing ∨ s.live id = false ∨ (s.turns id).finalizing then (s, false)
  else (s.claimLocked id, true)

def claimOwn : ChatTurns × Option ℕ :=
  if s.state = .finalizing then (s, none)
  else
    match s.foldTarget with
    | none => (s, none)
    | some o => (s.claimLocked o, some o)

/-- The claimed turn's result is published and its slots are cleared; the state follows from the
slots that are left. -/
def finish (t : ℕ) : ChatTurns :=
  let own := if s.own = some t then none else s.own
  let pending := if s.pending = some t then none else s.pending
  { s.setTurn t (fun t => { t with closes := t.closes + 1 }) with
    own, pending
    retained := if 0 < (s.turns t).holds then t :: s.retained else s.retained
    closers := s.closers.erase t
    state := if own.isSome ∨ pending.isSome then .opened else .idle }

/-- One completion handle is given up. -/
def release (id : ℕ) : ChatTurns :=
  if s.live id ∨ id ∈ s.retained then
    { s.setTurn id (fun t => { t with holds := t.holds - 1 }) with
      retained := if (s.turns id).holds - 1 ≤ 0 then s.retained.erase id else s.retained }
  else s

end ChatTurns

/-- The locked steps of the registry, from any number of goroutines. -/
inductive TurnEvent where
  | reserve (source : TurnOpenSource)
  | releaseReservation
  | openTurn (source : TurnOpenSource) (appended : Bool)
  | openWireTurn (appended : Bool)
  | startTurn (id : ℕ)
  | bindPending
  | reviseTurnBinding (appended : Bool)
  | claimOwn
  | claimTurn (id : ℕ)
  | finish (t : ℕ)
  | release (id : ℕ)

namespace ChatTurns

/-- A finish is the end of a finalize that holds its turn's claim. -/
def step (s : ChatTurns) : TurnEvent → ChatTurns
  | .reserve source => s.reserve source
  | .releaseReservation => s.releaseReservation
  | .openTurn source appended => (s.openTurn source appended).1
  | .openWireTurn appended => (s.openWireTurn appended).1
  | .startTurn id => s.startTurn id
  | .bindPending => s.bindPending.1
  | .reviseTurnBinding appended => (s.reviseTurnBinding appended).1
  | .claimOwn => s.claimOwn.1
  | .claimTurn id => (s.claimTurn id).1
  | .finish t => if t ∈ s.closers then s.finish t else s
  | .release id => s.release id

end ChatTurns
end Marotte.Turns
