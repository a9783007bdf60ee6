import Mathlib.Data.List.Sort
import Mathlib.Order.Basic
import Marotte.Library.Keyed
import Marotte.Schedule.Spec

/-! # The store of schedules and its runner

A sweep asks each enabled schedule for the slot after its anchor. A slot that is due and recent is
fired, one that was missed is skipped, and both move the anchor.
-/
namespace Marotte.Schedule

def missGrace : ℤ := 3 * 60 * second

/-- One scheduled workflow. The anchor is what its next run is measured from. -/
structure Entry where
  anchor : ℤ := zeroTime
  lastRunAt : ℤ := zeroTime
  id : String
  source : String
  name : String := ""
  lastResult : String := ""
  spec : Spec
  enabled : Bool
  deriving DecidableEq

/-- What the launcher is asked for: the due slot, when it was asked, and the slot that bounds the
run. -/
structure Fire where
  id : String
  source : String
  due : ℤ
  firedAt : ℤ
  slotAt : ℤ
  deriving DecidableEq

/-- Why a launch failed, for a source, a schedule's id and a bound. -/
abbrev Launcher := String → String → ℤ → Option String

/-- The store, the clock, and every launch so far. -/
structure State where
  clock : ℤ := zeroTime
  entries : List Entry := []
  fires : List Fire := []

namespace State
variable (s : State)

def find (id : String) : Option Entry := Keyed.find Entry.id s.entries id

/-- Every schedule, by its id. -/
def list : List Entry := s.entries.insertionSort fun a b => a.id ≤ b.id

/-- Inserts or replaces a schedule, that keeps its history and its anchor. -/
def put (e : Entry) : Except String State :=
  if e.id = "" then .error "schedule id is required"
  else if e.source = "" then .error "schedule source is required"
  else do
    e.spec.validate
    let e := match s.find e.id with
      | some prev =>
        { e with
          lastRunAt := prev.lastRunAt, lastResult := prev.lastResult
          anchor := if e.anchor = zeroTime then prev.anchor else e.anchor }
      | none => e
    let e := if e.anchor = zeroTime then { e with anchor := s.clock } else e
    .ok { s with entries := Keyed.set Entry.id s.entries e }

def delete (id : String) : State := { s with entries := Keyed.erase Entry.id s.entries id }

/-- One stored schedule is rewritten; an id without one is left alone. -/
def rewrite (id : String) (f : Entry → Entry) : State :=
  match s.find id with
  | some e => { s with entries := Keyed.set Entry.id s.entries (f e) }
  | none => s

/-- The anchor is set to the due time, so that a schedule does not drift. -/
def recordFire (id : String) (due : ℤ) (result : String) : State :=
  s.rewrite id fun e => { e with anchor := due, lastRunAt := due, lastResult := result }

def skipTo (id : String) (now : ℤ) : State := s.rewrite id fun e => { e with anchor := now }

def recordOutcome (id result : String) : State :=
  s.rewrite id fun e => { e with lastResult := result }

variable (loc : Location) (launch : Launcher)

/-- The bound of a run: the next slot, or none. -/
def slotAt (spec : Spec) (due : ℤ) : ℤ :=
  match nextRun loc spec due with
  | .ok t => t
  | .error _ => zeroTime

/-- The anchor moves whether the launch succeeded or not. -/
def fire (e : Entry) (due : ℤ) : State :=
  let bound := slotAt loc e.spec due
  let result := match launch e.source e.id bound with
    | none => "started"
    | some err => "failed: " ++ err
  let launched : Fire :=
    { id := e.id, source := e.source, due, firedAt := s.clock, slotAt := bound }
  ({ s with fires := s.fires ++ [launched] } : State).recordFire e.id due result

def sweepEntry (e : Entry) : State :=
  if e.enabled = false then s
  else
    match nextRunFrom loc e.spec e.anchor zeroTime with
    | .error _ => s
    | .ok due =>
      if s.clock < due then s
      else if missGrace < s.clock - due then s.skipTo e.id s.clock
      else s.fire loc launch e due

/-- Over the list as it was when the sweep began. -/
def sweep : State := s.list.foldl (fun s e => s.sweepEntry loc launch e) s

end State

/-- A client's edit, of the recipe that its source names. -/
structure PutRequest where
  id : String := ""
  source : String
  name : String := ""
  spec : Spec
  enabled : Bool
  deriving DecidableEq

inductive Action where
  | sweep (launch : Launcher)
  | put (req : PutRequest)
  | delete (id : String)
  | recordOutcome (id result : String)

/-- An action, and the time since the one before it. -/
structure Event where
  elapsed : ℕ
  action : Action

namespace State

/-- One schedule a recipe, where the request names none. A refused edit changes nothing. -/
def handleSchedulePut (s : State) (req : PutRequest) : State :=
  let id := if req.id = "" then req.source else req.id
  let entry : Entry :=
    { id, source := req.source, name := req.name, spec := req.spec, enabled := req.enabled }
  match s.put entry with
  | .ok s => s
  | .error _ => s

def act (loc : Location) (s : State) : Action → State
  | .sweep launch => s.sweep loc launch
  | .put req => s.handleSchedulePut req
  | .delete id => s.delete id
  | .recordOutcome id result => s.recordOutcome id result

def step (loc : Location) (s : State) (e : Event) : State :=
  act loc { s with clock := s.clock + e.elapsed } e.action

end State
end Marotte.Schedule
