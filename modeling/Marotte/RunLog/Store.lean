import Marotte.Library.Along
import Marotte.Transcript.Pages

/-! # The browser's log of a run

A run's turns as the browser holds them. Each turn has its marker for what the stream left
incomplete and its range read in flight; a frame that does not fit marks its turn and asks past what
is held, and an answer is seated by the operations that the frames use.
-/
namespace Marotte.Transcript.RunLog

/-- What a range read is answered with, and behind how many of the server's actions it was taken;
no reply is a read that failed. -/
structure RangeAnswer where
  taken : ℕ
  reply : Option (List Entry × List OpenEntry)

/-- A range read in flight: past which seq it asks, and what was held as it was issued. -/
structure RangeRead where
  afterSeq : Option ℕ
  before : Option ℕ
  answer : Option RangeAnswer := none

/-- One turn at the browser: what is held of it, its hole marker, its read in flight. -/
structure RunTurn where
  state : Option TurnState := none
  hole : Bool := false
  inFlight : Option RangeRead := none

namespace RunTurn

variable (t : RunTurn)

def heldSeq : Option ℕ :=
  t.state.bind fun st => if st.entries = [] then none else some (st.entries.length - 1)

/-- One read for each turn at a time. -/
def requestRange (afterSeq : Option ℕ) : RunTurn :=
  if t.inFlight.isSome then t else { t with inFlight := some { afterSeq, before := t.heldSeq } }

def markRunHole : RunTurn := { t with hole := true }.requestRange t.heldSeq

def clearRunHole : RunTurn := { t with hole := false }

def openRunTurn (e : Entry) : RunTurn :=
  if t.state.isSome then t else { t with state := some { entries := [e] } }

/-- A sealed entry at the position its seq claims: the next one, a redelivery, or a hole. -/
def appendRunEntry (e : Entry) : RunTurn :=
  match t.state with
  | none => t.markRunHole
  | some st =>
    if e.seq ≠ st.entries.length then
      if st.entries[e.seq]?.map Entry.id = some e.id then t else t.markRunHole
    else { t with state := some (st.push e) }

def openRunEntry (o : OpenEntry) : RunTurn :=
  match t.state with
  | none => t.markRunHole
  | some st => { t with state := some (st.setOpen o) }

/-- An answer's open tails in place of the held ones. -/
def adoptRunOpenEntries (turn : String) (tails : List OpenEntry) : RunTurn :=
  { t with state := t.state.map (·.seatTails turn tails) }

def applyRunDelta (id lane : String) (n : ℕ) (delta : String) : RunTurn :=
  match t.state with
  | none => t.markRunHole
  | some st =>
    match st.openIn lane with
    | some o =>
      if o.id = id ∧ n = o.n + 1 then
        { t with state := some (st.setOpen { o with text := o.text ++ delta, n }) }
      else t.markRunHole
    | none => t.markRunHole

def sealRunEntry (turn id lane : String) (seq : ℕ) (ts : ℤ) (n : ℕ) : RunTurn :=
  match t.state with
  | none => t.markRunHole
  | some st =>
    match st.openIn lane with
    | some o =>
      if o.id = id ∧ n = o.n then
        { t with state := some { st with
            openEntries := Keyed.erase OpenEntry.lane st.openEntries lane } }.appendRunEntry
          { id := o.id, turn, lane, payload := .say o.kind o.text, seq, ts }
      else t.markRunHole
    | none => t.markRunHole

/-- The six frames' handlers. -/
def receive : Frame → RunTurn
  | .turnOpened e => t.openRunTurn e
  | .entryOpened o => t.openRunEntry o
  | .entryDelta _ id lane n delta => t.applyRunDelta id lane n delta
  | .entrySealed turn id lane seq ts n => t.sealRunEntry turn id lane seq ts n
  | .entryAppended e => t.appendRunEntry e

/-! ## Answers -/

def seat (turn : String) (t : RunTurn) (e : Entry) : RunTurn :=
  if e.turn ≠ turn then t
  else if e.kind = .turnOpen then t.openRunTurn e
  else t.appendRunEntry e

/-- The newest seq of an answer's entries. -/
def wanted (turn : String) (entries : List Entry) : Option ℕ :=
  ((entries.filter (·.turn = turn)).map Entry.seq).max?

/-- The marker goes once the newest seq held has reached the answer's. -/
def adopt (turn : String) (before : Option ℕ) (entries : List Entry) (tails : List OpenEntry) :
    RunTurn :=
  let t := (entries.foldl (seat turn) t).adoptRunOpenEntries turn tails
  match t.heldSeq with
  | none => t
  | some held =>
    if (wanted turn entries).any (held < ·) then
      -- asked again only where the answer fitted anything
      if before.all (· < held) then t.requestRange (some held) else t
    else t.clearRunHole

/-- The read's answer arrives, once there is one. -/
def rangeArrives (turn : String) : RunTurn :=
  match t.inFlight with
  | none => t
  | some read =>
    match read.answer with
    | none => t
    | some answer =>
      match answer.reply with
      | none => { t with inFlight := none }
      | some (entries, tails) => { t with inFlight := none }.adopt turn read.before entries tails

end RunTurn

/-! ## A run's log and one browser -/

def frameTurn : Frame → String
  | .turnOpened e | .entryAppended e => e.turn
  | .entryOpened o => o.turn
  | .entryDelta turn _ _ _ _ | .entrySealed turn _ _ _ _ _ => turn

/-- A frame that marks its turn. -/
def RunTurn.refuses (t : RunTurn) (f : Frame) : Bool := ({ t with hole := false }.receive f).hole

/-- The run's log with its turns at the browser; the frames that were delivered or lost end at
`cursor`. Two fields are kept for the statements: the frames that were lost, and those that were
refused as they were delivered. -/
structure RunLogState where
  actions : List Action := []
  turns : String → RunTurn := fun _ => {}
  cursor : ℕ := 0
  lost : List ℕ := []
  refused : List ℕ := []

inductive RunLogEvent where
  | server (op : ServerOp)
  | delivers
  | loses
  | redelivers (i : ℕ)
  /-- A range read that no hole asked for. -/
  | asks (turn : String)
  | answers (turn : String)
  | fails (turn : String)
  | arrives (turn : String)

namespace RunLogState

variable (s : RunLogState)

def log : Log := Log.after s.actions

def setTurn (turn : String) (t : RunTurn) : RunLogState :=
  { s with turns := Function.update s.turns turn t }

/-- What the server does to a run's log, which takes no revert. -/
def perform : ServerOp → List Action
  | .revert .. => []
  | op => s.log.perform op

def frame (i : ℕ) : Option Frame :=
  match s.actions[i]? with
  | some (.announced f) => some f
  | _ => none

def receive (i : ℕ) (f : Frame) : RunLogState :=
  { s.setTurn (frameTurn f) ((s.turns (frameTurn f)).receive f) with
    refused := if (s.turns (frameTurn f)).refuses f then i :: s.refused else s.refused }

/-- A read is answered once. -/
def answer (turn : String) (reply : Option ℕ → Option (List Entry × List OpenEntry)) : RunTurn :=
  let taken := s.actions.length
  { s.turns turn with inFlight := (s.turns turn).inFlight.map fun read =>
      { read with answer := read.answer.or (some { taken, reply := reply read.afterSeq }) } }

def step (s : RunLogState) : RunLogEvent → RunLogState
  | .server op => { s with actions := s.actions ++ s.perform op }
  | .delivers =>
    match s.frame s.cursor with
    | some f => { s.receive s.cursor f with cursor := s.cursor + 1 }
    | none => s
  | .loses =>
    match s.frame s.cursor with
    | some _ => { s with cursor := s.cursor + 1, lost := s.cursor :: s.lost }
    | none => s
  | .redelivers i =>
    match s.frame i with
    | some f => if i < s.cursor ∧ i ∉ s.lost then s.receive i f else s
    | none => s
  | .asks turn => s.setTurn turn ((s.turns turn).requestRange (s.turns turn).heldSeq)
  | .answers turn => s.setTurn turn (s.answer turn (s.log.turnRange turn))
  | .fails turn => s.setTurn turn (s.answer turn fun _ => none)
  | .arrives turn => s.setTurn turn ((s.turns turn).rangeArrives turn)

end RunLogState
end Marotte.Transcript.RunLog
