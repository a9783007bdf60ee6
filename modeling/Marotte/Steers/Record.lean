import Marotte.Entry.Types
import Marotte.Library.Frame
import Marotte.Turns.Source
import Mathlib.Init

/-! # The channel and row tables

What the record knows of the read cursor of a chat's own turn, the states of one user row, and
the cell that each event has in each state.
-/
namespace Marotte.Steers

/-- `none` is no turn bound; `probing` is one combined probe outstanding, or owed. -/
inductive ChannelState where
  | none
  | opened
  | unconfirmed
  | probing
  deriving DecidableEq

inductive RowState where
  | parked
  | queued
  | outstanding
  | waiting
  | cleared
  | unsent
  | read
  | done
  deriving DecidableEq

namespace RowState

def inKAS (s : RowState) : Bool := s = queued ∨ s = outstanding

def terminal (s : RowState) : Bool := s = read ∨ s = done

end RowState

inductive SteerEvent where
  | bind
  | revise
  | steer
  | deleteQueued
  | deleteWaiting
  | deleteIdle
  | discard
  | injectedProbe
  | injectedOther
  | ackProbe
  | turnEnd
  | turnDeath
  | foreignClear
  | teardown
  | refused
  | postLoadClear
  | jobWake
  deriving DecidableEq

/-- A channel cell; `impossible` is one that no reachable sequence produces. -/
inductive ChanRule where
  | impossible
  | keep
  | opened
  | none
  | unconfirmed
  | probing
  | resubmit
  | owed
  | flush
  deriving DecidableEq

/-- A row cell; `unhandled` is the sentinel that no cell answers. -/
inductive RowRule where
  | unhandled
  | impossible
  | keep
  | read
  | cleared
  | deleted
  | discarded
  | collect
  | resubmit
  | joinProbe
  | route
  | drop
  | park
  deriving DecidableEq

def pick (c : ChannelState) (inNone inOpen inUnconfirmed inProbing : ChanRule) : ChanRule :=
  match c with
  | .none => inNone
  | .opened => inOpen
  | .unconfirmed => inUnconfirmed
  | .probing => inProbing

def channelRule (c : ChannelState) : SteerEvent → ChanRule
  | .bind => pick c .opened .impossible .impossible .impossible
  | .revise => pick c .impossible .keep .keep .keep
  | .steer => pick c .keep .keep .probing .keep
  | .deleteQueued => pick c .keep .resubmit .resubmit .resubmit
  | .deleteWaiting => pick c .impossible .keep .impossible .owed
  | .deleteIdle => .keep
  | .discard => pick c .keep .unconfirmed .unconfirmed .unconfirmed
  | .injectedProbe => pick c .keep .impossible .impossible .opened
  | .injectedOther => .keep
  | .ackProbe => pick c .keep .impossible .impossible .owed
  | .turnEnd | .turnDeath | .teardown => .none
  | .foreignClear => pick c .keep .owed .keep .owed
  | .refused => pick c .keep .unconfirmed .keep .unconfirmed
  | .postLoadClear => pick c .keep .impossible .impossible .impossible
  | .jobWake => pick c .keep .flush .keep .flush

def cell (s : RowState) (inParked inQueued inOutstanding inWaiting inCleared inUnsent : RowRule) :
    RowRule :=
  match s with
  | .parked => inParked
  | .queued => inQueued
  | .outstanding => inOutstanding
  | .waiting => inWaiting
  | .cleared => inCleared
  | .unsent => inUnsent
  | .read | .done => .unhandled

def rowRuleFor (s : RowState) (ev : SteerEvent) : RowRule :=
  if s.terminal then .keep
  else
    match ev with
    | .bind | .revise => .keep
    -- an unsent row goes by way of parked
    | .steer => cell s .route .keep .keep .route .route .keep
    | .deleteQueued => cell s .keep .resubmit .resubmit .joinProbe .joinProbe .keep
    | .deleteWaiting => cell s .keep .keep .keep .deleted .keep .keep
    | .deleteIdle => cell s .deleted .keep .keep .keep .deleted .deleted
    | .discard => .discarded
    | .injectedProbe => cell s .keep .keep .read .keep .keep .keep
    | .ackProbe => cell s .keep .keep .read .joinProbe .keep .keep
    | .injectedOther => cell s .keep .read .impossible .keep .keep .read
    | .turnEnd | .turnDeath => cell s .collect .collect .collect .collect .collect .keep
    | .foreignClear => cell s .keep .cleared .cleared .keep .keep .keep
    | .teardown => .drop
    | .refused => cell s .impossible .cleared .cleared .cleared .keep .keep
    | .postLoadClear => cell s .keep .park .impossible .impossible .keep .keep
    | .jobWake => cell s .keep .keep .keep .route .keep .keep

/-! ## The steer record of a chat

A chat's user rows, the agent rows beside them, and what the channel knows of them. A step runs
under one lock on the record and collects the effects that it owes: row frames, notes and jobs.
-/

open Turns (TurnOpenSource)

/-- A dock row's state on the wire; `absent` is the empty string of an answer that is no frame. -/
inductive SteerRowState where
  | absent
  | queued
  | unsent
  | removed
  deriving DecidableEq

structure SteerQueued where
  steerID : String
  text : String := ""
  origin : SteerOrigin := .user
  state : SteerRowState := .absent
  replaces : List String := []
  deriving DecidableEq

/-- One user row: `seq` stands for the row's identity, and no two rows of a record share it. -/
structure DockRow where
  key : String
  kasID : String := ""
  text : String
  owner : String := ""
  seq : ℕ
  state : RowState := .parked
  sent : Bool := false
  noted : Bool := false
  deriving DecidableEq

structure SteerTurnEnd where
  turnID : String
  lead : String := ""
  source : TurnOpenSource := .prompt
  bridgeDeath : Bool := false
  deriving DecidableEq

structure SteerJob where
  owner : String := ""
  turnEnd : Option SteerTurnEnd := none
  deriving DecidableEq

structure SteerSend where
  id : String
  text : String
  keys : List String := []
  deriving DecidableEq

structure SteerRecord where
  opEnd : Option SteerTurnEnd := none
  starting : String := ""
  turnID : String := ""
  probe : String := ""
  op : String := ""
  opTarget : String := ""
  lead : String := ""
  rows : List DockRow := []
  others : List SteerQueued := []
  nextSeq : ℕ := 0
  channel : ChannelState := .none
  opChannel : ChannelState := .none
  reinject : Bool := false
  gone : Bool := false
  deriving DecidableEq

structure SteerNote where
  id : String
  steer : EntrySteer
  deriving DecidableEq

structure SteerFx where
  frames : List SteerQueued := []
  notes : List SteerNote := []
  jobs : List SteerJob := []
  changed : Bool := false
  deriving DecidableEq

/-- What a step holds under the lock: its record, what it owes, and the jobs numbered so far. -/
structure Locked where
  record : SteerRecord
  fx : SteerFx := {}
  jobs : ℕ := 0

abbrev SteerM := StateM Locked

def maxSteerRows : ℕ := 64

/-! ## Rows and frames -/

namespace DockRow

variable (w : DockRow)

def live : Bool := !w.state.terminal

/-- A row that an id holds: KAS may have it, or had it when the row went unsent. -/
def under (id : String) : Bool :=
  w.live ∧ id ≠ "" ∧ w.kasID = id ∧ (w.state.inKAS ∨ w.state = .unsent)

def unownedWaiting : Bool := w.live ∧ w.state = .waiting ∧ w.owner = ""

def rowFrame : SteerQueued where
  steerID := w.key
  text := w.text
  state :=
    match w.state with
    | .done => .removed
    | .unsent => .unsent
    | .parked | .queued | .outstanding | .waiting | .cleared | .read => .queued

def deletedSteer : EntrySteer :=
  { text := w.text, origin := .user, state := .dropped, reason := .deleted }

def boundarySteer : EntrySteer :=
  { text := w.text, origin := .user, state := .dropped, reason := .boundary }

end DockRow

def joinSteers (texts : List String) : String := "\n\n".intercalate texts

def batchFrame (id : String) (members : List DockRow) : SteerQueued where
  steerID := id
  text := joinSteers (members.map DockRow.text)
  state := .queued
  replaces := members.map DockRow.key

namespace SteerRecord

variable (r : SteerRecord)

/-- A read row stays only while an op owns it. -/
def prune : SteerRecord :=
  { r with rows := r.rows.filter fun w => ¬ (w.state = .done ∨ (w.state = .read ∧ w.owner = "")) }

def row (key : String) : Option DockRow := r.rows.find? fun w => w.live ∧ w.key = key

def under (id : String) : List DockRow := r.rows.filter (·.under id)

def unownedWaiting : List DockRow := r.rows.filter DockRow.unownedWaiting

def owned (opID : String) : List DockRow :=
  r.rows.filter fun w => w.state ≠ .done ∧ w.owner = opID

/-- An op that is a delete: its target is set. -/
def deleting : Bool := r.op ≠ "" ∧ r.opTarget ≠ ""

def parkedBesides (seq : ℕ) : Bool :=
  r.rows.any fun w => w.live ∧ w.seq ≠ seq ∧ w.state = .parked

/-- The rows that the connect replay shows, a batch for every id that is no row's own key, then
the agent rows. -/
def appendReplay : List SteerQueued :=
  let live := r.rows.filter DockRow.live
  let batched := live.filter fun w => w.kasID ≠ "" ∧ w.kasID ≠ w.key
  live.map DockRow.rowFrame ++
    (batched.map DockRow.kasID).eraseDups.map
      (fun id => batchFrame id (batched.filter fun w => w.kasID = id)) ++
    r.others

end SteerRecord

/-! ## Steps under the lock -/

/-- The effects of a step that the counter is bumped for. -/
def SteerFx.owed (fx : SteerFx) : Bool := fx.changed || !fx.frames.isEmpty || !fx.notes.isEmpty

namespace SteerM

def record : SteerM SteerRecord := do return (← get).record

def update (f : SteerRecord → SteerRecord) : SteerM Unit :=
  modify fun s => { s with record := f s.record }

def owe (f : SteerFx → SteerFx) : SteerM Unit := modify fun s => { s with fx := f s.fx }

def emit (frame : SteerQueued) : SteerM Unit := owe fun fx => { fx with frames := fx.frames ++ [frame] }

def note (id : String) (steer : EntrySteer) : SteerM Unit :=
  owe fun fx => { fx with notes := fx.notes ++ [{ id, steer }] }

def job (j : SteerJob) : SteerM Unit := owe fun fx => { fx with jobs := fx.jobs ++ [j] }

def changed : SteerM Unit := owe fun fx => { fx with changed := true }

def guarded (c : Prop) [Decidable c] (m : SteerM Unit) : SteerM Unit := if c then m else pure ()

/-- Each row that a test picks is rewritten in turn, and answers. -/
def forRows {α : Type} (p : DockRow → Bool) (f : DockRow → SteerM (DockRow × α)) :
    SteerM (List α) := do
  let r ← record
  let out ← r.rows.mapM fun w =>
    if p w then do
      let (w', a) ← f w
      return (w', some a)
    else return (w, none)
  update fun r => { r with rows := out.map Prod.fst }
  return out.filterMap Prod.snd

def ignore {α : Type} (m : SteerM α) : SteerM Unit := do
  let _ ← m
  return ()

/-- Each row that a test picks is rewritten in turn. -/
def eachRow (p : DockRow → Bool) (f : DockRow → SteerM DockRow) : SteerM Unit :=
  ignore (forRows p fun w => do return (← f w, ()))

end SteerM
open SteerM

/-- A frame is owed only when the wire state moves: every state but unsent reads queued. -/
def setState (w : DockRow) (s : RowState) : SteerM DockRow := do
  let w' := { w with state := s }
  guarded (decide (w.state = .unsent) ≠ decide (s = .unsent)) (emit w'.rowFrame)
  changed
  return w'

/-- A row whose key already carries its one entry leaves with a removed frame. -/
def retire (w : DockRow) (steer : Option EntrySteer) : SteerM DockRow := do
  let w' := { w with state := .done }
  changed
  match steer with
  | some entry =>
    if w.noted then do
      emit w'.rowFrame
      return w'
    else do
      note w.key entry
      return { w' with noted := true }
  | none => do
    emit w'.rowFrame
    return w'

/-! ## The frames of KAS -/

def takeOther (id : String) : SteerM (Option SteerQueued) := do
  let r ← record
  match r.others.find? (·.steerID = id) with
  | none => return none
  | some other => do
    update fun r => { r with others := r.others.eraseP (·.steerID = id) }
    return some other

/-- A frame that names rows of the record is published by the record, and answers false. -/
def steerWaiting (p : SteerQueued) : SteerM Bool := do
  let r ← record
  match r.under p.steerID with
  | [] => do
    let others := r.others.filter (·.steerID ≠ p.steerID)
    let kept := if maxSteerRows ≤ others.length then others.drop 1 else others
    update fun r => { r with others := kept ++ [{ p with state := .queued }] }
    changed
    return true
  | [w] => do
    emit (if w.key = p.steerID then w.rowFrame else batchFrame p.steerID [w])
    return false
  | members => do
    emit (batchFrame p.steerID members)
    return false

/-- A probe's read is named whether or not it is still the channel's. -/
def readEvent (members : List DockRow) (byAck : Bool) : SteerEvent :=
  if members.all (fun w => w.state ≠ .outstanding) then .injectedOther
  else if byAck then .ackProbe
  else .injectedProbe

/-- Un-owned waiting rows go to a job as the next probe; with none waiting the channel is
unconfirmed. -/
def oweProbe : SteerM Unit := do
  update fun r => { r with probe := "" }
  let r ← record
  if r.unownedWaiting = [] then update fun r => { r with channel := .unconfirmed }
  else do
    update fun r => { r with channel := .probing }
    job {}

def probeReadLocked (ev : SteerEvent) : SteerM Unit := do
  let r ← record
  match channelRule r.channel ev with
  | .opened => do
    update fun r => { r with probe := "", channel := .opened }
    guarded (r.unownedWaiting ≠ []) (job {})
  | .owed => oweProbe
  | _ => return ()

/-- `byAck` is a delegate's read, which proves nothing about the main cursor. -/
def readLocked (id : String) (byAck : Bool) : SteerM (Option SteerQueued) := do
  guarded (byAck = false) do
    let other ← takeOther id
    guarded other.isSome changed
  let r ← record
  let members := r.under id
  if members = [] then return none
  else do
    let ev := readEvent members byAck
    eachRow (·.under id) fun w =>
      return if rowRuleFor w.state ev = .read then { w with state := .read } else w
    changed
    guarded (r.channel = .probing ∧ id = r.probe) (probeReadLocked ev)
    return some { steerID := id, text := (batchFrame id members).text }

def steerRead (id : String) : SteerM Unit := ignore (readLocked id false)

/-- An acknowledgement answers what it read. -/
def steerForgotten (ids : List String) : SteerM (List SteerQueued) := do
  let out ← ids.mapM fun id => do
    match ← takeOther id with
    | some p => do
      changed
      return some p
    | none => readLocked id true
  return out.reduceOption

/-- With no turn and no held prompt to decide them, the rows that a clear named are unsent. -/
def clearUnderLocked (id : String) (promptHeld : Bool) : SteerM Bool := do
  let r ← record
  eachRow (fun w => w.under id ∧ w.state.inKAS) fun w =>
    if rowRuleFor w.state .foreignClear = .cleared then
      setState w (if r.channel = .none ∧ w.owner = "" ∧ promptHeld = false then .unsent else .cleared)
    else return w
  guarded (id = r.probe ∧ r.channel = .probing) (update fun r => { r with probe := "" })
  return (r.under id).any (·.state.inKAS)

/-- A user row gets no entry at a clear; the agent rows that it named are answered. -/
def steerCleared (ids : List String) (promptHeld : Bool) : SteerM (List SteerQueued) := do
  let out ← ids.mapM fun id => do
    let other ← takeOther id
    guarded other.isSome changed
    let named ← clearUnderLocked id promptHeld
    return (other, named)
  let r ← record
  guarded (out.any Prod.snd ∧ channelRule r.channel .foreignClear = .owed) oweProbe
  return (out.map Prod.fst).reduceOption

/-! ## The turn's ends -/

/-- A closing turn takes the rows that KAS holds for it, the rows its channel owns, and the parked
rows when it is prompt-class. -/
def endCollects (s : RowState) (own unbound promptClass : Bool) : Bool :=
  match s with
  | .queued | .cleared => own || unbound
  | .outstanding | .waiting => own
  | .parked => promptClass
  | .unsent | .read | .done => false

def noteOpEnd (w : DockRow) (en : SteerTurnEnd) : SteerM Unit := do
  let r ← record
  guarded (w.owner = r.op ∧ r.opEnd = none)
    (update fun r => { r with opEnd := some { en with lead := r.lead } })

/-- A row of an ended turn: the op takes it if it adopts rows, and an owned row records the end. -/
def endRow (en : SteerTurnEnd) (adopt : Bool) (op : String) (w : DockRow) :
    SteerM (DockRow × Option ℕ) := do
  guarded (en.bridgeDeath ∧ w.state.inKAS) (update fun r => { r with reinject := true })
  let w' := { w with owner := if w.owner = "" ∧ adopt then op else w.owner }
  if w'.owner ≠ "" then do
    noteOpEnd w' en
    return (w', none)
  else return (w', some w'.seq)

/-- The rows of an ended turn that no op owns. A delete's first turn end takes every row that the
turn leaves. -/
def collectEnded (en : SteerTurnEnd) (own unbound : Bool) (ev : SteerEvent) : SteerM (List ℕ) := do
  let r ← record
  let collected ← forRows (fun w => w.live ∧
      endCollects w.state own unbound en.source.promptClass ∧ rowRuleFor w.state ev = .collect)
    (endRow en (r.deleting && r.opEnd.isNone) r.op)
  return collected.reduceOption

def handToJob (seqs : List ℕ) (en : SteerTurnEnd) : SteerM Unit := do
  modify fun s => { s with jobs := s.jobs + 1 }
  let s ← get
  let owner := "job-" ++ toString s.jobs
  eachRow (fun w => seqs.contains w.seq) fun w => return { w with owner }
  changed
  job { owner, turnEnd := some en }

def endLocked (en : SteerTurnEnd) : SteerM Unit := do
  let r ← record
  let own := en.turnID ≠ "" ∧ en.turnID = r.turnID
  let unbound := r.channel = .none ∧ en.source.promptClass
  let ev : SteerEvent := if en.bridgeDeath then .turnDeath else .turnEnd
  guarded (en.turnID ≠ "" ∧ en.turnID = r.starting) (update fun r => { r with starting := "" })
  let collected ← collectEnded en own unbound ev
  guarded (own ∧ channelRule r.channel ev = .none)
    (update fun r => { r with turnID := "", channel := .none, probe := "" })
  let lead := (← record).lead
  update fun r => { r with lead := "" }
  guarded (collected ≠ []) (handToJob collected { en with lead })

/-- Unbound rows already in KAS join the turn, whose execution's cursor reads them. -/
def turnBound (turnID : String) : SteerM Unit := do
  let r ← record
  guarded (channelRule r.channel .bind = .impossible) (endLocked { turnID := r.turnID })
  update fun r => { r with turnID, channel := .opened, probe := "", starting := "" }

def turnRevised (turnID : String) : SteerM Unit := do
  let r ← record
  guarded (channelRule r.channel .revise = .keep) (update fun r => { r with turnID })

/-- The rows that a dead buffer held with no turn to collect them are unsent. -/
def bridgeGone : SteerM Unit := do
  let r ← record
  guarded (r.channel = .none)
    (eachRow (fun w => w.live ∧ w.owner = "" ∧ w.state.inKAS) fun w => do
      update fun r => { r with reinject := true }
      setState w .unsent)

end Marotte.Steers
