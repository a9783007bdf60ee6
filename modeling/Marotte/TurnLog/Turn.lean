import Marotte.Entry.Types
import Mathlib.Logic.Function.Basic

/-! # The accumulator of one open turn

Per lane, the text or thinking entry still coalescing deltas and the steer carry withheld beside
it. Every append seals first, and what a seal freezes is handed to the sink, which may refuse it.
-/
namespace Marotte.TurnLog

/-- The shortest span that commits a `[` to being a steering acknowledgement marker. -/
def steerAckPrefix : String := "[STEERING steer-"

/-- A carry that is a marker the model opened and never closed. -/
def isMarker (carry : String) : Bool := steerAckPrefix.toList.isPrefixOf carry.toList

inductive StreamKind where
  | text | thinking
  deriving DecidableEq, Repr

/-- The payload of a streamed entry. -/
def StreamKind.payload : StreamKind → String → Payload
  | text, said => .text { text := said }
  | thinking, said => .thinking { text := said }

/-- An entry still coalescing deltas. `say` is the say it was opened under, which the source keeps
in the id alone. -/
structure OpenEntry where
  id : String
  kind : StreamKind
  text : String
  n : ℕ
  say : String
  deriving DecidableEq, Repr

/-- One agent's state inside a turn: the say it last opened an entry for, with how many segments
of it, and the bytes withheld from the open entry. -/
structure Lane where
  opened : Option OpenEntry := none
  say : String := ""
  seg : ℕ := 0
  carry : String := ""
  carrySay : String := ""
  deriving DecidableEq, Repr

/-- A tool call between its tool_call entry and its tool_result. -/
structure OpenCall where
  id : String
  lane : String
  deriving DecidableEq, Repr

/-- An entry as the sink was handed it, and whether it was filed as belonging to no lane. -/
structure Filed where
  entry : Entry
  laneless : Bool
  deriving DecidableEq, Repr

inductive TurnLogError where
  | closed | refused
  deriving DecidableEq, Repr

/-- One entry a step froze, with the carry its seal released and the deltas it held. -/
structure Sealed where
  entry : Entry
  delta : String := ""
  n : ℕ := 0
  deriving DecidableEq, Repr

/-- What lies outside a turn: whether the sink takes the n-th append it is handed, and the first
sixteen hex digits of a summary's digest. -/
structure World where
  accepts : ℕ → Bool
  digest : String → String

/-- A turn. `order` holds the lanes in first-seen order, `calls` the unsettled calls in arrival
order; a lane outside `order` holds nothing. `handed` counts the appends, `appended` and `refused`
hold what the sink took and what it did not. -/
structure Turn where
  id : String
  lanes : String → Lane := fun _ => {}
  order : List String := []
  calls : List OpenCall := []
  plan : Option EntryPlan := none
  minted : ℕ := 0
  emitted : Bool := false
  closed : Bool := false
  handed : ℕ := 0
  appended : List Filed := []
  refused : List Filed := []

/-- What an operation leaves: the turn, what it sealed, and the error it answers. -/
structure Outcome where
  turn : Turn
  sealed : List Sealed := []
  err : Option TurnLogError := none

/-- `compaction-` and the digest, or the ordinal of an empty summary. -/
def compactionEntryID (w : World) (summary : String) (emptyOrdinal : ℕ) : String :=
  if summary = "" then "compaction-empty-" ++ toString emptyOrdinal
  else "compaction-" ++ w.digest summary

/-- The n-th id minted for an entry no side pairs by id. -/
def mintedID (turn : String) (n : ℕ) : String := turn ++ ":e" ++ toString n

/-- What a seal releases of the withheld text, and its say. -/
def Lane.released (l : Lane) : String × String :=
  if l.carry = "" ∨ isMarker l.carry = true then ("", "") else (l.carry, l.carrySay)

/-- Whether a delta extends what the lane holds open: the same kind, and the same say or none. -/
def Lane.takes (l : Lane) (say : String) (kind : StreamKind) : Bool :=
  match l.opened with
  | none => false
  | some o => o.kind = kind && (say = "" || sayIDOf o.id = say)

def Lane.extend (l : Lane) (delta : String) : Lane :=
  { l with opened := l.opened.map (fun o => { o with text := o.text ++ delta, n := o.n + 1 }) }

namespace Turn

variable (w : World) (t : Turn)

def setLane (key : String) (l : Lane) : Turn :=
  { t with lanes := Function.update t.lanes key l }

/-- Records a lane's first-seen position. -/
def laneOf (key : String) : Turn :=
  if key ∈ t.order then t else { t with order := t.order ++ [key] }

def mintID : Turn × String :=
  ({ t with minted := t.minted + 1 }, mintedID t.id (t.minted + 1))

/-- Freezes one entry and hands it to the sink. -/
def append (laneless : Bool) (key id : String) (payload : Payload) : Turn × Option Entry :=
  let e : Entry := { id := id, turn := t.id, lane := key, payload := payload }
  if w.accepts t.handed then
    ({ t with handed := t.handed + 1, appended := t.appended ++ [⟨e, laneless⟩] }, some e)
  else ({ t with handed := t.handed + 1, refused := t.refused ++ [⟨e, laneless⟩] }, none)

/-- Starts a lane's open entry. A say the lane opened an entry for last is one a seal split, so
its later segments count on. -/
def openEntry (key : String) (kind : StreamKind) (say delta : String) : Turn × OpenEntry :=
  let l := t.lanes key
  if say = "" then
    let (t, id) := t.mintID
    let o : OpenEntry := { id := id, kind := kind, text := delta, n := 1, say := say }
    ({ t with emitted := true }.setLane key { l with opened := some o }, o)
  else if say = l.say then
    let o : OpenEntry :=
      { id := saySegmentID say (l.seg + 1), kind := kind, text := delta, n := 1, say := say }
    ({ t with emitted := true }.setLane key { l with seg := l.seg + 1, opened := some o }, o)
  else
    let o : OpenEntry := { id := say, kind := kind, text := delta, n := 1, say := say }
    ({ t with emitted := true }.setLane key { l with say := say, seg := 1, opened := some o }, o)

/-- Hands an entry just closed to the sink. -/
def sealOpen (key : String) (o : OpenEntry) (delta : String) (n : ℕ) : Outcome :=
  let t := t.setLane key { t.lanes key with opened := none }
  match t.append w false key o.id (o.kind.payload o.text) with
  | (t, none) => { turn := t, err := some .refused }
  | (t, some e) => { turn := t, sealed := [{ entry := e, delta := delta, n := n }] }

/-- Settles a lane's carry, freezes its open entry and hands it to the sink. A carry released with
nothing open opens a text entry and seals it in the same step. -/
def sealLane (key : String) : Outcome :=
  let l := t.lanes key
  let (released, say) := l.released
  let t := t.setLane key { l with carry := "", carrySay := "" }
  match l.opened with
  | some o =>
    let n := if released = "" then o.n else o.n + 1
    t.sealOpen w key { o with text := o.text ++ released, n := n } released n
  | none =>
    if released = "" then { turn := t }
    else
      let (t, o) := t.openEntry key .text say released
      t.sealOpen w key o "" 0

/-- Seals the lanes given, up to the first that is refused. -/
def sealLanes (t : Turn) : List String → Outcome
  | [] => { turn := t }
  | key :: keys =>
    match t.sealLane w key with
    | ⟨t, sealed, some err⟩ => ⟨t, sealed, some err⟩
    | ⟨t, sealed, none⟩ =>
      let rest := sealLanes t keys
      { rest with sealed := sealed ++ rest.sealed }

def sealAll : Outcome := t.sealLanes w t.order

/-- Folds a delta into its lane's open entry, or seals what the lane holds and opens another. -/
def delta (key say delta : String) (kind : StreamKind) : Outcome :=
  if t.closed then { turn := t, err := some .closed }
  else
    let t := t.laneOf key
    if (t.lanes key).takes say kind then
      { turn := t.setLane key ((t.lanes key).extend delta) }
    else
      match t.sealLane w key with
      | ⟨t, sealed, some err⟩ => ⟨t, sealed, some err⟩
      | ⟨t, sealed, none⟩ => { turn := (t.openEntry key kind say delta).1, sealed := sealed }

def textDelta (key say delta : String) : Outcome := t.delta w key say delta .text

def thinkingDelta (key say delta : String) : Outcome := t.delta w key say delta .thinking

/-- Replaces what a lane withholds; an empty carry has no say. -/
def setSteerCarry (key say carry : String) : Outcome :=
  let t := t.laneOf key
  { turn := t.setLane key
      { t.lanes key with carry := carry, carrySay := if carry = "" then "" else say } }

/-- Ends a lane's prose without appending anything of its own. -/
def sealLaneOnly (key : String) : Outcome :=
  if t.closed then { turn := t, err := some .closed } else t.sealLane w key

/-- Appends an entry of one lane behind that lane's seal. `after` runs once the write landed. -/
def laned (key id : String) (payload : Payload) (after : Turn → Turn) : Outcome :=
  if t.closed then { turn := t, err := some .closed }
  else
    match t.sealLane w key with
    | ⟨t, sealed, some err⟩ => ⟨t, sealed, some err⟩
    | ⟨t, sealed, none⟩ =>
      match t.append w false key id payload with
      | (t, none) => ⟨t, sealed, some .refused⟩
      | (t, some e) =>
        { turn := after { t with emitted := true }, sealed := sealed ++ [{ entry := e }] }

/-- Appends an entry of no lane behind every lane's seal. -/
def laneless (id : String) (payload : Payload) : Outcome :=
  if t.closed then { turn := t, err := some .closed }
  else
    match t.sealAll w with
    | ⟨t, sealed, some err⟩ => ⟨t, sealed, some err⟩
    | ⟨t, sealed, none⟩ =>
      match t.append w true "" id payload with
      | (t, none) => ⟨t, sealed, some .refused⟩
      | (t, some e) => { turn := t, sealed := sealed ++ [{ entry := e }] }

/-- The unsettled call of an id. -/
def callOf (callID : String) : Option OpenCall := t.calls.find? (fun call => call.id = callID)

def trackCall (callID key : String) : Turn :=
  if (t.callOf callID).isSome then t else { t with calls := t.calls ++ [⟨callID, key⟩] }

def settleCall (callID : String) : Turn :=
  { t with calls := t.calls.filter (fun call => call.id ≠ callID) }

def toolCall (key : String) (call : EntryToolCall) : Outcome :=
  t.laned w key call.id (.toolCall call) (fun t => t.trackCall call.id key)

/-- A subagent invocation's tool_call, filed in its issuer's lane. -/
def invocation (issuerLane delegateID : String) (call : EntryToolCall) : Outcome :=
  t.toolCall w issuerLane { call with agentSubtaskID := delegateID }

/-- A call's settled value, in the call's own lane whatever lane the update carried. -/
def toolResult (updateLane callID : String) (res : EntryToolResult) : Outcome :=
  let key := ((t.callOf callID).map OpenCall.lane).getD updateLane
  t.laned w key (toolResultID callID) (.toolResult res) (fun t => t.settleCall callID)

def steerAck (key steerID text : String) : Outcome :=
  t.laned w key (steerAckID steerID) (.steerAck { steerID := steerID, text := text })
    (fun t => t)

def steerInLane (key steerID : String) (steer : EntrySteer) : Outcome :=
  t.laned w key steerID (.steer steer) (fun t => t)

def steer (steerID : String) (steer : EntrySteer) : Outcome := t.laneless w steerID (.steer steer)

def compaction (summary : String) (emptyOrdinal : ℕ) : Outcome :=
  t.laneless w (compactionEntryID w summary emptyOrdinal) (.compaction { summary := summary })

/-- A lane-less entry under a minted id; the id is minted before anything is checked. -/
def lanelessMinted (payload : Payload) : Outcome := t.mintID.1.laneless w t.mintID.2 payload

def turnBind (bind : EntryTurnBind) : Outcome := t.lanelessMinted w (.turnBind bind)

def compactionFailed (reason : String) : Outcome :=
  t.lanelessMinted w (.compactionFailed { reason := reason })

def safetyBlocked (properties : List String) : Outcome :=
  t.lanelessMinted w (.safetyBlocked { properties := properties })

def modelSwitched (p : EntryModelSwitched) : Outcome := t.lanelessMinted w (.modelSwitched p)

def modeSwitched (p : EntryModeSwitched) : Outcome := t.lanelessMinted w (.modeSwitched p)

/-- A plan state, nothing when it equals the newest one. -/
def planState (plan : EntryPlan) : Outcome :=
  if t.plan = some plan then { turn := t }
  else
    match t.lanelessMinted w (.plan plan) with
    | ⟨t, sealed, some err⟩ => ⟨t, sealed, some err⟩
    | ⟨t, sealed, none⟩ => ⟨{ t with plan := some plan }, sealed, none⟩

/-- Aborts the calls given, each in its own lane, up to the first that is refused. -/
def abortCalls (t : Turn) : List OpenCall → Outcome
  | [] => { turn := t }
  | call :: calls =>
    match t.append w false call.lane (toolResultID call.id)
      (.toolResult { status := .aborted }) with
    | (t, none) => { turn := t, err := some .refused }
    | (t, some e) =>
      let rest := abortCalls (t.settleCall call.id) calls
      { rest with sealed := { entry := e } :: rest.sealed }

/-- Ends the turn: every lane's seal, an aborted result for every unsettled call, and the
turn_close. The footer is what the aggregate and the conclusion make of whether content came. -/
def close (footer : Bool → EntryTurnClose) : Outcome :=
  if t.closed then { turn := t, err := some .closed }
  else
    match t.sealAll w with
    | ⟨t, sealed, some err⟩ => ⟨t, sealed, some err⟩
    | ⟨t, sealed, none⟩ =>
      match t.abortCalls w t.calls with
      | ⟨t, aborted, some err⟩ => ⟨t, sealed ++ aborted, some err⟩
      | ⟨t, aborted, none⟩ =>
        match t.mintID.1.append w true "" t.mintID.2 (.turnClose (footer t.emitted)) with
        | (t, none) => ⟨t, sealed ++ aborted, some .refused⟩
        | (t, some e) =>
          { turn := { t with closed := true }, sealed := sealed ++ aborted ++ [{ entry := e }] }

end Turn

/-- One call on a turn. -/
inductive Op where
  | textDelta (key say delta : String)
  | thinkingDelta (key say delta : String)
  | setSteerCarry (key say carry : String)
  | sealLane (key : String)
  | toolCall (key : String) (call : EntryToolCall)
  | invocation (issuerLane delegateID : String) (call : EntryToolCall)
  | toolResult (updateLane callID : String) (res : EntryToolResult)
  | steerAck (key steerID text : String)
  | steerInLane (key steerID : String) (steer : EntrySteer)
  | steer (steerID : String) (steer : EntrySteer)
  | compaction (summary : String) (emptyOrdinal : ℕ)
  | turnBind (bind : EntryTurnBind)
  | compactionFailed (reason : String)
  | safetyBlocked (properties : List String)
  | modelSwitched (p : EntryModelSwitched)
  | modeSwitched (p : EntryModeSwitched)
  | plan (plan : EntryPlan)
  | close (footer : Bool → EntryTurnClose)

def Turn.perform (w : World) (t : Turn) : Op → Outcome
  | .textDelta key say delta => t.textDelta w key say delta
  | .thinkingDelta key say delta => t.thinkingDelta w key say delta
  | .setSteerCarry key say carry => t.setSteerCarry key say carry
  | .sealLane key => t.sealLaneOnly w key
  | .toolCall key call => t.toolCall w key call
  | .invocation issuerLane delegateID call => t.invocation w issuerLane delegateID call
  | .toolResult updateLane callID res => t.toolResult w updateLane callID res
  | .steerAck key steerID text => t.steerAck w key steerID text
  | .steerInLane key steerID steer => t.steerInLane w key steerID steer
  | .steer steerID steer => t.steer w steerID steer
  | .compaction summary emptyOrdinal => t.compaction w summary emptyOrdinal
  | .turnBind bind => t.turnBind w bind
  | .compactionFailed reason => t.compactionFailed w reason
  | .safetyBlocked properties => t.safetyBlocked w properties
  | .modelSwitched p => t.modelSwitched w p
  | .modeSwitched p => t.modeSwitched w p
  | .plan plan => t.planState w plan
  | .close footer => t.close w footer

/-- The accumulator a turn starts with. -/
def opened (id : String) : Turn := { id := id }

end Marotte.TurnLog
