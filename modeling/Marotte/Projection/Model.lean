import Mathlib.Data.List.Sort
import Marotte.Entry.Types
import Marotte.Library.Keyed
import Marotte.Projection.Acks

/-! # The replay projection

A chat's turn log rebuilt from the frames of a `session/load` replay. A frame holds what its
decoding answers: one that does not decode is ignored, and a time that is missing is zero.
-/
namespace Marotte.Projection

/-! ## Frames -/

inductive SayKind where
  | text | thinking
  deriving DecidableEq

structure ChunkFrame where
  text : String
  messageID : String := ""
  agentSubtaskID : String := ""
  source : String := ""
  notificationKind : String := ""
  notificationStatus : String := ""
  timestamp : ℤ := 0

structure CallFrame where
  toolCallID : String
  toolID : String := ""
  metaKind : String := ""
  agentSubtaskID : String := ""
  timestamp : ℤ := 0
  title : String := ""
  kind : ToolKind := .other
  status : ToolStatus := .pending
  input : Option Json := none
  terminalID : String := ""
  locations : List ToolLocation := []
  diffs : List ToolDiff := []
  disclosed : Option ToolDisclosed := none
  denial : Option ToolDenial := none

structure UpdateFrame where
  toolCallID : String
  timestamp : ℤ := 0
  title : String := ""
  kind : ToolKind := .absent
  status : ToolStatus := .absent
  output : String := ""
  terminalID : String := ""
  diffs : List ToolDiff := []
  locations : List ToolLocation := []
  checkpoint : Option ToolCheckpoint := none
  disclosed : Option ToolDisclosed := none
  denial : Option ToolDenial := none
  workflowID : String := ""

structure PromptTurnSummary where
  unit : String
  usage : NumLit

structure TurnEndBlock where
  stopReason : String
  details : String

inductive Frame where
  | userText (c : ChunkFrame)
  | agentText (kind : SayKind) (c : ChunkFrame)
  | toolCall (c : CallFrame)
  | toolUpdate (u : UpdateFrame)
  | turnStart
  | turnCompletion (summaries : List PromptTurnSummary) (elapsedMs : NumLit)
  | turnEnd (e : Option TurnEndBlock)
  | separator
  | summary (content : Option String)
  | ignored

/-- What a projection takes from outside: the id generator, the sum of two metered amounts, and
the digest that names a compaction. -/
structure Env where
  newID : ℕ → String
  addUsage : NumLit → NumLit → NumLit
  summaryDigest : String → String

/-! ## The newest turn -/

structure LaneSay where
  lane : String
  id : String
  kind : SayKind

/-- A lane's withheld tail, and the say that a release of it belongs to. -/
structure Carry where
  lane : String
  held : List Char
  say : String

structure TurnConclusion where
  outcome : TurnOutcome
  reason : String := ""
  rawStop : String
  truncated : Bool := false

structure ProjectedFacts where
  conclusion : Option TurnConclusion := none
  credits : NumLit := .zero
  elapsedMs : NumLit := .zero

/-- What a turn's frames named, kept for the statements: no projected value depends on it. -/
inductive Landing where
  | say (id lane : String) (kind : SayKind) (delta : List Char)
  | steer (id : String)
  | call (id : String)
  | compaction (id : String)

/-- The newest turn, open or closed; `minted` counts the ids generated so far. -/
structure NewestTurn where
  cur : List Entry := []
  curID : String := ""
  sayAt : String → Option ℕ := fun _ => none
  sayText : String → List Char := fun _ => []
  carry : List Carry := []
  laneOpen : List LaneSay := []
  calls : String → Option String := fun _ => none
  callOrder : List String := []
  lane : String := ""
  facts : ProjectedFacts := {}
  compactAt : Option ℕ := none
  closed : Bool := false
  minted : ℕ := 0
  landed : List Landing := []

/-- The payload of a say, under its entry's own kind. -/
def Payload.withText (text : List Char) : Payload → Payload
  | .text _ => .text { text := String.ofList text }
  | .thinking _ => .thinking { text := String.ofList text }
  | p => p

def payloadForSay (kind : SayKind) (text : List Char) : Payload :=
  match kind with
  | .thinking => .thinking { text := String.ofList text }
  | .text => .text { text := String.ofList text }

namespace NewestTurn

variable (p : NewestTurn)

def land (l : Landing) : NewestTurn := { p with landed := p.landed ++ [l] }

/-- One entry placed at `pos`; the say index moves with what the insertion moved. -/
def insertEntry (pos : ℕ) (id lane : String) (ts : ℤ) (payload : Payload) : NewestTurn :=
  { p with
    cur := p.cur.insertIdx pos { id, turn := p.curID, lane, ts, payload }
    sayAt := fun say => (p.sayAt say).map fun i => if pos ≤ i then i + 1 else i }

def appendEntry (id lane : String) (ts : ℤ) (payload : Payload) : NewestTurn :=
  p.insertEntry p.cur.length id lane ts payload

/-- One entry's payload replaced in place, for a say that a later delta extended. -/
def rewritePayload (pos : ℕ) (text : List Char) : NewestTurn :=
  { p with cur := p.cur.modify pos fun e => { e with payload := Payload.withText text e.payload } }

/-- A lane's withheld tail replaced. -/
def setCarry (lane say : String) (held : List Char) : NewestTurn :=
  { p with carry :=
      if held = [] then Keyed.erase Carry.lane p.carry lane
      else Keyed.set Carry.lane p.carry { lane, held, say } }

/-- The say a lane is still accumulating: its open entry, or the say its tail belongs to. -/
def heldSay (lane : String) : Option LaneSay :=
  match Keyed.find LaneSay.lane p.laneOpen lane with
  | some held => some held
  | none => (Keyed.find Carry.lane p.carry lane).map fun c => { lane, id := c.say, kind := .text }

/-- A delta appended to the entry of its say, opening one when the turn holds none. -/
def extendSay (kind : SayKind) (id lane : String) (ts : ℤ) (delta : List Char) : NewestTurn :=
  let p := { p with laneOpen := Keyed.set LaneSay.lane p.laneOpen { lane, id, kind } }
  match p.sayAt id with
  | some pos =>
    let text := p.sayText id ++ delta
    { p with sayText := Function.update p.sayText id text }.rewritePayload pos text
  | none =>
    let pos := p.cur.length
    let p := p.insertEntry pos id lane ts (payloadForSay kind delta)
    { p with
      sayAt := Function.update p.sayAt id (some pos)
      sayText := Function.update p.sayText id delta }

/-- A lane with no open say. -/
def closeLane (lane : String) : NewestTurn :=
  { p with laneOpen := Keyed.erase LaneSay.lane p.laneOpen lane }

/-- A lane's tail settled and its say closed. A tail with the whole marker prefix is a marker the
model never closed and is dropped; any other goes back into its say. -/
def sealLane (lane : String) : NewestTurn :=
  let carried := Keyed.find Carry.lane p.carry lane
  let p := p.setCarry lane "" []
  let p := match carried with
    | some c =>
      if steerAckPrefix.isPrefixOf c.held then p else p.extendSay .text c.say lane 0 c.held
    | none => p
  p.closeLane lane

def sortedLanes (lanes : List String) : List String := lanes.insertionSort (· ≤ ·)

def sealLanes : NewestTurn :=
  let p := (sortedLanes (p.laneOpen.map LaneSay.lane)).foldl sealLane p
  (sortedLanes (p.carry.map Carry.lane)).foldl sealLane p

/-- A call noted as unsettled, in the order a close aborts them in. -/
def trackCall (id lane : String) : NewestTurn :=
  if (p.calls id).isSome then p
  else { p with
    calls := Function.update p.calls id (some lane)
    callOrder := p.callOrder ++ [id] }

def settleCall (id : String) : NewestTurn :=
  { p with
    calls := Function.update p.calls id none
    callOrder := p.callOrder.filter (· ≠ id) }

/-- A frame's own time, or that of the turn's turn_open. -/
def frameTS (timestamp : ℤ) : ℤ :=
  if timestamp ≠ 0 then timestamp else (p.cur.head?.map Entry.ts).getD 0

/-- A call with no result is aborted in its own lane. -/
def abortCall (id : String) : NewestTurn :=
  p.appendEntry (toolResultID id) ((p.calls id).getD "") 0 (.toolResult { status := .aborted })

/-- Every lane's tail sealed, and every call that the replay never settled aborted. -/
def settle : NewestTurn :=
  let p := p.sealLanes
  { p.callOrder.foldl abortCall p with calls := fun _ => none, callOrder := [] }

/-- The newest turn settled, with its turn_close when a turn_end reached it. -/
def closeTurn (env : Env) : NewestTurn :=
  if p.cur = [] then p
  else
    let p := p.settle
    match p.facts.conclusion with
    | none => p
    | some c =>
      if p.closed then p
      else
        { p with closed := true, minted := p.minted + 1 }.appendEntry (env.newID p.minted) "" 0
          (.turnClose {
            outcome := c.outcome
            stopReasonRaw := c.rawStop
            failureReason := c.reason
            truncated := c.truncated
            credits := p.facts.credits
            elapsedMs := p.facts.elapsedMs })

/-- The turn_open that every later entry hangs off, on an empty turn. -/
def startTurn (env : Env) (source : TurnOpenSourceName) (prompt : Option EntryPrompt) (ts : ℤ) :
    NewestTurn :=
  { curID := env.newID p.minted, minted := p.minted + 1 : NewestTurn }.appendEntry
    (env.newID p.minted) "" ts (.turnOpen { prompt, source, n := 0 })

/-- The say a delta belongs to: its frame's, or the lane's own of the same kind, or a new one. -/
def sayIDFor (env : Env) (kind : SayKind) (lane sayID : String) : String × NewestTurn :=
  if sayID ≠ "" then (sayID, p)
  else match p.heldSay lane with
    | some held =>
      if held.kind = kind then (held.id, p)
      else (env.newID p.minted, { p with minted := p.minted + 1 })
    | none => (env.newID p.minted, { p with minted := p.minted + 1 })

/-- The barrier: another say, or another kind, settles the lane before a delta lands in it. -/
def barrier (kind : SayKind) (lane sayID : String) : NewestTurn :=
  match p.heldSay lane with
  | some held => if held.id ≠ sayID ∨ held.kind ≠ kind then p.sealLane lane else p
  | none => p

/-- A delta in its lane, a text one through the marker filter. -/
def addDelta (kind : SayKind) (lane sayID : String) (ts : ℤ) (delta : List Char) : NewestTurn :=
  let p := p.land (.say sayID lane kind delta)
  match kind with
  | .thinking => p.extendSay .thinking sayID lane ts delta
  | .text =>
    let held := ((Keyed.find Carry.lane p.carry lane).map Carry.held).getD []
    let stripped := stripSteerAcks held delta
    let p := p.setCarry lane sayID stripped.2
    if stripped.1 = [] then p else p.extendSay .text sayID lane ts stripped.1

end NewestTurn

/-! ## The projection -/

structure ProjectedTurn where
  entries : List Entry
  landed : List Landing := []

/-- The user row being accumulated. -/
structure UserRow where
  id : String
  text : String := ""
  severity : String
  ts : ℤ
  steer : Bool

structure EntryProjection extends NewestTurn where
  prompt : Option EntryPrompt := none
  promptTs : ℤ := 0
  user : Option UserRow := none
  emptySummaries : ℕ := 0
  turns : List ProjectedTurn := []

def replaySteerSource : String := "steer"

def subagentInvocationKind : String := "agent-subtask"

def workflowProgressIDPrefix : List Char := "wf-progress-".toList

def workflowProgressKind : String := "workflow-progress"

def steerIDPrefix : List Char := "steer-".toList

def isWorkflowProgress (c : ChunkFrame) : Bool :=
  workflowProgressIDPrefix.isPrefixOf c.messageID.toList || c.notificationKind = workflowProgressKind

def isInternalTool (toolID : String) : Bool := toolID = "fetch_cloud_config"

/-- A replayed steer's origin from its id alone. -/
def projectedSteerOrigin (id : String) : SteerOrigin :=
  if steerIDPrefix.isPrefixOf id.toList then .user else .agent

def compactionEntryID (env : Env) (summary : String) (emptyOrdinal : ℕ) : String :=
  if summary = "" then "compaction-empty-" ++ toString emptyOrdinal
  else "compaction-" ++ env.summaryDigest summary

/-- The outcome of a wire stop reason; one that is not known never becomes a failure. -/
def concludeStopReason (stop : String) : TurnConclusion :=
  if stop = "end_turn" then { rawStop := stop, outcome := .completed }
  else if stop = "cancelled" then { rawStop := stop, outcome := .cancelled }
  else if stop = "interrupted" then { rawStop := stop, outcome := .interrupted }
  else if stop = "error" then { rawStop := stop, outcome := .failed }
  else if stop = "refusal" ∨ stop = "content_filtered" then { rawStop := stop, outcome := .refused }
  else if stop = "max_tokens" ∨ stop = "max_turn_requests" then
    { rawStop := stop, outcome := .completed, truncated := true }
  else { rawStop := stop, outcome := .unknown }

namespace EntryProjection

variable (env : Env) (p : EntryProjection)

/-- A step of the newest turn. -/
def onTurn (f : NewestTurn → NewestTurn) : EntryProjection :=
  { p with toNewestTurn := f p.toNewestTurn }

/-- The newest turn moved into the settled list. -/
def sealCur : EntryProjection :=
  if p.cur = [] then p
  else { p with
    turns := p.turns ++ [{ entries := p.cur, landed := p.landed }]
    cur := []
    curID := "" }

/-- The newest turn settled, and one started from the pending prompt. -/
def openTurn : EntryProjection :=
  let p := (p.onTurn (·.closeTurn env)).sealCur
  let source := if p.prompt.isSome then .prompt else .wireTurnStart
  { p with prompt := none, promptTs := 0 }.onTurn (·.startTurn env source p.prompt p.promptTs)

/-- The turn that an entry lands in: a pending prompt's own, the newest, or a headerless one. -/
def ensureTurn (source : TurnOpenSourceName) : EntryProjection :=
  if p.prompt.isSome then p.openTurn env
  else if p.cur ≠ [] then p
  else p.onTurn (·.startTurn env source none 0)

/-- The accumulated user row settled: a prompt waits for its turn, a steer lands where it is. -/
def flushUser : EntryProjection :=
  match p.user with
  | none => p
  | some row =>
    let p := { p with user := none }
    if row.text = "" then p
    else if row.steer then
      (p.ensureTurn env .event).onTurn fun p =>
        (p.sealLanes.land (.steer row.id)).appendEntry row.id "" row.ts
          (.steer {
            text := row.text
            origin := projectedSteerOrigin row.id
            severity := row.severity })
    else { p with prompt := some { id := row.id, text := row.text }, promptTs := row.ts }

def ingestUserText (c : ChunkFrame) : EntryProjection :=
  if isWorkflowProgress c then p
  else
    let p := match p.user with
      | some row => if c.messageID ≠ "" ∧ c.messageID ≠ row.id then p.flushUser env else p
      | none => p
    let row := p.user.getD {
      id := c.messageID
      ts := c.timestamp
      steer := c.source = replaySteerSource
      severity := c.notificationStatus }
    { p with user := some { row with text := row.text ++ c.text } }

def ingestAgentText (kind : SayKind) (c : ChunkFrame) : EntryProjection :=
  if c.text = "" then p
  else
    ((p.flushUser env).ensureTurn env .wireTurnStart).onTurn fun p =>
      let lane := c.agentSubtaskID
      let say := { p with lane }.sayIDFor env kind lane c.messageID
      (say.2.barrier kind lane say.1).addDelta kind lane say.1 c.timestamp c.text.toList

/-- The payload of a call; an invocation keeps the delegate's uuid. -/
def callPayload (c : CallFrame) (ts : ℤ) : EntryToolCall where
  id := c.toolCallID
  title := c.title
  kind := c.kind
  status := c.status
  agentSubtaskID := if c.metaKind = subagentInvocationKind then c.agentSubtaskID else ""
  terminalID := c.terminalID
  disclosed := c.disclosed
  denial := c.denial
  input := c.input
  locations := c.locations
  diffs := c.diffs
  ts := ts

def ingestToolCall (c : CallFrame) : EntryProjection :=
  if c.toolCallID = "" ∨ isInternalTool c.toolID then p
  else
    ((p.flushUser env).ensureTurn env .wireTurnStart).onTurn fun p =>
      let ts := p.frameTS c.timestamp
      let lane := if c.metaKind = subagentInvocationKind then p.lane else c.agentSubtaskID
      (((p.sealLane lane).land (.call c.toolCallID)).trackCall c.toolCallID lane).appendEntry
        c.toolCallID lane ts (.toolCall (callPayload c ts))

/-- A settling update folded into the result of the call that its create opened. -/
def ingestToolUpdate (u : UpdateFrame) : EntryProjection :=
  if u.toolCallID = "" ∨ ¬ u.status.terminal then p
  else match p.calls u.toolCallID with
    | none => p
    | some lane =>
      p.onTurn fun p =>
        let q := (p.sealLane lane).settleCall u.toolCallID
        q.appendEntry (toolResultID u.toolCallID) lane (q.frameTS u.timestamp)
          (.toolResult {
            title := u.title
            kind := u.kind
            status := u.status
            output := u.output
            terminalID := u.terminalID
            diffs := u.diffs
            locations := u.locations
            checkpoint := u.checkpoint
            disclosed := u.disclosed
            denial := u.denial
            workflowID := u.workflowID })

def noteTurnMetering (summaries : List PromptTurnSummary) (elapsedMs : NumLit) : EntryProjection :=
  let credits := summaries.foldl (fun credits s =>
    if s.unit = "" ∨ s.unit = "credit" then env.addUsage credits s.usage else credits)
    p.facts.credits
  { p with facts := { p.facts with credits, elapsedMs } }

def noteTurnEnd (e : Option TurnEndBlock) : EntryProjection :=
  let conclusion := match e with
    | none => concludeStopReason ""
    | some e => { concludeStopReason e.stopReason with reason := e.details }
  { p with facts := { p.facts with conclusion := some conclusion } }

/-- The compaction entry, at the separator's own position. -/
def applySummary (content : Option String) : EntryProjection :=
  match content, p.compactAt with
  | some summary, some compactAt =>
    let pos := min compactAt p.cur.length
    let emptySummaries := if summary = "" then p.emptySummaries + 1 else p.emptySummaries
    let id := compactionEntryID env summary emptySummaries
    let ts := if 0 < pos then ((p.cur[pos - 1]?).map Entry.ts).getD 0 else 0
    { p with emptySummaries }.onTurn fun p =>
      ({ p with compactAt := none }.land (.compaction id)).insertEntry pos id "" ts
        (.compaction { summary })
  | _, _ => p

/-- One replayed frame folded into the projection. -/
def ingest : Frame → EntryProjection
  | .userText c => p.ingestUserText env c
  | .agentText kind c => p.ingestAgentText env kind c
  | .toolCall c => p.ingestToolCall env c
  | .toolUpdate u => p.ingestToolUpdate u
  -- close, then flush, then open: a steer that arrived inside the old bracket stays there
  | .turnStart => ((p.onTurn (·.closeTurn env)).flushUser env).openTurn env
  | .turnCompletion summaries elapsedMs => p.noteTurnMetering env summaries elapsedMs
  | .turnEnd e => (p.noteTurnEnd e).onTurn (·.closeTurn env)
  | .separator =>
    ((p.flushUser env).ensureTurn env .event).onTurn fun p =>
      let p := p.sealLanes
      { p with compactAt := some p.cur.length }
  | .summary content => p.applySummary env content
  | .ignored => p

/-- The newest turn closed and moved: the projection that `Turns` leaves. -/
def finish : EntryProjection :=
  let p := p.flushUser env
  let p := if p.prompt.isSome then p.openTurn env else p
  (p.onTurn (·.closeTurn env)).sealCur

def replay (frames : List Frame) : EntryProjection := frames.foldl (·.ingest env) {}

end EntryProjection
end Marotte.Projection
