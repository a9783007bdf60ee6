import Marotte.Entry.Json
import Mathlib.Data.Int.Notation

/-! # Entries of a turn log

The seventeen entry kinds with their payloads, as the chat log and the run log
hold them. A payload is a value of its kind, so an entry whose payload does not
match its kind cannot be built; the line codec below is what turns it into bytes.
-/
namespace Marotte

inductive EntryKind where
  | turnOpen | turnBind | text | thinking | toolCall | toolResult | steer | steerAck | plan
  | compaction | compactionFailed | safetyBlocked | modelSwitched | modeSwitched | turnRevert
  | reconciled | turnClose
  deriving DecidableEq, Repr

/-- What opened a turn. `event` and `revert` are the two names no live source maps onto. -/
inductive TurnOpenSourceName where
  | prompt | localShell | wireTurnStart | emptyRetry | event | revert | workflowStep
  deriving DecidableEq, Repr

/-- A tool call's state; `absent` is the empty string a payload without one decodes to. -/
inductive ToolStatus where
  | absent | pending | inProgress | completed | failed | aborted
  deriving DecidableEq, Repr

/-- Whether nothing can still change the status. -/
def ToolStatus.terminal : ToolStatus → Bool
  | .completed | .failed | .aborted => true
  | .absent | .pending | .inProgress => false

inductive ToolKind where
  | absent | execute | shell | read | search | fetch | edit | think | hook | write | delete
  | move | command | browser | switchMode | mcp | other
  deriving DecidableEq, Repr

inductive SteerOrigin where
  | user | agent
  deriving DecidableEq, Repr

/-- Whether the model read a steer; `absent` says it is not known. -/
inductive SteerState where
  | absent | read | dropped
  deriving DecidableEq, Repr

inductive SteerReason where
  | absent | restart | boundary | deleted
  deriving DecidableEq, Repr

/-- How a turn ended; `absent` is the empty string a payload without one decodes to. -/
inductive TurnOutcome where
  | absent | running | completed | cancelled | interrupted | failed | refused | unknown | empty
  deriving DecidableEq, Repr

inductive PlanStatus where
  | pending | inProgress | completed
  deriving DecidableEq, Repr

inductive TurnRevertCause where
  | rewind
  deriving DecidableEq, Repr

inductive ModeSwitchSource where
  | user | agent
  deriving DecidableEq, Repr

/-- The stop reason of a closer no process wrote: the reconcile signal of a crash. -/
def stopReasonUnterminated : String := "unterminated"

structure Attachment where
  path : String
  name : String
  deriving DecidableEq, Repr

structure EntryPrompt where
  id : String
  text : String
  attachments : List Attachment := []
  resends : List String := []
  deriving DecidableEq, Repr

structure EntryTurnOpen where
  prompt : Option EntryPrompt := none
  source : TurnOpenSourceName
  run : String := ""
  nodePath : String := ""
  sessionID : String := ""
  n : ℕ
  deriving DecidableEq, Repr

structure EntryTurnBind where
  kasMessageID : String
  sessionID : String
  deriving DecidableEq, Repr

structure EntryText where
  text : String
  deriving DecidableEq, Repr

structure EntryThinking where
  text : String
  deriving DecidableEq, Repr

structure ToolCheckpoint where
  original : String
  modified : String
  localURI : String
  deriving DecidableEq, Repr

structure ToolDisclosed where
  type : String
  displayName : String
  uri : String
  deriving DecidableEq, Repr

structure ToolDenialRule where
  capability : String
  effect : String
  matchPatterns : List String
  exclude : List String
  deriving DecidableEq, Repr

structure ToolDenial where
  rule : Option ToolDenialRule
  capability : String
  resource : String
  scope : String
  source : String
  deriving DecidableEq, Repr

/-- What the store dropped to bound a call: the original sizes. -/
structure ToolTruncation where
  outputBytes : ℕ := 0
  inputBytes : ℕ := 0
  diffBytes : ℕ := 0
  diffCount : ℕ := 0
  deriving DecidableEq, Repr

structure ToolLocation where
  path : String
  line : ℤ
  deriving DecidableEq, Repr

structure ToolDiff where
  path : String
  oldText : String
  newText : String
  deriving DecidableEq, Repr

structure TextSpan where
  start : ℤ
  stop : ℤ
  fg : ℤ
  bg : ℤ
  attrs : ℕ
  deriving DecidableEq, Repr

/-- A tool call as created; `agentSubtaskID` is the delegate uuid of an invocation. -/
structure EntryToolCall where
  id : String
  title : String := ""
  kind : ToolKind := .absent
  status : ToolStatus := .absent
  output : String := ""
  agentSubtaskID : String := ""
  workflowID : String := ""
  terminalID : String := ""
  checkpoint : Option ToolCheckpoint := none
  disclosed : Option ToolDisclosed := none
  denial : Option ToolDenial := none
  truncated : Option ToolTruncation := none
  input : Option Json := none
  locations : List ToolLocation := []
  diffs : List ToolDiff := []
  outputSpans : List TextSpan := []
  ts : ℤ := 0
  durationMs : ℤ := 0
  outputBytes : ℤ := 0
  hasFull : Bool := false
  declined : Bool := false
  deriving DecidableEq, Repr

/-- The settled value of one tool call. -/
structure EntryToolResult where
  checkpoint : Option ToolCheckpoint := none
  disclosed : Option ToolDisclosed := none
  denial : Option ToolDenial := none
  truncated : Option ToolTruncation := none
  title : String := ""
  kind : ToolKind := .absent
  status : ToolStatus := .absent
  output : String := ""
  terminalID : String := ""
  workflowID : String := ""
  outputSpans : List TextSpan := []
  diffs : List ToolDiff := []
  locations : List ToolLocation := []
  durationMs : ℤ := 0
  outputBytes : ℤ := 0
  hasFull : Bool := false
  declined : Bool := false
  deriving DecidableEq, Repr

structure EntrySteer where
  text : String
  origin : SteerOrigin
  state : SteerState := .absent
  reason : SteerReason := .absent
  severity : String := ""
  originRun : String := ""
  resends : List String := []
  producedTs : ℤ := 0
  deriving DecidableEq, Repr

structure EntrySteerAck where
  steerID : String
  text : String
  deriving DecidableEq, Repr

structure PlanEntry where
  content : String
  priority : String
  status : PlanStatus
  deriving DecidableEq, Repr

structure EntryPlan where
  entries : List PlanEntry
  deriving DecidableEq, Repr

structure EntryCompaction where
  summary : String
  deriving DecidableEq, Repr

structure EntryCompactionFailed where
  reason : String
  deriving DecidableEq, Repr

structure EntrySafetyBlocked where
  properties : List String
  deriving DecidableEq, Repr

structure EntryModelSwitched where
  fromModel : String
  toModel : String
  effort : String := ""
  deriving DecidableEq, Repr

structure EntryModeSwitched where
  fromMode : String
  toMode : String
  source : ModeSwitchSource
  deriving DecidableEq, Repr

/-- The record of a rewind: the window from `fromTurn` through `through`, both stated. -/
structure EntryTurnRevert where
  fromTurn : String
  through : String
  kasMessageID : String := ""
  cause : TurnRevertCause := .rewind
  fromN : ℕ := 0
  deriving DecidableEq, Repr

/-- That a merge looked at one signal and had nothing to add: a turn's, or a session's. -/
structure EntryReconciled where
  turn : String := ""
  session : String := ""
  deriving DecidableEq, Repr

structure FileChange where
  linesAdded : ℤ
  linesRemoved : ℤ
  isNewFile : Bool
  deriving DecidableEq, Repr

structure RefusalInfo where
  category : String
  explanation : String
  recommendedModel : String
  deriving DecidableEq, Repr

structure CodeReference where
  licenseName : String
  repository : String
  url : String
  deriving DecidableEq, Repr

/-- How a turn ended, with its footer. The two amounts are carried, never computed on here. -/
structure EntryTurnClose where
  changedFiles : List (String × FileChange) := []
  refusal : Option RefusalInfo := none
  outcome : TurnOutcome
  stopReasonRaw : String := ""
  failureReason : String := ""
  model : String := ""
  codeReferences : List CodeReference := []
  credits : NumLit := .zero
  elapsedMs : NumLit := .zero
  truncated : Bool := false
  deriving DecidableEq, Repr

/-- One payload of its kind. -/
inductive Payload where
  | turnOpen (p : EntryTurnOpen)
  | turnBind (p : EntryTurnBind)
  | text (p : EntryText)
  | thinking (p : EntryThinking)
  | toolCall (p : EntryToolCall)
  | toolResult (p : EntryToolResult)
  | steer (p : EntrySteer)
  | steerAck (p : EntrySteerAck)
  | plan (p : EntryPlan)
  | compaction (p : EntryCompaction)
  | compactionFailed (p : EntryCompactionFailed)
  | safetyBlocked (p : EntrySafetyBlocked)
  | modelSwitched (p : EntryModelSwitched)
  | modeSwitched (p : EntryModeSwitched)
  | turnRevert (p : EntryTurnRevert)
  | reconciled (p : EntryReconciled)
  | turnClose (p : EntryTurnClose)
  deriving DecidableEq, Repr

def Payload.kind : Payload → EntryKind
  | .turnOpen _ => .turnOpen
  | .turnBind _ => .turnBind
  | .text _ => .text
  | .thinking _ => .thinking
  | .toolCall _ => .toolCall
  | .toolResult _ => .toolResult
  | .steer _ => .steer
  | .steerAck _ => .steerAck
  | .plan _ => .plan
  | .compaction _ => .compaction
  | .compactionFailed _ => .compactionFailed
  | .safetyBlocked _ => .safetyBlocked
  | .modelSwitched _ => .modelSwitched
  | .modeSwitched _ => .modeSwitched
  | .turnRevert _ => .turnRevert
  | .reconciled _ => .reconciled
  | .turnClose _ => .turnClose

/-- One sealed row of a turn's log: the envelope and its payload. -/
structure Entry where
  id : String
  turn : String
  lane : String := ""
  payload : Payload
  seq : ℕ := 0
  ts : ℤ := 0
  deriving DecidableEq, Repr

def Entry.kind (e : Entry) : EntryKind := e.payload.kind

theorem Entry.kind_of_payload {e : Entry} {p : Payload} (h : e.payload = p) : e.kind = p.kind :=
  congrArg Payload.kind h

theorem Entry.kind_eq_turnOpen {e : Entry} : e.kind = .turnOpen ↔ ∃ p, e.payload = .turnOpen p := by
  cases hp : e.payload <;> simp [Entry.kind, hp, Payload.kind]

theorem Entry.kind_eq_turnRevert {e : Entry} :
    e.kind = .turnRevert ↔ ∃ p, e.payload = .turnRevert p := by
  cases hp : e.payload <;> simp [Entry.kind, hp, Payload.kind]

/-- The tool_result entry id for a tool_call entry: `<call>:result`. -/
def toolResultID (callID : String) : String := callID ++ ":result"

theorem toolResultID_injective : Function.Injective toolResultID := by
  intro a b h
  simpa [toolResultID] using h

/-- The steer_ack entry id for a steer: `<steer>:ack`. -/
def steerAckID (steerID : String) : String := steerID ++ ":ack"

/-- The id of the k-th segment of a say a seal split: `<say>#k`. -/
def saySegmentID (say : String) (k : ℕ) : String := say ++ "#" ++ toString k

/-- Strip `#` and the digits after it, at least one, off a reversed entry id. -/
def stripSegment : List Char → Bool → Option (List Char)
  | [], _ => none
  | c :: cs, digits =>
    if c = '#' then (if digits then some cs else none)
    else if c.isDigit then stripSegment cs true
    else none

/-- The say a text entry id belongs to: the id with a `#k` suffix removed. -/
def sayIDOf (entryID : String) : String :=
  match stripSegment entryID.toList.reverse false with
  | some cs => String.ofList cs.reverse
  | none => entryID

/-- A line codec: how an entry becomes the bytes of its line, without the newline. The two
laws are those of the JSON encoder on entries: a written line reads back as the entry it
was written from, and compact JSON holds no raw newline. -/
structure LineCodec where
  marshal : Entry → List UInt8
  unmarshal : List UInt8 → Option Entry
  unmarshal_marshal : ∀ e, unmarshal (marshal e) = some e
  newline_notMem : ∀ e, (10 : UInt8) ∉ marshal e

end Marotte
