import Marotte.Entry.Types
import Marotte.EntryLog.Index

/-! # A tool call in flight

The server's fold of a tool call's updates, and the delta of one fold that it broadcasts. The fold
works on a copy of the call it keeps; both point to one checkpoint, which is written in place.
-/
namespace Marotte.ToolCards

/-- The checkpoints that pointers point to, by address. -/
abbrev Checkpoints := List ToolCheckpoint

/-- The fields of a call that a fold reads or writes. -/
structure ToolCall where
  id : String
  title : String
  kind : ToolKind
  status : ToolStatus
  output : String := ""
  agentSubtaskID : String := ""
  workflowID : String := ""
  terminalID : String := ""
  checkpoint : Option ℕ := none
  disclosed : Option ToolDisclosed := none
  denial : Option ToolDenial := none
  locations : List ToolLocation := []
  diffs : List ToolDiff := []
  outputSpans : List TextSpan := []
  durationMs : ℤ := 0
  declined : Bool := false
  deriving DecidableEq

/-- What the readers of a tool's raw output tell apart; `absent` is everything else. -/
inductive RawOutput where
  | absent
  | text (s : String)
  | object (workflowID error message : String) (updated : Option Bool)
  deriving DecidableEq

/-- An update's parsed content blocks; `copiesRawOutput` says that the text encodes the same object
of several fields as the raw output. -/
structure ToolUpdateContent where
  output : String := ""
  terminalID : String := ""
  diffs : List ToolDiff := []
  copiesRawOutput : Bool := false
  deriving DecidableEq

/-- A create frame, its kind and status normalised. -/
structure ToolCallWire where
  toolCallID : String
  title : String
  kind : ToolKind
  status : ToolStatus
  agentSubtaskID : String := ""
  locations : List ToolLocation := []
  content : ToolUpdateContent := {}
  disclosedContext : Option ToolDisclosed := none
  policyDenial : Option ToolDenial := none

/-- An update frame, its kind and status normalised where present. -/
structure ToolCallUpdateWire where
  title : String := ""
  kind : ToolKind := .absent
  status : ToolStatus := .absent
  rawOutput : RawOutput := .absent
  locations : List ToolLocation := []
  content : ToolUpdateContent := {}
  checkpoint : Option ToolCheckpoint := none
  disclosedContext : Option ToolDisclosed := none
  policyDenial : Option ToolDenial := none

/-- How upstream text is cleaned, for a line of display and for output. -/
structure Cleaning where
  displayText : String → String
  sanitize : String → String

/-- What a fold meets: the clock, the terminals' output, and whether the log takes a result. -/
structure Moment where
  now : ℤ := 0
  terminals : String → Option (String × List TextSpan) := fun _ => none
  appended : Bool := true

def toolCallFromWire (env : Cleaning) (tc : ToolCallWire) : ToolCall where
  id := tc.toolCallID
  title := env.displayText tc.title
  kind := tc.kind
  status := tc.status
  agentSubtaskID := tc.agentSubtaskID
  terminalID := tc.content.terminalID
  locations := tc.locations
  diffs := tc.content.diffs
  disclosed := tc.disclosedContext
  denial := tc.policyDenial

/-! ## Reading the raw output -/

def trimSpace (s : String) : String :=
  let front := s.toList.dropWhile isSpace
  String.ofList (front.reverse.dropWhile isSpace).reverse

def rawOutputString : RawOutput → String
  | .text s => trimSpace s
  | _ => ""

def rawOutputFailureText (raw : RawOutput) : String :=
  if rawOutputString raw ≠ "" then rawOutputString raw
  else match raw with
    | .object _ error message _ => if error ≠ "" then trimSpace error else trimSpace message
    | _ => ""

def rawOutputWorkflowID : RawOutput → String
  | .object workflowID _ _ _ => workflowID
  | _ => ""

/-- A workflow update's own verdict. -/
def rawOutputUpdate : RawOutput → Option Bool
  | .object _ _ _ updated => updated
  | _ => none

def stringifiedRawOutputMessage (raw : RawOutput) (content : ToolUpdateContent) : String :=
  match raw with
  | .object _ _ message _ => if content.copiesRawOutput then trimSpace message else ""
  | _ => ""

/-! ## The fold -/

section Fold

variable (env : Cleaning) (m : Moment) (tu : ToolCallUpdateWire)

def toolCallContentOutput : String :=
  if tu.content.output = "" then ""
  else
    let message := stringifiedRawOutputMessage tu.rawOutput tu.content
    if message ≠ "" then env.sanitize message ++ "\n" else tu.content.output

def applyToolCallTitleAndKind (tc : ToolCall) : ToolCall :=
  { tc with
    title := if tu.title ≠ "" then env.displayText tu.title else tc.title
    kind := if tu.kind ≠ .absent then tu.kind else tc.kind }

def applyTerminalID (tc : ToolCall) : ToolCall :=
  { tc with
    terminalID :=
      if tc.terminalID = "" ∧ tu.content.terminalID ≠ "" then tu.content.terminalID
      else tc.terminalID }

/-- At completion a terminal's whole output wins over the fragments on the card. -/
def adoptTerminalOutput (tc : ToolCall) : ToolCall :=
  if tc.terminalID = "" then tc
  else match m.terminals tc.terminalID with
    | some (text, spans) => if text = "" then tc else { tc with output := text, outputSpans := spans }
    | none => tc

def applyToolCallStatus (startedTs : ℤ) (tc : ToolCall) : ToolCall :=
  if tu.status = .absent then tc
  else
    let tc := { tc with status := tu.status }
    if tu.status ≠ .completed ∧ tu.status ≠ .failed then tc
    else
      adoptTerminalOutput m { tc with
        durationMs := if tc.durationMs = 0 ∧ 0 < startedTs then m.now - startedTs else tc.durationMs }

def applyToolCallOutput (tc : ToolCall) : ToolCall :=
  { tc with
    output :=
      let output := tc.output ++ toolCallContentOutput env tu
      let text :=
        if rawOutputString tu.rawOutput = "" ∧ tc.status = .failed then
          rawOutputFailureText tu.rawOutput
        else rawOutputString tu.rawOutput
      if output ≠ "" then output else if text ≠ "" then env.sanitize text else output }

def applyLocations (tc : ToolCall) : ToolCall :=
  { tc with locations := if tu.locations ≠ [] then tu.locations else tc.locations }

def applyToolCallDiffs (tc : ToolCall) : ToolCall :=
  { tc with diffs := tc.diffs ++ tu.content.diffs }

/-- A workflow update that was refused marks the completed call. -/
def applyUpdateRefusal (tc : ToolCall) : ToolCall :=
  if tc.status ≠ .completed then tc
  else { tc with declined := tc.declined || decide (rawOutputUpdate tu.rawOutput = some false) }

def applyWorkflowID (tc : ToolCall) : ToolCall :=
  { tc with
    workflowID :=
      if tc.workflowID = "" ∧ rawOutputUpdate tu.rawOutput = none then
        rawOutputWorkflowID tu.rawOutput
      else tc.workflowID }

/-- The parts that a frame supplies, over those held. -/
def fillCheckpoint (held c : ToolCheckpoint) : ToolCheckpoint where
  original := if c.original ≠ "" then c.original else held.original
  modified := if c.modified ≠ "" then c.modified else held.modified
  localURI := if c.localURI ≠ "" then c.localURI else held.localURI

def noCheckpoint : ToolCheckpoint := ⟨"", "", ""⟩

/-- A call's first checkpoint is allocated; later parts are written where it points. -/
def mergeCheckpoint (cells : Checkpoints) (tc : ToolCall) : Checkpoints × ToolCall :=
  match tu.checkpoint with
  | none => (cells, tc)
  | some c =>
    if c = noCheckpoint then (cells, tc)
    else match tc.checkpoint with
      | none =>
        (cells ++ [fillCheckpoint noCheckpoint c], { tc with checkpoint := some cells.length })
      | some a => (cells.modify a (fillCheckpoint · c), tc)

def mergeToolMeta (tc : ToolCall) : ToolCall :=
  { tc with
    disclosed := tc.disclosed.or tu.disclosedContext
    denial := tc.denial.or tu.policyDenial }

def applyToolCallUpdate (startedTs : ℤ) (cells : Checkpoints) (tc : ToolCall) :
    Checkpoints × ToolCall :=
  let tc := applyTerminalID tu (applyToolCallTitleAndKind env tu tc)
  let tc := applyToolCallOutput env tu (applyToolCallStatus m tu startedTs tc)
  let tc := applyToolCallDiffs tu (applyLocations tu tc)
  let tc := applyWorkflowID tu (applyUpdateRefusal tu tc)
  let merged := mergeCheckpoint tu cells tc
  (merged.1, mergeToolMeta tu merged.2)

end Fold

/-! ## The delta of one fold -/

/-- A progress frame as built: a zero field is left out of it on the wire. -/
structure ToolProgress where
  title : String := ""
  kind : ToolKind := .absent
  status : ToolStatus := .absent
  outputDelta : String := ""
  outputReplace : Bool := false
  outputSpans : List TextSpan := []
  diffsAppended : List ToolDiff := []
  locations : List ToolLocation := []
  durationMs : ℤ := 0
  terminalID : String := ""
  agentSubtaskID : String := ""
  workflowID : String := ""
  checkpoint : Option ToolCheckpoint := none
  disclosed : Option ToolDisclosed := none
  denial : Option ToolDenial := none
  declined : Bool := false

/-- The appended tail, or the whole new output when it does not extend the old. -/
def outputDelta (before after : String) : String × Bool :=
  if after = before then ("", false)
  else if before.toList.isPrefixOf after.toList then
    (String.ofList (after.toList.drop before.toList.length), false)
  else (after, true)

/-- The checkpoint that a pointer points to. -/
def deref (cells : Checkpoints) (checkpoint : Option ℕ) : Option ToolCheckpoint :=
  checkpoint.bind (cells[·]?)

def derefCheckpoint (cells : Checkpoints) (checkpoint : Option ℕ) : ToolCheckpoint :=
  (deref cells checkpoint).getD noCheckpoint

def changed {α : Type} [DecidableEq α] (before after zero : α) : α :=
  if after ≠ before then after else zero

/-- What one fold changed; both pointers are followed once the fold is done. -/
def toolProgress (cells : Checkpoints) (before after : ToolCall) : ToolProgress where
  title := changed before.title after.title ""
  kind := changed before.kind after.kind .absent
  status := changed before.status after.status .absent
  durationMs := changed before.durationMs after.durationMs 0
  outputDelta := (outputDelta before.output after.output).1
  outputReplace := (outputDelta before.output after.output).2
  outputSpans := changed before.outputSpans after.outputSpans []
  diffsAppended :=
    if before.diffs.length < after.diffs.length then after.diffs.drop before.diffs.length else []
  locations := changed before.locations after.locations []
  terminalID := changed before.terminalID after.terminalID ""
  agentSubtaskID := changed before.agentSubtaskID after.agentSubtaskID ""
  workflowID := changed before.workflowID after.workflowID ""
  checkpoint :=
    if after.checkpoint.isSome ∧
        derefCheckpoint cells after.checkpoint ≠ derefCheckpoint cells before.checkpoint then
      deref cells after.checkpoint
    else none
  disclosed := if before.disclosed = none then after.disclosed else none
  denial := if before.denial = none then after.denial else none
  declined := after.declined && !before.declined

end Marotte.ToolCards
