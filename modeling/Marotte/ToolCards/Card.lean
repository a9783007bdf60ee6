import Marotte.ToolCards.Call
import Marotte.Library.Along

/-! # The card of a tool call in flight

The browser's fold of the server's deltas. It folds onto the signal of a mounted card, or onto the
call's own entry where no card is mounted, and keeps the outcome only in a signal.
-/
namespace Marotte.ToolCards

/-- A call as the browser holds it; an absent field is undefined. -/
structure CardCall where
  id : String
  title : String
  kind : ToolKind
  status : ToolStatus
  output : Option String := none
  agentSubtaskID : Option String := none
  workflowID : Option String := none
  terminalID : Option String := none
  checkpoint : Option ToolCheckpoint := none
  disclosed : Option ToolDisclosed := none
  denial : Option ToolDenial := none
  locations : Option (List ToolLocation) := none
  diffs : Option (List ToolDiff) := none
  outputSpans : Option (List TextSpan) := none
  durationMs : Option ℤ := none
  declined : Option Bool := none
  deriving DecidableEq

/-- A progress frame as the browser decodes it. -/
structure ToolProgressPayload where
  title : Option String
  kind : Option ToolKind
  status : Option ToolStatus
  outputDelta : Option String
  outputReplace : Option Bool
  outputSpans : Option (List TextSpan)
  diffsAppended : Option (List ToolDiff)
  locations : Option (List ToolLocation)
  durationMs : Option ℤ
  terminalID : Option String
  agentSubtaskID : Option String
  workflowID : Option String
  checkpoint : Option ToolCheckpoint
  disclosed : Option ToolDisclosed
  denial : Option ToolDenial
  declined : Option Bool

/-- A zero value is left out of the wire. -/
def omitempty {α : Type} [DecidableEq α] (zero x : α) : Option α := if x = zero then none else some x

/-- The call's entry on the wire. -/
def entryToolCallOf (cells : Checkpoints) (tc : ToolCall) : CardCall where
  id := tc.id
  title := tc.title
  kind := tc.kind
  status := tc.status
  output := omitempty "" tc.output
  agentSubtaskID := omitempty "" tc.agentSubtaskID
  workflowID := omitempty "" tc.workflowID
  terminalID := omitempty "" tc.terminalID
  checkpoint := deref cells tc.checkpoint
  disclosed := tc.disclosed
  denial := tc.denial
  locations := omitempty [] tc.locations
  diffs := omitempty [] tc.diffs
  outputSpans := omitempty [] tc.outputSpans
  durationMs := omitempty 0 tc.durationMs
  declined := omitempty false tc.declined

def ToolProgress.wire (p : ToolProgress) : ToolProgressPayload where
  title := omitempty "" p.title
  kind := omitempty .absent p.kind
  status := omitempty .absent p.status
  outputDelta := omitempty "" p.outputDelta
  outputReplace := omitempty false p.outputReplace
  outputSpans := omitempty [] p.outputSpans
  diffsAppended := omitempty [] p.diffsAppended
  locations := omitempty [] p.locations
  durationMs := omitempty 0 p.durationMs
  terminalID := omitempty "" p.terminalID
  agentSubtaskID := omitempty "" p.agentSubtaskID
  workflowID := omitempty "" p.workflowID
  checkpoint := p.checkpoint
  disclosed := p.disclosed
  denial := p.denial
  declined := omitempty false p.declined

/-- The output behind a delta; the replace flag is read first. -/
def foldOutput (prev : Option String) (d : ToolProgressPayload) : Option String :=
  if d.outputReplace = some true then some (d.outputDelta.getD "")
  else match d.outputDelta with
    | none => prev
    | some delta => some (prev.getD "" ++ delta)

def foldDiffs (prev : Option (List ToolDiff)) (d : ToolProgressPayload) :
    Option (List ToolDiff) :=
  match d.diffsAppended with
  | none => prev
  | some diffs => some (prev.getD [] ++ diffs)

def foldToolCallDelta (prev : CardCall) (d : ToolProgressPayload) : CardCall where
  id := prev.id
  title := d.title.getD prev.title
  kind := d.kind.getD prev.kind
  status := d.status.getD prev.status
  output := foldOutput prev.output d
  outputSpans := d.outputSpans.or prev.outputSpans
  diffs := foldDiffs prev.diffs d
  locations := d.locations.or prev.locations
  durationMs := d.durationMs.or prev.durationMs
  terminalID := d.terminalID.or prev.terminalID
  agentSubtaskID := d.agentSubtaskID.or prev.agentSubtaskID
  workflowID := d.workflowID.or prev.workflowID
  checkpoint := d.checkpoint.or prev.checkpoint
  disclosed := d.disclosed.or prev.disclosed
  denial := d.denial.or prev.denial
  declined := if d.declined = some true then some true else prev.declined

/-- What a call in flight and a card agree on. -/
structure CallFacts where
  title : String
  kind : ToolKind
  status : ToolStatus
  output : String
  outputSpans : List TextSpan
  diffs : List ToolDiff
  locations : List ToolLocation
  durationMs : ℤ
  terminalID : String
  agentSubtaskID : String
  workflowID : String
  checkpoint : Option ToolCheckpoint
  disclosed : Option ToolDisclosed
  denial : Option ToolDenial
  declined : Bool
  deriving DecidableEq

def ToolCall.facts (cells : Checkpoints) (tc : ToolCall) : CallFacts where
  title := tc.title
  kind := tc.kind
  status := tc.status
  output := tc.output
  outputSpans := tc.outputSpans
  diffs := tc.diffs
  locations := tc.locations
  durationMs := tc.durationMs
  terminalID := tc.terminalID
  agentSubtaskID := tc.agentSubtaskID
  workflowID := tc.workflowID
  checkpoint := deref cells tc.checkpoint
  disclosed := tc.disclosed
  denial := tc.denial
  declined := tc.declined

def CardCall.facts (c : CardCall) : CallFacts where
  title := c.title
  kind := c.kind
  status := c.status
  output := c.output.getD ""
  outputSpans := c.outputSpans.getD []
  diffs := c.diffs.getD []
  locations := c.locations.getD []
  durationMs := c.durationMs.getD 0
  terminalID := c.terminalID.getD ""
  agentSubtaskID := c.agentSubtaskID.getD ""
  workflowID := c.workflowID.getD ""
  checkpoint := c.checkpoint
  disclosed := c.disclosed
  denial := c.denial
  declined := c.declined.getD false

/-- A call that is kept until it settles. -/
structure OpenCall where
  call : ToolCall
  startedTs : ℤ

/-- The server's call with what its pointers point to, and the browser's entry of it with the
signal of its card. -/
structure CardState where
  cells : Checkpoints
  inFlight : Option OpenCall
  entry : CardCall
  sig : Option CardCall := none

inductive CardEvent where
  | update (m : Moment) (tu : ToolCallUpdateWire)
  | mount
  | unmount

namespace CardState

/-- The entry has been received, and no card is mounted. -/
def created (env : Cleaning) (startedTs : ℤ) (tc : ToolCallWire) : CardState where
  cells := []
  inFlight := some ⟨toolCallFromWire env tc, startedTs⟩
  entry := entryToolCallOf [] (toolCallFromWire env tc)

variable (s : CardState)

/-- The value a delta is folded onto, which a card mounted now shows. -/
def shown : CardCall := s.sig.getD s.entry

/-- A frame of a run's log is not the chat's; without a signal the outcome is dropped. -/
def applyToolProgress (d : ToolProgressPayload) : Option CardCall :=
  if (d.workflowID.getD "") ≠ "" then s.sig
  else s.sig.map fun _ => foldToolCallDelta s.shown d

/-- The run that a step's frames are scoped to overwrites the delta's run; it is empty for a
chat. -/
def handleToolCallUpdate (env : Cleaning) (runID : String) (m : Moment) (tu : ToolCallUpdateWire) :
    CardState :=
  match s.inFlight with
  | none => s
  | some kept =>
    let folded := applyToolCallUpdate env m tu kept.startedTs s.cells kept.call
    if folded.2.status.terminal then
      { s with cells := folded.1, inFlight := if m.appended then none else some kept }
    else
      let p := { toolProgress folded.1 kept.call folded.2 with workflowID := runID }
      { s with
        cells := folded.1
        inFlight := some { kept with call := folded.2 }
        sig := s.applyToolProgress p.wire }

def step (env : Cleaning) (runID : String) (s : CardState) : CardEvent → CardState
  | .update m tu => s.handleToolCallUpdate env runID m tu
  | .mount => { s with sig := some s.shown }
  | .unmount => { s with sig := none }

/-- The card shows the call in flight. -/
def Agrees : Prop := ∀ kept ∈ s.inFlight, s.shown.facts = kept.call.facts s.cells

instance : Decidable s.Agrees := inferInstanceAs (Decidable (∀ kept ∈ s.inFlight, _ = _))

end CardState
end Marotte.ToolCards
