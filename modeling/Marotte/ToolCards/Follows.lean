import Marotte.ToolCards.Card

/-! # When the card shows the call in flight

A delta reaches the card if it is a mounted chat card's and what changed is sent: no title that is
blank as displayed, no adopted run, no further part of a checkpoint already held.
-/
namespace Marotte.ToolCards

variable {env : Cleaning} {m : Moment} {tu : ToolCallUpdateWire} {startedTs : ℤ}
  {cells : Checkpoints} {tc : ToolCall}

/-! ## When an update is carried -/

/-- The status that an update leaves. -/
def nextStatus (tu : ToolCallUpdateWire) (tc : ToolCall) : ToolStatus :=
  if tu.status = .absent then tc.status else tu.status

/-- A title that is blank as displayed finds a blank one. -/
def TitleCarried (env : Cleaning) (tu : ToolCallUpdateWire) (tc : ToolCall) : Prop :=
  tu.title = "" ∨ env.displayText tu.title ≠ "" ∨ tc.title = ""

/-- No run is adopted. -/
def WorkflowCarried (tu : ToolCallUpdateWire) (tc : ToolCall) : Prop :=
  tc.workflowID ≠ "" ∨ rawOutputUpdate tu.rawOutput ≠ none ∨ rawOutputWorkflowID tu.rawOutput = ""

/-- A checkpoint that is held gets no new part. -/
def CheckpointCarried (tu : ToolCallUpdateWire) (cells : Checkpoints) (tc : ToolCall) : Prop :=
  ∀ held ∈ deref cells tc.checkpoint, ∀ c ∈ tu.checkpoint, fillCheckpoint held c = held

structure Carried (env : Cleaning) (tu : ToolCallUpdateWire) (cells : Checkpoints)
    (tc : ToolCall) : Prop where
  title : TitleCarried env tu tc
  workflow : WorkflowCarried tu tc
  checkpoint : CheckpointCarried tu cells tc

/-- An update that says of the call in flight what it is. -/
structure Restates (env : Cleaning) (tu : ToolCallUpdateWire) (cells : Checkpoints)
    (tc : ToolCall) : Prop where
  title : tu.title = "" ∨ env.displayText tu.title = tc.title
  kind : tu.kind = .absent ∨ tu.kind = tc.kind
  status : tu.status = .absent ∨ tu.status = tc.status
  content : toolCallContentOutput env tu = ""
  raw : tc.output ≠ "" ∨ rawOutputString tu.rawOutput = "" ∨
    env.sanitize (rawOutputString tu.rawOutput) = ""
  locations : tu.locations = [] ∨ tu.locations = tc.locations
  diffs : tu.content.diffs = []
  terminalID : tc.terminalID ≠ "" ∨ tu.content.terminalID = ""
  workflow : WorkflowCarried tu tc
  checkpoint : CheckpointCarried tu cells tc
  noCheckpoint : tc.checkpoint = none → ∀ c ∈ tu.checkpoint, c = noCheckpoint
  disclosed : tc.disclosed ≠ none ∨ tu.disclosedContext = none
  denial : tc.denial ≠ none ∨ tu.policyDenial = none

/-- A pointer points to a checkpoint. -/
def Pointed (cells : Checkpoints) (tc : ToolCall) : Prop := ∀ a ∈ tc.checkpoint, a < cells.length

/-! ## The checkpoint -/

@[simp] theorem fill_none (held : ToolCheckpoint) : fillCheckpoint held noCheckpoint = held := rfl

theorem fill_of_none {c : ToolCheckpoint} : fillCheckpoint noCheckpoint c = c := by
  have hpart : ∀ part : String, (if part ≠ "" then part else "") = part := by
    intro part
    rw [ite_not, ite_eq_right_iff]
    exact Eq.symm
  rw [fillCheckpoint, noCheckpoint, hpart, hpart, hpart]

theorem mergeCheckpoint_eq : (mergeCheckpoint tu cells tc).2 =
    { tc with checkpoint := (mergeCheckpoint tu cells tc).2.checkpoint } := by
  rw [mergeCheckpoint]
  split
  · rfl
  · split
    · rfl
    · split
      · rfl
      · rfl

/-- The pointers alone decide what a merge writes. -/
theorem mergeCheckpoint_congr {tc' : ToolCall} (h : tc'.checkpoint = tc.checkpoint) :
    (mergeCheckpoint tu cells tc').1 = (mergeCheckpoint tu cells tc).1 ∧
      (mergeCheckpoint tu cells tc').2.checkpoint = (mergeCheckpoint tu cells tc).2.checkpoint := by
  rw [mergeCheckpoint, mergeCheckpoint, h]
  split
  · exact ⟨rfl, h⟩
  · split
    · exact ⟨rfl, h⟩
    · split
      · exact ⟨rfl, rfl⟩
      · exact ⟨rfl, h⟩

/-- What a merge leaves: nothing new, a first checkpoint in a new cell, or a part written where the
old one is. -/
theorem mergeCheckpoint_cases (tu : ToolCallUpdateWire) (hpointed : Pointed cells tc) :
    ((∀ c ∈ tu.checkpoint, c = noCheckpoint) ∧ mergeCheckpoint tu cells tc = (cells, tc)) ∨
    (∃ c ∈ tu.checkpoint, c ≠ noCheckpoint ∧ tc.checkpoint = none ∧
      mergeCheckpoint tu cells tc = (cells ++ [c], { tc with checkpoint := some cells.length })) ∨
    ∃ c ∈ tu.checkpoint, c ≠ noCheckpoint ∧ ∃ a, tc.checkpoint = some a ∧ ∃ held,
      cells[a]? = some held ∧
      mergeCheckpoint tu cells tc = (cells.modify a (fillCheckpoint · c), tc) := by
  rw [mergeCheckpoint]
  split
  · next hnone =>
    left
    simp [hnone]
  next c hc =>
  split
  · next hempty =>
    left
    rw [hc]
    refine ⟨?_, rfl⟩
    intro c' hc'
    cases hc'
    exact hempty
  next hfull =>
  right
  split
  · next hnone =>
    left
    refine ⟨c, hc, hfull, hnone, ?_⟩
    rw [fill_of_none]
  · next a ha =>
    right
    have hlt := hpointed a ha
    exact ⟨c, hc, hfull, a, ha, cells[a], List.getElem?_eq_getElem hlt, rfl⟩

theorem pointed_merge (hpointed : Pointed cells tc) :
    Pointed (mergeCheckpoint tu cells tc).1 (mergeCheckpoint tu cells tc).2 ∧
      Pointed (mergeCheckpoint tu cells tc).1 tc := by
  rcases mergeCheckpoint_cases tu hpointed with
    ⟨-, heq⟩ | ⟨c, -, -, hnone, heq⟩ | ⟨c, -, -, a, -, held, -, heq⟩
  · rw [heq]
    exact ⟨hpointed, hpointed⟩
  · rw [heq]
    constructor
    · rintro a ⟨⟩
      simp
    · intro a ha
      rw [hnone] at ha
      cases ha
  · rw [heq]
    have hsame : Pointed (cells.modify a (fillCheckpoint · c)) tc := by
      intro b hb
      rw [List.length_modify]
      exact hpointed b hb
    exact ⟨hsame, hsame⟩

/-- What the kept copy's pointer points to behind a merge into the working copy. -/
theorem deref_kept_iff (hpointed : Pointed cells tc) :
    deref (mergeCheckpoint tu cells tc).1 tc.checkpoint = deref cells tc.checkpoint ↔
      CheckpointCarried tu cells tc := by
  rcases mergeCheckpoint_cases tu hpointed with
    ⟨hempty, heq⟩ | ⟨c, -, -, hnone, heq⟩ | ⟨c, hc, -, a, ha, held, hheld, heq⟩
  · rw [heq]
    simp only [true_iff]
    intro held _ c hc
    rw [hempty c hc, fill_none]
  · rw [heq, CheckpointCarried, hnone]
    simp [deref]
  · rw [heq, CheckpointCarried, ha, hc]
    simp [deref, hheld, List.getElem?_modify]

theorem deref_merge (hpointed : Pointed cells tc) :
    deref (mergeCheckpoint tu cells tc).1 (mergeCheckpoint tu cells tc).2.checkpoint =
        deref cells tc.checkpoint ↔
      CheckpointCarried tu cells tc ∧
        (tc.checkpoint = none → ∀ c ∈ tu.checkpoint, c = noCheckpoint) := by
  rcases mergeCheckpoint_cases tu hpointed with
    ⟨hempty, heq⟩ | ⟨c, hc, hfull, hnone, heq⟩ | ⟨c, hc, -, a, ha, held, hheld, heq⟩
  · rw [heq]
    simp only [true_iff]
    refine ⟨?_, fun _ => hempty⟩
    intro held _ c hc
    rw [hempty c hc, fill_none]
  · rw [heq, hnone, hc]
    simp [deref, hfull]
  · rw [heq, CheckpointCarried, ha, hc]
    simp [deref, hheld, List.getElem?_modify]

/-- A first checkpoint is sent, a part of one already held is not. -/
theorem checkpoint_carried_iff (hpointed : Pointed cells tc) {after : ToolCall}
    (hafter : after.checkpoint = (mergeCheckpoint tu cells tc).2.checkpoint) :
    (toolProgress (mergeCheckpoint tu cells tc).1 tc after).checkpoint.or
        (deref cells tc.checkpoint) =
      deref (mergeCheckpoint tu cells tc).1 after.checkpoint ↔ CheckpointCarried tu cells tc := by
  rcases mergeCheckpoint_cases tu hpointed with
    ⟨hempty, heq⟩ | ⟨c, hc, hfull, hnone, heq⟩ | ⟨c, hc, -, a, ha, held, hheld, heq⟩
  · rw [heq] at hafter ⊢
    have hcarried : CheckpointCarried tu cells tc := by
      intro held _ c hc
      rw [hempty c hc, fill_none]
    simp [toolProgress, hafter, hcarried]
  · rw [heq] at hafter ⊢
    have hcarried : CheckpointCarried tu cells tc := by
      simp [CheckpointCarried, hnone, deref]
    simp [toolProgress, hafter, hnone, derefCheckpoint, deref, hfull, hcarried]
  · rw [heq] at hafter ⊢
    simp only [toolProgress, hafter, ne_eq, not_true_eq_false, and_false, if_false, Option.none_or]
    rw [CheckpointCarried, ha, hc]
    simp [deref, hheld, List.getElem?_modify, eq_comm]

/-! ## The working copy -/

theorem adoptTerminalOutput_status : (adoptTerminalOutput m tc).status = tc.status := by
  rw [adoptTerminalOutput]
  split
  · rfl
  · split
    · split
      · rfl
      · rfl
    · rfl

theorem adoptTerminalOutput_checkpoint : (adoptTerminalOutput m tc).checkpoint = tc.checkpoint := by
  rw [adoptTerminalOutput]
  split
  · rfl
  · split
    · split
      · rfl
      · rfl
    · rfl

theorem applyToolCallStatus_status :
    (applyToolCallStatus m tu startedTs tc).status = nextStatus tu tc := by
  rw [applyToolCallStatus, nextStatus]
  split
  · rfl
  · dsimp only
    split
    · rfl
    · rw [adoptTerminalOutput_status]

theorem applyToolCallStatus_checkpoint :
    (applyToolCallStatus m tu startedTs tc).checkpoint = tc.checkpoint := by
  rw [applyToolCallStatus]
  split
  · rfl
  · dsimp only
    split
    · rfl
    · rw [adoptTerminalOutput_checkpoint]

/-- An update that ends nothing writes the status alone. -/
theorem applyToolCallStatus_ongoing (h : (nextStatus tu tc).terminal = false) :
    applyToolCallStatus m tu startedTs tc = { tc with status := nextStatus tu tc } := by
  rw [applyToolCallStatus]
  split
  · next habsent => rw [nextStatus, if_pos habsent]
  · next hpresent =>
    rw [nextStatus, if_neg hpresent] at h ⊢
    have hgoing : tu.status ≠ .completed ∧ tu.status ≠ .failed := by
      constructor <;> (intro heq; rw [heq] at h; cases h)
    rw [if_pos hgoing]

theorem applyUpdateRefusal_eq : applyUpdateRefusal tu tc =
    { tc with declined := (applyUpdateRefusal tu tc).declined } := by
  rw [applyUpdateRefusal]
  split
  · rfl
  · rfl

/-- The working copy before the checkpoint and the metadata. -/
def worked (env : Cleaning) (m : Moment) (tu : ToolCallUpdateWire) (startedTs : ℤ)
    (tc : ToolCall) : ToolCall :=
  let tc := applyTerminalID tu (applyToolCallTitleAndKind env tu tc)
  let tc := applyToolCallOutput env tu (applyToolCallStatus m tu startedTs tc)
  let tc := applyToolCallDiffs tu (applyLocations tu tc)
  applyWorkflowID tu (applyUpdateRefusal tu tc)

theorem worked_checkpoint : (worked env m tu startedTs tc).checkpoint = tc.checkpoint := by
  rw [worked, applyWorkflowID, applyUpdateRefusal_eq]
  exact applyToolCallStatus_checkpoint

theorem worked_status : (worked env m tu startedTs tc).status = nextStatus tu tc := by
  rw [worked, applyWorkflowID, applyUpdateRefusal_eq]
  exact applyToolCallStatus_status

theorem applyToolCallUpdate_fst : (applyToolCallUpdate env m tu startedTs cells tc).1 =
    (mergeCheckpoint tu cells tc).1 := (mergeCheckpoint_congr worked_checkpoint).1

theorem applyToolCallUpdate_checkpoint :
    (applyToolCallUpdate env m tu startedTs cells tc).2.checkpoint =
      (mergeCheckpoint tu cells tc).2.checkpoint := (mergeCheckpoint_congr worked_checkpoint).2

theorem applyToolCallUpdate_status :
    (applyToolCallUpdate env m tu startedTs cells tc).2.status = nextStatus tu tc := by
  have hmerged : (mergeCheckpoint tu cells (worked env m tu startedTs tc)).2.status =
      nextStatus tu tc := by
    rw [mergeCheckpoint_eq]
    exact worked_status
  exact hmerged

/-- The output behind an update that ends nothing. -/
def ongoingOutput (env : Cleaning) (tu : ToolCallUpdateWire) (tc : ToolCall) : String :=
  let output := tc.output ++ toolCallContentOutput env tu
  if output ≠ "" then output
  else if rawOutputString tu.rawOutput ≠ "" then env.sanitize (rawOutputString tu.rawOutput)
  else output

/-- The call behind an update that ends nothing, but for the checkpoint. -/
def ongoing (env : Cleaning) (tu : ToolCallUpdateWire) (tc : ToolCall) : ToolCall :=
  { tc with
    title := if tu.title ≠ "" then env.displayText tu.title else tc.title
    kind := if tu.kind ≠ .absent then tu.kind else tc.kind
    status := nextStatus tu tc
    output := ongoingOutput env tu tc
    terminalID :=
      if tc.terminalID = "" ∧ tu.content.terminalID ≠ "" then tu.content.terminalID
      else tc.terminalID
    locations := if tu.locations ≠ [] then tu.locations else tc.locations
    diffs := tc.diffs ++ tu.content.diffs
    workflowID :=
      if tc.workflowID = "" ∧ rawOutputUpdate tu.rawOutput = none then
        rawOutputWorkflowID tu.rawOutput
      else tc.workflowID
    disclosed := tc.disclosed.or tu.disclosedContext
    denial := tc.denial.or tu.policyDenial }

theorem worked_ongoing (h : (nextStatus tu tc).terminal = false) :
    worked env m tu startedTs tc =
      { ongoing env tu tc with disclosed := tc.disclosed, denial := tc.denial } := by
  have hnotCompleted : nextStatus tu tc ≠ .completed := by
    intro heq
    rw [heq] at h
    cases h
  have hnotFailed : nextStatus tu tc ≠ .failed := by
    intro heq
    rw [heq] at h
    cases h
  have hstatus : applyToolCallStatus m tu startedTs
      (applyTerminalID tu (applyToolCallTitleAndKind env tu tc)) =
      { applyTerminalID tu (applyToolCallTitleAndKind env tu tc) with
        status := nextStatus tu tc } := applyToolCallStatus_ongoing h
  rw [worked, hstatus]
  simp only [applyToolCallOutput, applyLocations, applyToolCallDiffs, applyUpdateRefusal,
    hnotFailed, hnotCompleted, and_false, if_false, ne_eq, not_false_eq_true, if_true]
  rfl

theorem applyToolCallUpdate_ongoing (h : (nextStatus tu tc).terminal = false) :
    (applyToolCallUpdate env m tu startedTs cells tc).2 =
      { ongoing env tu tc with checkpoint := (mergeCheckpoint tu cells tc).2.checkpoint } := by
  have hcheckpoint : (applyToolCallUpdate env m tu startedTs cells tc).2.checkpoint =
      (mergeCheckpoint tu cells tc).2.checkpoint := applyToolCallUpdate_checkpoint
  have hmerged : (applyToolCallUpdate env m tu startedTs cells tc).2 =
      mergeToolMeta tu (mergeCheckpoint tu cells (worked env m tu startedTs tc)).2 := rfl
  rw [← hcheckpoint, hmerged, mergeCheckpoint_eq, worked_ongoing h]
  rfl

/-! ## What is sent of each field -/

theorem getD_omitempty_changed {α : Type} [DecidableEq α] {zero before after : α} :
    (omitempty zero (changed before after zero)).getD before = after ↔
      (after = zero → before = zero) := by
  rw [omitempty, changed]
  by_cases hsame : after = before
  · subst hsame
    simp
  · by_cases hzero : after = zero
    · subst hzero
      simp [eq_comm]
    · simp [hsame, hzero]

/-- An optional field of the card, read with its zero. -/
theorem getD_or {α : Type} (sent prev : Option α) (zero : α) :
    (sent.or prev).getD zero = sent.getD (prev.getD zero) := by
  cases sent with
  | none => rw [Option.none_or, Option.getD_none]
  | some x => rw [Option.some_or, Option.getD_some, Option.getD_some]

theorem outputDelta_extends (before tail : String) :
    outputDelta before (before ++ tail) = (tail, false) := by
  rw [outputDelta]
  split
  · next hsame =>
    have htail : tail = "" := by simpa using hsame
    rw [htail]
  · have hprefix : before.toList.isPrefixOf (before ++ tail).toList = true := by
      rw [String.toList_append, List.isPrefixOf_iff_prefix]
      exact List.prefix_append _ _
    rw [if_pos hprefix, String.toList_append, List.drop_left, String.ofList_toList]

/-- An output that is extended reaches the card. -/
theorem foldOutput_extends {prev : Option String} {d : ToolProgressPayload} {before tail : String}
    (hprev : prev.getD "" = before)
    (hdelta : d.outputDelta = omitempty "" (outputDelta before (before ++ tail)).1)
    (hreplace : d.outputReplace = omitempty false (outputDelta before (before ++ tail)).2) :
    (foldOutput prev d).getD "" = before ++ tail := by
  rw [outputDelta_extends] at hdelta hreplace
  rw [foldOutput, hreplace, hdelta, omitempty, if_pos rfl, if_neg (by simp)]
  by_cases htail : tail = ""
  · rw [htail, omitempty, if_pos rfl]
    simpa using hprev
  · rw [omitempty, if_neg htail]
    dsimp only
    rw [Option.getD_some, hprev]

theorem ongoingOutput_extends (env : Cleaning) (tu : ToolCallUpdateWire) (tc : ToolCall) :
    ∃ tail, ongoingOutput env tu tc = tc.output ++ tail := by
  rw [ongoingOutput]
  split
  · exact ⟨_, rfl⟩
  · next hblank =>
    have houtput : tc.output = "" := by
      have hboth : tc.output ++ toolCallContentOutput env tu = "" := not_not.mp hblank
      rw [String.append_eq_empty_iff] at hboth
      exact hboth.1
    split
    · exact ⟨_, by rw [houtput, String.empty_append]⟩
    · exact ⟨_, rfl⟩

/-- Appended diffs reach the card. -/
theorem foldDiffs_appends {prev : Option (List ToolDiff)} {d : ToolProgressPayload}
    {before tail : List ToolDiff} (hprev : prev.getD [] = before)
    (hdiffs : d.diffsAppended = omitempty []
      (if before.length < (before ++ tail).length then (before ++ tail).drop before.length
        else [])) :
    (foldDiffs prev d).getD [] = before ++ tail := by
  have hsent : (if before.length < (before ++ tail).length then (before ++ tail).drop before.length
      else []) = tail := by
    rw [List.drop_left, List.length_append]
    split
    · rfl
    · next hshort =>
      have hlength : tail.length = 0 := by omega
      exact (List.length_eq_zero_iff.mp hlength).symm
  rw [hsent] at hdiffs
  rw [foldDiffs, hdiffs]
  by_cases htail : tail = []
  · rw [htail, omitempty, if_pos rfl]
    simpa using hprev
  · rw [omitempty, if_neg htail]
    dsimp only
    rw [Option.getD_some, hprev]

/-- What is set only to other than its zero, and kept otherwise. -/
theorem kept_of_zero {α : Type} {zero before given : α} {P : Prop} [Decidable P]
    (hgiven : P → given ≠ zero) (h : (if P then given else before) = zero) : before = zero := by
  split at h
  · next hP => exact absurd h (hgiven hP)
  · exact h

/-- A block that is adopted once is sent as it is adopted. -/
theorem adopted_once {α : Type} [DecidableEq α] (held given : Option α) :
    (if held = none then held.or given else none).or held = held.or given := by
  cases held with
  | none => rw [if_pos rfl, Option.or_none]
  | some x => rw [if_neg (Option.some_ne_none x), Option.none_or, Option.some_or]

theorem title_carried_iff : ((ongoing env tu tc).title = "" → tc.title = "") ↔
    TitleCarried env tu tc := by
  change ((if tu.title ≠ "" then env.displayText tu.title else tc.title) = "" → _) ↔ _
  rw [TitleCarried]
  by_cases htitle : tu.title = ""
  · simp [htitle]
  · rw [if_pos htitle, or_iff_right htitle]
    exact imp_iff_not_or

theorem workflow_carried_iff (env : Cleaning) : tc.workflowID = (ongoing env tu tc).workflowID ↔
    WorkflowCarried tu tc := by
  change tc.workflowID = (if tc.workflowID = "" ∧ rawOutputUpdate tu.rawOutput = none then
    rawOutputWorkflowID tu.rawOutput else tc.workflowID) ↔ _
  rw [WorkflowCarried]
  by_cases hfree : tc.workflowID = "" ∧ rawOutputUpdate tu.rawOutput = none
  · rw [if_pos hfree, hfree.1, hfree.2, or_iff_right (not_not.mpr rfl),
      or_iff_right (not_not.mpr rfl)]
    exact eq_comm
  · rw [if_neg hfree]
    simp only [true_iff]
    rw [not_and_or] at hfree
    rcases hfree with hheld | hupdate
    · exact .inl hheld
    · exact .inr (.inl hupdate)

/-- A delta folded onto the call it is of gives the call behind the update just if the update is
carried. -/
theorem facts_fold_iff {prev : CardCall} (hpointed : Pointed cells tc)
    (hprev : prev.facts = tc.facts cells) {after : ToolCall}
    (hafter : after = { ongoing env tu tc with
      checkpoint := (mergeCheckpoint tu cells tc).2.checkpoint }) :
    (foldToolCallDelta prev ({ toolProgress (mergeCheckpoint tu cells tc).1 tc after with
      workflowID := "" } : ToolProgress).wire).facts =
        after.facts (mergeCheckpoint tu cells tc).1 ↔ Carried env tu cells tc := by
  simp only [CardCall.facts, ToolCall.facts, CallFacts.mk.injEq] at hprev
  obtain ⟨htitle, hkind, hstatus, houtput, hspans, hdiffs, hlocations, hduration, hterminal,
    hsubtask, hworkflow, hcheckpoint, hdisclosed, hdenial, hdeclined⟩ := hprev
  have hpointer : after.checkpoint = (mergeCheckpoint tu cells tc).2.checkpoint := by rw [hafter]
  have hT : (omitempty "" (changed tc.title after.title "")).getD prev.title = after.title ↔
      TitleCarried env tu tc := by
    rw [htitle, getD_omitempty_changed, hafter]
    exact title_carried_iff
  have hK : (omitempty .absent (changed tc.kind after.kind .absent)).getD prev.kind =
      after.kind := by
    rw [hkind, getD_omitempty_changed, hafter]
    exact kept_of_zero id
  have hS : (omitempty .absent (changed tc.status after.status .absent)).getD prev.status =
      after.status := by
    rw [hstatus, getD_omitempty_changed, hafter]
    intro hzero
    change nextStatus tu tc = .absent at hzero
    rw [nextStatus] at hzero
    split at hzero
    · exact hzero
    · next hpresent => exact absurd hzero hpresent
  have hO : (foldOutput prev.output ({ toolProgress (mergeCheckpoint tu cells tc).1 tc after with
      workflowID := "" } : ToolProgress).wire).getD "" = after.output := by
    obtain ⟨tail, htail⟩ := ongoingOutput_extends env tu tc
    have hextended : after.output = tc.output ++ tail := by
      rw [hafter]
      exact htail
    rw [hextended]
    apply foldOutput_extends houtput
    · rw [← hextended]
      rfl
    · rw [← hextended]
      rfl
  have hSpans : ((omitempty [] (changed tc.outputSpans after.outputSpans [])).or
      prev.outputSpans).getD [] = after.outputSpans := by
    rw [getD_or, hspans, getD_omitempty_changed, hafter]
    exact id
  have hD : (foldDiffs prev.diffs ({ toolProgress (mergeCheckpoint tu cells tc).1 tc after with
      workflowID := "" } : ToolProgress).wire).getD [] = after.diffs := by
    have happended : after.diffs = tc.diffs ++ tu.content.diffs := by rw [hafter]; rfl
    rw [happended]
    apply foldDiffs_appends hdiffs
    rw [← happended]
    rfl
  have hL : ((omitempty [] (changed tc.locations after.locations [])).or
      prev.locations).getD [] = after.locations := by
    rw [getD_or, hlocations, getD_omitempty_changed, hafter]
    exact kept_of_zero id
  have hDuration : ((omitempty 0 (changed tc.durationMs after.durationMs 0)).or
      prev.durationMs).getD 0 = after.durationMs := by
    rw [getD_or, hduration, getD_omitempty_changed, hafter]
    exact id
  have hTerminal : ((omitempty "" (changed tc.terminalID after.terminalID "")).or
      prev.terminalID).getD "" = after.terminalID := by
    rw [getD_or, hterminal, getD_omitempty_changed, hafter]
    exact kept_of_zero And.right
  have hSubtask : ((omitempty "" (changed tc.agentSubtaskID after.agentSubtaskID "")).or
      prev.agentSubtaskID).getD "" = after.agentSubtaskID := by
    rw [getD_or, hsubtask, getD_omitempty_changed, hafter]
    exact id
  have hW : ((omitempty "" "").or prev.workflowID).getD "" = after.workflowID ↔
      WorkflowCarried tu tc := by
    rw [omitempty, if_pos rfl, Option.none_or, hworkflow, hafter]
    exact workflow_carried_iff env
  have hC : ((toolProgress (mergeCheckpoint tu cells tc).1 tc after).checkpoint.or
      prev.checkpoint) = deref (mergeCheckpoint tu cells tc).1 after.checkpoint ↔
        CheckpointCarried tu cells tc := by
    rw [hcheckpoint]
    exact checkpoint_carried_iff hpointed hpointer
  have hDisclosed : (if tc.disclosed = none then after.disclosed else none).or prev.disclosed =
      after.disclosed := by
    have hadopted : after.disclosed = tc.disclosed.or tu.disclosedContext := by rw [hafter]; rfl
    rw [hadopted, hdisclosed]
    exact adopted_once _ _
  have hDenial : (if tc.denial = none then after.denial else none).or prev.denial =
      after.denial := by
    have hadopted : after.denial = tc.denial.or tu.policyDenial := by rw [hafter]; rfl
    rw [hadopted, hdenial]
    exact adopted_once _ _
  have hDeclined : (if omitempty false (after.declined && !tc.declined) = some true then some true
      else prev.declined).getD false = after.declined := by
    have hsame : after.declined = tc.declined := by rw [hafter]; rfl
    rw [hsame, Bool.and_not_self, omitempty, if_pos rfl, if_neg (by simp), hdeclined]
  simp only [CardCall.facts, ToolCall.facts, CallFacts.mk.injEq, foldToolCallDelta]
  constructor
  · rintro ⟨ht, -, -, -, -, -, -, -, -, -, hw, hc, -, -, -⟩
    exact ⟨hT.mp ht, hW.mp hw, hC.mp hc⟩
  · rintro ⟨ht, hw, hc⟩
    exact ⟨hT.mpr ht, hK, hS, hO, hSpans, hD, hL, hDuration, hTerminal, hSubtask, hW.mpr hw,
      hC.mpr hc, hDisclosed, hDenial, hDeclined⟩

/-! ## What leaves a call as it is -/

theorem given_same_iff {α : Type} {given held : α} {P Q : Prop} [Decidable P] (h : ¬ P ↔ Q) :
    held = (if P then given else held) ↔ Q ∨ given = held := by
  rw [← h]
  split
  · next hP => rw [or_iff_right (not_not.mpr hP), eq_comm]
  · next hP => simp [hP]

theorem or_same_iff {α : Type} (held given : Option α) :
    held.or given = held ↔ held ≠ none ∨ given = none := by
  cases held with
  | none => rw [Option.none_or, or_iff_right (not_not.mpr rfl)]
  | some x => simp

theorem output_same_iff : ongoingOutput env tu tc = tc.output ↔
    toolCallContentOutput env tu = "" ∧ (tc.output ≠ "" ∨ rawOutputString tu.rawOutput = "" ∨
      env.sanitize (rawOutputString tu.rawOutput) = "") := by
  rw [ongoingOutput]
  by_cases hcontent : toolCallContentOutput env tu = ""
  · rw [hcontent, String.append_empty]
    by_cases houtput : tc.output = ""
    · rw [houtput]
      simp only [ne_eq, not_true_eq_false, if_false, ite_not, true_and, false_or]
      split
      · next hraw => simp [hraw]
      · next hraw => simp [hraw]
    · simp [houtput]
  · have hfull : tc.output ++ toolCallContentOutput env tu ≠ "" := by
      intro hboth
      rw [String.append_eq_empty_iff] at hboth
      exact hcontent hboth.2
    rw [if_pos hfull]
    simp [hcontent]

theorem facts_same_iff (hpointed : Pointed cells tc) {after : ToolCall}
    (hafter : after = { ongoing env tu tc with
      checkpoint := (mergeCheckpoint tu cells tc).2.checkpoint }) :
    tc.facts cells = after.facts (mergeCheckpoint tu cells tc).1 ↔ Restates env tu cells tc := by
  have hT : tc.title = (ongoing env tu tc).title ↔
      tu.title = "" ∨ env.displayText tu.title = tc.title := given_same_iff not_not
  have hK : tc.kind = (ongoing env tu tc).kind ↔ tu.kind = .absent ∨ tu.kind = tc.kind :=
    given_same_iff not_not
  have hS : tc.status = nextStatus tu tc ↔ tu.status = .absent ∨ tu.status = tc.status := by
    rw [nextStatus]
    split
    · next habsent => simp [habsent]
    · next hpresent => rw [or_iff_right hpresent, eq_comm]
  have hO : tc.output = ongoingOutput env tu tc ↔ _ := eq_comm.trans output_same_iff
  have hL : tc.locations = (ongoing env tu tc).locations ↔
      tu.locations = [] ∨ tu.locations = tc.locations := given_same_iff not_not
  have hD : tc.diffs = (ongoing env tu tc).diffs ↔ tu.content.diffs = [] := by
    change tc.diffs = tc.diffs ++ tu.content.diffs ↔ _
    simp
  have hTerminal : tc.terminalID = (ongoing env tu tc).terminalID ↔
      tc.terminalID ≠ "" ∨ tu.content.terminalID = "" := by
    have hgiven : tc.terminalID = (ongoing env tu tc).terminalID ↔
        ¬ (tc.terminalID = "" ∧ tu.content.terminalID ≠ "") ∨
          tu.content.terminalID = tc.terminalID := given_same_iff Iff.rfl
    rw [hgiven]
    by_cases hheld : tc.terminalID = ""
    · simp [hheld]
    · simp [hheld]
  have hW : tc.workflowID = (ongoing env tu tc).workflowID ↔ WorkflowCarried tu tc :=
    workflow_carried_iff env
  have hC : deref cells tc.checkpoint = deref (mergeCheckpoint tu cells tc).1 after.checkpoint ↔
      CheckpointCarried tu cells tc ∧
        (tc.checkpoint = none → ∀ c ∈ tu.checkpoint, c = noCheckpoint) := by
    rw [hafter]
    exact eq_comm.trans (deref_merge hpointed)
  have hDisclosed : tc.disclosed = (ongoing env tu tc).disclosed ↔
      tc.disclosed ≠ none ∨ tu.disclosedContext = none := eq_comm.trans (or_same_iff _ _)
  have hDenial : tc.denial = (ongoing env tu tc).denial ↔
      tc.denial ≠ none ∨ tu.policyDenial = none := eq_comm.trans (or_same_iff _ _)
  have hrest : after.outputSpans = tc.outputSpans ∧ after.durationMs = tc.durationMs ∧
      after.agentSubtaskID = tc.agentSubtaskID ∧ after.declined = tc.declined := by
    rw [hafter]
    exact ⟨rfl, rfl, rfl, rfl⟩
  obtain ⟨hspans, hduration, hsubtask, hdeclined⟩ := hrest
  simp only [ToolCall.facts, CallFacts.mk.injEq, hspans, hduration, hsubtask, hdeclined, true_and,
    and_true]
  rw [hC, hafter]
  constructor
  · rintro ⟨ht, hk, hs, ho, hd, hl, hterm, hw, ⟨hc, hn⟩, hdis, hden⟩
    obtain ⟨hcontent, hraw⟩ := hO.mp ho
    exact ⟨hT.mp ht, hK.mp hk, hS.mp hs, hcontent, hraw, hL.mp hl, hD.mp hd, hTerminal.mp hterm,
      hW.mp hw, hc, hn, hDisclosed.mp hdis, hDenial.mp hden⟩
  · intro h
    exact ⟨hT.mpr h.title, hK.mpr h.kind, hS.mpr h.status, hO.mpr ⟨h.content, h.raw⟩,
      hD.mpr h.diffs, hL.mpr h.locations, hTerminal.mpr h.terminalID, hW.mpr h.workflow,
      ⟨h.checkpoint, h.noCheckpoint⟩, hDisclosed.mpr h.disclosed, hDenial.mpr h.denial⟩

/-! ## The runs -/

namespace CardState

variable {s : CardState} {runID : String}

/-- An update reaches the card or says nothing new; a result that the log refuses adds no part to
the checkpoint; a card goes while the call is as its entry shows it. -/
def Kept (env : Cleaning) (runID : String) (s : CardState) : CardEvent → Prop
  | .update m tu => ∀ kept ∈ s.inFlight,
      if (nextStatus tu kept.call).terminal then
        m.appended = true ∨ CheckpointCarried tu s.cells kept.call
      else if runID = "" ∧ s.sig.isSome then Carried env tu s.cells kept.call
      else Restates env tu s.cells kept.call
  | .mount => True
  | .unmount => ∀ kept ∈ s.inFlight, s.entry.facts = kept.call.facts s.cells

structure Sound (s : CardState) : Prop where
  pointed : ∀ kept ∈ s.inFlight, Pointed s.cells kept.call
  agrees : s.Agrees

theorem getD_omitempty {α : Type} [DecidableEq α] (zero x : α) :
    (omitempty zero x).getD zero = x := by
  rw [omitempty]
  split
  · next hzero => rw [hzero, Option.getD_none]
  · rw [Option.getD_some]

theorem facts_entryToolCallOf (cells : Checkpoints) (tc : ToolCall) :
    (entryToolCallOf cells tc).facts = tc.facts cells := by
  simp only [CardCall.facts, entryToolCallOf, ToolCall.facts, getD_omitempty]

/-- A call that is left alone is read anew through its pointer. -/
theorem facts_cells_iff {cells cells' : Checkpoints} {tc : ToolCall} :
    tc.facts cells = tc.facts cells' ↔ deref cells' tc.checkpoint = deref cells tc.checkpoint := by
  simp only [ToolCall.facts, CallFacts.mk.injEq, true_and, and_true]
  exact eq_comm

theorem sound_created (env : Cleaning) (startedTs : ℤ) (tc : ToolCallWire) :
    (created env startedTs tc).Sound where
  pointed := by
    rintro kept ⟨⟩ a ⟨⟩
  agrees := by
    rintro kept ⟨⟩
    exact facts_entryToolCallOf [] (toolCallFromWire env tc)

/-- What the browser folds the next delta onto behind a frame. -/
theorem shown_applied {cells : Checkpoints} {inFlight : Option OpenCall} (d : ToolProgressPayload) :
    ({ s with cells, inFlight, sig := s.applyToolProgress d } : CardState).shown =
      if d.workflowID.getD "" = "" ∧ s.sig.isSome then foldToolCallDelta s.shown d
      else s.shown := by
  rw [shown, applyToolProgress]
  by_cases hrun : d.workflowID.getD "" = ""
  · rw [if_neg (not_not.mpr hrun)]
    cases hsig : s.sig with
    | none => simp [shown, hsig]
    | some card => simp [hrun]
  · rw [if_pos hrun, if_neg (fun h => hrun h.1)]
    rfl

namespace Sound

theorem update_iff (h : s.Sound) (m : Moment) (tu : ToolCallUpdateWire) :
    (s.handleToolCallUpdate env runID m tu).Agrees ↔ s.Kept env runID (.update m tu) := by
  rw [handleToolCallUpdate, Kept]
  cases hflight : s.inFlight with
  | none => simp [Agrees, hflight]
  | some kept =>
    have hpointed := h.pointed kept hflight
    have hshown := h.agrees kept hflight
    simp only [Option.mem_some_iff, forall_eq', applyToolCallUpdate_status,
      applyToolCallUpdate_fst]
    by_cases hterminal : (nextStatus tu kept.call).terminal = true
    · -- the result is filed, or the call is kept with what its pointer now points to
      rw [if_pos hterminal, if_pos hterminal]
      cases happended : m.appended with
      | true => simp [Agrees]
      | false =>
        simp only [Bool.false_eq_true, if_false, false_or]
        rw [← deref_kept_iff hpointed, ← facts_cells_iff, ← hshown]
        simp only [Agrees, Option.mem_some_iff, forall_eq']
        exact Iff.rfl
    · rw [if_neg hterminal, if_neg hterminal]
      have hafter : (applyToolCallUpdate env m tu kept.startedTs s.cells kept.call).2 = _ :=
        applyToolCallUpdate_ongoing (by simpa using hterminal)
      rw [Agrees]
      simp only [Option.mem_some_iff, forall_eq']
      rw [shown_applied, ToolProgress.wire, getD_omitempty]
      by_cases hcard : runID = "" ∧ s.sig.isSome
      · rw [if_pos hcard, if_pos hcard, ← facts_fold_iff hpointed hshown hafter, hcard.1]
        rfl
      · rw [if_neg hcard, if_neg hcard, hshown]
        exact facts_same_iff hpointed hafter

theorem step_iff (h : s.Sound) (e : CardEvent) :
    (s.step env runID e).Agrees ↔ s.Kept env runID e := by
  cases e with
  | update m tu => exact h.update_iff m tu
  | mount => simp only [Kept, iff_true]; exact h.agrees
  | unmount => exact Iff.rfl

theorem pointed_step (h : s.Sound) (e : CardEvent) :
    ∀ kept ∈ (s.step env runID e).inFlight, Pointed (s.step env runID e).cells kept.call := by
  cases e with
  | update m tu =>
    simp only [CardState.step, handleToolCallUpdate]
    cases hflight : s.inFlight with
    | none => simp [hflight]
    | some kept =>
      have hpointed := h.pointed kept hflight
      simp only [applyToolCallUpdate_fst]
      split
      · cases m.appended with
        | true => simp
        | false =>
          rintro kept' ⟨⟩
          exact (pointed_merge hpointed).2
      · rintro kept' ⟨⟩ a ha
        rw [applyToolCallUpdate_checkpoint] at ha
        exact (pointed_merge hpointed).1 a ha
  | mount => exact h.pointed
  | unmount => exact h.pointed

end Sound

/-- The card shows the call in flight behind every step of a run just if every step is kept. -/
theorem card_follows_iff (env : Cleaning) (runID : String) (startedTs : ℤ) (tc : ToolCallWire)
    (events : List CardEvent) :
    Along (step env runID) (fun s e => (s.step env runID e).Agrees) (created env startedTs tc)
        events ↔
      Along (step env runID) (Kept env runID) (created env startedTs tc) events := by
  apply along_iff (sound_created env startedTs tc)
  · intro s e hs
    exact hs.step_iff e
  · intro s e hs hkept
    exact ⟨hs.pointed_step e, (hs.step_iff e).mpr hkept⟩

/-- A checkpoint arrives in two parts; the second is written where the kept copy points too, and no
delta carries it. -/
theorem second_part_unsent :
    ¬ (runFrom (step ⟨id, id⟩ "")
      (created ⟨id, id⟩ 1
        { toolCallID := "t-1", title := "Write", kind := .edit, status := .pending })
      [.mount, .update {} { checkpoint := some ⟨"snap-a", "", ""⟩ },
        .update {} { checkpoint := some ⟨"", "snap-b", ""⟩ }]).Agrees := by
  decide +kernel

end CardState
end Marotte.ToolCards
