import Marotte.Entry.Record
import Marotte.Entry.Types

/-! # The line of an entry

Each payload's fields under their wire names, in the order they are written, and the one
object a line holds.
-/
namespace Marotte
namespace EntryCodec

open JsonCodec Record

/-! ## Closed enumerations -/

def kindName : EntryKind → String
  | .turnOpen => "turn_open"
  | .turnBind => "turn_bind"
  | .text => "text"
  | .thinking => "thinking"
  | .toolCall => "tool_call"
  | .toolResult => "tool_result"
  | .steer => "steer"
  | .steerAck => "steer_ack"
  | .plan => "plan"
  | .compaction => "compaction"
  | .compactionFailed => "compaction_failed"
  | .safetyBlocked => "safety_blocked"
  | .modelSwitched => "model_switched"
  | .modeSwitched => "mode_switched"
  | .turnRevert => "turn_revert"
  | .reconciled => "reconciled"
  | .turnClose => "turn_close"

def entryKind : JsonCodec EntryKind :=
  named kindName
    [.turnOpen, .turnBind, .text, .thinking, .toolCall, .toolResult, .steer, .steerAck, .plan,
      .compaction, .compactionFailed, .safetyBlocked, .modelSwitched, .modeSwitched, .turnRevert,
      .reconciled, .turnClose]
    (by intro a; cases a <;> rfl)

def sourceName : TurnOpenSourceName → String
  | .prompt => "prompt"
  | .localShell => "local_shell"
  | .wireTurnStart => "wire_turn_start"
  | .emptyRetry => "empty_retry"
  | .event => "event"
  | .revert => "revert"
  | .workflowStep => "workflow_step"

def turnOpenSource : JsonCodec TurnOpenSourceName :=
  named sourceName
    [.prompt, .localShell, .wireTurnStart, .emptyRetry, .event, .revert, .workflowStep]
    (by intro a; cases a <;> rfl)

def toolStatusName : ToolStatus → String
  | .absent => ""
  | .pending => "pending"
  | .inProgress => "in_progress"
  | .completed => "completed"
  | .failed => "failed"
  | .aborted => "aborted"

def toolStatus : JsonCodec ToolStatus :=
  named toolStatusName [.absent, .pending, .inProgress, .completed, .failed, .aborted]
    (by intro a; cases a <;> rfl)

def toolKindName : ToolKind → String
  | .absent => ""
  | .execute => "execute"
  | .shell => "shell"
  | .read => "read"
  | .search => "search"
  | .fetch => "fetch"
  | .edit => "edit"
  | .think => "think"
  | .hook => "hook"
  | .write => "write"
  | .delete => "delete"
  | .move => "move"
  | .command => "command"
  | .browser => "browser"
  | .switchMode => "switch_mode"
  | .mcp => "mcp"
  | .other => "other"

def toolKind : JsonCodec ToolKind :=
  named toolKindName
    [.absent, .execute, .shell, .read, .search, .fetch, .edit, .think, .hook, .write, .delete,
      .move, .command, .browser, .switchMode, .mcp, .other]
    (by intro a; cases a <;> rfl)

def steerOriginName : SteerOrigin → String
  | .user => "user"
  | .agent => "agent"

def steerOrigin : JsonCodec SteerOrigin :=
  named steerOriginName [.user, .agent] (by intro a; cases a <;> rfl)

def steerStateName : SteerState → String
  | .absent => ""
  | .read => "read"
  | .dropped => "dropped"

def steerState : JsonCodec SteerState :=
  named steerStateName [.absent, .read, .dropped] (by intro a; cases a <;> rfl)

def steerReasonName : SteerReason → String
  | .absent => ""
  | .restart => "restart"
  | .boundary => "boundary"
  | .deleted => "deleted"

def steerReason : JsonCodec SteerReason :=
  named steerReasonName [.absent, .restart, .boundary, .deleted] (by intro a; cases a <;> rfl)

def turnOutcomeName : TurnOutcome → String
  | .absent => ""
  | .running => "running"
  | .completed => "completed"
  | .cancelled => "cancelled"
  | .interrupted => "interrupted"
  | .failed => "failed"
  | .refused => "refused"
  | .unknown => "unknown"
  | .empty => "empty"

def turnOutcome : JsonCodec TurnOutcome :=
  named turnOutcomeName
    [.absent, .running, .completed, .cancelled, .interrupted, .failed, .refused, .unknown, .empty]
    (by intro a; cases a <;> rfl)

def planStatusName : PlanStatus → String
  | .pending => "pending"
  | .inProgress => "in_progress"
  | .completed => "completed"

def planStatus : JsonCodec PlanStatus :=
  named planStatusName [.pending, .inProgress, .completed] (by intro a; cases a <;> rfl)

def turnRevertCause : JsonCodec TurnRevertCause :=
  named (fun _ => "rewind") [.rewind] (by intro a; cases a; rfl)

def modeSwitchSourceName : ModeSwitchSource → String
  | .user => "user"
  | .agent => "agent"

def modeSwitchSource : JsonCodec ModeSwitchSource :=
  named modeSwitchSourceName [.user, .agent] (by intro a; cases a <;> rfl)

/-! ## The parts payloads share -/

/-- A text always written, absent as the empty one. -/
def text (name : String) {β : Type} (r : Record β) : Record (String × β) :=
  field name (.always string (some "")) r

/-- A text left out when it is empty. -/
def textOmit (name : String) {β : Type} (r : Record β) : Record (String × β) :=
  field name (.omitZero string "") r

def intOmit (name : String) {β : Type} (r : Record β) : Record (ℤ × β) :=
  field name (.omitZero int 0) r

def boolOmit (name : String) {β : Type} (r : Record β) : Record (Bool × β) :=
  field name (.omitZero bool false) r

def listOmit (name : String) {α β : Type} [DecidableEq α] (c : JsonCodec α) (r : Record β) :
    Record (List α × β) :=
  field name (.omitZero (list c) []) r

def attachment : JsonCodec Attachment :=
  ((text "path" <| text "name" <| done).codec (by decide)).via
    (fun a => (a.path, a.name, ()))
    (fun (path, name, _) => { path, name }) (fun _ => rfl)

def entryPrompt : JsonCodec EntryPrompt :=
  ((text "id" <| text "text" <| listOmit "attachments" attachment <| listOmit "resends" string <|
      done).codec (by decide)).via
    (fun p => (p.id, p.text, p.attachments, p.resends, ()))
    (fun (id, text, attachments, resends, _) => { id, text, attachments, resends }) (fun _ => rfl)

def toolCheckpoint : JsonCodec ToolCheckpoint :=
  ((textOmit "original" <| textOmit "modified" <| textOmit "local" <| done).codec (by decide)).via
    (fun p => (p.original, p.modified, p.localURI, ()))
    (fun (original, modified, localURI, _) => { original, modified, localURI }) (fun _ => rfl)

def toolDisclosed : JsonCodec ToolDisclosed :=
  ((text "type" <| text "display_name" <| text "uri" <| done).codec (by decide)).via
    (fun p => (p.type, p.displayName, p.uri, ()))
    (fun (type, displayName, uri, _) => { type, displayName, uri }) (fun _ => rfl)

def toolDenialRule : JsonCodec ToolDenialRule :=
  ((text "capability" <| text "effect" <| listOmit "match" string <| listOmit "exclude" string <|
      done).codec (by decide)).via
    (fun p => (p.capability, p.effect, p.matchPatterns, p.exclude, ()))
    (fun (capability, effect, matchPatterns, exclude, _) =>
      { capability, effect, matchPatterns, exclude }) (fun _ => rfl)

def toolDenial : JsonCodec ToolDenial :=
  ((field "rule" (.pointer toolDenialRule) <| text "capability" <| text "resource" <|
      text "scope" <| text "source" <| done).codec (by decide)).via
    (fun p => (p.rule, p.capability, p.resource, p.scope, p.source, ()))
    (fun (rule, capability, resource, scope, source, _) =>
      { rule, capability, resource, scope, source }) (fun _ => rfl)

def natOmit (name : String) {β : Type} (r : Record β) : Record (ℕ × β) :=
  field name (.omitZero nat 0) r

def toolTruncation : JsonCodec ToolTruncation :=
  ((natOmit "output_bytes" <| natOmit "input_bytes" <| natOmit "diff_bytes" <|
      natOmit "diff_count" <| done).codec (by decide)).via
    (fun p => (p.outputBytes, p.inputBytes, p.diffBytes, p.diffCount, ()))
    (fun (outputBytes, inputBytes, diffBytes, diffCount, _) =>
      { outputBytes, inputBytes, diffBytes, diffCount }) (fun _ => rfl)

def toolLocation : JsonCodec ToolLocation :=
  ((text "path" <| intOmit "line" <| done).codec (by decide)).via
    (fun p => (p.path, p.line, ()))
    (fun (path, line, _) => { path, line }) (fun _ => rfl)

def toolDiff : JsonCodec ToolDiff :=
  ((text "path" <| textOmit "old_text" <| text "new_text" <| done).codec (by decide)).via
    (fun p => (p.path, p.oldText, p.newText, ()))
    (fun (path, oldText, newText, _) => { path, oldText, newText }) (fun _ => rfl)

/-- A whole number always written. -/
def whole (name : String) {β : Type} (r : Record β) : Record (ℤ × β) :=
  field name (.always int (some 0)) r

def wholeNat (name : String) {β : Type} (r : Record β) : Record (ℕ × β) :=
  field name (.always nat (some 0)) r

def textSpan : JsonCodec TextSpan :=
  ((whole "start" <| whole "end" <| whole "fg" <| whole "bg" <| wholeNat "attrs" <|
      done).codec (by decide)).via
    (fun p => (p.start, p.stop, p.fg, p.bg, p.attrs, ()))
    (fun (start, stop, fg, bg, attrs, _) => { start, stop, fg, bg, attrs }) (fun _ => rfl)

def planEntry : JsonCodec PlanEntry :=
  ((text "content" <| text "priority" <| field "status" (.always planStatus none) <|
      done).codec (by decide)).via
    (fun p => (p.content, p.priority, p.status, ()))
    (fun (content, priority, status, _) => { content, priority, status }) (fun _ => rfl)

def fileChange : JsonCodec FileChange :=
  ((whole "lines_added" <| whole "lines_removed" <| boolOmit "is_new_file" <|
      done).codec (by decide)).via
    (fun p => (p.linesAdded, p.linesRemoved, p.isNewFile, ()))
    (fun (linesAdded, linesRemoved, isNewFile, _) => { linesAdded, linesRemoved, isNewFile })
    (fun _ => rfl)

def refusalInfo : JsonCodec RefusalInfo :=
  ((textOmit "category" <| textOmit "explanation" <| textOmit "recommended_model" <|
      done).codec (by decide)).via
    (fun p => (p.category, p.explanation, p.recommendedModel, ()))
    (fun (category, explanation, recommendedModel, _) =>
      { category, explanation, recommendedModel }) (fun _ => rfl)

def codeReference : JsonCodec CodeReference :=
  ((text "license_name" <| textOmit "repository" <| textOmit "url" <| done).codec (by decide)).via
    (fun p => (p.licenseName, p.repository, p.url, ()))
    (fun (licenseName, repository, url, _) => { licenseName, repository, url }) (fun _ => rfl)

/-! ## Payloads -/

def turnOpen : JsonCodec EntryTurnOpen :=
  ((field "prompt" (.pointer entryPrompt) <| field "source" (.always turnOpenSource none) <|
      textOmit "run" <| textOmit "node_path" <| textOmit "session_id" <| wholeNat "n" <|
      done).codec (by decide)).via
    (fun p => (p.prompt, p.source, p.run, p.nodePath, p.sessionID, p.n, ()))
    (fun (prompt, source, run, nodePath, sessionID, n, _) =>
      { prompt, source, run, nodePath, sessionID, n }) (fun _ => rfl)

def turnBind : JsonCodec EntryTurnBind :=
  ((text "kas_message_id" <| text "session_id" <| done).codec (by decide)).via
    (fun p => (p.kasMessageID, p.sessionID, ()))
    (fun (kasMessageID, sessionID, _) => { kasMessageID, sessionID }) (fun _ => rfl)

def entryText : JsonCodec EntryText :=
  ((text "text" <| done).codec (by decide)).via
    (fun p => (p.text, ())) (fun (text, _) => { text }) (fun _ => rfl)

def entryThinking : JsonCodec EntryThinking :=
  ((text "text" <| done).codec (by decide)).via
    (fun p => (p.text, ())) (fun (text, _) => { text }) (fun _ => rfl)

def toolCall : JsonCodec EntryToolCall :=
  ((text "id" <| text "title" <| field "kind" (.always toolKind (some .absent)) <|
      field "status" (.always toolStatus (some .absent)) <| textOmit "output" <|
      textOmit "agent_subtask_id" <| textOmit "workflow_id" <| textOmit "terminal_id" <|
      field "checkpoint" (.pointer toolCheckpoint) <| field "disclosed" (.pointer toolDisclosed) <|
      field "denial" (.pointer toolDenial) <| field "truncated" (.pointer toolTruncation) <|
      field "input" (.pointer raw) <| listOmit "locations" toolLocation <|
      listOmit "diffs" toolDiff <| listOmit "output_spans" textSpan <| whole "ts" <|
      intOmit "duration_ms" <| intOmit "output_bytes" <| boolOmit "has_full" <|
      boolOmit "declined" <| done).codec (by decide)).via
    (fun p => (p.id, p.title, p.kind, p.status, p.output, p.agentSubtaskID, p.workflowID,
      p.terminalID, p.checkpoint, p.disclosed, p.denial, p.truncated, p.input, p.locations,
      p.diffs, p.outputSpans, p.ts, p.durationMs, p.outputBytes, p.hasFull, p.declined, ()))
    (fun (id, title, kind, status, output, agentSubtaskID, workflowID, terminalID, checkpoint,
        disclosed, denial, truncated, input, locations, diffs, outputSpans, ts, durationMs,
        outputBytes, hasFull, declined, _) =>
      { id, title, kind, status, output, agentSubtaskID, workflowID, terminalID, checkpoint,
        disclosed, denial, truncated, input, locations, diffs, outputSpans, ts, durationMs,
        outputBytes, hasFull, declined }) (fun _ => rfl)

def toolResult : JsonCodec EntryToolResult :=
  ((field "checkpoint" (.pointer toolCheckpoint) <| field "disclosed" (.pointer toolDisclosed) <|
      field "denial" (.pointer toolDenial) <| field "truncated" (.pointer toolTruncation) <|
      textOmit "title" <| field "kind" (.omitZero toolKind .absent) <|
      field "status" (.always toolStatus (some .absent)) <| textOmit "output" <|
      textOmit "terminal_id" <| textOmit "workflow_id" <| listOmit "output_spans" textSpan <|
      listOmit "diffs" toolDiff <| listOmit "locations" toolLocation <| intOmit "duration_ms" <|
      intOmit "output_bytes" <| boolOmit "has_full" <| boolOmit "declined" <|
      done).codec (by decide)).via
    (fun p => (p.checkpoint, p.disclosed, p.denial, p.truncated, p.title, p.kind, p.status,
      p.output, p.terminalID, p.workflowID, p.outputSpans, p.diffs, p.locations, p.durationMs,
      p.outputBytes, p.hasFull, p.declined, ()))
    (fun (checkpoint, disclosed, denial, truncated, title, kind, status, output, terminalID,
        workflowID, outputSpans, diffs, locations, durationMs, outputBytes, hasFull, declined, _) =>
      { checkpoint, disclosed, denial, truncated, title, kind, status, output, terminalID,
        workflowID, outputSpans, diffs, locations, durationMs, outputBytes, hasFull, declined })
    (fun _ => rfl)

def steer : JsonCodec EntrySteer :=
  ((text "text" <| field "origin" (.always steerOrigin none) <|
      field "state" (.always steerState (some .absent)) <|
      field "reason" (.omitZero steerReason .absent) <| textOmit "severity" <|
      textOmit "origin_run" <| listOmit "resends" string <| intOmit "produced_ts" <|
      done).codec (by decide)).via
    (fun p => (p.text, p.origin, p.state, p.reason, p.severity, p.originRun, p.resends,
      p.producedTs, ()))
    (fun (text, origin, state, reason, severity, originRun, resends, producedTs, _) =>
      { text, origin, state, reason, severity, originRun, resends, producedTs }) (fun _ => rfl)

def steerAck : JsonCodec EntrySteerAck :=
  ((text "steer_id" <| text "text" <| done).codec (by decide)).via
    (fun p => (p.steerID, p.text, ()))
    (fun (steerID, text, _) => { steerID, text }) (fun _ => rfl)

def plan : JsonCodec EntryPlan :=
  ((field "entries" (.always (list planEntry) (some [])) <| done).codec (by decide)).via
    (fun p => (p.entries, ())) (fun (entries, _) => { entries }) (fun _ => rfl)

def compaction : JsonCodec EntryCompaction :=
  ((text "summary" <| done).codec (by decide)).via
    (fun p => (p.summary, ())) (fun (summary, _) => { summary }) (fun _ => rfl)

def compactionFailed : JsonCodec EntryCompactionFailed :=
  ((text "reason" <| done).codec (by decide)).via
    (fun p => (p.reason, ())) (fun (reason, _) => { reason }) (fun _ => rfl)

def safetyBlocked : JsonCodec EntrySafetyBlocked :=
  ((field "properties" (.always (list string) (some [])) <| done).codec (by decide)).via
    (fun p => (p.properties, ())) (fun (properties, _) => { properties }) (fun _ => rfl)

def modelSwitched : JsonCodec EntryModelSwitched :=
  ((text "from" <| text "to" <| textOmit "effort" <| done).codec (by decide)).via
    (fun p => (p.fromModel, p.toModel, p.effort, ()))
    (fun (fromModel, toModel, effort, _) => { fromModel, toModel, effort }) (fun _ => rfl)

def modeSwitched : JsonCodec EntryModeSwitched :=
  ((text "from" <| text "to" <| field "source" (.always modeSwitchSource none) <|
      done).codec (by decide)).via
    (fun p => (p.fromMode, p.toMode, p.source, ()))
    (fun (fromMode, toMode, source, _) => { fromMode, toMode, source }) (fun _ => rfl)

def turnRevert : JsonCodec EntryTurnRevert :=
  ((text "from" <| text "through" <| text "kas_message_id" <|
      field "cause" (.always turnRevertCause none) <| wholeNat "from_n" <|
      done).codec (by decide)).via
    (fun p => (p.fromTurn, p.through, p.kasMessageID, p.cause, p.fromN, ()))
    (fun (fromTurn, through, kasMessageID, cause, fromN, _) =>
      { fromTurn, through, kasMessageID, cause, fromN }) (fun _ => rfl)

def reconciled : JsonCodec EntryReconciled :=
  ((textOmit "turn" <| textOmit "session" <| done).codec (by decide)).via
    (fun p => (p.turn, p.session, ()))
    (fun (turn, session, _) => { turn, session }) (fun _ => rfl)

def turnClose : JsonCodec EntryTurnClose :=
  ((field "changed_files" (.omitZero (map fileChange) []) <|
      field "refusal" (.pointer refusalInfo) <|
      field "outcome" (.always turnOutcome (some .absent)) <| textOmit "stop_reason_raw" <|
      textOmit "failure_reason" <| textOmit "model" <| listOmit "code_references" codeReference <|
      field "credits" (.omitZero number .zero) <| field "elapsed_ms" (.omitZero number .zero) <|
      boolOmit "truncated" <| done).codec (by decide)).via
    (fun p => (p.changedFiles, p.refusal, p.outcome, p.stopReasonRaw, p.failureReason, p.model,
      p.codeReferences, p.credits, p.elapsedMs, p.truncated, ()))
    (fun (changedFiles, refusal, outcome, stopReasonRaw, failureReason, model, codeReferences,
        credits, elapsedMs, truncated, _) =>
      { changedFiles, refusal, outcome, stopReasonRaw, failureReason, model, codeReferences,
        credits, elapsedMs, truncated }) (fun _ => rfl)

def encodePayload : Payload → Json
  | .turnOpen p => turnOpen.encode p
  | .turnBind p => turnBind.encode p
  | .text p => entryText.encode p
  | .thinking p => entryThinking.encode p
  | .toolCall p => toolCall.encode p
  | .toolResult p => toolResult.encode p
  | .steer p => steer.encode p
  | .steerAck p => steerAck.encode p
  | .plan p => plan.encode p
  | .compaction p => compaction.encode p
  | .compactionFailed p => compactionFailed.encode p
  | .safetyBlocked p => safetyBlocked.encode p
  | .modelSwitched p => modelSwitched.encode p
  | .modeSwitched p => modeSwitched.encode p
  | .turnRevert p => turnRevert.encode p
  | .reconciled p => reconciled.encode p
  | .turnClose p => turnClose.encode p

/-- A payload decodes as its kind says. -/
def decodePayload (kind : EntryKind) (v : Json) : Option Payload :=
  match kind with
  | .turnOpen => (turnOpen.decode v).map .turnOpen
  | .turnBind => (turnBind.decode v).map .turnBind
  | .text => (entryText.decode v).map .text
  | .thinking => (entryThinking.decode v).map .thinking
  | .toolCall => (toolCall.decode v).map .toolCall
  | .toolResult => (toolResult.decode v).map .toolResult
  | .steer => (steer.decode v).map .steer
  | .steerAck => (steerAck.decode v).map .steerAck
  | .plan => (plan.decode v).map .plan
  | .compaction => (compaction.decode v).map .compaction
  | .compactionFailed => (compactionFailed.decode v).map .compactionFailed
  | .safetyBlocked => (safetyBlocked.decode v).map .safetyBlocked
  | .modelSwitched => (modelSwitched.decode v).map .modelSwitched
  | .modeSwitched => (modeSwitched.decode v).map .modeSwitched
  | .turnRevert => (turnRevert.decode v).map .turnRevert
  | .reconciled => (reconciled.decode v).map .reconciled
  | .turnClose => (turnClose.decode v).map .turnClose

theorem decodePayload_encodePayload (p : Payload) :
    decodePayload p.kind (encodePayload p) = some p := by
  cases p <;>
    simp only [Payload.kind, decodePayload, encodePayload, JsonCodec.decode_encode, Option.map_some]

/-! ## The envelope -/

def envelope : Record (String × String × String × EntryKind × Json × ℕ × ℤ × Unit) :=
  text "id" <| text "turn" <| textOmit "lane" <| field "kind" (.always entryKind none) <|
    field "payload" (.always raw none) <| wholeNat "seq" <| whole "ts" <| done

def envelopeCodec : JsonCodec (String × String × String × EntryKind × Json × ℕ × ℤ × Unit) :=
  envelope.codec (by decide)

def encodeEntry (e : Entry) : Json :=
  envelopeCodec.encode (e.id, e.turn, e.lane, e.kind, encodePayload e.payload, e.seq, e.ts, ())

def decodeEntry (v : Json) : Option Entry :=
  match envelopeCodec.decode v with
  | none => none
  | some (id, turn, lane, kind, payload, seq, ts, _) =>
    (decodePayload kind payload).map (fun payload => { id, turn, lane, payload, seq, ts })

theorem decodeEntry_encodeEntry (e : Entry) : decodeEntry (encodeEntry e) = some e := by
  rw [decodeEntry, encodeEntry, JsonCodec.decode_encode]
  simp only [Entry.kind, decodePayload_encodePayload, Option.map_some]

end EntryCodec

/-- The line codec of the log: one object a line, compact, as the JSON encoder prints it. -/
def jsonLines : LineCodec where
  marshal e := Json.utf8 (Json.print (EntryCodec.encodeEntry e))
  unmarshal line := (Json.ofUtf8 line).bind (fun cs => (Json.parse cs).bind EntryCodec.decodeEntry)
  unmarshal_marshal e := by
    rw [Json.ofUtf8_utf8, Option.bind_some, Json.parse_print, Option.bind_some,
      EntryCodec.decodeEntry_encodeEntry]
  newline_notMem e := Json.newline_notMem_utf8 (Json.newline_notMem_print _)

end Marotte
