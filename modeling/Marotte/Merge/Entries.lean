import Marotte.EntryLog.Rewrite
import Marotte.Library.Weave
import Marotte.Projection.Model

/-! # The replay merge

A replay's turns folded into the record's. The record's order is the spine: a projected entry that
the record lacks hangs off the nearest one before it that has a twin. Two entries that pair by id
are of one kind.
-/
namespace Marotte.Merge

open Projection (ProjectedTurn)

/-- One turn as the log holds it, with whether a revert hides it. -/
structure RecordTurn where
  entries : List Entry
  reverted : Bool := false
  deriving DecidableEq

structure MergedTurn where
  entries : List Entry
  reverted : Bool := false
  deriving DecidableEq

/-- The first turn_open of a turn. -/
def turnOpenOf : List Entry → Option EntryTurnOpen
  | [] => none
  | e :: es =>
    match e.payload with
    | .turnOpen p => some p
    | _ => turnOpenOf es

/-- One log read as turns, in the read's own order; a turn with no turn_open is skipped. -/
def recordTurnsOf (entries : List Entry) (reverted : List String) : List RecordTurn :=
  ((Grouping.keys Entry.turn entries).filter fun turn =>
      (turnOpenOf (EntryLog.turnGroup entries turn)).isSome).map fun turn =>
    { entries := EntryLog.turnGroup entries turn, reverted := reverted.contains turn }

/-! ## Pairing turns -/

/-- The keys that a turn offers: its prompt's record id, and its first content's id. -/
structure TurnKeys where
  prompt : String := ""
  content : String := ""
  deriving DecidableEq

/-- The prompt id that a turn_bind of this session names. -/
def boundPromptID (sid : String) : List Entry → String
  | [] => ""
  | e :: es =>
    match e.payload with
    | .turnBind bind => if bind.sessionID = sid then bind.kasMessageID else boundPromptID sid es
    | _ => boundPromptID sid es

/-- A subagent invocation's delegate uuid; empty for another call. -/
def invocationKey (e : Entry) : String :=
  match e.payload with
  | .toolCall call => call.agentSubtaskID
  | _ => ""

def firstContentKey : List Entry → String
  | [] => ""
  | e :: es =>
    match e.payload with
    | .text _ | .thinking _ => sayIDOf e.id
    | .toolCall _ => if invocationKey e ≠ "" then invocationKey e else e.id
    | _ => firstContentKey es

/-- A reverted turn has no keys, so nothing pairs with it. -/
def recordTurnKeys (sid : String) (rec : RecordTurn) : TurnKeys :=
  if rec.reverted then {}
  else { prompt := boundPromptID sid rec.entries, content := firstContentKey rec.entries }

def projectedTurnKeys (proj : ProjectedTurn) : TurnKeys where
  prompt := (((turnOpenOf proj.entries).bind EntryTurnOpen.prompt).map EntryPrompt.id).getD ""
  content := firstContentKey proj.entries

/-- The pairs of a record turn and a projected turn, by their places. -/
abbrev Pairs := List (ℕ × ℕ)

def recPartner (pairs : Pairs) (i : ℕ) : Option ℕ :=
  (Keyed.find Prod.fst pairs i).map Prod.snd

def projPartner (pairs : Pairs) (j : ℕ) : Option ℕ :=
  (Keyed.find Prod.snd pairs j).map Prod.fst

/-- The first projected turn of a key. -/
def firstByKey (projKeys : List TurnKeys) (key : TurnKeys → String) (k : String) : Option ℕ :=
  projKeys.findIdx? fun p => key p = k

/-- Whichever turn is paired already stays with its partner. -/
def pairOne (projKeys : List TurnKeys) (key : TurnKeys → String) (pairs : Pairs)
    (rec : TurnKeys × ℕ) : Pairs :=
  if key rec.1 = "" ∨ (recPartner pairs rec.2).isSome then pairs
  else
    match firstByKey projKeys key (key rec.1) with
    | none => pairs
    | some j => if (projPartner pairs j).isSome then pairs else pairs ++ [(rec.2, j)]

def pairOnKey (recKeys projKeys : List TurnKeys) (key : TurnKeys → String) (pairs : Pairs) :
    Pairs :=
  recKeys.zipIdx.foldl (pairOne projKeys key) pairs

/-- The prompt's rule first, so that a bound pair takes its partner before content can claim it. -/
def pairTurns (record : List RecordTurn) (projected : List ProjectedTurn) (sid : String) : Pairs :=
  let recKeys := record.map (recordTurnKeys sid)
  let projKeys := projected.map projectedTurnKeys
  pairOnKey recKeys projKeys TurnKeys.content (pairOnKey recKeys projKeys TurnKeys.prompt [])

/-! ## Pairing entries -/

section Index
variable (rec : List Entry)

def byID (id : String) : Option ℕ := rec.findIdx? fun e => e.id = id

/-- Every segment of a say, in order. -/
def bySay (say : String) : List ℕ :=
  (List.range rec.length).filter fun i =>
    rec[i]?.any fun e => (e.kind = .text ∨ e.kind = .thinking) ∧ sayIDOf e.id = say

def byInvocation (key : String) : Option ℕ := rec.findIdx? fun e => invocationKey e = key

def firstOfKind (kind : EntryKind) : Option ℕ := rec.findIdx? fun e => e.kind = kind

/-- What the pairing has claimed so far, and the twins that a paired invocation carries across to
its result. -/
structure EntryClaims where
  pairing : List (List ℕ) := []
  resultTwin : List (String × List ℕ) := []

namespace EntryClaims

def claimed (c : EntryClaims) (i : ℕ) : Bool := c.pairing.any fun group => group.contains i

/-- A group is claimed whole or not at all. -/
def claim (c : EntryClaims) (group : List ℕ) : EntryClaims :=
  { c with pairing := c.pairing ++ [if group.any c.claimed then [] else group] }

end EntryClaims

/-- The record entries that a projected one asks for. -/
def twins (resultTwin : List (String × List ℕ)) (e : Entry) : List ℕ :=
  match e.payload with
  | .turnOpen _ => (firstOfKind rec .turnOpen).toList
  | .turnClose _ => (firstOfKind rec .turnClose).toList
  | .text _ | .thinking _ => bySay rec (sayIDOf e.id)
  | .toolCall _ =>
    if invocationKey e = "" then (byID rec e.id).toList
    else (byInvocation rec (invocationKey e)).toList
  | .toolResult _ => (resultTwin.lookup e.id).getD (byID rec e.id).toList
  | _ => (byID rec e.id).toList

/-- A paired invocation's result pairs through its call. -/
def carried (e : Entry) : List (String × List ℕ) :=
  if invocationKey e = "" then []
  else
    match (byInvocation rec (invocationKey e)).bind (rec[·]?) with
    | none => []
    | some call => [(toolResultID e.id, (byID rec (toolResultID call.id)).toList)]

def pairEntry (c : EntryClaims) (e : Entry) : EntryClaims :=
  { c.claim (twins rec c.resultTwin e) with resultTwin := carried rec e ++ c.resultTwin }

/-- Each projected entry's record twins. -/
def pairEntries (proj : List Entry) : List (List ℕ) := (proj.foldl (pairEntry rec) {}).pairing

end Index

/-! ## The union of two entries -/

def sayTextOf (e : Entry) : String :=
  match e.payload with
  | .text p => p.text
  | .thinking p => p.text
  | _ => ""

/-- What a say's last segment gains: the tail of a projected text that the segments begin. -/
def sayExcess (rec : List Entry) (i : ℕ) (proj : Entry) : List Char :=
  if proj.kind ≠ .text ∧ proj.kind ≠ .thinking then []
  else
    let group := bySay rec (sayIDOf proj.id)
    if group.getLast? ≠ some i then []
    else
      let held := group.flatMap fun k => ((rec[k]?.map sayTextOf).getD "").toList
      let whole := (sayTextOf proj).toList
      if held.isPrefixOf whole then whole.drop held.length else []

/-- A string, or the other where it is empty. -/
def orElse (a b : String) : String := if a = "" then b else a

def unionSay (excess : List Char) : Payload → Payload
  | .text p => .text { text := p.text ++ String.ofList excess }
  | .thinking p => .thinking { text := p.text ++ String.ofList excess }
  | p => p

/-- An `aborted` of the record is inferred, so a terminal status of the replay replaces it; the
other fields are filled where the record states nothing. -/
def unionToolResult (r p : EntryToolResult) : EntryToolResult :=
  { r with
    status := if r.status = .aborted ∧ p.status.terminal then p.status else r.status
    output := orElse r.output p.output
    workflowID := orElse r.workflowID p.workflowID
    diffs := if r.diffs = [] then p.diffs else r.diffs
    checkpoint := r.checkpoint <|> p.checkpoint
    disclosed := r.disclosed <|> p.disclosed }

def unionSteer (r p : EntrySteer) : EntrySteer :=
  { r with text := orElse r.text p.text, severity := orElse r.severity p.severity }

def unionCompaction (r p : EntryCompaction) : EntryCompaction :=
  { r with summary := orElse r.summary p.summary }

/-- Only the placeholder closer is replaced, and its conclusion travels as a unit. -/
def unionTurnClose (r p : EntryTurnClose) : EntryTurnClose :=
  if r.stopReasonRaw ≠ stopReasonUnterminated then r
  else
    { r with
      outcome := p.outcome
      stopReasonRaw := p.stopReasonRaw
      failureReason := p.failureReason
      truncated := p.truncated
      credits := p.credits
      elapsedMs := p.elapsedMs }

def unionPayload (excess : List Char) (rec proj : Payload) : Payload :=
  match rec, proj with
  | .toolResult r, .toolResult p => .toolResult (unionToolResult r p)
  | .steer r, .steer p => .steer (unionSteer r p)
  | .compaction r, .compaction p => .compaction (unionCompaction r p)
  | .turnClose r, .turnClose p => .turnClose (unionTurnClose r p)
  | r, _ => unionSay excess r

/-- The record is the base: its id, turn, kind, seq and place are kept. -/
def unionEntry (rec proj : Entry) (excess : List Char) : Entry :=
  { rec with
    lane := orElse rec.lane proj.lane
    ts := if rec.ts = 0 then proj.ts else rec.ts
    payload := unionPayload excess rec.payload proj.payload }

/-! ## Turns -/

/-- A projected entry with no twin, filed into a turn: a steer that no process saw injected was
dropped by the restart. -/
def insertedEntry (turn : String) (proj : Entry) : Entry :=
  { proj with
    turn
    payload :=
      match proj.payload with
      | .steer steer => .steer { steer with state := .dropped, reason := .restart }
      | p => p }

/-- The closer of a turn that neither side closed. -/
def synthesizedCloser (turn : String) : Entry where
  id := turn ++ ":close"
  turn := turn
  payload := .turnClose { outcome := .interrupted, stopReasonRaw := stopReasonUnterminated }

def closing (turn : String) (entries : List Entry) : List Entry :=
  if entries.any fun e => e.kind = .turnClose then [] else [synthesizedCloser turn]

def closed (turn : String) (entries : List Entry) : List Entry := entries ++ closing turn entries

def turnOf (entries : List Entry) : String := (entries.head?.map Entry.turn).getD ""

def insertedTurn (proj : ProjectedTurn) : MergedTurn :=
  let turn := turnOf proj.entries
  { entries := closed turn (proj.entries.map (insertedEntry turn)) }

def keptTurn (rec : RecordTurn) : MergedTurn := { entries := rec.entries, reverted := rec.reverted }

section MergeTurn
variable (rec : RecordTurn) (proj : ProjectedTurn)

/-- A projected entry's place on the spine is its last twin. -/
def entryPlace (p : Entry × ℕ) : Option ℕ :=
  ((pairEntries rec.entries proj.entries)[p.2]?.getD []).getLast?

def hungEntries : List (ℕ × (Entry × ℕ)) :=
  Weave.hang (entryPlace rec proj) ((firstOfKind rec.entries .turnOpen).getD 0) proj.entries.zipIdx

/-- The projected entry that claims a record entry. -/
def claimant (i : ℕ) : Option Entry :=
  ((pairEntries rec.entries proj.entries).findIdx? fun group => group.contains i).bind
    (proj.entries[·]?)

def emittedEntry (e : Entry) (i : ℕ) : Entry :=
  match claimant rec proj i with
  | none => e
  | some twin => unionEntry e twin (sayExcess rec.entries i twin)

def mergedEntries : List Entry :=
  Weave.weave Prod.snd (fun p => emittedEntry rec proj p.1 p.2)
    (fun q => insertedEntry (turnOf rec.entries) q.1) (hungEntries rec proj) rec.entries.zipIdx

def mergeTurn : MergedTurn where
  entries := closed (turnOf rec.entries) (mergedEntries rec proj)
  reverted := rec.reverted

/-- Whether the merge changed an entry, inserted one or closed the turn. -/
def mergeMoved : Bool :=
  (rec.entries.zipIdx.any fun p =>
    emittedEntry rec proj p.1 p.2 ≠ p.1 ∨ Weave.bucket (hungEntries rec proj) p.2 ≠ []) ||
  closing (turnOf rec.entries) (mergedEntries rec proj) ≠ []

end MergeTurn

/-! ## Numbering -/

def renumberOpen (n : ℕ) : Payload → Payload
  | .turnOpen p => .turnOpen { p with n }
  | p => p

/-- A reverted turn keeps whatever ordinal it had. -/
def renumberEntry (reverted : Bool) (n seq : ℕ) (e : Entry) : Entry :=
  { e with seq, payload := if reverted then e.payload else renumberOpen n e.payload }

def renumberTurn (n : ℕ) (t : MergedTurn) : MergedTurn :=
  { t with entries := t.entries.mapIdx fun seq e => renumberEntry t.reverted n seq e }

/-- Each turn's seq from zero, and each surviving turn's n one past the survivors before it. -/
def renumber (surviving : ℕ) : List MergedTurn → List MergedTurn
  | [] => []
  | t :: ts =>
    let n := if t.reverted then surviving else surviving + 1
    renumberTurn n t :: renumber n ts

/-- Whether the numbering moved anything. -/
def renumberMoved (turns : List MergedTurn) : Bool := renumber 0 turns ≠ turns

/-! ## The merge -/

section Merge
variable (record : List RecordTurn) (projected : List ProjectedTurn) (sid : String)

def hungTurns : List (Option ℕ × (ProjectedTurn × ℕ)) :=
  Weave.hang (fun p => (projPartner (pairTurns record projected sid) p.2).map some) none
    projected.zipIdx

def insertedTurns (anchor : Option ℕ) : List MergedTurn :=
  (Weave.bucket (hungTurns record projected sid) anchor).map fun p => insertedTurn p.1

/-- The projected turn that a record turn is paired with. -/
def partner (i : ℕ) : Option ProjectedTurn :=
  (recPartner (pairTurns record projected sid) i).bind (projected[·]?)

def emittedTurn (rec : RecordTurn) (i : ℕ) : MergedTurn :=
  match partner record projected sid i with
  | none => keptTurn rec
  | some proj => mergeTurn rec proj

/-- The merged turns before they are numbered. -/
def wovenTurns : List MergedTurn :=
  insertedTurns record projected sid none ++
    Weave.weave (fun p => some p.2) (fun p => emittedTurn record projected sid p.1 p.2)
      (fun q => insertedTurn q.1) (hungTurns record projected sid) record.zipIdx

def turnMoved (rec : RecordTurn) (i : ℕ) : Bool :=
  match partner record projected sid i with
  | none => false
  | some proj => mergeMoved rec proj

/-- A replay's turns folded into the record's, and whether anything moved. -/
def mergeEntries : List MergedTurn × Bool :=
  (renumber 0 (wovenTurns record projected sid),
    renumberMoved (wovenTurns record projected sid) ||
      insertedTurns record projected sid none ≠ [] ||
      record.zipIdx.any fun p =>
        turnMoved record projected sid p.1 p.2 ||
          insertedTurns record projected sid (some p.2) ≠ [])

end Merge
end Marotte.Merge
