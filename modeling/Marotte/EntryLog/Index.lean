import Marotte.Entry.Bounds
import Marotte.Library.Window
import Mathlib.Data.Finset.Insert
import Mathlib.Logic.Function.Basic

/-! # The offset index of an entry log

One row per turn with its byte ranges and the facts the reads need, folded from one
entry at a time. The scan and every append go through the same fold; they differ in
when the reverted flags are written.
-/
namespace Marotte

/-- One tool_call the index holds open: its entry id, and the lane its result belongs in. -/
structure EntryCall where
  id : String
  lane : String
  deriving DecidableEq, Repr

/-- One contiguous run of a turn's own lines. -/
structure ByteRange where
  start : ℕ
  stop : ℕ
  deriving DecidableEq, Repr

/-- One turn_revert record: the turn that carries it and the window it states. -/
structure RevertWindow where
  carrier : String
  fromTurn : String
  through : String
  deriving DecidableEq, Repr

structure TurnState where
  results : Finset String
  firstLine : String
  source : TurnOpenSourceName
  outcome : TurnOutcome
  calls : List EntryCall
  ranges : List ByteRange
  openTs : ℤ
  lastTs : ℤ
  n : ℕ
  nextSeq : ℕ
  plans : ℕ
  drawn : Bool
  closed : Bool
  reverted : Bool
  hasRevert : Bool
  unterminated : Bool
  emptySteer : Bool
  deriving DecidableEq

/-- The turn's tool_calls with no tool_result, in the order they opened. -/
def TurnState.unsettled (st : TurnState) : List EntryCall :=
  st.calls.filter (fun c => toolResultID c.id ∉ st.results)

/-- Whether a turn's source draws a header of its own. -/
def drawnSource : TurnOpenSourceName → Bool
  | .prompt | .localShell | .emptyRetry => true
  | _ => false

/-- Whether an entry renders at its own position; only the first plan of a turn does. -/
def drawnBy (e : Entry) (plans : ℕ) : Bool :=
  if e.lane ≠ "" then false
  else match e.kind with
    | .turnOpen | .turnBind | .toolResult | .turnClose | .reconciled => false
    | .plan => plans == 0
    | _ => true

def isSpace (c : Char) : Bool :=
  c ∈ ['\t', '\n', Char.ofNat 0x0B, Char.ofNat 0x0C, '\r', ' ', Char.ofNat 0x85, Char.ofNat 0xA0,
    Char.ofNat 0x1680, Char.ofNat 0x2028, Char.ofNat 0x2029, Char.ofNat 0x202F,
    Char.ofNat 0x205F, Char.ofNat 0x3000] ||
  (0x2000 ≤ c.toNat && c.toNat ≤ 0x200A)

/-- A prompt's first line, whitespace-collapsed. -/
def firstLineOf (text : String) : String :=
  let line := text.toList.takeWhile (· ≠ '\n')
  String.ofList (List.intercalate [' '] ((line.splitOnP isSpace).filter (· ≠ [])))

def newTurnState (e : Entry) (p : EntryTurnOpen) (start stop : ℕ) : TurnState where
  results := ∅
  firstLine := (p.prompt.map (fun q => firstLineOf q.text)).getD ""
  source := p.source
  outcome := .absent
  calls := []
  ranges := [⟨start, stop⟩]
  openTs := e.ts
  lastTs := e.ts
  n := p.n
  nextSeq := e.seq + 1
  plans := 0
  drawn := drawnSource p.source
  closed := false
  reverted := false
  hasRevert := false
  unterminated := false
  emptySteer := false

/-- A line added to the last range when it starts where that one stops. -/
def extendRanges : List ByteRange → ℕ → ℕ → List ByteRange
  | [], start, stop => [⟨start, stop⟩]
  | [r], start, stop => if r.stop = start then [{ r with stop }] else [r, ⟨start, stop⟩]
  | r :: rs, start, stop => r :: extendRanges rs start stop

/-- The envelope's fold, before the kind's own: `drawnBy` reads the plans counted so far. -/
def TurnState.extend (st : TurnState) (e : Entry) (start stop : ℕ) : TurnState :=
  { st with
    ranges := extendRanges st.ranges start stop
    lastTs := e.ts
    nextSeq := if e.seq ≥ st.nextSeq then e.seq + 1 else st.nextSeq
    drawn := st.drawn || drawnBy e st.plans }

def foldTurnClose (st : TurnState) (p : EntryTurnClose) : TurnState :=
  { st with
    closed := true
    outcome := p.outcome
    unterminated := p.stopReasonRaw == stopReasonUnterminated }

def foldSteer (st : TurnState) (p : EntrySteer) : TurnState :=
  { st with emptySteer := st.emptySteer || p.text == "" }

/-- What one entry changes in its own turn's row. -/
def TurnState.fold (st : TurnState) (e : Entry) : TurnState :=
  match e.payload with
  | .toolCall _ => { st with calls := st.calls ++ [⟨e.id, e.lane⟩] }
  | .toolResult _ => { st with results := insert e.id st.results }
  | .plan _ => { st with plans := st.plans + 1 }
  | .turnClose p => foldTurnClose st p
  | .steer p => foldSteer st p
  | .turnRevert _ => { st with hasRevert := true }
  | _ => st

def TurnState.setReverted (st : TurnState) (v : Bool) : TurnState := { st with reverted := v }

/-- A `source: revert` turn holding no turn_revert of its own. -/
def TurnState.incompleteCarrier (st : TurnState) : Bool :=
  st.source == .revert && !st.hasRevert

/-- The index: a row per turn, the turns in file order, and the sets the reconcile reads. -/
@[ext]
structure Index where
  turns : String → Option TurnState
  order : List String
  newestRevert : String
  unappliedReverts : List RevertWindow
  boundSessions : Finset String
  reconciledTurns : Finset String
  reconciledSessions : Finset String
  size : ℕ

namespace Index

def empty : Index where
  turns := fun _ => none
  order := []
  newestRevert := ""
  unappliedReverts := []
  boundSessions := ∅
  reconciledTurns := ∅
  reconciledSessions := ∅
  size := 0

/-- A name added to a set, the empty one left out. -/
def note (s : String) (set : Finset String) : Finset String := if s = "" then set else insert s set

/-- What one entry changes beside its turn's row. -/
def fold (idx : Index) (e : Entry) : Index :=
  match e.payload with
  | .turnBind p => { idx with boundSessions := note p.sessionID idx.boundSessions }
  | .reconciled p =>
    { idx with
      reconciledTurns := note p.turn idx.reconciledTurns
      reconciledSessions := note p.session idx.reconciledSessions }
  | .turnRevert p =>
    { idx with
      newestRevert := e.id
      unappliedReverts := idx.unappliedReverts ++ [⟨e.turn, p.fromTurn, p.through⟩] }
  | _ => idx

def setTurn (idx : Index) (turn : String) (st : TurnState) : Index :=
  { idx with turns := Function.update idx.turns turn (some st) }

/-- Folds one entry at its byte range; none for a turn the index does not hold. -/
def observe (idx : Index) (e : Entry) (start stop : ℕ) : Option Index :=
  match e.payload with
  | .turnOpen p =>
    some { idx.setTurn e.turn (newTurnState e p start stop) with order := idx.order ++ [e.turn] }
  | _ =>
    match idx.turns e.turn with
    | none => none
    | some st => some ((idx.setTurn e.turn ((st.extend e start stop).fold e)).fold e)

/-- Folds one entry as the next line of the file, of `len` bytes. -/
def observeLine (idx : Index) (e : Entry) (len : ℕ) : Option Index :=
  (idx.observe e idx.size (idx.size + len)).map
    (fun i => { i with size := idx.size + len })

def revert (idx : Index) (turn : String) : Index :=
  { idx with
    turns := Function.update idx.turns turn
      ((idx.turns turn).map (·.setReverted true)) }

/-- The skip rule for one record: every turn of the window but its carrier. -/
def markReverted (idx : Index) (w : RevertWindow) : Index :=
  match idx.order.idxOf? w.fromTurn, idx.order.idxOf? w.through with
  | some first, some last =>
    if last < first then idx
    else ((idx.order.drop first).take (last + 1 - first)).foldl
      (fun idx id => if id = w.carrier then idx else idx.revert id) idx
  | _, _ => idx

/-- Resolves every window met since the last drain, in the order the file holds them. -/
def applyReverts (idx : Index) : Index :=
  idx.unappliedReverts.foldl markReverted { idx with unappliedReverts := [] }

def markIncompleteCarriers (idx : Index) : Index :=
  idx.order.foldl
    (fun idx id =>
      if ((idx.turns id).map TurnState.incompleteCarrier).getD false then idx.revert id else idx)
    idx

end Index

end Marotte
