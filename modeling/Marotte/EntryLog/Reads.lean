import Marotte.EntryLog.Open

/-! # The reads of an entry log

Every read answers from the index, and from the byte ranges it holds for a turn.
-/
namespace Marotte

/-- The rail row of one drawn turn. -/
structure TurnSummary where
  id : String
  firstLine : String
  outcome : TurnOutcome
  n : ℕ
  ts : ℤ
  agentInitiated : Bool
  deriving DecidableEq, Repr

/-- A page of the log; `hasMore` says an older turn lies outside it. -/
structure Page where
  entries : List Entry
  hasMore : Bool
  deriving DecidableEq

namespace LineCodec

variable (c : LineCodec)

/-- One line read back, given with what it takes up in the file. -/
def decodeLine (line : List UInt8) (bytes : ℕ) : Except LogError Entry :=
  if bytes > maxEntryLineBytes then .error (.entryLineTooLong bytes)
  else match c.unmarshal line with
    | none => .error .parseEntry
    | some e => .ok e

/-- Every line of a list read back, or the first error. -/
def decodeLines : List (List UInt8) → Except LogError (List Entry)
  | [] => .ok []
  | line :: lines =>
    match c.decodeLine line (line.length + 1) with
    | .error err => .error err
    | .ok e =>
      match decodeLines lines with
      | .error err => .error err
      | .ok es => .ok (e :: es)

/-- One byte range's lines, those whose turn is wanted kept. -/
def decodeEntryRange (bytes : List UInt8) (want : List String) : Except LogError (List Entry) :=
  let (lines, tail) := Lines.split newline bytes
  match c.decodeLines lines with
  | .error err => .error err
  | .ok es =>
    if tail = [] then .ok (es.filter (fun e => want.contains e.turn))
    else match c.decodeLine tail tail.length with
      | .error err => .error err
      | .ok e => .ok ((es ++ [e]).filter (fun e => want.contains e.turn))

def readRanges (file : List UInt8) (want : List String) :
    List ByteRange → Except LogError (List Entry)
  | [] => .ok []
  | r :: rs =>
    match c.decodeEntryRange ((file.drop r.start).take (r.stop - r.start)) want with
    | .error err => .error err
    | .ok es =>
      match readRanges file want rs with
      | .error err => .error err
      | .ok es' => .ok (es ++ es')

end LineCodec

namespace EntryLog

variable (c : LineCodec) (l : EntryLog)

/-- The set's own byte ranges, in file order, and the entries of the set in them. -/
def readSet (set : List String) : Except LogError (List Entry) :=
  if set = [] then .ok []
  else
    let ranges := set.flatMap (fun id => ((l.index.turns id).map TurnState.ranges).getD [])
    c.readRanges l.file set (ranges.insertionSort (fun r s => r.start ≤ s.start))

/-- Every surviving entry in file order. -/
def all : Except LogError (List Entry) := l.readSet c l.index.survivingOrder

/-- The turns a revert took, or that carry none of their own. -/
def revertedTurns : List String :=
  l.index.order.filter (fun id => ((l.index.turns id).map TurnState.reverted).getD false)

/-- Every entry in file order, reverted ones included, beside the reverted turns. -/
def allWithReverted : Except LogError (List Entry × List String) :=
  match l.readSet c l.index.order with
  | .error err => .error err
  | .ok es => .ok (es, l.revertedTurns)

/-- The page of the `turns` survivors with the highest n, or of those before `before`. -/
def window (turns : ℤ) (before : String) : Except LogError Page :=
  let order := l.index.survivingOrder
  match (if before = "" then some order.length else order.idxOf? before) with
  | none => .error (.windowBefore before)
  | some upper =>
    let lower := upper - turns.toNat
    match l.readSet c ((order.take upper).drop lower) with
    | .error err => .error err
    | .ok es => .ok ⟨es, 0 < lower⟩

/-- A surviving turn's entries from a seq on. -/
def turnRange (turn : String) (fromSeq : ℕ) : Except LogError (List Entry) :=
  match l.index.turns turn with
  | none => .error (.turnNotInLog turn)
  | some st =>
    if st.reverted then .error (.turnNotInLog turn)
    else match l.readSet c [turn] with
      | .error err => .error err
      | .ok es => .ok (if fromSeq = 0 then es else es.filter (fun e => fromSeq ≤ e.seq))

/-- The same with the seq the page speaks for: its newest entry's, or the cursor held. -/
def turnPage (turn : String) (fromSeq : ℕ) : Except LogError (List Entry × ℕ) :=
  match l.turnRange c turn fromSeq with
  | .error err => .error err
  | .ok es =>
    match es.getLast? with
    | some e => .ok (es, e.seq)
    | none => .ok (es, fromSeq - 1)

def newestSeq (turn : String) : Option ℕ := (l.index.turns turn).map (fun st => st.nextSeq - 1)

def railRow (id : String) (st : TurnState) : Option TurnSummary :=
  if st.drawn then
    some
      { id := id
        firstLine := st.firstLine
        outcome := if st.closed then st.outcome else .running
        n := st.n
        ts := st.openTs
        agentInitiated := !drawnSource st.source }
  else none

/-- One row per drawn survivor, oldest first. -/
def railRows : List TurnSummary :=
  l.index.survivingOrder.filterMap (fun id => (l.index.turns id).bind (railRow id))

def newestRevert : Option String :=
  if l.index.newestRevert = "" then none else some l.index.newestRevert

/-- The header's session when the log neither binds nor records it. -/
def unadoptedSession : String :=
  if l.header.sessionID = "" then ""
  else if l.header.sessionID ∈ l.index.boundSessions then ""
  else if l.header.sessionID ∈ l.index.reconciledSessions then ""
  else l.header.sessionID

/-- Whether a turn's row carries a signal that no record of the log clears. -/
def signalled (id : String) : Bool :=
  match l.index.turns id with
  | none => false
  | some st => !st.reverted && (st.unterminated || st.emptySteer) && id ∉ l.index.reconciledTurns

/-- The survivors whose signal no record clears, and the session never adopted. -/
def reconcileTargets : List String × String :=
  if l.header.reconcilable then (l.index.order.filter l.signalled, l.unadoptedSession)
  else ([], "")

def needsReconcile : Bool := l.reconcileTargets.1 ≠ [] || l.reconcileTargets.2 ≠ ""

end EntryLog

end Marotte
