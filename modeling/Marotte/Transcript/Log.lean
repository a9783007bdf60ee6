import Marotte.Entry.Types
import Marotte.Library.Keyed

/-! # The log that a browser's window follows

One chat's log and open tails as the server's actions leave them, the frames that announce the
actions, and the reads. Of an entry's payload only what a window reads is kept.
-/
namespace Marotte.Transcript

inductive SayKind where
  | text | thinking
  deriving DecidableEq

inductive Payload where
  | turnOpen (n : ℕ)
  | turnRevert (fromTurn : String) (fromN : ℕ)
  | say (kind : SayKind) (text : String)
  | other (kind : EntryKind)
  deriving DecidableEq

structure Entry where
  id : String
  turn : String
  lane : String := ""
  payload : Payload
  seq : ℕ
  ts : ℤ := 0
  deriving DecidableEq

def Payload.kind : Payload → EntryKind
  | .turnOpen _ => .turnOpen
  | .turnRevert _ _ => .turnRevert
  | .say .text _ => .text
  | .say .thinking _ => .thinking
  | .other kind => kind

def Entry.kind (e : Entry) : EntryKind := e.payload.kind

/-- The entry that a lane is coalescing; `n` counts the deltas folded into its text. -/
structure OpenEntry where
  turn : String
  id : String
  lane : String
  kind : SayKind
  text : String
  n : ℕ
  deriving DecidableEq

/-- An open entry frozen at a position of its turn. -/
def OpenEntry.sealed (o : OpenEntry) (seq : ℕ) (ts : ℤ) : Entry where
  id := o.id
  turn := o.turn
  lane := o.lane
  payload := .say o.kind o.text
  seq := seq
  ts := ts

/-- Where an open entry stands: one for each lane of a turn. -/
def OpenEntry.place (o : OpenEntry) : String × String := (o.turn, o.lane)

inductive Frame where
  | turnOpened (e : Entry)
  | entryOpened (o : OpenEntry)
  | entryDelta (turn id lane : String) (n : ℕ) (delta : String)
  | entrySealed (turn id lane : String) (seq : ℕ) (ts : ℤ) (n : ℕ)
  /-- Every other append, a turn_close included. -/
  | entryAppended (e : Entry)
  deriving DecidableEq

/-- What the server does to the log: it is announced by a frame, or by none. -/
inductive Action where
  | announced (f : Frame)
  | silent (e : Entry)

/-! ## The log -/

structure Log where
  entries : List Entry := []
  tails : List OpenEntry := []
  reverted : List String := []

namespace Log

variable (l : Log)

/-- The turns, in file order. -/
def order : List String := (l.entries.filter (·.kind = .turnOpen)).map Entry.turn

/-- A turn's own entries, in file order. -/
def own (turn : String) : List Entry := l.entries.filter (·.turn = turn)

def survivors : List String := l.order.filter (· ∉ l.reverted)

def tail (turn lane : String) : Option OpenEntry := Keyed.find OpenEntry.place l.tails (turn, lane)

def ordinalOf (entries : List Entry) : Option ℕ :=
  match entries.head?.map Entry.payload with
  | some (.turnOpen n) => some n
  | _ => none

def ordinal (turn : String) : ℕ := (ordinalOf (l.own turn)).getD 0

/-- The newest surviving turn's ordinal. -/
def turnCount : ℕ := (l.survivors.getLast?.map l.ordinal).getD 0

/-- The turns a record takes: from the one it names to the newest, but for its carrier. -/
def window (fromTurn carrier : String) : List String :=
  (l.order.dropWhile (· ≠ fromTurn)).filter (· ≠ carrier)

/-- An entry at the end of the file; a revert's record takes its window. -/
def place (e : Entry) : Log :=
  { l with
    entries := l.entries ++ [e]
    reverted := match e.payload with
      | .turnRevert fromTurn _ => l.reverted ++ l.window fromTurn e.turn
      | _ => l.reverted }

def setTail (o : OpenEntry) : Log := { l with tails := Keyed.set OpenEntry.place l.tails o }

def eraseTail (turn lane : String) : Log :=
  { l with tails := Keyed.erase OpenEntry.place l.tails (turn, lane) }

/-- What a frame says was done. -/
def announce : Frame → Log
  | .turnOpened e | .entryAppended e => l.place e
  | .entryOpened o => l.setTail o
  | .entryDelta turn _ lane n delta =>
    match l.tail turn lane with
    | some o => l.setTail { o with text := o.text ++ delta, n }
    | none => l
  | .entrySealed turn _ lane seq ts _ =>
    match l.tail turn lane with
    | some o => (l.place (o.sealed seq ts)).eraseTail turn lane
    | none => l

def act : Action → Log
  | .announced f => l.announce f
  | .silent e => l.place e

/-- The log that a list of actions leaves. -/
def after (actions : List Action) : Log := actions.foldl act {}

/-! ## The server's operations -/

def holdsClose (turn : String) : Bool := (l.own turn).any (·.kind = .turnClose)

/-- A lane is sealed before an entry of it, and every lane before an entry of none. -/
def sealedFor (turn lane : String) : Bool :=
  if lane = "" then l.tails.all (·.turn ≠ turn) else (l.tail turn lane).isNone

end Log

inductive ServerOp where
  | openTurn (turn : String) (ts : ℤ)
  | openEntry (turn lane id : String) (kind : SayKind) (text : String)
  | extend (turn lane delta : String)
  | seal (turn lane : String) (ts : ℤ)
  | append (turn lane id : String) (payload : Payload) (ts : ℤ)
  | revert (fromTurn mint : String) (ts : ℤ)

namespace Log

variable (l : Log)

def openedEntry (turn : String) (n : ℕ) (ts : ℤ) : Entry :=
  { id := turn, turn, payload := .turnOpen n, seq := 0, ts }

def revertRecord (fromTurn carrier : String) (seq : ℕ) (ts : ℤ) : Entry where
  id := fromTurn ++ ":revert"
  turn := carrier
  payload := .turnRevert fromTurn (l.ordinal fromTurn)
  seq := seq
  ts := ts

/-- What an operation does, or nothing where it is refused. -/
def perform : ServerOp → List Action
  | .openTurn turn ts =>
    if turn ∈ l.order then []
    else [.announced (.turnOpened (openedEntry turn (l.turnCount + 1) ts))]
  | .openEntry turn lane id kind text =>
    if turn ∈ l.order ∧ l.holdsClose turn = false ∧ l.tail turn lane = none then
      [.announced (.entryOpened { turn, id, lane, kind, text, n := 1 })]
    else []
  | .extend turn lane delta =>
    match l.tail turn lane with
    | some o => [.announced (.entryDelta turn o.id lane (o.n + 1) delta)]
    | none => []
  | .seal turn lane ts =>
    match l.tail turn lane with
    | some o => [.announced (.entrySealed turn o.id lane (l.own turn).length ts o.n)]
    | none => []
  | .append turn lane id payload ts =>
    if turn ∈ l.order ∧ payload.kind ≠ .turnOpen ∧ payload.kind ≠ .turnRevert ∧
        l.sealedFor turn lane then
      [.announced (.entryAppended { id, turn, lane, payload, seq := (l.own turn).length, ts })]
    else []
  -- the record goes into the newest turn that it leaves, or into one minted and closed for it
  | .revert fromTurn mint ts =>
    if fromTurn ∈ l.survivors ∧ l.tails = [] then
      match (l.survivors.filter (· ∉ l.order.dropWhile (· ≠ fromTurn))).getLast? with
      | some carrier =>
        [.announced (.entryAppended
          (l.revertRecord fromTurn carrier (l.own carrier).length ts))]
      | none =>
        if mint ∈ l.order then []
        else [.announced (.turnOpened (openedEntry mint 1 ts)),
          .silent { id := mint ++ ":close", turn := mint, payload := .other .turnClose, seq := 1, ts },
          .announced (.entryAppended (l.revertRecord fromTurn mint 2 ts))]
    else []

/-! ## The reads -/

/-- The newest `size` surviving turns, or those before `before`, with the open tails of a newest
page; none for a cursor that names no surviving turn. -/
def page (size : ℕ) (before : Option String) : Option (List Entry × List OpenEntry) :=
  let order := l.survivors
  match (match before with
    | none => some order.length
    | some id => order.idxOf? id) with
  | none => none
  | some upper =>
    let set := (order.take upper).drop (upper - size)
    some (l.entries.filter (·.turn ∈ set),
      if before.isNone then l.tails.filter (·.turn ∈ set) else [])

/-- A surviving turn's entries past `after`, with its open tails. -/
def turnRange (turn : String) (after : Option ℕ) : Option (List Entry × List OpenEntry) :=
  if turn ∈ l.survivors then
    some ((l.own turn).filter (fun e => match after with
      | some a => a < e.seq
      | none => true), l.tails.filter (·.turn = turn))
  else none

end Log
end Marotte.Transcript
