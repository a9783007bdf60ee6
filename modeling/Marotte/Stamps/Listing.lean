import Marotte.Library.Along
import Marotte.Library.Keyed

/-! # The chat list and its stamp

The store's operations write headers under the chat's lock and mint the `chats` version, some of
them after they released it. A list call reads the version and then shares one directory scan with
the calls that find it running; the scan takes no lock.
-/
namespace Marotte.Stamps

/-- A chat's header as the list answers it; `rest` is what the log's counters leave alone. -/
structure ChatHeader (α : Type) where
  id : String
  turnCount : ℕ := 0
  lastTurnOutcome : String := ""
  rest : α
  deriving DecidableEq

/-- The log's counters are cached on the header. -/
def ChatHeader.counters {α : Type} (h : ChatHeader α) (turnCount : ℕ) (last : String) :
    ChatHeader α :=
  { h with turnCount, lastTurnOutcome := last }

/-- Where an operation that has written a header stands: it mints the version under the lock it
still holds, it has released the lock and `bumpChatWindow` is to load the header, or only the mint
is left. -/
inductive OpStage where
  | saved
  | window
  | moved
  deriving DecidableEq

structure StoreOp where
  chatID : String
  stage : OpStage
  deriving DecidableEq

/-- The shared scan. `started` is the version it started at, `todo` the directory entries whose
headers it has not read, once it has listed the directory. -/
structure ListScan (α : Type) where
  started : ℕ
  todo : Option (List String) := none
  got : List (ChatHeader α) := []

/-- What a list call answered. -/
structure ListAnswer (α : Type) where
  stamp : ℕ
  headers : List (ChatHeader α)
  deriving DecidableEq

/-- The store and its list calls. `version` is the `chats` version; `calls` are the calls that have
read it and `waiting` those that share the scan, each by its stamp. -/
structure ChatStore (α : Type) where
  headers : List (ChatHeader α) := []
  version : ℕ := 0
  ops : List StoreOp := []
  scan : Option (ListScan α) := none
  calls : List ℕ := []
  waiting : List ℕ := []
  answers : List (ListAnswer α) := []

/-- The steps of the operations and of the list calls. `changesWindow` is the locked part of a
revert or a reconcile that reports a change; `extra` are directory entries with no header. -/
inductive StoreEvent (α : Type) where
  | mutates (h : ChatHeader α)
  | removes (chatID : String)
  | logOpens (chatID : String) (turnCount : ℕ) (last : String)
  | writesCounters (chatID : String) (turnCount : ℕ) (last : String)
  | changesWindow (h : ChatHeader α)
  | loadsWindow (op : StoreOp)
  | bumps (op : StoreOp)
  | listStamped
  | joins (stamp : ℕ)
  | scans
  | readsDir (extra : List String)
  | readsHeader (chatID : String)
  | scanEnds

namespace ChatStore

variable {α : Type} (s : ChatStore α)

def header (chatID : String) : Option (ChatHeader α) :=
  Keyed.find ChatHeader.id s.headers chatID

def locked (chatID : String) : Bool :=
  s.ops.any fun op => op.chatID = chatID ∧ op.stage = .saved

/-- A header is written by an operation that owes the mint. -/
def write (h : ChatHeader α) (stage : OpStage) : ChatStore α :=
  { s with
    headers := Keyed.set ChatHeader.id s.headers h
    ops := { chatID := h.id, stage } :: s.ops }

/-- `Remove`: a directory with no header is no chat. -/
def remove (chatID : String) : ChatStore α :=
  match s.header chatID with
  | none => s
  | some _ =>
    { s with
      headers := Keyed.erase ChatHeader.id s.headers chatID
      ops := { chatID, stage := .saved } :: s.ops }

/-- A log's first use closes what its process left open and caches the counters. -/
def logOpens (chatID : String) (turnCount : ℕ) (last : String) : ChatStore α :=
  match s.header chatID with
  | none => s
  | some h => { s with headers := Keyed.set ChatHeader.id s.headers (h.counters turnCount last) }

/-- `WriteCounters`: it mints when the counters moved, once it has released the lock. -/
def writeCounters (chatID : String) (turnCount : ℕ) (last : String) : ChatStore α :=
  match s.header chatID with
  | none => s
  | some h =>
    if h.turnCount = turnCount ∧ h.lastTurnOutcome = last then s
    else s.write (h.counters turnCount last) .moved

/-- `bumpChatWindow` mints nothing for a header that it cannot load. -/
def loadWindow (op : StoreOp) : ChatStore α :=
  match s.header op.chatID with
  | none => { s with ops := s.ops.erase op }
  | some _ => { s with ops := { op with stage := .moved } :: s.ops.erase op }

/-- The shared scan is joined, or started. -/
def join (stamp : ℕ) : ChatStore α :=
  { s with
    calls := s.calls.erase stamp
    waiting := stamp :: s.waiting
    scan := some (s.scan.getD { started := s.version }) }

def readHeader (scan : ListScan α) (todo : List String) (chatID : String) : ListScan α :=
  { scan with
    todo := some (todo.erase chatID)
    got := match s.header chatID with
      | some h => Keyed.set ChatHeader.id scan.got h
      | none => Keyed.erase ChatHeader.id scan.got chatID }

def step (s : ChatStore α) : StoreEvent α → ChatStore α
  | .mutates h => if s.locked h.id then s else s.write h .saved
  | .removes chatID => if s.locked chatID then s else s.remove chatID
  | .logOpens chatID turnCount last =>
    if s.locked chatID then s else s.logOpens chatID turnCount last
  | .writesCounters chatID turnCount last =>
    if s.locked chatID then s else s.writeCounters chatID turnCount last
  | .changesWindow h =>
    if s.locked h.id ∨ s.header h.id = none then s else s.write h .window
  | .loadsWindow op =>
    if op ∈ s.ops ∧ op.stage = .window ∧ s.locked op.chatID = false then s.loadWindow op else s
  | .bumps op =>
    if op ∈ s.ops ∧ op.stage ≠ .window then
      { s with version := s.version + 1, ops := s.ops.erase op }
    else s
  | .listStamped => { s with calls := s.version :: s.calls }
  | .joins stamp => if stamp ∈ s.calls then s.join stamp else s
  | .scans => { s with scan := some (s.scan.getD { started := s.version }) }
  | .readsDir extra =>
    { s with
      scan := s.scan.map fun scan =>
        if scan.todo = none then
          { scan with todo := some ((s.headers.map ChatHeader.id ++ extra).dedup) }
        else scan }
  | .readsHeader chatID =>
    { s with
      scan := s.scan.map fun scan =>
        match scan.todo with
        | some todo => if chatID ∈ todo then s.readHeader scan todo chatID else scan
        | none => scan }
  | .scanEnds =>
    match s.scan with
    | some scan =>
      if scan.todo = some [] then
        { s with
          scan := none
          waiting := []
          answers := s.waiting.map (fun stamp => { stamp, headers := scan.got }) ++ s.answers }
      else s
    | none => s

end ChatStore
end Marotte.Stamps
