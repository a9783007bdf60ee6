import Mathlib.Data.Int.Notation
import Marotte.Library.Along
import Marotte.Library.Keyed

/-! # The browser's chat list

The server's chats with the frames that announce them, and one browser's rows under the frames and
under list reads. A read aborts the one before it, is answered from some state of the server, and
replaces every row but those that arrived since it began.
-/
namespace Marotte.ChatList

/-- A chat's header on the wire. An empty field is left out of it. -/
structure ChatHeader where
  id : String
  name : String
  acpSessionID : Option String := none
  currentModeID : Option String := none
  supervisedMode : Option Bool := none
  effort : Option String := none
  pendingModel : Option String := none
  lastTurnOutcome : Option String := none
  updatedAt : ℤ
  deriving DecidableEq

/-- A row of the browser's store; the boot snapshot's are provisional. -/
structure Session where
  id : String
  name : String
  acpSessionID : String := ""
  currentModeID : String := ""
  supervisedMode : Bool := false
  effort : String := ""
  pendingModel : Option String := none
  lastTurnOutcome : Option String := none
  updatedAt : ℤ
  provisional : Bool := false
  deriving DecidableEq

/-- What a header and a row state of a chat. -/
structure ChatFacts where
  name : String
  acpSessionID : String
  currentModeID : String
  supervisedMode : Bool
  effort : String
  pendingModel : String
  lastTurnOutcome : Option String
  updatedAt : ℤ
  deriving DecidableEq

def ChatHeader.facts (h : ChatHeader) : ChatFacts where
  name := h.name
  acpSessionID := h.acpSessionID.getD ""
  currentModeID := h.currentModeID.getD ""
  supervisedMode := h.supervisedMode.getD false
  effort := h.effort.getD ""
  pendingModel := h.pendingModel.getD ""
  lastTurnOutcome := h.lastTurnOutcome
  updatedAt := h.updatedAt

def Session.facts (s : Session) : ChatFacts where
  name := s.name
  acpSessionID := s.acpSessionID
  currentModeID := s.currentModeID
  supervisedMode := s.supervisedMode
  effort := s.effort
  pendingModel := s.pendingModel.getD ""
  lastTurnOutcome := s.lastTurnOutcome
  updatedAt := s.updatedAt

/-- The row that a list answer makes of a header. -/
def ChatHeader.session (h : ChatHeader) : Session where
  id := h.id
  name := h.name
  acpSessionID := h.acpSessionID.getD ""
  currentModeID := h.currentModeID.getD ""
  supervisedMode := h.supervisedMode.getD false
  effort := h.effort.getD ""
  pendingModel := h.pendingModel
  lastTurnOutcome := h.lastTurnOutcome
  updatedAt := h.updatedAt

/-- The row that `upsertHeader` makes of one it finds. -/
def Session.update (s : Session) (h : ChatHeader) : Session where
  id := s.id
  name := h.name
  acpSessionID := h.acpSessionID.getD ""
  currentModeID := h.currentModeID.getD ""
  supervisedMode := h.supervisedMode.getD false
  effort := h.effort.getD ""
  pendingModel := some (h.pendingModel.getD "")
  lastTurnOutcome := h.lastTurnOutcome
  updatedAt := h.updatedAt
  provisional := s.provisional

/-- The row that `upsertHeader` inserts. -/
def ChatHeader.inserted (h : ChatHeader) : Session :=
  { h.session with pendingModel := some (h.pendingModel.getD "") }

inductive ChatFrame where
  | chatCreated (h : ChatHeader)
  | chatUpdated (h : ChatHeader)
  | chatDeleted (id : String)

def ChatFrame.chatID : ChatFrame → String
  | .chatCreated h | .chatUpdated h => h.id
  | .chatDeleted id => id

/-- What a frame leaves of its chat. -/
def ChatFrame.facts : ChatFrame → Option ChatFacts
  | .chatCreated h | .chatUpdated h => some h.facts
  | .chatDeleted _ => none

/-- One `loadList`: the rows known as it began, whether it was aborted, and the chats it was
answered with, from the state the server had behind that many frames. -/
structure LoadCall where
  serial : ℕ
  knownBefore : List String
  aborted : Bool := false
  answer : Option (ℕ × List ChatHeader) := none

/-- What the last attempt to list the chats learned. -/
inductive ListReach where
  | unknown
  | reachable
  | unreachable
  deriving DecidableEq

/-- The server with every frame it published, and the browser, which has applied the first
`applied` of them. -/
structure ListState where
  chats : List ChatHeader := []
  published : List ChatFrame := []
  sessions : List Session := []
  applied : ℕ := 0
  calls : List LoadCall := []
  started : ℕ := 0
  listController : Option ℕ := none
  listReach : ListReach := .unknown

inductive ListEvent where
  | saves (h : ChatHeader)
  | deletes (id : String)
  | delivers
  | loads
  /-- The signal of a revalidation. -/
  | aborts (serial : ℕ)
  | answers (serial : ℕ)
  | resolves (serial : ℕ)
  | fails (serial : ℕ)

namespace ListState

variable (s : ListState)

def saveFrame (h : ChatHeader) : ChatFrame :=
  match Keyed.find ChatHeader.id s.chats h.id with
  | none => .chatCreated h
  | some _ => .chatUpdated h

def upsertHeader (h : ChatHeader) : List Session :=
  match Keyed.find Session.id s.sessions h.id with
  | some row => Keyed.set Session.id s.sessions (row.update h)
  | none => h.inserted :: s.sessions

def removeChat (id : String) : List Session := Keyed.erase Session.id s.sessions id

/-- The frames' handlers. -/
def handle : ChatFrame → List Session
  | .chatCreated h | .chatUpdated h => s.upsertHeader h
  | .chatDeleted id => s.removeChat id

def call (serial : ℕ) : Option LoadCall := Keyed.find LoadCall.serial s.calls serial

/-- The answer's rows, with those that frames added since the read began. -/
def loaded (knownBefore : List String) (chats : List ChatHeader) : List Session :=
  chats.map ChatHeader.session ++ s.sessions.filter fun row =>
    row.id ∉ knownBefore ∧ row.id ∉ chats.map ChatHeader.id ∧ row.provisional = false

def abort (serial : ℕ) : List LoadCall :=
  match s.call serial with
  | some call => Keyed.set LoadCall.serial s.calls { call with aborted := true }
  | none => s.calls

/-- The response holds the chats of this moment. -/
def answer (call : LoadCall) : List LoadCall :=
  Keyed.set LoadCall.serial s.calls { call with answer := some (s.published.length, s.chats) }

/-- The call a read supersedes is aborted by way of the shared controller. -/
def load : ListState :=
  { s with
    calls := { serial := s.started, knownBefore := s.sessions.map Session.id } ::
      match s.listController with
      | some serial => s.abort serial
      | none => s.calls
    started := s.started + 1
    listController := some s.started }

/-- The response is there, or the abort is: an aborted call clears the controller, also where a
later call has set it. -/
def resolve (call : LoadCall) : ListState :=
  let s := { s with calls := Keyed.erase LoadCall.serial s.calls call.serial }
  if call.aborted then { s with listController := none }
  else match call.answer with
    | none => { s with listReach := .unreachable, listController := none }
    | some (_, chats) =>
      { s with
        sessions := s.loaded call.knownBefore chats
        listReach := .reachable
        listController := none }

def step (s : ListState) : ListEvent → ListState
  | .saves h =>
    { s with
      chats := Keyed.set ChatHeader.id s.chats h
      published := s.published ++ [s.saveFrame h] }
  | .deletes id =>
    { s with
      chats := Keyed.erase ChatHeader.id s.chats id
      published := s.published ++ [.chatDeleted id] }
  | .delivers =>
    match s.published[s.applied]? with
    | some frame => { s with sessions := s.handle frame, applied := s.applied + 1 }
    | none => s
  | .loads => s.load
  | .aborts serial => { s with calls := s.abort serial }
  | .answers serial =>
    match s.call serial with
    | some call => if call.answer.isNone then { s with calls := s.answer call } else s
    | none => s
  | .resolves serial =>
    match s.call serial with
    | some call => if call.aborted ∨ call.answer.isSome then s.resolve call else s
    | none => s
  | .fails serial =>
    match s.call serial with
    | some call => s.resolve { call with answer := none }
    | none => s

end ListState
end Marotte.ChatList
