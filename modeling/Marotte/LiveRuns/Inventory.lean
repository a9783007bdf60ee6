import Marotte.Library.Along
import Marotte.Library.Keyed

/-! # The browser's inventory of live runs

The server's run leases with the frames that announce them, and one browser's rows under the
frames, under the connect handshake's list and under reads of `/api/runs/live`. An adopted list
replaces every row.
-/
namespace Marotte.LiveRuns

/-- A run's lease: the chat whose agent launched it, empty for a parentless run, and whether its
deadline is armed. -/
structure Lease where
  workflowID : String
  chatID : String
  bounded : Bool := false
  deriving DecidableEq

/-- A lease on the wire. -/
structure LiveRun where
  workflowID : String
  chatID : String
  executing : Bool
  deriving DecidableEq

/-- The browser's row of a run it takes to be live. -/
structure LiveRunRow where
  id : String
  chat : String
  executing : Bool
  deriving DecidableEq

inductive RunProgressKind where
  | nodeStart
  | nodeComplete
  | nodePaused
  | paused
  | loopIteration
  | watchPoll
  | stepsQueued
  deriving DecidableEq

def statusPaused : String := "paused"

/-- Whether a run's status ends it. -/
def terminal (status : String) : Bool :=
  status ∈ ["completed", "failed", "aborted", "cancelled"]

def runChatPrefix : String := "run:"

/-- A parentless run's own surface, which is no chat. -/
def isRunChat (chatID : String) : Bool := runChatPrefix.toList.isPrefixOf chatID.toList

/-- The frames with the chat id of their envelope. -/
inductive RunFrame where
  | runStarted (chatID workflowID : String)
  | runProgress (chatID workflowID : String) (kind : RunProgressKind)
  | runInputNeeded (chatID workflowID : String)
  | runFinished (chatID workflowID status : String)

def RunFrame.workflowID : RunFrame → String
  | .runStarted _ id | .runProgress _ id _ | .runInputNeeded _ id | .runFinished _ id _ => id

/-- The chat that an envelope names: neither the empty id nor a run's own surface names one. -/
def namedChat (chatID : String) : String :=
  if chatID = "" ∨ isRunChat chatID then "" else chatID

/-- The chat under which a frame leaves its run live, none when it ends the run. -/
def RunFrame.states : RunFrame → Option String
  | .runStarted chatID _ | .runProgress chatID _ _ => some chatID
  | .runInputNeeded chatID _ => some (namedChat chatID)
  | .runFinished chatID _ status => if status = statusPaused then some chatID else none

/-- An inventory, with the number of frames published when it was taken; a handshake withholds a
list over its cap. -/
inductive Inventory where
  | stated (taken : ℕ) (runs : List LiveRun)
  | withheld

/-- A connect handshake or a read that is on its way. -/
structure InventoryCall where
  serial : ℕ
  handshake : Bool
  answer : Option Inventory := none

/-- The server with every frame it published, and the browser, which has applied the first
`applied` of them. -/
structure RunsState where
  leases : List Lease := []
  /-- The leases of launches that no frame has announced yet. -/
  launching : List String := []
  published : List RunFrame := []
  liveRunChats : List LiveRunRow := []
  launchedBy : List (String × String) := []
  applied : ℕ := 0
  calls : List InventoryCall := []
  started : ℕ := 0
  /-- Whether the browser has adopted an inventory. -/
  adopted : Bool := false

inductive RunsEvent where
  /-- A launch or a retry grants a lease before anything can execute. -/
  | launches (workflowID : String)
  /-- A lease goes without a frame: a refused launch, a reconcile, an orphan that is cleared. -/
  | releases (workflowID : String)
  | bounds (workflowID : String) (bounded : Bool)
  | starts (chatID workflowID : String)
  | progresses (chatID workflowID : String) (kind : RunProgressKind)
  | asks (chatID workflowID : String)
  | completes (chatID workflowID status : String)
  | delivers
  | connects
  | rebuilds
  | answers (serial : ℕ)
  | resolves (serial : ℕ)
  | fails (serial : ℕ)
  /-- The cached run is given up, and with it the chat it is known by. -/
  | forgets (workflowID : String)

namespace RunsState

variable (s : RunsState)

def lease (workflowID : String) : Option Lease := Keyed.find Lease.workflowID s.leases workflowID

/-! ## The server -/

def grantLease (workflowID chatID : String) : RunsState :=
  if workflowID = "" then s
  else { s with leases := Keyed.set Lease.workflowID s.leases { workflowID, chatID } }

def releaseLease (workflowID : String) : RunsState :=
  { s with
    leases := Keyed.erase Lease.workflowID s.leases workflowID
    launching := s.launching.erase workflowID }

def boundLease (workflowID : String) (bounded : Bool) : RunsState :=
  match s.lease workflowID with
  | some l => { s with leases := Keyed.set Lease.workflowID s.leases { l with bounded } }
  | none => s

def broadcast (frame : RunFrame) : RunsState :=
  if frame.workflowID = "" then s
  else
    { s with
      launching := s.launching.erase frame.workflowID
      published := s.published ++ [frame] }

/-- A launch of a recipe and a retry are parentless whatever the run was before. -/
def launch (workflowID : String) : RunsState :=
  match s.lease workflowID with
  | some _ => s
  | none =>
    if workflowID = "" then s
    else
      { s.grantLease workflowID "" with launching := workflowID :: s.launching }

/-- The lease of a run that an agent launched is granted here. -/
def observeStart (chatID workflowID : String) : RunsState :=
  let s := if (s.lease workflowID).isSome then s else s.grantLease workflowID (namedChat chatID)
  (s.boundLease workflowID true).broadcast (.runStarted chatID workflowID)

def observeProgress (chatID workflowID : String) (kind : RunProgressKind) : RunsState :=
  let s := if kind = .paused then s.boundLease workflowID false else s
  s.broadcast (.runProgress chatID workflowID kind)

def observeComplete (chatID workflowID status : String) : RunsState :=
  let s := if terminal status then s.releaseLease workflowID else s
  s.broadcast (.runFinished chatID workflowID status)

def liveRunRows : List LiveRun :=
  s.leases.map fun l => ⟨l.workflowID, l.chatID, l.bounded⟩

def maxConnectLiveRuns : ℕ := 128

def inventory (handshake : Bool) : Inventory :=
  if handshake ∧ maxConnectLiveRuns < s.liveRunRows.length then .withheld
  else .stated s.published.length s.liveRunRows

/-! ## The browser -/

def noteRunChat (workflowID chatID : String) : RunsState :=
  if workflowID = "" ∨ chatID = "" ∨ isRunChat chatID then s
  else { s with launchedBy := Keyed.set Prod.fst s.launchedBy (workflowID, chatID) }

def runChatID (workflowID : String) : String :=
  ((Keyed.find Prod.fst s.launchedBy workflowID).map Prod.snd).getD ""

def noteRunLive (id chat : String) (executing : Bool) : RunsState :=
  if id = "" then s
  else { s with liveRunChats := Keyed.set LiveRunRow.id s.liveRunChats ⟨id, chat, executing⟩ }

def noteRunSettled (id : String) : RunsState :=
  { s with liveRunChats := Keyed.erase LiveRunRow.id s.liveRunChats id }

/-- The frames' handlers. -/
def handle : RunFrame → RunsState
  | .runStarted chatID id => (s.noteRunChat id chatID).noteRunLive id chatID true
  | .runProgress chatID id kind =>
    (s.noteRunChat id chatID).noteRunLive id chatID (kind ≠ .paused)
  | .runInputNeeded chatID id =>
    let s := s.noteRunChat id chatID
    s.noteRunLive id (s.runChatID id) false
  | .runFinished chatID id status =>
    let s := s.noteRunChat id chatID
    if status = statusPaused then s.noteRunLive id chatID false else s.noteRunSettled id

def adoptRow (r : LiveRun) : RunsState :=
  if r.workflowID = "" then s
  else (s.noteRunLive r.workflowID r.chatID r.executing).noteRunChat r.workflowID r.chatID

def adoptLiveRuns (rows : List LiveRun) : RunsState :=
  rows.foldl adoptRow { s with liveRunChats := [], adopted := true }

def call (serial : ℕ) : Option InventoryCall := Keyed.find InventoryCall.serial s.calls serial

def request (handshake : Bool) : RunsState :=
  { s with calls := { serial := s.started, handshake } :: s.calls, started := s.started + 1 }

def answer (c : InventoryCall) : RunsState :=
  { s with
    calls := Keyed.set InventoryCall.serial s.calls
      { c with answer := some (s.inventory c.handshake) } }

def close (c : InventoryCall) : RunsState :=
  { s with calls := Keyed.erase InventoryCall.serial s.calls c.serial }

/-- A withheld list is read instead. -/
def resolve (c : InventoryCall) : Inventory → RunsState
  | .stated _ runs => (s.close c).adoptLiveRuns runs
  | .withheld => (s.close c).request false

def step (s : RunsState) : RunsEvent → RunsState
  | .launches id => s.launch id
  | .releases id => s.releaseLease id
  | .bounds id bounded => s.boundLease id bounded
  | .starts chatID id => s.observeStart chatID id
  | .progresses chatID id kind => s.observeProgress chatID id kind
  | .asks chatID id => s.broadcast (.runInputNeeded chatID id)
  | .completes chatID id status => s.observeComplete chatID id status
  | .delivers =>
    match s.published[s.applied]? with
    | some frame => { s.handle frame with applied := s.applied + 1 }
    | none => s
  | .connects => s.request true
  | .rebuilds => s.request false
  | .answers serial =>
    match s.call serial with
    | some c => if c.answer.isNone then s.answer c else s
    | none => s
  | .resolves serial =>
    match s.call serial with
    | some c =>
      match c.answer with
      | some a => s.resolve c a
      | none => s
    | none => s
  | .fails serial =>
    match s.call serial with
    | some c => s.close c
    | none => s
  | .forgets id => { s with launchedBy := Keyed.erase Prod.fst s.launchedBy id }

end RunsState
end Marotte.LiveRuns
