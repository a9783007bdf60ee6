import Marotte.Library.Keyed
import Marotte.Tabs.Store

/-! # The sync half of the tab projection

What decides which frames reach the rows, in what order, and when a frame means that the
client has fallen behind. The machine keeps one record per optimistic mutation and settles
it by its response, its echo frame, the watermark or an authoritative list.
-/
namespace Marotte.Tabs.Sync

/-- How long a dispatched mutation stays correlatable, in milliseconds. -/
def opTTL : ℕ := 60000

/-- One committed mutation, as the event stream carries it. -/
structure TabsChanged where
  version : ℕ
  changed : Option TabSubject := none
  removedIDs : Option (List String) := none
  order : Option (List String) := none
  opID : Option String := none
  deriving DecidableEq

/-- The answer of a read of the collection. -/
structure TabList where
  tabs : List TabSubject
  version : ℕ
  deriving DecidableEq

inductive OpState where
  | awaitingResponse | confirmedAwaitingFrame
  deriving DecidableEq

inductive RemoveState where
  | awaitingResponse | confirmedAwaitingFrame | verifying
  deriving DecidableEq

structure PendingAdopt where
  opID : String
  state : OpState := .awaitingResponse
  seq : ℕ
  subject : Option TabSubject := none
  committedVersion : Option ℕ := none
  deriving DecidableEq

structure PendingRemove where
  opID : String
  state : RemoveState := .awaitingResponse
  seq : ℕ
  id : String
  capturedTabIDs : List String
  committedVersion : Option ℕ := none
  verifyAttempts : ℕ := 0
  verifyTimer : Option ℕ := none
  deriving DecidableEq

structure PendingReorder where
  opID : String
  state : OpState := .awaitingResponse
  seq : ℕ
  order : List String
  committedVersion : Option ℕ := none
  deriving DecidableEq

inductive PendingOp where
  | adopt (op : PendingAdopt)
  | remove (op : PendingRemove)
  | reorder (op : PendingReorder)
  deriving DecidableEq

namespace PendingOp

def opID : PendingOp → String
  | adopt op => op.opID
  | remove op => op.opID
  | reorder op => op.opID

def seq : PendingOp → ℕ
  | adopt op => op.seq
  | remove op => op.seq
  | reorder op => op.seq

def committedVersion : PendingOp → Option ℕ
  | adopt op => op.committedVersion
  | remove op => op.committedVersion
  | reorder op => op.committedVersion

def isRemove : PendingOp → Bool
  | remove _ => true
  | _ => false

/-- Whether the response committed and the echo frame has not landed. -/
def confirmed : PendingOp → Bool
  | adopt op => op.state = .confirmedAwaitingFrame
  | remove op => op.state = .confirmedAwaitingFrame
  | reorder op => op.state = .confirmedAwaitingFrame

end PendingOp

/-- What the machine calls outside itself. An adopt carries neither callback and a reorder no
confirmation: there the entry only says which of the two ended the operation. -/
inductive Call where
  | apply (delta : TabsChanged) (isLocal : Bool)
  | reset (tabs : List TabSubject)
  | confirm (opID : String)
  | rollback (opID : String)
  | removesSettled
  deriving DecidableEq

/-- The drain loop: at rest, awaiting the shared read, or about to go on. -/
inductive DrainState where
  | idle | awaiting | resumed
  deriving DecidableEq

/-- The shared read of the collection: none, one in flight, or one answered whose promise
still holds the slot. -/
inductive ListRead where
  | idle | inFlight | answered
  deriving DecidableEq

/-- The re-list cadence of a verifying remove, per attempt, in milliseconds. -/
def verifyBackoff : ℕ → ℕ
  | 0 => 1000
  | 1 => 2000
  | 2 => 4000
  | 3 => 8000
  | 4 => 16000
  | _ => 30000

/-- An armed timer of a verifying remove. -/
structure VerifyTimer where
  handle : ℕ
  opID : String
  seq : ℕ
  delay : ℕ
  deriving DecidableEq

/-- The module's state. A verify tick names its operation by `opID` and `seq`; it is in
`ticks` while its read is out and in `ready` once the read has answered. -/
structure Machine where
  localVersion : ℕ := 0
  queue : List TabsChanged := []
  draining : DrainState := .idle
  listInFlight : ListRead := .idle
  localOps : List (String × ℕ) := []
  pendingOps : List PendingOp := []
  opSeq : ℕ := 0
  timers : List VerifyTimer := []
  nextTimer : ℕ := 0
  ticks : List (String × ℕ) := []
  ready : List (String × ℕ) := []
  calls : List Call := []

/-- Reorder `items` to match `order`, which is a permutation and never a membership
statement: an item the order does not name keeps its relative position and sorts last. -/
def permute {α : Type*} (idOf : α → String) : List α → List String → List α
  | items, [] => items
  | items, id :: order =>
    match items.reverse.find? (idOf · = id) with
    | some item => item :: permute idOf (items.filter (idOf · ≠ id)) order
    | none => permute idOf items order

namespace Machine

def pending (s : Machine) (opID : String) : Option PendingOp :=
  Keyed.find PendingOp.opID s.pendingOps opID

def call (s : Machine) (c : Call) : Machine := { s with calls := s.calls ++ [c] }

def setOp (s : Machine) (op : PendingOp) : Machine :=
  { s with pendingOps := Keyed.set PendingOp.opID s.pendingOps op }

/-! ## Correlation -/

def sweepOps (s : Machine) (now : ℕ) : Machine :=
  { s with localOps := s.localOps.filter fun mark => now ≤ mark.2 + opTTL }

def markLocalOp (s : Machine) (opID : String) (now : ℕ) : Machine :=
  let s := s.sweepOps now
  { s with localOps := Keyed.set Prod.fst s.localOps (opID, now) }

def takeLocalOp (s : Machine) (opID : Option String) : Machine × Bool :=
  match opID with
  | none => (s, false)
  | some opID =>
    ({ s with localOps := Keyed.erase Prod.fst s.localOps opID },
      (Keyed.find Prod.fst s.localOps opID).isSome)

def frameIsLocal (s : Machine) (opID : Option String) : Machine × Bool :=
  let (s', marked) := s.takeLocalOp opID
  (s', marked || opID.any fun opID => (s.pending opID).isSome)

/-! ## Registration and retirement -/

def beginAdopt (s : Machine) (opID : String) : Machine :=
  { s with opSeq := s.opSeq + 1 }.setOp (.adopt { opID, seq := s.opSeq + 1 })

def beginRemove (s : Machine) (opID id : String) (capturedTabIDs : List String) : Machine :=
  { s with opSeq := s.opSeq + 1 }.setOp
    (.remove { opID, seq := s.opSeq + 1, id, capturedTabIDs })

def beginReorder (s : Machine) (opID : String) (order : List String) : Machine :=
  { s with opSeq := s.opSeq + 1 }.setOp (.reorder { opID, seq := s.opSeq + 1, order })

def removesPending (s : Machine) : Bool := s.pendingOps.any PendingOp.isRemove

def cancelTimer (s : Machine) (handle : Option ℕ) : Machine :=
  match handle with
  | none => s
  | some h => { s with timers := s.timers.filter fun timer => timer.handle ≠ h }

/-- Delete the record and cancel its timer: every later signal for the operation finds
nothing. -/
def retire (s : Machine) (op : PendingOp) : Machine :=
  let s := match op with
    | .remove op => s.cancelTimer op.verifyTimer
    | _ => s
  { s with pendingOps := Keyed.erase PendingOp.opID s.pendingOps op.opID }

def noteRemoveSettled (s : Machine) : Machine :=
  if s.removesPending then s else s.call .removesSettled

def confirmOp (s : Machine) (op : PendingOp) : Machine :=
  let s := (s.retire op).call (.confirm op.opID)
  if op.isRemove then s.noteRemoveSettled else s

def failOp (s : Machine) (op : PendingOp) : Machine :=
  let s := (s.retire op).call (.rollback op.opID)
  if op.isRemove then s.noteRemoveSettled else s

/-! ## The response -/

def adoptCommitted (s : Machine) (opID : String) (subject : TabSubject) (version : ℕ)
    (created : Bool) : Machine :=
  match s.pending opID with
  | some (.adopt op) =>
    let op := { op with subject := some subject, committedVersion := some version }
    if created = false ∨ version ≤ s.localVersion then s.confirmOp (.adopt op)
    else s.setOp (.adopt { op with state := .confirmedAwaitingFrame })
  | _ => s

/-- The response of a close. An empty list confirms whatever the watermark says. -/
def removeCommitted (s : Machine) (opID : String) (closed : List String) (version : ℕ) :
    Machine :=
  match s.pending opID with
  | some (.remove op) =>
    let s := s.cancelTimer op.verifyTimer
    let op := { op with verifyTimer := none, committedVersion := some version }
    if closed = [] ∨ version ≤ s.localVersion then s.confirmOp (.remove op)
    else s.setOp (.remove { op with state := .confirmedAwaitingFrame })
  | _ => s

def reorderCommitted (s : Machine) (opID : String) (version : ℕ) : Machine :=
  match s.pending opID with
  | some (.reorder op) =>
    let op := { op with committedVersion := some version }
    if version ≤ s.localVersion then s.confirmOp (.reorder op)
    else s.setOp (.reorder { op with state := .confirmedAwaitingFrame })
  | _ => s

def opFailed (s : Machine) (opID : String) : Machine :=
  match s.pending opID with
  | none => s
  | some op => s.failOp op

/-- One timer for a verifying remove, after the backoff of its attempts. -/
def armVerify (s : Machine) (op : PendingRemove) : Machine :=
  let timer : VerifyTimer :=
    { handle := s.nextTimer, opID := op.opID, seq := op.seq,
      delay := verifyBackoff op.verifyAttempts }
  { s with timers := s.timers ++ [timer], nextTimer := s.nextTimer + 1 }.setOp
    (.remove { op with verifyTimer := some s.nextTimer })

/-- The dispatch got no answer: the removal stays applied and the operation verifies. -/
def opTimedOut (s : Machine) (opID : String) : Machine :=
  match s.pending opID with
  | some (.remove op) =>
    if op.state = .verifying then s else s.armVerify { op with state := .verifying }
  | _ => s

/-! ## The overlays -/

/-- Whether a mutation may postdate a version: its own is unknown, or past it. -/
def postdates (committedVersion : Option ℕ) (version : ℕ) : Bool :=
  committedVersion.all (version < ·)

def overlayOrder (s : Machine) (ids : List String) (version : Option ℕ) : List String :=
  s.pendingOps.foldl (fun out op =>
    match op with
    | .reorder op =>
      if version.all (postdates op.committedVersion) then permute (fun id => id) out op.order
      else out
    | _ => out) ids

/-- The gesture order of the newest pending remove that captured an id. -/
def capturedBy (s : Machine) (id : String) : Option ℕ :=
  s.pendingOps.foldl (fun newest op =>
    match op with
    | .remove op => if id ∈ op.capturedTabIDs then some (max (newest.getD 0) op.seq) else newest
    | _ => newest) none

/-- A frame must not bring back a row that a pending remove took out, unless an open gestured
after the newest such remove committed that very tab. -/
def suppressChanged (s : Machine) (changed : TabSubject) : Bool :=
  match s.capturedBy changed.id with
  | none => false
  | some seq => !s.pendingOps.any fun op =>
    match op with
    | .adopt op => decide (seq < op.seq) && op.subject.any fun subject =>
        decide (subject.kind = changed.kind ∧ subject.ref = changed.ref ∧
          subject.id = changed.id)
    | _ => false

def overlayFrame (s : Machine) (delta : TabsChanged) : TabsChanged :=
  let out := { delta with order := delta.order.map (s.overlayOrder · (some delta.version)) }
  if out.changed.any s.suppressChanged then { out with changed := none } else out

def overlayList (s : Machine) (tabs : List TabSubject) (version : ℕ) : List TabSubject :=
  let kept := s.pendingOps.foldl (fun out op =>
    match op with
    | .remove op =>
      if postdates op.committedVersion version then out.filter (·.id ∉ op.capturedTabIDs)
      else out
    | _ => out) tabs
  let merged := s.pendingOps.foldl (fun out op =>
    match op with
    | .adopt { subject := some subject, committedVersion, .. } =>
      if postdates committedVersion version ∧ ¬ out.any (·.id = subject.id) then
        out ++ [subject]
      else out
    | _ => out) kept
  permute TabSubject.id merged (s.overlayOrder (merged.map TabSubject.id) (some version))

/-! ## Frames and lists -/

/-- Every confirmed operation that the watermark now covers is absorbed. -/
def absorbCommitted (s : Machine) : Machine :=
  s.pendingOps.foldl (fun s op =>
    if op.confirmed ∧ op.committedVersion.any (· ≤ s.localVersion) then s.confirmOp op else s) s

def settleFrame (s : Machine) (opID : Option String) : Machine :=
  let s := match opID.bind s.pending with
    | some op => s.confirmOp op
    | none => s
  s.absorbCommitted

/-- One read at a time: a caller arriving while one is out shares its answer. -/
def relist (s : Machine) : Machine :=
  if s.listInFlight = .idle then { s with listInFlight := .inFlight } else s

/-- The frame that is the next mutation: it alone advances the version. -/
def applyFrame (s : Machine) (delta : TabsChanged) : Machine :=
  let (s, isLocal) := s.frameIsLocal delta.opID
  let s := { s with localVersion := delta.version }
  (s.call (.apply (s.overlayFrame delta) isLocal)).settleFrame delta.opID

/-- The drain loop over the frames waiting, up to the gap that makes it await a list. -/
def drainLoop (s : Machine) : List TabsChanged → Machine
  | [] => { s with queue := [], draining := .idle }
  | delta :: queue =>
    if delta.version ≤ s.localVersion then s.drainLoop queue
    else if delta.version > s.localVersion + 1 then
      { s with queue, draining := .awaiting }.relist
    else (s.applyFrame delta).drainLoop queue

def ingestTabsChanged (s : Machine) (delta : TabsChanged) : Machine :=
  let s := { s with queue := s.queue ++ [delta] }
  if s.draining = .idle then s.drainLoop s.queue else s

/-- One operation's part of the settlement by a list: a verifying remove is retired, and kept
aside as confirmed or, when the list still shows its row, as rolled back. -/
def settleVerifyingOp (tabs : List TabSubject)
    (acc : Machine × List PendingRemove × List PendingRemove) :
    PendingOp → Machine × List PendingRemove × List PendingRemove
  | .remove op =>
    if op.state = .verifying then
      if tabs.any (·.id = op.id) then (acc.1.retire (.remove op), acc.2.1, acc.2.2 ++ [op])
      else (acc.1.retire (.remove op), acc.2.1 ++ [op], acc.2.2)
    else acc
  | _ => acc

def settleVerifying (s : Machine) (tabs : List TabSubject) :
    Machine × List PendingRemove × List PendingRemove :=
  s.pendingOps.foldl (settleVerifyingOp tabs) (s, [], [])

/-- A snapshot below the local version settles nothing. One that is adopted decides every
verifying remove before the reset, and runs the callbacks after it. -/
def readList (s : Machine) : Option TabList → Machine
  | none => s
  | some list =>
    if list.version < s.localVersion then s
    else
      let s := { s with localVersion := list.version }
      let (s, confirms, rollbacks) := s.settleVerifying list.tabs
      let s := s.call (.reset (s.overlayList list.tabs list.version))
      let s := confirms.foldl (fun s op => s.call (.confirm op.opID)) s
      let s := rollbacks.foldl (fun s op => s.call (.rollback op.opID)) s
      let s := if confirms ≠ [] ∨ rollbacks ≠ [] then s.noteRemoveSettled else s
      s.absorbCommitted

/-! ## Runs -/

end Machine

/-- What can happen to the machine: a gesture, an answer, a frame, a read or a timer. -/
inductive Event where
  | markLocalOp (opID : String) (now : ℕ)
  | beginAdopt (opID : String)
  | beginRemove (opID id : String) (capturedTabIDs : List String)
  | beginReorder (opID : String) (order : List String)
  | adoptCommitted (opID : String) (subject : TabSubject) (version : ℕ) (created : Bool)
  | removeCommitted (opID : String) (closed : List String) (version : ℕ)
  | reorderCommitted (opID : String) (version : ℕ)
  | opFailed (opID : String)
  | opTimedOut (opID : String)
  | frame (delta : TabsChanged)
  | drainResumes
  | listTabs
  | listAnswers (list : Option TabList)
  | listDone
  | timerFires (handle : ℕ)
  | tickDone (opID : String) (seq : ℕ)
  deriving DecidableEq

namespace Machine

/-- The record a timer or a tick was armed for, when the map still holds that very one. -/
def verifying (s : Machine) (opID : String) (seq : ℕ) : Option PendingRemove :=
  match s.pending opID with
  | some (.remove op) => if op.seq = seq then some op else none
  | _ => none

/-- A verify tick: it clears the handle, counts the attempt and asks for a list. -/
def timerFires (s : Machine) (handle : ℕ) : Machine :=
  match s.timers.find? (·.handle = handle) with
  | none => s
  | some timer =>
    let s := s.cancelTimer (some handle)
    let s := match s.verifying timer.opID timer.seq with
      | some op =>
        s.setOp (.remove { op with verifyTimer := none, verifyAttempts := op.verifyAttempts + 1 })
      | none => s
    { s.relist with ticks := s.ticks ++ [(timer.opID, timer.seq)] }

/-- A tick whose read has answered arms the next one while its remove still verifies. -/
def tickDone (s : Machine) (opID : String) (seq : ℕ) : Machine :=
  if (opID, seq) ∈ s.ready then
    let s := { s with ready := s.ready.erase (opID, seq) }
    match s.verifying opID seq with
    | some op => if op.state = .verifying then s.armVerify op else s
    | none => s
  else s

/-- The read's promise settles: the slot is free, and everyone who shared it goes on. -/
def listDone (s : Machine) : Machine :=
  if s.listInFlight = .answered then
    { s with
      listInFlight := .idle
      draining := if s.draining = .awaiting then .resumed else s.draining
      ready := s.ready ++ s.ticks
      ticks := [] }
  else s

def step (s : Machine) : Event → Machine
  | .markLocalOp opID now => s.markLocalOp opID now
  | .beginAdopt opID => s.beginAdopt opID
  | .beginRemove opID id captured => s.beginRemove opID id captured
  | .beginReorder opID order => s.beginReorder opID order
  | .adoptCommitted opID subject version created => s.adoptCommitted opID subject version created
  | .removeCommitted opID closed version => s.removeCommitted opID closed version
  | .reorderCommitted opID version => s.reorderCommitted opID version
  | .opFailed opID => s.opFailed opID
  | .opTimedOut opID => s.opTimedOut opID
  | .frame delta => s.ingestTabsChanged delta
  | .drainResumes => if s.draining = .resumed then s.drainLoop s.queue else s
  | .listTabs => s.relist
  | .listAnswers list =>
    if s.listInFlight = .inFlight then { s.readList list with listInFlight := .answered } else s
  | .listDone => s.listDone
  | .timerFires handle => s.timerFires handle
  | .tickDone opID seq => s.tickDone opID seq

end Machine

def run (s : Machine) : List Event → Machine
  | [] => s
  | e :: events => run (s.step e) events

end Marotte.Tabs.Sync
