import Marotte.Tabs.Integrity
import Marotte.Tabs.Sync

/-! # The membership coordinator

Every operation that spans the chat store and the open-tab set, each one critical section of the
operation lock. A chat's record is written before its tab and removed before its tabs. The purge
removes records without the lock, and closes their tabs under it later.
-/
namespace Marotte.Command
open Tabs Tabs.Sync

/-! ## The create ledger -/

/-- Ten minutes, in milliseconds. -/
def createOpTTL : ℕ := 600000

def maxCreateOps : ℕ := 512

/-- What a create's op resolves to until it expires. -/
structure CreateOp where
  op : String
  chatID : String
  expires : ℕ
  deriving DecidableEq

namespace CreateOp

def peek (ops : List CreateOp) (now : ℕ) (op : String) : Option String :=
  if op = "" then none
  else
    match Keyed.find CreateOp.op ops op with
    | some e => if now < e.expires then some e.chatID else none
    | none => none

/-- The entry closest to expiry. -/
def oldest : List CreateOp → Option CreateOp
  | [] => none
  | e :: ops =>
    match oldest ops with
    | some e' => if e'.expires < e.expires then some e' else some e
    | none => some e

/-- Drops entries closest to expiry until there is room for one more. -/
def evict : ℕ → List CreateOp → List CreateOp
  | 0, ops => ops
  | n + 1, ops =>
    if maxCreateOps ≤ ops.length then
      match oldest ops with
      | some e => evict n (Keyed.erase CreateOp.op ops e.op)
      | none => ops
    else ops

def sweep (now : ℕ) (ops : List CreateOp) : List CreateOp :=
  let live := ops.filter (now < ·.expires)
  evict live.length live

/-- The chat that an op names, minted when the op is new, and whether it was not. An empty op
always mints and is not recorded. -/
def resolve (ops : List CreateOp) (now : ℕ) (op minted : String) :
    List CreateOp × String × Bool :=
  if op = "" then (ops, minted, false)
  else
    match peek ops now op with
    | some chatID => (ops, chatID, true)
    | none =>
      (Keyed.set CreateOp.op (sweep now ops)
        { op, chatID := minted, expires := now + createOpTTL }, minted, false)

end CreateOp

/-! ## The chat records -/

/-- What the coordinator reads of a chat's header. -/
structure ChatHeader where
  id : String
  sessionChain : List String := []
  deriving DecidableEq

/-- A deleted id blocks its re-creation for ten minutes. -/
def tombstoneTTL : ℕ := 600000

structure ChatStore where
  chats : List ChatHeader := []
  tombstones : List (String × ℕ) := []
  deriving DecidableEq

namespace ChatStore

variable (s : ChatStore)

def get (chatID : String) : Option ChatHeader := Keyed.find ChatHeader.id s.chats chatID

def isTombstoned (now : ℕ) (chatID : String) : Bool :=
  match Keyed.find Prod.fst s.tombstones chatID with
  | some t => now ≤ t.2 + tombstoneTTL
  | none => false

inductive MutateError where
  | tombstoned
  | save
  deriving DecidableEq

/-- A create's mutation: it declines on a record that exists. -/
def create (now : ℕ) (c : ChatHeader) (saved : Bool) : Except MutateError ChatStore :=
  if (s.get c.id).isSome then .ok s
  else if s.isTombstoned now c.id then .error .tombstoned
  else if saved = false then .error .save
  else .ok { s with chats := Keyed.set ChatHeader.id s.chats c }

def markDeleted (now : ℕ) (chatID : String) : List (String × ℕ) :=
  (Keyed.set Prod.fst s.tombstones (chatID, now)).filter fun t => now ≤ t.2 + tombstoneTTL

/-- A record that was already gone leaves no tombstone. -/
def remove (now : ℕ) (chatID : String) : ChatStore :=
  if (s.get chatID).isNone then s
  else
    { s with
      chats := Keyed.erase ChatHeader.id s.chats chatID
      tombstones := s.markDeleted now chatID }

/-- A delete of a missing record succeeds. -/
def delete (now : ℕ) (chatID : String) (removes : Bool) : ChatStore × Bool :=
  if (s.get chatID).isSome ∧ removes = false then (s, false) else (s.remove now chatID, true)

end ChatStore

/-! ## What an operation answers -/

inductive MembershipError where
  | tabsFull
  | openChatUnknown
  | chatNotCreated
  | tabUnknown
  | parentNotChat
  | record (err : ChatStore.MutateError)
  | delete
  | store (err : TabError)
  deriving DecidableEq

structure StatusError where
  status : ℕ
  err : MembershipError
  deriving DecidableEq

/-- The tab store's errors as HTTP statuses. -/
def tabStatus : TabError → StatusError
  | .tooMany _ => { status := 409, err := .tabsFull }
  | .orderLength ids tabs => { status := 409, err := .store (.orderLength ids tabs) }
  | .orderTwice id => { status := 409, err := .store (.orderTwice id) }
  | .orderNotOpen id => { status := 409, err := .store (.orderNotOpen id) }
  | .badKind kind => { status := 400, err := .store (.badKind kind) }
  | .singletonRef kind ref => { status := 400, err := .store (.singletonRef kind ref) }
  | .missingRef kind => { status := 400, err := .store (.missingRef kind) }
  | .longRef bytes => { status := 400, err := .store (.longRef bytes) }
  | .notOpen id => { status := 500, err := .store (.notOpen id) }
  | .cycle parent id => { status := 500, err := .store (.cycle parent id) }
  | .write => { status := 500, err := .store .write }

/-- A create: what its record starts with, the op of its gesture, a supplied id, the chat that must
exist, and the chat whose tab the new one hangs under. -/
structure ChatCreate where
  sessionChain : List String := []
  opID : String := ""
  chatID : String := ""
  requireChat : String := ""
  parentChat : String := ""
  deriving DecidableEq

structure ChatOpened where
  chat : ChatHeader
  subject : TabSubject
  version : UInt64
  replay : Bool
  deriving DecidableEq

structure TabOpened where
  subject : TabSubject
  version : UInt64
  created : Bool
  deriving DecidableEq

/-- The two grades in which a chat's work is torn down; a delete carries its session chain where the
record is gone. -/
inductive Teardown where
  | close (chatID : String)
  | delete (chatID : String)
  | deleteByChain (chatID : String) (sessionChain : List String)
  deriving DecidableEq

def Teardown.chatID : Teardown → String
  | close chatID | delete chatID | deleteByChain chatID _ => chatID

/-- The two stores, the ledger, and what has been sent: frames in order, and teardowns. A purge in
flight is past its open-tab test (`aging`) or past its remove (`purged`). `stranded` holds the tabs
whose removal was announced over two failed writes. -/
structure Membership where
  clock : ℕ := 0
  tabs : Store := { }
  chats : ChatStore := {}
  ops : List CreateOp := []
  frames : List TabsChanged := []
  teardowns : List Teardown := []
  aging : List String := []
  purged : List ChatHeader := []
  stranded : List String := []

namespace Membership

variable (m : Membership)

/-! ## Under the lock -/

def subjectIDs (subjects : List TabSubject) : List String := subjects.map TabSubject.id

def order : List String := subjectIDs m.tabs.tabs

def tabsForChat (chatID : String) : List TabSubject :=
  m.tabs.tabs.filter fun t => t.kind = .chat ∧ t.ref = chatID

/-- The id of the tab that shows a chat, or empty. -/
def tabForChat (chatID : String) : String :=
  if chatID = "" then "" else ((m.tabsForChat chatID).head?.map TabSubject.id).getD ""

def subject (id : String) : Option TabSubject := m.tabs.tabs.find? fun t => t.id = id

def hasOpenTab (chatID : String) : Bool := !(m.tabsForChat chatID).isEmpty

def emit (frame : TabsChanged) : Membership := { m with frames := m.frames ++ [frame] }

/-- An absent field of a frame is one whose value is empty. -/
def wire (s : String) : Option String := if s = "" then none else some s

def wireIDs (ids : List String) : Option (List String) := if ids = [] then none else some ids

/-- Refuses when a tab for the subject would have to be minted and the set is full. -/
def reserveSlot (kind : TabKind) (ref : String) : Except StatusError Unit :=
  if m.tabs.tabs.any (fun t => t.kind = kind ∧ t.ref = ref) then .ok ()
  else if maxOpenTabs ≤ m.tabs.tabs.length then .error { status := 409, err := .tabsFull }
  else .ok ()

/-- Opens and, when something was committed, emits. -/
def openSubject (w : Tabs.WriteOutcome) (newID : String) (spec : OpenTab) (opID : String) :
    Membership × Except StatusError TabOpened :=
  match open_ w m.tabs newID spec with
  | (tabs, .error err) => ({ m with tabs }, .error (tabStatus err))
  | (tabs, .ok ((subject, created), version)) =>
    let m := { m with tabs }
    let m :=
      if created then
        m.emit
          { version := version.toNat, changed := some subject, order := wireIDs m.order
            opID := wire opID }
      else m
    (m, .ok { subject, version, created })

def removedFrame (closed : List TabSubject) (version : UInt64) (opID : String) : TabsChanged :=
  { version := version.toNat, removedIDs := wireIDs (subjectIDs closed), order := wireIDs m.order
    opID := wire opID }

/-- One tab of a chat whose record is gone. A close that fails twice is announced anyway, one past
the version. -/
def closeDoomed (writes : Tabs.WriteOutcome × Tabs.WriteOutcome) (id opID : String) : Membership :=
  let closed (m : Membership) (r : List TabSubject × UInt64) : Membership :=
    if r.1 = [] then m else m.emit (m.removedFrame r.1 r.2 opID)
  match close writes.1 m.tabs id with
  | (tabs, .ok r) => closed { m with tabs } r
  | (tabs, .error _) =>
    match close writes.2 tabs id with
    | (tabs, .ok r) => closed { m with tabs } r
    | (tabs, .error _) =>
      { m with tabs, stranded := m.stranded ++ [id] }.emit
        { version := (tabs.version + 1).toNat, removedIDs := some [id], opID := wire opID }

def closeTabsFor (writes : String → Tabs.WriteOutcome × Tabs.WriteOutcome) (chatID opID : String) :
    Membership :=
  (m.tabsForChat chatID).foldl (fun m t => m.closeDoomed (writes t.id) t.id opID) m

/-! ## Creating and opening -/

/-- The chat that a create resolves to already, without minting. -/
def priorChat (req : ChatCreate) : String × Bool :=
  if req.chatID ≠ "" then (req.chatID, false)
  else
    match CreateOp.peek m.ops m.clock req.opID with
    | some chatID => (chatID, true)
    | none => ("", false)

/-- The record leads and the tab follows. A failed tab write leaves the chat created, for a retry
under the same op to finish. -/
def createChatAndOpen (req : ChatCreate) (minted newID : String) (saved : Bool)
    (w : Tabs.WriteOutcome) : Membership × Except StatusError ChatOpened :=
  let (prior, replay) := m.priorChat req
  if req.requireChat ≠ "" ∧ replay = false ∧ (m.chats.get req.requireChat).isNone then
    (m, .error { status := 404, err := .openChatUnknown })
  else
    match m.reserveSlot .chat prior with
    | .error err => (m, .error err)
    | .ok () =>
      let (ops, chatID) :=
        if prior = "" then
          let (ops, chatID, _) := CreateOp.resolve m.ops m.clock req.opID minted
          (ops, chatID)
        else (m.ops, prior)
      let m := { m with ops }
      match m.chats.create m.clock { id := chatID, sessionChain := req.sessionChain } saved with
      | .error err => (m, .error { status := 500, err := .record err })
      | .ok chats =>
        let m := { m with chats }
        match m.chats.get chatID with
        | none => (m, .error { status := 409, err := .chatNotCreated })
        | some chat =>
          let spec : OpenTab :=
            { kind := .chat, ref := chatID, parent := m.tabForChat req.parentChat, owns := true }
          match m.openSubject w newID spec req.opID with
          | (m, .error err) => (m, .error err)
          | (m, .ok opened) =>
            (m, .ok { chat, subject := opened.subject, version := opened.version, replay })

/-- A run's tab hangs under the tab of the chat that launched it, unless the caller says where. -/
def fillRunParent (spec : OpenTab) (runChat : Option String) : String :=
  if spec.kind ≠ .run ∨ spec.parent ≠ "" then spec.parent
  else
    match runChat with
    | none => ""
    | some chatID => m.tabForChat chatID

/-- A chat's tab opens only while the record exists. -/
def openTab (spec : OpenTab) (opID : String) (runChat : Option String) (newID : String)
    (w : Tabs.WriteOutcome) : Membership × Except StatusError TabOpened :=
  if spec.kind = .chat ∧ (m.chats.get spec.ref).isNone then
    (m, .error { status := 404, err := .openChatUnknown })
  else m.openSubject w newID { spec with parent := m.fillRunParent spec runChat } opID

/-! ## Closing -/

/-- The chats that a close of a subtree leaves with no open tab. -/
def tablessChatRefs (subtree : List TabSubject) : List String :=
  let remaining := (m.tabs.tabs.filter fun t =>
    t.kind = .chat ∧ t.id ∉ subjectIDs subtree).map TabSubject.ref
  (((subtree.filter fun t => t.kind = .chat).map TabSubject.ref).filter (· ∉ remaining)).eraseDups

/-- The tabs that a close of an id removes. -/
def subtree (id : String) : List TabSubject :=
  m.tabs.tabs.filter fun t => t.id ∈ closure m.tabs.tabs id

/-- What a retention-off close deletes, with each chat's session chain while it can be read. -/
def doomedChats (id : String) (retained : Bool) : List ChatHeader :=
  if retained then [] else (m.tablessChatRefs (m.subtree id)).filterMap m.chats.get

/-- A failed delete leaves its chat to the close grade. -/
def deleteDoomedRecords (removes : String → Bool) :
    Membership → List ChatHeader → Membership × List ChatHeader
  | m, [] => (m, [])
  | m, d :: doomed =>
    let (chats, ok) := m.chats.delete m.clock d.id (removes d.id)
    let (m, deleted) := deleteDoomedRecords removes { m with chats } doomed
    (m, if ok then d :: deleted else deleted)

/-- One grade for each closed chat tab: a record that went with the close is torn down once, by its
chain. -/
def dispatch (deleted : List ChatHeader) : List String → List TabSubject → List Teardown
  | _, [] => []
  | dispatched, t :: closed =>
    if t.kind ≠ .chat then dispatch deleted dispatched closed
    else
      match Keyed.find ChatHeader.id deleted t.ref with
      | some d =>
        if t.ref ∈ dispatched then dispatch deleted dispatched closed
        else
          .deleteByChain t.ref d.sessionChain :: dispatch deleted (t.ref :: dispatched) closed
      | none => .close t.ref :: dispatch deleted dispatched closed

/-- Decide, commit, then delete each doomed record: past the commit there is no way back. -/
def closeTab (id opID : String) (retained : Bool) (removes : String → Bool)
    (w : Tabs.WriteOutcome) : Membership × Except StatusError (List TabSubject × UInt64) :=
  let doomed := m.doomedChats id retained
  match close w m.tabs id with
  | (tabs, .error err) => ({ m with tabs }, .error { status := 500, err := .store err })
  | (tabs, .ok (closed, version)) =>
    let m := { m with tabs }
    if closed = [] then (m, .ok (closed, version))
    else
      let m := m.emit (m.removedFrame closed version opID)
      let (m, deleted) := deleteDoomedRecords removes m doomed
      ({ m with teardowns := m.teardowns ++ dispatch deleted [] closed }, .ok (closed, version))

/-! ## Arranging -/

/-- An order identical to the one held commits nothing and emits nothing. -/
def reorderTabs (ids : List String) (opID : String) (w : Tabs.WriteOutcome) :
    Membership × Except StatusError UInt64 :=
  match reorder w m.tabs ids with
  | (tabs, .error err) => ({ m with tabs }, .error (tabStatus err))
  | (tabs, .ok ((), version)) =>
    let before := m.tabs.version
    let m := { m with tabs }
    if version ≠ before then
      (m.emit { version := version.toNat, order := wireIDs m.order, opID := wire opID },
        .ok version)
    else (m, .ok version)

def setPinned (id : String) (pinned : Bool) (opID : String) (w : Tabs.WriteOutcome) :
    Membership × Except StatusError UInt64 :=
  if (m.subject id).isNone then (m, .error { status := 404, err := .tabUnknown })
  else
    match Tabs.setPinned w m.tabs id pinned with
    | (tabs, .error err) => ({ m with tabs }, .error { status := 500, err := .store err })
    | (tabs, .ok ((), version)) =>
      let before := m.tabs.version
      let m := { m with tabs }
      if version ≠ before then
        match m.subject id with
        | some changed =>
          (m.emit { version := version.toNat, changed := some changed, opID := wire opID },
            .ok version)
        | none => (m, .ok version)
      else (m, .ok version)

/-- Only a chat can hold sub-tabs. -/
def reparent (id parent opID : String) (w : Tabs.WriteOutcome) :
    Membership × Except StatusError (TabSubject × UInt64) :=
  if (m.subject id).isNone then (m, .error { status := 404, err := .tabUnknown })
  else if (m.subject parent).all (fun p => p.kind ≠ .chat) then
    (m, .error { status := 409, err := .parentNotChat })
  else
    match Tabs.reparent w m.tabs id parent with
    | (tabs, .error (.cycle parent id)) =>
      ({ m with tabs }, .error { status := 409, err := .store (.cycle parent id) })
    | (tabs, .error err) => ({ m with tabs }, .error { status := 500, err := .store err })
    | (tabs, .ok ((), version)) =>
      let before := m.tabs.version
      let m := { m with tabs }
      match m.subject id with
      | none => (m, .error { status := 500, err := .tabUnknown })
      | some changed =>
        if version ≠ before then
          (m.emit
              { version := version.toNat, changed := some changed, order := wireIDs m.order
                opID := wire opID },
            .ok (changed, version))
        else (m, .ok (changed, version))

/-! ## Deleting -/

/-- The chat's work is torn down before the lock, then its record goes, then its tabs. -/
def deleteChatAndCloseTabs (chatID opID : String) (removes : Bool)
    (writes : String → Tabs.WriteOutcome × Tabs.WriteOutcome) :
    Membership × Except StatusError Unit :=
  let m := { m with teardowns := m.teardowns ++ [.delete chatID] }
  match m.chats.delete m.clock chatID removes with
  | (_, false) => (m, .error { status := 500, err := .delete })
  | (chats, true) => ({ m with chats }.closeTabsFor writes chatID opID, .ok ())

/-- A purge that finds the chat aged and with no open tab. -/
def purgeAdmits (chatID : String) : Membership :=
  if m.hasOpenTab chatID then m else { m with aging := chatID :: m.aging }

/-- The purge's remove, under the record's own lock; a record kept for its age or its draft, or one
that is missing or cannot be removed, ends the purge. -/
def purgeRemoves (chatID : String) (removes : Bool) : Membership :=
  if chatID ∈ m.aging then
    let m := { m with aging := m.aging.erase chatID }
    match m.chats.get chatID with
    | none => m
    | some c =>
      if removes then
        { m with chats := m.chats.remove m.clock chatID, purged := c :: m.purged }
      else m
  else m

/-- The work of a purged chat is torn down by its chain, and its tabs are closed. -/
def retentionClose (c : ChatHeader)
    (writes : String → Tabs.WriteOutcome × Tabs.WriteOutcome) : Membership :=
  if c ∈ m.purged then
    let m : Membership :=
      { m with
        purged := m.purged.erase c
        teardowns := m.teardowns ++ [.deleteByChain c.id c.sessionChain] }
    m.closeTabsFor writes c.id ""
  else m

end Membership

/-- What happens to the two stores: an operation with the ids that it would mint and how its writes
end, a step of a purge, another writer's change of a record, or time that passes. -/
inductive MembershipEvent where
  | create (req : ChatCreate) (minted newID : String) (saved : Bool) (w : Tabs.WriteOutcome)
  | openTab (spec : OpenTab) (opID : String) (runChat : Option String) (newID : String)
      (w : Tabs.WriteOutcome)
  | closeTab (id opID : String) (retained : Bool) (removes : String → Bool) (w : Tabs.WriteOutcome)
  | reorderTabs (ids : List String) (opID : String) (w : Tabs.WriteOutcome)
  | setPinned (id : String) (pinned : Bool) (opID : String) (w : Tabs.WriteOutcome)
  | reparent (id parent opID : String) (w : Tabs.WriteOutcome)
  | deleteChat (chatID opID : String) (removes : Bool)
      (writes : String → Tabs.WriteOutcome × Tabs.WriteOutcome)
  | purgeAdmits (chatID : String)
  | purgeRemoves (chatID : String) (removes : Bool)
  | retentionClose (c : ChatHeader) (writes : String → Tabs.WriteOutcome × Tabs.WriteOutcome)
  | recordChanges (c : ChatHeader)
  | passes (d : ℕ)

namespace Membership

/-- Another writer's change of a chat's record. -/
def recordChanges (m : Membership) (c : ChatHeader) : Membership :=
  if (m.chats.get c.id).isSome then
    { m with chats := { m.chats with chats := Keyed.set ChatHeader.id m.chats.chats c } }
  else m

def step (m : Membership) : MembershipEvent → Membership
  | .create req minted newID saved w => (m.createChatAndOpen req minted newID saved w).1
  | .openTab spec opID runChat newID w => (m.openTab spec opID runChat newID w).1
  | .closeTab id opID retained removes w => (m.closeTab id opID retained removes w).1
  | .reorderTabs ids opID w => (m.reorderTabs ids opID w).1
  | .setPinned id pinned opID w => (m.setPinned id pinned opID w).1
  | .reparent id parent opID w => (m.reparent id parent opID w).1
  | .deleteChat chatID opID removes writes =>
    (m.deleteChatAndCloseTabs chatID opID removes writes).1
  | .purgeAdmits chatID => m.purgeAdmits chatID
  | .purgeRemoves chatID removes => m.purgeRemoves chatID removes
  | .retentionClose c writes => m.retentionClose c writes
  | .recordChanges c => m.recordChanges c
  | .passes d => { m with clock := m.clock + d }

end Membership
end Marotte.Command
