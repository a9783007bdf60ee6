import Marotte.Library.Reach

/-! # The open-tab set

What is open, in what order, and at what version. Every operation works on a copy of the
set, and one write path decides whether the copy is persisted and published.
-/
namespace Marotte.Tabs

/-- The eleven tab kinds, and a file's name for none of them. -/
inductive TabKind where
  | chat | editor | run | subagent | settings | git | files | history | docs | spec | web
  | unknown (name : String)
  deriving DecidableEq, Repr

def TabKind.valid : TabKind → Bool
  | .unknown _ => false
  | _ => true

/-- Whether a kind has exactly one tab, whose ref is empty. -/
def TabKind.singleton : TabKind → Bool
  | .settings | .git | .history | .docs => true
  | _ => false

structure TabSubject where
  id : String
  kind : TabKind
  ref : String := ""
  parent : String := ""
  pinned : Bool := false
  owns : Bool := false
  deriving DecidableEq, Repr

/-- What an open states: a subject less what the store mints. -/
structure OpenTab where
  kind : TabKind
  ref : String := ""
  parent : String := ""
  owns : Bool := false
  deriving DecidableEq, Repr

inductive TabError where
  | badKind (kind : TabKind)
  | singletonRef (kind : TabKind) (ref : String)
  | missingRef (kind : TabKind)
  | longRef (bytes : ℕ)
  | tooMany (tabs : ℕ)
  | orderLength (ids tabs : ℕ)
  | orderTwice (id : String)
  | orderNotOpen (id : String)
  | notOpen (id : String)
  | cycle (parent id : String)
  | write
  deriving DecidableEq, Repr

/-- The decode bound: the most tabs read out of a file. -/
def maxTabs : ℕ := 500

/-- The product limit: the most tabs an open leaves. -/
def maxOpenTabs : ℕ := 48

def maxRefBytes : ℕ := 512

def maxIDBytes : ℕ := 128

/-- Whether a kind and a ref name something the store can hold. -/
def checkSubject (kind : TabKind) (ref : String) : Except TabError Unit :=
  if kind.valid = false then .error (.badKind kind)
  else if kind.singleton ∧ ref ≠ "" then .error (.singletonRef kind ref)
  else if kind.singleton = false ∧ ref = "" then .error (.missingRef kind)
  else if ref.utf8ByteSize > maxRefBytes then .error (.longRef ref.utf8ByteSize)
  else .ok ()

/-- The ordered set with the version that describes it; also the document on disk. -/
structure TabState where
  tabs : List TabSubject := []
  version : UInt64 := 0
  deriving DecidableEq

/-- The entries of a document that could have come from the store, at most `maxTabs`. -/
def sanitizeFrom : List TabSubject → List TabSubject → List TabSubject
  | out, [] => out
  | out, t :: rest =>
    if t.id = "" ∨ t.id.utf8ByteSize > maxIDBytes then sanitizeFrom out rest
    else if checkSubject t.kind t.ref ≠ .ok () then sanitizeFrom out rest
    else if out.any (fun u => u.id = t.id) then sanitizeFrom out rest
    else if out.any (fun u => u.kind = t.kind ∧ u.ref = t.ref) then sanitizeFrom out rest
    else if out.length + 1 = maxTabs then out ++ [t]
    else sanitizeFrom (out ++ [t]) rest

def sanitize (tabs : List TabSubject) : List TabSubject := sanitizeFrom [] tabs

def indexOfID (tabs : List TabSubject) (id : String) : Option ℕ :=
  tabs.findIdx? (fun t => t.id = id)

def indexOfSubject (tabs : List TabSubject) (kind : TabKind) (ref : String) : Option ℕ :=
  tabs.findIdx? (fun t => t.kind = kind ∧ t.ref = ref)

/-- Places a tab behind its parent's contiguous children, or promoted at the end. -/
def insertTab (tabs : List TabSubject) (sub : TabSubject) : TabSubject × List TabSubject :=
  match (if sub.parent = "" then none else indexOfID tabs sub.parent) with
  | none => ({ sub with parent := "" }, tabs ++ [{ sub with parent := "" }])
  | some at_ =>
    let kids := (tabs.drop (at_ + 1)).takeWhile (fun t => t.parent = sub.parent)
    (sub, tabs.insertIdx (at_ + 1 + kids.length) sub)

/-- The ids of the tabs that hang directly under one. -/
def childIDs (tabs : List TabSubject) (id : String) : List String :=
  (tabs.filter (fun t => t.parent ≠ "" ∧ t.parent = id)).map TabSubject.id

/-- A tab with every tab that descends from it; nothing when it is not open. -/
def closure (tabs : List TabSubject) (id : String) : List String :=
  if indexOfID tabs id = none then []
  else Reach.walk (childIDs tabs) tabs.length ([id], [id])

/-- What one operation makes of its copy, and what it answers. -/
structure Applied (α : Type) where
  changed : Bool
  tabs : List TabSubject
  value : α

/-- The store's state, and the document a reader of its file finds. -/
structure Store extends TabState where
  disk : Option TabState := none

/-- How a write ends; one that fails may still have put its document in place. -/
inductive WriteOutcome where
  | done
  | failed (landed : Bool)
  deriving DecidableEq, Repr

/-- The one write path: copy, apply, persist, publish. -/
def mutate {α : Type} (w : WriteOutcome) (s : Store)
    (apply : List TabSubject → Except TabError (Applied α)) :
    Store × Except TabError (α × UInt64) :=
  match apply s.tabs with
  | .error err => (s, .error err)
  | .ok a =>
    if a.changed = false then (s, .ok (a.value, s.version))
    else
      let next : TabState := { tabs := a.tabs, version := s.version + 1 }
      match w with
      | .failed landed =>
        ({ s with disk := if landed then some next else s.disk }, .error .write)
      | .done => ({ toTabState := next, disk := some next }, .ok (a.value, next.version))

/-- Opens a tab under a minted id, or answers the one open for its subject. -/
def open_ (w : WriteOutcome) (s : Store) (newID : String) (spec : OpenTab) :
    Store × Except TabError ((TabSubject × Bool) × UInt64) :=
  match checkSubject spec.kind spec.ref with
  | .error err => (s, .error err)
  | .ok () =>
    mutate w s (fun tabs =>
      match tabs.find? (fun t => t.kind = spec.kind ∧ t.ref = spec.ref) with
      | some t => .ok { changed := false, tabs := tabs, value := (t, false) }
      | none =>
        if maxOpenTabs ≤ tabs.length then .error (.tooMany tabs.length)
        else
          let sub : TabSubject :=
            { id := newID, kind := spec.kind, ref := spec.ref, parent := spec.parent
              owns := spec.owns }
          let placed := insertTab tabs sub
          .ok { changed := true, tabs := placed.2, value := (placed.1, true) })

/-- Removes a tab and its descendants; answers what it removed, in the set's order. -/
def close (w : WriteOutcome) (s : Store) (id : String) :
    Store × Except TabError (List TabSubject × UInt64) :=
  mutate w s (fun tabs =>
    let doomed := closure tabs id
    if doomed = [] then .ok { changed := false, tabs := tabs, value := [] }
    else
      .ok
        { changed := true
          tabs := tabs.filter (fun t => t.id ∉ doomed)
          value := tabs.filter (fun t => t.id ∈ doomed) })

/-- The tabs an order names, or its first id that is repeated or not open. -/
def pick (tabs : List TabSubject) : List String → List String → Except TabError (List TabSubject)
  | _, [] => .ok []
  | seen, id :: ids =>
    if id ∈ seen then .error (.orderTwice id)
    else match tabs.find? (fun t => t.id = id) with
      | none => .error (.orderNotOpen id)
      | some t =>
        match pick tabs (id :: seen) ids with
        | .error err => .error err
        | .ok next => .ok (t :: next)

/-- Replaces the order by one that names every open tab exactly once. -/
def reorder (w : WriteOutcome) (s : Store) (ids : List String) :
    Store × Except TabError (Unit × UInt64) :=
  mutate w s (fun tabs =>
    if ids.length ≠ tabs.length then .error (.orderLength ids.length tabs.length)
    else match pick tabs [] ids with
      | .error err => .error err
      | .ok next => .ok { changed := decide (tabs ≠ next), tabs := next, value := () })

def setPinned (w : WriteOutcome) (s : Store) (id : String) (pinned : Bool) :
    Store × Except TabError (Unit × UInt64) :=
  mutate w s (fun tabs =>
    match indexOfID tabs id with
    | none => .ok { changed := false, tabs := tabs, value := () }
    | some i =>
      if (tabs[i]?.map TabSubject.pinned) = some pinned then
        .ok { changed := false, tabs := tabs, value := () }
      else
        .ok { changed := true, tabs := tabs.modify i (fun t => { t with pinned }), value := () })

/-- Hangs one tab under another and moves its row; its own descendants keep theirs. -/
def reparent (w : WriteOutcome) (s : Store) (id parent : String) :
    Store × Except TabError (Unit × UInt64) :=
  mutate w s (fun tabs =>
    match tabs.find? (fun t => t.id = id) with
    | none => .error (.notOpen id)
    | some t =>
      if t.parent = parent then .ok { changed := false, tabs := tabs, value := () }
      else if parent ∈ closure tabs id then .error (.cycle parent id)
      else
        let placed := insertTab (tabs.eraseP (fun t => t.id = id)) { t with parent := parent }
        .ok { changed := true, tabs := placed.2, value := () })

/-- Clears every parent that names no tab of the set, and counts them. -/
def promoteOrphans (tabs : List TabSubject) : List TabSubject × ℕ :=
  let orphan (t : TabSubject) : Bool := t.parent ≠ "" ∧ t.parent ∉ tabs.map TabSubject.id
  (tabs.map (fun t => if orphan t then { t with parent := "" } else t), tabs.countP orphan)

/-- Drops the tabs whose subject is gone and promotes what they leave behind. With no answer
to ask for, every subject exists. -/
def prune (w : WriteOutcome) (s : Store) (exists_ : Option (TabSubject → Bool)) :
    Store × Except TabError (List TabSubject × UInt64) :=
  mutate w s (fun tabs =>
    let resolves := exists_.getD (fun _ => true)
    let kept := tabs.filter resolves
    let gone := tabs.filter (fun t => !resolves t)
    let promoted := promoteOrphans kept
    if gone = [] ∧ promoted.2 = 0 then .ok { changed := false, tabs := tabs, value := [] }
    else .ok { changed := true, tabs := promoted.1, value := gone })

/-- A store over the document its file holds, or an empty one over a file with none. -/
def newStore (doc : Option TabState) : Store where
  tabs := ((doc.map TabState.tabs).map sanitize).getD []
  version := (doc.map TabState.version).getD 0
  disk := doc

/-- One call on the store; an open comes with the id it would mint. -/
inductive TabOp where
  | open (newID : String) (spec : OpenTab)
  | close (id : String)
  | reorder (ids : List String)
  | setPinned (id : String) (pinned : Bool)
  | reparent (id parent : String)
  | prune (exists_ : Option (TabSubject → Bool))

/-- The store after one call, and whether the call answered without an error. -/
def step (s : Store) : TabOp × WriteOutcome → Store × Bool
  | (.open newID spec, w) => ((open_ w s newID spec).1, (open_ w s newID spec).2.isOk)
  | (.close id, w) => ((close w s id).1, (close w s id).2.isOk)
  | (.reorder ids, w) => ((reorder w s ids).1, (reorder w s ids).2.isOk)
  | (.setPinned id pinned, w) => ((setPinned w s id pinned).1, (setPinned w s id pinned).2.isOk)
  | (.reparent id parent, w) => ((reparent w s id parent).1, (reparent w s id parent).2.isOk)
  | (.prune exists_, w) => ((prune w s exists_).1, (prune w s exists_).2.isOk)

def run (s : Store) (calls : List (TabOp × WriteOutcome)) : Store :=
  calls.foldl (fun s call => (step s call).1) s

end Marotte.Tabs
