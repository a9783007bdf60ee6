import Marotte.RunTree.Tree
import Mathlib.Data.List.DropRight
import Mathlib.Data.List.Nodup

/-! # The tree as objects

The tree of a run as the browser holds it: nodes with an identity, which a frame's patch keeps
wherever nothing moves, and the paths the nodes are addressed by.
-/
namespace Marotte.RunTree.Objects

/-- A node object: its identity, the fields that frames and paths read, and the others. -/
structure Node (ι : Type) where
  ref : ℕ
  nodeId : String
  type : RunNodeType
  status : RunNodeStatus
  startedAt : Option String
  endedAt : Option String
  iteration : Option ℤ
  failureReason : Option String
  info : ι
  children : Option (List (Node ι))

/-- A `run_progress` payload. -/
structure Frame where
  workflowId : String
  nodePath : Option (List Char)
  status : Option String
  startedAt : Option String
  endedAt : Option String
  failureReason : Option String

variable {ι : Type} {p : Frame} {node parent : Node ι}

/-! ## Paths -/

/-- What a node is called under a parent of the type. -/
def segmentUnder (type : Option RunNodeType) (node : Node ι) : String :=
  match type, node.iteration with
  | some .repeats, some n => "iter-" ++ toString n
  | _, _ => node.nodeId

def nodePathSegment (node : Node ι) (parent : Option (Node ι)) : String :=
  segmentUnder (parent.map Node.type) node

mutual

/-- The walk to the target, with the segments to the node it finds. -/
def walk (target : ℕ) (type : Option RunNodeType) (trail : List String) :
    Node ι → Option (List String)
  | ⟨ref, nodeId, kind, status, startedAt, endedAt, iteration, failureReason, info, children⟩ =>
    let here := trail ++ [segmentUnder type
      ⟨ref, nodeId, kind, status, startedAt, endedAt, iteration, failureReason, info, children⟩]
    if ref = target then some here else walkChildren target kind here children

def walkChildren (target : ℕ) (type : RunNodeType) (here : List String) :
    Option (List (Node ι)) → Option (List String)
  | none => none
  | some kids => walkKids target type here kids

def walkKids (target : ℕ) (type : RunNodeType) (here : List String) :
    List (Node ι) → Option (List String)
  | [] => none
  | kid :: kids => (walk target (some type) here kid).or (walkKids target type here kids)

end

/-- A node the walk does not place keeps its bare id. -/
structure NodeAddress where
  path : List String
  placed : Bool

def nodeAddressOf (root : Option (Node ι)) (target : Node ι) : NodeAddress :=
  match root.bind (walk target.ref none []) with
  | some path => { path := path, placed := true }
  | none => { path := [target.nodeId], placed := false }

def nodePathOf (root : Option (Node ι)) (target : Node ι) : List String :=
  (nodeAddressOf root target).path

/-- A path as it stands in a frame, its segments joined by slashes. -/
def joinPath (path : List String) : List Char :=
  ['/'].intercalate (path.map String.toList)

def splitPath (text : List Char) : List String :=
  (text.splitOn '/').map String.ofList

/-! ## Patching -/

/-- Whether a frame carries another value of a field. -/
def changes {α : Type} [DecidableEq α] (value : Option α) (held : Option α) : Bool :=
  value.isSome && decide (value ≠ held)

def moved (p : Frame) (node : Node ι) : Bool :=
  changes (nodeStatus p.status) (some node.status)
    || changes (nonEmpty p.startedAt) node.startedAt
    || changes (nonEmpty p.endedAt) node.endedAt
    || changes (nonEmpty p.failureReason) node.failureReason

/-- The frame's known values over the node's. -/
def Node.written (p : Frame) (node : Node ι) : Node ι :=
  { node with
    status := (nodeStatus p.status).getD node.status
    startedAt := (nonEmpty p.startedAt).or node.startedAt
    endedAt := (nonEmpty p.endedAt).or node.endedAt
    failureReason := (nonEmpty p.failureReason).or node.failureReason }

/-- The node itself when nothing moves, or else a new object. The second component is the next
identity. -/
def patchedLeaf (p : Frame) (fresh : ℕ) (node : Node ι) : Node ι × ℕ :=
  if moved p node then ({ node.written p with ref := fresh }, fresh + 1) else (node, fresh)

/-- The first element with an answer. -/
structure Found (α β : Type) where
  before : List α
  item : α
  after : List α
  answer : β

def firstFound {α β : Type} (f : α → Option β) : List α → Option (Found α β)
  | [] => none
  | a :: as =>
    match f a with
    | some b => some { before := [], item := a, after := as, answer := b }
    | none => (firstFound f as).map fun x => { x with before := a :: x.before }

/-- The subtree with the addressed node patched: the node itself when nothing under it moves. -/
def patchNode (p : Frame) : List String → ℕ → Option (Node ι) → Node ι → Option (Node ι × ℕ)
  | [], _, _, _ => none
  | head :: rest, fresh, parent, node =>
    if nodePathSegment node parent ≠ head then none
    else if rest = [] then some (patchedLeaf p fresh node)
    else
      match node.children with
      | none => none
      | some kids =>
        match firstFound (patchNode p rest fresh (some node)) kids with
        | none => none
        | some x =>
          if x.answer.1.ref = x.item.ref then some (node, x.answer.2)
          else
            some ({ node with
              ref := x.answer.2
              children := some (x.before ++ x.answer.1 :: x.after) }, x.answer.2 + 1)

/-- What a frame leaves of the cached tree: whether it landed, the root and the next identity. -/
structure Applied (ι : Type) where
  landed : Bool
  root : Option (Node ι)
  fresh : ℕ

def applyRunProgress (root : Option (Node ι)) (fresh : ℕ) (p : Frame) : Applied ι :=
  let refused : Applied ι := { landed := false, root := root, fresh := fresh }
  if p.workflowId = "" then refused
  else
    match p.nodePath, root with
    | some text, some node =>
      if text = [] then refused
      else
        match patchNode p (splitPath text) fresh none node with
        | none => refused
        | some (next, fresh') =>
          if next.ref = node.ref then { landed := true, root := root, fresh := fresh' }
          else { landed := true, root := some next, fresh := fresh' }
    | _, _ => refused

end Marotte.RunTree.Objects

/-! ## The address of a node

Where a node stands in a tree of objects, that the walk to it answers its path and that a patch
resolves the path to it: the objects on the path are rebuilt, and all others are shared.
-/
namespace Marotte.RunTree.Objects



variable {ι : Type} {p : Frame} {node node' kid target m m' : Node ι} {type : Option RunNodeType}
  {path q : List String} {fresh : ℕ}

/-- The path of a node under the type of the parent. -/
inductive At : Option RunNodeType → Node ι → List String → Node ι → Prop
  | here (type : Option RunNodeType) (node : Node ι) : At type node [segmentUnder type node] node
  | under {type : Option RunNodeType} {node kid target : Node ι} {kids : List (Node ι)}
      {path : List String} (hkids : node.children = some kids) (hkid : kid ∈ kids)
      (h : At (some node.type) kid path target) :
      At type node (segmentUnder type node :: path) target

theorem At.head (h : At type node path target) :
    ∃ rest, path = segmentUnder type node :: rest := by
  cases h with
  | here => exact ⟨[], rfl⟩
  | under => exact ⟨_, rfl⟩

theorem At.ne_nil (h : At type node path target) : path ≠ [] := by
  obtain ⟨rest, rfl⟩ := h.head
  exact List.cons_ne_nil _ _

theorem At.segment_eq {kid' : Node ι} {target' : Node ι} (h : At type kid path target)
    (h' : At type kid' q target') (hq : q <+: path) : segmentUnder type kid' = segmentUnder type kid := by
  obtain ⟨rest, rfl⟩ := h.head
  obtain ⟨rest', rfl⟩ := h'.head
  exact (List.cons_prefix_cons.1 hq).1

/-- What the children are called. -/
def Node.kidSegments (node : Node ι) : List String :=
  (node.children.getD []).map (segmentUnder (some node.type))

/-- The children of every node have distinct names. -/
def Distinct (type : Option RunNodeType) (node : Node ι) : Prop :=
  ∀ path m, At type node path m → m.kidSegments.Nodup

theorem Distinct.child {kids : List (Node ι)} (h : Distinct type node)
    (hkids : node.children = some kids) (hkid : kid ∈ kids) : Distinct (some node.type) kid :=
  fun _ _ hm => h _ _ (.under hkids hkid hm)

theorem Distinct.children {kids : List (Node ι)} (h : Distinct type node)
    (hkids : node.children = some kids) : (kids.map (segmentUnder (some node.type))).Nodup := by
  have hnodup := h _ _ (.here type node)
  rwa [Node.kidSegments, hkids, Option.getD_some] at hnodup

/-- Of two children of one name there is one. -/
theorem Distinct.child_eq {kids : List (Node ι)} {kid' : Node ι} (h : Distinct type node)
    (hkids : node.children = some kids) (hkid : kid ∈ kids) (hkid' : kid' ∈ kids)
    (hsegment : segmentUnder (some node.type) kid' = segmentUnder (some node.type) kid) :
    kid' = kid :=
  List.inj_on_of_nodup_map (h.children hkids) hkid' hkid hsegment

theorem At.unique (h : At type node path m) (hdistinct : Distinct type node)
    (h' : At type node path m') : m' = m := by
  induction h with
  | here type node =>
    cases h' with
    | here => rfl
    | under hkids hkid h' => exact absurd rfl h'.ne_nil
  | @under type node kid target kids path hkids hkid h ih =>
    cases h' with
    | here => exact absurd rfl h.ne_nil
    | @under _ _ kid' _ kids' _ hkids' hkid' h' =>
      obtain rfl : kids = kids' := Option.some.inj (hkids.symm.trans hkids')
      obtain rfl := hdistinct.child_eq hkids hkid hkid' (h.segment_eq h' List.prefix_rfl)
      exact ih (hdistinct.child hkids hkid) h'

/-! ## The walk -/

theorem walk_eq (target : ℕ) (type : Option RunNodeType) (trail : List String) (node : Node ι) :
    walk target type trail node =
      if node.ref = target then some (trail ++ [segmentUnder type node])
      else walkChildren target node.type (trail ++ [segmentUnder type node]) node.children := by
  cases node
  rw [walk]

mutual

/-- What the walk answers is the path of the target. -/
theorem walk_sound (target : ℕ) : ∀ (node : Node ι) (type : Option RunNodeType)
    (trail path : List String), walk target type trail node = some path →
      ∃ q m, At type node q m ∧ m.ref = target ∧ path = trail ++ q
  | ⟨ref, nodeId, kind, status, startedAt, endedAt, iteration, failureReason, info, children⟩,
      type, trail, path, h => by
    rw [walk_eq] at h
    split at h
    · next hfound => exact ⟨_, _, .here type _, hfound, (Option.some.inj h).symm⟩
    · cases children with
      | none =>
        rw [walkChildren] at h
        contradiction
      | some kids =>
        rw [walkChildren] at h
        obtain ⟨kid, hkid, q, m, hat, href, hpath⟩ := walkKids_sound target kids _ _ path h
        refine ⟨_, m, .under rfl hkid hat, href, ?_⟩
        rw [hpath, List.append_assoc, List.singleton_append]

theorem walkKids_sound (target : ℕ) : ∀ (kids : List (Node ι)) (type : RunNodeType)
    (here path : List String), walkKids target type here kids = some path →
      ∃ kid ∈ kids, ∃ q m, At (some type) kid q m ∧ m.ref = target ∧ path = here ++ q
  | [], type, here, path, h => by
    rw [walkKids] at h
    contradiction
  | kid :: kids, type, here, path, h => by
    rw [walkKids, Option.or_eq_some_iff] at h
    rcases h with h | ⟨_, h⟩
    · exact ⟨kid, List.mem_cons_self, walk_sound target kid (some type) here path h⟩
    · obtain ⟨kid', hkid', hrest⟩ := walkKids_sound target kids type here path h
      exact ⟨kid', List.mem_cons_of_mem kid hkid', hrest⟩

end

/-- The walk finds every target there is. -/
theorem At.walk_isSome (h : At type node path m) (trail : List String) :
    (walk m.ref type trail node).isSome := by
  induction h generalizing trail with
  | here type node =>
    rw [walk_eq, if_pos rfl]
    rfl
  | @under type node kid target kids path hkids hkid h ih =>
    rw [walk_eq]
    split
    · rfl
    · rw [hkids, walkChildren]
      generalize trail ++ [segmentUnder type node] = here
      clear hkids
      induction kids with
      | nil => simp at hkid
      | cons first kids ihkids =>
        rw [walkKids, Option.isSome_or, Bool.or_eq_true]
        rcases List.mem_cons.1 hkid with rfl | hkid
        · exact .inl (ih here)
        · exact .inr (ihkids hkid)

/-! ## The tree -/

/-- A tree of objects: each stands at one place, the next identity is one of none, siblings have
distinct names and no name has a slash. -/
structure Tree (ι : Type) where
  root : Node ι
  fresh : ℕ
  single : ∀ path m path' m', At none root path m → At none root path' m' → m.ref = m'.ref →
    path = path' ∧ m = m'
  below : ∀ path m, At none root path m → m.ref < fresh
  distinct : Distinct none root
  noSlash : ∀ path m, At none root path m → ∀ segment ∈ path, '/' ∉ segment.toList

/-- The path of a node is where it stands. -/
theorem Tree.nodePathOf_eq (t : Tree ι) (h : At none t.root path m) :
    nodePathOf (some t.root) m = path := by
  obtain ⟨answer, hanswer⟩ := Option.isSome_iff_exists.1 (h.walk_isSome [])
  obtain ⟨q, m', hat, href, rfl⟩ := walk_sound m.ref t.root none [] answer hanswer
  rw [nodePathOf, nodeAddressOf, Option.bind_some, hanswer]
  exact (t.single _ _ _ _ hat h href).1

theorem splitPath_joinPath (hne : path ≠ []) (h : ∀ segment ∈ path, '/' ∉ segment.toList) :
    splitPath (joinPath path) = path := by
  have hsplit : (joinPath path).splitOn '/' = path.map String.toList := by
    apply List.splitOn_intercalate '/'
    · simpa using h
    · simpa using hne
  rw [splitPath, hsplit, List.map_map]
  simp

theorem joinPath_splitPath (text : List Char) : joinPath (splitPath text) = text := by
  rw [joinPath, splitPath, List.map_map]
  have hid : String.toList ∘ String.ofList = id := by
    funext cs
    simp
  rw [hid, List.map_id, List.intercalate_splitOn]

end Marotte.RunTree.Objects
