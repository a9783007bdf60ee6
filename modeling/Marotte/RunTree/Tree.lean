import Mathlib.Data.Int.Notation
import Marotte.Library.Overwrites

/-! # A run's tree and its progress frames

The tree as the server holds it and as the browser classifies it. A progress frame addresses one
node by its path and is written over it; it lands again where it landed, whatever other frames did.
-/
namespace Marotte.RunTree

inductive RunNodeType where
  | step
  | sequence
  | repeats
  | parallel
  | watch
  deriving DecidableEq

/-- A word that the browser does not know is `unknown`. -/
inductive RunNodeStatus where
  | pending
  | running
  | paused
  | completed
  | failed
  | aborted
  | skipped
  | unknown
  deriving DecidableEq

/-- A node, its status spelled in `σ`. -/
structure RunNode (σ : Type) where
  nodeId : String
  type : RunNodeType
  status : σ
  startedAt : Option String := none
  endedAt : Option String := none
  iteration : Option ℤ := none
  failureReason : Option String := none
  children : Option (List (RunNode σ)) := none

/-- A `run_progress` payload; its node path in segments, none for a frame that names no node. -/
structure RunProgressFrame where
  nodePath : List String := []
  status : Option String := none
  startedAt : Option String := none
  endedAt : Option String := none
  failureReason : Option String := none

/-- The frame's status, if it is a word of the tree's. -/
def nodeStatus : Option String → Option RunNodeStatus
  | some "pending" => some .pending
  | some "running" => some .running
  | some "paused" => some .paused
  | some "completed" => some .completed
  | some "failed" => some .failed
  | some "aborted" => some .aborted
  | some "skipped" => some .skipped
  | _ => none

def classifyRunNodeStatus (status : String) : RunNodeStatus :=
  (nodeStatus (some status)).getD .unknown

mutual

/-- The tree of an answer. -/
def classifyRunNode : RunNode String → RunNode RunNodeStatus
  | ⟨nodeId, type, status, startedAt, endedAt, iteration, failureReason, children⟩ =>
    ⟨nodeId, type, classifyRunNodeStatus status, startedAt, endedAt, iteration, failureReason,
      classifyChildren children⟩

def classifyChildren : Option (List (RunNode String)) → Option (List (RunNode RunNodeStatus))
  | none => none
  | some kids => some (classifyKids kids)

def classifyKids : List (RunNode String) → List (RunNode RunNodeStatus)
  | [] => []
  | kid :: kids => classifyRunNode kid :: classifyKids kids

end

def nonEmpty (v : Option String) : Option String := v.filter (· ≠ "")

/-- The frame's fields over the node's. -/
def patchedLeaf (p : RunProgressFrame) (node : RunNode RunNodeStatus) : RunNode RunNodeStatus :=
  { node with
    status := (nodeStatus p.status).getD node.status
    startedAt := (nonEmpty p.startedAt).or node.startedAt
    endedAt := (nonEmpty p.endedAt).or node.endedAt
    failureReason := (nonEmpty p.failureReason).or node.failureReason }

/-- A repeat's iteration is named by its number in a path. -/
def nodePathSegment (node : RunNode RunNodeStatus) (parent : Option (RunNode RunNodeStatus)) :
    String :=
  match parent.map RunNode.type, node.iteration with
  | some .repeats, some n => "iter-" ++ toString n
  | _, _ => node.nodeId

/-- The subtree with the node that the trail leads to patched, if it holds one. -/
def patchNode (p : RunProgressFrame) :
    List String → Option (RunNode RunNodeStatus) → RunNode RunNodeStatus →
      Option (RunNode RunNodeStatus)
  | [], _, _ => none
  | head :: rest, parent, node =>
    if nodePathSegment node parent ≠ head then none
    else if rest = [] then some (patchedLeaf p node)
    else match node.children with
      | none => none
      | some kids =>
        (patchFirst (patchNode p rest (some node)) kids).map fun kids =>
          { node with children := some kids }

/-- The frame on the cached tree, or none where the browser has to read again. -/
def applyRunProgress (root : Option (RunNode RunNodeStatus)) (p : RunProgressFrame) :
    Option (RunNode RunNodeStatus) :=
  root.bind (patchNode p p.nodePath none)

/-! ## Where a frame lands -/

/-- What a path is matched by: a frame leaves it alone. -/
structure SamePlace (node node' : RunNode RunNodeStatus) : Prop where
  nodeId : node'.nodeId = node.nodeId
  type : node'.type = node.type
  iteration : node'.iteration = node.iteration

theorem SamePlace.refl (node : RunNode RunNodeStatus) : SamePlace node node := ⟨rfl, rfl, rfl⟩

theorem SamePlace.trans {x y z : RunNode RunNodeStatus} (h : SamePlace x y) (h' : SamePlace y z) :
    SamePlace x z :=
  ⟨h'.nodeId.trans h.nodeId, h'.type.trans h.type, h'.iteration.trans h.iteration⟩

theorem SamePlace.segment {node node' : RunNode RunNodeStatus} (h : SamePlace node node')
    (parent : Option (RunNode RunNodeStatus)) :
    nodePathSegment node' parent = nodePathSegment node parent := by
  rw [nodePathSegment, nodePathSegment, h.nodeId, h.iteration]

/-- Of its parent a node's path reads the type alone. -/
theorem patchNode_parent (p : RunProgressFrame) (trail : List String)
    {parent parent' : RunNode RunNodeStatus} (h : parent'.type = parent.type) :
    patchNode p trail (some parent') = patchNode p trail (some parent) := by
  funext node
  cases trail with
  | nil => rfl
  | cons head rest =>
    have hsegment : nodePathSegment node (some parent') = nodePathSegment node (some parent) := by
      rw [nodePathSegment, nodePathSegment, Option.map_some, Option.map_some, h]
    rw [patchNode, patchNode, hsegment]

theorem patchedLeaf_samePlace (p : RunProgressFrame) (node : RunNode RunNodeStatus) :
    SamePlace node (patchedLeaf p node) := ⟨rfl, rfl, rfl⟩

def RunNode.withKids {σ : Type} (node : RunNode σ) (kids : Option (List (RunNode σ))) :
    RunNode σ :=
  { node with children := kids }

/-- The children of a node under a trail that goes on. -/
def patchKids (p : RunProgressFrame) (rest : List String) (node : RunNode RunNodeStatus) :
    Option (List (RunNode RunNodeStatus)) :=
  node.children.map (done (patchFirst (patchNode p rest (some node))))

theorem patchKids_of_type (p : RunProgressFrame) (rest : List String)
    {node node' : RunNode RunNodeStatus} (h : node'.type = node.type) :
    patchKids p rest node' =
      node'.children.map (done (patchFirst (patchNode p rest (some node)))) := by
  rw [patchKids, patchNode_parent p rest h]

theorem patchKids_withKids (p : RunProgressFrame) (rest : List String)
    (node : RunNode RunNodeStatus) (kids : Option (List (RunNode RunNodeStatus))) :
    patchKids p rest (node.withKids kids) =
      kids.map (done (patchFirst (patchNode p rest (some node)))) :=
  patchKids_of_type p rest rfl

theorem patchKids_patchedLeaf (p q : RunProgressFrame) (rest : List String)
    (node : RunNode RunNodeStatus) :
    patchKids p rest (patchedLeaf q node) = patchKids p rest node :=
  patchKids_of_type p rest rfl

theorem patchedLeaf_withKids (p : RunProgressFrame) (node : RunNode RunNodeStatus)
    (kids : Option (List (RunNode RunNodeStatus))) :
    patchedLeaf p (node.withKids kids) = (patchedLeaf p node).withKids kids := rfl

theorem withKids_withKids (node : RunNode RunNodeStatus)
    (kids kids' : Option (List (RunNode RunNodeStatus))) :
    (node.withKids kids).withKids kids' = node.withKids kids' := rfl

theorem withKids_samePlace (node : RunNode RunNodeStatus)
    (kids : Option (List (RunNode RunNodeStatus))) : SamePlace node (node.withKids kids) :=
  ⟨rfl, rfl, rfl⟩

/-- The three things a frame can do at a node. -/
theorem done_patchNode (p : RunProgressFrame) (head : String) (rest : List String)
    (parent : Option (RunNode RunNodeStatus)) (node : RunNode RunNodeStatus) :
    done (patchNode p (head :: rest) parent) node =
      if nodePathSegment node parent ≠ head then node
      else if rest = [] then patchedLeaf p node
      else node.withKids (patchKids p rest node) := by
  rw [done, patchNode]
  split
  · rfl
  split
  · rfl
  · obtain ⟨nodeId, type, status, startedAt, endedAt, iteration, failureReason, children⟩ := node
    cases children with
    | none => rfl
    | some kids =>
      simp only [patchKids, RunNode.withKids, Option.map_some, done]
      cases patchFirst (patchNode p rest (some _)) kids <;> rfl

theorem isSome_patchNode (p : RunProgressFrame) (head : String) (rest : List String)
    (parent : Option (RunNode RunNodeStatus)) (node : RunNode RunNodeStatus) :
    (patchNode p (head :: rest) parent node).isSome =
      (decide (nodePathSegment node parent = head) && (decide (rest = []) ||
        (node.children.map fun kids =>
          (patchFirst (patchNode p rest (some node)) kids).isSome).getD false)) := by
  rw [patchNode]
  split
  · next hne => simp [hne]
  · next heq =>
    rw [not_not] at heq
    split
    · next hnil => simp [heq, hnil]
    · next hnil =>
      cases node.children with
      | none => simp [heq, hnil]
      | some kids => simp [heq, hnil]

/-- What stands at a place after a frame stands at the same place. -/
theorem done_patchNode_samePlace (p : RunProgressFrame) (trail : List String)
    (parent : Option (RunNode RunNodeStatus)) (node : RunNode RunNodeStatus) :
    SamePlace node (done (patchNode p trail parent) node) := by
  cases trail with
  | nil => exact ⟨rfl, rfl, rfl⟩
  | cons head rest =>
    rw [done_patchNode]
    split
    · exact ⟨rfl, rfl, rfl⟩
    split
    · exact patchedLeaf_samePlace p node
    · exact withKids_samePlace node (patchKids p rest node)

theorem patchNode_lands (p q : RunProgressFrame) (trail : List String) :
    ∀ (trail' : List String) (parent : Option (RunNode RunNodeStatus))
      (node : RunNode RunNodeStatus),
      (patchNode p trail parent (done (patchNode q trail' parent) node)).isSome =
        (patchNode p trail parent node).isSome := by
  induction trail with
  | nil =>
    intro trail' parent node
    rfl
  | cons head rest ih =>
    intro trail' parent node
    have hplace := done_patchNode_samePlace q trail' parent node
    rw [isSome_patchNode, isSome_patchNode, hplace.segment, patchNode_parent p rest hplace.type]
    cases trail' with
    | nil => rfl
    | cons head' rest' =>
      rw [done_patchNode]
      split
      · rfl
      split
      · rfl
      · rw [RunNode.withKids, patchKids, Option.map_map]
        congr 3
        cases node.children with
        | none => rfl
        | some kids =>
          rw [Option.map_some, Option.map_some, Function.comp_apply]
          rw [patchFirst_lands fun kid => ih rest' (some node) kid]

theorem patchedLeaf_absorb (p q : RunProgressFrame) (node : RunNode RunNodeStatus) :
    patchedLeaf p (patchedLeaf q (patchedLeaf p node)) = patchedLeaf p (patchedLeaf q node) := by
  simp only [patchedLeaf]
  congr 1
  · cases nodeStatus p.status <;> rfl
  · cases nonEmpty p.startedAt <;> rfl
  · cases nonEmpty p.endedAt <;> rfl
  · cases nonEmpty p.failureReason <;> rfl

theorem patchedLeaf_again (p : RunProgressFrame) (node : RunNode RunNodeStatus) :
    patchedLeaf p (patchedLeaf p node) = patchedLeaf p node := by
  simp only [patchedLeaf]
  congr 1
  · cases nodeStatus p.status <;> rfl
  · cases nonEmpty p.startedAt <;> rfl
  · cases nonEmpty p.endedAt <;> rfl
  · cases nonEmpty p.failureReason <;> rfl

theorem patchNode_again (p : RunProgressFrame) (trail : List String) :
    ∀ (parent : Option (RunNode RunNodeStatus)) (node : RunNode RunNodeStatus),
      done (patchNode p trail parent) (done (patchNode p trail parent) node) =
        done (patchNode p trail parent) node := by
  induction trail with
  | nil =>
    intro parent node
    rfl
  | cons head rest ih =>
    intro parent node
    have hplace := done_patchNode_samePlace p (head :: rest) parent node
    rw [done_patchNode p head rest parent (done _ _), hplace.segment, done_patchNode]
    split
    · rfl
    split
    · exact patchedLeaf_again p node
    · rw [patchKids_withKids, withKids_withKids]
      congr 1
      rw [patchKids, Option.map_map]
      congr 1
      funext kids
      exact patchFirst_again (patchNode_lands p p rest rest (some node)) (ih (some node)) kids

/-- Two frames that lead into one node. -/
theorem patchNode_absorb_both (p q : RunProgressFrame) {head head' : String}
    {rest rest' : List String} {parent : Option (RunNode RunNodeStatus)}
    {node : RunNode RunNodeStatus} (hp : nodePathSegment node parent = head)
    (hq : nodePathSegment node parent = head')
    (ih : Absorbs (patchNode p rest (some node)) (patchNode q rest' (some node))) :
    done (patchNode p (head :: rest) parent) (done (patchNode q (head' :: rest') parent)
        (done (patchNode p (head :: rest) parent) node)) =
      done (patchNode p (head :: rest) parent) (done (patchNode q (head' :: rest') parent) node) := by
  have happ : ∀ x, SamePlace node x → done (patchNode p (head :: rest) parent) x =
      if rest = [] then patchedLeaf p x else x.withKids (patchKids p rest x) := by
    intro x hx
    rw [done_patchNode, hx.segment, if_neg (not_not.mpr hp)]
  have happ' : ∀ x, SamePlace node x → done (patchNode q (head' :: rest') parent) x =
      if rest' = [] then patchedLeaf q x else x.withKids (patchKids q rest' x) := by
    intro x hx
    rw [done_patchNode, hx.segment, if_neg (not_not.mpr hq)]
  have hself : ∀ x, (patchNode p rest (some node) (done (patchNode p rest (some node)) x)).isSome =
      (patchNode p rest (some node) x).isSome := patchNode_lands p p rest rest (some node)
  have hlists := ih.patchFirst hself
  have hsecond := done_patchNode_samePlace q (head' :: rest') parent node
  have hfirst := done_patchNode_samePlace p (head :: rest) parent node
  have hthird := done_patchNode_samePlace q (head' :: rest') parent
    (done (patchNode p (head :: rest) parent) node)
  rw [happ _ (hfirst.trans hthird), happ _ hsecond, happ' _ hfirst, happ node (.refl node),
    happ' node (.refl node)]
  by_cases hleaf : rest = []
  · -- the first frame writes the node itself
    rw [if_pos hleaf, if_pos hleaf, if_pos hleaf]
    split
    · exact patchedLeaf_absorb p q node
    · rw [patchKids_patchedLeaf, patchedLeaf_withKids, patchedLeaf_again, patchedLeaf_withKids]
  · rw [if_neg hleaf, if_neg hleaf, if_neg hleaf]
    split
    · rw [patchedLeaf_withKids, patchKids_withKids, withKids_withKids, patchKids_patchedLeaf,
        patchNode_parent p rest (patchedLeaf_samePlace q node).type]
      congr 1
      rw [patchKids, Option.map_map]
      congr 1
      funext kids
      exact hlists.again kids
    · simp only [withKids_withKids, patchKids_withKids]
      congr 1
      rw [patchKids, patchKids, Option.map_map, Option.map_map, Option.map_map]
      congr 1
      funext kids
      exact hlists.absorb kids

/-- A frame sets again what another one left of it, wherever the two lead. -/
theorem patchNode_absorbs (p q : RunProgressFrame) (trail : List String) :
    ∀ (trail' : List String) (parent : Option (RunNode RunNodeStatus)),
      Absorbs (patchNode p trail parent) (patchNode q trail' parent) := by
  induction trail with
  | nil =>
    intro trail' parent
    exact ⟨fun _ => rfl, fun _ => rfl, fun _ => rfl, fun _ => rfl⟩
  | cons head rest ih =>
    intro trail' parent
    refine ⟨patchNode_lands p q (head :: rest) trail' parent,
      patchNode_lands q p trail' (head :: rest) parent, patchNode_again p (head :: rest) parent, ?_⟩
    intro node
    cases trail' with
    | nil => exact patchNode_again p (head :: rest) parent node
    | cons head' rest' =>
      have hfirst := done_patchNode_samePlace p (head :: rest) parent node
      have hsecond := done_patchNode_samePlace q (head' :: rest') parent node
      by_cases hp : nodePathSegment node parent = head
      · by_cases hq : nodePathSegment node parent = head'
        · exact patchNode_absorb_both p q hp hq (ih rest' (some node))
        · have hgone : done (patchNode q (head' :: rest') parent)
              (done (patchNode p (head :: rest) parent) node) =
                done (patchNode p (head :: rest) parent) node := by
            rw [done_patchNode q, hfirst.segment, if_pos hq]
          have hsame : done (patchNode q (head' :: rest') parent) node = node := by
            rw [done_patchNode, if_pos hq]
          rw [hgone, hsame, patchNode_again]
      · have hsame : done (patchNode p (head :: rest) parent) node = node := by
          rw [done_patchNode, if_pos hp]
        rw [hsame]

end Marotte.RunTree
