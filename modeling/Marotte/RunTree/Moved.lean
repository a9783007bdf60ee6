import Marotte.RunTree.Shared

/-! # A frame moves the node it addresses

What a frame does to the tree at the path of a node and elsewhere, again, and before or after a frame
at another node.
-/
namespace Marotte.RunTree.Objects

variable {ι : Type} {p p' : Frame} {node node' kid m m' : Node ι} {type : Option RunNodeType}
  {path path' q : List String} {fresh fresh' : ℕ} {t : Tree ι}

/-! ## Trees up to identities -/

mutual

/-- The tree without identities. -/
def plain : Node ι → Node ι
  | ⟨_, nodeId, kind, status, startedAt, endedAt, iteration, failureReason, info, children⟩ =>
    ⟨0, nodeId, kind, status, startedAt, endedAt, iteration, failureReason, info,
      plainChildren children⟩

def plainChildren : Option (List (Node ι)) → Option (List (Node ι))
  | none => none
  | some kids => some (plainKids kids)

def plainKids : List (Node ι) → List (Node ι)
  | [] => []
  | kid :: kids => plain kid :: plainKids kids

end

theorem plainKids_eq (kids : List (Node ι)) : plainKids kids = kids.map plain := by
  induction kids with
  | nil => rw [plainKids, List.map_nil]
  | cons kid kids ih => rw [plainKids, List.map_cons, ih]

theorem plain_eq (node : Node ι) :
    plain node = { node with ref := 0, children := node.children.map (List.map plain) } := by
  obtain ⟨ref, nodeId, kind, status, startedAt, endedAt, iteration, failureReason, info,
    children⟩ := node
  rw [plain]
  cases children with
  | none => rfl
  | some kids => rw [plainChildren, plainKids_eq, Option.map_some]

@[simp] theorem segmentUnder_plain (type : Option RunNodeType) (node : Node ι) :
    segmentUnder type (plain node) = segmentUnder type node := by
  rw [plain_eq]
  rfl

/-- The tree with a frame's values at a path. -/
def writtenAt (p : Frame) : List String → Option RunNodeType → Node ι → Node ι
  | [], _, node => node
  | head :: rest, type, node =>
    if segmentUnder type node ≠ head then node
    else if rest = [] then node.written p
    else { node with children := node.children.map (List.map (writtenAt p rest (some node.type))) }

theorem writtenAt_of_ne {head : String} (h : segmentUnder type node ≠ head) (rest : List String) :
    writtenAt p (head :: rest) type node = node :=
  if_pos h

theorem writtenAt_leaf {head : String} (h : segmentUnder type node = head) :
    writtenAt p [head] type node = node.written p := by
  rw [writtenAt, if_neg (not_not.2 h), if_pos rfl]

theorem writtenAt_spine {head : String} (h : segmentUnder type node = head) {rest : List String}
    (hrest : rest ≠ []) :
    writtenAt p (head :: rest) type node
      = { node with
          children := node.children.map (List.map (writtenAt p rest (some node.type))) } := by
  rw [writtenAt, if_neg (not_not.2 h), if_neg hrest]

theorem segmentUnder_writtenAt (p : Frame) (path : List String) (type : Option RunNodeType)
    (node : Node ι) : segmentUnder type (writtenAt p path type node) = segmentUnder type node := by
  cases path with
  | nil => rfl
  | cons head rest =>
    rw [writtenAt]
    split
    · rfl
    · split <;> rfl

theorem plain_written (p : Frame) (node : Node ι) :
    plain (node.written p) = (plain node).written p := by
  rw [plain_eq, plain_eq]
  rfl

theorem plain_writtenAt (p : Frame) (path : List String) (type : Option RunNodeType)
    (node : Node ι) : plain (writtenAt p path type node) = writtenAt p path type (plain node) := by
  induction path generalizing type node with
  | nil => rfl
  | cons head rest ih =>
    by_cases hhead : segmentUnder type node = head
    · have hplain := (segmentUnder_plain type node).trans hhead
      by_cases hrest : rest = []
      · subst hrest
        rw [writtenAt_leaf hhead, writtenAt_leaf hplain, plain_written]
      · rw [writtenAt_spine hhead hrest, writtenAt_spine hplain hrest, plain_eq, plain_eq node]
        simp only [Option.map_map]
        congr 2
        funext kids
        simp only [Function.comp_apply, List.map_map]
        congr 1
        funext kid
        exact ih _ kid
    · rw [writtenAt_of_ne hhead, writtenAt_of_ne (by rwa [segmentUnder_plain])]

theorem Node.eta (node : Node ι) :
    (⟨node.ref, node.nodeId, node.type, node.status, node.startedAt, node.endedAt, node.iteration,
      node.failureReason, node.info, node.children⟩ : Node ι) = node := by
  cases node
  rfl

/-- Values at two paths are written in either order. -/
theorem writtenAt_comm (p p' : Frame) (hne : path ≠ path') (type : Option RunNodeType)
    (node : Node ι) :
    writtenAt p path type (writtenAt p' path' type node)
      = writtenAt p' path' type (writtenAt p path type node) := by
  induction path generalizing path' type node with
  | nil => rfl
  | cons head rest ih =>
    cases path' with
    | nil => rfl
    | cons head' rest' =>
      have hsegment := segmentUnder_writtenAt p (head :: rest) type node
      have hsegment' := segmentUnder_writtenAt p' (head' :: rest') type node
      by_cases hhead : segmentUnder type node = head
      · by_cases hhead' : segmentUnder type node = head'
        · have hrests : rest ≠ rest' := by
            rintro rfl
            exact hne (by rw [← hhead, ← hhead'])
          by_cases hrest : rest = []
          · subst hrest
            rw [writtenAt_leaf (hsegment'.trans hhead), writtenAt_leaf hhead,
              writtenAt_spine hhead' hrests.symm,
              writtenAt_spine ((segmentUnder_written type p node).trans hhead') hrests.symm]
            rfl
          · by_cases hrest' : rest' = []
            · subst hrest'
              rw [writtenAt_leaf hhead', writtenAt_leaf (hsegment.trans hhead'),
                writtenAt_spine hhead hrest,
                writtenAt_spine ((segmentUnder_written type p' node).trans hhead) hrest]
              rfl
            · rw [writtenAt_spine (hsegment'.trans hhead) hrest,
                writtenAt_spine (hsegment.trans hhead') hrest', writtenAt_spine hhead hrest,
                writtenAt_spine hhead' hrest']
              simp only [Option.map_map]
              congr 2
              funext kids
              simp only [Function.comp_apply, List.map_map]
              congr 1
              funext kid
              exact ih hrests _ kid
        · have hskip := writtenAt_of_ne (p := p') (hsegment.trans_ne hhead') rest'
          rw [hskip, writtenAt_of_ne hhead']
      · have hskip := writtenAt_of_ne (p := p) (hsegment'.trans_ne hhead) rest
        rw [hskip, writtenAt_of_ne hhead]

/-- A frame writes nothing on a sibling of what its path leads to. -/
theorem At.writtenAt_other (h : At type kid path m) {other : Node ι}
    (hne : segmentUnder type other ≠ segmentUnder type kid) : writtenAt p path type other = other := by
  obtain ⟨rest, rfl⟩ := h.head
  exact writtenAt_of_ne hne rest

/-- A frame that moves nothing writes nothing. -/
theorem writtenAt_of_still (h : At type node path m) (hdistinct : Distinct type node)
    (hstill : moved p m = false) : writtenAt p path type node = node := by
  induction h with
  | here type node =>
    rw [writtenAt_leaf rfl]
    exact moved_eq_false.1 hstill
  | @under type node kid target kids path hkids hkid h ih =>
    have hall : kids.map (writtenAt p path (some node.type)) = kids := by
      apply (List.map_congr_left (g := id) _).trans (List.map_id kids)
      intro other hother
      by_cases hsame : segmentUnder (some node.type) other = segmentUnder (some node.type) kid
      · obtain rfl := hdistinct.child_eq hkids hkid hother hsame
        exact ih (hdistinct.child hkids hkid) hstill
      · exact h.writtenAt_other hsame
    rw [writtenAt_spine rfl h.ne_nil, hkids, Option.map_some, hall, ← hkids, Node.eta]

/-- What a frame leaves are the values written at its path. -/
theorem Rebuilt.plain_eq (h : Rebuilt p fresh type path node node')
    (hdistinct : Distinct type node) : plain node' = plain (writtenAt p path type node) := by
  induction h with
  | leaf type node =>
    rw [writtenAt_leaf rfl, Objects.plain_eq, Objects.plain_eq (node.written p)]
  | @spine type node kid kid' before after path hkids h ih =>
    obtain ⟨rest, hpath⟩ : ∃ rest, path = segmentUnder (some node.type) kid :: rest := by
      cases h <;> exact ⟨_, rfl⟩
    have haround : ∀ others : List (Node ι), (∀ other ∈ others, other ∈ before ∨ other ∈ after) →
        others.map (writtenAt p path (some node.type)) = others := by
      intro others hothers
      apply (List.map_congr_left (g := id) _).trans (List.map_id others)
      intro other hother
      rw [hpath]
      exact writtenAt_of_ne (hdistinct.around hkids (hothers other hother)) rest
    have hkid := ih (hdistinct.child hkids (by simp))
    rw [writtenAt_spine rfl h.path_ne_nil, Objects.plain_eq, Objects.plain_eq _, hkids]
    simp only [Option.map_some, List.map_append, List.map_cons, hkid,
      haround before fun _ => .inl, haround after fun _ => .inr]

/-! ## Frames on a tree -/

/-- The frame at a path. -/
def Frame.addressed (p : Frame) (path : List String) : Frame :=
  { p with nodePath := some (joinPath path) }

/-- A frame of no run or of an empty path says nothing of a node. -/
def Frame.Reaches (p : Frame) (path : List String) : Prop :=
  p.workflowId ≠ "" ∧ joinPath path ≠ []

instance (p : Frame) (path : List String) : Decidable (p.Reaches path) :=
  inferInstanceAs (Decidable (_ ∧ _))

theorem applyRunProgress_refused (h : ¬ p.Reaches path) (root : Option (Node ι)) (fresh : ℕ) :
    applyRunProgress root fresh (p.addressed path) = ⟨false, root, fresh⟩ := by
  by_cases hrun : p.workflowId = ""
  · simp [applyRunProgress, Frame.addressed, hrun]
  · have hpath : joinPath path = [] := by
      by_contra hne
      exact h ⟨hrun, hne⟩
    cases root <;> simp [applyRunProgress, Frame.addressed, hrun, hpath]

theorem applyRunProgress_some {text : List Char} (hrun : p.workflowId ≠ "")
    (hpath : p.nodePath = some text) (htext : text ≠ []) (fresh : ℕ) (node : Node ι) :
    applyRunProgress (some node) fresh p
      = match patchNode p (splitPath text) fresh none node with
        | none => ⟨false, some node, fresh⟩
        | some (next, fresh') =>
          if next.ref = node.ref then ⟨true, some node, fresh'⟩ else ⟨true, some next, fresh'⟩ := by
  have hstep := Eq.refl (applyRunProgress (some node) fresh p)
  conv_rhs at hstep => simp only [applyRunProgress, hpath, if_neg hrun, if_neg htext]
  exact hstep

/-- What a frame at the path of a node does. -/
theorem applyRunProgress_at (t : Tree ι) (hat : At none t.root path m) (h : p.Reaches path) :
    m.written p = m ∧ applyRunProgress (some t.root) t.fresh (p.addressed path)
        = ⟨true, some t.root, t.fresh⟩ ∨
      m.written p ≠ m ∧ ∃ (node' : Node ι)
        (h : Rebuilt (p.addressed path) t.fresh none path t.root node'),
        applyRunProgress (some t.root) t.fresh (p.addressed path)
          = ⟨true, some h.tree.root, h.tree.fresh⟩ := by
  have happly := applyRunProgress_some (p := p.addressed path) h.1 rfl h.2 t.fresh t.root
  rw [splitPath_joinPath hat.ne_nil (t.noSlash path m hat)] at happly
  have hparent : (none : Option (Node ι)).map Node.type = none := rfl
  rcases patchNode_of_at (p := p.addressed path) hat hparent t.distinct t.below with
    ⟨hstill, hpatch⟩ | ⟨hmoved, node', hpatch, hrebuilt⟩
  · rw [hpatch] at happly
    exact .inl ⟨moved_eq_false.1 hstill, happly.trans (if_pos rfl)⟩
  · rw [hpatch] at happly
    have hold := t.below _ _ (.here none t.root)
    have hnew := hrebuilt.fresh_le
    have hne : m.written p ≠ m := by
      intro hsame
      have hstill : moved (p.addressed path) m = false := moved_eq_false.2 hsame
      rw [hstill] at hmoved
      contradiction
    exact .inr ⟨hne, node', hrebuilt, happly.trans (if_neg (by omega))⟩

/-- What a tree is after a frame at a path, up to identities. -/
def effect (p : Frame) (path : List String) (node : Node ι) : Node ι :=
  if p.Reaches path then writtenAt p path none node else node

theorem effect_comm (p p' : Frame) (hne : path ≠ path') (node : Node ι) :
    effect p path (effect p' path' node) = effect p' path' (effect p path node) := by
  simp only [effect]
  split
  · split
    · exact writtenAt_comm p p' hne none node
    · rfl
  · rfl

theorem writtenAt_addressed (p : Frame) (path path' : List String) (type : Option RunNodeType)
    (node : Node ι) : writtenAt (p.addressed path') path type node = writtenAt p path type node := by
  induction path generalizing type node with
  | nil => rfl
  | cons head rest ih =>
    rw [writtenAt, writtenAt]
    have hrest : (writtenAt (p.addressed path') rest : Option RunNodeType → Node ι → Node ι)
        = writtenAt p rest := by
      funext type node
      exact ih type node
    rw [hrest]
    rfl

theorem Rebuilt.exists_at_iff (h : Rebuilt p fresh type path node node')
    (hdistinct : Distinct type node) : (∃ x, At type node' q x) ↔ ∃ x, At type node q x := by
  constructor
  · rintro ⟨x, hx⟩
    obtain ⟨y, hy, _⟩ := h.exists_at hdistinct hx
    exact ⟨y, hy⟩
  · rintro ⟨x, hx⟩
    by_cases hq : q <+: path
    · obtain ⟨y, hy, _⟩ := h.replaced hdistinct hq hx
      exact ⟨y, hy⟩
    · exact ⟨x, (h.shared hq).2 hx⟩

/-- A frame leaves a tree of the same places, with its effect. -/
theorem exists_tree (t : Tree ι) (hat : At none t.root path m) (p : Frame) :
    ∃ t' : Tree ι, applyRunProgress (some t.root) t.fresh (p.addressed path)
        = ⟨decide (p.Reaches path), some t'.root, t'.fresh⟩
      ∧ plain t'.root = effect p path (plain t.root)
      ∧ ∀ q, (∃ x, At none t'.root q x) ↔ ∃ x, At none t.root q x := by
  by_cases h : p.Reaches path
  · rw [decide_eq_true h, effect, if_pos h, ← plain_writtenAt]
    rcases applyRunProgress_at t hat h with ⟨hstill, happly⟩ | ⟨_, node', hrebuilt, happly⟩
    · refine ⟨t, happly, ?_, fun q => Iff.rfl⟩
      rw [writtenAt_of_still hat t.distinct (moved_eq_false.2 hstill)]
    · refine ⟨hrebuilt.tree, happly, ?_, fun q => hrebuilt.exists_at_iff t.distinct⟩
      rw [← writtenAt_addressed p path path]
      exact hrebuilt.plain_eq t.distinct
  · rw [decide_eq_false h, effect, if_neg h]
    exact ⟨t, applyRunProgress_refused h _ _, rfl, fun q => Iff.rfl⟩

/-- Two frames one after the other. -/
def applyBoth (t : Tree ι) (p p' : Frame) : Applied ι :=
  applyRunProgress (applyRunProgress (some t.root) t.fresh p).root
    (applyRunProgress (some t.root) t.fresh p).fresh p'

/-- The second of two frames lands as it would alone, with the effect of both. -/
theorem applyBoth_at (t : Tree ι) (hat : At none t.root path m) (hat' : At none t.root path' m')
    (p p' : Frame) : ∃ t' : Tree ι, applyBoth t (p.addressed path) (p'.addressed path')
        = ⟨decide (p'.Reaches path'), some t'.root, t'.fresh⟩
      ∧ plain t'.root = effect p' path' (effect p path (plain t.root)) := by
  obtain ⟨t₁, hfirst, hplain, hplaces⟩ := exists_tree t hat p
  obtain ⟨x, hx⟩ := (hplaces path').2 ⟨m', hat'⟩
  obtain ⟨t₂, hsecond, hplain', _⟩ := exists_tree t₁ hx p'
  rw [applyBoth, hfirst]
  exact ⟨t₂, hsecond, hplain'.trans (congrArg _ hplain)⟩

/-- What a frame at the path of a node that it reaches leaves: another tree where the node moves,
with the frame's known values over the node's, every object off the path shared and the frame
landing again on the same tree. -/
structure Moves (t t' : Tree ι) (path : List String) (m : Node ι) (p : Frame) : Prop where
  values : ∀ q x, At none t.root q x →
    ∃ x', At none t'.root q x' ∧ x'.bare = if q = path then (x.written p).bare else x.bare
  shared : ∀ q x, ¬ q <+: path → (At none t'.root q x ↔ At none t.root q x)
  same : t'.root.ref = t.root.ref ↔ m.written p = m
  still : m.written p = m → t' = t
  again : applyRunProgress (some t'.root) t'.fresh (p.addressed path)
    = ⟨true, some t'.root, t'.fresh⟩

theorem moves_self (t : Tree ι) (hat : At none t.root path m) (hstill : m.written p = m)
    (happly : applyRunProgress (some t.root) t.fresh (p.addressed path)
      = ⟨true, some t.root, t.fresh⟩) : Moves t t path m p where
  values q x hx := by
    refine ⟨x, hx, ?_⟩
    split
    · next heq =>
      subst heq
      rw [hat.unique t.distinct hx, hstill]
    · rfl
  shared q x _ := Iff.rfl
  same := ⟨fun _ => hstill, fun _ => rfl⟩
  still _ := rfl
  again := happly

theorem written_written (p : Frame) (node : Node ι) :
    (node.written p).written p = node.written p := by
  have hstatus : (nodeStatus p.status).getD ((nodeStatus p.status).getD node.status)
      = (nodeStatus p.status).getD node.status := by
    cases nodeStatus p.status <;> rfl
  have hor : ∀ a b : Option String, a.or (a.or b) = a.or b := by
    intro a b
    cases a <;> rfl
  simp [Node.written, hstatus, hor]

theorem moves_rebuilt (t : Tree ι) (hat : At none t.root path m) (hmoved : m.written p ≠ m)
    (hreaches : p.Reaches path)
    (h : Rebuilt (p.addressed path) t.fresh none path t.root node') : Moves t h.tree path m p where
  values q x hx := by
    by_cases hq : q <+: path
    · obtain ⟨x', hx', hreplaced⟩ := h.replaced t.distinct hq hx
      exact ⟨x', hx', hreplaced.bare⟩
    · refine ⟨x, (h.shared hq).2 hx, ?_⟩
      rw [if_neg]
      rintro rfl
      exact hq List.prefix_rfl
  shared q x hq := h.shared hq
  same := by
    have hold := t.below _ _ (.here none t.root)
    have hnew := h.fresh_le
    constructor
    · intro hsame
      have hsame : node'.ref = t.root.ref := hsame
      omega
    · intro hstill
      exact absurd hstill hmoved
  still hstill := absurd hstill hmoved
  again := by
    obtain ⟨m', hm', hreplaced⟩ := h.replaced t.distinct List.prefix_rfl hat
    have hbare : m'.bare = (m.written p).bare := hreplaced.bare.trans (if_pos rfl)
    have hstill : m'.written p = m' := by
      rw [← moved_eq_false]
      have hsame : moved p m'.bare = moved p (m.written p).bare := congrArg (moved p) hbare
      have hwritten : moved p (m.written p) = false := moved_eq_false.2 (written_written p m)
      exact hsame.trans hwritten
    rcases applyRunProgress_at h.tree hm' hreaches with ⟨_, happly⟩ | ⟨hne, _⟩
    · exact happly
    · exact absurd hstill hne

/-- The path that is answered for a node is where it stands, and a frame at that path moves exactly
that node; frames at two nodes commute up to identities, and a path of no node is refused. -/
theorem frame_moves_addressed (t : Tree ι) (hat : At none t.root path m) (p : Frame) :
    nodePathOf (some t.root) m = path
      ∧ (if p.Reaches path then
          ∃ t' : Tree ι, applyRunProgress (some t.root) t.fresh (p.addressed path)
            = ⟨true, some t'.root, t'.fresh⟩ ∧ Moves t t' path m p
        else applyRunProgress (some t.root) t.fresh (p.addressed path)
          = ⟨false, some t.root, t.fresh⟩)
      ∧ (∀ path' m' (p' : Frame), At none t.root path' m' → path' ≠ path →
          let both := applyBoth t (p.addressed path) (p'.addressed path')
          let other := applyBoth t (p'.addressed path') (p.addressed path)
          both.root.map plain = other.root.map plain
            ∧ both.landed
              = (applyRunProgress (some t.root) t.fresh (p'.addressed path')).landed
            ∧ other.landed = (applyRunProgress (some t.root) t.fresh (p.addressed path)).landed)
      ∧ ∀ text, (∀ q x, At none t.root q x → joinPath q ≠ text) →
          applyRunProgress (some t.root) t.fresh { p with nodePath := some text }
            = ⟨false, some t.root, t.fresh⟩ := by
  refine ⟨t.nodePathOf_eq hat, ?_, ?_, ?_⟩
  · split
    · next h =>
      rcases applyRunProgress_at t hat h with ⟨hstill, happly⟩ | ⟨hmoved, node', hrebuilt, happly⟩
      · exact ⟨t, happly, moves_self t hat hstill happly⟩
      · exact ⟨hrebuilt.tree, happly, moves_rebuilt t hat hmoved h hrebuilt⟩
    · next h => exact applyRunProgress_refused h _ _
  · intro path' m' p' hat' hne
    obtain ⟨t₁, hboth, hplain⟩ := applyBoth_at t hat hat' p p'
    obtain ⟨t₂, hother, hplain'⟩ := applyBoth_at t hat' hat p' p
    obtain ⟨_, hfirst, _⟩ := exists_tree t hat p
    obtain ⟨_, hsecond, _⟩ := exists_tree t hat' p'
    simp only [hboth, hother, hfirst, hsecond, Option.map_some, Option.some.injEq, and_true]
    rw [hplain, hplain', effect_comm p' p hne]
  · intro text htext
    have hframe : { p with nodePath := some text } = p.addressed (splitPath text) := by
      rw [Frame.addressed, joinPath_splitPath]
    by_cases h : p.Reaches (splitPath text)
    · have happly := applyRunProgress_some (p := p.addressed (splitPath text)) h.1 rfl h.2 t.fresh
        t.root
      rw [joinPath_splitPath] at happly
      rw [hframe, happly]
      cases hpatch : patchNode (p.addressed (splitPath text)) (splitPath text) t.fresh none t.root with
      | none => rfl
      | some r =>
        obtain ⟨x, hx⟩ := exists_at_of_patchNode hpatch
        exact absurd (joinPath_splitPath text) (htext _ x hx)
    · rw [hframe]
      exact applyRunProgress_refused h _ _

/-! ## A repeat with one iteration -/

def iterationNode : Node Unit where
  ref := 1
  nodeId := "loop#3"
  type := .sequence
  status := .running
  startedAt := none
  endedAt := none
  iteration := some 3
  failureReason := none
  info := ()
  children := none

def repeatNode : Node Unit where
  ref := 0
  nodeId := "loop"
  type := .repeats
  status := .running
  startedAt := none
  endedAt := none
  iteration := none
  failureReason := none
  info := ()
  children := some [iterationNode]

theorem at_repeatNode {x : Node Unit} (h : At none repeatNode q x) :
    q = ["loop"] ∧ x = repeatNode ∨ q = ["loop", "iter-3"] ∧ x = iterationNode := by
  cases h with
  | here => exact .inl ⟨rfl, rfl⟩
  | under hkids hkid h =>
    obtain rfl := Option.some.inj hkids
    obtain rfl := List.mem_singleton.1 hkid
    cases h with
    | here => exact .inr ⟨by decide, rfl⟩
    | under hnone => simp [iterationNode] at hnone

def repeatTree : Tree Unit where
  root := repeatNode
  fresh := 2
  single q x q' x' h h' href := by
    rcases at_repeatNode h with ⟨rfl, rfl⟩ | ⟨rfl, rfl⟩ <;>
      rcases at_repeatNode h' with ⟨rfl, rfl⟩ | ⟨rfl, rfl⟩ <;>
      simp_all [repeatNode, iterationNode]
  below q x h := by
    rcases at_repeatNode h with ⟨_, rfl⟩ | ⟨_, rfl⟩ <;> simp [repeatNode, iterationNode]
  distinct q x h := by
    rcases at_repeatNode h with ⟨_, rfl⟩ | ⟨_, rfl⟩ <;>
      simp [Node.kidSegments, repeatNode, iterationNode]
  noSlash q x h := by
    rcases at_repeatNode h with ⟨rfl, _⟩ | ⟨rfl, _⟩ <;> simp

def completedFrame : Frame where
  workflowId := "run"
  nodePath := none
  status := some "completed"
  startedAt := none
  endedAt := none
  failureReason := none

theorem frame_moves_addressed_iteration :
    nodePathOf (some repeatTree.root) iterationNode = ["loop", "iter-3"]
      ∧ ∃ t' : Tree Unit, applyRunProgress (some repeatTree.root) repeatTree.fresh
            (completedFrame.addressed ["loop", "iter-3"]) = ⟨true, some t'.root, t'.fresh⟩
          ∧ Moves repeatTree t' ["loop", "iter-3"] iterationNode completedFrame := by
  have hat : At none repeatTree.root ["loop", "iter-3"] iterationNode :=
    .under rfl List.mem_cons_self (.here (some .repeats) iterationNode)
  have hmoves := frame_moves_addressed repeatTree hat completedFrame
  have hreaches : completedFrame.Reaches ["loop", "iter-3"] := ⟨by decide, by decide⟩
  rw [if_pos hreaches] at hmoves
  exact ⟨hmoves.1, hmoves.2.1⟩

end Marotte.RunTree.Objects
