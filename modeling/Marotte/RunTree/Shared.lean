import Marotte.RunTree.Addresses

/-! # What a frame rebuilds

A frame rebuilds the objects on the path of the node it moves and shares every other; what it leaves
is again a tree of objects, alike up to identities to the tree with the frame's values written.
-/
namespace Marotte.RunTree.Objects

variable {ι : Type} {p : Frame} {node node' kid kid' target m m' : Node ι}
  {type : Option RunNodeType} {path q : List String} {fresh fresh' : ℕ}

/-! ## The values a frame writes -/

theorem changes_eq_false {α : Type} [DecidableEq α] {value held : Option α} :
    changes value held = false ↔ value.or held = held := by
  cases value with
  | none => simp [changes]
  | some a => simp [changes]

/-- Nothing moves exactly when the node is left as it is. -/
theorem moved_eq_false : moved p node = false ↔ node.written p = node := by
  have hstatus : (nodeStatus p.status).or (some node.status) = some node.status
      ↔ (nodeStatus p.status).getD node.status = node.status := by
    cases nodeStatus p.status <;> simp
  simp only [moved, Bool.or_eq_false_iff, changes_eq_false, hstatus]
  obtain ⟨ref, nodeId, kind, status, startedAt, endedAt, iteration, failureReason, info,
    children⟩ := node
  simp [Node.written, and_assoc]

@[simp] theorem segmentUnder_written (type : Option RunNodeType) (p : Frame) (node : Node ι) :
    segmentUnder type (node.written p) = segmentUnder type node := rfl

/-! ## First answers -/

section FirstFound

variable {α β : Type} {f : α → Option β} {as : List α} {x : Found α β}

theorem firstFound_eq_some (h : firstFound f as = some x) :
    as = x.before ++ x.item :: x.after ∧ f x.item = some x.answer := by
  induction as generalizing x with
  | nil => simp [firstFound] at h
  | cons a as ih =>
    rw [firstFound] at h
    split at h
    · next b hb =>
      obtain rfl := Option.some.inj h
      exact ⟨rfl, hb⟩
    · obtain ⟨y, hy, rfl⟩ := Option.map_eq_some_iff.1 h
      obtain ⟨hsplit, hanswer⟩ := ih hy
      exact ⟨congrArg (a :: ·) hsplit, hanswer⟩

theorem firstFound_eq_none (h : firstFound f as = none) : ∀ a ∈ as, f a = none := by
  induction as with
  | nil => simp
  | cons a as ih =>
    rw [firstFound] at h
    split at h
    · contradiction
    · next hnone =>
      intro b hb
      rcases List.mem_cons.1 hb with rfl | hb
      · exact hnone
      · exact ih (Option.map_eq_none_iff.1 h) b hb

end FirstFound

/-! ## Rebuilt objects -/

/-- The objects on a path rebuilt, with the frame's values at its end. -/
inductive Rebuilt (p : Frame) (fresh : ℕ) :
    Option RunNodeType → List String → Node ι → Node ι → Prop
  | leaf (type : Option RunNodeType) (node : Node ι) :
      Rebuilt p fresh type [segmentUnder type node] node { node.written p with ref := fresh }
  | spine {type : Option RunNodeType} {node kid kid' : Node ι} {before after : List (Node ι)}
      {path : List String} (hkids : node.children = some (before ++ kid :: after))
      (h : Rebuilt p fresh (some node.type) path kid kid') :
      Rebuilt p fresh type (segmentUnder type node :: path) node
        { node with ref := fresh + path.length, children := some (before ++ kid' :: after) }

theorem Rebuilt.path_ne_nil (h : Rebuilt p fresh type path node node') : path ≠ [] := by
  cases h <;> exact List.cons_ne_nil _ _

theorem Rebuilt.head_eq (h : Rebuilt p fresh type path node node') (hat : At type kid q m)
    (hq : q <+: path) : segmentUnder type kid = segmentUnder type node := by
  obtain ⟨rest, rfl⟩ := hat.head
  cases h <;> exact (List.cons_prefix_cons.1 hq).1

theorem Rebuilt.fresh_le (h : Rebuilt p fresh type path node node') : fresh ≤ node'.ref := by
  cases h with
  | leaf => exact Nat.le_refl _
  | spine => exact Nat.le_add_right _ _

theorem Rebuilt.segment (h : Rebuilt p fresh type path node node') (type' : Option RunNodeType) :
    segmentUnder type' node' = segmentUnder type' node := by
  cases h <;> rfl

/-- A frame that lands has found a node at its path. -/
theorem exists_at_of_patchNode {trail : List String} {parent : Option (Node ι)} {r : Node ι × ℕ}
    (h : patchNode p trail fresh parent node = some r) :
    ∃ m, At (parent.map Node.type) node trail m := by
  induction trail generalizing parent node r with
  | nil => simp [patchNode] at h
  | cons head rest ih =>
    rw [patchNode] at h
    split at h
    · contradiction
    · next hhead =>
      rw [not_not] at hhead
      subst hhead
      split at h
      · next hrest =>
        subst hrest
        exact ⟨node, .here _ node⟩
      · split at h
        · contradiction
        · next kids hkids =>
          split at h
          · contradiction
          · next x hx =>
            obtain ⟨hsplit, hanswer⟩ := firstFound_eq_some hx
            obtain ⟨m, hm⟩ := ih hanswer
            exact ⟨m, .under hkids (by simp [hsplit]) hm⟩

/-- At the path of a node a frame lands: the node is left with the tree when nothing moves, or else
the path is rebuilt. -/
theorem patchNode_of_at {parent : Option (Node ι)} (h : At type node path m)
    (hparent : parent.map Node.type = type) (hdistinct : Distinct type node)
    (hbelow : ∀ q m, At type node q m → m.ref < fresh) :
    moved p m = false ∧ patchNode p path fresh parent node = some (node, fresh) ∨
      moved p m = true ∧ ∃ node', patchNode p path fresh parent node = some (node', fresh + path.length)
        ∧ Rebuilt p fresh type path node node' := by
  induction h generalizing parent with
  | here type node =>
    subst hparent
    have hpatch : patchNode p [segmentUnder (parent.map Node.type) node] fresh parent node
        = some (patchedLeaf p fresh node) := by
      rw [patchNode, nodePathSegment, if_neg (not_not.2 rfl), if_pos rfl]
    rw [hpatch, patchedLeaf]
    cases hmoved : moved p node with
    | false => exact .inl ⟨rfl, rfl⟩
    | true => exact .inr ⟨rfl, _, rfl, .leaf _ node⟩
  | @under type node kid target kids path hkids hkid h ih =>
    subst hparent
    have hkid_parent : (some node).map Node.type = some node.type := rfl
    have hkid_patch := ih hkid_parent (hdistinct.child hkids hkid)
      (fun q m hm => hbelow _ _ (.under hkids hkid hm))
    cases hfound : firstFound (patchNode p path fresh (some node)) kids with
    | none =>
      have hnone := firstFound_eq_none hfound kid hkid
      rcases hkid_patch with ⟨_, hsome⟩ | ⟨_, _, hsome, _⟩ <;> rw [hnone] at hsome <;> contradiction
    | some x =>
      obtain ⟨hsplit, hanswer⟩ := firstFound_eq_some hfound
      obtain ⟨m', hm'⟩ := exists_at_of_patchNode hanswer
      obtain rfl : x.item = kid := hdistinct.child_eq hkids hkid (by simp [hsplit])
        (h.segment_eq hm' List.prefix_rfl)
      have hpatch : patchNode p (segmentUnder (parent.map Node.type) node :: path) fresh parent node
          = if x.answer.1.ref = x.item.ref then some (node, x.answer.2)
            else some ({ node with
              ref := x.answer.2
              children := some (x.before ++ x.answer.1 :: x.after) }, x.answer.2 + 1) := by
        rw [patchNode, nodePathSegment, if_neg (not_not.2 rfl), if_neg h.ne_nil, hkids]
        simp only [hfound]
      rw [hpatch]
      rcases hkid_patch with ⟨hstill, hsame⟩ | ⟨hmoved, kid', hnew, hrebuilt⟩
      · rw [hanswer, Option.some.injEq] at hsame
        rw [hsame]
        exact .inl ⟨hstill, by rw [if_pos rfl]⟩
      · rw [hanswer, Option.some.injEq] at hnew
        have hold := hbelow _ _ (.under hkids hkid (.here _ x.item))
        have hne : ¬ kid'.ref = x.item.ref := by
          have hle := hrebuilt.fresh_le
          omega
        rw [hnew, if_neg hne]
        refine .inr ⟨hmoved, _, rfl, ?_⟩
        exact .spine (hkids.trans (congrArg some hsplit)) hrebuilt

/-! ## The places of a rebuilt tree -/

/-- Off the path every object is the one that was there. -/
theorem Rebuilt.shared (h : Rebuilt p fresh type path node node') (hq : ¬ q <+: path) :
    At type node' q m ↔ At type node q m := by
  induction h generalizing q with
  | leaf type node =>
    constructor
    · intro hat
      cases hat with
      | here => exact absurd List.prefix_rfl hq
      | under hkids hkid hat => exact .under hkids hkid hat
    · intro hat
      cases hat with
      | here => exact absurd List.prefix_rfl hq
      | under hkids hkid hat => exact .under hkids hkid hat
  | @spine type node kid kid' before after path hkids h ih =>
    constructor
    · intro hat
      cases hat with
      | here => exact absurd ⟨path, rfl⟩ hq
      | @under _ _ other _ others q hothers hother hat =>
        obtain rfl := Option.some.inj hothers
        have hrest : ¬ q <+: path := fun hle => hq (List.cons_prefix_cons.2 ⟨rfl, hle⟩)
        rw [List.mem_append, List.mem_cons] at hother
        rcases hother with hother | rfl | hother
        · exact .under hkids (by simp [hother]) hat
        · exact .under hkids (by simp) ((ih hrest).1 hat)
        · exact .under hkids (by simp [hother]) hat
    · intro hat
      cases hat with
      | here => exact absurd ⟨path, rfl⟩ hq
      | @under _ _ other _ others q hothers hother hat =>
        obtain rfl := Option.some.inj (hkids.symm.trans hothers)
        have hrest : ¬ q <+: path := fun hle => hq (List.cons_prefix_cons.2 ⟨rfl, hle⟩)
        rw [List.mem_append, List.mem_cons] at hother
        rcases hother with hother | rfl | hother
        · exact .under rfl (by simp [hother]) hat
        · exact .under rfl (by simp) ((ih hrest).2 hat)
        · exact .under rfl (by simp [hother]) hat

/-- A node's values, without its identity and its children. -/
def Node.bare (node : Node ι) : Node ι :=
  { node with ref := 0, children := none }

/-- What stands on the path after the frame: a new object with the values of the old one, or at the
end of the path with the frame's over them, and children of the same names. -/
structure Replaced (p : Frame) (fresh : ℕ) (path q : List String) (m m' : Node ι) : Prop where
  ref : m'.ref = fresh + (path.length - q.length)
  bare : m'.bare = if q = path then (m.written p).bare else m.bare
  kidSegments : m'.kidSegments = m.kidSegments

theorem Replaced.cons {segment : String} (h : Replaced p fresh path q m m') :
    Replaced p fresh (segment :: path) (segment :: q) m m' where
  ref := by
    rw [h.ref, List.length_cons, List.length_cons]
    omega
  bare := by
    rw [h.bare]
    simp
  kidSegments := h.kidSegments

theorem Rebuilt.replaced_node (h : Rebuilt p fresh type path node node') :
    Replaced p fresh path [segmentUnder type node] node node' := by
  cases h with
  | leaf => exact ⟨rfl, by simp [Node.bare], rfl⟩
  | @spine _ _ kid kid' before after path hkids h =>
    constructor
    · rfl
    · rw [if_neg]
      · rfl
      · simpa using h.path_ne_nil.symm
    · simp [Node.kidSegments, hkids, h.segment]

/-- Of the children around one, none has its name. -/
theorem Distinct.around {before after : List (Node ι)} (h : Distinct type node)
    (hkids : node.children = some (before ++ kid :: after)) {other : Node ι}
    (hother : other ∈ before ∨ other ∈ after) :
    segmentUnder (some node.type) other ≠ segmentUnder (some node.type) kid := by
  have hnodup := h.children hkids
  rw [List.map_append, List.map_cons, List.nodup_middle, List.nodup_cons, List.mem_append] at hnodup
  intro hsame
  rw [← hsame] at hnodup
  exact hnodup.1 (hother.imp (List.mem_map_of_mem) (List.mem_map_of_mem))

/-- On the path every place holds a replaced object. -/
theorem Rebuilt.replaced (h : Rebuilt p fresh type path node node') (hdistinct : Distinct type node)
    (hq : q <+: path) (hat : At type node q m) :
    ∃ m', At type node' q m' ∧ Replaced p fresh path q m m' := by
  induction h generalizing q with
  | leaf type node =>
    cases hat with
    | here => exact ⟨_, .here type _, (Rebuilt.leaf type _).replaced_node⟩
    | under hkids hkid hat =>
      exact absurd (List.prefix_nil.1 (List.cons_prefix_cons.1 hq).2) hat.ne_nil
  | @spine type node kid kid' before after path hkids h ih =>
    cases hat with
    | here => exact ⟨_, .here type _, (Rebuilt.spine hkids h).replaced_node⟩
    | @under _ _ other _ others q hothers hother hat =>
      obtain rfl := Option.some.inj (hkids.symm.trans hothers)
      have hrest := (List.cons_prefix_cons.1 hq).2
      have hkid : kid ∈ before ++ kid :: after := by simp
      obtain rfl := hdistinct.child_eq hkids hkid hother (h.head_eq hat hrest)
      obtain ⟨m', hm', hreplaced⟩ := ih (hdistinct.child hkids hkid) hrest hat
      exact ⟨m', .under rfl (by simp) hm', hreplaced.cons⟩

/-- On the path no place holds another object. -/
theorem Rebuilt.replaces (h : Rebuilt p fresh type path node node') (hdistinct : Distinct type node)
    (hq : q <+: path) (hat : At type node' q m') :
    ∃ m, At type node q m ∧ Replaced p fresh path q m m' := by
  induction h generalizing q with
  | leaf type node =>
    cases hat with
    | here => exact ⟨_, .here type _, (Rebuilt.leaf type _).replaced_node⟩
    | under hkids hkid hat =>
      exact absurd (List.prefix_nil.1 (List.cons_prefix_cons.1 hq).2) hat.ne_nil
  | @spine type node kid kid' before after path hkids h ih =>
    cases hat with
    | here => exact ⟨_, .here type _, (Rebuilt.spine hkids h).replaced_node⟩
    | @under _ _ other _ others q hothers hother hat =>
      obtain rfl := Option.some.inj hothers
      have hrest := (List.cons_prefix_cons.1 hq).2
      have hkid : kid ∈ before ++ kid :: after := by simp
      rw [List.mem_append, List.mem_cons] at hother
      by_cases hself : other = kid'
      · subst hself
        obtain ⟨m, hm, hreplaced⟩ := ih (hdistinct.child hkids hkid) hrest hat
        exact ⟨m, .under hkids hkid hm, hreplaced.cons⟩
      · have hbeside : other ∈ before ∨ other ∈ after := by tauto
        exact absurd (h.head_eq hat hrest) (hdistinct.around hkids hbeside)

/-! ## The rebuilt tree -/

variable {t : Tree ι}

/-- The places of the tree that is left, with what was there. -/
theorem Rebuilt.exists_at (h : Rebuilt p fresh type path node node') (hdistinct : Distinct type node)
    (hat : At type node' q m') :
    ∃ m, At type node q m ∧ m'.kidSegments = m.kidSegments
      ∧ (¬ q <+: path ∧ m' = m ∨ q <+: path ∧ m'.ref = fresh + (path.length - q.length)) := by
  by_cases hq : q <+: path
  · obtain ⟨m, hm, hreplaced⟩ := h.replaces hdistinct hq hat
    exact ⟨m, hm, hreplaced.kidSegments, .inr ⟨hq, hreplaced.ref⟩⟩
  · exact ⟨m', (h.shared hq).1 hat, rfl, .inl ⟨hq, rfl⟩⟩

theorem Rebuilt.distinct (h : Rebuilt p fresh type path node node') (hdistinct : Distinct type node) :
    Distinct type node' := by
  intro q m' hat
  obtain ⟨m, hm, hsegments, _⟩ := h.exists_at hdistinct hat
  rw [hsegments]
  exact hdistinct q m hm

/-- What a frame leaves is a tree. -/
def Rebuilt.tree (h : Rebuilt p t.fresh none path t.root node') : Tree ι where
  root := node'
  fresh := t.fresh + path.length
  single q m q' m' hat hat' href := by
    have hunique := fun (hqq : q = q') => (hat.unique (h.distinct t.distinct) (hqq ▸ hat')).symm
    obtain ⟨x, hx, _, hplace⟩ := h.exists_at t.distinct hat
    obtain ⟨x', hx', _, hplace'⟩ := h.exists_at t.distinct hat'
    have hlow := t.below q x hx
    have hlow' := t.below q' x' hx'
    rcases hplace with ⟨_, rfl⟩ | ⟨hq, hnew⟩ <;> rcases hplace' with ⟨_, rfl⟩ | ⟨hq', hnew'⟩
    · exact t.single q _ q' _ hx hx' href
    · omega
    · omega
    · have hlength : q.length = q'.length := by
        have hle := hq.length_le
        have hle' := hq'.length_le
        omega
      have heq : q = q' :=
        (List.prefix_of_prefix_length_le hq hq' hlength.le).eq_of_length hlength
      exact ⟨heq, hunique heq⟩
  below q m' hat := by
    obtain ⟨m, hm, _, ⟨_, rfl⟩ | ⟨hq, hnew⟩⟩ := h.exists_at t.distinct hat
    · have hlow := t.below q m' hm
      omega
    · have hpos := List.length_pos_iff.2 hat.ne_nil
      have hle := hq.length_le
      omega
  distinct := h.distinct t.distinct
  noSlash q m' hat := by
    obtain ⟨m, hm, _⟩ := h.exists_at t.distinct hat
    exact t.noSlash q m hm

end Marotte.RunTree.Objects
