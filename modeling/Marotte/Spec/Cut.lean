import Marotte.Spec.Nodes

/-! # A faithful prefix

The nodes returned are the first tasks of the forest as it is read, under the same ancestors. A node
says so exactly when one of its children is missing, and the document says so exactly when a task
is.
-/
namespace Marotte.Spec

open Runes

/-! ## Reading a tree from the top -/

mutual

def SpecTaskNode.nodes : SpecTaskNode → List SpecTaskNode
  | .mk task truncated children => .mk task truncated children :: nodesIn children

def nodesIn : List SpecTaskNode → List SpecTaskNode
  | [] => []
  | n :: ns => n.nodes ++ nodesIn ns

end

mutual

/-- A node and those under it, each with its ancestors from the nearest on. -/
def SpecTaskNode.outline (above : List SpecTask) : SpecTaskNode → List (List SpecTask × SpecTask)
  | .mk task _ children => (above, task) :: nodeOutline (task :: above) children

def nodeOutline (above : List SpecTask) : List SpecTaskNode → List (List SpecTask × SpecTask)
  | [] => []
  | n :: ns => n.outline above ++ nodeOutline above ns

end

mutual

def Task.outline (f : Task → SpecTask) (above : List SpecTask) :
    Task → List (List SpecTask × SpecTask)
  | .mk head line content children =>
    (above, f (.mk head line content children))
      :: taskOutline f (f (.mk head line content children) :: above) children

def taskOutline (f : Task → SpecTask) (above : List SpecTask) :
    List Task → List (List SpecTask × SpecTask)
  | [] => []
  | t :: ts => t.outline f above ++ taskOutline f above ts

end

variable {f : Task → SpecTask}

theorem outline_eq (f : Task → SpecTask) (above : List SpecTask) (t : Task) :
    t.outline f above = (above, f t) :: taskOutline f (f t :: above) t.children := by
  cases t
  rw [Task.outline]
  rfl

theorem length_taskOutline (above : List SpecTask) (ts : List Task) :
    (taskOutline f above ts).length = (nodesOf ts).length := by
  induction ts using forest_induction generalizing above with
  | nil => rfl
  | cons t ts ihchildren ih =>
    rw [taskOutline, outline_eq, nodesOf, nodes_eq, List.length_append, List.length_append,
      List.length_cons, List.length_cons, ihchildren, ih]

theorem toNode_eq (f : Task → SpecTask) (t : Task) (budget : ℕ) :
    t.toNode f budget
      = (.mk (f t) (decide ((toNodes f t.children budget).1.length < t.children.length))
          (toNodes f t.children budget).1, (toNodes f t.children budget).2) := by
  cases t
  rw [Task.toNode]
  rfl

/-! ## The prefix -/

/-- Every task spends one unit while there is one. -/
theorem budget_toNodes (ts : List Task) (budget : ℕ) :
    (toNodes f ts budget).2 = budget - (nodesOf ts).length := by
  induction ts using forest_induction generalizing budget with
  | nil => rfl
  | cons t ts ihchildren ih =>
    cases budget with
    | zero => simp [toNodes]
    | succ budget =>
      rw [toNodes, toNode_eq, ih, ihchildren, nodesOf, nodes_eq, List.length_append,
        List.length_cons]
      omega

theorem outline_toNodes (above : List SpecTask) (ts : List Task) (budget : ℕ) :
    nodeOutline above (toNodes f ts budget).1 = (taskOutline f above ts).take budget := by
  induction ts using forest_induction generalizing above budget with
  | nil => simp [toNodes, taskOutline, nodeOutline]
  | cons t ts ihchildren ih =>
    cases budget with
    | zero => simp [toNodes, nodeOutline]
    | succ budget =>
      rw [toNodes, toNode_eq, nodeOutline, SpecTaskNode.outline, ihchildren, ih, budget_toNodes,
        taskOutline, outline_eq, List.cons_append, List.cons_append, List.take_succ_cons,
        List.take_append, length_taskOutline]

theorem tasks_toNodes (ts : List Task) (budget : ℕ) :
    (nodesIn (toNodes f ts budget).1).map SpecTaskNode.task
      = ((nodesOf ts).map f).take budget := by
  induction ts using forest_induction generalizing budget with
  | nil => simp [toNodes, nodesOf, nodesIn]
  | cons t ts ihchildren ih =>
    cases budget with
    | zero => simp [toNodes, nodesIn]
    | succ budget =>
      rw [toNodes, toNode_eq, nodesIn, SpecTaskNode.nodes, List.map_append, List.map_cons,
        ihchildren, ih, budget_toNodes, nodesOf, nodes_eq, List.map_append, List.map_cons,
        List.cons_append, List.cons_append, List.take_succ_cons, List.take_append,
        List.length_map]
      rfl

/-! ## Missing children -/

section Missing

variable {t : Task} {ts : List Task} {budget : ℕ} {c : Task}

theorem take_nodesOf_cons (f : Task → SpecTask) (t : Task) (ts : List Task) (budget : ℕ) :
    ((nodesOf (t :: ts)).map f).take (budget + 1)
      = f t :: ((nodesOf t.children).map f).take budget
        ++ ((nodesOf ts).map f).take (budget - (nodesOf t.children).length) := by
  rw [nodesOf, nodes_eq, List.map_append, List.map_cons, List.cons_append, List.take_succ_cons,
    List.take_append, List.length_map, List.cons_append]

theorem mem_take_below (hnodup : ((nodesOf (t :: ts)).map f).Nodup)
    (hc : c ∈ nodesOf t.children) :
    f c ∈ ((nodesOf (t :: ts)).map f).take (budget + 1)
      ↔ f c ∈ ((nodesOf t.children).map f).take budget := by
  have hmem : f c ∈ (nodesOf t.children).map f := List.mem_map_of_mem hc
  rw [nodesOf, nodes_eq, List.map_append, List.map_cons, List.cons_append, List.nodup_cons,
    List.mem_append, not_or, List.nodup_append] at hnodup
  rw [take_nodesOf_cons, List.cons_append, List.mem_cons, List.mem_append]
  constructor
  · rintro (heq | h | h)
    · exact absurd (heq ▸ hmem) hnodup.1.1
    · exact h
    · exact absurd rfl (hnodup.2.2.2 _ hmem _ (List.mem_of_mem_take h))
  · exact fun h => .inr (.inl h)

theorem mem_take_behind (hnodup : ((nodesOf (t :: ts)).map f).Nodup) (hc : c ∈ nodesOf ts) :
    f c ∈ ((nodesOf (t :: ts)).map f).take (budget + 1)
      ↔ f c ∈ ((nodesOf ts).map f).take (budget - (nodesOf t.children).length) := by
  have hmem : f c ∈ (nodesOf ts).map f := List.mem_map_of_mem hc
  rw [nodesOf, nodes_eq, List.map_append, List.map_cons, List.cons_append, List.nodup_cons,
    List.mem_append, not_or, List.nodup_append] at hnodup
  rw [take_nodesOf_cons, List.cons_append, List.mem_cons, List.mem_append]
  constructor
  · rintro (heq | h | h)
    · exact absurd (heq ▸ hmem) hnodup.1.2
    · exact absurd rfl (hnodup.2.2.2 _ (List.mem_of_mem_take h) _ hmem)
    · exact h
  · exact fun h => .inr (.inr h)

theorem nodup_below (hnodup : ((nodesOf (t :: ts)).map f).Nodup) :
    ((nodesOf t.children).map f).Nodup ∧ ((nodesOf ts).map f).Nodup := by
  rw [nodesOf, nodes_eq, List.map_append, List.map_cons, List.cons_append, List.nodup_cons,
    List.nodup_append] at hnodup
  exact ⟨hnodup.2.1, hnodup.2.2.1⟩

/-- Fewer nodes than tasks come of a list exactly when one of its tasks is missing. -/
theorem missing_toNodes (hnodup : ((nodesOf ts).map f).Nodup) :
    (toNodes f ts budget).1.length < ts.length
      ↔ ∃ c ∈ ts, f c ∉ ((nodesOf ts).map f).take budget := by
  induction ts generalizing budget with
  | nil => simp [toNodes]
  | cons t ts ih =>
    cases budget with
    | zero => simp [toNodes]
    | succ budget =>
      have hbehind : ∀ c ∈ ts, (f c ∈ ((nodesOf (t :: ts)).map f).take (budget + 1)
          ↔ f c ∈ ((nodesOf ts).map f).take (budget - (nodesOf t.children).length)) :=
        fun c hc => mem_take_behind hnodup ((sublist_nodesOf ts).mem hc)
      rw [toNodes, toNode_eq, List.length_cons, List.length_cons, Nat.add_lt_add_iff_right,
        budget_toNodes, ih (nodup_below hnodup).2]
      constructor
      · rintro ⟨c, hc, hmissing⟩
        exact ⟨c, List.mem_cons_of_mem _ hc, fun h => hmissing ((hbehind c hc).1 h)⟩
      · rintro ⟨c, hc, hmissing⟩
        rcases List.mem_cons.1 hc with rfl | hc
        · rw [take_nodesOf_cons] at hmissing
          exact absurd List.mem_cons_self hmissing
        · exact ⟨c, hc, fun h => hmissing ((hbehind c hc).2 h)⟩

/-- A node returned says exactly when a child of its task is missing. -/
theorem truncated_toNodes (hnodup : ((nodesOf ts).map f).Nodup) {n : SpecTaskNode}
    (hn : n ∈ nodesIn (toNodes f ts budget).1) :
    ∃ t ∈ nodesOf ts, n.task = f t ∧ (n.truncatedChildren = true
      ↔ ∃ c ∈ t.children, f c ∉ ((nodesOf ts).map f).take budget) := by
  induction ts using forest_induction generalizing budget with
  | nil => simp [toNodes, nodesIn] at hn
  | cons t ts ihchildren ih =>
    cases budget with
    | zero => simp [toNodes, nodesIn] at hn
    | succ budget =>
      obtain ⟨hchildren, hbehind⟩ := nodup_below hnodup
      rw [toNodes, toNode_eq, nodesIn, SpecTaskNode.nodes, List.cons_append, List.mem_cons,
        List.mem_append] at hn
      rw [nodesOf, nodes_eq]
      rcases hn with rfl | hn | hn
      · refine ⟨t, List.mem_cons_self, rfl, ?_⟩
        rw [SpecTaskNode.truncatedChildren, decide_eq_true_eq, missing_toNodes hchildren]
        apply exists_congr
        intro c
        apply and_congr_right
        intro hc
        rw [← nodes_eq, ← nodesOf, mem_take_below hnodup ((sublist_nodesOf _).mem hc)]
      · obtain ⟨u, hu, htask, htruncated⟩ := ihchildren hchildren hn
        refine ⟨u, List.mem_cons_of_mem _ (List.mem_append_left _ hu), htask, ?_⟩
        rw [htruncated]
        apply exists_congr
        intro c
        apply and_congr_right
        intro hc
        rw [← nodes_eq, ← nodesOf, mem_take_below hnodup (children_subset hu hc)]
      · rw [budget_toNodes] at hn
        obtain ⟨u, hu, htask, htruncated⟩ := ih hbehind hn
        refine ⟨u, List.mem_cons_of_mem _ (List.mem_append_right _ hu), htask, ?_⟩
        rw [htruncated]
        apply exists_congr
        intro c
        apply and_congr_right
        intro hc
        rw [← nodes_eq, ← nodesOf, mem_take_behind hnodup (children_subset hu hc)]

end Missing

/-! ## Reading a document -/

theorem nodup_walk (r : Reader) (lines ls : List Bytes) :
    ((nodesOf (walk lines)).map (Task.node r ls)).Nodup := by
  have hlines := nodup_lines_walk lines
  rw [List.nodup_iff_pairwise_ne, List.pairwise_map] at hlines ⊢
  apply hlines.imp
  intro a b hne heq
  have hline : a.line + 1 = b.line + 1 := congrArg SpecTask.line heq
  omega

theorem exists_not_mem_take {α : Type} {l : List α} (hnodup : l.Nodup) (n : ℕ) :
    (∃ x ∈ l, x ∉ l.take n) ↔ n < l.length := by
  constructor
  · rintro ⟨x, hx, hmissing⟩
    by_contra hle
    rw [List.take_of_length_le (by omega)] at hmissing
    exact hmissing hx
  · intro hlt
    refine ⟨l[n], List.getElem_mem hlt, ?_⟩
    rw [List.mem_take_iff_getElem]
    rintro ⟨i, hi, heq⟩
    have hindex := (hnodup.getElem_inj_iff).1 heq
    omega

theorem truncated_parse (r : Reader) (src : Bytes) :
    (parse r src).truncated
      = if (nodesOf (walk (splitLines src))).length > maxNodes then
          some ⟨maxNodes, (nodesOf (walk (splitLines src))).length⟩
        else none := by
  rw [← countTasks_eq]
  rfl

/-- What is returned of a document is the front of its forest as it is read, under the same
ancestors. A node has its flag exactly when a child of its task is not returned, the document its
note exactly when a task is not, and the counts are those of the whole forest. -/
theorem parse_faithful_prefix (r : Reader) (src : Bytes) :
    let roots := walk (splitLines src)
    let f := Task.node r (splitLines src)
    let returned := (nodesIn (parse r src).tasks).map SpecTaskNode.task
    nodeOutline [] (parse r src).tasks
        = (taskOutline f [] roots).take (min (nodesOf roots).length maxNodes)
      ∧ (∀ n ∈ nodesIn (parse r src).tasks, ∃ t ∈ nodesOf roots, n.task = f t
          ∧ (n.truncatedChildren = true ↔ ∃ c ∈ t.children, f c ∉ returned))
      ∧ ((parse r src).truncated.isSome = true ↔ ∃ t ∈ nodesOf roots, f t ∉ returned)
      ∧ (∀ x, (parse r src).truncated = some x →
          x.total = (nodesOf roots).length ∧ x.returned = returned.length)
      ∧ (parse r src).progress = leafCounts (nodesOf roots) := by
  have hnodup := nodup_walk r (splitLines src) (splitLines src)
  have hreturned : (nodesIn (parse r src).tasks).map SpecTaskNode.task
      = ((nodesOf (walk (splitLines src))).map (Task.node r (splitLines src))).take maxNodes :=
    tasks_toNodes _ _
  have hcount := countTasks_eq (walk (splitLines src))
  intro roots f returned
  refine ⟨?_, ?_, ?_, ?_, ?_⟩
  · have houtline : nodeOutline [] (parse r src).tasks = (taskOutline f [] roots).take maxNodes :=
      outline_toNodes [] roots maxNodes
    rw [houtline, ← length_taskOutline (f := f) [], Nat.min_comm, List.take_eq_take_min]
  · intro n hn
    obtain ⟨t, ht, htask, htruncated⟩ := truncated_toNodes hnodup hn
    refine ⟨t, ht, htask, ?_⟩
    rw [htruncated]
    change _ ↔ ∃ c ∈ t.children, f c ∉ List.map SpecTaskNode.task (nodesIn (parse r src).tasks)
    rw [hreturned]
  · have hmissing := exists_not_mem_take hnodup maxNodes
    have hexists : (∃ t ∈ nodesOf roots, f t ∉ returned)
        ↔ ∃ x ∈ (nodesOf roots).map f, x ∉ returned := by
      simp only [List.mem_map, exists_exists_and_eq_and]
    rw [← hreturned, List.length_map] at hmissing
    rw [hexists, truncated_parse]
    apply Iff.trans _ hmissing.symm
    split
    · next hmore => simpa using hmore
    · next hmore => simpa using hmore
  · intro x hx
    rw [truncated_parse] at hx
    split at hx
    · next hmore =>
      injection hx with hx
      have hlength : returned.length = maxNodes := by
        change (List.map SpecTaskNode.task (nodesIn (parse r src).tasks)).length = maxNodes
        rw [hreturned, List.length_take, List.length_map]
        exact Nat.min_eq_left hmore.le
      rw [← hx]
      exact ⟨rfl, hlength.symm⟩
    · contradiction
  · change tally roots SpecProgress.zero = _
    rw [tally_eq, SpecProgress.zero_add]

end Marotte.Spec
