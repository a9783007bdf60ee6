import Marotte.Spec.Numbers

/-! # Walking a tasks document

A numbered task takes the lines up to the next task line; a task without a number takes the lines
indented below it, and the tasks among them as its children.
-/
namespace Marotte.Spec

open Runes

/-- A task line with the content and the children the walk gave it. -/
inductive Task where
  | mk (head : TaskLine) (line : ℕ) (content : List Bytes) (children : List Task)

namespace Task

def head : Task → TaskLine
  | mk head _ _ _ => head

def line : Task → ℕ
  | mk _ line _ _ => line

def content : Task → List Bytes
  | mk _ _ content _ => content

def children : Task → List Task
  | mk _ _ _ children => children

@[simp] theorem head_mk (h : TaskLine) (l : ℕ) (c : List Bytes) (ts : List Task) :
    (mk h l c ts).head = h := rfl

@[simp] theorem line_mk (h : TaskLine) (l : ℕ) (c : List Bytes) (ts : List Task) :
    (mk h l c ts).line = l := rfl

@[simp] theorem children_mk (h : TaskLine) (l : ℕ) (c : List Bytes) (ts : List Task) :
    (mk h l c ts).children = ts := rfl

def number (t : Task) : Bytes :=
  t.head.number

end Task

/-- A numbered task stops at the next task line; another at the first line that is not blank and
indented no deeper. -/
def TaskLine.breaksAt (t : TaskLine) (line : Bytes) (isTask : Bool) : Bool :=
  if t.number ≠ [] then isTask
  else !isBlank line && decide (leadingSpace line ≤ t.indent)

def TaskLine.pushContent (t : TaskLine) (content : List Bytes) (line : Bytes) : List Bytes :=
  if isBlank line then
    if content ≠ [] then content ++ [[]] else content
  else content ++ [dropLeading line (min (leadingSpace line) (t.indent + 2))]

def trimTrailingBlank (lines : List Bytes) : List Bytes :=
  (lines.reverse.dropWhile (· = [])).reverse

/-- What a task has taken, the lines it left and the place of the first of them. -/
structure Taken (limit : ℕ) where
  content : List Bytes
  children : List Task
  next : ℕ
  rest : List Bytes
  fits : rest.length ≤ limit

/-- The loop of `parseTask` over the lines behind a task line, the first of them at `place`. -/
def parseTask (t : TaskLine) (place : ℕ) (content : List Bytes) (children : List Task) :
    (lines : List Bytes) → Taken lines.length
  | [] => ⟨trimTrailingBlank content, children, place, [], Nat.le_refl 0⟩
  | line :: lines =>
    let child := matchTaskLine line
    if t.breaksAt line child.isSome then
      ⟨trimTrailingBlank content, children, place, line :: lines, Nat.le_refl _⟩
    else
      match child with
      | some c =>
        let inner := parseTask c (place + 1) [] [] lines
        have _fits := inner.fits
        let outer := parseTask t inner.next content
          (children ++ [.mk c place inner.content inner.children]) inner.rest
        ⟨outer.content, outer.children, outer.next, outer.rest,
          Nat.le_succ_of_le (Nat.le_trans outer.fits inner.fits)⟩
      | none =>
        let outer := parseTask t (place + 1) (t.pushContent content line) children lines
        ⟨outer.content, outer.children, outer.next, outer.rest, Nat.le_succ_of_le outer.fits⟩
termination_by lines => lines.length
decreasing_by
  · exact Nat.lt_succ_self _
  · exact Nat.lt_succ_of_le _fits
  · exact Nat.lt_succ_self _

section Steps

variable {t c : TaskLine} {place : ℕ} {content : List Bytes} {children : List Task} {line : Bytes}
  {lines : List Bytes}

/-- What a task has taken, whatever bounds the lines it left. -/
def Taken.view {limit : ℕ} (x : Taken limit) : List Bytes × List Task × ℕ × List Bytes :=
  (x.content, x.children, x.next, x.rest)

theorem parseTask_nil :
    (parseTask t place content children []).view
      = (trimTrailingBlank content, children, place, []) := by
  rw [parseTask]
  rfl

theorem parseTask_stop (h : t.breaksAt line (matchTaskLine line).isSome = true) :
    (parseTask t place content children (line :: lines)).view
      = (trimTrailingBlank content, children, place, line :: lines) := by
  rw [parseTask]
  simp only [h, if_true, Taken.view]

theorem parseTask_child (h : t.breaksAt line (matchTaskLine line).isSome = false)
    (hchild : matchTaskLine line = some c) :
    (parseTask t place content children (line :: lines)).view
      = (parseTask t (parseTask c (place + 1) [] [] lines).next content
          (children ++ [.mk c place (parseTask c (place + 1) [] [] lines).content
            (parseTask c (place + 1) [] [] lines).children])
          (parseTask c (place + 1) [] [] lines).rest).view := by
  rw [parseTask]
  simp only [h, Bool.false_eq_true, if_false]
  split
  · next d hd =>
    rw [hchild] at hd
    injection hd with hd
    subst hd
    rfl
  · next hd =>
    rw [hchild] at hd
    contradiction

theorem parseTask_content (h : t.breaksAt line (matchTaskLine line).isSome = false)
    (hchild : matchTaskLine line = none) :
    (parseTask t place content children (line :: lines)).view
      = (parseTask t (place + 1) (t.pushContent content line) children lines).view := by
  rw [parseTask]
  simp only [h, Bool.false_eq_true, if_false]
  split
  · next d hd =>
    rw [hchild] at hd
    contradiction
  · rfl

end Steps

/-- The tasks at the top of the document, from `place` on. -/
def walkTops (place : ℕ) (lines : List Bytes) : List Task :=
  match lines with
  | [] => []
  | line :: lines =>
    match matchTaskLine line with
    | none => walkTops (place + 1) lines
    | some t =>
      let taken := parseTask t (place + 1) [] [] lines
      have _fits := taken.fits
      .mk t place taken.content taken.children :: walkTops taken.next taken.rest
termination_by lines.length
decreasing_by
  · exact Nat.lt_succ_self _
  · exact Nat.lt_succ_of_le _fits

/-! ## The tasks of a forest -/

mutual

/-- The tasks of a tree from the top, as their lines and places. -/
def Task.nodes : Task → List Task
  | .mk head line content children => .mk head line content children :: nodesOf children

def nodesOf : List Task → List Task
  | [] => []
  | t :: ts => t.nodes ++ nodesOf ts

end

theorem nodesOf_append (ts us : List Task) : nodesOf (ts ++ us) = nodesOf ts ++ nodesOf us := by
  induction ts with
  | nil => rfl
  | cons t ts ih => rw [List.cons_append, nodesOf, nodesOf, ih, List.append_assoc]

theorem nodes_eq (t : Task) : t.nodes = t :: nodesOf t.children := by
  cases t
  rw [Task.nodes]
  rfl

theorem sublist_nodesOf (ts : List Task) : List.Sublist ts (nodesOf ts) := by
  induction ts with
  | nil => simp [nodesOf]
  | cons t ts ih =>
    rw [nodesOf, nodes_eq, List.cons_append]
    exact (ih.trans (List.sublist_append_right _ _)).cons_cons t

/-- A forest holds what each of its trees holds below its top. -/
@[elab_as_elim]
theorem forest_induction {P : List Task → Prop} (ts : List Task) (nil : P [])
    (cons : ∀ t ts, P t.children → P ts → P (t :: ts)) : P ts :=
  nodesOf.induct (fun t => P t.children) P (fun _ _ _ _ h => h) nil cons ts

theorem children_subset {ts : List Task} {v : Task} (hv : v ∈ nodesOf ts) :
    v.children ⊆ nodesOf ts := by
  induction ts using forest_induction with
  | nil => simp [nodesOf] at hv
  | cons t ts ihchildren ih =>
    rw [nodesOf, nodes_eq, List.cons_append, List.mem_cons, List.mem_append] at hv
    intro c hc
    rw [nodesOf, nodes_eq, List.cons_append, List.mem_cons, List.mem_append]
    rcases hv with rfl | hv | hv
    · exact .inr (.inl ((sublist_nodesOf _).mem hc))
    · exact .inr (.inl (ihchildren hv hc))
    · exact .inr (.inr (ih hv hc))

/-- What identifies a task: its line as read and where it is. -/
def Task.mark (t : Task) : TaskLine × ℕ :=
  (t.head, t.line)

/-- The task lines of a document, from `place` on. -/
def taskLines (place : ℕ) : List Bytes → List (TaskLine × ℕ)
  | [] => []
  | line :: lines =>
    match matchTaskLine line with
    | some t => (t, place) :: taskLines (place + 1) lines
    | none => taskLines (place + 1) lines

theorem taskLines_cons_some {place : ℕ} {line : Bytes} {lines : List Bytes} {t : TaskLine}
    (h : matchTaskLine line = some t) :
    taskLines place (line :: lines) = (t, place) :: taskLines (place + 1) lines := by
  rw [taskLines, h]

theorem taskLines_cons_none {place : ℕ} {line : Bytes} {lines : List Bytes}
    (h : matchTaskLine line = none) :
    taskLines place (line :: lines) = taskLines (place + 1) lines := by
  rw [taskLines, h]

/-- The task lines among what a task has taken, in order. -/
def marksOf (x : List Bytes × List Task × ℕ × List Bytes) : List (TaskLine × ℕ) :=
  (nodesOf x.2.1).map Task.mark ++ taskLines x.2.2.1 x.2.2.2

/-- A task takes the task lines up to where it stops as its children's, each once and in order. -/
theorem marks_parseTask (t : TaskLine) (place : ℕ) (content : List Bytes) (children : List Task)
    (lines : List Bytes) :
    marksOf (parseTask t place content children lines).view
      = (nodesOf children).map Task.mark ++ taskLines place lines := by
  induction t, place, content, children, lines using parseTask.induct with
  | case1 t place content children =>
    rw [parseTask_nil]
    rfl
  | case2 t place content children line lines child hbreak =>
    rw [parseTask_stop hbreak]
    rfl
  | case3 t place content children line lines child hgo c hchild inner hle ihinner ihouter _ =>
    rw [parseTask_child (by simpa using hgo) hchild, ihouter, taskLines_cons_some hchild]
    have hinner : (nodesOf inner.children).map Task.mark ++ taskLines inner.next inner.rest
        = taskLines (place + 1) lines := ihinner
    rw [nodesOf_append, List.map_append, List.append_assoc]
    congr 1
    rw [nodesOf, Task.nodes, nodesOf, List.append_nil, List.map_cons, List.cons_append, hinner]
    rfl
  | case4 t place content children line lines child hgo hchild ih =>
    rw [parseTask_content (by simpa using hgo) hchild, ih, taskLines_cons_none hchild]

/-- The walk puts every task line in its forest, each once and in order. -/
theorem marks_walkTops (place : ℕ) (lines : List Bytes) :
    (nodesOf (walkTops place lines)).map Task.mark = taskLines place lines := by
  induction place, lines using walkTops.induct with
  | case1 place =>
    rw [walkTops]
    rfl
  | case2 place line lines h ih =>
    rw [walkTops, taskLines_cons_none h, ← ih]
    split
    · rfl
    · simp_all
  | case3 place line lines t h taken hle ih =>
    have hwalk : walkTops place (line :: lines)
        = .mk t place taken.content taken.children :: walkTops taken.next taken.rest := by
      rw [walkTops]
      split
      · simp_all
      · next d hd =>
        rw [h] at hd
        injection hd with hd
        subst hd
        rfl
    have htaken : (nodesOf taken.children).map Task.mark ++ taskLines taken.next taken.rest
        = taskLines (place + 1) lines := marks_parseTask t (place + 1) [] [] lines
    rw [hwalk, taskLines_cons_some h, nodesOf, Task.nodes, List.map_append, List.map_cons, ih,
      List.cons_append, htaken]
    rfl

/-- A numbered task takes no other task. -/
theorem children_parseTask {t : TaskLine} (ht : t.number ≠ []) (place : ℕ) (content : List Bytes)
    (children : List Task) (lines : List Bytes) :
    (parseTask t place content children lines).children = children := by
  have hview : (parseTask t place content children lines).view.2.1 = children := by
    induction lines generalizing place content with
    | nil => rw [parseTask_nil]
    | cons line lines ih =>
      cases hmatch : matchTaskLine line with
      | some c =>
        rw [parseTask_stop]
        rw [TaskLine.breaksAt, if_pos ht, hmatch]
        rfl
      | none =>
        rw [parseTask_content _ hmatch, ih]
        rw [TaskLine.breaksAt, if_pos ht, hmatch]
        rfl
  exact hview

/-- A numbered task has no children. -/
def Task.Bare (t : Task) : Prop :=
  t.number ≠ [] → t.children = []

theorem bare_parseTask (t : TaskLine) (place : ℕ) (content : List Bytes) (children : List Task)
    (lines : List Bytes) (h : ∀ v ∈ nodesOf children, v.Bare) :
    ∀ v ∈ nodesOf (parseTask t place content children lines).view.2.1, v.Bare := by
  induction t, place, content, children, lines using parseTask.induct with
  | case1 t place content children =>
    rw [parseTask_nil]
    exact h
  | case2 t place content children line lines child hbreak =>
    rw [parseTask_stop hbreak]
    exact h
  | case3 t place content children line lines child hgo c hchild inner hle ihinner ihouter _ =>
    rw [parseTask_child (by simpa using hgo) hchild]
    apply ihouter
    intro v hv
    rw [nodesOf_append, nodesOf, Task.nodes, nodesOf, List.append_nil, List.mem_append,
      List.mem_cons] at hv
    rcases hv with hv | rfl | hv
    · exact h v hv
    · exact fun hnumber => children_parseTask hnumber _ _ _ _
    · exact ihinner (by simp [nodesOf]) v hv
  | case4 t place content children line lines child hgo hchild ih =>
    rw [parseTask_content (by simpa using hgo) hchild]
    exact ih h

/-- In the forest of the walk no numbered task has children. -/
theorem bare_walkTops (place : ℕ) (lines : List Bytes) :
    ∀ v ∈ nodesOf (walkTops place lines), v.Bare := by
  induction place, lines using walkTops.induct with
  | case1 place =>
    rw [walkTops]
    simp [nodesOf]
  | case2 place line lines h ih =>
    rw [walkTops]
    split
    · exact ih
    · simp_all
  | case3 place line lines d h taken hle ih =>
    rw [walkTops]
    split
    · simp_all
    · next e he =>
      rw [h] at he
      injection he with he
      subst he
      intro v hv
      rw [nodesOf, Task.nodes, List.cons_append, List.mem_cons, List.mem_append] at hv
      rcases hv with rfl | hv | hv
      · exact fun hnumber => children_parseTask hnumber _ _ _ _
      · exact bare_parseTask d (place + 1) [] [] lines (by simp [nodesOf]) v hv
      · exact ih v hv

/-! ## Lines in order -/

theorem taskLines_ge {place : ℕ} {lines : List Bytes} {x : TaskLine × ℕ}
    (h : x ∈ taskLines place lines) : place ≤ x.2 := by
  induction lines generalizing place with
  | nil => simp [taskLines] at h
  | cons line lines ih =>
    rw [taskLines] at h
    split at h
    · rcases List.mem_cons.1 h with rfl | h
      · exact Nat.le_refl place
      · exact Nat.le_of_succ_le (ih h)
    · exact Nat.le_of_succ_le (ih h)

theorem pairwise_taskLines (place : ℕ) (lines : List Bytes) :
    (taskLines place lines).Pairwise fun a b => a.2 < b.2 := by
  induction lines generalizing place with
  | nil => simp [taskLines]
  | cons line lines ih =>
    rw [taskLines]
    split
    · exact List.Pairwise.cons (fun x hx => taskLines_ge hx) (ih _)
    · exact ih _

theorem pairwise_nodes_walkTops (place : ℕ) (lines : List Bytes) :
    (nodesOf (walkTops place lines)).Pairwise fun a b => a.line < b.line := by
  have hpairwise := pairwise_taskLines place lines
  rw [← marks_walkTops, List.pairwise_map] at hpairwise
  exact hpairwise

end Marotte.Spec
