import Marotte.Spec.Kept

/-! # The tree a client gets

The forest is cut after `maxNodes` tasks in the order it is read, and the counts cover the whole
document.
-/
namespace Marotte.Spec

open Runes

/-! ## Nodes -/

/-- What a node says of its task. -/
structure SpecTask where
  wave : Option ℕ
  number : Bytes
  text : Bytes
  status : PlanStatus
  hash : String
  detail : Bytes
  id : String
  line : ℕ
  indent : ℕ
  queued : Bool
  optional : Bool
  deriving DecidableEq

inductive SpecTaskNode where
  | mk (task : SpecTask) (truncatedChildren : Bool) (children : List SpecTaskNode)

namespace SpecTaskNode

def task : SpecTaskNode → SpecTask
  | mk task _ _ => task

def truncatedChildren : SpecTaskNode → Bool
  | mk _ truncated _ => truncated

def children : SpecTaskNode → List SpecTaskNode
  | mk _ _ children => children

end SpecTaskNode

/-- The content up to the first heading. -/
def Task.detail (t : Task) : Bytes :=
  [lf].intercalate (trimTrailingBlank (t.content.takeWhile fun l => !isHeading l))

/-- What a document's waves and the digest of a text are read with. -/
structure Reader where
  parseWaves : List Bytes → Bytes → Option ℕ
  sha256 : Bytes → String

def Task.node (r : Reader) (lines : List Bytes) (t : Task) : SpecTask where
  wave := if t.number ≠ [] then r.parseWaves lines t.number else none
  number := t.number
  text := t.head.text
  status := t.head.status
  hash := r.sha256 t.head.text
  detail := t.detail
  id := "L" ++ toString (t.line + 1)
  line := t.line + 1
  indent := t.head.indent
  queued := t.head.queued
  optional := t.head.optional

mutual

/-- A task as a node, its own unit of the budget spent, and the budget it leaves. -/
def Task.toNode (f : Task → SpecTask) : Task → ℕ → SpecTaskNode × ℕ
  | .mk head line content children, budget =>
    let below := toNodes f children budget
    (.mk (f (.mk head line content children)) (decide (below.1.length < children.length)) below.1,
      below.2)

def toNodes (f : Task → SpecTask) : List Task → ℕ → List SpecTaskNode × ℕ
  | [], budget => ([], budget)
  | _ :: _, 0 => ([], 0)
  | t :: ts, budget + 1 =>
    let n := t.toNode f budget
    let behind := toNodes f ts n.2
    (n.1 :: behind.1, behind.2)

end

mutual

def Task.countTasks : Task → ℕ
  | .mk _ _ _ children => 1 + countTasks children

def countTasks : List Task → ℕ
  | [] => 0
  | t :: ts => t.countTasks + countTasks ts

end

/-! ## Progress -/

structure SpecProgress where
  pending : ℕ
  inProgress : ℕ
  completed : ℕ
  queued : ℕ
  total : ℕ
  deriving DecidableEq

def SpecProgress.zero : SpecProgress :=
  { pending := 0, inProgress := 0, completed := 0, queued := 0, total := 0 }

def SpecProgress.count (p : SpecProgress) (t : TaskLine) : SpecProgress :=
  let p := { p with total := p.total + 1 }
  match t.status with
  | .completed => { p with completed := p.completed + 1 }
  | .inProgress => { p with inProgress := p.inProgress + 1 }
  | .pending =>
    if t.queued then { p with pending := p.pending + 1, queued := p.queued + 1 }
    else { p with pending := p.pending + 1 }

mutual

def Task.tally : Task → SpecProgress → SpecProgress
  | .mk head _ _ children, p =>
    if children.isEmpty then
      if head.optional then p else p.count head
    else tally children p

def tally : List Task → SpecProgress → SpecProgress
  | [], p => p
  | t :: ts, p => tally ts (t.tally p)

end

/-! ## Reading a document -/

def maxNodes : ℕ := 1000

structure SpecTruncated where
  returned : ℕ
  total : ℕ

structure Parsed where
  truncated : Option SpecTruncated
  tasks : List SpecTaskNode
  progress : SpecProgress
  unreadableLines : ℕ

def parse (r : Reader) (src : Bytes) : Parsed :=
  let lines := splitLines src
  let roots := walk lines
  { truncated :=
      if countTasks roots > maxNodes then
        some { returned := maxNodes, total := countTasks roots }
      else none
    tasks := (toNodes (Task.node r lines) roots maxNodes).1
    progress := tally roots SpecProgress.zero
    unreadableLines := countNearMisses lines }

/-! ## Counting -/

theorem countTasks_eq (ts : List Task) : countTasks ts = (nodesOf ts).length := by
  induction ts using forest_induction with
  | nil => rfl
  | cons t ts ihchildren ih =>
    cases t with
    | mk head line content children =>
      have hbelow : countTasks children = (nodesOf children).length := ihchildren
      rw [countTasks, Task.countTasks, nodesOf, Task.nodes, ih, hbelow, List.length_append,
        List.length_cons]
      omega

/-- A task without children that is not optional. -/
def Task.isRequiredLeaf (t : Task) : Bool :=
  t.children.isEmpty && !t.head.optional

/-- The counts of the required leaves among `ts`. -/
def leafCounts (ts : List Task) : SpecProgress where
  pending := ts.countP fun t => t.isRequiredLeaf && t.head.status = .pending
  inProgress := ts.countP fun t => t.isRequiredLeaf && t.head.status = .inProgress
  completed := ts.countP fun t => t.isRequiredLeaf && t.head.status = .completed
  queued := ts.countP fun t => t.isRequiredLeaf && t.head.status = .pending && t.head.queued
  total := ts.countP Task.isRequiredLeaf

def SpecProgress.add (p q : SpecProgress) : SpecProgress where
  pending := p.pending + q.pending
  inProgress := p.inProgress + q.inProgress
  completed := p.completed + q.completed
  queued := p.queued + q.queued
  total := p.total + q.total

theorem leafCounts_append (ts us : List Task) :
    leafCounts (ts ++ us) = (leafCounts ts).add (leafCounts us) := by
  simp only [leafCounts, SpecProgress.add, List.countP_append]

theorem SpecProgress.add_assoc (p q r : SpecProgress) : (p.add q).add r = p.add (q.add r) := by
  simp only [SpecProgress.add, Nat.add_assoc]

theorem SpecProgress.zero_add (p : SpecProgress) : SpecProgress.zero.add p = p := by
  simp only [SpecProgress.add, SpecProgress.zero, Nat.zero_add]

theorem leafCounts_leaf {t : Task} (h : t.isRequiredLeaf = true) (p : SpecProgress) :
    p.add (leafCounts [t]) = p.count t.head := by
  cases hstatus : t.head.status with
  | pending =>
    cases hqueued : t.head.queued with
    | true => simp [SpecProgress.add, SpecProgress.count, leafCounts, h, hstatus, hqueued]
    | false => simp [SpecProgress.add, SpecProgress.count, leafCounts, h, hstatus, hqueued]
  | inProgress => simp [SpecProgress.add, SpecProgress.count, leafCounts, h, hstatus]
  | completed => simp [SpecProgress.add, SpecProgress.count, leafCounts, h, hstatus]

theorem leafCounts_other {t : Task} (h : t.isRequiredLeaf = false) (p : SpecProgress) :
    p.add (leafCounts [t]) = p := by
  simp [SpecProgress.add, leafCounts, h]

/-- The tally counts every required leaf once. -/
theorem tally_eq (ts : List Task) (p : SpecProgress) :
    tally ts p = p.add (leafCounts (nodesOf ts)) := by
  induction ts using forest_induction generalizing p with
  | nil => rfl
  | cons t ts ihchildren ih =>
    have hnode : t.tally p = p.add (leafCounts t.nodes) := by
      rw [nodes_eq, ← List.singleton_append, leafCounts_append, ← SpecProgress.add_assoc]
      cases t with
      | mk head line content children =>
        rw [Task.tally, Task.children_mk]
        split
        · next hleaf =>
          rw [List.isEmpty_iff] at hleaf
          subst hleaf
          split
          · next hoptional =>
            rw [leafCounts_other (by simp [Task.isRequiredLeaf, hoptional])]
            rfl
          · next hoptional =>
            rw [leafCounts_leaf (by simp [Task.isRequiredLeaf, hoptional])]
            rfl
        · next hleaf =>
          rw [leafCounts_other (by simp [Task.isRequiredLeaf, hleaf])]
          exact ihchildren p
    rw [tally, ih, hnode, nodesOf, leafCounts_append, SpecProgress.add_assoc]

/-! ## Line ends

A document reads the same whichever line ends it has, and no task of it is lost.
-/

/-- Every line feed without a carriage return before it as `ending`. -/
def convertEnds (ending : Bytes) : Bytes → Bytes
  | [] => []
  | [b] => if b = lf then ending else [b]
  | b :: c :: s =>
    if b = lf then ending ++ convertEnds ending (c :: s)
    else if b = cr ∧ c = lf then cr :: lf :: convertEnds ending s
    else b :: convertEnds ending (c :: s)

/-- The bytes with every line end as a line feed. -/
def normal (s : Bytes) : Bytes :=
  replaceCR (replaceCRLF s)

@[simp] theorem normal_nil : normal [] = [] := rfl

theorem normal_crlf (s : Bytes) : normal (cr :: lf :: s) = lf :: normal s := by
  rw [normal, replaceCRLF, if_pos ⟨rfl, rfl⟩]
  rfl

theorem normal_cons {b : UInt8} {s : Bytes} (h : b = cr → s.head? ≠ some lf) :
    normal (b :: s) = (if b = cr then lf else b) :: normal s := by
  cases s with
  | nil => rfl
  | cons c s =>
    rw [normal, replaceCRLF, if_neg]
    · rfl
    · rintro ⟨hb, hc⟩
      exact h hb (congrArg some hc)

/-- A line end as a carriage return, a line feed behind it or not. -/
def IsReturn (ending : Bytes) : Prop :=
  ending = [cr, lf] ∨ ending = [cr]

variable {ending : Bytes}

theorem head_convertEnds (h : IsReturn ending) (s : Bytes) :
    (convertEnds ending s).head? ≠ some lf := by
  have hending : ∀ t, (ending ++ t).head? ≠ some lf := by
    intro t
    rcases h with rfl | rfl
    · rw [List.cons_append, List.head?_cons]
      decide
    · rw [List.cons_append, List.head?_cons]
      decide
  match s with
  | [] => simp [convertEnds]
  | [b] =>
    rw [convertEnds]
    split
    · have hnil := hending []
      rwa [List.append_nil] at hnil
    · next hb => simpa using hb
  | b :: c :: s =>
    rw [convertEnds]
    split
    · exact hending _
    · next hb =>
      split
      · rw [List.head?_cons]
        decide
      · simpa using hb

theorem normal_ending (h : IsReturn ending) {s : Bytes} (hs : s.head? ≠ some lf) :
    normal (ending ++ s) = lf :: normal s := by
  rcases h with rfl | rfl
  · exact normal_crlf s
  · rw [List.singleton_append, normal_cons fun _ => hs, if_pos rfl]

theorem normal_convertEnds (h : IsReturn ending) (s : Bytes) :
    normal (convertEnds ending s) = normal s := by
  induction s using convertEnds.induct with
  | case1 => rfl
  | case2 =>
    rw [convertEnds, if_pos rfl]
    have hlast := normal_ending h (s := []) (by simp)
    rw [List.append_nil] at hlast
    rw [hlast]
    rfl
  | case3 b hb => rw [convertEnds, if_neg hb]
  | case4 c s ih =>
    have hfeed : normal (lf :: c :: s) = lf :: normal (c :: s) := normal_cons (by simp [lf, cr])
    rw [convertEnds, if_pos rfl, normal_ending h (head_convertEnds h _), ih, hfeed]
  | case5 b c s hb hpair ih =>
    rw [convertEnds, if_neg hb, if_pos hpair, normal_crlf, ih, hpair.1, hpair.2, normal_crlf]
  | case6 b c s hb hpair ih =>
    have hplain : normal (b :: c :: s) = (if b = cr then lf else b) :: normal (c :: s) := by
      apply normal_cons
      intro hcr hhead
      rw [List.head?_cons, Option.some.injEq] at hhead
      exact hpair ⟨hcr, hhead⟩
    rw [convertEnds, if_neg hb, if_neg hpair, normal_cons fun _ => head_convertEnds h _, ih, hplain]

theorem parse_convertEnds (h : IsReturn ending) (r : Reader) (src : Bytes) :
    parse r (convertEnds ending src) = parse r src := by
  have hlines : splitLines (convertEnds ending src) = splitLines src :=
    congrArg (List.splitOn lf) (normal_convertEnds h src)
  rw [parse, parse, hlines]

end Marotte.Spec
