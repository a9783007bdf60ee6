import Marotte.Spec.Numbers
import Marotte.Spec.Walk
import Mathlib.Data.List.Induction
import Mathlib.Data.List.Nodup
import Mathlib.Data.List.Perm.Basic

/-! # Hanging tasks by their numbers

The numbered tasks at the top of a document are sorted and hung under the task their number names.
A task is hung after the task it hangs under, so the tree under a task is read off the tasks hung
behind it.
-/
namespace Marotte.Spec

open Runes

/-! ## The loop -/

/-- The state of the loop: the last task of every number, by its line, the numbers without a parent,
and the tasks hung, each with the line of the task it hangs under. -/
structure Hanging where
  byNumber : Bytes → Option ℕ
  orphan : List Bytes
  hung : List (ℕ × Task)

def Hanging.empty : Hanging :=
  { byNumber := fun _ => none, orphan := [], hung := [] }

def Hanging.step (s : Hanging) (t : Task) : Hanging :=
  let byNumber := fun n => if n = t.number then some t.line else s.byNumber n
  if depth t.number = 1 then { s with byNumber := byNumber }
  else
    match byNumber (parentNumber t.number) with
    | none => { s with byNumber := byNumber, orphan := t.number :: s.orphan }
    | some p => { s with byNumber := byNumber, hung := s.hung ++ [(p, t)] }

/-- The children of the task at line `p`, each with the tasks hung under it behind it. -/
def childrenIn (p : ℕ) : List (ℕ × Task) → List Task
  | [] => []
  | (q, t) :: hung =>
    if q = p then .mk t.head t.line t.content (childrenIn t.line hung) :: childrenIn p hung
    else childrenIn p hung

/-- A task with the tasks hung under it: a task without a number keeps its own children. -/
def rooted (hung : List (ℕ × Task)) (t : Task) : Task :=
  if t.number = [] then t
  else .mk t.head t.line t.content (childrenIn t.line hung)

/-- Stable: equal numbers keep file order. -/
def sortNumbers (ts : List Task) : List Task :=
  ts.mergeSort fun a b => (compareNumbers a.number b.number).isLE

def numberedOf (tops : List Task) : List Task :=
  sortNumbers (tops.filter (·.number ≠ []))

def hangAll (tops : List Task) : Hanging :=
  (numberedOf tops).foldl Hanging.step Hanging.empty

def isRoot (s : Hanging) (t : Task) : Bool :=
  t.number = [] ∨ depth t.number = 1 ∨ t.number ∈ s.orphan

def reparent (tops : List Task) : List Task :=
  (tops.filter (isRoot (hangAll tops))).map (rooted (hangAll tops).hung)

/-- The forest of a document. -/
def walk (lines : List Bytes) : List Task :=
  let tops := walkTops 0 lines
  if tops.any (·.number ≠ []) then reparent tops else tops

/-! ## What the loop finds -/

/-- The last task of a number, by its line. -/
def lastLine (ts : List Task) (n : Bytes) : Option ℕ :=
  (ts.filter (·.number = n)).getLast?.map Task.line

/-- A task with the line of the task it hangs under. -/
def entry (ts : List Task) (t : Task) : Option (ℕ × Task) :=
  if depth t.number = 1 then none else (lastLine ts (parentNumber t.number)).map (·, t)

variable {ts : List Task} {t u : Task} {n : Bytes} {p : ℕ}

theorem lastLine_concat (ts : List Task) (t : Task) (n : Bytes) :
    lastLine (ts ++ [t]) n = if n = t.number then some t.line else lastLine ts n := by
  rw [lastLine, List.filter_append]
  by_cases h : t.number = n
  · simp [h]
  · simp [h, Ne.symm h, lastLine]

theorem exists_of_lastLine (h : lastLine ts n = some p) : ∃ t ∈ ts, t.number = n ∧ t.line = p := by
  rw [lastLine, Option.map_eq_some_iff] at h
  obtain ⟨t, ht, hline⟩ := h
  have hmem := List.mem_of_getLast? ht
  rw [List.mem_filter, decide_eq_true_eq] at hmem
  exact ⟨t, hmem.1, hmem.2, hline⟩

theorem lastLine_eq_none : lastLine ts n = none ↔ ∀ t ∈ ts, t.number ≠ n := by
  rw [lastLine, Option.map_eq_none_iff, List.getLast?_eq_none_iff, List.filter_eq_nil_iff]
  simp

theorem entry_concat (hle : depth u.number ≤ depth t.number) :
    entry (ts ++ [t]) u = entry ts u := by
  rw [entry, entry]
  split
  · rfl
  · next h =>
    have hdepth := depth_parentNumber h
    have hne : parentNumber u.number ≠ t.number := by
      intro heq
      rw [heq] at hdepth
      omega
    rw [lastLine_concat, if_neg hne]

/-- The loop over tasks sorted by depth: every task is hung under the last task of its parent's
number, and those without one are orphans. -/
theorem foldl_step (hsorted : ts.Pairwise fun a b => depth a.number ≤ depth b.number) :
    (ts.foldl Hanging.step Hanging.empty).byNumber = lastLine ts
      ∧ (ts.foldl Hanging.step Hanging.empty).hung = ts.filterMap (entry ts)
      ∧ ∀ n, n ∈ (ts.foldl Hanging.step Hanging.empty).orphan ↔
          ∃ t ∈ ts, t.number = n ∧ depth n ≠ 1 ∧ lastLine ts (parentNumber n) = none := by
  induction ts using List.reverseRecOn with
  | nil => exact ⟨rfl, rfl, by simp [Hanging.empty]⟩
  | append_singleton ts t ih =>
    rw [List.pairwise_append] at hsorted
    obtain ⟨hfront, _, hcross⟩ := hsorted
    have hdeep : ∀ u ∈ ts, depth u.number ≤ depth t.number :=
      fun u hu => hcross u hu t List.mem_cons_self
    obtain ⟨hby, hhung, horphan⟩ := ih hfront
    have hlast : (fun n => if n = t.number then some t.line
        else (ts.foldl Hanging.step Hanging.empty).byNumber n) = lastLine (ts ++ [t]) := by
      funext n
      rw [hby, lastLine_concat]
    have hlookup : (if parentNumber t.number = t.number then some t.line
        else (ts.foldl Hanging.step Hanging.empty).byNumber (parentNumber t.number))
          = lastLine (ts ++ [t]) (parentNumber t.number) := congrFun hlast _
    have hentries : ts.filterMap (entry (ts ++ [t])) = ts.filterMap (entry ts) :=
      List.filterMap_congr fun u hu => entry_concat (hdeep u hu)
    have horphans : ∀ n, (∃ u ∈ ts, u.number = n ∧ depth n ≠ 1
          ∧ lastLine (ts ++ [t]) (parentNumber n) = none)
        ↔ n ∈ (ts.foldl Hanging.step Hanging.empty).orphan := by
      intro n
      rw [horphan]
      constructor
      · rintro ⟨u, hu, rfl, hdepth, hnone⟩
        refine ⟨u, hu, rfl, hdepth, ?_⟩
        rw [lastLine_concat] at hnone
        split at hnone
        · contradiction
        · exact hnone
      · rintro ⟨u, hu, rfl, hdepth, hnone⟩
        refine ⟨u, hu, rfl, hdepth, ?_⟩
        have hentry : entry (ts ++ [t]) u = entry ts u := entry_concat (hdeep u hu)
        rw [entry, entry, if_neg hdepth, if_neg hdepth, hnone, Option.map_none,
          Option.map_eq_none_iff] at hentry
        exact hentry
    rw [List.foldl_append, List.foldl_cons, List.foldl_nil, Hanging.step]
    simp only [hlast, hlookup]
    split
    · next hdepth =>
      refine ⟨rfl, ?_, ?_⟩
      · rw [List.filterMap_append, hentries, hhung]
        simp [entry, hdepth]
      · intro n
        rw [← horphans]
        simp only [List.mem_append, List.mem_singleton]
        constructor
        · rintro ⟨u, hu, hrest⟩
          exact ⟨u, .inl hu, hrest⟩
        · rintro ⟨u, hu | rfl, hnumber, hno, hrest⟩
          · exact ⟨u, hu, hnumber, hno, hrest⟩
          · rw [← hnumber] at hno
            exact absurd hdepth hno
    · next hdepth =>
      split
      · next hnone =>
        refine ⟨rfl, ?_, ?_⟩
        · rw [List.filterMap_append, hentries, hhung]
          simp [entry, hnone]
        · intro n
          simp only [List.mem_cons, List.mem_append, List.not_mem_nil, or_false]
          rw [← horphans]
          constructor
          · rintro (rfl | ⟨u, hu, hrest⟩)
            · exact ⟨t, .inr rfl, rfl, hdepth, hnone⟩
            · exact ⟨u, .inl hu, hrest⟩
          · rintro ⟨u, hu | rfl, hnumber, hrest⟩
            · exact .inr ⟨u, hu, hnumber, hrest⟩
            · exact .inl hnumber.symm
      · next p hsome =>
        refine ⟨rfl, ?_, ?_⟩
        · rw [List.filterMap_append, hentries, hhung]
          simp [entry, hdepth, hsome]
        · intro n
          rw [← horphans]
          simp only [List.mem_append, List.mem_singleton]
          constructor
          · rintro ⟨u, hu, hrest⟩
            exact ⟨u, .inl hu, hrest⟩
          · rintro ⟨u, hu | rfl, hnumber, hno, hnone⟩
            · exact ⟨u, hu, hnumber, hno, hnone⟩
            · rw [← hnumber, hsome] at hnone
              contradiction

end Marotte.Spec

/-! ## No task is lost

Every task line of a document is one node of its forest, every numbered task at the top hangs under
a task of its parent's number where there is one, and siblings under a number are in numeric order.
-/
namespace Marotte.Spec

open Runes

variable {ts tops : List Task} {t u : Task} {n : Bytes} {p : ℕ}

/-! ## Trees read off the tasks hung -/

/-- Every task hung hangs under a task at one of the lines `us` or under one hung before it. -/
def Reaches (us : List ℕ) : List (ℕ × Task) → Prop
  | [] => True
  | (p, t) :: hung => p ∈ us ∧ Reaches (t.line :: us) hung

theorem nodesOf_eq_flatMap (ts : List Task) : nodesOf ts = ts.flatMap Task.nodes := by
  induction ts with
  | nil => rfl
  | cons t ts ih => rw [nodesOf, List.flatMap_cons, ih]

def marks (ts : List Task) : List (TaskLine × ℕ) :=
  (nodesOf ts).map Task.mark

@[simp] theorem marks_nil : marks [] = [] := rfl

theorem marks_cons (t : Task) (ts : List Task) :
    marks (t :: ts) = t.mark :: marks t.children ++ marks ts := by
  rw [marks, nodesOf, nodes_eq, List.map_append]
  rfl

/-- The trees at the lines reached hold every task hung, each once. -/
theorem perm_childrenIn {us : List ℕ} {hung : List (ℕ × Task)} (hreach : Reaches us hung)
    (hnodup : us.Nodup) (hfresh : (hung.map (·.2.line)).Nodup)
    (hdisjoint : ∀ x ∈ hung, x.2.line ∉ us) :
    (us.flatMap fun p => marks (childrenIn p hung)).Perm (hung.map (·.2.mark)) := by
  induction hung generalizing us with
  | nil => simp [childrenIn]
  | cons x hung ih =>
    obtain ⟨p, t⟩ := x
    obtain ⟨hp, hrest⟩ := hreach
    rw [List.map_cons, List.nodup_cons] at hfresh
    have hinner := ih hrest (List.nodup_cons.2 ⟨hdisjoint _ List.mem_cons_self, hnodup⟩) hfresh.2
      (by
        intro x hx hmem
        rcases List.mem_cons.1 hmem with heq | hmem
        · exact hfresh.1 (List.mem_map.2 ⟨x, hx, heq⟩)
        · exact hdisjoint x (List.mem_cons_of_mem _ hx) hmem)
    rw [List.flatMap_cons] at hinner
    obtain ⟨front, back, rfl⟩ := List.append_of_mem hp
    rw [List.nodup_middle, List.nodup_cons, List.mem_append, not_or] at hnodup
    have hother : ∀ us' : List ℕ, p ∉ us' →
        us'.flatMap (fun q => marks (childrenIn q ((p, t) :: hung)))
          = us'.flatMap fun q => marks (childrenIn q hung) := by
      intro us' hno
      apply List.flatMap_congr
      intro q hq
      rw [childrenIn, if_neg]
      rintro rfl
      exact hno hq
    rw [List.flatMap_append, List.flatMap_cons, hother front hnodup.1.1, hother back hnodup.1.2,
      childrenIn, if_pos rfl, marks_cons, List.map_cons]
    rw [List.flatMap_append, List.flatMap_cons] at hinner
    have hmark : (Task.mk t.head t.line t.content (childrenIn t.line hung)).mark = t.mark := rfl
    rw [hmark, Task.children_mk, List.cons_append, List.cons_append, List.append_assoc]
    apply List.perm_middle.trans
    apply List.Perm.cons
    exact (List.perm_append_comm_assoc ..).trans hinner

theorem mem_childrenIn {hung : List (ℕ × Task)} {v : Task} (h : v ∈ childrenIn p hung) :
    ∃ t, (p, t) ∈ hung ∧ v.mark = t.mark := by
  induction hung with
  | nil => simp [childrenIn] at h
  | cons x hung ih =>
    obtain ⟨q, t⟩ := x
    rw [childrenIn] at h
    split at h
    · next heq =>
      rcases List.mem_cons.1 h with rfl | h
      · exact ⟨t, heq ▸ List.mem_cons_self, rfl⟩
      · obtain ⟨u, hu, hmark⟩ := ih h
        exact ⟨u, List.mem_cons_of_mem _ hu, hmark⟩
    · obtain ⟨u, hu, hmark⟩ := ih h
      exact ⟨u, List.mem_cons_of_mem _ hu, hmark⟩

/-- The children of a task stand in the order they were hung in. -/
theorem sublist_childrenIn (p : ℕ) (hung : List (ℕ × Task)) :
    ((childrenIn p hung).map Task.mark).Sublist (hung.map (·.2.mark)) := by
  induction hung with
  | nil => simp [childrenIn]
  | cons x hung ih =>
    obtain ⟨q, t⟩ := x
    rw [childrenIn, List.map_cons]
    split
    · rw [List.map_cons]
      exact ih.cons_cons _
    · exact ih.cons _

/-- The tasks within the trees of a line, but their children, are those the loop hung. -/
theorem nodes_childrenIn {hung : List (ℕ × Task)} {v : Task}
    (h : v ∈ nodesOf (childrenIn p hung)) :
    ∃ rest, rest <:+ hung ∧ v.children = childrenIn v.line rest := by
  induction hung generalizing p with
  | nil => simp [childrenIn, nodesOf] at h
  | cons x hung ih =>
    obtain ⟨q, t⟩ := x
    have hlift : (∃ rest, rest <:+ hung ∧ v.children = childrenIn v.line rest) →
        ∃ rest, rest <:+ (q, t) :: hung ∧ v.children = childrenIn v.line rest := by
      rintro ⟨rest, hrest, hchildren⟩
      exact ⟨rest, hrest.trans (List.suffix_cons _ _), hchildren⟩
    rw [childrenIn] at h
    split at h
    · rw [nodesOf, nodes_eq, List.cons_append, List.mem_cons, List.mem_append] at h
      rcases h with rfl | h | h
      · exact ⟨hung, List.suffix_cons _ _, rfl⟩
      · exact hlift (ih h)
      · exact hlift (ih h)
    · exact hlift (ih h)

theorem subset_childrenIn (x : ℕ × Task) (hung : List (ℕ × Task)) (p : ℕ) :
    nodesOf (childrenIn p hung) ⊆ nodesOf (childrenIn p (x :: hung)) := by
  obtain ⟨q, t⟩ := x
  rw [childrenIn]
  split
  · rw [nodesOf]
    exact List.subset_append_right _ _
  · exact List.Subset.refl _

theorem map_subset_childrenIn (x : ℕ × Task) (hung : List (ℕ × Task)) (p : ℕ) :
    (childrenIn p hung).map Task.line ⊆ (childrenIn p (x :: hung)).map Task.line := by
  obtain ⟨q, t⟩ := x
  rw [childrenIn]
  split
  · exact List.subset_cons_self _ _
  · exact List.Subset.refl _

/-- Every task hung is a child of the task it hangs under, at a line reached or within its tree. -/
theorem exists_parent {us : List ℕ} {hung : List (ℕ × Task)} (hreach : Reaches us hung) {q : ℕ}
    (h : (q, t) ∈ hung) :
    q ∈ us ∧ t.line ∈ (childrenIn q hung).map Task.line
      ∨ ∃ p ∈ us, ∃ v ∈ nodesOf (childrenIn p hung), v.line = q
          ∧ t.line ∈ v.children.map Task.line := by
  induction hung generalizing us with
  | nil => simp at h
  | cons x hung ih =>
    obtain ⟨p, c⟩ := x
    obtain ⟨hp, hrest⟩ := hreach
    rcases List.mem_cons.1 h with heq | h
    · rw [Prod.mk.injEq] at heq
      obtain ⟨rfl, rfl⟩ := heq
      left
      refine ⟨hp, ?_⟩
      rw [childrenIn, if_pos rfl]
      exact List.mem_cons_self
    · have hsubset := subset_childrenIn (p, c) hung
      have hchild : nodesOf (childrenIn p ((p, c) :: hung))
          = .mk c.head c.line c.content (childrenIn c.line hung)
            :: nodesOf (childrenIn c.line hung) ++ nodesOf (childrenIn p hung) := by
        rw [childrenIn, if_pos rfl, nodesOf, nodes_eq]
        rfl
      rcases ih hrest h with ⟨hq, hline⟩ | ⟨r, hr, v, hv, hvline, hline⟩
      · rcases List.mem_cons.1 hq with rfl | hq
        · right
          refine ⟨p, hp, .mk c.head c.line c.content (childrenIn c.line hung), ?_, rfl, hline⟩
          rw [hchild]
          exact List.mem_cons_self
        · exact .inl ⟨hq, map_subset_childrenIn (p, c) hung q hline⟩
      · right
        rcases List.mem_cons.1 hr with rfl | hr
        · refine ⟨p, hp, v, ?_, hvline, hline⟩
          rw [hchild]
          exact List.mem_append_left _ (List.mem_cons_of_mem _ hv)
        · exact ⟨r, hr, v, hsubset r hv, hvline, hline⟩

/-! ## The sorted tasks -/

theorem not_sublist_swap {α : Type} {s : List α} (hs : s.Nodup) {a b : α}
    (hab : List.Sublist [a, b] s) (hba : List.Sublist [b, a] s) : False := by
  induction s with
  | nil => simp at hab
  | cons x s ih =>
    obtain ⟨hx, hs⟩ := List.nodup_cons.1 hs
    rw [List.sublist_cons_iff] at hab hba
    rcases hab with hab | ⟨r, hr, hab⟩
    · rcases hba with hba | ⟨r, hr, hba⟩
      · exact ih hs hab hba
      · rw [List.cons.injEq] at hr
        exact hx (hr.1 ▸ hab.mem (by simp))
    · rw [List.cons.injEq] at hr
      obtain ⟨rfl, rfl⟩ := hr
      rcases hba with hba | ⟨r, hr, hba⟩
      · exact hx (hba.mem (by simp))
      · rw [List.cons.injEq] at hr
        obtain ⟨rfl, rfl⟩ := hr
        exact hx (hba.mem (by simp))

theorem sublist_pair_or {α : Type} {s : List α} {a b : α} (ha : a ∈ s) (hb : b ∈ s) (hne : a ≠ b) :
    List.Sublist [a, b] s ∨ List.Sublist [b, a] s := by
  induction s with
  | nil => simp at ha
  | cons x s ih =>
    rcases List.mem_cons.1 ha with rfl | ha'
    · left
      exact (List.singleton_sublist.2 ((List.mem_cons.1 hb).resolve_left hne.symm)).cons_cons _
    · rcases List.mem_cons.1 hb with rfl | hb'
      · right
        exact (List.singleton_sublist.2 ha').cons_cons _
      · rcases ih ha' hb' with h | h
        · exact .inl (h.cons _)
        · exact .inr (h.cons _)

/-- A stable sort keeps the order of the elements that compare as equal. -/
theorem pairwise_mergeSort_stable {α : Type} {le : α → α → Bool} {r : α → α → Prop} {s : List α}
    (trans : ∀ a b c, le a b → le b c → le a c) (total : ∀ a b, le a b || le b a)
    (hr : s.Pairwise r) (hirrefl : ∀ a, ¬ r a a) :
    (s.mergeSort le).Pairwise fun a b => le a b ∧ (le b a → r a b) := by
  have hnodup : s.Nodup := by
    apply hr.imp
    rintro a _ hab rfl
    exact hirrefl a hab
  have hsorted := List.pairwise_mergeSort trans total s
  have hperm := List.mergeSort_perm s le
  rw [List.pairwise_iff_forall_sublist] at hsorted ⊢
  intro a b hab
  refine ⟨hsorted hab, ?_⟩
  intro hba
  have ha : a ∈ s := hperm.mem_iff.1 (hab.mem (by simp))
  have hb : b ∈ s := hperm.mem_iff.1 (hab.mem (by simp))
  have hnodup' := hperm.nodup_iff.2 hnodup
  have hne : a ≠ b := by
    rintro rfl
    have hdouble := hab.nodup hnodup'
    simp at hdouble
  rcases sublist_pair_or ha hb hne with h | h
  · exact List.pairwise_iff_forall_sublist.1 hr h
  · exact (not_sublist_swap hnodup' hab (List.pair_sublist_mergeSort trans total hba h)).elim

end Marotte.Spec
