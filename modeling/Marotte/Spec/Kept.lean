import Marotte.Spec.Forest

/-! # What re-parenting keeps

Every task of the walk is in the forest once. A numbered task at the top hangs under a task of its
parent's number where there is one, and siblings under a number are in numeric order.
-/
namespace Marotte.Spec

open Runes

variable {tops ns : List Task} {t u v : Task} {p : ℕ}

/-! ## The numbered tasks at the top -/

theorem mem_numberedOf : t ∈ numberedOf tops ↔ t ∈ tops ∧ t.number ≠ [] := by
  rw [numberedOf, sortNumbers, List.mem_mergeSort, List.mem_filter, decide_eq_true_eq]

/-- Sorted tasks are in the order of their numbers, and in file order where these are equal. -/
def Sorted (ns : List Task) : Prop :=
  ns.Pairwise fun a b => (compareNumbers a.number b.number).isLE
    ∧ ((compareNumbers b.number a.number).isLE → a.line < b.line)

theorem sorted_numberedOf (h : tops.Pairwise fun a b => a.line < b.line) :
    Sorted (numberedOf tops) := by
  apply pairwise_mergeSort_stable
  · intro a b c
    exact Std.TransCmp.isLE_trans
  · intro a b
    have hswap : compareNumbers b.number a.number = (compareNumbers a.number b.number).swap :=
      Std.OrientedCmp.eq_swap
    rw [hswap]
    cases compareNumbers a.number b.number <;> rfl
  · exact h.filter _
  · intro a
    exact Nat.lt_irrefl _

theorem depth_le_of_isLE {a b : Bytes} (h : (compareNumbers a b).isLE) : depth a ≤ depth b := by
  by_contra hlt
  rw [compareNumbers, compareLex, compareOn, compare_gt_iff_gt.2 (by omega)] at h
  simp at h

theorem Sorted.depth_le (h : Sorted ns) :
    ns.Pairwise fun a b => depth a.number ≤ depth b.number :=
  h.imp fun hab => depth_le_of_isLE hab.1

/-! ## The tasks hung -/

/-- The tasks hung, each with the line of the task it hangs under. -/
def hungOf (ns : List Task) : List (ℕ × Task) :=
  ns.filterMap (entry ns)

theorem entry_eq_some {c : Task} (h : entry ns t = some (p, c)) :
    c = t ∧ depth t.number ≠ 1
      ∧ ∃ u ∈ ns, u.number = parentNumber t.number ∧ u.line = p := by
  rw [entry] at h
  split at h
  · contradiction
  · next hdepth =>
    rw [Option.map_eq_some_iff] at h
    obtain ⟨q, hlast, hpair⟩ := h
    rw [Prod.mk.injEq] at hpair
    obtain ⟨rfl, rfl⟩ := hpair
    exact ⟨rfl, hdepth, exists_of_lastLine hlast⟩

theorem mem_hungOf : (p, t) ∈ hungOf ns ↔ t ∈ ns ∧ entry ns t = some (p, t) := by
  rw [hungOf, List.mem_filterMap]
  constructor
  · rintro ⟨u, hu, hentry⟩
    obtain ⟨rfl, _⟩ := entry_eq_some hentry
    exact ⟨hu, hentry⟩
  · rintro ⟨ht, hentry⟩
    exact ⟨t, ht, hentry⟩

theorem map_hungOf (ns : List Task) :
    (hungOf ns).map Prod.snd = ns.filter fun t => (entry ns t).isSome := by
  have hmap : ∀ ts : List Task, (ts.filterMap (entry ns)).map Prod.snd
      = ts.filter fun t => (entry ns t).isSome := by
    intro ts
    induction ts with
    | nil => rfl
    | cons t ts ih =>
      cases h : entry ns t with
      | none => rw [List.filterMap_cons_none h, List.filter_cons_of_neg (by simp [h]), ih]
      | some x =>
        obtain ⟨p, c⟩ := x
        obtain ⟨rfl, _⟩ := entry_eq_some h
        rw [List.filterMap_cons_some h, List.filter_cons_of_pos (by simp [h]), List.map_cons, ih]
  exact hmap ns

/-- A task hangs under one sorted before it. -/
theorem reaches_entries {front back : List Task} {us : List ℕ} (hns : ns = front ++ back)
    (hsorted : Sorted ns) (hfront : ∀ u ∈ front, u.line ∈ us)
    (hroots : ∀ t ∈ back, entry ns t = none → t.line ∈ us) :
    Reaches us (back.filterMap (entry ns)) := by
  induction back generalizing front us with
  | nil => trivial
  | cons t back ih =>
    have hsplit : ns = (front ++ [t]) ++ back := by
      rw [hns, List.append_assoc, List.singleton_append]
    cases h : entry ns t with
    | none =>
      rw [List.filterMap_cons_none h]
      apply ih hsplit
      · intro u hu
        rw [List.mem_append, List.mem_singleton] at hu
        rcases hu with hu | rfl
        · exact hfront u hu
        · exact hroots u List.mem_cons_self h
      · exact fun u hu => hroots u (List.mem_cons_of_mem _ hu)
    | some x =>
      obtain ⟨p, c⟩ := x
      obtain ⟨rfl, hdepth, u, hu, hnumber, rfl⟩ := entry_eq_some h
      have hless := depth_parentNumber hdepth
      have hu' : u ∈ front := by
        rw [hns, List.mem_append] at hu
        rcases hu with hu | hu
        · exact hu
        · have hle := hsorted.depth_le
          rw [hns, List.pairwise_append, List.pairwise_cons] at hle
          rcases List.mem_cons.1 hu with rfl | hu
          · rw [← hnumber] at hless
            omega
          · have hstep := hle.2.1.1 u hu
            rw [hnumber] at hstep
            omega
      rw [List.filterMap_cons_some h]
      refine ⟨hfront u hu', ih hsplit ?_ ?_⟩
      · intro w hw
        rw [List.mem_append, List.mem_singleton] at hw
        rcases hw with hw | rfl
        · exact List.mem_cons_of_mem _ (hfront w hw)
        · exact List.mem_cons_self
      · exact fun w hw hnone => List.mem_cons_of_mem _ (hroots w (List.mem_cons_of_mem _ hw) hnone)

/-- The lines of the numbered tasks that are roots. -/
def rootLines (ns : List Task) : List ℕ :=
  (ns.filter fun t => (entry ns t).isNone).map Task.line

theorem reaches_hungOf (hsorted : Sorted ns) : Reaches (rootLines ns) (hungOf ns) := by
  apply reaches_entries (List.nil_append ns).symm hsorted
  · simp
  · intro t ht hnone
    apply List.mem_map_of_mem
    rw [List.mem_filter, hnone]
    exact ⟨ht, rfl⟩

/-! ## The pass -/

theorem hangAll_hung (h : Sorted (numberedOf tops)) :
    (hangAll tops).hung = hungOf (numberedOf tops) :=
  (foldl_step h.depth_le).2.1

/-- A task is a root unless it has a number and a task to hang under. -/
theorem isRoot_iff (h : Sorted (numberedOf tops)) (ht : t ∈ tops) :
    isRoot (hangAll tops) t = true ↔ t.number = [] ∨ entry (numberedOf tops) t = none := by
  have horphan := (foldl_step h.depth_le).2.2 t.number
  rw [isRoot, decide_eq_true_eq, hangAll, horphan]
  by_cases hnumber : t.number = []
  · simp [hnumber]
  · simp only [hnumber, false_or]
    by_cases hdepth : depth t.number = 1
    · simp [hdepth, entry]
    · have hentry : entry (numberedOf tops) t = none
          ↔ lastLine (numberedOf tops) (parentNumber t.number) = none := by
        rw [entry, if_neg hdepth, Option.map_eq_none_iff]
      rw [hentry]
      constructor
      · rintro (hone | ⟨_, _, _, _, hnone⟩)
        · contradiction
        · exact hnone
      · intro hnone
        exact .inr ⟨t, mem_numberedOf.2 ⟨ht, hnumber⟩, rfl, hdepth, hnone⟩

/-- What the walk gives the pass: its tasks in file order, those with a number without children. -/
structure Walked (tops : List Task) : Prop where
  ordered : (nodesOf tops).Pairwise fun a b => a.line < b.line
  bare : ∀ v ∈ nodesOf tops, v.Bare
  dotted : ∀ v ∈ nodesOf tops, IsDotted v.number

theorem isDotted_matchTaskLine {line : Bytes} {t : TaskLine} (h : matchTaskLine line = some t) :
    IsDotted t.number := by
  rw [matchTaskLine] at h
  split at h
  · contradiction
  · split at h
    · contradiction
    · injection h with h
      rw [← h]
      exact isDotted_taskNumber _

theorem isDotted_taskLines {place : ℕ} {lines : List Bytes} {x : TaskLine × ℕ}
    (h : x ∈ taskLines place lines) : IsDotted x.1.number := by
  induction lines generalizing place with
  | nil => simp [taskLines] at h
  | cons line lines ih =>
    rw [taskLines] at h
    split at h
    · next t hmatch =>
      rcases List.mem_cons.1 h with rfl | h
      · exact isDotted_matchTaskLine hmatch
      · exact ih h
    · exact ih h

theorem walked_walkTops (place : ℕ) (lines : List Bytes) : Walked (walkTops place lines) where
  ordered := pairwise_nodes_walkTops place lines
  bare := bare_walkTops place lines
  dotted := by
    intro v hv
    have hmark := List.mem_map_of_mem (f := Task.mark) hv
    rw [marks_walkTops] at hmark
    exact isDotted_taskLines hmark

namespace Walked

theorem top (h : Walked tops) : tops.Pairwise fun a b => a.line < b.line :=
  h.ordered.sublist (sublist_nodesOf tops)

theorem sorted (h : Walked tops) : Sorted (numberedOf tops) :=
  sorted_numberedOf h.top

theorem mem_nodes (ht : t ∈ tops) : t ∈ nodesOf tops :=
  (sublist_nodesOf tops).mem ht

/-- Tasks of one line are one task. -/
theorem eq_of_line (h : Walked tops) (hu : u ∈ nodesOf tops) (hv : v ∈ nodesOf tops)
    (hline : u.line = v.line) : u = v := by
  by_contra hne
  rcases sublist_pair_or hu hv hne with hsub | hsub
  · exact absurd (List.pairwise_iff_forall_sublist.1 h.ordered hsub) (by omega)
  · exact absurd (List.pairwise_iff_forall_sublist.1 h.ordered hsub) (by omega)

theorem nodup_numberedOf (h : Walked tops) : ((numberedOf tops).map Task.line).Nodup := by
  have hlines : ((tops.filter (·.number ≠ [])).map Task.line).Nodup := by
    rw [List.nodup_iff_pairwise_ne, List.pairwise_map]
    exact (h.top.filter _).imp Nat.ne_of_lt
  exact ((List.mergeSort_perm _ _).map _).nodup_iff.2 hlines

end Walked

theorem marks_flatMap (ts : List Task) : marks ts = ts.flatMap fun t => marks [t] := by
  induction ts with
  | nil => rfl
  | cons t ts ih =>
    rw [List.flatMap_cons, ← ih, marks_cons, marks_cons, marks_nil, List.append_nil]

theorem marks_bare {ts : List Task} (h : ∀ t ∈ ts, t.children = []) :
    marks ts = ts.map Task.mark := by
  induction ts with
  | nil => rfl
  | cons t ts ih =>
    rw [marks_cons, h t List.mem_cons_self, ih fun u hu => h u (List.mem_cons_of_mem _ hu)]
    rfl

theorem marks_rooted (hung : List (ℕ × Task)) (hnumber : t.number ≠ []) :
    marks [rooted hung t] = t.mark :: marks (childrenIn t.line hung) := by
  rw [rooted, if_neg hnumber, marks_cons, marks_nil, List.append_nil]
  rfl

/-- The numbered tasks that are roots and those hung are the numbered tasks. -/
theorem perm_roots_hung (h : Walked tops) :
    ((rootLines (numberedOf tops)).flatMap fun p =>
        marks (childrenIn p (hungOf (numberedOf tops)))).Perm
      (((numberedOf tops).filter fun t => (entry (numberedOf tops) t).isSome).map Task.mark) := by
  have hmap := map_hungOf (numberedOf tops)
  have hlines : (hungOf (numberedOf tops)).map (·.2.line)
      = ((numberedOf tops).filter fun t => (entry (numberedOf tops) t).isSome).map Task.line := by
    rw [← hmap, List.map_map]
    rfl
  have hnodup : ((numberedOf tops).filter fun t =>
      (entry (numberedOf tops) t).isSome).map Task.line |>.Nodup :=
    h.nodup_numberedOf.sublist (List.filter_sublist.map _)
  rw [← hmap, List.map_map]
  apply perm_childrenIn (reaches_hungOf h.sorted)
  · exact h.nodup_numberedOf.sublist (List.filter_sublist.map _)
  · rw [hlines]
    exact hnodup
  · rintro ⟨p, t⟩ hx hmem
    obtain ⟨ht, hentry⟩ := mem_hungOf.1 hx
    rw [rootLines, List.mem_map] at hmem
    obtain ⟨u, hu, hline⟩ := hmem
    rw [List.mem_filter] at hu
    have heq : u = t := h.eq_of_line (Walked.mem_nodes (mem_numberedOf.1 hu.1).1)
      (Walked.mem_nodes (mem_numberedOf.1 ht).1) hline
    rw [heq, hentry] at hu
    exact absurd hu.2 (by simp)

/-- The tasks at the top: the numbered ones that are roots, those hung, and those without a
number. -/
theorem perm_tops (h : Walked tops) :
    (tops.filter (isRoot (hangAll tops))).Perm
        ((numberedOf tops).filter (fun t => (entry (numberedOf tops) t).isNone)
          ++ tops.filter fun t => !decide (t.number ≠ []))
      ∧ tops.Perm
        ((numberedOf tops).filter (fun t => (entry (numberedOf tops) t).isNone)
          ++ (numberedOf tops).filter (fun t => (entry (numberedOf tops) t).isSome)
          ++ tops.filter fun t => !decide (t.number ≠ [])) := by
  have hns : (numberedOf tops).Perm (tops.filter (·.number ≠ [])) := List.mergeSort_perm _ _
  have hroots : (tops.filter (isRoot (hangAll tops))).filter (·.number ≠ [])
      = (tops.filter (·.number ≠ [])).filter fun t => (entry (numberedOf tops) t).isNone := by
    rw [List.filter_filter, List.filter_filter]
    apply List.filter_congr
    intro t ht
    rw [Bool.eq_iff_iff, Bool.and_eq_true, Bool.and_eq_true, isRoot_iff h.sorted ht,
      decide_eq_true_eq, Option.isNone_iff_eq_none]
    tauto
  have hrest : (tops.filter (isRoot (hangAll tops))).filter (fun t => !decide (t.number ≠ []))
      = tops.filter fun t => !decide (t.number ≠ []) := by
    rw [List.filter_filter]
    apply List.filter_congr
    intro t ht
    rw [Bool.eq_iff_iff, Bool.and_eq_true, isRoot_iff h.sorted ht, Bool.not_eq_true',
      decide_eq_false_iff_not, not_not]
    tauto
  constructor
  · apply (List.filter_append_perm (·.number ≠ []) _).symm.trans
    rw [hroots, hrest]
    exact (hns.symm.filter _).append_right _
  · apply (List.filter_append_perm (·.number ≠ []) tops).symm.trans
    apply List.Perm.append_right
    apply hns.symm.trans
    have hparts := List.filter_append_perm (fun t => (entry (numberedOf tops) t).isNone)
      (numberedOf tops)
    simp only [Option.not_isNone] at hparts
    exact hparts.symm

/-- The pass keeps every task. -/
theorem perm_reparent (h : Walked tops) : (marks (reparent tops)).Perm (marks tops) := by
  obtain ⟨hroots, htops⟩ := perm_tops h
  have hnumbered : ∀ t ∈ numberedOf tops, t.number ≠ [] := fun t ht => (mem_numberedOf.1 ht).2
  have hbare : ∀ t ∈ numberedOf tops, t.children = [] :=
    fun t ht => h.bare t (Walked.mem_nodes (mem_numberedOf.1 ht).1) (hnumbered t ht)
  rw [reparent, hangAll_hung h.sorted, marks_flatMap, List.flatMap_map, marks_flatMap tops]
  apply (hroots.flatMap_right _).trans
  apply List.Perm.trans _ (htops.flatMap_right _).symm
  rw [List.flatMap_append, List.flatMap_append, List.flatMap_append]
  apply List.Perm.append
  · rw [← marks_flatMap, ← marks_flatMap, marks_bare, marks_bare]
    · have hmarks : ((numberedOf tops).filter fun t => (entry (numberedOf tops) t).isNone).flatMap
            (fun t => marks [rooted (hungOf (numberedOf tops)) t])
          = ((numberedOf tops).filter fun t => (entry (numberedOf tops) t).isNone).flatMap
            fun t => t.mark :: marks (childrenIn t.line (hungOf (numberedOf tops))) := by
        apply List.flatMap_congr
        intro t ht
        exact marks_rooted _ (hnumbered t (List.mem_of_mem_filter ht))
      have hhung := perm_roots_hung h
      rw [rootLines, List.flatMap_map] at hhung
      rw [hmarks]
      exact (List.map_append_flatMap_perm _ _ _).symm.trans (hhung.append_left _)
    · exact fun t ht => hbare t (List.mem_of_mem_filter ht)
    · exact fun t ht => hbare t (List.mem_of_mem_filter ht)
  · apply List.Perm.of_eq
    apply List.flatMap_congr
    intro t ht
    rw [List.mem_filter, Bool.not_eq_true', decide_eq_false_iff_not, not_not] at ht
    rw [rooted, if_pos ht.2]

/-! ## Parents and siblings -/

/-- In the order of the numbers, and in file order where these are equal. -/
def Task.Before (a b : Task) : Prop :=
  List.compareLex compare (numberValues a.number) (numberValues b.number) = .lt
    ∨ List.compareLex compare (numberValues a.number) (numberValues b.number) = .eq
      ∧ a.line < b.line

/-- The mark of a task of the forest is that of a task of the walk. -/
theorem Walked.exists_mark (h : Walked tops) (hv : v ∈ nodesOf (reparent tops)) :
    ∃ u ∈ nodesOf tops, u.mark = v.mark := by
  have hmem : v.mark ∈ marks tops := (perm_reparent h).mem_iff.1 (List.mem_map_of_mem hv)
  exact List.mem_map.1 hmem

theorem mem_reparent (h : Walked tops) (ht : t ∈ tops)
    (hroot : t.number = [] ∨ entry (numberedOf tops) t = none) :
    rooted (hungOf (numberedOf tops)) t ∈ reparent tops := by
  rw [reparent, hangAll_hung h.sorted]
  exact List.mem_map_of_mem (List.mem_filter.2 ⟨ht, (isRoot_iff h.sorted ht).2 hroot⟩)

theorem nodesOf_subset_of_mem {ts : List Task} (ht : t ∈ ts) : t.nodes ⊆ nodesOf ts := by
  intro v hv
  rw [nodesOf_eq_flatMap, List.mem_flatMap]
  exact ⟨t, ht, hv⟩

/-- The children of a numbered task of the forest are tasks hung under it. -/
theorem children_reparent (h : Walked tops) (hv : v ∈ nodesOf (reparent tops))
    (hnumber : v.number ≠ []) :
    v.children = []
      ∨ ∃ rest, rest <:+ hungOf (numberedOf tops) ∧ v.children = childrenIn v.line rest := by
  rw [reparent, hangAll_hung h.sorted, nodesOf_eq_flatMap, List.mem_flatMap] at hv
  obtain ⟨r, hr, hv⟩ := hv
  obtain ⟨t, ht, rfl⟩ := List.mem_map.1 hr
  have htop := List.mem_of_mem_filter ht
  rw [rooted] at hv
  split at hv
  · left
    exact h.bare v (nodesOf_subset_of_mem htop hv) hnumber
  · right
    rw [nodes_eq, List.mem_cons] at hv
    rcases hv with rfl | hv
    · exact ⟨_, List.suffix_refl _, rfl⟩
    · exact nodes_childrenIn hv

/-- The tasks hung under a line all have the number whose last task is there as their parent's. -/
theorem depth_childrenIn (h : Walked tops) {rest : List (ℕ × Task)}
    (hrest : rest <:+ hungOf (numberedOf tops)) {a b : Task} (ha : a ∈ childrenIn p rest)
    (hb : b ∈ childrenIn p rest) : depth a.number = depth b.number := by
  have hdepth : ∀ {c : Task}, c ∈ childrenIn p rest → ∃ u ∈ tops, u.line = p
      ∧ depth u.number + 1 = depth c.number := by
    intro c hc
    obtain ⟨t, ht, hmark⟩ := mem_childrenIn hc
    obtain ⟨_, hentry⟩ := mem_hungOf.1 (hrest.mem ht)
    obtain ⟨_, hne, u, hu, hnumber, hline⟩ := entry_eq_some hentry
    have hhead : c.number = t.number := congrArg (fun m => m.1.number) hmark
    refine ⟨u, (mem_numberedOf.1 hu).1, hline, ?_⟩
    rw [hnumber, hhead]
    exact depth_parentNumber hne
  obtain ⟨u, hu, hline, hless⟩ := hdepth ha
  obtain ⟨w, hw, hline', hless'⟩ := hdepth hb
  have heq : u = w := h.eq_of_line (Walked.mem_nodes hu) (Walked.mem_nodes hw)
    (hline.trans hline'.symm)
  rw [heq] at hless
  omega

theorem compareNumbers_same_depth {a b : Bytes} (hdepth : depth a = depth b) (ha : IsDotted a)
    (hb : IsDotted b) :
    compareNumbers a b = List.compareLex compare (numberValues a) (numberValues b) := by
  rw [compareNumbers, compareLex, compareOn, compare_eq_iff_eq.2 hdepth, Ordering.eq_then,
    compareDotted_eq ha hb]

/-- Siblings under a number are in numeric order, and in file order where their numbers are
equal. -/
theorem siblings_reparent (h : Walked tops) (hv : v ∈ nodesOf (reparent tops))
    (hnumber : v.number ≠ []) : v.children.Pairwise Task.Before := by
  rcases children_reparent h hv hnumber with hnil | ⟨rest, hrest, hchildren⟩
  · rw [hnil]
    exact List.Pairwise.nil
  · rw [hchildren]
    have hmarks : ((childrenIn v.line rest).map Task.mark).Sublist
        ((numberedOf tops).map Task.mark) := by
      apply (sublist_childrenIn v.line rest).trans
      apply (hrest.sublist.map _).trans
      have hmap : (hungOf (numberedOf tops)).map (·.2.mark)
          = ((hungOf (numberedOf tops)).map Prod.snd).map Task.mark := by
        rw [List.map_map]
        rfl
      rw [hmap, map_hungOf]
      exact List.filter_sublist.map _
    have hsorted : ((numberedOf tops).map Task.mark).Pairwise fun a b =>
        (compareNumbers a.1.number b.1.number).isLE
          ∧ ((compareNumbers b.1.number a.1.number).isLE → a.2 < b.2) := by
      rw [List.pairwise_map]
      exact h.sorted
    have hpairwise := hsorted.sublist hmarks
    rw [List.pairwise_map] at hpairwise
    have hdotted : ∀ c ∈ childrenIn v.line rest, IsDotted c.number := by
      intro c hc
      rw [← hchildren] at hc
      obtain ⟨u, hu, hmark⟩ := h.exists_mark (children_subset hv hc)
      have hhead : u.number = c.number := congrArg (fun m => m.1.number) hmark
      rw [← hhead]
      exact h.dotted u hu
    apply hpairwise.imp_of_mem
    intro a b ha hb hab
    have hdepth := depth_childrenIn h hrest ha hb
    have hcompare := compareNumbers_same_depth hdepth (hdotted a ha) (hdotted b hb)
    have hswap : compareNumbers b.number a.number = (compareNumbers a.number b.number).swap :=
      Std.OrientedCmp.eq_swap
    rw [Task.Before, ← hcompare]
    change (compareNumbers a.number b.number).isLE
      ∧ ((compareNumbers b.number a.number).isLE → a.line < b.line) at hab
    rw [hswap] at hab
    cases hord : compareNumbers a.number b.number with
    | lt => exact .inl rfl
    | eq =>
      rw [hord] at hab
      exact .inr ⟨rfl, hab.2 rfl⟩
    | gt =>
      rw [hord] at hab
      exact absurd hab.1 (by decide)

/-- A numbered task at the top hangs under a task of its parent's number where a numbered task at
the top has it, and is a root otherwise. -/
theorem hangs_reparent (h : Walked tops) (ht : t ∈ tops) (hnumber : t.number ≠ []) :
    if depth t.number ≠ 1 ∧ ∃ u ∈ tops, u.number ≠ [] ∧ u.number = parentNumber t.number then
      ∃ v ∈ nodesOf (reparent tops), v.number = parentNumber t.number
        ∧ ∃ c ∈ v.children, c.mark = t.mark
    else ∃ r ∈ reparent tops, r.mark = t.mark := by
  have hns : t ∈ numberedOf tops := mem_numberedOf.2 ⟨ht, hnumber⟩
  split
  · next hparent =>
    obtain ⟨hdepth, w, hw, hwnumber, hwparent⟩ := hparent
    have hsome : (entry (numberedOf tops) t).isSome = true := by
      rw [entry, if_neg hdepth, Option.isSome_map]
      by_contra hnone
      rw [Option.not_isSome_iff_eq_none, lastLine_eq_none] at hnone
      exact hnone w (mem_numberedOf.2 ⟨hw, hwnumber⟩) hwparent
    obtain ⟨⟨p, c⟩, hentry⟩ := Option.isSome_iff_exists.1 hsome
    obtain ⟨rfl, _, u, hu, hunumber, hline⟩ := entry_eq_some hentry
    have hhung : (p, c) ∈ hungOf (numberedOf tops) := mem_hungOf.2 ⟨hns, hentry⟩
    have hexists : ∃ v ∈ nodesOf (reparent tops), v.line = p
        ∧ c.line ∈ v.children.map Task.line := by
      rcases exists_parent (reaches_hungOf h.sorted) hhung with ⟨hp, hc⟩ | ⟨q, hq, v, hv, hvp, hc⟩
      · obtain ⟨r, hr, rfl⟩ := List.mem_map.1 hp
        rw [List.mem_filter, Option.isNone_iff_eq_none, mem_numberedOf] at hr
        refine ⟨_, (sublist_nodesOf _).mem (mem_reparent h hr.1.1 (.inr hr.2)), ?_⟩
        rw [rooted, if_neg hr.1.2]
        exact ⟨rfl, hc⟩
      · obtain ⟨r, hr, rfl⟩ := List.mem_map.1 hq
        rw [List.mem_filter, Option.isNone_iff_eq_none, mem_numberedOf] at hr
        refine ⟨v, ?_, hvp, hc⟩
        apply nodesOf_subset_of_mem (mem_reparent h hr.1.1 (.inr hr.2))
        rw [rooted, if_neg hr.1.2, nodes_eq]
        exact List.mem_cons_of_mem _ hv
    obtain ⟨v, hv, hvline, hc⟩ := hexists
    have hmarkOf : ∀ {x y : Task}, x ∈ nodesOf (reparent tops) → y ∈ tops → x.line = y.line →
        x.mark = y.mark := by
      intro x y hx hy hline
      obtain ⟨z, hz, hmark⟩ := h.exists_mark hx
      have hzline : z.line = x.line := congrArg Prod.snd hmark
      rw [← hmark, h.eq_of_line hz (Walked.mem_nodes hy) (hzline.trans hline)]
    obtain ⟨d, hd, hdline⟩ := List.mem_map.1 hc
    have hvmark := hmarkOf hv (mem_numberedOf.1 hu).1 (hvline.trans hline.symm)
    refine ⟨v, hv, ?_, d, hd, hmarkOf (children_subset hv hd) ht hdline⟩
    rw [← hunumber]
    exact congrArg (fun m => m.1.number) hvmark
  · next hparent =>
    have hnone : entry (numberedOf tops) t = none := by
      cases hentry : entry (numberedOf tops) t with
      | none => rfl
      | some x =>
        obtain ⟨p, c⟩ := x
        obtain ⟨rfl, hdepth, u, hu, hunumber, _⟩ := entry_eq_some hentry
        obtain ⟨hu, hne⟩ := mem_numberedOf.1 hu
        exact absurd ⟨hdepth, u, hu, hne, hunumber⟩ hparent
    refine ⟨_, mem_reparent h ht (.inr hnone), ?_⟩
    rw [rooted, if_neg hnumber]
    rfl

/-! ## The forest of a document -/

theorem walk_eq (lines : List Bytes) :
    walk lines = reparent (walkTops 0 lines)
      ∨ walk lines = walkTops 0 lines ∧ ∀ t ∈ walkTops 0 lines, t.number = [] := by
  rw [walk]
  split
  · exact .inl rfl
  · next hnone =>
    right
    refine ⟨rfl, ?_⟩
    intro t ht
    by_contra hnumber
    exact hnone (List.any_eq_true.2 ⟨t, ht, by simpa using hnumber⟩)

/-- Every task line is in the forest once. -/
theorem perm_walk (lines : List Bytes) : (marks (walk lines)).Perm (taskLines 0 lines) := by
  have htops : marks (walkTops 0 lines) = taskLines 0 lines := marks_walkTops 0 lines
  rcases walk_eq lines with h | ⟨h, _⟩
  · rw [h, ← htops]
    exact perm_reparent (walked_walkTops 0 lines)
  · rw [h, htops]

theorem siblings_walk {lines : List Bytes} (hv : v ∈ nodesOf (walk lines))
    (hnumber : v.number ≠ []) : v.children.Pairwise Task.Before := by
  rcases walk_eq lines with h | ⟨h, _⟩
  · rw [h] at hv
    exact siblings_reparent (walked_walkTops 0 lines) hv hnumber
  · rw [h] at hv
    rw [(walked_walkTops 0 lines).bare v hv hnumber]
    exact List.Pairwise.nil

theorem hangs_walk {lines : List Bytes} (ht : t ∈ walkTops 0 lines) (hnumber : t.number ≠ []) :
    if depth t.number ≠ 1
        ∧ ∃ u ∈ walkTops 0 lines, u.number ≠ [] ∧ u.number = parentNumber t.number then
      ∃ v ∈ nodesOf (walk lines), v.number = parentNumber t.number
        ∧ ∃ c ∈ v.children, c.mark = t.mark
    else ∃ r ∈ walk lines, r.mark = t.mark := by
  rcases walk_eq lines with h | ⟨_, hnone⟩
  · rw [h]
    exact hangs_reparent (walked_walkTops 0 lines) ht hnumber
  · exact absurd (hnone t ht) hnumber

theorem nodup_lines_walk (lines : List Bytes) : ((nodesOf (walk lines)).map Task.line).Nodup := by
  have hplaces : ((taskLines 0 lines).map Prod.snd).Nodup := by
    rw [List.nodup_iff_pairwise_ne, List.pairwise_map]
    exact (pairwise_taskLines 0 lines).imp Nat.ne_of_lt
  have hlines : (marks (walk lines)).map Prod.snd = (nodesOf (walk lines)).map Task.line := by
    rw [marks, List.map_map]
    rfl
  rw [← hlines]
  exact ((perm_walk lines).map _).nodup_iff.2 hplaces

end Marotte.Spec
