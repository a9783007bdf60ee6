import Marotte.Tabs.Store
import Mathlib.Data.List.Nodup
import Mathlib.Data.List.Perm.Basic
import Mathlib.Data.List.Perm.Subperm

/-! # What every run of the tab store keeps

An operation hands the write path a list whose tabs are those it was given, less some, with
one added or hung elsewhere. The invariants are of the tabs and not of their order.
-/
namespace Marotte.Tabs

open Relation

/-- Every id names one tab, and every subject has at most one. -/
structure Distinct (tabs : List TabSubject) : Prop where
  ids : (tabs.map TabSubject.id).Nodup
  subjects : (tabs.map (fun t => (t.kind, t.ref))).Nodup

/-- Every parent names an open tab. -/
def ParentsOpen (tabs : List TabSubject) : Prop :=
  ∀ t ∈ tabs, t.parent ≠ "" → t.parent ∈ tabs.map TabSubject.id

/-- One tab's id, and the id it hangs under. -/
def HangsUnder (tabs : List TabSubject) (a b : String) : Prop :=
  ∃ t ∈ tabs, t.id = a ∧ t.parent = b ∧ b ≠ ""

/-- No tab is its own ancestor. -/
def Rooted (tabs : List TabSubject) : Prop := Reach.Acyclic (HangsUnder tabs)

/-! ## The lists the operations build -/

theorem Distinct.perm {tabs tabs' : List TabSubject} (h : Distinct tabs) (hp : tabs'.Perm tabs) :
    Distinct tabs' :=
  ⟨(hp.map _).nodup_iff.mpr h.ids, (hp.map _).nodup_iff.mpr h.subjects⟩

theorem Distinct.sublist {tabs tabs' : List TabSubject} (h : Distinct tabs)
    (hs : tabs'.Sublist tabs) : Distinct tabs' :=
  ⟨h.ids.sublist (hs.map _), h.subjects.sublist (hs.map _)⟩

theorem Rooted.subset {tabs tabs' : List TabSubject} (h : Rooted tabs)
    (hs : ∀ t ∈ tabs', t ∈ tabs) : Rooted tabs' :=
  h.mono (fun _ _ ⟨t, ht, hab⟩ => ⟨t, hs t ht, hab⟩)

theorem ParentsOpen.perm {tabs tabs' : List TabSubject} (h : ParentsOpen tabs)
    (hp : tabs'.Perm tabs) : ParentsOpen tabs' := by
  intro t ht hne
  exact (hp.map _).mem_iff.mpr (h t (hp.mem_iff.mp ht) hne)

theorem indexOfID_eq_none {tabs : List TabSubject} {id : String} :
    indexOfID tabs id = none ↔ id ∉ tabs.map TabSubject.id := by
  simp [indexOfID]

/-- A placed tab is the one given or that one promoted, and its parent is open. -/
theorem insertTab_perm (tabs : List TabSubject) (sub : TabSubject) :
    (insertTab tabs sub).2.Perm ((insertTab tabs sub).1 :: tabs) ∧
      ((insertTab tabs sub).1 = { sub with parent := "" } ∨
        (insertTab tabs sub).1 = sub ∧ sub.parent ∈ tabs.map TabSubject.id) := by
  unfold insertTab
  split
  · exact ⟨List.perm_append_singleton _ _, .inl rfl⟩
  · rename_i i hi
    split at hi
    · cases hi
    · obtain ⟨hlt, hid, -⟩ := List.findIdx?_eq_some_iff_getElem.mp hi
      have hkids := List.takeWhile_prefix (fun t : TabSubject => decide (t.parent = sub.parent))
        (l := tabs.drop (i + 1))
      have hlen := hkids.length_le
      rw [List.length_drop] at hlen
      constructor
      · exact List.perm_insertIdx _ _ (by omega)
      · refine .inr ⟨rfl, ?_⟩
        rw [← of_decide_eq_true hid]
        exact List.mem_map_of_mem (List.getElem_mem hlt)

theorem mem_closure {tabs : List TabSubject} {id : String} (h : id ∈ tabs.map TabSubject.id)
    (x : String) : x ∈ closure tabs id ↔ ReflTransGen (HangsUnder tabs) x id := by
  have hrel : ∀ a b, b ∈ childIDs tabs a ↔ HangsUnder tabs b a := by
    intro a b
    simp only [childIDs, HangsUnder, List.mem_map, List.mem_filter, decide_eq_true_eq]
    grind
  have hsub : ∀ x, ∀ kid ∈ childIDs tabs x, kid ∈ tabs.map TabSubject.id := by
    intro x kid hkid
    obtain ⟨t, ht, rfl, -⟩ := (hrel x kid).mp hkid
    exact List.mem_map_of_mem ht
  rw [closure, if_neg (fun hn => indexOfID_eq_none.mp hn h),
    Reach.mem_walk_iff (childIDs tabs) hsub h (by simp), ← reflTransGen_swap]
  have hswap : (fun a b => b ∈ childIDs tabs a) = Function.swap (HangsUnder tabs) := by
    funext a b
    exact propext (hrel a b)
  rw [hswap]

theorem closure_eq_nil {tabs : List TabSubject} {id : String} :
    closure tabs id = [] ↔ id ∉ tabs.map TabSubject.id := by
  constructor
  · intro hnil hid
    have hself := (mem_closure hid id).mpr .refl
    simp [hnil] at hself
  · intro hid
    rw [closure, if_pos (indexOfID_eq_none.mpr hid)]

/-- What is left once a subtree is closed hangs under what is left. -/
theorem ParentsOpen.close {tabs : List TabSubject} (h : ParentsOpen tabs) (id : String) :
    ParentsOpen (tabs.filter (fun t => t.id ∉ closure tabs id)) := by
  intro t ht hne
  obtain ⟨hmem, hout⟩ := List.mem_filter.mp ht
  have hout : t.id ∉ closure tabs id := of_decide_eq_true hout
  obtain ⟨p, hp, hpid⟩ := List.mem_map.mp (h t hmem hne)
  apply List.mem_map.mpr
  refine ⟨p, List.mem_filter.mpr ⟨hp, ?_⟩, hpid⟩
  rw [decide_eq_true_eq, hpid]
  intro hin
  have hid : id ∈ tabs.map TabSubject.id := by
    by_contra hno
    rw [closure_eq_nil.mpr hno] at hin
    exact List.not_mem_nil hin
  exact hout ((mem_closure hid t.id).mpr
    (.head ⟨t, hmem, rfl, rfl, hne⟩ ((mem_closure hid t.parent).mp hin)))

/-! ## Picking an order -/

theorem pick_eq_ok {tabs next : List TabSubject} {seen ids : List String}
    (h : pick tabs seen ids = .ok next) :
    next.map TabSubject.id = ids ∧ ids.Nodup ∧ (∀ id ∈ ids, id ∉ seen) ∧ ∀ t ∈ next, t ∈ tabs := by
  induction ids generalizing seen next with
  | nil =>
    cases h
    simp
  | cons id ids ih =>
    unfold pick at h
    split at h
    · cases h
    · rename_i hseen
      split at h
      · cases h
      · rename_i t ht
        split at h
        · cases h
        · rename_i rest hrest
          cases h
          obtain ⟨hids, hnodup, hfresh, hsub⟩ := ih hrest
          have htid : t.id = id := by simpa using List.find?_some ht
          refine ⟨by simp [htid, hids], ?_, ?_, ?_⟩
          · exact List.nodup_cons.mpr ⟨fun hin => hfresh id hin (by simp), hnodup⟩
          · intro id' hid'
            rcases List.mem_cons.mp hid' with rfl | hid'
            · exact hseen
            · exact fun hin => hfresh id' hid' (List.mem_cons_of_mem _ hin)
          · intro u hu
            rcases List.mem_cons.mp hu with rfl | hu
            · exact List.mem_of_find?_eq_some ht
            · exact hsub u hu

/-- An order that names every tab once is a permutation of the set. -/
theorem pick_perm {tabs next : List TabSubject} {ids : List String}
    (h : pick tabs [] ids = .ok next) (hlen : ids.length = tabs.length) : next.Perm tabs := by
  obtain ⟨hids, hnodup, -, hsub⟩ := pick_eq_ok h
  have hn : next.Nodup := by
    rw [← hids] at hnodup
    exact List.Nodup.of_map _ hnodup
  apply (List.subperm_of_subset hn hsub).perm_of_length_le
  rw [← hlen, ← hids]
  simp

/-! ## What one call does -/

/-- A tab less what a pin changes. -/
def TabSubject.unpinned (t : TabSubject) : TabSubject := { t with pinned := false }

/-- What one call can make of the set. -/
inductive Change (tabs : List TabSubject) : List TabSubject → Prop
  | arranged {tabs' : List TabSubject}
      (h : (tabs'.map TabSubject.unpinned).Perm (tabs.map TabSubject.unpinned)) : Change tabs tabs'
  | opened {tabs' : List TabSubject} (t : TabSubject) (h : tabs'.Perm (t :: tabs))
      (hid : t.id ∉ tabs.map TabSubject.id) (hnamed : ∀ u ∈ tabs, u.parent ≠ t.id)
      (hsubject : (t.kind, t.ref) ∉ tabs.map (fun u => (u.kind, u.ref)))
      (hparent : t.parent = "" ∨ t.parent ∈ tabs.map TabSubject.id) : Change tabs tabs'
  | closed (id : String) : Change tabs (tabs.filter (fun t => t.id ∉ closure tabs id))
  | hung {tabs' : List TabSubject} (t : TabSubject) (rest : List TabSubject) (parent : String)
      (h : tabs.Perm (t :: rest)) (h' : tabs'.Perm ({ t with parent } :: rest))
      (hparent : parent = "" ∨ parent ∈ rest.map TabSubject.id ∧ parent ∉ closure tabs t.id) :
      Change tabs tabs'
  | pruned (keep : TabSubject → Bool) : Change tabs (promoteOrphans (tabs.filter keep)).1

theorem Change.refl (tabs : List TabSubject) : Change tabs tabs := .arranged (.refl _)

@[simp] theorem promoteOrphans_map {β : Type*} (tabs : List TabSubject) (f : TabSubject → β)
    (hf : ∀ t : TabSubject, f { t with parent := "" } = f t) :
    (promoteOrphans tabs).1.map f = tabs.map f := by
  rw [promoteOrphans, List.map_map]
  apply List.map_congr_left
  intro t _
  simp only [Function.comp_apply]
  split
  · exact hf t
  · rfl

theorem mem_promoteOrphans {tabs : List TabSubject} {t : TabSubject}
    (h : t ∈ (promoteOrphans tabs).1) :
    ∃ u ∈ tabs, t.id = u.id ∧ (t.parent = "" ∨ t.parent = u.parent ∧
      u.parent ∈ tabs.map TabSubject.id) := by
  obtain ⟨u, hu, rfl⟩ := List.mem_map.mp h
  refine ⟨u, hu, ?_⟩
  split
  · exact ⟨rfl, .inl rfl⟩
  · rename_i hno
    by_cases hp : u.parent = ""
    · exact ⟨rfl, .inl hp⟩
    · refine ⟨rfl, .inr ⟨rfl, ?_⟩⟩
      simpa [hp] using hno

/-- A prune that succeeds leaves no parent without its tab. -/
theorem parentsOpen_promoteOrphans (tabs : List TabSubject) :
    ParentsOpen (promoteOrphans tabs).1 := by
  intro t ht hne
  obtain ⟨u, -, -, hp | ⟨hp, hopen⟩⟩ := mem_promoteOrphans ht
  · exact absurd hp hne
  · rw [promoteOrphans_map _ _ (fun _ => rfl), hp]
    exact hopen

theorem Distinct.change {tabs tabs' : List TabSubject} (h : Distinct tabs)
    (hc : Change tabs tabs') : Distinct tabs' := by
  cases hc with
  | arranged hp =>
    have hids := (hp.map TabSubject.id).nodup_iff
    have hsubs := (hp.map (fun t => (t.kind, t.ref))).nodup_iff
    simp only [List.map_map] at hids hsubs
    exact ⟨hids.mpr h.ids, hsubs.mpr h.subjects⟩
  | opened t hp hid _ hsubject _ =>
    apply Distinct.perm _ hp
    exact ⟨List.nodup_cons.mpr ⟨hid, h.ids⟩, List.nodup_cons.mpr ⟨hsubject, h.subjects⟩⟩
  | closed id => exact h.sublist List.filter_sublist
  | hung t rest parent hp hp' _ =>
    have hd := h.perm hp.symm
    have hd' : Distinct ({ t with parent } :: rest) := ⟨hd.ids, hd.subjects⟩
    exact hd'.perm hp'
  | pruned keep =>
    have hd := h.sublist (List.filter_sublist (p := keep))
    constructor
    · rw [promoteOrphans_map _ _ (fun _ => rfl)]
      exact hd.ids
    · rw [promoteOrphans_map _ _ (fun _ => rfl)]
      exact hd.subjects

theorem ParentsOpen.change {tabs tabs' : List TabSubject} (h : ParentsOpen tabs)
    (hc : Change tabs tabs') : ParentsOpen tabs' := by
  cases hc with
  | arranged hp =>
    intro t ht hne
    have hids := (hp.map TabSubject.id).mem_iff (a := t.parent)
    simp only [List.map_map] at hids
    apply hids.mpr
    obtain ⟨u, hu, heq⟩ := List.mem_map.mp (hp.mem_iff.mp (List.mem_map_of_mem ht))
    have hpar : u.unpinned.parent = t.unpinned.parent := congrArg TabSubject.parent heq
    change u.parent = t.parent at hpar
    rw [← hpar] at hne ⊢
    exact h u hu hne
  | opened t hp _ _ _ hparent =>
    apply ParentsOpen.perm _ hp
    intro u hu hne
    rw [List.map_cons, List.mem_cons]
    rcases List.mem_cons.mp hu with rfl | hu
    · exact .inr (hparent.resolve_left hne)
    · exact .inr (h u hu hne)
  | closed id => exact h.close id
  | hung t rest parent hp hp' hparent =>
    apply ParentsOpen.perm _ hp'
    intro u hu hne
    rw [List.map_cons, List.mem_cons]
    rcases List.mem_cons.mp hu with rfl | hu
    · exact .inr (hparent.resolve_left hne).1
    · have hold := h u (hp.mem_iff.mpr (List.mem_cons_of_mem _ hu)) hne
      simpa using (hp.map TabSubject.id).mem_iff.mp hold
  | pruned keep => exact parentsOpen_promoteOrphans _

theorem Rooted.change {tabs tabs' : List TabSubject} (h : Rooted tabs) (hc : Change tabs tabs') :
    Rooted tabs' := by
  cases hc with
  | arranged hp =>
    apply Reach.Acyclic.mono h
    rintro a b ⟨t, ht, rfl, rfl, hne⟩
    obtain ⟨u, hu, heq⟩ := List.mem_map.mp (hp.mem_iff.mp (List.mem_map_of_mem ht))
    have hid : u.unpinned.id = t.unpinned.id := congrArg TabSubject.id heq
    have hpar : u.unpinned.parent = t.unpinned.parent := congrArg TabSubject.parent heq
    exact ⟨u, hu, hid, hpar, hne⟩
  | opened t hp hid hnamed _ hparent =>
    by_cases hne : t.parent = ""
    · apply Reach.Acyclic.mono h
      rintro a b ⟨u, hu, rfl, rfl, hb⟩
      rcases List.mem_cons.mp (hp.mem_iff.mp hu) with rfl | hu
      · exact absurd hne hb
      · exact ⟨u, hu, rfl, rfl, hb⟩
    · have hback : ¬ ReflTransGen (HangsUnder tabs) t.parent t.id := by
        intro hpath
        rcases hpath.cases_tail with heq | ⟨c, -, u, hu, -, hpar, -⟩
        · exact hid (heq ▸ hparent.resolve_left hne)
        · exact hnamed u hu hpar
      apply Reach.Acyclic.mono (Reach.Acyclic.edge h hback)
      rintro a b ⟨u, hu, rfl, rfl, hb⟩
      rcases List.mem_cons.mp (hp.mem_iff.mp hu) with rfl | hu
      · exact .inr ⟨rfl, rfl⟩
      · exact .inl ⟨u, hu, rfl, rfl, hb⟩
  | closed id => exact h.subset (fun t ht => (List.mem_filter.mp ht).1)
  | hung t rest parent hp hp' hparent =>
    have ht : t ∈ tabs := hp.mem_iff.mpr (by simp)
    have hedge : ∀ a b, HangsUnder tabs' a b →
        HangsUnder tabs a b ∨ (a = t.id ∧ b = parent ∧ parent ≠ "") := by
      rintro a b ⟨u, hu, rfl, rfl, hb⟩
      rcases List.mem_cons.mp (hp'.mem_iff.mp hu) with rfl | hu
      · exact .inr ⟨rfl, rfl, hb⟩
      · exact .inl ⟨u, hp.mem_iff.mpr (List.mem_cons_of_mem _ hu), rfl, rfl, hb⟩
    by_cases hne : parent = ""
    · exact h.mono (fun a b hab => (hedge a b hab).resolve_right (fun hno => hno.2.2 hne))
    · have hback : ¬ ReflTransGen (HangsUnder tabs) parent t.id := fun hpath =>
        (hparent.resolve_left hne).2 ((mem_closure (List.mem_map_of_mem ht) parent).mpr hpath)
      exact (Reach.Acyclic.edge h hback).mono
        (fun a b hab => (hedge a b hab).imp_right (fun hx => ⟨hx.1, hx.2.1⟩))
  | pruned keep =>
    apply Reach.Acyclic.mono h
    rintro a b ⟨t, ht, rfl, rfl, hne⟩
    obtain ⟨u, hu, hid, hp | ⟨hp, -⟩⟩ := mem_promoteOrphans ht
    · exact absurd hp hne
    · exact ⟨u, (List.mem_filter.mp hu).1, hid.symm, hp.symm, hne⟩

/-- A call leaves the store as it was, or takes its version one up with the set that it both
persists and publishes; one that answers an error leaves the set and the version. -/
structure Effect (s s' : Store) (ok : Bool) : Prop where
  outcome : s'.toTabState = s.toTabState ∨
    ok = true ∧ s'.version = s.version + 1 ∧ s'.disk = some s'.toTabState
  kept : s'.toTabState = s.toTabState → ok = true → s'.disk = s.disk
  refused : ok = false → s'.toTabState = s.toTabState

theorem mutate_effect {α : Type} (w : WriteOutcome) (s : Store)
    (apply : List TabSubject → Except TabError (Applied α)) :
    Effect s (mutate w s apply).1 (mutate w s apply).2.isOk := by
  unfold mutate
  split
  · exact ⟨.inl rfl, by simp, fun _ => rfl⟩
  · rename_i a _
    split
    · exact ⟨.inl rfl, by simp, fun _ => rfl⟩
    · cases w with
      | failed landed => exact ⟨.inl rfl, by simp [Except.isOk, Except.toBool], fun _ => rfl⟩
      | done =>
        refine ⟨.inr ⟨rfl, rfl, rfl⟩, ?_, by simp [Except.isOk, Except.toBool]⟩
        intro heq
        have hv : s.version + 1 = s.version := congrArg TabState.version heq
        simp at hv

theorem mutate_tabs {α : Type} (w : WriteOutcome) (s : Store)
    (apply : List TabSubject → Except TabError (Applied α)) :
    (mutate w s apply).1.tabs = s.tabs ∨
      ∃ a, apply s.tabs = .ok a ∧ a.changed = true ∧ (mutate w s apply).1.tabs = a.tabs := by
  unfold mutate
  split
  · exact .inl rfl
  · rename_i a ha
    split
    · exact .inl rfl
    · rename_i hchanged
      cases w with
      | failed landed => exact .inl rfl
      | done => exact .inr ⟨a, ha, by simpa using hchanged, rfl⟩

/-- The id an open would mint is new to the set: it names no tab and no parent. -/
def Mints (s : Store) : TabOp → Prop
  | .open newID _ => newID ≠ "" ∧ newID ∉ s.tabs.map TabSubject.id ∧
      ∀ t ∈ s.tabs, t.parent ≠ newID
  | _ => True

theorem step_effect (s : Store) (op : TabOp) (w : WriteOutcome) :
    Effect s (step s (op, w)).1 (step s (op, w)).2 := by
  cases op with
  | «open» newID spec =>
    change Effect s (open_ w s newID spec).1 (open_ w s newID spec).2.isOk
    unfold open_
    split
    · exact ⟨.inl rfl, by simp, fun _ => rfl⟩
    · exact mutate_effect w s _
  | close id => exact mutate_effect w s _
  | reorder ids => exact mutate_effect w s _
  | setPinned id pinned => exact mutate_effect w s _
  | reparent id parent => exact mutate_effect w s _
  | prune exists_ => exact mutate_effect w s _

theorem open_change {w : WriteOutcome} {s : Store} {newID : String} {spec : OpenTab}
    (hm : Mints s (.open newID spec)) : Change s.tabs (open_ w s newID spec).1.tabs := by
  obtain ⟨-, hid, hnamed⟩ := hm
  unfold open_
  split
  · exact .refl _
  · rcases mutate_tabs w s _ with heq | ⟨a, ha, -, heq⟩
    · rw [heq]
      exact .refl _
    · rw [heq]
      split at ha
      · cases ha
        exact .refl _
      · rename_i hfind
        split at ha
        · cases ha
        · cases ha
          obtain ⟨hp, hplaced⟩ := insertTab_perm s.tabs
            { id := newID, kind := spec.kind, ref := spec.ref, parent := spec.parent
              owns := spec.owns }
          have hsubject : (spec.kind, spec.ref) ∉ s.tabs.map (fun u => (u.kind, u.ref)) := by
            intro hin
            obtain ⟨u, hu, heq'⟩ := List.mem_map.mp hin
            obtain ⟨hkind, href⟩ := Prod.mk.inj heq'
            exact List.find?_eq_none.mp hfind u hu (by simp [hkind, href])
          rcases hplaced with hsub | ⟨hsub, hparent⟩
          · rw [hsub] at hp
            exact .opened _ hp hid hnamed hsubject (.inl rfl)
          · rw [hsub] at hp
            exact .opened _ hp hid hnamed hsubject (.inr hparent)

theorem close_change (w : WriteOutcome) (s : Store) (id : String) :
    Change s.tabs (close w s id).1.tabs := by
  rcases mutate_tabs w s _ with heq | ⟨a, ha, -, heq⟩
  · rw [close, heq]
    exact .refl _
  · rw [close, heq]
    simp only at ha
    split at ha
    · cases ha
      exact .refl _
    · cases ha
      exact .closed id

theorem reorder_change (w : WriteOutcome) (s : Store) (ids : List String) :
    Change s.tabs (reorder w s ids).1.tabs := by
  rcases mutate_tabs w s _ with heq | ⟨a, ha, -, heq⟩
  · rw [reorder, heq]
    exact .refl _
  · rw [reorder, heq]
    split at ha
    · cases ha
    · rename_i hlen
      split at ha
      · cases ha
      · rename_i next hnext
        cases ha
        exact .arranged ((pick_perm hnext (by simpa using hlen)).map _)

theorem setPinned_change (w : WriteOutcome) (s : Store) (id : String) (pinned : Bool) :
    Change s.tabs (setPinned w s id pinned).1.tabs := by
  rcases mutate_tabs w s _ with heq | ⟨a, ha, -, heq⟩
  · rw [setPinned, heq]
    exact .refl _
  · rw [setPinned, heq]
    split at ha
    · cases ha
      exact .refl _
    · rename_i i _
      split at ha
      · cases ha
        exact .refl _
      · cases ha
        apply Change.arranged
        have hmap : (s.tabs.modify i (fun t => { t with pinned })).map TabSubject.unpinned =
            s.tabs.map TabSubject.unpinned := by
          apply List.ext_getElem?
          intro j
          rw [List.getElem?_map, List.getElem?_map, List.getElem?_modify]
          cases s.tabs[j]? with
          | none => simp
          | some t => by_cases hj : i = j <;> simp [hj, TabSubject.unpinned]
        rw [hmap]

theorem reparent_change (w : WriteOutcome) (s : Store) (id parent : String) :
    Change s.tabs (reparent w s id parent).1.tabs := by
  rcases mutate_tabs w s _ with heq | ⟨a, ha, -, heq⟩
  · rw [reparent, heq]
    exact .refl _
  · rw [reparent, heq]
    split at ha
    · cases ha
    · rename_i t ht
      split at ha
      · cases ha
        exact .refl _
      · split at ha
        · cases ha
        · rename_i hcycle
          cases ha
          have htid : t.id = id := by simpa using List.find?_some ht
          have hmem : t ∈ s.tabs := List.mem_of_find?_eq_some ht
          have hp : s.tabs.Perm (t :: s.tabs.eraseP (fun u => u.id = id)) := by
            obtain ⟨u, as, bs, has, hu, htabs, herase⟩ :=
              List.exists_of_eraseP (p := fun u : TabSubject => decide (u.id = id)) hmem
                (by simpa using htid)
            have hfind : s.tabs.find? (fun u => u.id = id) = some u := by
              rw [htabs, List.find?_append, List.find?_eq_none.mpr (by simpa using has),
                Option.none_or]
              exact List.find?_cons_of_pos hu
            have htu : t = u := Option.some.inj (ht.symm.trans hfind)
            rw [herase, htabs, htu]
            exact List.perm_middle
          rw [← htid] at hcycle
          obtain ⟨hq, hplaced⟩ := insertTab_perm (s.tabs.eraseP (fun u => u.id = id))
            { t with parent := parent }
          rcases hplaced with hsub | ⟨hsub, hparent⟩
          · rw [hsub] at hq
            exact .hung t _ "" hp hq (.inl rfl)
          · rw [hsub] at hq
            exact .hung t _ parent hp hq (.inr ⟨hparent, hcycle⟩)

theorem prune_change (w : WriteOutcome) (s : Store) (exists_ : Option (TabSubject → Bool)) :
    Change s.tabs (prune w s exists_).1.tabs := by
  rcases mutate_tabs w s _ with heq | ⟨a, ha, -, heq⟩
  · rw [prune, heq]
    exact .refl _
  · rw [prune, heq]
    simp only at ha
    split at ha
    · cases ha
      exact .refl _
    · cases ha
      exact .pruned _

theorem step_change {s : Store} {op : TabOp} (hm : Mints s op) (w : WriteOutcome) :
    Change s.tabs (step s (op, w)).1.tabs := by
  cases op with
  | «open» newID spec => exact open_change hm
  | close id => exact close_change w s id
  | reorder ids => exact reorder_change w s ids
  | setPinned id pinned => exact setPinned_change w s id pinned
  | reparent id parent => exact reparent_change w s id parent
  | prune exists_ => exact prune_change w s exists_

/-- A prune that answers leaves every parent open. -/
theorem parentsOpen_prune {w : WriteOutcome} {s : Store} {exists_ : Option (TabSubject → Bool)}
    (hok : (prune w s exists_).2.isOk = true) : ParentsOpen (prune w s exists_).1.tabs := by
  unfold prune mutate at hok ⊢
  simp only at hok ⊢
  split
  · rename_i heq
    rw [heq] at hok
    simp [Except.isOk, Except.toBool] at hok
  · rename_i a ha
    rw [ha] at hok
    split at ha
    · rename_i hsame
      cases ha
      simp only [if_true]
      obtain ⟨hgone, hzero⟩ := hsame
      intro t ht hne
      have hkept : s.tabs.filter (exists_.getD (fun _ => true)) = s.tabs := by
        rw [List.filter_eq_self]
        intro u hu
        have := List.filter_eq_nil_iff.mp hgone u hu
        simpa using this
      rw [hkept] at hzero
      have hno := List.countP_eq_zero.mp hzero t ht
      simpa [hne] using hno
    · cases ha
      cases w with
      | failed landed => simp [Except.isOk, Except.toBool] at hok
      | done => exact parentsOpen_promoteOrphans _

/-! ## Every run from a loaded file -/

theorem distinct_sanitizeFrom {out : List TabSubject} (rest : List TabSubject)
    (h : Distinct out) : Distinct (sanitizeFrom out rest) := by
  have hadd : ∀ {out : List TabSubject} {t : TabSubject}, Distinct out →
      ¬ (out.any (fun u => u.id = t.id)) = true →
      ¬ (out.any (fun u => u.kind = t.kind ∧ u.ref = t.ref)) = true → Distinct (out ++ [t]) := by
    intro out t hd hid hsub
    apply Distinct.perm _ (List.perm_append_singleton _ _)
    refine ⟨List.nodup_cons.mpr ⟨?_, hd.ids⟩, List.nodup_cons.mpr ⟨?_, hd.subjects⟩⟩
    · simpa using hid
    · simpa using hsub
  induction rest generalizing out with
  | nil => exact h
  | cons t rest ih =>
    unfold sanitizeFrom
    split
    · exact ih h
    split
    · exact ih h
    split
    · exact ih h
    split
    · exact ih h
    rename_i hid hsub
    split
    · exact hadd h hid hsub
    · exact ih (hadd h hid hsub)

theorem distinct_newStore (doc : Option TabState) : Distinct (newStore doc).tabs := by
  cases doc with
  | none => exact ⟨List.nodup_nil, List.nodup_nil⟩
  | some doc => exact distinct_sanitizeFrom doc.tabs ⟨List.nodup_nil, List.nodup_nil⟩

/-- Every open of a run mints an id that is new to the set it meets. -/
def MintsAll : Store → List (TabOp × WriteOutcome) → Prop
  | _, [] => True
  | s, call :: calls => Mints s call.1 ∧ MintsAll (step s call).1 calls

/-- Some call of a run is a prune that answers. -/
def Prunes : Store → List (TabOp × WriteOutcome) → Prop
  | _, [] => False
  | s, call :: calls =>
    (∃ exists_, call.1 = .prune exists_) ∧ (step s call).2 = true ∨ Prunes (step s call).1 calls

/-- What one change keeps, a run keeps. -/
theorem run_keeps {P : List TabSubject → Prop}
    (hP : ∀ tabs tabs', P tabs → Change tabs tabs' → P tabs') {s : Store} (hs : P s.tabs)
    {calls : List (TabOp × WriteOutcome)} (hm : MintsAll s calls) : P (run s calls).tabs := by
  induction calls generalizing s with
  | nil => exact hs
  | cons call calls ih => exact ih (hP _ _ hs (step_change hm.1 call.2)) hm.2

theorem parentsOpen_run {s : Store} {calls : List (TabOp × WriteOutcome)} (hm : MintsAll s calls)
    (hp : Prunes s calls) : ParentsOpen (run s calls).tabs := by
  induction calls generalizing s with
  | nil => exact hp.elim
  | cons call calls ih =>
    rcases hp with ⟨⟨exists_, hop⟩, hok⟩ | hp
    · obtain ⟨op, w⟩ := call
      subst hop
      exact run_keeps (fun _ _ h hc => h.change hc) (parentsOpen_prune hok) hm.2
    · exact ih hm.2 hp

end Marotte.Tabs
