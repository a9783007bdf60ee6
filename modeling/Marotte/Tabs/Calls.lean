import Marotte.Tabs.Integrity

/-! # What a call on the store makes of it

Each call of the store in one inductive: how it is refused, when it commits nothing, and what it
commits. A caller reads a call off these and unfolds none.
-/
namespace Marotte.Tabs

/-- What a tab shows, under the id it has. -/
def TabSubject.shows (t : TabSubject) : String × TabKind × String := (t.id, t.kind, t.ref)

/-- A call is refused, commits nothing, or commits its copy. -/
inductive Mutated {α : Type} (s : Store) (apply : List TabSubject → Except TabError (Applied α)) :
    Store × Except TabError (α × UInt64) → Prop
  | refused {s' : Store} (err : TabError) (h : s'.toTabState = s.toTabState) :
      Mutated s apply (s', .error err)
  | kept {a : Applied α} (ha : apply s.tabs = .ok a) (h : a.changed = false) :
      Mutated s apply (s, .ok (a.value, s.version))
  | committed {a : Applied α} {s' : Store} (ha : apply s.tabs = .ok a) (h : a.changed = true)
      (hs : s'.toTabState = { tabs := a.tabs, version := s.version + 1 }) :
      Mutated s apply (s', .ok (a.value, s.version + 1))

theorem mutated_of_eq {α : Type} {w : WriteOutcome} {s : Store}
    {apply : List TabSubject → Except TabError (Applied α)}
    {r : Store × Except TabError (α × UInt64)} (hr : mutate w s apply = r) :
    Mutated s apply r := by
  rw [← hr]
  unfold mutate
  cases ha : apply s.tabs with
  | error err => exact .refused err rfl
  | ok a =>
    by_cases hchanged : a.changed = false
    · simp only [hchanged, if_true]
      exact .kept ha hchanged
    · simp only [hchanged]
      cases w with
      | failed landed => exact .refused _ rfl
      | done => exact .committed ha (by simpa using hchanged) rfl

/-- An open finds the tab of its subject, or adds one under the minted id. -/
inductive Opened (s : Store) (newID : String) (spec : OpenTab) :
    Store × Except TabError ((TabSubject × Bool) × UInt64) → Prop
  | refused {s' : Store} (err : TabError) (h : s'.toTabState = s.toTabState) :
      Opened s newID spec (s', .error err)
  | found {t : TabSubject} (h : t ∈ s.tabs) (hkind : t.kind = spec.kind) (href : t.ref = spec.ref) :
      Opened s newID spec (s, .ok ((t, false), s.version))
  | opened {s' : Store} {t : TabSubject} (h : s'.tabs.Perm (t :: s.tabs)) (hid : t.id = newID)
      (hkind : t.kind = spec.kind) (href : t.ref = spec.ref)
      (hnew : (spec.kind, spec.ref) ∉ s.tabs.map fun u => (u.kind, u.ref))
      (hv : s'.version = s.version + 1) :
      Opened s newID spec (s', .ok ((t, true), s.version + 1))

theorem open_opened (w : WriteOutcome) (s : Store) (newID : String) (spec : OpenTab) :
    Opened s newID spec (open_ w s newID spec) := by
  unfold open_
  split
  · exact .refused _ rfl
  · generalize hr : mutate w s _ = r
    have h := mutated_of_eq hr
    cases h with
    | refused err h => exact .refused err h
    | kept ha h =>
      split at ha
      · next t hfind =>
        cases ha
        have hsubject : t.kind = spec.kind ∧ t.ref = spec.ref := by
          simpa using List.find?_some hfind
        exact .found (List.mem_of_find?_eq_some hfind) hsubject.1 hsubject.2
      · split at ha
        · cases ha
        · cases ha
          cases h
    | committed ha h hs =>
      split at ha
      · cases ha
        cases h
      · next hfind =>
        split at ha
        · cases ha
        · cases ha
          obtain ⟨hperm, hplaced⟩ := insertTab_perm s.tabs
            { id := newID, kind := spec.kind, ref := spec.ref, parent := spec.parent
              owns := spec.owns }
          have hshows : (insertTab s.tabs
              { id := newID, kind := spec.kind, ref := spec.ref, parent := spec.parent
                owns := spec.owns }).1.shows = (newID, spec.kind, spec.ref) := by
            rcases hplaced with h | ⟨h, -⟩
            · rw [h]
              rfl
            · rw [h]
              rfl
          have hnew : (spec.kind, spec.ref) ∉ s.tabs.map fun u => (u.kind, u.ref) := by
            intro hin
            obtain ⟨u, hu, heq⟩ := List.mem_map.1 hin
            obtain ⟨hkind, href⟩ := Prod.mk.inj heq
            exact List.find?_eq_none.1 hfind u hu (by simp [hkind, href])
          obtain ⟨hid, hsubject⟩ := Prod.mk.inj hshows
          obtain ⟨hkind, href⟩ := Prod.mk.inj hsubject
          refine .opened ?_ hid hkind href hnew (congrArg TabState.version hs)
          rw [congrArg TabState.tabs hs]
          exact hperm

/-- A close takes the closure out, or leaves the set. -/
inductive Closed (s : Store) (id : String) :
    Store × Except TabError (List TabSubject × UInt64) → Prop
  | refused {s' : Store} (err : TabError) (h : s'.toTabState = s.toTabState) :
      Closed s id (s', .error err)
  | absent (h : id ∉ s.tabs.map TabSubject.id) : Closed s id (s, .ok ([], s.version))
  | closed {s' : Store} (hid : id ∈ s.tabs.map TabSubject.id)
      (h : s'.toTabState = { tabs := s.tabs.filter fun t => t.id ∉ closure s.tabs id
                             version := s.version + 1 }) :
      Closed s id (s', .ok (s.tabs.filter fun t => t.id ∈ closure s.tabs id, s.version + 1))

theorem close_closed (w : WriteOutcome) (s : Store) (id : String) : Closed s id (close w s id) := by
  rw [close]
  generalize hr : mutate w s _ = r
  have h := mutated_of_eq hr
  cases h with
  | refused err h => exact .refused err h
  | kept ha h =>
    simp only at ha
    split at ha
    · next hnil =>
      cases ha
      exact .absent (closure_eq_nil.1 hnil)
    · cases ha
      cases h
  | committed ha h hs =>
    simp only at ha
    split at ha
    · cases ha
      cases h
    · next hnil =>
      cases ha
      exact .closed (by_contra fun hid => hnil (closure_eq_nil.2 hid)) hs

/-- A call that arranges is refused, commits nothing, or commits a set that is so related. -/
inductive Arranged (R : List TabSubject → List TabSubject → Prop) (s : Store) :
    Store × Except TabError (Unit × UInt64) → Prop
  | refused {s' : Store} (err : TabError) (h : s'.toTabState = s.toTabState) :
      Arranged R s (s', .error err)
  | kept : Arranged R s (s, .ok ((), s.version))
  | arranged {s' : Store} (h : R s.tabs s'.tabs) (hv : s'.version = s.version + 1) :
      Arranged R s (s', .ok ((), s.version + 1))

theorem reorder_arranged (w : WriteOutcome) (s : Store) (ids : List String) :
    Arranged (fun tabs tabs' => tabs'.Perm tabs) s (reorder w s ids) := by
  rw [reorder]
  generalize hr : mutate w s _ = r
  have h := mutated_of_eq hr
  cases h with
  | refused err h => exact .refused err h
  | kept ha h => exact .kept
  | committed ha h hs =>
    split at ha
    · cases ha
    · next hlen =>
      split at ha
      · cases ha
      · next hpick =>
        cases ha
        refine .arranged ?_ (congrArg TabState.version hs)
        rw [congrArg TabState.tabs hs]
        exact pick_perm hpick (not_ne_iff.1 hlen)

/-- One tab is rewritten, and shows what it did. -/
def Rewritten (id : String) (tabs tabs' : List TabSubject) : Prop :=
  ∃ t t' rest, tabs.Perm (t :: rest) ∧ tabs'.Perm (t' :: rest) ∧ t.id = id ∧ t'.shows = t.shows

theorem perm_cons_eraseP {tabs : List TabSubject} {id : String} {t : TabSubject}
    (h : tabs.find? (fun u => u.id = id) = some t) :
    tabs.Perm (t :: tabs.eraseP fun u => u.id = id) := by
  induction tabs with
  | nil => cases h
  | cons u tabs ih =>
    rw [List.find?_cons] at h
    rw [List.eraseP_cons]
    cases hu : decide (u.id = id) with
    | true =>
      rw [hu] at h
      cases h
      exact .refl _
    | false =>
      rw [hu] at h
      exact ((ih h).cons u).trans (.swap t u _)

theorem setPinned_arranged (w : WriteOutcome) (s : Store) (id : String) (pinned : Bool) :
    Arranged (Rewritten id) s (setPinned w s id pinned) := by
  rw [setPinned]
  generalize hr : mutate w s _ = r
  have h := mutated_of_eq hr
  cases h with
  | refused err h => exact .refused err h
  | kept ha h => exact .kept
  | committed ha h hs =>
    split at ha
    · cases ha
      cases h
    · next i hi =>
      split at ha
      · cases ha
        cases h
      · cases ha
        refine .arranged ?_ (congrArg TabState.version hs)
        rw [congrArg TabState.tabs hs]
        obtain ⟨hlt, hid, -⟩ := List.findIdx?_eq_some_iff_getElem.1 hi
        refine ⟨s.tabs[i], { s.tabs[i] with pinned }, s.tabs.eraseIdx i, ?_, ?_, ?_, rfl⟩
        · exact (List.getElem_cons_eraseIdx_perm hlt).symm
        · have hset : s.tabs.modify i (fun t => { t with pinned }) =
              s.tabs.set i { s.tabs[i] with pinned } := by
            rw [List.modify_eq_set_getElem?]
            simp [hlt]
          rw [hset]
          exact List.set_perm_cons_eraseIdx hlt _
        · exact of_decide_eq_true hid

theorem reparent_arranged (w : WriteOutcome) (s : Store) (id parent : String) :
    Arranged (Rewritten id) s (reparent w s id parent) := by
  rw [reparent]
  generalize hr : mutate w s _ = r
  have h := mutated_of_eq hr
  cases h with
  | refused err h => exact .refused err h
  | kept ha h => exact .kept
  | committed ha h hs =>
    split at ha
    · cases ha
    · next t hfind =>
      split at ha
      · cases ha
        cases h
      · split at ha
        · cases ha
        · cases ha
          refine .arranged ?_ (congrArg TabState.version hs)
          rw [congrArg TabState.tabs hs]
          obtain ⟨hperm, hplaced⟩ :=
            insertTab_perm (s.tabs.eraseP fun u => u.id = id) { t with parent }
          refine ⟨t, _, _, perm_cons_eraseP hfind, hperm, by simpa using List.find?_some hfind, ?_⟩
          rcases hplaced with h | ⟨h, -⟩
          · rw [h]
            rfl
          · rw [h]
            rfl

end Marotte.Tabs
