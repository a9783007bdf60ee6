import Marotte.Command.Membership
import Marotte.Tabs.Calls

/-! # What an operation commits, and what it sends

Under the lock an operation leaves the set, or commits one change of it and sends the one frame that
tells the change.
-/
namespace Marotte.Command
open Tabs Tabs.Sync

namespace Membership

/-- An operation leaves the set, or commits one change of it and sends the frame that tells it. -/
inductive Commits (R : List TabSubject → List TabSubject → TabsChanged → Prop) (m : Membership) :
    Membership → Prop
  | kept {s : Store} (h : s.toTabState = m.tabs.toTabState) : Commits R m { m with tabs := s }
  | committed {s : Store} {f : TabsChanged} (hv : s.version = m.tabs.version + 1)
      (hf : f.version = s.version.toNat) (h : R m.tabs.tabs s.tabs f) :
      Commits R m ({ m with tabs := s }.emit f)

/-- One tab is added, and the frame carries it. -/
def Opens (newID : String) (spec : OpenTab) (tabs tabs' : List TabSubject) (f : TabsChanged) :
    Prop :=
  ∃ t, tabs'.Perm (t :: tabs) ∧ t.shows = (newID, spec.kind, spec.ref) ∧
    (spec.kind, spec.ref) ∉ tabs.map (fun u => (u.kind, u.ref)) ∧
    f.changed = some t ∧ f.removedIDs = none ∧ f.order = wireIDs (subjectIDs tabs')

/-- A subtree leaves, and the frame names its tabs. -/
def Closes (id : String) (tabs tabs' : List TabSubject) (f : TabsChanged) : Prop :=
  id ∈ tabs.map TabSubject.id ∧ tabs' = tabs.filter (fun t => t.id ∉ closure tabs id) ∧
    f.changed = none ∧
    f.removedIDs = wireIDs (subjectIDs (tabs.filter fun t => t.id ∈ closure tabs id)) ∧
    f.order = wireIDs (subjectIDs tabs')

/-- The order is another one, and the frame carries it. -/
def Reorders (tabs tabs' : List TabSubject) (f : TabsChanged) : Prop :=
  tabs'.Perm tabs ∧ f.changed = none ∧ f.removedIDs = none ∧ f.order = wireIDs (subjectIDs tabs')

/-- One tab is rewritten, and the frame carries it, with the order where its row may have moved. -/
def Rewrites (id : String) (tabs tabs' : List TabSubject) (f : TabsChanged) : Prop :=
  ∃ t t' rest, tabs.Perm (t :: rest) ∧ tabs'.Perm (t' :: rest) ∧ t.id = id ∧ t'.shows = t.shows ∧
    f.changed = some t' ∧ f.removedIDs = none ∧
    (f.order = none ∨ f.order = wireIDs (subjectIDs tabs'))

theorem openSubject_commits (m : Membership) (w : Tabs.WriteOutcome) (newID : String)
    (spec : OpenTab) (opID : String) :
    Commits (Opens newID spec) m (m.openSubject w newID spec opID).1 := by
  have h := open_opened w m.tabs newID spec
  unfold openSubject
  generalize open_ w m.tabs newID spec = r at h
  cases h with
  | refused err h => exact .kept h
  | found h hkind href => exact .kept rfl
  | opened h hid hkind href hnew hv =>
    apply Commits.committed hv
    · simp only [hv]
    · exact ⟨_, h, by rw [TabSubject.shows, hid, hkind, href], hnew, rfl, rfl, rfl⟩

theorem reorderTabs_commits (m : Membership) (ids : List String) (opID : String)
    (w : Tabs.WriteOutcome) : Commits Reorders m (m.reorderTabs ids opID w).1 := by
  have h := reorder_arranged w m.tabs ids
  unfold reorderTabs
  generalize reorder w m.tabs ids = r at h
  cases h with
  | refused err h => exact .kept h
  | kept => simpa using Commits.kept rfl
  | arranged h hv =>
    simp only
    rw [if_pos (by simp)]
    apply Commits.committed hv
    · simp only [hv]
    · exact ⟨h, rfl, rfl, rfl⟩

/-- The tab that a rewrite is read back as is the one that it wrote. -/
theorem subject_of_rewritten {m : Membership} {id : String} {t' : TabSubject}
    {rest : List TabSubject} (hids : (m.tabs.tabs.map TabSubject.id).Nodup)
    (h : m.tabs.tabs.Perm (t' :: rest)) (hid : t'.id = id) : m.subject id = some t' := by
  have hmem : t' ∈ m.tabs.tabs := h.mem_iff.2 List.mem_cons_self
  have hfind := Keyed.find_of_mem hids hmem
  rw [hid] at hfind
  exact hfind

theorem setPinned_commits (m : Membership) (id : String) (pinned : Bool) (opID : String)
    (w : Tabs.WriteOutcome) (hids : (m.tabs.tabs.map TabSubject.id).Nodup) :
    Commits (Rewrites id) m (m.setPinned id pinned opID w).1 := by
  unfold setPinned
  split
  · exact .kept rfl
  · have h := setPinned_arranged w m.tabs id pinned
    generalize Tabs.setPinned w m.tabs id pinned = r at h
    cases h with
    | refused err h => exact .kept h
    | kept => simpa using Commits.kept rfl
    | @arranged s h hv =>
      obtain ⟨t, t', rest, hold, hnew, hid, hshows⟩ := h
      have hid' : t'.id = id := (congrArg Prod.fst hshows).trans hid
      have hids' : (s.tabs.map TabSubject.id).Nodup := by
        rw [(hnew.map TabSubject.id).nodup_iff]
        rw [(hold.map TabSubject.id).nodup_iff] at hids
        rwa [List.map_cons, hid', ← hid]
      have hsubject : ({ m with tabs := s } : Membership).subject id = some t' :=
        subject_of_rewritten hids' hnew hid'
      simp only
      rw [if_pos (by simp), hsubject]
      apply Commits.committed hv
      · simp only [hv]
      · exact ⟨t, t', rest, hold, hnew, hid, hshows, rfl, rfl, .inl rfl⟩

theorem reparent_commits (m : Membership) (id parent opID : String) (w : Tabs.WriteOutcome)
    (hids : (m.tabs.tabs.map TabSubject.id).Nodup) :
    Commits (Rewrites id) m (m.reparent id parent opID w).1 := by
  unfold reparent
  split
  · exact .kept rfl
  · split
    · exact .kept rfl
    · have h := reparent_arranged w m.tabs id parent
      generalize Tabs.reparent w m.tabs id parent = r at h
      cases h with
      | refused err h => cases err <;> exact .kept h
      | kept =>
        simp only
        split
        · exact .kept rfl
        · simpa using Commits.kept rfl
      | @arranged s h hv =>
        obtain ⟨t, t', rest, hold, hnew, hid, hshows⟩ := h
        have hid' : t'.id = id := (congrArg Prod.fst hshows).trans hid
        have hids' : (s.tabs.map TabSubject.id).Nodup := by
          rw [(hnew.map TabSubject.id).nodup_iff]
          rw [(hold.map TabSubject.id).nodup_iff] at hids
          rwa [List.map_cons, hid', ← hid]
        have hsubject : ({ m with tabs := s } : Membership).subject id = some t' :=
          subject_of_rewritten hids' hnew hid'
        simp only
        rw [hsubject]
        simp only
        rw [if_pos (by simp)]
        apply Commits.committed hv
        · simp only [hv]
        · exact ⟨t, t', rest, hold, hnew, hid, hshows, rfl, rfl, .inr rfl⟩

/-- What a close leaves holds no tab of its id. -/
theorem id_notMem_close {tabs : List TabSubject} {id : String} :
    id ∉ (tabs.filter fun t => t.id ∉ closure tabs id).map TabSubject.id := by
  intro hmem
  obtain ⟨t, ht, rfl⟩ := List.mem_map.1 hmem
  obtain ⟨hopen, hout⟩ := List.mem_filter.1 ht
  exact of_decide_eq_true hout ((mem_closure (List.mem_map_of_mem hopen) t.id).2 .refl)

/-- What a close takes out holds the tab of its id. -/
theorem closed_ne_nil {tabs : List TabSubject} {id : String} (h : id ∈ tabs.map TabSubject.id) :
    (tabs.filter fun t => t.id ∈ closure tabs id) ≠ [] := by
  obtain ⟨t, ht, hid⟩ := List.mem_map.1 h
  have hself : t.id ∈ closure tabs id := by
    rw [hid]
    exact (mem_closure h id).2 .refl
  exact List.ne_nil_of_mem (List.mem_filter.2 ⟨ht, decide_eq_true hself⟩)

/-- The frame of a close that answered. -/
theorem commits_close {m : Membership} {s : Store} {id : String} {r : List TabSubject × UInt64}
    (h : Closed m.tabs id (s, .ok r)) (opID : String) :
    (r.1 = [] ∧ s = m.tabs ∧ id ∉ m.tabs.tabs.map TabSubject.id) ∨
      r.1 ≠ [] ∧ Commits (Closes id) m (({ m with tabs := s } : Membership).emit
        (({ m with tabs := s } : Membership).removedFrame r.1 r.2 opID)) ∧
      id ∉ s.tabs.map TabSubject.id := by
  cases h with
  | absent h => exact .inl ⟨rfl, rfl, h⟩
  | closed hid h =>
    have htabs : s.tabs = m.tabs.tabs.filter fun t => t.id ∉ closure m.tabs.tabs id :=
      congrArg TabState.tabs h
    have hv : s.version = m.tabs.version + 1 := congrArg TabState.version h
    refine .inr ⟨closed_ne_nil hid, ?_, ?_⟩
    · apply Commits.committed hv
      · simp only [removedFrame, hv]
      · exact ⟨hid, htabs, rfl, rfl, rfl⟩
    · rw [htabs]
      exact id_notMem_close

/-- A close of a tab whose chat is gone commits, or fails twice and is announced. -/
theorem closeDoomed_cases (m : Membership) (writes : Tabs.WriteOutcome × Tabs.WriteOutcome)
    (id opID : String) :
    (Commits (Closes id) m (m.closeDoomed writes id opID) ∧
        id ∉ (m.closeDoomed writes id opID).tabs.tabs.map TabSubject.id) ∨
      ∃ s f, s.toTabState = m.tabs.toTabState ∧
        m.closeDoomed writes id opID =
          ({ m with tabs := s, stranded := m.stranded ++ [id] } : Membership).emit f := by
  have hanswered : ∀ {s : Store} {r : List TabSubject × UInt64},
      Closed m.tabs id (s, .ok r) → ∀ m' : Membership,
      m' = (if r.1 = [] then { m with tabs := s } else ({ m with tabs := s } : Membership).emit
        (({ m with tabs := s } : Membership).removedFrame r.1 r.2 opID)) →
      Commits (Closes id) m m' ∧ id ∉ m'.tabs.tabs.map TabSubject.id := by
    rintro s r h m' rfl
    rcases commits_close h opID with ⟨hnil, rfl, hid⟩ | ⟨hne, hcommits, hid⟩
    · rw [if_pos hnil]
      exact ⟨.kept rfl, hid⟩
    · rw [if_neg hne]
      exact ⟨hcommits, hid⟩
  have h := close_closed writes.1 m.tabs id
  unfold closeDoomed
  generalize close writes.1 m.tabs id = r at h
  obtain ⟨s, r⟩ := r
  cases r with
  | ok r => exact .inl (hanswered h _ rfl)
  | error err =>
    have hs : s.toTabState = m.tabs.toTabState := by
      cases h with
      | refused _ h => exact h
    have h' := close_closed writes.2 s id
    simp only
    generalize close writes.2 s id = r' at h'
    obtain ⟨s', r'⟩ := r'
    have htabs : s.tabs = m.tabs.tabs := congrArg TabState.tabs hs
    have hv : s.version = m.tabs.version := congrArg TabState.version hs
    cases r' with
    | ok r' =>
      cases h' with
      | absent h => exact .inl ⟨.kept hs, h⟩
      | closed hid h =>
        rw [htabs] at hid
        rw [htabs, hv] at h ⊢
        exact .inl (hanswered (.closed hid h) _ rfl)
    | error err =>
      cases h' with
      | refused _ h => exact .inr ⟨s', _, h.trans hs, rfl⟩

end Membership
end Marotte.Command
