import Marotte.Command.Commits
import Marotte.Library.Along
import Marotte.Library.Grouping

/-! # The record is the gate

Every open chat tab names a chat whose record exists, but for the tabs that a purge has still to
close and those that two failed writes left behind. A close tears down each chat whose tab leaves
exactly once, in the grade that its record's fate asks for.
-/
namespace Marotte.Command
open Tabs Tabs.Sync

/-! ## Records -/

namespace ChatStore

variable {s s' : ChatStore}

theorem get_id {chatID : String} {c : ChatHeader} (h : s.get chatID = some c) : c.id = chatID :=
  Keyed.key_of_find h

theorem get_remove_of_ne {now : ℕ} {chatID id : String} (h : id ≠ chatID) :
    (s.remove now chatID).get id = s.get id := by
  unfold remove
  split
  · rfl
  · exact Keyed.find_erase_of_ne h

theorem get_remove_self {now : ℕ} {chatID : String} : (s.remove now chatID).get chatID = none := by
  unfold remove
  split
  · next h => exact Option.isNone_iff_eq_none.1 h
  · exact Keyed.find_erase_self

/-- A delete removes the record, or it fails and nothing changes. -/
theorem delete_cases (s : ChatStore) (now : ℕ) (chatID : String) (removes : Bool) :
    s.delete now chatID removes = (s.remove now chatID, true) ∨
      (s.delete now chatID removes = (s, false) ∧ removes = false) := by
  unfold delete
  split
  · next h => exact .inr ⟨rfl, h.2⟩
  · exact .inl rfl

theorem get_delete_of_ne {now : ℕ} {chatID id : String} {removes : Bool} (h : id ≠ chatID) :
    (s.delete now chatID removes).1.get id = s.get id := by
  rcases delete_cases s now chatID removes with hdelete | ⟨hdelete, -⟩
  · rw [hdelete]
    exact get_remove_of_ne h
  · rw [hdelete]

/-- A create keeps what is there, and answers with its own record there. -/
theorem get_create {now : ℕ} {c : ChatHeader} {saved : Bool} (h : s.create now c saved = .ok s') :
    (∀ id, (s.get id).isSome → s'.get id = s.get id) ∧ (s'.get c.id).isSome := by
  unfold create at h
  split at h
  · next hsome =>
    cases h
    exact ⟨fun _ _ => rfl, hsome⟩
  · next hnone =>
    split at h
    · cases h
    · split at h
      · cases h
      · cases h
        refine ⟨fun id hid => Keyed.find_set_of_ne fun heq => hnone (heq ▸ hid), ?_⟩
        rw [get, Keyed.find_set_key]
        rfl

end ChatStore

namespace Membership

/-- The chat that a create asks for, with the ledger it leaves. -/
def resolveChat (m : Membership) (req : ChatCreate) (minted : String) : List CreateOp × String :=
  if (m.priorChat req).1 = "" then
    ((CreateOp.resolve m.ops m.clock req.opID minted).1,
      (CreateOp.resolve m.ops m.clock req.opID minted).2.1)
  else (m.ops, (m.priorChat req).1)

/-- How a create ends: refused before the ledger is asked, refused the record, or with the record
there, when it opens the tab. -/
inductive Created (m : Membership) (req : ChatCreate) (minted newID : String) (saved : Bool)
    (w : Tabs.WriteOutcome) : Membership × Except StatusError ChatOpened → Prop
  | refused (err : StatusError) : Created m req minted newID saved w (m, .error err)
  | unrecorded {err : ChatStore.MutateError}
      (h : m.chats.create m.clock
        { id := (m.resolveChat req minted).2, sessionChain := req.sessionChain } saved =
          .error err) :
      Created m req minted newID saved w
        ({ m with ops := (m.resolveChat req minted).1 },
          .error { status := 500, err := .record err })
  | recorded {chats : ChatStore} {chat : ChatHeader}
      (h : m.chats.create m.clock
        { id := (m.resolveChat req minted).2, sessionChain := req.sessionChain } saved = .ok chats)
      (hget : chats.get (m.resolveChat req minted).2 = some chat)
      {m' : Membership} {r : Except StatusError TabOpened} {spec : OpenTab}
      (hkind : spec.kind = .chat) (href : spec.ref = (m.resolveChat req minted).2)
      (hopen : ({ m with ops := (m.resolveChat req minted).1, chats } : Membership).openSubject w
        newID spec req.opID = (m', r)) :
      Created m req minted newID saved w
        (m', r.map fun opened =>
          { chat, subject := opened.subject, version := opened.version
            replay := (m.priorChat req).2 })

theorem createChatAndOpen_created (m : Membership) (req : ChatCreate) (minted newID : String)
    (saved : Bool) (w : Tabs.WriteOutcome) :
    Created m req minted newID saved w (m.createChatAndOpen req minted newID saved w) := by
  unfold createChatAndOpen
  simp only
  split
  · exact .refused _
  · split
    · exact .refused _
    · generalize hp : (if (m.priorChat req).1 = "" then _ else _ : List CreateOp × String) = p
      have hresolve : p = m.resolveChat req minted := by
        rw [← hp, resolveChat]
      rw [hresolve]
      split
      · next err hcreate => exact .unrecorded hcreate
      · next chats hcreate =>
        split
        · next hnone =>
          have hsome := (ChatStore.get_create hcreate).2
          simp only at hsome
          rw [hnone] at hsome
          exact absurd hsome Bool.false_ne_true
        · next chat hget =>
          generalize hopen : Membership.openSubject _ w newID _ req.opID = r
          obtain ⟨m', r⟩ := r
          cases r with
          | error err => exact .recorded hcreate hget rfl rfl hopen
          | ok opened => exact .recorded hcreate hget rfl rfl hopen

/-- Every open chat tab names a record, or is one that a purge has still to close or that two failed
writes left open. -/
def Grounded (m : Membership) : Prop :=
  ∀ t ∈ m.tabs.tabs, t.kind = .chat → (m.chats.get t.ref).isSome ∨
    t.ref ∈ m.purged.map ChatHeader.id ∨ t.id ∈ m.stranded

/-- What an operation under the lock leaves alone. -/
structure Beside (m m' : Membership) : Prop where
  chats : m'.chats = m.chats
  purged : m'.purged = m.purged
  stranded : m'.stranded = m.stranded

variable {m m' : Membership} {R : List TabSubject → List TabSubject → TabsChanged → Prop}

theorem Commits.beside (h : Commits R m m') : Beside m m' := by
  cases h with
  | kept h => exact ⟨rfl, rfl, rfl⟩
  | committed hv hf h => exact ⟨rfl, rfl, rfl⟩

theorem Commits.tabs (h : Commits R m m') :
    m'.tabs.tabs = m.tabs.tabs ∨ ∃ f, R m.tabs.tabs m'.tabs.tabs f := by
  cases h with
  | kept h => exact .inl (congrArg TabState.tabs h)
  | committed hv hf h => exact .inr ⟨_, h⟩

/-- The tabs of one set show what tabs of the other do. -/
def Shown (tabs tabs' : List TabSubject) : Prop :=
  ∀ t ∈ tabs', t.shows ∈ tabs.map TabSubject.shows

theorem Reorders.shown {tabs tabs' : List TabSubject} {f : TabsChanged}
    (h : Reorders tabs tabs' f) : Shown tabs tabs' :=
  fun _ ht => List.mem_map_of_mem (h.1.mem_iff.1 ht)

theorem Rewrites.shown {id : String} {tabs tabs' : List TabSubject} {f : TabsChanged}
    (h : Rewrites id tabs tabs' f) : Shown tabs tabs' := by
  obtain ⟨t, t', rest, hold, hnew, -, hshows, -⟩ := h
  intro u hu
  rw [(hold.map TabSubject.shows).mem_iff, List.map_cons, ← hshows]
  exact List.mem_map_of_mem (f := TabSubject.shows) (hnew.mem_iff.1 hu)

theorem Grounded.of_shown (h : Grounded m) (hb : Beside m m')
    (hs : Shown m.tabs.tabs m'.tabs.tabs) : Grounded m' := by
  intro t' ht' hkind
  obtain ⟨t, ht, hshows⟩ := List.mem_map.1 (hs t' ht')
  obtain ⟨hid, hrest⟩ := Prod.mk.inj hshows
  obtain ⟨hkind', href⟩ := Prod.mk.inj hrest
  rw [hb.chats, hb.purged, hb.stranded, ← href, ← hid]
  exact h t ht (hkind'.trans hkind)

theorem Grounded.of_commits (h : Grounded m) (hc : Commits R m m')
    (hR : ∀ tabs tabs' f, R tabs tabs' f → Shown tabs tabs') : Grounded m' := by
  apply h.of_shown hc.beside
  rcases hc.tabs with heq | ⟨f, hf⟩
  · rw [heq]
    exact fun _ => List.mem_map_of_mem
  · exact hR _ _ _ hf

theorem Grounded.of_opens (h : Grounded m) {newID : String} {spec : OpenTab}
    (hc : Commits (Opens newID spec) m m')
    (hrecord : spec.kind = .chat → (m.chats.get spec.ref).isSome) : Grounded m' := by
  rcases hc.tabs with heq | ⟨f, t, hperm, hshows, -⟩
  · apply h.of_shown hc.beside
    rw [heq]
    exact fun _ => List.mem_map_of_mem
  · intro t' ht' hkind
    rw [hc.beside.chats, hc.beside.purged, hc.beside.stranded]
    rcases List.mem_cons.1 (hperm.mem_iff.1 ht') with rfl | hold
    · obtain ⟨-, hrest⟩ := Prod.mk.inj hshows
      obtain ⟨hkind', href⟩ := Prod.mk.inj hrest
      rw [href]
      exact .inl (hrecord (hkind'.symm.trans hkind))
    · exact h t' hold hkind

/-- Ids and subjects of the open tabs stay distinct. -/
theorem distinct_of_commits (h : Distinct m.tabs.tabs) (hc : Commits R m m')
    (hR : ∀ tabs' f, R m.tabs.tabs tabs' f → Distinct tabs') : Distinct m'.tabs.tabs := by
  rcases hc.tabs with heq | ⟨f, hf⟩
  · rw [heq]
    exact h
  · exact hR _ f hf

theorem Closes.distinct {id : String} {tabs tabs' : List TabSubject} {f : TabsChanged}
    (h : Distinct tabs) (hc : Closes id tabs tabs' f) : Distinct tabs' := by
  obtain ⟨-, rfl, -⟩ := hc
  exact h.sublist List.filter_sublist

theorem Reorders.distinct {tabs tabs' : List TabSubject} {f : TabsChanged}
    (h : Distinct tabs) (hc : Reorders tabs tabs' f) : Distinct tabs' := h.perm hc.1

theorem distinct_of_shows {tabs tabs' : List TabSubject} (h : Distinct tabs)
    (hs : (tabs'.map TabSubject.shows).Perm (tabs.map TabSubject.shows)) : Distinct tabs' := by
  have hids := (hs.map Prod.fst).nodup_iff
  have hsubjects := (hs.map Prod.snd).nodup_iff
  rw [List.map_map, List.map_map] at hids hsubjects
  exact ⟨hids.2 h.ids, hsubjects.2 h.subjects⟩

theorem Rewrites.distinct {id : String} {tabs tabs' : List TabSubject} {f : TabsChanged}
    (h : Distinct tabs) (hc : Rewrites id tabs tabs' f) : Distinct tabs' := by
  obtain ⟨t, t', rest, hold, hnew, -, hshows, -⟩ := hc
  apply distinct_of_shows h
  calc tabs'.map TabSubject.shows
    _ |>.Perm ((t' :: rest).map TabSubject.shows) := hnew.map _
    _ = (t :: rest).map TabSubject.shows := by rw [List.map_cons, hshows, List.map_cons]
    _ |>.Perm (tabs.map TabSubject.shows) := (hold.map _).symm

theorem Opens.distinct {newID : String} {spec : OpenTab} {tabs tabs' : List TabSubject}
    {f : TabsChanged} (hid : newID ∉ tabs.map TabSubject.id) (h : Distinct tabs)
    (hc : Opens newID spec tabs tabs' f) : Distinct tabs' := by
  obtain ⟨t, hperm, hshows, hnew, -⟩ := hc
  obtain ⟨hid', hrest⟩ := Prod.mk.inj hshows
  obtain ⟨hkind, href⟩ := Prod.mk.inj hrest
  apply Distinct.perm _ hperm
  refine ⟨List.nodup_cons.2 ⟨?_, h.ids⟩, List.nodup_cons.2 ⟨?_, h.subjects⟩⟩
  · rw [hid']
    exact hid
  · change (t.kind, t.ref) ∉ _
    rw [hrest]
    exact hnew

/-! ## Closing the tabs of a chat -/

/-- At most one tab shows a chat. -/
theorem tabsForChat_cases (h : Distinct m.tabs.tabs) (chatID : String) :
    (m.tabsForChat chatID = [] ∧ ∀ t ∈ m.tabs.tabs, t.kind = .chat → t.ref ≠ chatID) ∨
      ∃ t ∈ m.tabs.tabs, t.kind = .chat ∧ t.ref = chatID ∧ m.tabsForChat chatID = [t] ∧
        ∀ u ∈ m.tabs.tabs, u.kind = .chat → u.ref = chatID → u = t := by
  have hshown : ∀ u ∈ m.tabs.tabs, u.kind = .chat → u.ref = chatID → u ∈ m.tabsForChat chatID :=
    fun u hu hkind href => List.mem_filter.2 ⟨hu, decide_eq_true ⟨hkind, href⟩⟩
  have hnodup : ((m.tabsForChat chatID).map fun t => (t.kind, t.ref)).Nodup :=
    h.subjects.sublist (List.filter_sublist.map _)
  have hall : ∀ t ∈ m.tabsForChat chatID, t ∈ m.tabs.tabs ∧ t.kind = .chat ∧ t.ref = chatID := by
    intro t ht
    obtain ⟨hmem, hshows⟩ := List.mem_filter.1 ht
    exact ⟨hmem, of_decide_eq_true hshows⟩
  cases hfor : m.tabsForChat chatID with
  | nil =>
    refine .inl ⟨rfl, fun t ht hkind href => ?_⟩
    have := hshown t ht hkind href
    rw [hfor] at this
    exact List.not_mem_nil this
  | cons t rest =>
    rw [hfor] at hnodup hall hshown
    obtain ⟨hmem, hkind, href⟩ := hall t List.mem_cons_self
    cases rest with
    | nil =>
      exact .inr ⟨t, hmem, hkind, href, rfl, fun u hu hk hr =>
        List.mem_singleton.1 (hshown u hu hk hr)⟩
    | cons u rest =>
      obtain ⟨-, hkind', href'⟩ := hall u (List.mem_cons_of_mem _ List.mem_cons_self)
      have hsame : (fun t : TabSubject => (t.kind, t.ref)) t = (u.kind, u.ref) := by
        simp only [hkind, href, hkind', href']
      refine absurd ?_ (List.nodup_cons.1 hnodup).1
      rw [hsame]
      exact List.mem_cons_self

theorem distinct_closeDoomed (h : Distinct m.tabs.tabs)
    (writes : Tabs.WriteOutcome × Tabs.WriteOutcome) (id opID : String) :
    Distinct (m.closeDoomed writes id opID).tabs.tabs := by
  rcases closeDoomed_cases m writes id opID with ⟨hc, -⟩ | ⟨s, f, hs, heq⟩
  · exact distinct_of_commits h hc fun _ _ => Closes.distinct h
  · rw [heq]
    exact (congrArg TabState.tabs hs) ▸ h

/-- Once its tabs are closed, a chat that is gone shows in none but a stranded one. -/
theorem grounded_closeTabsFor (hd : Distinct m.tabs.tabs) (chatID : String)
    (h : ∀ t ∈ m.tabs.tabs, t.kind = .chat → t.ref ≠ chatID → (m.chats.get t.ref).isSome ∨
      t.ref ∈ m.purged.map ChatHeader.id ∨ t.id ∈ m.stranded)
    (writes : String → Tabs.WriteOutcome × Tabs.WriteOutcome) (opID : String) :
    Grounded (m.closeTabsFor writes chatID opID) ∧
      Distinct (m.closeTabsFor writes chatID opID).tabs.tabs := by
  unfold closeTabsFor
  rcases tabsForChat_cases hd chatID with ⟨hnil, hnone⟩ | ⟨t, ht, hkind, href, hone, hunique⟩
  · rw [hnil]
    exact ⟨fun t ht hkind => h t ht hkind (hnone t ht hkind), hd⟩
  · rw [hone, List.foldl_cons, List.foldl_nil]
    refine ⟨?_, distinct_closeDoomed hd _ _ _⟩
    rcases closeDoomed_cases m (writes t.id) t.id opID with ⟨hc, hgone⟩ | ⟨s, f, hs, heq⟩
    · intro u hu hk
      have hmem : u ∈ m.tabs.tabs := by
        rcases hc.tabs with heq | ⟨f, -, hfilter, -⟩
        · rwa [heq] at hu
        · rw [hfilter] at hu
          exact List.mem_of_mem_filter hu
      have hne : u.ref ≠ chatID := by
        intro hr
        rw [hunique u hmem hk hr] at hu
        exact hgone (List.mem_map_of_mem hu)
      rw [hc.beside.chats, hc.beside.purged, hc.beside.stranded]
      exact h u hmem hk hne
    · rw [heq]
      intro u hu hk
      have hmem : u ∈ m.tabs.tabs := (congrArg TabState.tabs hs) ▸ hu
      by_cases hr : u.ref = chatID
      · rw [hunique u hmem hk hr]
        exact .inr (.inr (List.mem_append_right _ (List.mem_singleton.2 rfl)))
      · exact (h u hmem hk hr).imp_right fun h' => h'.imp_right (List.mem_append_left _)

/-! ## Closing a tab -/

/-- What became of the records that a close had doomed. -/
structure DeletedRecords (removes : String → Bool) (doomed deleted : List ChatHeader)
    (m m' : Membership) : Prop where
  rest : m' = { m with chats := m'.chats }
  other : ∀ id, id ∉ doomed.map ChatHeader.id → m'.chats.get id = m.chats.get id
  sublist : deleted.Sublist doomed
  gone : ∀ d ∈ deleted, m'.chats.get d.id = none
  failed : ∀ d ∈ doomed, d ∉ deleted →
    m'.chats.get d.id = m.chats.get d.id ∧ removes d.id = false

theorem deletedRecords (removes : String → Bool) {doomed : List ChatHeader}
    (hd : (doomed.map ChatHeader.id).Nodup) (m : Membership) :
    DeletedRecords removes doomed (deleteDoomedRecords removes m doomed).2 m
      (deleteDoomedRecords removes m doomed).1 := by
  induction doomed generalizing m with
  | nil =>
    exact ⟨rfl, fun _ _ => rfl, .refl _, fun d hd => absurd hd List.not_mem_nil,
      fun d hd => absurd hd List.not_mem_nil⟩
  | cons d doomed ih =>
    obtain ⟨hnew, hrest⟩ := List.nodup_cons.1 hd
    unfold deleteDoomedRecords
    have hneid : ∀ e ∈ doomed, e.id ≠ d.id := fun e he heq => hnew (heq ▸ List.mem_map_of_mem he)
    rcases m.chats.delete_cases m.clock d.id (removes d.id) with hdelete | ⟨hdelete, hremoves⟩
    · -- the record goes
      have h := ih hrest { m with chats := m.chats.remove m.clock d.id }
      simp only [hdelete]
      generalize deleteDoomedRecords removes
        { m with chats := m.chats.remove m.clock d.id } doomed = r at h
      refine ⟨h.rest, ?_, h.sublist.cons_cons d, ?_, ?_⟩
      · intro id hid
        rw [List.map_cons, List.mem_cons, not_or] at hid
        exact (h.other id hid.2).trans (ChatStore.get_remove_of_ne hid.1)
      · intro e he
        rcases List.mem_cons.1 he with rfl | he
        · exact (h.other e.id hnew).trans ChatStore.get_remove_self
        · exact h.gone e he
      · intro e he hout
        rcases List.mem_cons.1 he with rfl | he
        · exact absurd List.mem_cons_self hout
        · obtain ⟨hsame, hfails⟩ := h.failed e he fun h' => hout (List.mem_cons_of_mem _ h')
          exact ⟨hsame.trans (ChatStore.get_remove_of_ne (hneid e he)), hfails⟩
    · -- its removal fails
      have h := ih hrest m
      simp only [hdelete]
      generalize deleteDoomedRecords removes m doomed = r at h
      refine ⟨h.rest, ?_, h.sublist.cons d, h.gone, ?_⟩
      · intro id hid
        rw [List.map_cons, List.mem_cons, not_or] at hid
        exact h.other id hid.2
      · intro e he hout
        rcases List.mem_cons.1 he with rfl | he
        · exact ⟨h.other e.id hnew, hremoves⟩
        · exact h.failed e he hout

/-- A close is refused or finds nothing, or commits, tells and tears down. -/
inductive ClosesTab (m : Membership) (id : String) (doomed : List ChatHeader)
    (removes : String → Bool) : Membership → Prop
  | kept {s : Store} (h : s.toTabState = m.tabs.toTabState) :
      ClosesTab m id doomed removes { m with tabs := s }
  | closed {m₁ m₂ : Membership} {deleted : List ChatHeader} (hc : Commits (Closes id) m m₁)
      (htabs : m₁.tabs.tabs = m.tabs.tabs.filter fun t => t.id ∉ closure m.tabs.tabs id)
      (hd : DeletedRecords removes doomed deleted m₁ m₂) :
      ClosesTab m id doomed removes
        { m₂ with
          teardowns := m.teardowns ++
            dispatch deleted [] (m.tabs.tabs.filter fun t => t.id ∈ closure m.tabs.tabs id) }

theorem closeTab_closes (m : Membership) (id opID : String) (retained : Bool)
    (removes : String → Bool) (w : Tabs.WriteOutcome)
    (hd : ((m.doomedChats id retained).map ChatHeader.id).Nodup) :
    ClosesTab m id (m.doomedChats id retained) removes
      (m.closeTab id opID retained removes w).1 := by
  have h := close_closed w m.tabs id
  unfold closeTab
  generalize close w m.tabs id = r at h
  cases h with
  | refused err h => exact .kept h
  | absent h => exact .kept rfl
  | @closed s hid h =>
    have hc := commits_close (m := m) (.closed hid h) opID
    have htabs : s.tabs = m.tabs.tabs.filter fun t => t.id ∉ closure m.tabs.tabs id :=
      congrArg TabState.tabs h
    rcases hc with ⟨hnil, -⟩ | ⟨hne, hc, -⟩
    · exact absurd hnil (closed_ne_nil hid)
    · simp only
      rw [if_neg hne]
      have hdeleted := deletedRecords removes hd (({ m with tabs := s } : Membership).emit
        (({ m with tabs := s } : Membership).removedFrame
          (m.tabs.tabs.filter fun t => t.id ∈ closure m.tabs.tabs id) (m.tabs.version + 1) opID))
      have hrest : (deleteDoomedRecords removes (({ m with tabs := s } : Membership).emit
        (({ m with tabs := s } : Membership).removedFrame
          (m.tabs.tabs.filter fun t => t.id ∈ closure m.tabs.tabs id) (m.tabs.version + 1)
          opID)) (m.doomedChats id retained)).1.teardowns = m.teardowns := by
        rw [hdeleted.rest]
        rfl
      rw [hrest]
      exact .closed hc htabs hdeleted

/-- The refs that a subtree leaves without a tab are those of its chat tabs, each once. -/
theorem nodup_doomedChats (m : Membership) (id : String) (retained : Bool) :
    ((m.doomedChats id retained).map ChatHeader.id).Nodup := by
  unfold doomedChats
  split
  · exact List.nodup_nil
  · have hids : ∀ refs : List String,
        ((refs.filterMap m.chats.get).map ChatHeader.id).Sublist refs := by
      intro refs
      induction refs with
      | nil => exact .refl _
      | cons ref refs ih =>
        rw [List.filterMap_cons]
        cases hget : m.chats.get ref with
        | none => exact ih.cons ref
        | some c =>
          simp only [List.map_cons, ChatStore.get_id hget]
          exact ih.cons_cons ref
    exact (Grouping.nodup_eraseDups _).sublist (hids _)

theorem mem_doomedChats {id : String} {retained : Bool} {c : ChatHeader} :
    c ∈ m.doomedChats id retained ↔ retained = false ∧
      (∃ t ∈ m.subtree id, t.kind = .chat ∧ t.ref = c.id) ∧
      (∀ t ∈ m.tabs.tabs, t.kind = .chat → t.id ∉ subjectIDs (m.subtree id) → t.ref ≠ c.id) ∧
      m.chats.get c.id = some c := by
  have hrefs : ∀ ref, ref ∈ m.tablessChatRefs (m.subtree id) ↔
      (∃ t ∈ m.subtree id, t.kind = .chat ∧ t.ref = ref) ∧
        ∀ t ∈ m.tabs.tabs, t.kind = .chat → t.id ∉ subjectIDs (m.subtree id) → t.ref ≠ ref := by
    intro ref
    simp only [tablessChatRefs, List.mem_eraseDups, List.mem_filter, List.mem_map,
      decide_eq_true_eq]
    grind
  unfold doomedChats
  cases retained with
  | true => simp
  | false =>
    simp only [Bool.false_eq_true, if_false, List.mem_filterMap, true_and]
    constructor
    · rintro ⟨ref, href, hget⟩
      have hid := ChatStore.get_id hget
      subst hid
      obtain ⟨hin, hout⟩ := (hrefs _).1 href
      exact ⟨hin, hout, hget⟩
    · rintro ⟨hin, hout, hget⟩
      exact ⟨c.id, (hrefs _).2 ⟨hin, hout⟩, hget⟩

theorem mem_subtree {id : String} {t : TabSubject} :
    t ∈ m.subtree id ↔ t ∈ m.tabs.tabs ∧ t.id ∈ closure m.tabs.tabs id := by
  rw [subtree, List.mem_filter, decide_eq_true_eq]

theorem grounded_closeTab (h : Grounded m) (hd : Distinct m.tabs.tabs) (id opID : String)
    (retained : Bool) (removes : String → Bool) (w : Tabs.WriteOutcome) :
    Grounded (m.closeTab id opID retained removes w).1 ∧
      Distinct (m.closeTab id opID retained removes w).1.tabs.tabs := by
  have hcases := closeTab_closes m id opID retained removes w (nodup_doomedChats m id retained)
  generalize (m.closeTab id opID retained removes w).1 = m' at hcases
  cases hcases with
  | @kept s hs =>
    have htabs : s.tabs = m.tabs.tabs := congrArg TabState.tabs hs
    refine ⟨h.of_shown ⟨rfl, rfl, rfl⟩ ?_, htabs ▸ hd⟩
    rw [htabs]
    exact fun _ => List.mem_map_of_mem
  | @closed m₁ m₂ deleted hc htabs hdel =>
    have htabs₂ : m₂.tabs = m₁.tabs := by rw [hdel.rest]
    constructor
    · intro t ht hkind
      change t ∈ m₂.tabs.tabs at ht
      rw [htabs₂, htabs] at ht
      obtain ⟨hmem, hout⟩ := List.mem_filter.1 ht
      have hout : t.id ∉ closure m.tabs.tabs id := of_decide_eq_true hout
      -- a doomed chat shows in no tab that stays
      have hother : t.ref ∉ (m.doomedChats id retained).map ChatHeader.id := by
        intro hin
        obtain ⟨c, hdoomed, href⟩ := List.mem_map.1 hin
        obtain ⟨-, -, hstays, -⟩ := mem_doomedChats.1 hdoomed
        refine hstays t hmem hkind ?_ href.symm
        intro hsub
        obtain ⟨u, hu, hid⟩ := List.mem_map.1 hsub
        exact hout (hid ▸ (mem_subtree.1 hu).2)
      change (m₂.chats.get t.ref).isSome ∨ t.ref ∈ m₂.purged.map ChatHeader.id ∨ t.id ∈ m₂.stranded
      have hpurged : m₂.purged = m.purged := by rw [hdel.rest]; exact hc.beside.purged
      have hstranded : m₂.stranded = m.stranded := by rw [hdel.rest]; exact hc.beside.stranded
      rw [hdel.other t.ref hother, hc.beside.chats, hpurged, hstranded]
      exact h t hmem hkind
    · change Distinct m₂.tabs.tabs
      rw [htabs₂, htabs]
      exact hd.sublist List.filter_sublist

/-! ## Teardowns -/

/-- The grade of one chat tab that a close takes out. -/
def grade (deleted : List ChatHeader) (chatID : String) : Teardown :=
  match Keyed.find ChatHeader.id deleted chatID with
  | some d => .deleteByChain chatID d.sessionChain
  | none => .close chatID

/-- With at most one tab for a chat, a close sends one teardown for each chat tab. -/
theorem dispatch_eq {deleted : List ChatHeader} {closed : List TabSubject} {seen : List String}
    (hn : (closed.map fun t => (t.kind, t.ref)).Nodup)
    (hseen : ∀ t ∈ closed, t.kind = .chat → t.ref ∉ seen) :
    dispatch deleted seen closed =
      ((closed.filter fun t => t.kind = .chat).map TabSubject.ref).map (grade deleted) := by
  induction closed generalizing seen with
  | nil => rfl
  | cons t closed ih =>
    obtain ⟨hnew, hrest⟩ := List.nodup_cons.1 hn
    have hlater : ∀ u ∈ closed, u.kind = .chat → u.ref ∉ seen :=
      fun u hu => hseen u (List.mem_cons_of_mem _ hu)
    unfold dispatch
    by_cases hkind : t.kind = .chat
    · rw [if_neg (not_not.2 hkind), List.filter_cons_of_pos (by simpa using hkind), List.map_cons,
        List.map_cons, grade]
      cases hfind : Keyed.find ChatHeader.id deleted t.ref with
      | none => exact congrArg _ (ih hrest hlater)
      | some d =>
        simp only
        rw [if_neg (hseen t List.mem_cons_self hkind)]
        refine congrArg _ (ih hrest fun u hu hk => ?_)
        rw [List.mem_cons, not_or]
        refine ⟨fun href => hnew ?_, hlater u hu hk⟩
        refine List.mem_map.2 ⟨u, hu, ?_⟩
        simp only [hk, href, hkind]
    · rw [if_pos hkind, List.filter_cons_of_neg (by simpa using hkind)]
      exact ih hrest hlater

/-- A teardown fits what became of its chat's record in a step: the delete grade carries the chain
of a record that went, and the close grade is for one that stands as it stood. -/
def Fits (m m' : Membership) : Teardown → Prop
  | .close chatID => m'.chats.get chatID = m.chats.get chatID
  | .delete _ => False
  | .deleteByChain chatID chain =>
    m.chats.get chatID = some { id := chatID, sessionChain := chain } ∧
      m'.chats.get chatID = none

/-- The chats whose tab leaves from one set to the other. -/
def leaves (tabs tabs' : List TabSubject) : List String :=
  (tabs.filter fun t => t.kind = .chat ∧ t ∉ tabs').map TabSubject.ref

/-- The record of a chat whose one tab a retention-off close takes out is doomed. -/
theorem doomed_of_closed (hd : Distinct m.tabs.tabs) {id : String} {retained : Bool}
    {t : TabSubject} {c : ChatHeader} (ht : t ∈ m.tabs.tabs) (hin : t.id ∈ closure m.tabs.tabs id)
    (hkind : t.kind = .chat) (hget : m.chats.get t.ref = some c) (hretained : retained = false) :
    c ∈ m.doomedChats id retained := by
  have hid : c.id = t.ref := ChatStore.get_id hget
  rw [mem_doomedChats, hid]
  refine ⟨hretained, ⟨t, mem_subtree.2 ⟨ht, hin⟩, hkind, rfl⟩, fun u hu hk hout href => ?_, hget⟩
  have heq : u = t := List.inj_on_of_nodup_map hd.subjects hu ht (by simp only [hk, href, hkind])
  exact hout (heq ▸ List.mem_map_of_mem (mem_subtree.2 ⟨ht, hin⟩))

/-- What became of the record of a chat whose tab a close takes out. -/
theorem grade_fits (hd : Distinct m.tabs.tabs) {m₁ m₂ : Membership} {deleted : List ChatHeader}
    {id : String} {retained : Bool} {removes : String → Bool} (hchats : m₁.chats = m.chats)
    (hdel : DeletedRecords removes (m.doomedChats id retained) deleted m₁ m₂) {t : TabSubject}
    (ht : t ∈ m.tabs.tabs) (hin : t.id ∈ closure m.tabs.tabs id) (hkind : t.kind = .chat) :
    Fits m m₂ (grade deleted t.ref) ∧ (grade deleted t.ref).chatID = t.ref ∧
      (retained = false → (∀ chatID, removes chatID = true) → m₂.chats.get t.ref = none) := by
  unfold grade
  cases hfind : Keyed.find ChatHeader.id deleted t.ref with
  | some d =>
    have hid : d.id = t.ref := Keyed.key_of_find hfind
    have hmem := Keyed.mem_of_find hfind
    have hgone := hdel.gone d hmem
    obtain ⟨-, -, -, hget⟩ := mem_doomedChats.1 (hdel.sublist.mem hmem)
    rw [hid] at hgone hget
    refine ⟨⟨?_, hgone⟩, rfl, fun _ _ => hgone⟩
    rw [hget, ← hid]
  | none =>
    have hout : ∀ d ∈ deleted, d.id ≠ t.ref := by
      intro d hd' heq
      exact Keyed.find_eq_none.1 hfind (List.mem_map.2 ⟨d, hd', heq⟩)
    have hsame : m₂.chats.get t.ref = m.chats.get t.ref := by
      by_cases hdoomed : t.ref ∈ (m.doomedChats id retained).map ChatHeader.id
      · obtain ⟨d, hd', heq⟩ := List.mem_map.1 hdoomed
        rw [← heq, (hdel.failed d hd' fun h => hout d h heq).1, hchats]
      · rw [hdel.other _ hdoomed, hchats]
    refine ⟨hsame, rfl, fun hretained hremoves => ?_⟩
    rw [hsame]
    cases hget : m.chats.get t.ref with
    | none => rfl
    | some c =>
      have hdoomed := doomed_of_closed hd ht hin hkind hget hretained
      have hfailed := hdel.failed c hdoomed fun h => hout c h (ChatStore.get_id hget)
      rw [hremoves] at hfailed
      exact absurd hfailed.2 Bool.noConfusion

/-- A close tears down each chat whose tab leaves exactly once, in the grade that fits, and with
retention off leaves none of them a record. -/
theorem closeTab_tears_down (hd : Distinct m.tabs.tabs) (id opID : String) (retained : Bool)
    (removes : String → Bool) (w : Tabs.WriteOutcome) :
    ∃ torn, (m.closeTab id opID retained removes w).1.teardowns = m.teardowns ++ torn ∧
      torn.map Teardown.chatID =
        leaves m.tabs.tabs (m.closeTab id opID retained removes w).1.tabs.tabs ∧
      (torn.map Teardown.chatID).Nodup ∧
      (∀ d ∈ torn, Fits m (m.closeTab id opID retained removes w).1 d) ∧
      (retained = false → (∀ chatID, removes chatID = true) →
        ∀ d ∈ torn, (m.closeTab id opID retained removes w).1.chats.get d.chatID = none) := by
  have hcases := closeTab_closes m id opID retained removes w (nodup_doomedChats m id retained)
  generalize (m.closeTab id opID retained removes w).1 = m' at hcases
  cases hcases with
  | @kept s hs =>
    have htabs : s.tabs = m.tabs.tabs := congrArg TabState.tabs hs
    refine ⟨[], (List.append_nil _).symm, ?_, List.nodup_nil,
      fun d hd => absurd hd List.not_mem_nil, fun _ _ d hd => absurd hd List.not_mem_nil⟩
    change [] = leaves m.tabs.tabs s.tabs
    rw [htabs, leaves, List.filter_eq_nil_iff.2]
    · rfl
    · intro t ht
      simp [ht]
  | @closed m₁ m₂ deleted hc htabs hdel =>
    have htabs₂ : m₂.tabs = m₁.tabs := by rw [hdel.rest]
    have hn : ((m.tabs.tabs.filter fun t => t.id ∈ closure m.tabs.tabs id).map
        fun t => (t.kind, t.ref)).Nodup := hd.subjects.sublist (List.filter_sublist.map _)
    have hleaves : leaves m.tabs.tabs m₂.tabs.tabs =
        ((m.tabs.tabs.filter fun t => t.id ∈ closure m.tabs.tabs id).filter
          fun t => t.kind = .chat).map TabSubject.ref := by
      rw [leaves, htabs₂, htabs, List.filter_filter]
      congr 1
      apply List.filter_congr
      intro t ht
      simp [ht]
    have hgrades : ∀ chatID ∈ leaves m.tabs.tabs m₂.tabs.tabs,
        Fits m m₂ (grade deleted chatID) ∧ (grade deleted chatID).chatID = chatID ∧
          (retained = false → (∀ id, removes id = true) → m₂.chats.get chatID = none) := by
      intro chatID hchat
      rw [hleaves] at hchat
      obtain ⟨t, ht, rfl⟩ := List.mem_map.1 hchat
      obtain ⟨ht, hkind⟩ := List.mem_filter.1 ht
      obtain ⟨hmem, hin⟩ := List.mem_filter.1 ht
      exact grade_fits hd hc.beside.chats hdel hmem (of_decide_eq_true hin)
        (of_decide_eq_true hkind)
    have hids : ((leaves m.tabs.tabs m₂.tabs.tabs).map (grade deleted)).map Teardown.chatID =
        leaves m.tabs.tabs m₂.tabs.tabs := by
      rw [List.map_map]
      exact List.map_congr_left (fun chatID h => (hgrades chatID h).2.1) |>.trans (List.map_id _)
    refine ⟨(leaves m.tabs.tabs m₂.tabs.tabs).map (grade deleted), ?_, hids, ?_, ?_, ?_⟩
    · change m.teardowns ++ _ = _
      rw [dispatch_eq hn fun _ _ _ => List.not_mem_nil, hleaves]
    · rw [hids, hleaves]
      have hchat : ∀ l : List TabSubject, (l.map fun t => (t.kind, t.ref)).Nodup →
          ((l.filter fun t => t.kind = .chat).map TabSubject.ref).Nodup := by
        intro l hl
        apply List.Nodup.of_map (fun ref => (TabKind.chat, ref))
        rw [List.map_map]
        have hsub := hl.sublist ((List.filter_sublist (l := l)
          (p := fun t => t.kind = .chat)).map fun t => (t.kind, t.ref))
        refine (List.map_congr_left fun t ht => ?_) ▸ hsub
        have hkind : t.kind = .chat := of_decide_eq_true (List.mem_filter.1 ht).2
        simp only [Function.comp_apply, hkind]
      exact hchat _ hn
    · intro d hd'
      obtain ⟨chatID, hchat, rfl⟩ := List.mem_map.1 hd'
      exact (hgrades chatID hchat).1
    · intro hretained hremoves d hd'
      obtain ⟨chatID, hchat, rfl⟩ := List.mem_map.1 hd'
      rw [(hgrades chatID hchat).2.1]
      exact (hgrades chatID hchat).2.2 hretained hremoves

/-! ## Runs -/

/-- An operation that may open a tab would mint an id that names none. -/
def Fresh (m : Membership) : MembershipEvent → Prop
  | .create _ _ newID _ _ => newID ∉ m.tabs.tabs.map TabSubject.id
  | .openTab _ _ _ newID _ => newID ∉ m.tabs.tabs.map TabSubject.id
  | _ => True

instance (m : Membership) (e : MembershipEvent) : Decidable (m.Fresh e) := by
  cases e <;> unfold Fresh <;> infer_instance

/-- The tabs are distinct, and every chat tab is grounded. -/
structure Sound (m : Membership) : Prop where
  distinct : Distinct m.tabs.tabs
  grounded : Grounded m

theorem Sound.openSubject (h : Sound m) {w : Tabs.WriteOutcome} {newID : String} {spec : OpenTab}
    (opID : String) (hid : newID ∉ m.tabs.tabs.map TabSubject.id)
    (hrecord : spec.kind = .chat → (m.chats.get spec.ref).isSome) :
    Sound (m.openSubject w newID spec opID).1 := by
  have hc := openSubject_commits m w newID spec opID
  exact ⟨distinct_of_commits h.distinct hc fun _ _ => Opens.distinct hid h.distinct,
    h.grounded.of_opens hc hrecord⟩

theorem Sound.createChatAndOpen (h : Sound m) (req : ChatCreate) (minted : String) {newID : String}
    (saved : Bool) (w : Tabs.WriteOutcome) (hid : newID ∉ m.tabs.tabs.map TabSubject.id) :
    Sound (m.createChatAndOpen req minted newID saved w).1 := by
  have hc := createChatAndOpen_created m req minted newID saved w
  generalize m.createChatAndOpen req minted newID saved w = r at hc
  cases hc with
  | refused err => exact h
  | unrecorded hc => exact ⟨h.distinct, h.grounded⟩
  | @recorded chats chat hc hget m' r spec hkind href hopen =>
    obtain ⟨hkept, hnew⟩ := ChatStore.get_create hc
    have hsound : Sound { m with ops := (m.resolveChat req minted).1, chats } := by
      refine ⟨h.distinct, fun t ht hkind => (h.grounded t ht hkind).imp_left fun hsome => ?_⟩
      rw [hkept _ hsome]
      exact hsome
    have hopened : Sound (Membership.openSubject _ w newID spec req.opID).1 :=
      hsound.openSubject req.opID hid fun _ => href ▸ hnew
    rw [hopen] at hopened
    exact hopened

theorem Sound.openTab (h : Sound m) (spec : OpenTab) (opID : String) (runChat : Option String)
    {newID : String} (w : Tabs.WriteOutcome) (hid : newID ∉ m.tabs.tabs.map TabSubject.id) :
    Sound (m.openTab spec opID runChat newID w).1 := by
  unfold Membership.openTab
  split
  · exact h
  · next hgate =>
    apply h.openSubject opID hid
    intro hkind
    by_contra hnone
    exact hgate ⟨hkind, Option.not_isSome_iff_eq_none.1 hnone ▸ rfl⟩

theorem Sound.of_commits (h : Sound m) (hc : Commits R m m')
    (hR : ∀ tabs tabs' f, R tabs tabs' f → Shown tabs tabs')
    (hR' : ∀ tabs' f, R m.tabs.tabs tabs' f → Distinct tabs') : Sound m' :=
  ⟨distinct_of_commits h.distinct hc hR', h.grounded.of_commits hc hR⟩

theorem Sound.deleteChat (h : Sound m) (chatID opID : String) (removes : Bool)
    (writes : String → Tabs.WriteOutcome × Tabs.WriteOutcome) :
    Sound (m.deleteChatAndCloseTabs chatID opID removes writes).1 := by
  unfold deleteChatAndCloseTabs
  have hne : ∀ id, id ≠ chatID →
      (m.chats.delete m.clock chatID removes).1.get id = m.chats.get id :=
    fun id => ChatStore.get_delete_of_ne
  simp only
  generalize m.chats.delete m.clock chatID removes = r at hne
  obtain ⟨chats, ok⟩ := r
  cases ok with
  | false => exact ⟨h.distinct, h.grounded⟩
  | true =>
    obtain ⟨hg, hd⟩ := grounded_closeTabsFor (m := { m with
      chats, teardowns := m.teardowns ++ [.delete chatID] }) h.distinct chatID
      (fun t ht hkind href => by
        simp only
        rw [hne _ href]
        exact h.grounded t ht hkind) writes opID
    exact ⟨hd, hg⟩

theorem Sound.purgeRemoves (h : Sound m) (chatID : String) (removes : Bool) :
    Sound (m.purgeRemoves chatID removes) := by
  unfold Membership.purgeRemoves
  split
  · simp only
    split
    · exact ⟨h.distinct, h.grounded⟩
    · next c hget =>
      split
      · refine ⟨h.distinct, fun t ht hkind => ?_⟩
        simp only at ht ⊢
        by_cases href : t.ref = chatID
        · refine .inr (.inl ?_)
          rw [href, ← ChatStore.get_id hget]
          exact List.mem_cons_self
        · rw [ChatStore.get_remove_of_ne href]
          exact (h.grounded t ht hkind).imp_right fun h' => h'.imp_left (List.mem_cons_of_mem _)
      · exact ⟨h.distinct, h.grounded⟩
  · exact h

theorem Sound.retentionClose (h : Sound m) (c : ChatHeader)
    (writes : String → Tabs.WriteOutcome × Tabs.WriteOutcome) :
    Sound (m.retentionClose c writes) := by
  unfold Membership.retentionClose
  split
  · obtain ⟨hg, hd⟩ := grounded_closeTabsFor (m := { m with
      purged := m.purged.erase c
      teardowns := m.teardowns ++ [.deleteByChain c.id c.sessionChain] }) h.distinct c.id
      (fun t ht hkind href => by
        refine (h.grounded t ht hkind).imp_right fun h' => h'.imp_left fun hpurged => ?_
        obtain ⟨d, hd, heq⟩ := List.mem_map.1 hpurged
        have hne : d ≠ c := fun hdc => href (heq.symm.trans (congrArg ChatHeader.id hdc))
        exact List.mem_map.2 ⟨d, (List.mem_erase_of_ne hne).2 hd, heq⟩) writes ""
    exact ⟨hd, hg⟩
  · exact h

theorem Sound.recordChanges (h : Sound m) (c : ChatHeader) : Sound (m.recordChanges c) := by
  unfold Membership.recordChanges
  split
  · refine ⟨h.distinct, fun t ht hkind => (h.grounded t ht hkind).imp_left fun hsome => ?_⟩
    simp only [ChatStore.get]
    by_cases heq : t.ref = c.id
    · rw [heq, Keyed.find_set_key]
      rfl
    · rw [Keyed.find_set_of_ne heq]
      exact hsome
  · exact h

/-- Every step keeps the tabs distinct and grounded. -/
theorem Sound.step (h : Sound m) {e : MembershipEvent} (he : m.Fresh e) : Sound (m.step e) := by
  cases e with
  | create req minted newID saved w => exact h.createChatAndOpen req minted saved w he
  | openTab spec opID runChat newID w => exact h.openTab spec opID runChat w he
  | closeTab id opID retained removes w =>
    obtain ⟨hg, hd⟩ := grounded_closeTab h.grounded h.distinct id opID retained removes w
    exact ⟨hd, hg⟩
  | reorderTabs ids opID w =>
    exact h.of_commits (reorderTabs_commits m ids opID w) (fun _ _ _ => Reorders.shown)
      fun _ _ => Reorders.distinct h.distinct
  | setPinned id pinned opID w =>
    exact h.of_commits (setPinned_commits m id pinned opID w h.distinct.ids)
      (fun _ _ _ => Rewrites.shown) fun _ _ => Rewrites.distinct h.distinct
  | reparent id parent opID w =>
    exact h.of_commits (reparent_commits m id parent opID w h.distinct.ids)
      (fun _ _ _ => Rewrites.shown) fun _ _ => Rewrites.distinct h.distinct
  | deleteChat chatID opID removes writes => exact h.deleteChat chatID opID removes writes
  | purgeAdmits chatID =>
    change Sound (m.purgeAdmits chatID)
    unfold purgeAdmits
    split
    · exact h
    · exact ⟨h.distinct, h.grounded⟩
  | purgeRemoves chatID removes => exact h.purgeRemoves chatID removes
  | retentionClose c writes => exact h.retentionClose c writes
  | recordChanges c => exact h.recordChanges c
  | passes d => exact ⟨h.distinct, h.grounded⟩

/-- The process starts over the set that its file holds, less the chat tabs whose record is gone. -/
def boot (doc : Option TabState) (chats : ChatStore) (w : Tabs.WriteOutcome) : Membership × Bool :=
  let exists_ (t : TabSubject) : Bool := t.kind ≠ .chat || (chats.get t.ref).isSome
  ({ tabs := (prune w (newStore doc) (some exists_)).1, chats },
    (prune w (newStore doc) (some exists_)).2.isOk)

theorem sound_boot {doc : Option TabState} {chats : ChatStore} {w : Tabs.WriteOutcome}
    (h : (boot doc chats w).2 = true) : Sound (boot doc chats w).1 := by
  refine ⟨(distinct_newStore doc).change (prune_change w (newStore doc) _), ?_⟩
  have hresolved : ∀ {t : TabSubject}, t.kind = .chat →
      (decide (t.kind ≠ .chat) || (chats.get t.ref).isSome) = true → (chats.get t.ref).isSome := by
    intro t hkind hor
    simpa [hkind] using hor
  intro t ht hkind
  refine .inl ?_
  simp only [boot, prune, Option.getD_some] at h ht ⊢
  generalize hr : mutate w (newStore doc) _ = r at h ht
  have hm := mutated_of_eq hr
  cases hm with
  | refused err hs => exact absurd h (by simp [Except.isOk, Except.toBool])
  | kept ha hc =>
    split at ha
    · next hgone =>
      apply hresolved hkind
      have hnone := List.filter_eq_nil_iff.1 hgone.1 t ht
      cases hr : decide (t.kind ≠ .chat) || (chats.get t.ref).isSome with
      | true => rfl
      | false => exact absurd (by rw [hr]; rfl) hnone
    · cases ha
      cases hc
  | committed ha hc hs =>
    split at ha
    · cases ha
      cases hc
    · cases ha
      have htabs := congrArg TabState.tabs hs
      simp only at ht htabs
      rw [htabs] at ht
      have hshows := List.mem_map_of_mem (f := TabSubject.shows) ht
      rw [promoteOrphans_map _ _ fun _ => rfl] at hshows
      obtain ⟨u, hu, heq⟩ := List.mem_map.1 hshows
      obtain ⟨-, hrest⟩ := Prod.mk.inj heq
      obtain ⟨hk, href⟩ := Prod.mk.inj hrest
      rw [← href]
      exact hresolved (hk.trans hkind) (List.mem_filter.1 hu).2

/-- A chat, and another one under its tab. -/
def nested : List MembershipEvent :=
  [.create {} "c-1" "t1" true .done, .create { parentChat := "c-1" } "c-2" "t2" true .done]

theorem along_nested : Along step Fresh (boot none {} .done).1 nested := by decide +kernel

end Membership
end Marotte.Command
