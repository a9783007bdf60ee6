import Marotte.Command.Gates

/-! # A create that is sent again

The ledger remembers what a gesture's op created for as long as a deleted id stays blocked, so an op
that is sent again within that time finds its chat or finds it deleted, and makes no second one.
-/
namespace Marotte.Command
open Tabs Tabs.Sync

/-! ## What may become of the records -/

namespace ChatStore

/-- What the operations make of the records at a time: none, or one after another of a create, a
removal and a change of a record that is there. -/
inductive Changes (now : ℕ) : ChatStore → ChatStore → Prop
  | refl (s : ChatStore) : Changes now s s
  | create {s s' s'' : ChatStore} {c : ChatHeader} {saved : Bool} (h : Changes now s s')
      (hc : s'.create now c saved = .ok s'') : Changes now s s''
  | remove {s s' : ChatStore} (h : Changes now s s') (chatID : String) :
      Changes now s (s'.remove now chatID)
  | rewrite {s s' : ChatStore} {c : ChatHeader} (h : Changes now s s') (hc : (s'.get c.id).isSome) :
      Changes now s { s' with chats := Keyed.set ChatHeader.id s'.chats c }

theorem Changes.delete {now : ℕ} {s s' : ChatStore} (h : Changes now s s') (chatID : String)
    (removes : Bool) : Changes now s (s'.delete now chatID removes).1 := by
  rcases s'.delete_cases now chatID removes with hdelete | ⟨hdelete, -⟩
  · rw [hdelete]
    exact h.remove chatID
  · rwa [hdelete]

/-- The record is there, or it went at a time that still counts. -/
def Known (s : ChatStore) (since : ℕ) (chatID : String) : Prop :=
  (s.get chatID).isSome ∨
    ∃ t, Keyed.find Prod.fst s.tombstones chatID = some (chatID, t) ∧ since ≤ t

/-- The record went and its id is blocked. -/
def Gone (s : ChatStore) (since : ℕ) (chatID : String) : Prop :=
  s.get chatID = none ∧
    ∃ t, Keyed.find Prod.fst s.tombstones chatID = some (chatID, t) ∧ since ≤ t

variable {s s' : ChatStore} {now since : ℕ} {chatID : String}

theorem Gone.tombstoned (h : s.Gone since chatID) (hnow : now ≤ since + tombstoneTTL) :
    s.isTombstoned now chatID = true := by
  obtain ⟨-, t, hfind, ht⟩ := h
  unfold isTombstoned
  rw [hfind]
  exact decide_eq_true (by simp only; omega)

/-- A removal leaves a tombstone of its own time, and drops none that still counts. -/
theorem tombstone_remove {t : ℕ} (hnow : now ≤ since + tombstoneTTL) (hsince : since ≤ now)
    (h : Keyed.find Prod.fst s.tombstones chatID = some (chatID, t) ∧ since ≤ t) (id : String) :
    ∃ t, Keyed.find Prod.fst (s.remove now id).tombstones chatID = some (chatID, t) ∧
      since ≤ t := by
  obtain ⟨hfind, ht⟩ := h
  unfold remove
  split
  · exact ⟨t, hfind, ht⟩
  · unfold markDeleted
    by_cases hid : chatID = id
    · subst hid
      refine ⟨now, Keyed.find_filter Keyed.find_set_key ?_, hsince⟩
      exact decide_eq_true (Nat.le_add_right _ _)
    · refine ⟨t, Keyed.find_filter ((Keyed.find_set_of_ne hid).trans hfind) ?_, ht⟩
      exact decide_eq_true (by simp only; omega)

theorem tombstone_removed (hsince : since ≤ now) (h : (s.get chatID).isSome) :
    ∃ t, Keyed.find Prod.fst (s.remove now chatID).tombstones chatID = some (chatID, t) ∧
      since ≤ t := by
  unfold remove
  rw [if_neg (by simpa [Option.isSome_iff_ne_none] using h)]
  refine ⟨now, Keyed.find_filter Keyed.find_set_key ?_, hsince⟩
  exact decide_eq_true (Nat.le_add_right _ _)

/-- A record that is known stays known, and one that is gone stays gone. -/
theorem Changes.known_gone (hnow : now ≤ since + tombstoneTTL) (hsince : since ≤ now)
    (h : Changes now s s') :
    (s.Known since chatID → s'.Known since chatID) ∧
      (s.Gone since chatID → s'.Gone since chatID) := by
  induction h with
  | refl => exact ⟨id, id⟩
  | @create s' s'' c saved h hc ih =>
    have htombs : s''.tombstones = s'.tombstones := by
      unfold ChatStore.create at hc
      split at hc
      · cases hc
        rfl
      · split at hc
        · cases hc
        · split at hc
          · cases hc
          · cases hc
            rfl
    obtain ⟨hkeeps, -⟩ := get_create hc
    refine ⟨fun hs => ?_, fun hs => ?_⟩
    · rcases ih.1 hs with hsome | ht
      · exact .inl (by rw [hkeeps _ hsome]; exact hsome)
      · exact .inr (by rw [htombs]; exact ht)
    · have hgone := ih.2 hs
      refine ⟨?_, by rw [htombs]; exact hgone.2⟩
      have hblocked := hgone.tombstoned hnow
      unfold ChatStore.create at hc
      split at hc
      · cases hc
        exact hgone.1
      · next hnone =>
        split at hc
        · cases hc
        · next hfree =>
          split at hc
          · cases hc
          · cases hc
            rw [get, Keyed.find_set_of_ne]
            · exact hgone.1
            · intro heq
              rw [heq] at hblocked
              exact hfree hblocked
  | @remove s' h id ih =>
    refine ⟨fun hs => ?_, fun hs => ?_⟩
    · rcases ih.1 hs with hsome | ⟨t, ht⟩
      · by_cases hid : chatID = id
        · subst hid
          exact .inr (tombstone_removed hsince hsome)
        · exact .inl (by rw [get_remove_of_ne hid]; exact hsome)
      · exact .inr (tombstone_remove hnow hsince ht id)
    · obtain ⟨hnone, t, ht⟩ := ih.2 hs
      refine ⟨?_, tombstone_remove hnow hsince ht id⟩
      by_cases hid : chatID = id
      · subst hid
        exact get_remove_self
      · rw [get_remove_of_ne hid]
        exact hnone
  | @rewrite s' c h hc ih =>
    refine ⟨fun hs => ?_, fun hs => ?_⟩
    · refine (ih.1 hs).imp_left fun hsome => ?_
      by_cases hid : chatID = c.id
      · rw [hid, get, Keyed.find_set_key]
        rfl
      · rw [get, Keyed.find_set_of_ne hid]
        exact hsome
    · obtain ⟨hnone, ht⟩ := ih.2 hs
      refine ⟨?_, ht⟩
      rw [get, Keyed.find_set_of_ne]
      · exact hnone
      · rintro rfl
        rw [hnone] at hc
        exact absurd hc Bool.false_ne_true

end ChatStore

/-! ## What a step makes of the ledger and the records -/

namespace CreateOp

theorem evict_of_lt {ops : List CreateOp} (n : ℕ) (h : ops.length < maxCreateOps) :
    evict n ops = ops := by
  cases n with
  | zero => rfl
  | succ n =>
    unfold evict
    rw [if_neg (by omega)]

/-- With room in the ledger, an entry that is live is kept. -/
theorem find_resolve {ops : List CreateOp} {now : ℕ} {e : CreateOp} (op minted : String)
    (h : Keyed.find CreateOp.op ops e.op = some e) (hlive : now < e.expires)
    (hroom : (ops.filter (now < ·.expires)).length < maxCreateOps) :
    Keyed.find CreateOp.op (resolve ops now op minted).1 e.op = some e := by
  unfold resolve
  split
  · exact h
  · next hop =>
    split
    · exact h
    · next hnone =>
      have hne : e.op ≠ op := by
        intro heq
        unfold peek at hnone
        rw [if_neg hop, ← heq, h] at hnone
        simp only [hlive, if_true] at hnone
        cases hnone
      have hkept : Keyed.find CreateOp.op (ops.filter (now < ·.expires)) e.op = some e :=
        Keyed.find_filter h (decide_eq_true hlive)
      unfold sweep
      simp only
      rw [evict_of_lt _ hroom, Keyed.find_set_of_ne hne]
      exact hkept

end CreateOp

namespace Membership

/-- A step changes records at its own time, lets time pass, and asks the ledger at most once. -/
structure Advances (m m' : Membership) : Prop where
  chats : ChatStore.Changes m.clock m.chats m'.chats
  clock : m.clock ≤ m'.clock
  ops : m'.ops = m.ops ∨ ∃ op minted, m'.ops = (CreateOp.resolve m.ops m.clock op minted).1

variable {m m' : Membership}

theorem Advances.of_eq (hchats : m'.chats = m.chats) (hclock : m'.clock = m.clock)
    (hops : m'.ops = m.ops) : Advances m m' :=
  ⟨hchats ▸ .refl _, Nat.le_of_eq hclock.symm, .inl hops⟩

/-- What an operation on the tabs leaves alone. -/
structure Undisturbed (m m' : Membership) : Prop where
  chats : m'.chats = m.chats
  clock : m'.clock = m.clock
  ops : m'.ops = m.ops

theorem Undisturbed.trans {m'' : Membership} (h : Undisturbed m m') (h' : Undisturbed m' m'') :
    Undisturbed m m'' :=
  ⟨h'.chats.trans h.chats, h'.clock.trans h.clock, h'.ops.trans h.ops⟩

theorem Undisturbed.advances (h : Undisturbed m m') : Advances m m' :=
  .of_eq h.chats h.clock h.ops

theorem Commits.undisturbed {R : List TabSubject → List TabSubject → TabsChanged → Prop}
    (hc : Commits R m m') : Undisturbed m m' := by
  cases hc with
  | kept h => exact ⟨rfl, rfl, rfl⟩
  | committed hv hf h => exact ⟨rfl, rfl, rfl⟩

theorem deleteDoomedRecords_changes {now : ℕ} {s : ChatStore} (removes : String → Bool)
    (doomed : List ChatHeader) (m : Membership) (hnow : m.clock = now)
    (h : ChatStore.Changes now s m.chats) :
    ChatStore.Changes now s (deleteDoomedRecords removes m doomed).1.chats ∧
      (deleteDoomedRecords removes m doomed).1.clock = m.clock ∧
      (deleteDoomedRecords removes m doomed).1.ops = m.ops := by
  induction doomed generalizing m with
  | nil => exact ⟨h, rfl, rfl⟩
  | cons d doomed ih =>
    unfold deleteDoomedRecords
    have hdelete : ChatStore.Changes now s (m.chats.delete m.clock d.id (removes d.id)).1 :=
      hnow ▸ (hnow ▸ h : ChatStore.Changes m.clock s m.chats).delete d.id (removes d.id)
    generalize m.chats.delete m.clock d.id (removes d.id) = r at hdelete
    obtain ⟨chats, ok⟩ := r
    exact ih { m with chats } hnow hdelete

theorem closeTabsFor_undisturbed (m : Membership)
    (writes : String → Tabs.WriteOutcome × Tabs.WriteOutcome) (chatID opID : String) :
    Undisturbed m (m.closeTabsFor writes chatID opID) := by
  unfold closeTabsFor
  generalize m.tabsForChat chatID = tabs
  induction tabs generalizing m with
  | nil => exact ⟨rfl, rfl, rfl⟩
  | cons t tabs ih =>
    have hone : Undisturbed m (m.closeDoomed (writes t.id) t.id opID) := by
      rcases closeDoomed_cases m (writes t.id) t.id opID with ⟨hc, -⟩ | ⟨s, f, hs, heq⟩
      · exact hc.undisturbed
      · rw [heq]
        exact ⟨rfl, rfl, rfl⟩
    rw [List.foldl_cons]
    exact hone.trans (ih _)

theorem resolveChat_ops (m : Membership) (req : ChatCreate) (minted : String) :
    (m.resolveChat req minted).1 = m.ops ∨
      ∃ op minted',
        (m.resolveChat req minted).1 = (CreateOp.resolve m.ops m.clock op minted').1 := by
  unfold resolveChat
  split
  · exact .inr ⟨req.opID, minted, rfl⟩
  · exact .inl rfl

/-- One step, and what it does to the records and the ledger. -/
theorem step_advances (m : Membership) (e : MembershipEvent) : Advances m (m.step e) := by
  cases e with
  | create req minted newID saved w =>
    change Advances m (m.createChatAndOpen req minted newID saved w).1
    have hc := createChatAndOpen_created m req minted newID saved w
    generalize m.createChatAndOpen req minted newID saved w = r at hc
    cases hc with
    | refused err => exact .of_eq rfl rfl rfl
    | unrecorded hc => exact ⟨.refl _, Nat.le_refl _, resolveChat_ops m req minted⟩
    | @recorded chats chat hc hget m' r spec hkind href hopen =>
      obtain ⟨hchats, hclock, hops⟩ := (openSubject_commits
        { m with ops := (m.resolveChat req minted).1, chats } w newID spec req.opID).undisturbed
      rw [hopen] at hchats hclock hops
      refine ⟨?_, Nat.le_of_eq hclock.symm, ?_⟩
      · rw [hchats]
        exact .create (.refl _) hc
      · rw [hops]
        exact resolveChat_ops m req minted
  | openTab spec opID runChat newID w =>
    change Advances m (m.openTab spec opID runChat newID w).1
    unfold Membership.openTab
    split
    · exact .of_eq rfl rfl rfl
    · exact (openSubject_commits _ _ _ _ _).undisturbed.advances
  | closeTab id opID retained removes w =>
    change Advances m (m.closeTab id opID retained removes w).1
    have hclosed := close_closed w m.tabs id
    unfold closeTab
    generalize close w m.tabs id = r at hclosed
    cases hclosed with
    | refused err h => exact .of_eq rfl rfl rfl
    | absent h => exact .of_eq rfl rfl rfl
    | closed hid h =>
      simp only
      split
      · exact .of_eq rfl rfl rfl
      · generalize hsent : Membership.emit _ _ = m₁
        have hchats₁ : m₁.chats = m.chats := by rw [← hsent]; rfl
        have hclock₁ : m₁.clock = m.clock := by rw [← hsent]; rfl
        have hops₁ : m₁.ops = m.ops := by rw [← hsent]; rfl
        obtain ⟨hchats, hclock, hops⟩ := deleteDoomedRecords_changes (s := m.chats) removes
          (m.doomedChats id retained) m₁ hclock₁ (hchats₁ ▸ .refl _)
        exact ⟨hchats, Nat.le_of_eq (hclock.trans hclock₁).symm, .inl (hops.trans hops₁)⟩
  | reorderTabs ids opID w => exact (reorderTabs_commits m ids opID w).undisturbed.advances
  | setPinned id pinned opID w =>
    change Advances m (m.setPinned id pinned opID w).1
    unfold Membership.setPinned
    split
    · exact .of_eq rfl rfl rfl
    · split
      · exact .of_eq rfl rfl rfl
      · simp only
        split
        · split
          · exact .of_eq rfl rfl rfl
          · exact .of_eq rfl rfl rfl
        · exact .of_eq rfl rfl rfl
  | reparent id parent opID w =>
    change Advances m (m.reparent id parent opID w).1
    unfold Membership.reparent
    split
    · exact .of_eq rfl rfl rfl
    · split
      · exact .of_eq rfl rfl rfl
      · split
        · exact .of_eq rfl rfl rfl
        · exact .of_eq rfl rfl rfl
        · simp only
          split
          · exact .of_eq rfl rfl rfl
          · split
            · exact .of_eq rfl rfl rfl
            · exact .of_eq rfl rfl rfl
  | deleteChat chatID opID removes writes =>
    change Advances m (m.deleteChatAndCloseTabs chatID opID removes writes).1
    unfold deleteChatAndCloseTabs
    have hdelete : ChatStore.Changes m.clock m.chats (m.chats.delete m.clock chatID removes).1 :=
      ChatStore.Changes.delete (.refl m.chats) chatID removes
    simp only
    generalize m.chats.delete m.clock chatID removes = r at hdelete
    obtain ⟨chats, ok⟩ := r
    cases ok with
    | false => exact .of_eq rfl rfl rfl
    | true =>
      obtain ⟨hchats, hclock, hops⟩ := closeTabsFor_undisturbed
        { m with chats, teardowns := m.teardowns ++ [.delete chatID] } writes chatID opID
      exact ⟨hchats ▸ hdelete, Nat.le_of_eq hclock.symm, .inl hops⟩
  | purgeAdmits chatID =>
    change Advances m (m.purgeAdmits chatID)
    unfold purgeAdmits
    split
    · exact .of_eq rfl rfl rfl
    · exact .of_eq rfl rfl rfl
  | purgeRemoves chatID removes =>
    change Advances m (m.purgeRemoves chatID removes)
    unfold purgeRemoves
    split
    · simp only
      split
      · exact .of_eq rfl rfl rfl
      · split
        · exact ⟨.remove (.refl _) chatID, Nat.le_refl _, .inl rfl⟩
        · exact .of_eq rfl rfl rfl
    · exact .of_eq rfl rfl rfl
  | retentionClose c writes =>
    change Advances m (m.retentionClose c writes)
    unfold retentionClose
    split
    · obtain ⟨hchats, hclock, hops⟩ := closeTabsFor_undisturbed
        { m with
          purged := m.purged.erase c
          teardowns := m.teardowns ++ [Teardown.deleteByChain c.id c.sessionChain] } writes c.id ""
      exact .of_eq hchats hclock hops
    · exact .of_eq rfl rfl rfl
  | recordChanges c =>
    change Advances m (m.recordChanges c)
    unfold recordChanges
    split
    · next hsome => exact ⟨.rewrite (.refl _) hsome, Nat.le_refl _, .inl rfl⟩
    · exact .of_eq rfl rfl rfl
  | passes d => exact ⟨.refl _, Nat.le_add_right _ _, .inl rfl⟩

/-! ## Runs -/

/-- While a time is near, a record known since then stays known and one gone since then stays
gone. -/
theorem step_known_gone {since : ℕ} {chatID : String} (e : MembershipEvent)
    (hsince : since ≤ m.clock) (hnow : (m.step e).clock ≤ since + tombstoneTTL) :
    (m.chats.Known since chatID → (m.step e).chats.Known since chatID) ∧
      (m.chats.Gone since chatID → (m.step e).chats.Gone since chatID) := by
  have hadvances := step_advances m e
  have hbefore := hadvances.clock
  exact hadvances.chats.known_gone (by omega) hsince

/-- The ledger has room for an op more than the live ones. -/
def Roomy (m : Membership) (_ : MembershipEvent) : Prop :=
  (m.ops.filter (m.clock < ·.expires)).length < maxCreateOps

instance (m : Membership) (e : MembershipEvent) : Decidable (m.Roomy e) := by
  unfold Roomy
  infer_instance

/-- Until it expires, an entry is held and its chat is known. -/
structure Remembers (since : ℕ) (e : CreateOp) (m : Membership) : Prop where
  since_le : since ≤ m.clock
  live : m.clock < since + createOpTTL →
    Keyed.find CreateOp.op m.ops e.op = some e ∧ m.chats.Known since e.chatID

theorem Remembers.step {since : ℕ} {e : CreateOp} (h : Remembers since e m)
    (hexpires : e.expires = since + createOpTTL) {ev : MembershipEvent} (hroom : m.Roomy ev) :
    Remembers since e (m.step ev) := by
  have hadvances := step_advances m ev
  have htime := hadvances.clock
  refine ⟨Nat.le_trans h.since_le htime, fun hnow => ?_⟩
  obtain ⟨hfind, hknown⟩ := h.live (by omega)
  refine ⟨?_, (step_known_gone ev h.since_le ?_).1 hknown⟩
  · rcases hadvances.ops with hops | ⟨op, minted, hops⟩
    · rw [hops]
      exact hfind
    · rw [hops]
      exact CreateOp.find_resolve op minted hfind (by omega) hroom
  · exact Nat.le_of_lt hnow

theorem Remembers.resolves {since : ℕ} {e : CreateOp} (h : Remembers since e m)
    (hexpires : e.expires = since + createOpTTL) (hnow : m.clock < e.expires) {req : ChatCreate}
    (hop : req.opID = e.op) (hne : e.op ≠ "") (hid : req.chatID = "") (minted : String) :
    m.priorChat req = (e.chatID, true) ∧ m.resolveChat req minted = (m.ops, e.chatID) := by
  obtain ⟨hfind, -⟩ := h.live (by omega)
  have hpeek : CreateOp.peek m.ops m.clock req.opID = some e.chatID := by
    unfold CreateOp.peek
    rw [hop, if_neg hne, hfind]
    exact if_pos hnow
  have hprior : m.priorChat req = (e.chatID, true) := by
    unfold priorChat
    rw [if_neg (not_not.2 hid), hpeek]
  refine ⟨hprior, ?_⟩
  have hresolve : CreateOp.resolve m.ops m.clock req.opID minted = (m.ops, e.chatID, true) := by
    unfold CreateOp.resolve
    rw [hpeek, if_neg (hop ▸ hne)]
  unfold resolveChat
  rw [hprior, hresolve]
  split
  · rfl
  · rfl

/-- What the first create leaves in the ledger. -/
theorem remembers_create {req : ChatCreate} {minted newID : String} {saved : Bool}
    {w : Tabs.WriteOutcome} {opened : ChatOpened} (hop : req.opID ≠ "") (hid : req.chatID = "")
    (hok : (m.createChatAndOpen req minted newID saved w).2 = .ok opened)
    (hfirst : opened.replay = false) :
    Remembers m.clock
        { op := req.opID, chatID := opened.chat.id, expires := m.clock + createOpTTL }
        (m.step (.create req minted newID saved w)) := by
  have hc := createChatAndOpen_created m req minted newID saved w
  change Remembers _ _ (m.createChatAndOpen req minted newID saved w).1
  generalize m.createChatAndOpen req minted newID saved w = r at hc hok
  cases hc with
  | refused err => cases hok
  | unrecorded hc => cases hok
  | @recorded chats chat hc hget m' r spec hkind href hopen =>
    cases r with
    | error err => cases hok
    | ok tab =>
      cases hok
      obtain ⟨hchats, hclock, hops⟩ := (openSubject_commits
        { m with ops := (m.resolveChat req minted).1, chats } w newID spec req.opID).undisturbed
      rw [hopen] at hchats hclock hops
      simp only at hfirst hchats hclock hops
      have hnew : CreateOp.peek m.ops m.clock req.opID = none := by
        cases hpeek : CreateOp.peek m.ops m.clock req.opID with
        | none => rfl
        | some chatID =>
          unfold priorChat at hfirst
          rw [if_neg (not_not.2 hid), hpeek] at hfirst
          cases hfirst
      have hresolve : m.resolveChat req minted =
          (Keyed.set CreateOp.op (CreateOp.sweep m.clock m.ops)
            { op := req.opID, chatID := minted, expires := m.clock + createOpTTL }, minted) := by
        unfold resolveChat priorChat CreateOp.resolve
        rw [if_neg (not_not.2 hid), hnew, if_pos rfl, if_neg hop]
      rw [hresolve] at hget hops
      rw [ChatStore.get_id hget]
      refine ⟨Nat.le_of_eq hclock.symm, fun _ => ⟨?_, .inl ?_⟩⟩
      · rw [hops]
        exact Keyed.find_set_key
      · rw [hchats, hget]
        rfl

end Membership
end Marotte.Command
