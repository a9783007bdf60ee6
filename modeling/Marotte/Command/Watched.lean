import Marotte.Command.Gates
import Marotte.Tabs.Rows

/-! # The devices that watch

The server's frames go out over a stream that may drop, repeat and reorder them, and each read of
the collection answers some time after it was taken. A device that only watches shows at every
moment a set that the server has held, at that set's version.
-/
namespace Marotte.Command
open Tabs Tabs.Sync

namespace Membership

variable {m m' : Membership}

/-! ## What a step sends -/

/-- A step leaves the set and sends nothing, or commits one version and sends the frame that tells
it. -/
inductive Sends (m m' : Membership) : Prop
  | kept (ht : m'.tabs.toTabState = m.tabs.toTabState) (hf : m'.frames = m.frames)
  | sent {f : TabsChanged} (hv : m'.tabs.version = m.tabs.version + 1)
      (hver : f.version = m'.tabs.version.toNat) (hf : m'.frames = m.frames ++ [f])
      (h : Tells m.tabs.tabs m'.tabs.tabs f)

theorem Sends.of_commits {m₁ : Membership}
    {R : List TabSubject → List TabSubject → TabsChanged → Prop}
    (hc : Commits R m₁ m') (ht : m₁.tabs = m.tabs) (hf : m₁.frames = m.frames)
    (hR : ∀ tabs' f, R m.tabs.tabs tabs' f → Tells m.tabs.tabs tabs' f) : Sends m m' := by
  cases hc with
  | kept h => exact .kept (h.trans (congrArg Store.toTabState ht)) hf
  | @committed s f hv hver h =>
    rw [ht] at hv h
    refine .sent hv hver ?_ (hR _ _ h)
    change m₁.frames ++ [f] = m.frames ++ [f]
    rw [hf]

theorem order_of_wireIDs {tabs : List TabSubject} {order : List String}
    (h : wireIDs (subjectIDs tabs) = some order) : order = tabs.map TabSubject.id := by
  unfold wireIDs at h
  split at h
  · cases h
  · cases h
    rfl

variable {tabs tabs' : List TabSubject} {f : TabsChanged}

theorem Opens.tells {newID : String} {spec : OpenTab} (hids : (tabs'.map TabSubject.id).Nodup)
    (h : Opens newID spec tabs tabs' f) : Tells tabs tabs' f := by
  obtain ⟨t, hperm, -, -, hchanged, hremoved, horder⟩ := h
  apply tells_of_perm hids
  · intro rows hrows
    have hnew : t.id ∉ rows.map TabSubject.id := by
      rw [(hperm.map TabSubject.id).nodup_iff] at hids
      rw [(hrows.map TabSubject.id).mem_iff]
      exact (List.nodup_cons.1 hids).1
    rw [rowsAfter, hchanged, hremoved]
    exact (upsertSubject_new hnew).trans ((hrows.cons t).trans hperm.symm)
  · intro order ho
    exact order_of_wireIDs (horder.symm.trans ho)

theorem Closes.tells {id : String} (hids : (tabs.map TabSubject.id).Nodup)
    (h : Closes id tabs tabs' f) : Tells tabs tabs' f := by
  obtain ⟨-, rfl, hchanged, hremoved, horder⟩ := h
  apply tells_of_perm (hids.sublist (List.filter_sublist.map _))
  · intro rows hrows
    have hnamed : f.removedIDs.getD [] =
        subjectIDs (tabs.filter fun t => t.id ∈ closure tabs id) := by
      rw [hremoved, wireIDs]
      split
      · next hnil => exact hnil.symm
      · rfl
    rw [rowsAfter, hchanged, hnamed, Option.map_none, Option.getD_none,
      removeRows_eq ((hrows.map TabSubject.id).nodup_iff.2 hids)]
    refine (hrows.filter _).trans ?_
    rw [List.filter_congr fun t ht => ?_]
    have hclosed : t.id ∈ subjectIDs (tabs.filter fun t => t.id ∈ closure tabs id) ↔
        t.id ∈ closure tabs id := by
      constructor
      · intro hmem
        obtain ⟨u, hu, heq⟩ := List.mem_map.1 hmem
        exact heq ▸ of_decide_eq_true (List.mem_filter.1 hu).2
      · intro hmem
        exact List.mem_map_of_mem (List.mem_filter.2 ⟨ht, decide_eq_true hmem⟩)
    simp only [hclosed]
  · intro order ho
    exact order_of_wireIDs (horder.symm.trans ho)

theorem Reorders.tells (hids : (tabs.map TabSubject.id).Nodup) (h : Reorders tabs tabs' f) :
    Tells tabs tabs' f := by
  obtain ⟨hperm, hchanged, hremoved, horder⟩ := h
  apply tells_of_perm ((hperm.map TabSubject.id).nodup_iff.2 hids)
  · intro rows hrows
    rw [rowsAfter, hchanged, hremoved]
    exact hrows.trans hperm.symm
  · intro order ho
    exact order_of_wireIDs (horder.symm.trans ho)

theorem Rewrites.tells {id : String} (hids : (tabs.map TabSubject.id).Nodup)
    (h : Rewrites id tabs tabs' f) : Tells tabs tabs' f := by
  obtain ⟨t, t', rest, hold, hnew, hid, hshows, hchanged, hremoved, horder⟩ := h
  have hsame : t'.id = t.id := congrArg Prod.fst hshows
  apply tells_of_perm
  · rw [(hnew.map TabSubject.id).nodup_iff, List.map_cons, hsame]
    rwa [(hold.map TabSubject.id).nodup_iff, List.map_cons] at hids
  · intro rows hrows
    rw [rowsAfter, hchanged, hremoved]
    have hput := upsertSubject_old ((hrows.map TabSubject.id).nodup_iff.2 hids)
      (hrows.trans hold) hsame
    exact hput.trans hnew.symm
  · intro order ho
    rcases horder with hnone | hsome
    · rw [hnone] at ho
      cases ho
    · exact order_of_wireIDs (hsome.symm.trans ho)

/-! ## One frame for each step -/

/-- A close whose write goes through is not refused. -/
theorem closed_of_done {s : Store} {id : String} {s' : Store} {err : TabError}
    (h : close .done s id = (s', .error err)) : False := by
  unfold close mutate at h
  simp only at h
  split at h
  · next hclosed =>
    split at hclosed <;> cases hclosed
  · split at h <;> cases h

/-- One of the two writes of each close of a lost chat's tab goes through. -/
def Persists : MembershipEvent → Prop
  | .deleteChat _ _ _ writes | .retentionClose _ writes =>
    ∀ id, (writes id).1 = .done ∨ (writes id).2 = .done
  | _ => True

theorem closeDoomed_commits {writes : Tabs.WriteOutcome × Tabs.WriteOutcome} (id opID : String)
    (hw : writes.1 = .done ∨ writes.2 = .done) :
    Commits (Closes id) m (m.closeDoomed writes id opID) := by
  rcases closeDoomed_cases m writes id opID with ⟨hc, -⟩ | ⟨s, f, -, heq⟩
  · exact hc
  · exfalso
    have hstranded : (m.closeDoomed writes id opID).stranded = m.stranded := by
      unfold closeDoomed
      simp only
      split
      · split <;> rfl
      · next herr =>
        split
        · split <;> rfl
        · next herr' =>
          rcases hw with hw | hw
          · rw [hw] at herr
            exact (closed_of_done herr).elim
          · rw [hw] at herr'
            exact (closed_of_done herr').elim
    have hlength := congrArg (fun m => m.stranded.length) heq
    simp only [hstranded, emit, List.length_append, List.length_singleton] at hlength
    omega

theorem closeTabsFor_sends {m₁ : Membership} (hd : Distinct m.tabs.tabs) {chatID : String}
    {writes : String → Tabs.WriteOutcome × Tabs.WriteOutcome} (opID : String)
    (hw : ∀ id, (writes id).1 = .done ∨ (writes id).2 = .done) (ht : m₁.tabs = m.tabs)
    (hf : m₁.frames = m.frames) : Sends m (m₁.closeTabsFor writes chatID opID) := by
  rw [← ht] at hd
  unfold closeTabsFor
  rcases tabsForChat_cases hd chatID with ⟨hnil, -⟩ | ⟨t, -, -, -, hone, -⟩
  · rw [hnil]
    exact .kept (congrArg Store.toTabState ht) hf
  · rw [hone, List.foldl_cons, List.foldl_nil]
    apply Sends.of_commits (closeDoomed_commits t.id opID (hw t.id)) ht hf
    intro tabs' f
    rw [← ht]
    exact Closes.tells hd.ids

theorem openSubject_sends {m₁ : Membership} (hd : Distinct m.tabs.tabs) (w : Tabs.WriteOutcome)
    {newID : String} (spec : OpenTab) (opID : String) (hid : newID ∉ m.tabs.tabs.map TabSubject.id)
    (ht : m₁.tabs = m.tabs) (hf : m₁.frames = m.frames) :
    Sends m (m₁.openSubject w newID spec opID).1 := by
  rw [← ht] at hd hid
  apply Sends.of_commits (openSubject_commits m₁ w newID spec opID) ht hf
  intro tabs' f h
  rw [← ht] at h ⊢
  exact h.tells (h.distinct hid hd).ids

theorem createChatAndOpen_sends (hd : Distinct m.tabs.tabs) (req : ChatCreate) (minted : String)
    {newID : String} (saved : Bool) (w : Tabs.WriteOutcome)
    (hid : newID ∉ m.tabs.tabs.map TabSubject.id) :
    Sends m (m.createChatAndOpen req minted newID saved w).1 := by
  have hc := createChatAndOpen_created m req minted newID saved w
  generalize m.createChatAndOpen req minted newID saved w = r at hc
  cases hc with
  | refused err => exact .kept rfl rfl
  | unrecorded hc => exact .kept rfl rfl
  | @recorded chats chat hc hget m' r spec hkind href hopen =>
    have hopened : Sends m (({ m with ops := (m.resolveChat req minted).1, chats } :
        Membership).openSubject w newID spec req.opID).1 :=
      openSubject_sends hd w spec req.opID hid rfl rfl
    rw [hopen] at hopened
    exact hopened

theorem closeTab_sends (hd : Distinct m.tabs.tabs) (id opID : String) (retained : Bool)
    (removes : String → Bool) (w : Tabs.WriteOutcome) :
    Sends m (m.closeTab id opID retained removes w).1 := by
  have hcases := closeTab_closes m id opID retained removes w (nodup_doomedChats m id retained)
  generalize (m.closeTab id opID retained removes w).1 = m' at hcases
  cases hcases with
  | kept hs => exact .kept hs rfl
  | @closed m₁ m₂ deleted hc htabs hdel =>
    have hsends : Sends m m₁ :=
      .of_commits hc rfl rfl fun _ _ => Closes.tells hd.ids
    have htabs₂ : m₂.tabs = m₁.tabs := by rw [hdel.rest]
    have hframes₂ : m₂.frames = m₁.frames := by rw [hdel.rest]
    cases hsends with
    | kept ht hf => exact .kept (htabs₂ ▸ ht) (hframes₂.trans hf)
    | sent hv hver hf h =>
      rw [← htabs₂] at hv hver h
      exact .sent hv hver (hframes₂.trans hf) h

/-- Every step sends exactly what it commits. -/
theorem step_sends (hd : Distinct m.tabs.tabs) {e : MembershipEvent} (he : m.Fresh e)
    (hw : Persists e) : Sends m (m.step e) := by
  cases e with
  | create req minted newID saved w => exact createChatAndOpen_sends hd req minted saved w he
  | openTab spec opID runChat newID w =>
    change Sends m (m.openTab spec opID runChat newID w).1
    unfold Membership.openTab
    split
    · exact .kept rfl rfl
    · exact openSubject_sends hd w _ opID he rfl rfl
  | closeTab id opID retained removes w => exact closeTab_sends hd id opID retained removes w
  | reorderTabs ids opID w =>
    exact .of_commits (reorderTabs_commits m ids opID w) rfl rfl fun _ _ => Reorders.tells hd.ids
  | setPinned id pinned opID w =>
    exact .of_commits (setPinned_commits m id pinned opID w hd.ids) rfl rfl
      fun _ _ => Rewrites.tells hd.ids
  | reparent id parent opID w =>
    exact .of_commits (reparent_commits m id parent opID w hd.ids) rfl rfl
      fun _ _ => Rewrites.tells hd.ids
  | deleteChat chatID opID removes writes =>
    change Sends m (m.deleteChatAndCloseTabs chatID opID removes writes).1
    unfold deleteChatAndCloseTabs
    simp only
    split
    · exact .kept rfl rfl
    · exact closeTabsFor_sends hd opID hw rfl rfl
  | purgeAdmits chatID =>
    change Sends m (m.purgeAdmits chatID)
    unfold purgeAdmits
    split
    · exact .kept rfl rfl
    · exact .kept rfl rfl
  | purgeRemoves chatID removes =>
    change Sends m (m.purgeRemoves chatID removes)
    unfold purgeRemoves
    split
    · simp only
      split
      · exact .kept rfl rfl
      · split
        · exact .kept rfl rfl
        · exact .kept rfl rfl
    · exact .kept rfl rfl
  | retentionClose c writes =>
    change Sends m (m.retentionClose c writes)
    unfold retentionClose
    split
    · exact closeTabsFor_sends hd "" hw rfl rfl
    · exact .kept rfl rfl
  | recordChanges c =>
    change Sends m (m.recordChanges c)
    unfold recordChanges
    split
    · exact .kept rfl rfl
    · exact .kept rfl rfl
  | passes d => exact .kept rfl rfl

end Membership

/-! ## A device beside the server -/

/-- A server and a device, the answers of reads on their way to it, and the sets that the server has
held since it started. -/
structure Watched where
  server : Membership
  device : Machine := {}
  lists : List TabList := []
  past : List TabState

inductive WatchEvent where
  | server (e : MembershipEvent)
  | serverLists
  | device (e : Event)

namespace Watched

/-- A device that has seen nothing yet: no tab at version zero. -/
def watch (m : Membership) : Watched where
  server := m
  past := [{}, m.tabs.toTabState]

/-- What a read of the collection answers now. -/
def list (w : Watched) : TabList :=
  { tabs := w.server.tabs.tabs, version := w.server.tabs.version.toNat }

def step (w : Watched) : WatchEvent → Watched
  | .server e =>
    { w with
      server := w.server.step e
      past := w.past ++ [(w.server.step e).tabs.toTabState] }
  | .serverLists => { w with lists := w.lists ++ [w.list] }
  | .device e => { w with device := w.device.step e }

/-- What may happen: a step of the server that mints a new id, is not refused twice the close of a
lost chat's tab and has a version left that the wire can carry; and at the device a frame that was
sent, an answer that was taken, or its own loop. -/
def Admits (w : Watched) : WatchEvent → Prop
  | .server e =>
    w.server.Fresh e ∧ Membership.Persists e ∧ w.server.tabs.version.toNat + 1 ≤ 9007199254740991
  | .serverLists => True
  | .device (.frame f) => f ∈ w.server.frames
  | .device (.listAnswers list) => ∀ l, list = some l → l ∈ w.lists
  | .device .drainResumes | .device .listTabs | .device .listDone => True
  | .device _ => False

/-- The sets held since the start, one at a version, each announced to be told from the one before;
and the device at one of them. -/
structure Told (w : Watched) : Prop where
  sound : w.server.Sound
  current : w.server.tabs.toTabState ∈ w.past
  bounded : ∀ S ∈ w.past, S.version.toNat ≤ w.server.tabs.version.toNat
  announces : Announces (· ∈ w.past) (· ∈ w.server.frames)
  watches : Watches (· ∈ w.past) (· ∈ w.server.frames) w.device
  lists : ∀ l ∈ w.lists, ∃ S ∈ w.past, l.tabs = S.tabs ∧ l.version = S.version.toNat

variable {w : Watched}

theorem told_watch {m : Membership} (hm : m.Sound) (hf : m.frames = [])
    (hzero : m.tabs.version = 0 → m.tabs.tabs = []) : Told (watch m) := by
  have hpast : ∀ S ∈ (watch m).past, S = {} ∨ S = m.tabs.toTabState := by
    intro S hS
    simpa [watch] using hS
  have hempty : m.tabs.version = 0 → m.tabs.toTabState = {} := by
    intro h
    rw [← TabState.mk.injEq m.tabs.tabs m.tabs.version [] 0 |>.mpr ⟨hzero h, h⟩]
  refine ⟨hm, by simp [watch], ?_, ⟨?_, ?_, ?_⟩, ⟨rfl, ?_, {}, ?_, rfl, .refl _, ?_⟩, ?_⟩
  · intro S hS
    rcases hpast S hS with rfl | rfl
    · exact Nat.zero_le _
    · exact Nat.le_refl _
  · intro S hS
    rcases hpast S hS with rfl | rfl
    · exact List.nodup_nil
    · exact hm.distinct.ids
  · intro S S' hS hS' hv
    rcases hpast S hS with rfl | rfl
    · rcases hpast S' hS' with rfl | rfl
      · rfl
      · exact (hempty hv.symm).symm
    · rcases hpast S' hS' with rfl | rfl
      · exact hempty hv
      · rfl
  · intro f hsent
    rw [show (watch m).server.frames = [] from hf] at hsent
    exact absurd hsent List.not_mem_nil
  · exact fun f hq => absurd hq List.not_mem_nil
  · exact List.mem_cons_self
  · intro c hc
    cases hc
  · exact fun l hl => absurd hl List.not_mem_nil

theorem Told.server (h : Told w) {e : MembershipEvent} (he : w.Admits (.server e)) :
    Told (w.step (.server e)) := by
  obtain ⟨hfresh, hpersists, hroom⟩ := he
  have hsound := h.sound.step hfresh
  have hkept : ∀ S ∈ w.past, S ∈ w.past ++ [(w.server.step e).tabs.toTabState] :=
    fun S hS => List.mem_append_left _ hS
  have hnow : (w.server.step e).tabs.toTabState ∈ (w.step (.server e)).past :=
    List.mem_append_right _ (List.mem_singleton.2 rfl)
  have hpast : ∀ S ∈ (w.step (.server e)).past,
      S ∈ w.past ∨ S = (w.server.step e).tabs.toTabState := by
    intro S hS
    exact (List.mem_append.1 hS).imp_right List.mem_singleton.1
  have hlists : ∀ l ∈ w.lists, ∃ S ∈ (w.step (.server e)).past,
      l.tabs = S.tabs ∧ l.version = S.version.toNat := by
    intro l hl
    obtain ⟨S, hS, heq⟩ := h.lists l hl
    exact ⟨S, hkept S hS, heq⟩
  cases Membership.step_sends h.sound.distinct hfresh hpersists with
  | kept ht hf =>
    have hsame : ∀ S ∈ (w.step (.server e)).past, S ∈ w.past := by
      intro S hS
      rcases hpast S hS with hS | rfl
      · exact hS
      · rw [ht]
        exact h.current
    have hsent : ∀ f ∈ (w.server.step e).frames, f ∈ w.server.frames := by
      rw [hf]
      exact fun _ => id
    refine ⟨hsound, hnow, ?_, ⟨?_, ?_, ?_⟩, ?_, hlists⟩
    · intro S hS
      change S.version.toNat ≤ (w.server.step e).tabs.version.toNat
      rw [congrArg TabState.version ht]
      exact h.bounded S (hsame S hS)
    · exact fun S hS => h.announces.distinct S (hsame S hS)
    · exact fun S S' hS hS' => h.announces.unique S S' (hsame S hS) (hsame S' hS')
    · intro f hf'
      obtain ⟨S, S', hS, hS', htold⟩ := h.announces.frames f (hsent f hf')
      exact ⟨S, S', hkept S hS, hkept S' hS', htold⟩
    · exact h.watches.mono hkept fun f hf' => by
        change f ∈ (w.server.step e).frames
        rw [hf]
        exact hf'
  | @sent f hv hver hf htells =>
    have hnext : (w.server.step e).tabs.version.toNat = w.server.tabs.version.toNat + 1 := by
      have hone : (1 : UInt64).toNat = 1 := rfl
      rw [hv, UInt64.toNat_add, hone]
      exact Nat.mod_eq_of_lt (by omega)
    have hnew : ∀ S ∈ w.past, S.version ≠ (w.server.step e).tabs.version := by
      intro S hS heq
      have hle := h.bounded S hS
      rw [heq, hnext] at hle
      omega
    refine ⟨hsound, hnow, ?_, ⟨?_, ?_, ?_⟩, ?_, hlists⟩
    · intro S hS
      rcases hpast S hS with hS | rfl
      · have hle := h.bounded S hS
        change S.version.toNat ≤ (w.server.step e).tabs.version.toNat
        omega
      · exact Nat.le_refl _
    · intro S hS
      rcases hpast S hS with hS | rfl
      · exact h.announces.distinct S hS
      · exact hsound.distinct.ids
    · intro S S' hS hS' heq
      rcases hpast S hS with hS | rfl
      · rcases hpast S' hS' with hS' | rfl
        · exact h.announces.unique S S' hS hS' heq
        · exact absurd heq (hnew S hS)
      · rcases hpast S' hS' with hS' | rfl
        · exact absurd heq.symm (hnew S' hS')
        · rfl
    · intro g hg
      change g ∈ (w.server.step e).frames at hg
      rw [hf] at hg
      rcases List.mem_append.1 hg with hg | hg
      · obtain ⟨S, S', hS, hS', htold⟩ := h.announces.frames g hg
        exact ⟨S, S', hkept S hS, hkept S' hS', htold⟩
      · cases List.mem_singleton.1 hg
        exact ⟨_, _, hkept _ h.current, hnow, hver, hver.trans hnext, htells⟩
    · exact h.watches.mono hkept fun g hg => by
        change g ∈ (w.server.step e).frames
        rw [hf]
        exact List.mem_append_left _ hg

theorem Told.device (h : Told w) {e : Event} (he : w.Admits (.device e)) :
    Told (w.step (.device e)) := by
  have hreaches : Reaches (· ∈ w.past) (· ∈ w.server.frames) e := by
    cases e with
    | listAnswers list => exact fun l hl => h.lists l (he l hl)
    | _ => exact he
  exact ⟨h.sound, h.current, h.bounded, h.announces, h.watches.step h.announces hreaches, h.lists⟩

theorem Told.step (h : Told w) {e : WatchEvent} (he : w.Admits e) : Told (w.step e) := by
  cases e with
  | server e => exact h.server he
  | serverLists =>
    refine ⟨h.sound, h.current, h.bounded, h.announces, h.watches, fun l hl => ?_⟩
    rcases List.mem_append.1 hl with hl | hl
    · exact h.lists l hl
    · cases List.mem_singleton.1 hl
      exact ⟨_, h.current, rfl, rfl⟩
  | device e => exact h.device he

/-- A device at the server's version shows what the server holds. -/
theorem Told.shows_current (h : Told w)
    (hv : w.device.localVersion = w.server.tabs.version.toNat) :
    Shows w.device.calls w.server.tabs.tabs := by
  obtain ⟨S, hS, hversion, hshows⟩ := h.watches.shows
  have hsame : S = w.server.tabs.toTabState :=
    h.announces.unique _ _ hS h.current (UInt64.toNat.inj (hversion.trans hv))
  rw [hsame] at hshows
  exact hshows

/-- Two chats are opened, and the second one's frame arrives first. -/
def overtaken : List WatchEvent :=
  [.server (.create {} "c-1" "t1" true .done),
    .server (.create { parentChat := "c-1" } "c-2" "t2" true .done),
    .device
      (.frame
        { version := 2
          changed := some { id := "t2", kind := .chat, ref := "c-2", parent := "t1", owns := true }
          order := some ["t1", "t2"] })]

theorem along_overtaken :
    Along step Admits (watch (Membership.boot none {} .done).1) overtaken :=
  ⟨⟨by decide +kernel, trivial, by decide +kernel⟩, ⟨by decide +kernel, trivial, by decide +kernel⟩,
    show _ ∈ _ by decide +kernel, trivial⟩

/-- The read that a device that has fallen behind makes. -/
def readsAgain (w : Watched) : List WatchEvent :=
  [.device .listDone, .device .listTabs, .serverLists, .device (.listAnswers (some w.list)),
    .device .listDone, .device .drainResumes]

end Watched
end Marotte.Command
