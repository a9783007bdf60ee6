import Marotte.Tabs.Sync
import Mathlib.Data.List.Perm.Basic

/-! # The rows of the tab strip

What a frame that the sync half lets through makes of the rows, and what a list does. The rows are
the subjects: their names, dots and views are left aside. A device that only watches holds the set
of some version at that version's number.
-/
namespace Marotte.Tabs.Sync

/-! ## The order in which rows are drawn -/

/-- A row joins the last group that holds its parent. -/
def joinGroup (t : TabSubject) : List (List TabSubject) → Option (List (List TabSubject))
  | [] => none
  | g :: groups =>
    match joinGroup t groups with
    | some groups => some (g :: groups)
    | none => if g.any (·.id = t.parent) then some ((g ++ [t]) :: groups) else none

/-- Each parent with its descendants, in the rows' order. -/
def groupsOf (rows : List TabSubject) : List (List TabSubject) :=
  rows.foldl (fun groups t =>
    if t.parent = "" then groups ++ [[t]] else (joinGroup t groups).getD (groups ++ [[t]])) []

def pinnedGroup (g : List TabSubject) : Bool := g.head?.any TabSubject.pinned

/-- Every pinned group ahead of every unpinned one. -/
def pinPartition (rows : List TabSubject) : List TabSubject :=
  let groups := groupsOf rows
  let pinned := groups.filter pinnedGroup
  if pinned = [] ∨ pinned.length = groups.length then rows
  else (pinned ++ groups.filter fun g => !pinnedGroup g).flatten

/-- A sub-tab stands behind its parent's children, and any other row last. -/
def insertRow (rows : List TabSubject) (row : TabSubject) : List TabSubject :=
  if row.parent = "" then pinPartition (rows ++ [row])
  else
    match indexOfID rows row.parent with
    | none => pinPartition (rows ++ [row])
    | some i =>
      let kids := (rows.drop (i + 1)).takeWhile fun t => t.parent = row.parent
      rows.insertIdx (i + 1 + kids.length) row

def upsertSubject (rows : List TabSubject) (subject : TabSubject) : List TabSubject :=
  match indexOfID rows subject.id with
  | none => insertRow rows subject
  | some i => pinPartition (rows.set i subject)

def removeRows (rows : List TabSubject) (ids : List String) : List TabSubject :=
  ids.foldl (fun rows id => rows.eraseP (·.id = id)) rows

/-- The rows that a mutation leaves: the changed one is put in place, then the removed ones go. -/
def rowsAfter (rows : List TabSubject) (delta : TabsChanged) : List TabSubject :=
  removeRows ((delta.changed.map (upsertSubject rows)).getD rows) (delta.removedIDs.getD [])

/-- One committed mutation: the changed row, then the removals, then the order. -/
def apply (rows : List TabSubject) (delta : TabsChanged) : List TabSubject :=
  match delta.order with
  | none => rowsAfter rows delta
  | some order => pinPartition (permute TabSubject.id (rowsAfter rows delta) order)

/-- A snapshot is the whole set. -/
def reset (subjects : List TabSubject) : List TabSubject := pinPartition subjects

/-- What one call of the sync half makes of the rows. -/
def target (rows : List TabSubject) : Call → List TabSubject
  | .apply delta _ => apply rows delta
  | .reset tabs => reset tabs
  | .confirm _ | .rollback _ | .removesSettled => rows

/-! ## The same rows in another order -/

theorem joinGroup_perm {t : TabSubject} {groups groups' : List (List TabSubject)}
    (h : joinGroup t groups = some groups') : groups'.flatten.Perm (t :: groups.flatten) := by
  induction groups generalizing groups' with
  | nil => cases h
  | cons g groups ih =>
    unfold joinGroup at h
    split at h
    · next groups₁ hjoin =>
      cases h
      rw [List.flatten_cons, List.flatten_cons]
      exact ((ih hjoin).append_left g).trans List.perm_middle
    · split at h
      · cases h
        rw [List.flatten_cons, List.flatten_cons, List.append_assoc]
        exact List.perm_middle
      · cases h

theorem groupsOf_perm (rows : List TabSubject) : (groupsOf rows).flatten.Perm rows := by
  suffices hfold : ∀ groups : List (List TabSubject),
      (rows.foldl (fun groups t =>
        if t.parent = "" then groups ++ [[t]]
        else (joinGroup t groups).getD (groups ++ [[t]])) groups).flatten.Perm
          (groups.flatten ++ rows) by
    exact hfold []
  induction rows with
  | nil => intro groups; rw [List.foldl_nil, List.append_nil]
  | cons t rows ih =>
    intro groups
    rw [List.foldl_cons]
    refine (ih _).trans ?_
    have hnew : (groups ++ [[t]]).flatten.Perm (groups.flatten ++ [t]) := by
      rw [List.flatten_append]
      exact .refl _
    have hstep : (if t.parent = "" then groups ++ [[t]]
        else (joinGroup t groups).getD (groups ++ [[t]])).flatten.Perm (groups.flatten ++ [t]) := by
      split
      · exact hnew
      · cases hjoin : joinGroup t groups with
        | none => exact hnew
        | some groups' => exact (joinGroup_perm hjoin).trans (List.perm_append_singleton t _).symm
    refine (hstep.append_right rows).trans ?_
    rw [List.append_assoc]
    exact .refl _

theorem pinPartition_perm (rows : List TabSubject) : (pinPartition rows).Perm rows := by
  unfold pinPartition
  simp only
  split
  · exact .refl _
  · exact (List.filter_append_perm pinnedGroup (groupsOf rows)).flatten.trans (groupsOf_perm rows)

theorem insertRow_perm (rows : List TabSubject) (row : TabSubject) :
    (insertRow rows row).Perm (row :: rows) := by
  have hlast : (pinPartition (rows ++ [row])).Perm (row :: rows) :=
    (pinPartition_perm _).trans (List.perm_append_singleton row rows)
  unfold insertRow
  split
  · exact hlast
  · split
    · exact hlast
    · next i hi =>
      obtain ⟨hlt, -, -⟩ := List.findIdx?_eq_some_iff_getElem.1 hi
      have hkids := (List.takeWhile_prefix (fun t : TabSubject => decide (t.parent = row.parent))
        (l := rows.drop (i + 1))).length_le
      rw [List.length_drop] at hkids
      exact List.perm_insertIdx _ _ (by omega)

/-- A row that is not there is added. -/
theorem upsertSubject_new {rows : List TabSubject} {t : TabSubject}
    (h : t.id ∉ rows.map TabSubject.id) : (upsertSubject rows t).Perm (t :: rows) := by
  have hnone : indexOfID rows t.id = none := by
    simpa [indexOfID] using h
  unfold upsertSubject
  rw [hnone]
  exact insertRow_perm rows t

/-- A row that is there is replaced. -/
theorem upsertSubject_old {rows rest : List TabSubject} {t t' : TabSubject}
    (hids : (rows.map TabSubject.id).Nodup) (h : rows.Perm (t :: rest)) (hid : t'.id = t.id) :
    (upsertSubject rows t').Perm (t' :: rest) := by
  have hmem : t ∈ rows := h.mem_iff.2 List.mem_cons_self
  unfold upsertSubject
  split
  · next hnone =>
    have hout : t'.id ∉ rows.map TabSubject.id := by simpa [indexOfID] using hnone
    exact absurd (hid ▸ List.mem_map_of_mem hmem) hout
  · next i hi =>
    obtain ⟨hlt, hfound, -⟩ := List.findIdx?_eq_some_iff_getElem.1 hi
    have heq : rows[i] = t := by
      apply List.inj_on_of_nodup_map hids (List.getElem_mem hlt) hmem
      exact (of_decide_eq_true hfound).trans hid
    have hrest : rest.Perm (rows.eraseIdx i) := by
      have hsplit := List.getElem_cons_eraseIdx_perm hlt
      rw [heq] at hsplit
      exact (h.symm.trans hsplit.symm).cons_inv
    refine (pinPartition_perm _).trans ?_
    exact (List.set_perm_cons_eraseIdx hlt t').trans (hrest.symm.cons t')

/-- A removal takes out the rows that it names. -/
theorem removeRows_eq {rows : List TabSubject} (hids : (rows.map TabSubject.id).Nodup)
    (ids : List String) : removeRows rows ids = rows.filter (·.id ∉ ids) := by
  induction ids generalizing rows with
  | nil => simp [removeRows]
  | cons id ids ih =>
    have herase : rows.eraseP (·.id = id) = rows.filter (·.id ≠ id) := by
      clear ih
      induction rows with
      | nil => rfl
      | cons t rows ih =>
        obtain ⟨hnew, hrest⟩ := List.nodup_cons.1 hids
        rw [List.eraseP_cons, List.filter_cons]
        by_cases ht : t.id = id
        · have hnone : rows.filter (·.id ≠ id) = rows := by
            rw [List.filter_eq_self]
            intro u hu
            apply decide_eq_true
            intro hid
            exact hnew (ht.trans hid.symm ▸ List.mem_map_of_mem hu)
          simp only [ht, decide_true, ne_eq, not_true, decide_false, Bool.false_eq_true, if_false]
          exact hnone.symm
        · simp only [ht, decide_false, ne_eq, not_false_eq_true, decide_true, if_true, cond_false]
          exact congrArg _ (ih hrest)
    rw [removeRows, List.foldl_cons, herase, ← removeRows,
      ih (hids.sublist (List.filter_sublist.map _)), List.filter_filter]
    apply List.filter_congr
    intro t _
    by_cases ht : t.id = id <;> simp [ht]

section Permute
variable {α : Type*} {idOf : α → String}

theorem find_reverse {items : List α} (hids : (items.map idOf).Nodup) {a : α} (h : a ∈ items) :
    items.reverse.find? (idOf · = idOf a) = some a := by
  have hrev : (items.reverse.map idOf).Nodup := by
    rw [List.map_reverse]
    exact List.nodup_reverse.2 hids
  have hfind : Keyed.find idOf items.reverse (idOf a) = some a :=
    Keyed.find_of_mem hrev (List.mem_reverse.2 h)
  exact hfind

theorem perm_cons_filter {items : List α} (hids : (items.map idOf).Nodup) {a : α} (h : a ∈ items) :
    items.Perm (a :: items.filter (idOf · ≠ idOf a)) := by
  induction items with
  | nil => cases h
  | cons b items ih =>
    obtain ⟨hnew, hrest⟩ := List.nodup_cons.1 hids
    rcases List.mem_cons.1 h with rfl | hmem
    · have hnone : items.filter (idOf · ≠ idOf a) = items := by
        rw [List.filter_eq_self]
        intro c hc
        exact decide_eq_true fun heq => hnew (heq ▸ List.mem_map_of_mem hc)
      rw [List.filter_cons_of_neg (by simp), hnone]
    · have hne : idOf b ≠ idOf a := fun heq => hnew (heq ▸ List.mem_map_of_mem hmem)
      rw [List.filter_cons_of_pos (by simpa using hne)]
      exact ((ih hrest hmem).cons b).trans (.swap a b _)

/-- An order that names every item is the one they come out in. -/
theorem permute_all {items sorted : List α} (hids : (items.map idOf).Nodup)
    (h : items.Perm sorted) : permute idOf items (sorted.map idOf) = sorted := by
  induction sorted generalizing items with
  | nil => exact h.eq_nil
  | cons a sorted ih =>
    have hmem : a ∈ items := h.mem_iff.2 List.mem_cons_self
    rw [List.map_cons]
    unfold permute
    rw [find_reverse hids hmem]
    have hrest : (items.filter (idOf · ≠ idOf a)).Perm sorted :=
      ((perm_cons_filter hids hmem).symm.trans h).cons_inv
    have hids' := hids.sublist ((List.filter_sublist (p := (idOf · ≠ idOf a))).map idOf)
    exact congrArg _ (ih hids' hrest)

end Permute

/-! ## What a frame tells -/

/-- Rows that hold one set come to hold the other, in the order that is drawn for it where the frame
carries an order. -/
def Tells (tabs tabs' : List TabSubject) (f : TabsChanged) : Prop :=
  ∀ rows : List TabSubject, rows.Perm tabs →
    (apply rows f).Perm tabs' ∧ (f.order.isSome → apply rows f = pinPartition tabs')

/-- A frame whose order, if it has one, is the new set's. -/
theorem tells_of_perm {tabs tabs' : List TabSubject} {f : TabsChanged}
    (hids : (tabs'.map TabSubject.id).Nodup)
    (h : ∀ rows : List TabSubject, rows.Perm tabs → (rowsAfter rows f).Perm tabs')
    (horder : ∀ order, f.order = some order → order = tabs'.map TabSubject.id) :
    Tells tabs tabs' f := by
  intro rows hrows
  have hperm := h rows hrows
  unfold apply
  cases hf : f.order with
  | none => exact ⟨hperm, fun h => absurd h Bool.false_ne_true⟩
  | some order =>
    have hsorted := permute_all ((hperm.map TabSubject.id).nodup_iff.2 hids) hperm
    simp only
    rw [horder order hf, hsorted]
    exact ⟨pinPartition_perm tabs', fun _ => rfl⟩

/-! ## A device that only watches -/

/-- The rows that a machine's calls have drawn. -/
def shown (calls : List Call) : List TabSubject := calls.foldl target []

/-- Whether the rows after a call stand in an order that the server stated. -/
def Call.orders : Call → Bool
  | .apply delta _ => delta.order.isSome
  | .reset _ => true
  | _ => false

/-- The rows hold a set, in its drawn order where the last call stated one. -/
structure Shows (calls : List Call) (tabs : List TabSubject) : Prop where
  rows : (shown calls).Perm tabs
  order : ∀ c, calls.getLast? = some c → c.orders → shown calls = pinPartition tabs

/-- What a server has held and announced: one set at each version, and frames that tell each the
next. -/
structure Announces (held : TabState → Prop) (sent : TabsChanged → Prop) : Prop where
  distinct : ∀ S, held S → (S.tabs.map TabSubject.id).Nodup
  unique : ∀ S S', held S → held S' → S.version = S'.version → S = S'
  frames : ∀ f, sent f → ∃ S S', held S ∧ held S' ∧ f.version = S'.version.toNat ∧
    f.version = S.version.toNat + 1 ∧ Tells S.tabs S'.tabs f

/-- A machine with no operation of its own, at some set that the server has held. -/
structure Watches (held : TabState → Prop) (sent : TabsChanged → Prop) (s : Machine) : Prop where
  passive : s.pendingOps = []
  queue : ∀ f ∈ s.queue, sent f
  shows : ∃ S, held S ∧ S.version.toNat = s.localVersion ∧ Shows s.calls S.tabs

section Passive
variable {s : Machine} (hs : s.pendingOps = [])
include hs

theorem overlayFrame_passive (f : TabsChanged) : s.overlayFrame f = f := by
  have horder : ∀ order version, s.overlayOrder order version = order := by
    intro order version
    rw [Machine.overlayOrder, hs, List.foldl_nil]
  have hchanged : ∀ t, s.suppressChanged t = false := by
    intro t
    rw [Machine.suppressChanged, Machine.capturedBy, hs, List.foldl_nil]
  have hmap : f.order.map (s.overlayOrder · (some f.version)) = f.order := by
    cases f.order with
    | none => rfl
    | some order => exact congrArg some (horder order _)
  have hany : f.changed.any s.suppressChanged = false := by
    cases f.changed with
    | none => rfl
    | some t => exact hchanged t
  unfold Machine.overlayFrame
  simp only [hmap, hany, Bool.false_eq_true, if_false]

theorem overlayList_passive {tabs : List TabSubject} (hids : (tabs.map TabSubject.id).Nodup)
    (version : ℕ) : s.overlayList tabs version = tabs := by
  have horder : ∀ order version, s.overlayOrder order version = order := by
    intro order version
    rw [Machine.overlayOrder, hs, List.foldl_nil]
  unfold Machine.overlayList
  simp only [hs, List.foldl_nil, horder]
  exact permute_all hids (.refl _)

theorem settleFrame_passive (opID : Option String) : s.settleFrame opID = s := by
  have hpending : opID.bind s.pending = none := by
    cases opID with
    | none => rfl
    | some k => rw [Option.bind_some, Machine.pending, hs]; rfl
  unfold Machine.settleFrame
  rw [hpending]
  simp only [Machine.absorbCommitted, hs, List.foldl_nil]

/-- With nothing pending, a list that is not stale is adopted as it is. -/
theorem readList_passive {list : TabList} (hids : (list.tabs.map TabSubject.id).Nodup)
    (h : s.localVersion ≤ list.version) :
    s.readList (some list) =
      ({ s with localVersion := list.version } : Machine).call (.reset list.tabs) := by
  have hpassive : ({ s with localVersion := list.version } : Machine).pendingOps = [] := hs
  have hsettle : ({ s with localVersion := list.version } : Machine).settleVerifying list.tabs =
      ({ s with localVersion := list.version }, [], []) := by
    rw [Machine.settleVerifying, hpassive, List.foldl_nil]
  have habsorb : ∀ c, (({ s with localVersion := list.version } : Machine).call c).absorbCommitted =
      ({ s with localVersion := list.version } : Machine).call c := by
    intro c
    have hcalled : (({ s with localVersion := list.version } : Machine).call c).pendingOps = [] :=
      hs
    rw [Machine.absorbCommitted, hcalled, List.foldl_nil]
  unfold Machine.readList
  simp only
  rw [if_neg (by omega), hsettle]
  simp only [List.foldl_nil, ne_eq, not_true, or_self, if_false]
  rw [overlayList_passive hpassive hids]
  exact habsorb _

end Passive

theorem shown_concat (calls : List Call) (c : Call) :
    shown (calls ++ [c]) = target (shown calls) c := by
  rw [shown, List.foldl_append, List.foldl_cons, List.foldl_nil, shown]

theorem shows_concat {calls : List Call} {c : Call} {tabs : List TabSubject}
    (hrows : (target (shown calls) c).Perm tabs)
    (horder : c.orders → target (shown calls) c = pinPartition tabs) :
    Shows (calls ++ [c]) tabs := by
  rw [← shown_concat] at hrows horder
  refine ⟨hrows, fun c' hc' ho => horder ?_⟩
  rw [List.getLast?_concat] at hc'
  cases hc'
  exact ho

section Watching
variable {held : TabState → Prop} {sent : TabsChanged → Prop} {s : Machine}

/-- The next frame moves the rows to the next set. -/
theorem Watches.applyFrame (ha : Announces held sent) (h : Watches held sent s) {f : TabsChanged}
    (hf : sent f) (hnext : f.version = s.localVersion + 1) :
    Watches held sent (s.applyFrame f) := by
  obtain ⟨S, hS, hv, hshows⟩ := h.shows
  obtain ⟨T, T', hT, hT', hversion, hprev, htells⟩ := ha.frames f hf
  have hsame : T = S := by
    apply ha.unique T S hT hS
    apply UInt64.toNat.inj
    omega
  rw [hsame] at htells
  obtain ⟨hperm, horder⟩ := htells (shown s.calls) hshows.rows
  have hlocal : (s.frameIsLocal f.opID).1.pendingOps = s.pendingOps ∧
      (s.frameIsLocal f.opID).1.queue = s.queue ∧ (s.frameIsLocal f.opID).1.calls = s.calls := by
    unfold Machine.frameIsLocal Machine.takeLocalOp
    cases f.opID <;> exact ⟨rfl, rfl, rfl⟩
  unfold Machine.applyFrame
  generalize s.frameIsLocal f.opID = r at hlocal
  obtain ⟨s', isLocal⟩ := r
  obtain ⟨hops, hqueue, hcalls⟩ := hlocal
  simp only at hops hqueue hcalls ⊢
  have hpassive : ({ s' with localVersion := f.version } : Machine).pendingOps = [] :=
    hops.trans h.passive
  rw [overlayFrame_passive hpassive, settleFrame_passive]
  · refine ⟨hpassive, fun g hg => h.queue g (hqueue ▸ hg), T', hT', hversion.symm, ?_⟩
    rw [Machine.call]
    simp only [hcalls]
    exact shows_concat hperm horder
  · exact hpassive

theorem Watches.drainLoop (ha : Announces held sent) {queue : List TabsChanged}
    (h : Watches held sent s) (hq : ∀ f ∈ queue, sent f) :
    Watches held sent (s.drainLoop queue) := by
  induction queue generalizing s with
  | nil =>
    unfold Machine.drainLoop
    exact ⟨h.passive, fun f hf => absurd hf List.not_mem_nil, h.shows⟩
  | cons f queue ih =>
    have hrest : ∀ g ∈ queue, sent g := fun g hg => hq g (List.mem_cons_of_mem f hg)
    unfold Machine.drainLoop
    split
    · exact ih h hrest
    · next hnew =>
      split
      · unfold Machine.relist
        split
        · exact ⟨h.passive, hrest, h.shows⟩
        · exact ⟨h.passive, hrest, h.shows⟩
      · next hgap =>
        exact ih (h.applyFrame ha (hq f List.mem_cons_self) (by omega)) hrest

/-- An answer that is a set the server has held is adopted whole, or stale. -/
theorem Watches.readList (ha : Announces held sent) (h : Watches held sent s)
    {list : Option TabList}
    (hl : ∀ l, list = some l → ∃ S, held S ∧ l.tabs = S.tabs ∧ l.version = S.version.toNat) :
    Watches held sent (s.readList list) := by
  cases list with
  | none => exact h
  | some l =>
    obtain ⟨S, hS, htabs, hversion⟩ := hl l rfl
    have hids := htabs ▸ ha.distinct S hS
    by_cases hstale : l.version < s.localVersion
    · unfold Machine.readList
      simp only
      rw [if_pos hstale]
      exact h
    · rw [readList_passive h.passive hids (by omega)]
      refine ⟨h.passive, h.queue, S, hS, hversion.symm, ?_⟩
      rw [Machine.call, htabs]
      exact shows_concat (pinPartition_perm S.tabs) fun _ => rfl

theorem Watches.mono {held' : TabState → Prop} {sent' : TabsChanged → Prop}
    (h : Watches held sent s) (hh : ∀ S, held S → held' S) (hf : ∀ f, sent f → sent' f) :
    Watches held' sent' s := by
  obtain ⟨S, hS, hv, hshows⟩ := h.shows
  exact ⟨h.passive, fun f hq => hf f (h.queue f hq), S, hh S hS, hv, hshows⟩

/-- What reaches a device that only watches: frames that were sent, sets that were held. -/
def Reaches (held : TabState → Prop) (sent : TabsChanged → Prop) : Event → Prop
  | .frame f => sent f
  | .listAnswers list =>
    ∀ l, list = some l → ∃ S, held S ∧ l.tabs = S.tabs ∧ l.version = S.version.toNat
  | .drainResumes | .listTabs | .listDone => True
  | _ => False

theorem Watches.step (ha : Announces held sent) (h : Watches held sent s) {e : Event}
    (he : Reaches held sent e) : Watches held sent (s.step e) := by
  cases e with
  | frame f =>
    have hq : ∀ g ∈ s.queue ++ [f], sent g := by
      intro g hg
      rcases List.mem_append.1 hg with hg | hg
      · exact h.queue g hg
      · exact List.mem_singleton.1 hg ▸ he
    change Watches held sent (s.ingestTabsChanged f)
    unfold Machine.ingestTabsChanged
    simp only
    split
    · exact Watches.drainLoop ha ⟨h.passive, hq, h.shows⟩ hq
    · exact ⟨h.passive, hq, h.shows⟩
  | drainResumes =>
    change Watches held sent (if s.draining = .resumed then s.drainLoop s.queue else s)
    split
    · exact h.drainLoop ha h.queue
    · exact h
  | listTabs =>
    change Watches held sent s.relist
    unfold Machine.relist
    split
    · exact ⟨h.passive, h.queue, h.shows⟩
    · exact h
  | listAnswers list =>
    change Watches held sent
      (if s.listInFlight = .inFlight then { s.readList list with listInFlight := .answered } else s)
    split
    · have hread := h.readList ha he
      exact ⟨hread.passive, hread.queue, hread.shows⟩
    · exact h
  | listDone =>
    change Watches held sent s.listDone
    unfold Machine.listDone
    split
    · exact ⟨h.passive, h.queue, h.shows⟩
    · exact h
  | _ => exact he.elim

end Watching

/-! ## Catching up -/

/-- Frames that the version covers are dropped. -/
theorem drainLoop_covered {s : Machine} {queue : List TabsChanged}
    (h : ∀ f ∈ queue, f.version ≤ s.localVersion) :
    s.drainLoop queue = { s with queue := [], draining := .idle } := by
  induction queue with
  | nil => rfl
  | cons f queue ih =>
    unfold Machine.drainLoop
    rw [if_pos (h f List.mem_cons_self)]
    exact ih fun g hg => h g (List.mem_cons_of_mem f hg)

/-- A read of the collection, once the one before it is done with. -/
def rereads (list : TabList) : List Event :=
  [.listDone, .listTabs, .listAnswers (some list), .listDone, .drainResumes]

/-- What the bookkeeping of a read leaves alone. -/
structure Holds (s s' : Machine) : Prop where
  pendingOps : s'.pendingOps = s.pendingOps
  localVersion : s'.localVersion = s.localVersion
  queue : s'.queue = s.queue
  calls : s'.calls = s.calls

theorem listDone_holds (s : Machine) :
    Holds s s.listDone ∧ s.listDone.listInFlight ≠ .answered := by
  unfold Machine.listDone
  split
  · exact ⟨⟨rfl, rfl, rfl, rfl⟩, by simp⟩
  · next h => exact ⟨⟨rfl, rfl, rfl, rfl⟩, h⟩

theorem relist_holds {s : Machine} (h : s.listInFlight ≠ .answered) :
    Holds s s.relist ∧ s.relist.listInFlight = .inFlight := by
  unfold Machine.relist
  split
  · exact ⟨⟨rfl, rfl, rfl, rfl⟩, rfl⟩
  · next hidle =>
    refine ⟨⟨rfl, rfl, rfl, rfl⟩, ?_⟩
    cases hread : s.listInFlight with
    | idle => exact absurd hread hidle
    | inFlight => rfl
    | answered => exact absurd hread h

/-- Once a read is done with, the loop that awaited it goes on over frames that the read covers. -/
theorem resumes_covered {s : Machine} (h : s.listInFlight = .answered)
    (hqueue : ∀ f ∈ s.queue, f.version ≤ s.localVersion) :
    ((s.step .listDone).step .drainResumes).localVersion = s.localVersion ∧
      ((s.step .listDone).step .drainResumes).draining = .idle ∧
      ((s.step .listDone).step .drainResumes).calls = s.calls := by
  obtain ⟨⟨-, hversion, hwaiting, hcalls⟩, -⟩ := listDone_holds s
  have hawake : s.listDone.draining = .idle ∨ s.listDone.draining = .resumed := by
    unfold Machine.listDone
    rw [if_pos h]
    cases s.draining <;> simp
  have hgoes : (s.step .listDone).step .drainResumes =
      if s.listDone.draining = .resumed then s.listDone.drainLoop s.listDone.queue
      else s.listDone := rfl
  rw [hgoes]
  rcases hawake with hidle | hresumed
  · rw [hidle]
    exact ⟨hversion, hidle, hcalls⟩
  · rw [if_pos hresumed, drainLoop_covered (by rw [hwaiting, hversion]; exact hqueue)]
    exact ⟨hversion, rfl, hcalls⟩

/-- An answer that covers the version held and every frame waiting is the version held next, with
no frame left waiting and the answer drawn. -/
theorem rereads_catch_up {s : Machine} {list : TabList} (hs : s.pendingOps = [])
    (hids : (list.tabs.map TabSubject.id).Nodup) (hlocal : s.localVersion ≤ list.version)
    (hqueue : ∀ f ∈ s.queue, f.version ≤ list.version) :
    (run s (rereads list)).localVersion = list.version ∧
      (run s (rereads list)).draining = .idle ∧
      shown (run s (rereads list)).calls = pinPartition list.tabs := by
  obtain ⟨hdone, hfree⟩ := listDone_holds s
  obtain ⟨hasked, hout⟩ := relist_holds hfree
  have hanswered : s.listDone.relist.step (.listAnswers (some list)) =
      { s.listDone.relist.readList (some list) with listInFlight := .answered } := by
    simp only [Machine.step, hout, if_true]
  have hops : s.listDone.relist.pendingOps = [] :=
    (hasked.pendingOps.trans hdone.pendingOps).trans hs
  have hread : s.listDone.relist.readList (some list) = _ :=
    readList_passive hops hids (by rw [hasked.localVersion, hdone.localVersion]; exact hlocal)
  have hlast := resumes_covered (s := s.listDone.relist.step (.listAnswers (some list)))
    (by rw [hanswered]) (by
      rw [hanswered, hread]
      change ∀ f ∈ s.listDone.relist.queue, f.version ≤ list.version
      rw [hasked.queue, hdone.queue]
      exact hqueue)
  obtain ⟨hversion, hidle, hcalls⟩ := hlast
  refine ⟨hversion.trans ?_, hidle, ?_⟩
  · rw [hanswered, hread]
    rfl
  · change shown ((((s.listDone.relist.step (.listAnswers (some list))).step .listDone).step
      .drainResumes).calls) = _
    rw [hcalls, hanswered, hread, Machine.call]
    exact shown_concat _ _

end Marotte.Tabs.Sync
