import Marotte.TurnLog.Naming
import Marotte.Library.Along

/-! # The ids of a turn's entries

An observer keeps how each entry came by its id. The segments and the minted ids never clash among
themselves, so the ids of a turn are distinct exactly if the agent names nothing twice and nothing
the turn names.
-/
namespace Marotte.TurnLog

/-- Whether an entry was open before it was handed on. -/
def Filed.streamed (f : Filed) : Bool := (saidBy f.entry.payload).isSome

def Lane.openID (l : Lane) : List String := (l.opened.map OpenEntry.id).toList

namespace Turn

def openIDs (t : Turn) : List String := t.order.flatMap (fun k => (t.lanes k).openID)

/-- The ids of the entries a turn appended or opened: one the sink refused was opened if it was
streamed. -/
def ids (t : Turn) : List String :=
  (t.appended ++ t.refused.filter Filed.streamed).map (·.entry.id) ++ t.openIDs

/-- How an entry opened in a lane under a say comes by its id. -/
def naming (t : Turn) (key say : String) : Naming :=
  if say = "" then .minted (t.minted + 1)
  else if say = (t.lanes key).say then .segment say ((t.lanes key).seg + 1)
  else .said say

/-- What a seal names: the entry it opens for a released carry. -/
def sealNames (t : Turn) (key : String) : List Naming :=
  if (t.lanes key).opened = none ∧ (t.lanes key).prose ≠ "" then
    [t.naming key (t.lanes key).released.2]
  else []

def sealsNames (w : World) (t : Turn) : List String → List Naming
  | [] => []
  | key :: keys =>
    t.sealNames key ++
      if (t.sealLane w key).err = none then sealsNames w (t.sealLane w key).turn keys else []

/-- What an append names if the sink takes it. -/
def landed (w : World) (t : Turn) (n : Naming) : List Naming :=
  if w.accepts t.handed = true then [n] else []

def lanedNames (w : World) (t : Turn) (key : String) (n : Naming) : List Naming :=
  t.sealNames key ++
    if (t.sealLane w key).err = none then (t.sealLane w key).turn.landed w n else []

def lanelessNames (w : World) (t : Turn) (n : Naming) : List Naming :=
  t.sealsNames w t.order ++
    if (t.sealAll w).err = none then (t.sealAll w).turn.landed w n else []

def mintedNames (w : World) (t : Turn) : List Naming :=
  t.mintID.1.lanelessNames w (.minted (t.minted + 1))

def deltaNames (w : World) (t : Turn) (key say : String) (kind : StreamKind) : List Naming :=
  if (t.lanes key).takes say kind = true then []
  else t.sealNames key ++
    if ((t.laneOf key).sealLane w key).err = none then
      [((t.laneOf key).sealLane w key).turn.naming key say]
    else []

def abortNames (w : World) (t : Turn) : List OpenCall → List Naming
  | [] => []
  | call :: calls =>
    let out := t.append w false call.lane (toolResultID call.id)
      (.toolResult { status := .aborted })
    if out.2 = none then []
    else .stated (toolResultID call.id) :: abortNames w (out.1.settleCall call.id) calls

def closeNames (w : World) (t : Turn) : List Naming :=
  let out := t.sealAll w
  t.sealsNames w t.order ++
    if out.err = none then
      let aborted := out.turn.abortCalls w out.turn.calls
      out.turn.abortNames w out.turn.calls ++
        if aborted.err = none then aborted.turn.landed w (.minted (aborted.turn.minted + 1))
        else []
    else []

/-- What an operation names. -/
def namings (w : World) (t : Turn) (op : Op) : List Naming :=
  if t.closed then []
  else match op with
    | .textDelta key say _ => t.deltaNames w key say .text
    | .thinkingDelta key say _ => t.deltaNames w key say .thinking
    | .setSteerCarry _ _ _ => []
    | .sealLane key => t.sealNames key
    | .toolCall key call => t.lanedNames w key (.stated call.id)
    | .invocation issuerLane _ call => t.lanedNames w issuerLane (.stated call.id)
    | .toolResult updateLane callID _ =>
      t.lanedNames w (((t.callOf callID).map OpenCall.lane).getD updateLane)
        (.stated (toolResultID callID))
    | .steerAck key steerID _ => t.lanedNames w key (.stated (steerAckID steerID))
    | .steerInLane key steerID _ => t.lanedNames w key (.stated steerID)
    | .steer steerID _ => t.lanelessNames w (.stated steerID)
    | .compaction summary emptyOrdinal =>
      t.lanelessNames w (.stated (compactionEntryID w summary emptyOrdinal))
    | .plan plan => if t.plan = some plan then [] else t.mintedNames w
    | .close _ => t.closeNames w
    | _ => t.mintedNames w

end Turn

/-! ## Counting ids -/

variable {w : World} {t t₁ t' : Turn} {key turn : String} {given new new' : List Naming}

theorem count_openIDs_update {ks : List String} (hnodup : ks.Nodup) (hkey : key ∈ ks)
    (lanes : String → Lane) (l : Lane) (x : String) :
    (ks.flatMap (fun k => (Function.update lanes key l k).openID)).count x +
        (lanes key).openID.count x =
      (ks.flatMap (fun k => (lanes k).openID)).count x + l.openID.count x := by
  induction ks with
  | nil => cases hkey
  | cons k ks ih =>
    rw [List.nodup_cons] at hnodup
    simp only [List.flatMap_cons, List.count_append]
    by_cases hk : key = k
    · subst hk
      have hrest : ks.flatMap (fun k => (Function.update lanes key l k).openID) =
          ks.flatMap (fun k => (lanes k).openID) := by
        apply List.flatMap_congr
        intro k hmem
        rw [Function.update_of_ne]
        rintro rfl
        exact hnodup.1 hmem
      rw [Function.update_self, hrest]
      omega
    · have htail : key ∈ ks := (List.mem_cons.mp hkey).resolve_left hk
      have hnext := ih hnodup.2 htail
      rw [Function.update_of_ne (Ne.symm hk)]
      omega

theorem Turn.count_ids_setLane (horder : t.order.Nodup) (hkey : key ∈ t.order) (l : Lane)
    (x : String) : (t.setLane key l).ids.count x + (t.lanes key).openID.count x =
      t.ids.count x + l.openID.count x := by
  have hopen := count_openIDs_update horder hkey t.lanes l x
  simp only [Turn.ids, Turn.openIDs, Turn.setLane, List.count_append] at hopen ⊢
  omega

@[simp] theorem Turn.count_ids_taking (t : Turn) (f : Filed) (x : String) :
    (t.taking f).ids.count x = t.ids.count x + [f.entry.id].count x := by
  simp only [Turn.ids, Turn.taking, Turn.openIDs, List.map_append, List.count_append,
    List.map_cons, List.map_nil]
  omega

theorem Turn.count_ids_refusing (t : Turn) (f : Filed) (x : String) :
    (t.refusing f).ids.count x =
      t.ids.count x + if f.streamed then [f.entry.id].count x else 0 := by
  cases hf : f.streamed
  · simp [Turn.ids, Turn.refusing, Turn.openIDs, hf]
  · simp only [Turn.ids, Turn.refusing, Turn.openIDs, List.filter_append, List.map_append,
      List.count_append, if_true]
    rw [List.filter_cons_of_pos hf]
    simp only [List.filter_nil, List.map_cons, List.map_nil]
    omega

/-- Where the agent named nothing twice, a lane's say is its own, and its segments are counted. -/
structure Apart (t : Turn) (given : List Naming) : Prop where
  said : ∀ k, (t.lanes k).say ≠ "" → .said (t.lanes k).say ∈ given
  owner : ∀ k k', (t.lanes k).say ≠ "" → (t.lanes k).say = (t.lanes k').say → k = k'
  segments : ∀ say j, .segment say j ∈ given →
    .said say ∈ given ∧ ∀ k, (t.lanes k).say = say → j ≤ (t.lanes k).seg
  once : ∀ say j, given.count (.segment say j) ≤ 1

/-- The ids of a turn's entries are those given, each minted one once. -/
structure Counted (turn : String) (t : Turn) (given : List Naming) : Prop where
  turn : t.id = turn
  order : t.order.Nodup
  unseen : t.Ordered
  ids : ∀ x, t.ids.count x = (given.map (Naming.id t.id)).count x
  mints : ∀ n, .minted n ∈ given → n ≤ t.minted
  minted : ∀ n, given.count (.minted n) ≤ 1
  heads : ∀ k o, (t.lanes k).opened = some o →
    1 ≤ o.n ∧ (o.say = "" ∨ o.id = o.say ∨ ∃ j, o.id = saySegmentID o.say j)
  apart : (given.filterMap Naming.byAgent).Nodup → Apart t given

theorem Apart.congr (h : Apart t given)
    (hlanes : ∀ k, (t'.lanes k).say = (t.lanes k).say ∧ (t'.lanes k).seg = (t.lanes k).seg) :
    Apart t' given where
  said k hk := by
    rw [(hlanes k).1] at hk ⊢
    exact h.said k hk
  owner k k' hk heq := by
    rw [(hlanes k).1] at hk heq
    rw [(hlanes k').1] at heq
    exact h.owner k k' hk heq
  segments say j hj := by
    refine ⟨(h.segments say j hj).1, fun k hk => ?_⟩
    rw [(hlanes k).1] at hk
    rw [(hlanes k).2]
    exact (h.segments say j hj).2 k hk
  once := h.once

/-- A change that names nothing and hands nothing on. -/
theorem Counted.congr (h : Counted turn t given) (hid : t'.id = t.id) (horder : t'.order.Nodup)
    (hunseen : t'.Ordered) (hids : ∀ x, t'.ids.count x = t.ids.count x)
    (hminted : t.minted ≤ t'.minted)
    (hheads : ∀ k o, (t'.lanes k).opened = some o →
      1 ≤ o.n ∧ (o.say = "" ∨ o.id = o.say ∨ ∃ j, o.id = saySegmentID o.say j))
    (hlanes : ∀ k, (t'.lanes k).say = (t.lanes k).say ∧ (t'.lanes k).seg = (t.lanes k).seg) :
    Counted turn t' given where
  turn := hid.trans h.turn
  order := horder
  unseen := hunseen
  ids x := by rw [hids, h.ids, hid]
  mints n hn := Nat.le_trans (h.mints n hn) hminted
  minted := h.minted
  heads := hheads
  apart hnames := (h.apart hnames).congr hlanes

/-- A lane's entry opened, under a naming that the mint and the lane's say allow. -/
theorem Counted.opening (h : Counted turn t given) (hkey : key ∈ t.order)
    (hnone : (t.lanes key).opened = none) {l : Lane} {o : OpenEntry} {n : Naming} {m : ℕ}
    (hl : l.opened = some o) (hid : o.id = n.id t.id) (hn : 1 ≤ o.n)
    (hhead : o.say = "" ∨ o.id = o.say ∨ ∃ j, o.id = saySegmentID o.say j) (hm : t.minted ≤ m)
    (hmint : ∀ k, n = .minted k → t.minted < k ∧ k ≤ m)
    (hapart : ((given ++ [n]).filterMap Naming.byAgent).Nodup →
      Apart (({ t with minted := m, emitted := true } : Turn).setLane key l) (given ++ [n])) :
    Counted turn (({ t with minted := m, emitted := true } : Turn).setLane key l) (given ++ [n]) where
  turn := h.turn
  order := h.order
  unseen := Turn.Ordered.setLane (t := { t with minted := m, emitted := true }) h.unseen hkey l
  ids x := by
    have hset := Turn.count_ids_setLane (t := { t with minted := m, emitted := true }) h.order
      hkey l x
    have hbefore : ({ t with minted := m, emitted := true } : Turn).ids.count x =
        (given.map (Naming.id t.id)).count x := h.ids x
    have hold : (t.lanes key).openID = [] := by
      rw [Lane.openID, hnone]
      rfl
    have hnew : l.openID = [n.id t.id] := by
      rw [Lane.openID, hl, ← hid]
      rfl
    rw [hbefore] at hset
    simp only [hold, hnew, List.count_nil, Nat.add_zero] at hset
    rw [hset, List.map_append, List.count_append]
    rfl
  mints k hk := by
    rcases List.mem_append.mp hk with hk | hk
    · exact Nat.le_trans (h.mints k hk) hm
    · exact (hmint k (List.mem_singleton.mp hk).symm).2
  minted k := by
    rw [List.count_append]
    by_cases hk : n = .minted k
    · have hno : Naming.minted k ∉ given := fun hmem => by
        have hle := h.mints k hmem
        have hlt := (hmint k hk).1
        omega
      rw [List.count_eq_zero_of_not_mem hno, hk]
      simp
    · have hone := h.minted k
      rw [List.count_singleton, beq_eq_false_iff_ne.mpr hk]
      simpa using hone
  heads k o' ho' := by
    by_cases hk : k = key
    · subst hk
      rw [Turn.setLane_self, hl] at ho'
      cases ho'
      exact ⟨hn, hhead⟩
    · rw [Turn.setLane_of_ne _ hk] at ho'
      exact h.heads k o' ho'
  apart := hapart

theorem Apart.other (h : Apart t given) {n : Naming} (hn : ∀ say j, n ≠ .segment say j) :
    Apart t (given ++ [n]) where
  said k hk := List.mem_append_left _ (h.said k hk)
  owner := h.owner
  segments say j hj := by
    have hmem : Naming.segment say j ∈ given :=
      (List.mem_append.mp hj).resolve_right fun hlast =>
        hn say j (List.mem_singleton.mp hlast).symm
    exact ⟨List.mem_append_left _ (h.segments say j hmem).1, (h.segments say j hmem).2⟩
  once say j := by
    rw [List.count_append, List.count_singleton, beq_eq_false_iff_ne.mpr (hn say j)]
    simpa using h.once say j

/-- A later segment of the lane's say. -/
theorem Apart.segment (h : Apart t given) (key : String) (l : Lane) (hsay : l.say = (t.lanes key).say)
    (hseg : l.seg = (t.lanes key).seg + 1) (hne : (t.lanes key).say ≠ "") :
    Apart (t.setLane key l) (given ++ [.segment (t.lanes key).say ((t.lanes key).seg + 1)]) where
  said k hk := by
    refine List.mem_append_left _ ?_
    by_cases hkey : k = key
    · subst hkey
      rw [Turn.setLane_self, hsay] at hk ⊢
      exact h.said k hk
    · rw [Turn.setLane_of_ne _ hkey] at hk ⊢
      exact h.said k hk
  owner k k' hk heq := by
    have hlanes : ∀ k, ((t.setLane key l).lanes k).say = (t.lanes k).say := by
      intro k
      by_cases hkey : k = key
      · rw [hkey, Turn.setLane_self, hsay]
      · rw [Turn.setLane_of_ne _ hkey]
    rw [hlanes] at hk heq
    rw [hlanes] at heq
    exact h.owner k k' hk heq
  segments say j hj := by
    rcases List.mem_append.mp hj with hj | hj
    · obtain ⟨hsaid, hle⟩ := h.segments say j hj
      refine ⟨List.mem_append_left _ hsaid, fun k hk => ?_⟩
      by_cases hkey : k = key
      · subst hkey
        rw [Turn.setLane_self] at hk ⊢
        have hbefore := hle k (hsay ▸ hk)
        omega
      · rw [Turn.setLane_of_ne _ hkey] at hk ⊢
        exact hle k hk
    · obtain ⟨rfl, rfl⟩ := Naming.segment.inj (List.mem_singleton.mp hj)
      refine ⟨List.mem_append_left _ (h.said key hne), fun k hk => ?_⟩
      by_cases hkey : k = key
      · rw [hkey, Turn.setLane_self, hseg]
      · rw [Turn.setLane_of_ne _ hkey] at hk
        exact absurd (h.owner key k hne hk.symm).symm hkey
  once say j := by
    rw [List.count_append]
    by_cases hj : Naming.segment (t.lanes key).say ((t.lanes key).seg + 1) = .segment say j
    · obtain ⟨rfl, rfl⟩ := Naming.segment.inj hj
      have hno : Naming.segment (t.lanes key).say ((t.lanes key).seg + 1) ∉ given := fun hmem => by
        have hle := (h.segments _ _ hmem).2 key rfl
        omega
      rw [List.count_eq_zero_of_not_mem hno]
      simp
    · have hone := h.once say j
      rw [List.count_singleton, beq_eq_false_iff_ne.mpr hj]
      simpa using hone

/-- A say no lane has turned to before. -/
theorem Apart.said_first (h : Apart t given) (key : String) (l : Lane) {say : String}
    (hsay : l.say = say) (hnew : Naming.said say ∉ given) : Apart (t.setLane key l) (given ++ [.said say]) where
  said k hk := by
    by_cases hkey : k = key
    · rw [hkey, Turn.setLane_self, hsay]
      exact List.mem_append_right _ List.mem_cons_self
    · rw [Turn.setLane_of_ne _ hkey] at hk ⊢
      exact List.mem_append_left _ (h.said k hk)
  owner k k' hk heq := by
    -- No other lane is at the new say.
    have hother : ∀ k, k ≠ key → say ≠ "" → (t.lanes k).say ≠ say := by
      intro k _ hne heq
      exact hnew (heq ▸ h.said k (heq ▸ hne))
    by_cases hkey : k = key
    · by_cases hkey' : k' = key
      · exact hkey.trans hkey'.symm
      · rw [hkey, Turn.setLane_self, hsay] at hk heq
        rw [Turn.setLane_of_ne _ hkey'] at heq
        exact absurd heq.symm (hother k' hkey' hk)
    · rw [Turn.setLane_of_ne _ hkey] at hk heq
      by_cases hkey' : k' = key
      · rw [hkey', Turn.setLane_self, hsay] at heq
        exact absurd heq (hother k hkey (heq ▸ hk))
      · rw [Turn.setLane_of_ne _ hkey'] at heq
        exact h.owner k k' hk heq
  segments s j hj := by
    have hmem : Naming.segment s j ∈ given :=
      (List.mem_append.mp hj).resolve_right fun hlast => by cases List.mem_singleton.mp hlast
    obtain ⟨hsaid, hle⟩ := h.segments s j hmem
    refine ⟨List.mem_append_left _ hsaid, fun k hk => ?_⟩
    by_cases hkey : k = key
    · rw [hkey, Turn.setLane_self, hsay] at hk
      exact absurd (hk ▸ hsaid) hnew
    · rw [Turn.setLane_of_ne _ hkey] at hk ⊢
      exact hle k hk
  once s j := by
    rw [List.count_append]
    have hone := h.once s j
    rw [List.count_singleton]
    simpa using hone

theorem nodup_byAgent_append {n : Naming}
    (h : ((given ++ [n]).filterMap Naming.byAgent).Nodup) :
    (given.filterMap Naming.byAgent).Nodup := by
  rw [List.filterMap_append] at h
  exact (List.nodup_append.mp h).1

theorem Counted.openEntry (h : Counted turn t given) (hkey : key ∈ t.order)
    (hnone : (t.lanes key).opened = none) (kind : StreamKind) (say delta : String) :
    Counted turn (t.openEntry key kind say delta).1 (given ++ [t.naming key say]) := by
  unfold Turn.openEntry Turn.naming
  simp only
  split
  · rename_i hempty
    refine h.opening (m := t.minted + 1) hkey hnone rfl rfl (Nat.le_refl 1) (.inl hempty)
      (Nat.le_succ _) (fun k hk => ?_) fun hnames => ?_
    · cases hk
      omega
    · have hapart := (h.apart (nodup_byAgent_append hnames)).other
        (n := .minted (t.minted + 1)) (fun _ _ => by simp)
      refine hapart.congr fun k => ?_
      by_cases hk : k = key
      · rw [hk, Turn.setLane_self]
        exact ⟨rfl, rfl⟩
      · rw [Turn.setLane_of_ne _ hk]
        exact ⟨rfl, rfl⟩
  split
  · rename_i hsay hsame
    refine h.opening (m := t.minted) hkey hnone rfl rfl (Nat.le_refl 1) (.inr (.inr ⟨_, rfl⟩))
      (Nat.le_refl _) (fun k hk => by cases hk) fun hnames => ?_
    have hapart := h.apart (nodup_byAgent_append hnames)
    subst hsame
    have hsegment := hapart.segment key { t.lanes key with
      seg := (t.lanes key).seg + 1
      opened := some { id := saySegmentID (t.lanes key).say ((t.lanes key).seg + 1), kind := kind,
                       text := delta, n := 1, say := (t.lanes key).say } } rfl rfl hsay
    exact hsegment.congr fun _ => ⟨rfl, rfl⟩
  · rename_i hsay hother
    refine h.opening (m := t.minted) hkey hnone rfl rfl (Nat.le_refl 1) (.inr (.inl rfl))
      (Nat.le_refl _) (fun k hk => by cases hk) fun hnames => ?_
    have hapart := h.apart (nodup_byAgent_append hnames)
    have hnew : Naming.said say ∉ given := by
      intro hmem
      rw [List.filterMap_append, List.nodup_append] at hnames
      exact hnames.2.2 say (List.mem_filterMap.mpr ⟨_, hmem, rfl⟩) say (by simp [Naming.byAgent])
        rfl
    have hfirst := hapart.said_first key { t.lanes key with
      say := say
      seg := 1
      opened := some { id := say, kind := kind, text := delta, n := 1, say := say } } rfl hnew
    exact hfirst.congr fun _ => ⟨rfl, rfl⟩

/-- An open entry handed on, taken or refused, keeps its id counted. -/
theorem Counted.sealOpen (h : Counted turn t given) (hkey : key ∈ t.order) {o o' : OpenEntry}
    (ho : (t.lanes key).opened = some o') (hid : o.id = o'.id) (w : World) (delta : String)
    (n : ℕ) : Counted turn (t.sealOpen w key o delta n).turn given := by
  have hset := Turn.count_ids_setLane h.order hkey { t.lanes key with opened := none }
  have hcleared : ∀ x, (t.setLane key { t.lanes key with opened := none }).ids.count x +
      [o.id].count x = t.ids.count x := by
    intro x
    have hx := hset x
    have hold : (t.lanes key).openID = [o.id] := by
      rw [Lane.openID, ho, hid]
      rfl
    rw [hold] at hx
    exact hx
  have hlanes : ∀ k, ((t.setLane key { t.lanes key with opened := none }).lanes k).say =
      (t.lanes k).say ∧ ((t.setLane key { t.lanes key with opened := none }).lanes k).seg =
        (t.lanes k).seg := by
    intro k
    by_cases hk : k = key
    · rw [hk, Turn.setLane_self]
      exact ⟨rfl, rfl⟩
    · rw [Turn.setLane_of_ne _ hk]
      exact ⟨rfl, rfl⟩
  have hheads : ∀ k o, ((t.setLane key { t.lanes key with opened := none }).lanes k).opened =
      some o → 1 ≤ o.n ∧ (o.say = "" ∨ o.id = o.say ∨ ∃ j, o.id = saySegmentID o.say j) := by
    intro k o ho
    by_cases hk : k = key
    · rw [hk, Turn.setLane_self] at ho
      cases ho
    · rw [Turn.setLane_of_ne _ hk] at ho
      exact h.heads k o ho
  have hunseen := h.unseen.setLane hkey { t.lanes key with opened := none }
  unfold Turn.sealOpen
  simp only
  rcases Turn.append_cases w (t.setLane key { t.lanes key with opened := none }) false key o.id
    (o.kind.payload o.text) with ⟨-, heq⟩ | ⟨-, heq⟩
  · simp only [heq]
    refine h.congr rfl h.order hunseen (fun x => ?_) (Nat.le_refl _) hheads hlanes
    rw [Turn.count_ids_taking]
    exact hcleared x
  · simp only [heq]
    refine h.congr rfl h.order hunseen (fun x => ?_) (Nat.le_refl _) hheads hlanes
    rw [Turn.count_ids_refusing, if_pos (by simp [Filed.streamed, Turn.entry])]
    exact hcleared x

/-! ## What each operation names -/

theorem Turn.Ordered.mem (h : t.Ordered)
    (hlane : (t.lanes key).opened ≠ none ∨ (t.lanes key).prose ≠ "") : key ∈ t.order := by
  by_contra hkey
  obtain ⟨hopened, hprose⟩ := h key hkey
  rcases hlane with hlane | hlane
  · exact hlane hopened
  · exact hlane hprose

/-- Lanes that hold the same, with what they withhold left to the lanes seen. -/
theorem Counted.withheld (h : Counted turn t given) {l : Lane}
    (hl : l.opened = (t.lanes key).opened ∧ l.say = (t.lanes key).say ∧ l.seg = (t.lanes key).seg)
    (hprose : key ∈ t.order ∨ l.prose = "") : Counted turn (t.setLane key l) given := by
  have hlane : ∀ k, ((t.setLane key l).lanes k).opened = (t.lanes k).opened ∧
      ((t.setLane key l).lanes k).say = (t.lanes k).say ∧
        ((t.setLane key l).lanes k).seg = (t.lanes k).seg := by
    intro k
    by_cases hk : k = key
    · rw [hk, Turn.setLane_self]
      exact hl
    · rw [Turn.setLane_of_ne _ hk]
      exact ⟨rfl, rfl, rfl⟩
  refine h.congr rfl h.order (fun k hk => ?_) (fun x => ?_) (Nat.le_refl _) (fun k o ho => ?_)
    fun k => (hlane k).2
  · obtain ⟨hopened, hnone⟩ := h.unseen k hk
    refine ⟨(hlane k).1.trans hopened, ?_⟩
    by_cases hkey : k = key
    · subst hkey
      rw [Turn.setLane_self]
      exact hprose.resolve_left hk
    · rw [Turn.setLane_of_ne _ hkey, hnone]
  · have hopen : (t.setLane key l).openIDs = t.openIDs := by
      apply List.flatMap_congr
      intro k _
      rw [Lane.openID, Lane.openID, (hlane k).1]
    rw [Turn.ids, hopen]
    rfl
  · rw [(hlane k).1] at ho
    exact h.heads k o ho

theorem Counted.laneOf (h : Counted turn t given) (key : String) : Counted turn (t.laneOf key) given := by
  unfold Turn.laneOf
  split
  · exact h
  rename_i hkey
  refine h.congr rfl ?_ (fun k hk => ?_) (fun x => ?_) (Nat.le_refl _) h.heads
    fun _ => ⟨rfl, rfl⟩
  · rw [List.nodup_append]
    exact ⟨h.order, List.nodup_singleton _, fun k hk k' hk' heq =>
      hkey (List.mem_singleton.mp hk' ▸ heq ▸ hk)⟩
  · exact h.unseen k fun hmem => hk (List.mem_append_left _ hmem)
  · have hnone : (t.lanes key).openID = [] := by
      rw [Lane.openID, (h.unseen key hkey).1]
      rfl
    simp [Turn.ids, Turn.openIDs, hnone]

/-- What a seal names, and what it leaves of the rest. -/
structure Names (t t' : Turn) (new : List Naming) : Prop where
  id : t'.id = t.id
  order : t'.order = t.order
  grows : t.minted ≤ t'.minted
  fresh : ∀ n, .minted n ∈ new → t.minted < n
  kept : ∀ turn given, Counted turn t given → Counted turn t' (given ++ new)

theorem Names.refl (t : Turn) : Names t t [] where
  id := rfl
  order := rfl
  grows := Nat.le_refl _
  fresh := by simp
  kept turn given h := by rwa [List.append_nil]

theorem Names.trans (h : Names t t₁ new) (h' : Names t₁ t' new') : Names t t' (new ++ new') where
  id := h'.id.trans h.id
  order := h'.order.trans h.order
  grows := Nat.le_trans h.grows h'.grows
  fresh n hn := by
    rcases List.mem_append.mp hn with hn | hn
    · exact h.fresh n hn
    · exact Nat.lt_of_le_of_lt h.grows (h'.fresh n hn)
  kept turn given hc := by
    rw [← List.append_assoc]
    exact h'.kept _ _ (h.kept _ _ hc)

theorem sealOpen_rest (w : World) (t : Turn) (key : String) (o : OpenEntry) (delta : String)
    (n : ℕ) : (t.sealOpen w key o delta n).turn.id = t.id ∧
      (t.sealOpen w key o delta n).turn.order = t.order ∧
        (t.sealOpen w key o delta n).turn.minted = t.minted := by
  unfold Turn.sealOpen
  simp only
  rcases Turn.append_cases w (t.setLane key { t.lanes key with opened := none }) false key o.id
    (o.kind.payload o.text) with ⟨-, heq⟩ | ⟨-, heq⟩
  · simp only [heq]
    exact ⟨rfl, rfl, rfl⟩
  · simp only [heq]
    exact ⟨rfl, rfl, rfl⟩

theorem openEntry_rest (t : Turn) (key : String) (kind : StreamKind) (say delta : String) :
    (t.openEntry key kind say delta).1.id = t.id ∧
      (t.openEntry key kind say delta).1.order = t.order ∧
        t.minted ≤ (t.openEntry key kind say delta).1.minted ∧
          ((t.openEntry key kind say delta).1.lanes key).opened =
            some (t.openEntry key kind say delta).2 := by
  unfold Turn.openEntry
  simp only
  split
  · exact ⟨rfl, rfl, Nat.le_succ _, by rw [Turn.setLane_self]⟩
  split
  · exact ⟨rfl, rfl, Nat.le_refl _, by rw [Turn.setLane_self]⟩
  · exact ⟨rfl, rfl, Nat.le_refl _, by rw [Turn.setLane_self]⟩

theorem minted_of_naming {say : String} {n : ℕ} (h : t.naming key say = .minted n) :
    t.minted < n := by
  unfold Turn.naming at h
  split at h
  · cases h
    exact Nat.lt_succ_self _
  split at h
  · cases h
  · cases h

/-- A lane with its carry cleared for its seal. -/
def Turn.cleared (t : Turn) (key : String) : Turn :=
  t.setLane key { t.lanes key with carry := "", carrySay := "" }

theorem sealLane_of_some {o : OpenEntry} (h : (t.lanes key).opened = some o) (w : World) :
    ∃ frozen delta n, frozen.id = o.id ∧
      t.sealLane w key = (t.cleared key).sealOpen w key frozen delta n := by
  have hcleared : t.cleared key = t.setLane key
      { opened := some o, say := (t.lanes key).say, seg := (t.lanes key).seg } := by
    rw [← h]
    rfl
  rw [hcleared]
  unfold Turn.sealLane
  simp only [h]
  refine ⟨_, _, _, ?_, rfl⟩
  rfl

theorem sealLane_of_none (h : (t.lanes key).opened = none) (w : World) : t.sealLane w key =
    if (t.lanes key).prose = "" then { turn := t.cleared key }
    else
      let opening := (t.cleared key).openEntry key .text (t.lanes key).released.2
        (t.lanes key).released.1
      opening.1.sealOpen w key opening.2 "" 0 := by
  have hcleared : t.cleared key = t.setLane key
      { opened := none, say := (t.lanes key).say, seg := (t.lanes key).seg } := by
    rw [← h]
    rfl
  rw [hcleared]
  unfold Turn.sealLane
  simp only [h]
  rfl

theorem Counted.cleared (h : Counted turn t given) (key : String) : Counted turn (t.cleared key) given :=
  h.withheld ⟨rfl, rfl, rfl⟩ (.inr rfl)

theorem sealLane_names (w : World) (t : Turn) (key : String) :
    Names t (t.sealLane w key).turn (t.sealNames key) := by
  unfold Turn.sealNames
  rcases hopen : (t.lanes key).opened with _ | o
  · rw [sealLane_of_none hopen]
    by_cases hprose : (t.lanes key).prose = ""
    · rw [if_pos hprose, if_neg fun hboth => hboth.2 hprose]
      refine ⟨rfl, rfl, Nat.le_refl _, by simp, fun turn given hc => ?_⟩
      rw [List.append_nil]
      exact hc.cleared key
    · rw [if_neg hprose, if_pos ⟨rfl, hprose⟩]
      simp only
      obtain ⟨hid, horder, hgrows, hhead⟩ := openEntry_rest (t.cleared key) key .text
        (t.lanes key).released.2 (t.lanes key).released.1
      have hsame : (t.cleared key).naming key (t.lanes key).released.2 =
          t.naming key (t.lanes key).released.2 := by
        rw [Turn.naming, Turn.naming, Turn.cleared, Turn.setLane_self]
        rfl
      have hopened : ∀ {turn given}, Counted turn t given → Counted turn ((t.cleared key).openEntry key .text
          (t.lanes key).released.2 (t.lanes key).released.1).1
          (given ++ [t.naming key (t.lanes key).released.2]) := by
        intro turn given hc
        rw [← hsame]
        refine (hc.cleared key).openEntry (hc.unseen.mem (.inr hprose)) ?_ .text _ _
        rw [Turn.cleared, Turn.setLane_self]
        exact hopen
      generalize (t.cleared key).openEntry key .text (t.lanes key).released.2
        (t.lanes key).released.1 = opening at *
      obtain ⟨t₁, o⟩ := opening
      obtain ⟨hturn, horder', hminted⟩ := sealOpen_rest w t₁ key o "" 0
      refine ⟨hturn.trans hid, horder'.trans horder, ?_, fun n hn => ?_, fun turn given hc => ?_⟩
      · rw [hminted]
        exact hgrows
      · exact minted_of_naming (List.mem_singleton.mp hn).symm
      · have hkey : key ∈ t₁.order := by
          rw [horder]
          exact hc.unseen.mem (.inr hprose)
        exact (hopened hc).sealOpen hkey hhead rfl w "" 0
  · obtain ⟨frozen, delta, n, hid, heq⟩ := sealLane_of_some hopen w
    rw [heq, if_neg (by simp)]
    obtain ⟨hturn, horder, hminted⟩ := sealOpen_rest w (t.cleared key) key frozen delta n
    refine ⟨hturn, horder, Nat.le_of_eq hminted.symm, by simp, fun turn given hc => ?_⟩
    rw [List.append_nil]
    have hhead : ((t.cleared key).lanes key).opened = some o := by
      rw [Turn.cleared, Turn.setLane_self]
      exact hopen
    exact (hc.cleared key).sealOpen (hc.unseen.mem (.inl (by simp [hopen]))) hhead hid w _ _

theorem sealLanes_names (w : World) (t : Turn) (keys : List String) :
    Names t (t.sealLanes w keys).turn (t.sealsNames w keys) := by
  induction keys generalizing t with
  | nil => exact Names.refl t
  | cons key keys ih =>
    have hfirst := sealLane_names w t key
    rw [Turn.sealLanes, Turn.sealsNames]
    rcases hout : t.sealLane w key with ⟨t₁, sealed, err⟩
    rw [hout] at hfirst
    cases err with
    | some err =>
      rw [if_neg (by simp), List.append_nil]
      exact hfirst
    | none =>
      rw [if_pos rfl]
      exact hfirst.trans (ih t₁)

/-- A naming an append may still use: what it records, or a minted id not given yet. -/
def Allowed (t : Turn) (given : List Naming) : Naming → Prop
  | .stated _ => True
  | .minted n => n ≤ t.minted ∧ .minted n ∉ given
  | _ => False

theorem Allowed.seals {n : Naming} (h : Allowed t given n) (hnames : Names t t' new) :
    Allowed t' (given ++ new) n := by
  cases n with
  | said say => exact h
  | stated id => trivial
  | segment say k => exact h
  | minted n =>
    obtain ⟨hle, hnew⟩ := h
    refine ⟨Nat.le_trans hle hnames.grows, fun hmem => ?_⟩
    rcases List.mem_append.mp hmem with hmem | hmem
    · exact hnew hmem
    · have hlt := hnames.fresh n hmem
      omega

/-- An append that is taken is counted under its naming; one refused was never open. -/
theorem Counted.append (h : Counted turn t given) {n : Naming} (hn : Allowed t given n) {p : Payload}
    (hp : saidBy p = none) (w : World) (laneless : Bool) (key : String) :
    Counted turn (t.append w laneless key (n.id t.id) p).1 (given ++ t.landed w n) := by
  unfold Turn.landed
  rcases Turn.append_cases w t laneless key (n.id t.id) p with ⟨ha, heq⟩ | ⟨ha, heq⟩
  · rw [heq, if_pos ha]
    have hsegment : ∀ say j, n ≠ .segment say j := by
      rintro say j rfl
      exact hn
    constructor
    · exact h.turn
    · exact h.order
    · exact h.unseen
    · intro x
      rw [Turn.count_ids_taking, h.ids, List.map_append, List.count_append]
      rfl
    · intro k hk
      rcases List.mem_append.mp hk with hk | hk
      · exact h.mints k hk
      · rw [← List.mem_singleton.mp hk] at hn
        exact hn.1
    · intro k
      rw [List.count_append]
      by_cases hk : n = .minted k
      · rw [hk] at hn ⊢
        rw [List.count_eq_zero_of_not_mem hn.2]
        simp
      · have hone := h.minted k
        rw [List.count_singleton, beq_eq_false_iff_ne.mpr hk]
        simpa using hone
    · exact h.heads
    · intro hnames
      exact ((h.apart (nodup_byAgent_append hnames)).other hsegment).congr fun _ => ⟨rfl, rfl⟩
  · rw [heq, if_neg (by simp [ha]), List.append_nil]
    refine h.congr rfl h.order h.unseen (fun x => ?_) (Nat.le_refl _) h.heads fun _ => ⟨rfl, rfl⟩
    rw [Turn.count_ids_refusing, if_neg (by simp [Filed.streamed, Turn.entry, hp]), Nat.add_zero]

/-- A change that the ids do not see. -/
theorem Counted.of_eq (h : Counted turn t given) (hid : t'.id = t.id) (horder : t'.order = t.order)
    (hlanes : t'.lanes = t.lanes) (happended : t'.appended = t.appended)
    (hrefused : t'.refused = t.refused) (hminted : t.minted ≤ t'.minted) : Counted turn t' given := by
  refine h.congr hid (horder ▸ h.order) (fun k hk => ?_) (fun x => ?_) hminted (fun k o ho => ?_)
    fun k => by rw [hlanes]; exact ⟨rfl, rfl⟩
  · rw [hlanes]
    exact h.unseen k (horder ▸ hk)
  · rw [Turn.ids, Turn.ids, Turn.openIDs, Turn.openIDs, happended, hrefused, horder, hlanes]
  · rw [hlanes] at ho
    exact h.heads k o ho

theorem Counted.mintID (h : Counted turn t given) : Counted turn t.mintID.1 given :=
  h.of_eq rfl rfl rfl rfl rfl (Nat.le_succ _)

theorem Counted.laned (h : Counted turn t given) (hopen : t.closed = false) {p : Payload}
    (hp : saidBy p = none) (after : Turn → Turn)
    (hafter : ∀ {t}, ∀ {given}, Counted turn t given → Counted turn (after t) given)
    (w : World) (key id : String) :
    Counted turn (t.laned w key id p after).turn (given ++ t.lanedNames w key (.stated id)) := by
  have hseal := (sealLane_names w t key).kept _ _ h
  unfold Turn.laned Turn.lanedNames
  rw [if_neg (by simp [hopen])]
  rcases hout : t.sealLane w key with ⟨t₁, sealed, err⟩
  rw [hout] at hseal
  cases err with
  | some err =>
    simpa using hseal
  | none =>
    rw [if_pos rfl, ← List.append_assoc]
    have happ := hseal.append (n := .stated id) trivial hp w false key
    simp only [Naming.id] at happ
    simp only
    generalize t₁.append w false key id p = out at happ
    rcases out with ⟨t₂, _ | e⟩
    · exact happ
    · exact hafter (happ.of_eq rfl rfl rfl rfl rfl (Nat.le_refl _))

theorem Counted.laneless (h : Counted turn t given) (hopen : t.closed = false) {n : Naming}
    (hn : Allowed t given n) {p : Payload} (hp : saidBy p = none) (w : World) :
    Counted turn (t.laneless w (n.id turn) p).turn (given ++ t.lanelessNames w n) := by
  have hnames := sealLanes_names w t t.order
  have hseal := hnames.kept _ _ h
  have hallowed := hn.seals hnames
  unfold Turn.laneless Turn.lanelessNames
  rw [if_neg (by simp [hopen])]
  change Counted turn (t.sealAll w).turn _ at hseal
  change Allowed (t.sealAll w).turn _ n at hallowed
  rcases hout : t.sealAll w with ⟨t₁, sealed, err⟩
  rw [hout] at hseal hallowed
  cases err with
  | some err =>
    simpa using hseal
  | none =>
    rw [if_pos rfl, ← List.append_assoc]
    have happ := hseal.append hallowed hp w true ""
    rw [hseal.turn] at happ
    simp only
    generalize t₁.append w true "" (n.id turn) p = out at happ
    rcases out with ⟨t₂, _ | e⟩
    · exact happ
    · exact happ

theorem Counted.lanelessMinted (h : Counted turn t given) (hopen : t.closed = false) {p : Payload}
    (hp : saidBy p = none) (w : World) :
    Counted turn (t.lanelessMinted w p).turn (given ++ t.mintedNames w) := by
  have hnew : Allowed t.mintID.1 given (.minted (t.minted + 1)) := by
    refine ⟨Nat.le_refl _, fun hmem => ?_⟩
    have hle := h.mints _ hmem
    omega
  have hall := h.mintID.laneless hopen hnew hp w
  have hid : (Naming.minted (t.minted + 1)).id turn = t.mintID.2 := by
    rw [← h.turn]
    rfl
  rw [hid] at hall
  exact hall

theorem Counted.planState (h : Counted turn t given) (hopen : t.closed = false) (w : World)
    (plan : EntryPlan) : Counted turn (t.planState w plan).turn
      (given ++ if t.plan = some plan then [] else t.mintedNames w) := by
  unfold Turn.planState
  split
  · rwa [List.append_nil]
  · have hminted := h.lanelessMinted hopen (p := .plan plan) rfl w
    generalize t.lanelessMinted w (.plan plan) = out at hminted
    rcases out with ⟨t₁, sealed, _ | err⟩
    · exact hminted.of_eq rfl rfl rfl rfl rfl (Nat.le_refl _)
    · exact hminted

theorem Counted.abortCalls (h : Counted turn t given) (w : World) (calls : List OpenCall) :
    Counted turn (t.abortCalls w calls).turn (given ++ t.abortNames w calls) := by
  induction calls generalizing t given with
  | nil =>
    rw [Turn.abortNames, List.append_nil]
    exact h
  | cons call calls ih =>
    rw [Turn.abortCalls, Turn.abortNames]
    have happ := h.append (n := .stated (toolResultID call.id)) trivial
      (p := .toolResult { status := .aborted }) rfl w false call.lane
    simp only [Naming.id, Turn.landed] at happ
    rcases Turn.append_cases w t false call.lane (toolResultID call.id)
      (.toolResult { status := .aborted }) with ⟨ha, heq⟩ | ⟨ha, heq⟩
    · rw [heq, if_pos ha] at happ
      simp only [heq]
      have hsettled : Counted turn ((t.taking ⟨t.entry call.lane (toolResultID call.id)
          (.toolResult { status := .aborted }), false⟩).settleCall call.id)
          (given ++ [.stated (toolResultID call.id)]) :=
        happ.of_eq rfl rfl rfl rfl rfl (Nat.le_refl _)
      have hrest := ih hsettled
      rw [if_neg (by simp), ← List.singleton_append, ← List.append_assoc]
      exact hrest
    · rw [heq, if_neg (by simp [ha])] at happ
      simp only [heq]
      exact happ

theorem Counted.close (h : Counted turn t given) (hopen : t.closed = false) (w : World)
    (footer : Bool → EntryTurnClose) :
    Counted turn (t.close w footer).turn (given ++ t.closeNames w) := by
  have hseal := (sealLanes_names w t t.order).kept _ _ h
  change Counted turn (t.sealAll w).turn _ at hseal
  unfold Turn.close Turn.closeNames
  rw [if_neg (by simp [hopen])]
  simp only
  rcases hout : t.sealAll w with ⟨t₁, sealed, err⟩
  rw [hout] at hseal
  cases err with
  | some err =>
    simpa using hseal
  | none =>
    rw [if_pos rfl, ← List.append_assoc]
    have habort := hseal.abortCalls w t₁.calls
    simp only
    rcases hcalls : t₁.abortCalls w t₁.calls with ⟨t₂, aborted, err⟩
    rw [hcalls] at habort
    cases err with
    | some err =>
      simpa using habort
    | none =>
      rw [if_pos rfl, ← List.append_assoc]
      have hnew : Allowed t₂.mintID.1 (given ++ t.sealsNames w t.order ++
          t₁.abortNames w t₁.calls) (.minted (t₂.minted + 1)) := by
        refine ⟨Nat.le_refl _, fun hmem => ?_⟩
        have hle := habort.mints _ hmem
        simp only at hle
        omega
      have happ := habort.mintID.append hnew (p := .turnClose (footer t₂.emitted)) rfl w true ""
      have hid : (Naming.minted (t₂.minted + 1)).id t₂.mintID.1.id = t₂.mintID.2 := rfl
      rw [hid] at happ
      change Counted turn _ (_ ++ t₂.landed w (.minted (t₂.minted + 1))) at happ
      simp only
      generalize t₂.mintID.1.append w true "" t₂.mintID.2 (.turnClose (footer t₂.emitted)) = out
        at happ
      rcases out with ⟨t₃, _ | e⟩
      · exact happ
      · exact happ.of_eq rfl rfl rfl rfl rfl (Nat.le_refl _)

/-- A delta that its lane's open entry takes. -/
theorem Counted.extended (h : Counted turn t given) (hkey : key ∈ t.order) (delta : String) :
    Counted turn (t.setLane key ((t.lanes key).extend delta)) given := by
  refine h.congr rfl h.order (h.unseen.setLane hkey _) (fun x => ?_) (Nat.le_refl _)
    (fun k o ho => ?_) fun k => ?_
  · have hset := Turn.count_ids_setLane h.order hkey ((t.lanes key).extend delta) x
    have hsame : ((t.lanes key).extend delta).openID = (t.lanes key).openID := by
      rw [Lane.openID, Lane.openID, Lane.extend, Option.map_map]
      rfl
    rw [hsame] at hset
    omega
  · by_cases hk : k = key
    · rw [hk, Turn.setLane_self] at ho
      obtain ⟨o', ho', rfl⟩ := Option.map_eq_some_iff.mp ho
      obtain ⟨hn, hhead⟩ := h.heads key o' ho'
      exact ⟨Nat.le_succ_of_le hn, hhead⟩
    · rw [Turn.setLane_of_ne _ hk] at ho
      exact h.heads k o ho
  · by_cases hk : k = key
    · rw [hk, Turn.setLane_self]
      exact ⟨rfl, rfl⟩
    · rw [Turn.setLane_of_ne _ hk]
      exact ⟨rfl, rfl⟩

theorem Counted.delta (h : Counted turn t given) (hopen : t.closed = false) (w : World)
    (key say delta : String) (kind : StreamKind) :
    Counted turn (t.delta w key say delta kind).turn (given ++ t.deltaNames w key say kind) := by
  unfold Turn.delta Turn.deltaNames
  rw [if_neg (by simp [hopen])]
  simp only [Turn.laneOf_lanes]
  split
  · rw [List.append_nil]
    have hext := (h.laneOf key).extended (Turn.mem_laneOf t key) delta
    rwa [Turn.laneOf_lanes] at hext
  · have hnames := sealLane_names w (t.laneOf key) key
    have hseal := hnames.kept _ _ (h.laneOf key)
    have hsame : (t.laneOf key).sealNames key = t.sealNames key := by
      have hminted : (t.laneOf key).minted = t.minted := by
        unfold Turn.laneOf
        split <;> rfl
      simp only [Turn.sealNames, Turn.naming, Turn.laneOf_lanes, hminted]
    have horder := hnames.order
    rw [hsame] at hseal
    rcases hout : (t.laneOf key).sealLane w key with ⟨t₁, sealed, err⟩
    rw [hout] at hseal horder
    cases err with
    | some err =>
      simpa using hseal
    | none =>
      rw [if_pos rfl, ← List.append_assoc]
      refine hseal.openEntry ?_ (sealLane_shut hout) kind say delta
      simp only at horder
      rw [horder]
      exact Turn.mem_laneOf t key

theorem Counted.perform (h : Counted turn t given) (w : World) (op : Op) :
    Counted turn (t.perform w op).turn (given ++ t.namings w op) := by
  have hcarry : ∀ key say carry, Counted turn (t.setSteerCarry key say carry).turn given := by
    intro key say carry
    refine (h.laneOf key).withheld ⟨?_, ?_, ?_⟩ (.inl (Turn.mem_laneOf t key)) <;> rfl
  have htrack : ∀ callID key t given, Counted turn t given →
      Counted turn (t.trackCall callID key) given := by
    intro callID key t given hc
    unfold Turn.trackCall
    split
    · exact hc
    · exact hc.of_eq rfl rfl rfl rfl rfl (Nat.le_refl _)
  unfold Turn.namings
  by_cases hclosed : t.closed = true
  · rw [if_pos hclosed, List.append_nil]
    have hminted : ∀ p, Counted turn (t.lanelessMinted w p).turn given := by
      intro p
      unfold Turn.lanelessMinted Turn.laneless
      rw [if_pos (by exact hclosed)]
      exact h.mintID
    cases op with
    | setSteerCarry key say carry => exact hcarry key say carry
    | plan plan =>
      simp only [Turn.perform, Turn.planState]
      split
      · exact h
      · have hplan := hminted (.plan plan)
        generalize t.lanelessMinted w (.plan plan) = out at hplan
        rcases out with ⟨t₁, sealed, _ | err⟩
        · exact hplan.of_eq rfl rfl rfl rfl rfl (Nat.le_refl _)
        · exact hplan
    | turnBind bind => exact hminted _
    | compactionFailed reason => exact hminted _
    | safetyBlocked properties => exact hminted _
    | modelSwitched p => exact hminted _
    | modeSwitched p => exact hminted _
    | _ =>
      simp only [Turn.perform, Turn.textDelta, Turn.thinkingDelta, Turn.delta, Turn.sealLaneOnly,
        Turn.toolCall, Turn.invocation, Turn.toolResult, Turn.steerAck, Turn.steerInLane,
        Turn.steer, Turn.compaction, Turn.laned, Turn.laneless, Turn.close]
      rw [if_pos hclosed]
      exact h
  · rw [if_neg hclosed]
    have hopen : t.closed = false := by simpa using hclosed
    cases op with
    | textDelta key say delta => exact h.delta hopen w key say delta .text
    | thinkingDelta key say delta => exact h.delta hopen w key say delta .thinking
    | setSteerCarry key say carry =>
      rw [List.append_nil]
      exact hcarry key say carry
    | sealLane key =>
      simp only [Turn.perform, Turn.sealLaneOnly]
      rw [if_neg hclosed]
      exact (sealLane_names w t key).kept _ _ h
    | toolCall key call =>
      exact h.laned hopen (p := .toolCall call) rfl _ (htrack call.id key _ _) w key call.id
    | invocation issuerLane delegateID call =>
      exact h.laned hopen (p := .toolCall { call with agentSubtaskID := delegateID }) rfl _
        (htrack call.id issuerLane _ _) w issuerLane call.id
    | toolResult updateLane callID res =>
      exact h.laned hopen (p := .toolResult res) rfl (fun t => t.settleCall callID)
        (fun hc => hc.of_eq rfl rfl rfl rfl rfl (Nat.le_refl _)) w _ _
    | steerAck key steerID text =>
      exact h.laned hopen (p := .steerAck { steerID := steerID, text := text }) rfl
        (fun t => t) (fun hc => hc) w key _
    | steerInLane key steerID steer =>
      exact h.laned hopen (p := .steer steer) rfl (fun t => t) (fun hc => hc) w key _
    | steer steerID steer =>
      exact h.laneless hopen (n := .stated steerID) trivial (p := .steer steer) rfl w
    | compaction summary emptyOrdinal =>
      exact h.laneless hopen (n := .stated (compactionEntryID w summary emptyOrdinal)) trivial
        (p := .compaction { summary := summary }) rfl w
    | turnBind bind => exact h.lanelessMinted hopen (p := .turnBind bind) rfl w
    | compactionFailed reason =>
      exact h.lanelessMinted hopen (p := .compactionFailed { reason := reason }) rfl w
    | safetyBlocked properties =>
      exact h.lanelessMinted hopen (p := .safetyBlocked { properties := properties }) rfl w
    | modelSwitched p => exact h.lanelessMinted hopen (p := .modelSwitched p) rfl w
    | modeSwitched p => exact h.lanelessMinted hopen (p := .modeSwitched p) rfl w
    | plan plan => exact h.planState hopen w plan
    | close footer => exact h.close hopen w footer

end Marotte.TurnLog
