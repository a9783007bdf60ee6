import Marotte.EntryLog.Rewind

/-! # The runs a rewind un-launches

A revert hides a window of turns and the scan decides by place, so the two agree where no turn
older than the cut launches a run behind it.
-/
namespace Marotte

open History

namespace EntryLog

variable {c : LineCodec} {l l' : EntryLog} {promptID : String} {es before : List Entry} {e : Entry}

/-! ## The surviving entries -/

/-- The entries of the surviving turns, in file order. -/
def shown (c : LineCodec) (l : EntryLog) : List Entry :=
  (l.recorded c).filter (fun e => e.turn ∈ l.index.survivingOrder)

theorem Sound.all_eq (h : Sound c l) : l.all c = .ok (l.shown c) :=
  h.readSet_eq h.nodup_survivingOrder

theorem Sound.opened_shown (h : Sound c l) : opened (l.shown c) = l.index.survivingOrder := by
  have hcomm : opened (l.shown c) =
      (opened (l.recorded c)).filter (fun t => t ∈ l.index.survivingOrder) := by
    rw [opened, opened, shown, List.filterMap_filter, List.filter_filterMap]
    apply List.filterMap_congr
    intro e _
    by_cases ho : e.kind = .turnOpen
    · simp [ho, Option.filter]
    · simp [ho]
  rw [hcomm, ← h.order_eq]
  apply List.filter_congr
  intro t ht
  simp [Index.survivingOrder, ht]

/-- A turn's entries come behind its turn_open. -/
theorem Sound.turn_opened (h : Sound c l) (hp : es <+: l.recorded c) (he : e ∈ es) :
    e.turn ∈ opened es := by
  obtain ⟨b, r, hb⟩ := h.coherent
  rw [hb.recorded_eq] at hp
  have hall : b.Folded ∧ b.Follows (c.entriesOf (l.file.take b.size)) ∧
      ∀ pre, pre <+: c.entriesOf (l.file.take b.size) → ∀ e ∈ pre, e.turn ∈ opened pre := by
    refine hb.intact.induction (P := fun es b => b.Folded ∧ b.Follows es ∧
      ∀ pre, pre <+: es → ∀ e ∈ pre, e.turn ∈ opened pre)
      ⟨Index.folded_empty, ⟨rfl, rfl, by simp⟩, ?_⟩ ?_
    · intro pre hpre e he
      rw [List.prefix_nil.1 hpre] at he
      contradiction
    · rintro es b e len b' ⟨hfolded, hfollows, ih⟩ hobs
      have hnext := Index.follows_concat hfolded hfollows hobs
      refine ⟨hfolded.observeLine hobs, hnext, fun pre hpre f hf => ?_⟩
      rcases List.prefix_concat_iff.1 hpre with rfl | hpre
      · rw [← hnext.order]
        exact hnext.turn_mem f hf
      · exact ih pre hpre f hf
  exact hall.2.2 es hp e he

theorem Sound.turn_opened_shown (h : Sound c l) (hp : es <+: l.shown c) (he : e ∈ es) :
    e.turn ∈ opened es := by
  obtain ⟨rest, hrest⟩ := hp
  obtain ⟨pre, post, hsplit, rfl, -⟩ := List.filter_eq_append_iff.1 hrest.symm
  obtain ⟨hin, hsurvives⟩ := List.mem_filter.1 he
  obtain ⟨o, ho, hkind, hturn⟩ :=
    mem_opened.1 (h.turn_opened ⟨post, hsplit.symm⟩ hin)
  rw [mem_opened]
  refine ⟨o, List.mem_filter.2 ⟨ho, ?_⟩, hkind, hturn⟩
  rw [hturn]
  exact hsurvives

/-! ## The window of a revert -/

/-- A record hides the turns it takes. -/
theorem Sound.record_hides (h : Sound c l) {t : Tick} {stamped : Entry} {p : EntryTurnRevert}
    (he : e.payload = .turnRevert p) (heq : l.append c t e = (l', .ok stamped)) :
    l'.index.survivingOrder = l.index.survivingOrder.filter
      (fun id => !RevertWindow.takes ⟨e.turn, p.fromTurn, p.through⟩ l.index.order id) := by
  obtain ⟨b, r, hb⟩ := h.coherent
  obtain ⟨hstamped, -, -, -, b', hobs, hb'⟩ := hb.append_eq_ok heq
  have hpayload : stamped.payload = .turnRevert p := by
    rw [hstamped, stamp_payload, he]
    rfl
  have hturn : stamped.turn = e.turn := by rw [hstamped, stamp_turn]
  have hkind : stamped.kind ≠ .turnOpen := by simp [Entry.kind_of_payload hpayload, Payload.kind]
  rw [hb'.index_eq, hb.index_eq, hb'.intact.folded.survivingOrder_live,
    hb.intact.folded.survivingOrder_live, Index.live_order, Index.observeLine_order hkind hobs,
    List.filter_filter, Index.flagsAfter, hpayload, hturn]
  simp only [Bool.not_or, Bool.and_comm]

/-- A record over the window of a log's order, filed in a carrier outside it. -/
theorem Sound.takes_iff (h : Sound c l) {fromTurn through carrier t : String}
    (hfrom : fromTurn ∈ l.index.order) (hlast : l.index.order.getLast? = some through)
    (hcarrier : t ∈ l.index.order.drop (l.index.order.idxOf fromTurn) → t ≠ carrier)
    (newer : List String) :
    RevertWindow.takes ⟨carrier, fromTurn, through⟩ (l.index.order ++ newer) t = true ↔
      t ∈ l.index.order.drop (l.index.order.idxOf fromTurn) := by
  have hnodup : l.index.order.Nodup := h.order_eq ▸ h.wellFormed.opensOnce
  rw [RevertWindow.takes,
    Window.window_append (.inl hfrom) (.inl (List.mem_of_getLast? hlast)),
    Window.window_eq_drop hnodup hfrom hlast, Bool.and_eq_true, decide_eq_true_eq, bne_iff_ne]
  exact ⟨And.left, fun hmem => ⟨hmem, hcarrier hmem⟩⟩

/-- A revert that goes through hides the surviving turns of its window and no others. -/
theorem Sound.revert_hides (h : Sound c l) {mint : String} (hnew : l.NewTurn mint)
    {ticks : ℕ → Tick} {fromTurn : String} {cause : TurnRevertCause} {kasMessageID : String}
    {opening : Option Entry} {record : Entry}
    (heq : l.revert c ticks mint fromTurn cause kasMessageID = (l', opening, .ok record))
    {t : String} (ht : t ∈ l.index.survivingOrder) :
    t ∈ l'.index.survivingOrder ↔ t ∉ (l.index.revertWindow fromTurn).1 := by
  have htorder : t ∈ l.index.order := (List.mem_filter.1 ht).1
  rw [EntryLog.revert] at heq
  cases hst : l.index.turns fromTurn with
  | none =>
    simp only [hst] at heq
    cases heq
  | some st =>
    simp only [hst] at heq
    split at heq
    · cases heq
    obtain ⟨b, r, hb⟩ := h.coherent
    have hfrom : fromTurn ∈ l.index.order := by
      rw [hb.index_eq, Index.live_turns, Option.map_eq_some_iff] at hst
      obtain ⟨st₀, hst₀, -⟩ := hst
      rw [hb.index_eq, Index.live_order, hb.intact.folded.mem_order]
      simp [hst₀]
    obtain ⟨through, hlast⟩ : ∃ through, l.index.order.getLast? = some through :=
      ⟨_, List.getLast?_eq_some_getLast (List.ne_nil_of_mem hfrom)⟩
    have hwindow : l.index.revertWindow fromTurn =
        (l.index.order.drop (l.index.order.idxOf fromTurn), through) := by
      rw [Index.revertWindow, hlast]
      rfl
    rw [hwindow] at heq ⊢
    simp only at heq ⊢
    have hrecorded : ∀ {l₁ : EntryLog} {tick : Tick} {carrier : String} {newer : List String},
        Sound c l₁ → l₁.index.order = l.index.order ++ newer → t ∈ l₁.index.survivingOrder →
        (t ∈ l.index.order.drop (l.index.order.idxOf fromTurn) → t ≠ carrier) →
        l₁.append c tick (revertRecord fromTurn st.n through cause kasMessageID carrier) =
          (l', .ok record) →
        (t ∈ l'.index.survivingOrder ↔
          t ∉ l.index.order.drop (l.index.order.idxOf fromTurn)) := by
      intro l₁ tick carrier newer hsound horder hsurvives hcarrier happ
      rw [hsound.record_hides rfl happ, List.mem_filter, and_iff_right hsurvives, horder,
        Bool.not_eq_true', Bool.eq_false_iff, Ne, not_iff_not]
      exact h.takes_iff hfrom hlast hcarrier newer
    cases hs : l.index.newestSurviving (l.index.order.drop (l.index.order.idxOf fromTurn)) with
    | some carrier =>
      obtain ⟨-, hout, -⟩ := hb.newestSurviving hs
      simp only [hs, Prod.mk.injEq] at heq
      apply hrecorded h (List.append_nil _).symm ht (fun hmem => ?_) (Prod.ext heq.1 heq.2.2)
      rintro rfl
      exact hout hmem
    | none =>
      simp only [hs] at heq
      rcases hoeq : l.openTurnWithOrdinal c (ticks 0) mint { source := .revert }
          (l.index.survivingHighWater (l.index.order.drop (l.index.order.idxOf fromTurn)) + 1) with
        ⟨l₁, err | carrier⟩
      · rw [hoeq] at heq
        cases heq
      obtain ⟨hturn, hopen⟩ := h.opens hnew hoeq
      rw [← hturn] at hopen
      simp only [hoeq] at heq
      obtain ⟨es, hclose, -⟩ := hopen.sound.append_lengthens (ticks 1)
        (e := carrierClose carrier.turn) (by simp) (by simp)
      rcases hceq : l₁.closeCarrier c (ticks 1) carrier.turn with ⟨l₂, err | closed⟩
      · simp only [hceq] at heq
        cases heq
      rw [← closeCarrier, hceq] at hclose
      simp only [hceq] at heq
      rcases hreq : l₂.append c (ticks 2)
          (revertRecord fromTurn st.n through cause kasMessageID carrier.turn) with
        ⟨l₃, err | stamped⟩
      · simp only [hreq] at heq
        cases heq
      simp only [hreq, Prod.mk.injEq, Except.ok.injEq] at heq
      obtain ⟨rfl, -, rfl⟩ := heq
      obtain ⟨o, -, hrec⟩ := hopen.recorded
      have horder : l₂.index.order = l.index.order ++ opened ([o] ++ es) := by
        rw [hclose.sound.order_eq, hclose.recorded, hrec, h.order_eq, List.append_assoc,
          opened_append]
      apply hrecorded hclose.sound horder ?_ (fun _ => ?_) hreq
      · rw [hclose.survivors, hopen.survivors]
        exact List.mem_append_left _ ht
      · rintro rfl
        exact hopen.new htorder

/-! ## What a rewind un-launches -/

/-- A turn whose turn_open carries the prompt. -/
def Carries (c : LineCodec) (l : EntryLog) (promptID turn : String) : Prop :=
  ∃ e ∈ l.recorded c, e.turn = turn ∧ OpensPrompt promptID e

/-- A rewind's target: the earliest surviving turn that carries the prompt, and each run launched in
a turn that the revert of that one hides, once. -/
structure Rewinds (c : LineCodec) (l : EntryLog) (promptID : String) (target : RewindTarget) :
    Prop where
  carries : l.Carries c promptID target.turn
  earliest : ∃ older newer, l.index.survivingOrder = older ++ target.turn :: newer ∧
    ∀ t ∈ older, ¬ l.Carries c promptID t
  once : target.launchedRuns.Nodup
  launched : ∀ run, run ∈ target.launchedRuns ↔
    ∃ launch, LaunchesRun (l.shown c) run launch ∧
      launch.turn ∈ (l.index.revertWindow target.turn).1
  hides : ∀ ticks mint cause kasMessageID l' opening record, l.NewTurn mint →
    l.revert c ticks mint target.turn cause kasMessageID = (l', opening, .ok record) →
    ∀ t ∈ l.index.survivingOrder,
      (t ∈ l'.index.survivingOrder ↔ t ∉ (l.index.revertWindow target.turn).1)

/-- No turn opened before the cut launches a run behind it. -/
def NoLateLaunch (c : LineCodec) (l : EntryLog) (promptID : String) : Prop :=
  ∀ before cut after, l.shown c = before ++ cut :: after → OpensPrompt promptID cut →
    (∀ e ∈ before, ¬ OpensPrompt promptID e) →
    ∀ run launch, LaunchesRun (l.shown c) run launch → launch.turn ∈ opened before →
      launch ∈ before

/-- The cut among the surviving entries, with the turns on either side of it. -/
theorem exists_cut (hcarried : ∃ t ∈ l.index.survivingOrder, l.Carries c promptID t) :
    ∃ before cut after, l.shown c = before ++ cut :: after ∧ OpensPrompt promptID cut ∧
      ∀ e ∈ before, ¬ OpensPrompt promptID e := by
  obtain ⟨t, ht, e, he, rfl, hopens⟩ := hcarried
  have hmem : e ∈ l.shown c := List.mem_filter.2 ⟨he, decide_eq_true ht⟩
  have hsome : ((l.shown c).find? (fun e => OpensPrompt promptID e)).isSome := by
    rw [List.find?_isSome]
    exact ⟨e, hmem, decide_eq_true hopens⟩
  obtain ⟨cut, hcut⟩ := Option.isSome_iff_exists.1 hsome
  obtain ⟨hcutopens, before, after, heq, hbefore⟩ := List.find?_eq_some_iff_append.1 hcut
  refine ⟨before, cut, after, heq, of_decide_eq_true hcutopens, fun e he ho => ?_⟩
  simpa [ho] using hbefore e he

theorem opensPrompt_kind (h : OpensPrompt promptID e) : e.kind = .turnOpen := by
  rw [OpensPrompt, promptOf] at h
  split at h
  · next p hp => exact Entry.kind_of_payload hp
  · contradiction

theorem beforeCut_eq {cut : Entry} {after : List Entry} (heq : es = before ++ cut :: after)
    (hopens : OpensPrompt promptID cut) (hbefore : ∀ e ∈ before, ¬ OpensPrompt promptID e) :
    beforeCut promptID es = before := by
  rw [heq, beforeCut, List.takeWhile_append_of_pos fun e he => decide_eq_true (hbefore e he),
    List.takeWhile_cons_of_neg (by simpa using hopens), List.append_nil]

theorem Sound.opened_split (h : Sound c l) {cut : Entry} {after : List Entry}
    (heq : l.shown c = before ++ cut :: after) (hopens : OpensPrompt promptID cut) :
    l.index.survivingOrder = opened before ++ cut.turn :: opened after := by
  have hcut : opened (cut :: after) = cut.turn :: opened after :=
    List.filterMap_cons_some (if_pos (opensPrompt_kind hopens))
  rw [← h.opened_shown, heq, opened_append, hcut]

/-- The window takes the surviving turns that are not opened before the cut. -/
theorem Sound.mem_window_iff (h : Sound c l) {cut : Entry} {after : List Entry}
    (heq : l.shown c = before ++ cut :: after) (hopens : OpensPrompt promptID cut) {t : String}
    (ht : t ∈ l.index.survivingOrder) :
    t ∈ (l.index.revertWindow cut.turn).1 ↔ t ∉ opened before := by
  have hsplit := h.opened_split heq hopens
  have hnodup : l.index.order.Nodup := h.order_eq ▸ h.wellFormed.opensOnce
  have hsurvives : cut.turn ∈ l.index.survivingOrder := by
    rw [hsplit]
    exact List.mem_append_right _ List.mem_cons_self
  obtain ⟨older, newer, horder⟩ := List.append_of_mem (List.mem_filter.1 hsurvives).1
  rw [horder] at hnodup
  have hout : cut.turn ∉ older := fun hm =>
    (List.nodup_append.1 hnodup).2.2 _ hm _ List.mem_cons_self rfl
  have hfilter : l.index.survivingOrder =
      older.filter (fun id => !((l.index.turns id).map TurnState.reverted).getD false) ++
        cut.turn ::
          newer.filter (fun id => !((l.index.turns id).map TurnState.reverted).getD false) := by
    have hkept := (List.mem_filter.1 hsurvives).2
    rw [Index.survivingOrder, horder, List.filter_append, List.filter_cons, if_pos hkept]
  have hnew : cut.turn ∉ newer := (List.nodup_cons.1 (List.nodup_append.1 hnodup).2.1).1
  obtain ⟨holder, -, hnewer⟩ := (List.append_cons_inj_of_notMem
    (fun hm => hout (List.mem_filter.1 hm).1) (fun hm => hnew (List.mem_filter.1 hm).1)).1
    (hfilter.symm.trans hsplit)
  have hwindow : (l.index.revertWindow cut.turn).1 = cut.turn :: newer := by
    rw [Index.revertWindow, horder, List.idxOf_append_of_notMem hout]
    simp
  rw [hwindow]
  constructor
  · intro hm hbefore
    rw [← holder] at hbefore
    exact (List.nodup_append.1 hnodup).2.2 t (List.mem_filter.1 hbefore).1 t hm rfl
  · intro hbefore
    rw [hsplit] at ht
    rcases List.mem_append.1 ht with hm | hm
    · exact absurd hm hbefore
    · rcases List.mem_cons.1 hm with rfl | hm
      · exact List.mem_cons_self
      · rw [← hnewer] at hm
        exact List.mem_cons_of_mem _ (List.mem_filter.1 hm).1

/-- The earliest surviving turn that carries the prompt is the cut's. -/
theorem Sound.earliest (h : Sound c l) {cut : Entry} {after : List Entry}
    (heq : l.shown c = before ++ cut :: after) (hopens : OpensPrompt promptID cut)
    (hbefore : ∀ e ∈ before, ¬ OpensPrompt promptID e) {t : String} (ht : t ∈ opened before) :
    ¬ l.Carries c promptID t := by
  rintro ⟨e, he, rfl, ho⟩
  have hsplit := h.opened_split heq hopens
  have hsurvives : e.turn ∈ l.index.survivingOrder := by
    rw [hsplit]
    exact List.mem_append_left _ ht
  have hshown : e ∈ l.shown c := List.mem_filter.2 ⟨he, decide_eq_true hsurvives⟩
  have hdistinct : (opened before ++ opened (cut :: after)).Nodup := by
    rw [← opened_append, ← heq, h.opened_shown]
    exact h.nodup_survivingOrder
  rw [heq] at hshown
  rcases List.mem_append.1 hshown with hm | hm
  · exact hbefore e hm ho
  · have hbehind : e.turn ∈ opened (cut :: after) :=
      mem_opened.2 ⟨e, hm, opensPrompt_kind ho, rfl⟩
    exact (List.nodup_append.1 hdistinct).2.2 _ ht _ hbehind rfl

theorem Sound.rewind_iff (h : Sound c l) (session : String)
    (hcarried : ∃ t ∈ l.index.survivingOrder, l.Carries c promptID t) :
    (∃ target, l.rewindTarget c promptID session = .ok (some target) ∧
      Rewinds c l promptID target) ↔ l.NoLateLaunch c promptID := by
  have htarget : l.rewindTarget c promptID session =
      .ok (rewindTargetIn (l.shown c) promptID session) := by rw [rewindTarget, h.all_eq]
  obtain ⟨hturn, hlists⟩ := rewindTargetIn_eq promptID session (l.shown c)
  have hcuts : ∀ before cut after, l.shown c = before ++ cut :: after →
      OpensPrompt promptID cut → (∀ e ∈ before, ¬ OpensPrompt promptID e) →
      (rewindTargetIn (l.shown c) promptID session).map RewindTarget.turn = some cut.turn := by
    intro before cut after heq hopens hbefore
    have hfind : (l.shown c).find? (fun e => OpensPrompt promptID e) = some cut := by
      rw [List.find?_eq_some_iff_append]
      refine ⟨decide_eq_true hopens, before, after, heq, fun e he => ?_⟩
      simpa using hbefore e he
    rw [hturn, hfind, Option.map_some]
  constructor
  · rintro ⟨target, hok, hrewinds⟩ before cut after heq hopens hbefore run launch hl hold
    rw [htarget, Except.ok.injEq] at hok
    have hcut := hcuts before cut after heq hopens hbefore
    rw [hok, Option.map_some, Option.some.injEq] at hcut
    by_contra hnot
    rw [← beforeCut_eq heq hopens hbefore] at hnot
    have hlisted := ((hlists target hok).2 run).2 ⟨launch, hl, hnot⟩
    obtain ⟨launch', ⟨before₁, m₁, hm₁, rfl⟩, hwindow⟩ := (hrewinds.launched run).1 hlisted
    obtain ⟨before₂, m₂, hm₂, rfl⟩ := hl
    obtain ⟨rfl, rfl⟩ := hm₁.unique hm₂
    have hmem := launchesRun_mem ⟨_, _, hm₁, rfl⟩
    rw [hcut, h.mem_window_iff heq hopens
      (of_decide_eq_true (List.mem_filter.1 hmem).2)] at hwindow
    exact hwindow hold
  · intro hplaced
    obtain ⟨before, cut, after, heq, hopens, hbefore⟩ := exists_cut hcarried
    have hcut := hcuts before cut after heq hopens hbefore
    rw [Option.map_eq_some_iff] at hcut
    obtain ⟨target, hok, hcut⟩ := hcut
    refine ⟨target, by rw [htarget, hok], ?_⟩
    obtain ⟨honce, hlaunched⟩ := hlists target hok
    have hsplit := h.opened_split heq hopens
    constructor
    · refine ⟨cut, ?_, hcut.symm, hopens⟩
      have hmem : cut ∈ l.shown c := by
        rw [heq]
        exact List.mem_append_right _ List.mem_cons_self
      exact (List.mem_filter.1 hmem).1
    · refine ⟨opened before, opened after, by rw [hcut, hsplit], fun t ht => ?_⟩
      exact h.earliest heq hopens hbefore ht
    · exact honce
    · intro run
      rw [hlaunched, hcut]
      apply exists_congr
      intro launch
      apply and_congr_right
      intro hl
      have hmem := launchesRun_mem hl
      rw [beforeCut_eq heq hopens hbefore, h.mem_window_iff heq hopens
        (of_decide_eq_true (List.mem_filter.1 hmem).2), not_iff_not]
      constructor
      · exact fun hin => h.turn_opened_shown ⟨_, heq.symm⟩ hin
      · exact hplaced before cut after heq hopens hbefore run launch hl
    · intro ticks mint cause kasMessageID l' opening record hnew hrevert t ht
      exact h.revert_hides hnew hrevert ht

/-- Of a log that opens and operations leave, a prompt that a surviving turn carries is rewound as
the revert of its turn takes the runs, exactly where no older turn launches a run behind the cut. -/
theorem rewind_launches {file : List UInt8} (hf : LogFile c file) {w : OpenWorld}
    {header : LogHeader} {cap : ℕ} {l₀ : EntryLog}
    (hopen : openEntryLog c w file header cap = (l₀, .ok ())) {ss : List LogStep}
    (hss : l₀.StepsOpenOnce c ss) {promptID : String} (session : String)
    (hcarried : ∃ t ∈ (l₀.steps c ss).index.survivingOrder,
      (l₀.steps c ss).Carries c promptID t) :
    (∃ target, (l₀.steps c ss).rewindTarget c promptID session = .ok (some target) ∧
      Rewinds c (l₀.steps c ss) promptID target) ↔ (l₀.steps c ss).NoLateLaunch c promptID := by
  apply Sound.rewind_iff _ session hcarried
  exact ((sound_scanned hf.sound header cap).grows (grows_openEntryLog hopen)).steps hss

/-- A turn that a later prompt finds open: its call is filed behind that prompt's turn_open. -/
def lateLaunch : List LogStep :=
  [.call (.openTurn {} "a" { source := .prompt, prompt := some { id := "p0", text := "" } }),
    .call (.openTurn {} "b" { source := .prompt, prompt := some { id := "p1", text := "" } }),
    .call (.append {} { id := "x", turn := "t-a", payload := .toolCall { id := "x" } }),
    .call (.append {}
      { id := "x:result", turn := "t-a", payload := .toolResult { workflowID := "w" } })]

theorem rewind_launches_late :
    (∃ target, ((new noHeader 0).steps jsonLines lateLaunch).rewindTarget jsonLines "p1" "" =
        .ok (some target) ∧
      Rewinds jsonLines ((new noHeader 0).steps jsonLines lateLaunch) "p1" target) ↔
    ((new noHeader 0).steps jsonLines lateLaunch).NoLateLaunch jsonLines "p1" := by
  have hopen : openEntryLog jsonLines {} [] noHeader 0 = (new noHeader 0, .ok ()) := rfl
  apply rewind_launches .absent hopen
  · change (new noHeader 0).NewTurn "a" ∧ NewTurn _ "b" ∧ _ ≠ _ ∧ _ ≠ _ ∧ True
    exact ⟨by decide +kernel, by decide +kernel, by decide, by decide, trivial⟩
  · exact ⟨"t-b", by decide +kernel,
      turnOpenEntry "b" { source := .prompt, prompt := some { id := "p1", text := "" } } 2,
      by decide +kernel, rfl, rfl⟩

theorem late_launch_listed :
    ((new noHeader 0).steps jsonLines lateLaunch).rewindTarget jsonLines "p1" "" =
        .ok (some { turn := "t-b", launchedRuns := ["w"] }) ∧
      ¬ ∃ target, ((new noHeader 0).steps jsonLines lateLaunch).rewindTarget jsonLines "p1" "" =
          .ok (some target) ∧
        Rewinds jsonLines ((new noHeader 0).steps jsonLines lateLaunch) "p1" target := by
  have htarget : ((new noHeader 0).steps jsonLines lateLaunch).rewindTarget jsonLines "p1" "" =
      .ok (some { turn := "t-b", launchedRuns := ["w"] }) := by decide +kernel
  refine ⟨htarget, ?_⟩
  rintro ⟨target, hok, h⟩
  rw [htarget, Except.ok.injEq, Option.some.injEq] at hok
  obtain ⟨launch, hl, hwindow⟩ := (h.launched "w").1 (by rw [← hok]; exact List.mem_cons_self)
  have hturns : ∀ e ∈ ((new noHeader 0).steps jsonLines lateLaunch).shown jsonLines,
      (workflowOf e).isSome →
      e.turn ∉ (((new noHeader 0).steps jsonLines lateLaunch).index.revertWindow "t-b").1 := by
    decide +kernel
  rw [← hok] at hwindow
  exact hturns launch (launchesRun_mem hl) (launchesRun_names hl) hwindow

end EntryLog

end Marotte
