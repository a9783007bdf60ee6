import Marotte.EntryLog.Ranges
import Marotte.EntryLog.Rewrite

/-! # What a reader of the log sees of an append

A window shows the entries of its turns. An append behind it moves it only where the turn is one it
shows, and a turn's newest seq counts its entries.
-/
namespace Marotte

open History

@[simp] theorem Index.live_ordinal (b : Index) (r : String → Bool) :
    (b.live r).ordinal = b.ordinal := by
  funext id
  rw [ordinal, ordinal, live_turns, Option.map_map]
  rfl

namespace EntryLog

variable {c : LineCodec} {l l' : EntryLog}

theorem Sound.order_eq (h : Sound c l) : l.index.order = opened (l.recorded c) := by
  obtain ⟨b, r, hb⟩ := h.coherent
  rw [hb.index_eq, Index.live_order]
  exact hb.recorded.1.order

theorem Sound.nodup_survivingOrder (h : Sound c l) : l.index.survivingOrder.Nodup := by
  have hnodup := h.wellFormed.opensOnce
  rw [← h.order_eq] at hnodup
  exact hnodup.filter _

theorem Sound.turn_mem (h : Sound c l) {e : Entry} (he : e ∈ l.recorded c) :
    e.turn ∈ l.index.order := by
  obtain ⟨b, r, hb⟩ := h.coherent
  rw [hb.index_eq, Index.live_order]
  simpa using hb.recorded.1.turn_mem e he

/-- A window is the entries of its turns, in file order. -/
theorem Sound.window_eq (h : Sound c l) (turns : ℤ) (before : String) :
    l.window c turns before =
      match (if before = "" then some l.index.survivingOrder.length
        else l.index.survivingOrder.idxOf? before) with
      | none => .error (.windowBefore before)
      | some upper => .ok
          ⟨(l.recorded c).filter (fun e => e.turn ∈
              (l.index.survivingOrder.take upper).drop (upper - turns.toNat)),
            0 < upper - turns.toNat⟩ := by
  rw [window]
  split
  · next hnone => simp only [hnone]
  · next upper hupper =>
    have hnodup : ((l.index.survivingOrder.take upper).drop (upper - turns.toNat)).Nodup :=
      (h.nodup_survivingOrder.sublist (List.take_sublist _ _)).sublist (List.drop_sublist _ _)
    simp only [hupper, h.readSet_eq hnodup]

/-- A log that shows the survivors and counts it did, with entries behind its own. -/
structure Lengthens (c : LineCodec) (l l' : EntryLog) (es : List Entry) : Prop where
  sound : Sound c l'
  survivors : l'.index.survivingOrder = l.index.survivingOrder
  count : l'.index.turnCount = l.index.turnCount
  header : l'.header = l.header
  recorded : l'.recorded c = l.recorded c ++ es

theorem Sound.lengthens_self (h : Sound c l) : Lengthens c l l [] :=
  ⟨h, rfl, rfl, rfl, (List.append_nil _).symm⟩

/-- What is appended to turns that a window does not show leaves it as it was. -/
theorem Lengthens.window (h : Sound c l) {es : List Entry} (hext : Lengthens c l l' es) {turns : ℤ}
    {before : String} {win : Page} (hwin : l.window c turns before = .ok win)
    (hout : ∀ e ∈ es, ∀ shown ∈ win.entries, shown.turn ≠ e.turn) :
    l'.window c turns before = .ok win := by
  rw [← hwin, h.window_eq, hext.sound.window_eq, hext.survivors, hext.recorded]
  rw [h.window_eq] at hwin
  split at hwin
  · cases hwin
  · next upper hupper =>
    cases hwin
    have hnil : es.filter (fun e => e.turn ∈
        (l.index.survivingOrder.take upper).drop (upper - turns.toNat)) = [] := by
      rw [List.filter_eq_nil_iff]
      intro e he hmem
      have hset := of_decide_eq_true hmem
      have hsurvives : e.turn ∈ l.index.survivingOrder :=
        List.mem_of_mem_take (List.mem_of_mem_drop hset)
      have horder : e.turn ∈ l.index.order := List.mem_of_mem_filter hsurvives
      rw [h.order_eq] at horder
      obtain ⟨opening, hopening, -, hturn⟩ := mem_opened.mp horder
      apply hout e he opening _ hturn
      rw [List.mem_filter]
      exact ⟨hopening, by simpa [hturn] using hset⟩
    simp only [List.filter_append, hnil, List.append_nil]

/-- The turns a window shows are turns of the log. -/
theorem Sound.shown_mem (h : Sound c l) {turns : ℤ} {before : String} {win : Page}
    (hwin : l.window c turns before = .ok win) {e : Entry} (he : e ∈ win.entries) :
    e ∈ l.recorded c := by
  rw [h.window_eq] at hwin
  split at hwin
  · cases hwin
  · cases hwin
    exact List.mem_of_mem_filter he

/-! ## Rows -/

theorem Sound.row (h : Sound c l) {turn : String} (hturn : turn ∈ l.index.order) :
    ∃ st, l.index.turns turn = some st ∧ st.nextSeq = (own (l.recorded c) turn).length ∧
      st.closed = (own (l.recorded c) turn).any (fun e => e.kind = .turnClose) := by
  obtain ⟨b, r, hb⟩ := h.coherent
  rw [hb.index_eq, Index.live_order, hb.intact.folded.mem_order, Option.isSome_iff_exists] at hturn
  obtain ⟨st, hst⟩ := hturn
  have hnext := hb.intact.countsNext
  rw [← hb.recorded_eq] at hnext
  refine ⟨st.setReverted (r turn), ?_, hnext h.wellFormed turn st hst, ?_⟩
  · rw [hb.index_eq, Index.live_turns, hst]
    rfl
  · exact (hb.recorded.2 h.wellFormed.opensOnce turn st hst).closed

theorem own_ne_nil {es : List Entry} {turn : String} (h : turn ∈ opened es) :
    0 < (own es turn).length := by
  obtain ⟨e, he, -, rfl⟩ := mem_opened.mp h
  apply List.length_pos_of_mem (a := e)
  rw [own, List.mem_filter]
  exact ⟨he, by simp⟩

/-- A turn's newest seq counts the entries behind its turn_open. -/
theorem Sound.newestSeq_eq (h : Sound c l) {turn : String} (hturn : turn ∈ l.index.order) :
    l.newestSeq turn = some ((own (l.recorded c) turn).length - 1) := by
  obtain ⟨st, hst, hnext, -⟩ := h.row hturn
  rw [newestSeq, hst, Option.map_some, hnext]

theorem Lengthens.own {es : List Entry} (hext : Lengthens c l l' es) (turn : String) :
    own (l'.recorded c) turn = own (l.recorded c) turn ++ own es turn := by
  rw [hext.recorded, own_append]

theorem Lengthens.order (h : Sound c l) {es : List Entry} (hext : Lengthens c l l' es) {turn : String}
    (hturn : turn ∈ l.index.order) : turn ∈ l'.index.order := by
  rw [h.order_eq] at hturn
  rw [hext.sound.order_eq, hext.recorded, opened_append]
  exact List.mem_append_left _ hturn

/-! ## Appends -/

theorem append_header (t : Tick) (l : EntryLog) (e : Entry) : (l.append c t e).1.header = l.header := by
  rcases append_cases (c := c) l t e with ⟨idx, -, -, heq⟩ | ⟨l', err, heq, rfl | ⟨-, -, -, n, rfl⟩⟩
  · rw [heq]
  · rw [heq]
  · rw [heq]

theorem revert_header (l : EntryLog) (ticks : ℕ → Tick) (mint fromTurn : String)
    (cause : TurnRevertCause) (kasMessageID : String) :
    (l.revert c ticks mint fromTurn cause kasMessageID).1.header = l.header := by
  have hhide : ∀ (l : EntryLog) (turn : String), (l.hideCarrier turn).header = l.header :=
    fun _ _ => rfl
  have happend : ∀ {l l' : EntryLog} {t : Tick} {e : Entry} {res : Except LogError Entry},
      l.append c t e = (l', res) → l'.header = l.header := by
    intro l l' t e res heq
    have hheader := append_header (c := c) t l e
    rwa [heq] at hheader
  rw [EntryLog.revert]
  split
  · rfl
  split
  · rfl
  split
  split
  · exact append_header ..
  split
  · next hopen => exact happend hopen
  next hopen =>
  split
  · next hclose =>
    rw [hhide, happend hclose, happend hopen]
  next hclose =>
  split
  · next hrecord => rw [hhide, happend hrecord, happend hclose, happend hopen]
  · next hrecord => rw [happend hrecord, happend hclose, happend hopen]

/-- A refused append is behind nothing that a reader sees. -/
theorem Sound.refused (h : Sound c l) {t : Tick} {e : Entry} (he : l.OpensNew e) {err : LogError}
    (heq : l.append c t e = (l', .error err)) :
    Lengthens c l l' [] ∧ l'.index = l.index := by
  have hsound := h.append t he
  have hheader := append_header (c := c) t l e
  rw [heq] at hsound hheader
  obtain ⟨b, r, hb⟩ := h.coherent
  rcases hb.append t e with ⟨l₁, err₁, heq₁, hl₁⟩ | ⟨l₁, b₁, heq₁, -⟩
  · rw [heq] at heq₁
    obtain ⟨rfl, -⟩ := Prod.mk.inj heq₁
    have hindex : l'.index = l.index := hl₁.index_eq.trans hb.index_eq.symm
    refine ⟨⟨hsound, by rw [hindex], by rw [hindex], hheader, ?_⟩, hindex⟩
    rw [List.append_nil, hl₁.recorded_eq, hb.recorded_eq]
    rcases append_cases (c := c) l t e with ⟨idx, -, -, hok⟩ | ⟨l₂, err₂, hno, href⟩
    · rw [heq] at hok
      cases hok
    · rw [heq] at hno
      obtain ⟨rfl, -⟩ := Prod.mk.inj hno
      rcases href with rfl | ⟨hf, -, -, n, rfl⟩
      · rfl
      · simp [List.take_append_of_le_length (Nat.le_of_eq (hb.whole hf))]
  · rw [heq] at heq₁
    cases heq₁

/-- An entry that opens and reverts nothing is behind what the log shows. -/
theorem Sound.append_lengthens (h : Sound c l) (t : Tick) {e : Entry} (ho : e.kind ≠ .turnOpen)
    (hr : e.kind ≠ .turnRevert) :
    ∃ es, Lengthens c l (l.append c t e).1 es ∧ ∀ e' ∈ es, e'.turn = e.turn ∧ e'.kind = e.kind := by
  have hsound := h.append t (opensNew_of_ne ho)
  have hheader := append_header (c := c) t l e
  obtain ⟨b, r, hb⟩ := h.coherent
  rcases heq : l.append c t e with ⟨l', err | stamped⟩
  · refine ⟨[], (h.refused (opensNew_of_ne ho) heq).1, ?_⟩
    intro e' he'
    cases he'
  · rw [heq] at hsound hheader
    obtain ⟨hstamped, -, -, hrec, b', hobs, hb'⟩ := hb.append_eq_ok heq
    have ho' : stamped.kind ≠ .turnOpen := by rwa [hstamped, stamp_kind]
    have hr' : stamped.kind ≠ .turnRevert := by rwa [hstamped, stamp_kind]
    rw [Index.flagsAfter_of_ne ho' hr'] at hb'
    have hsurvive : l'.index.survivingOrder = l.index.survivingOrder := by
      rw [hb'.index_eq, hb.index_eq, hb'.intact.folded.survivingOrder_live,
        hb.intact.folded.survivingOrder_live, Index.observeLine_order ho' hobs]
    refine ⟨[stamped], ⟨hsound, hsurvive, ?_, hheader, hrec⟩, ?_⟩
    · rw [Index.turnCount, Index.turnCount, hsurvive, hb'.index_eq, hb.index_eq,
        Index.live_ordinal, Index.live_ordinal, Index.ordinal_observeLine ho' hobs]
    · intro e' he'
      rw [List.mem_singleton.mp he', hstamped]
      exact ⟨rfl, stamp_kind l t e⟩

/-- A log with one more turn, behind what the one before it shows. -/
structure Opened (c : LineCodec) (l l' : EntryLog) (turn : String) (ordinal : ℕ) : Prop where
  sound : Sound c l'
  new : turn ∉ l.index.order
  survivors : l'.index.survivingOrder = l.index.survivingOrder ++ [turn]
  count : l'.index.turnCount = ordinal
  header : l'.header = l.header
  recorded : ∃ opening, opening.turn = turn ∧ l'.recorded c = l.recorded c ++ [opening]

theorem Sound.opens (h : Sound c l) {t : Tick} {mint : String} (hnew : l.NewTurn mint)
    {spec : TurnSpec} {ordinal : ℕ} {opened : Entry}
    (heq : l.openTurnWithOrdinal c t mint spec ordinal = (l', .ok opened)) :
    opened.turn = "t-" ++ mint ∧ Opened c l l' ("t-" ++ mint) ordinal := by
  have hopens := opensNew_turnOpenEntry hnew spec ordinal
  have hsound := h.append t hopens
  have hheader := append_header (c := c) t l (turnOpenEntry mint spec ordinal)
  rw [openTurnWithOrdinal] at heq
  rw [heq] at hsound hheader
  obtain ⟨b, r, hb⟩ := h.coherent
  obtain ⟨hstamped, hrunning, -, hrec, b', hobs, hb'⟩ := hb.append_eq_ok heq
  have hturn : opened.turn = "t-" ++ mint := by rw [hstamped]; rfl
  have hpayload : opened.payload = (turnOpenEntry mint spec ordinal).payload := by
    rw [hstamped, stamp_payload]
    rfl
  have hkind : opened.kind = .turnOpen := by rw [Entry.kind, hpayload]; rfl
  have hfresh : "t-" ++ mint ∉ l.index.order := (hopens rfl hrunning).1
  have hflags : b.flagsAfter r opened = Function.update r ("t-" ++ mint) false := by
    rw [← hturn, Index.flagsAfter, hpayload]
    rfl
  rw [hflags] at hb'
  have hsurvive : l'.index.survivingOrder = l.index.survivingOrder ++ ["t-" ++ mint] := by
    rw [hb.index_eq, Index.live_order] at hfresh
    rw [hb'.index_eq, hb.index_eq, hb'.intact.folded.survivingOrder_live,
      hb.intact.folded.survivingOrder_live, Index.observeLine_order_turnOpen hkind hobs,
      List.filter_append, hturn]
    congr 1
    · apply List.filter_congr
      intro id hid
      rw [Function.update_of_ne]
      rintro rfl
      exact hfresh hid
    · simp
  refine ⟨hturn, hsound, hfresh, hsurvive, ?_, hheader, opened, hturn, hrec⟩
  rw [Index.turnCount, hsurvive, List.getLast?_concat]
  change l'.index.ordinal ("t-" ++ mint) = ordinal
  rw [hb'.index_eq, Index.live_ordinal, Index.ordinal_turnOpen hpayload hobs, hturn,
    Function.update_self]

/-- An open that fails is behind nothing that a reader sees. -/
theorem Sound.opens_error (h : Sound c l) {t : Tick} {mint : String} (hnew : l.NewTurn mint)
    {spec : TurnSpec} {ordinal : ℕ} {err : LogError}
    (heq : l.openTurnWithOrdinal c t mint spec ordinal = (l', .error err)) :
    Lengthens c l l' [] :=
  (h.refused (opensNew_turnOpenEntry hnew spec ordinal) heq).1

/-- A turn's n is what its first entry says. -/
theorem Sound.opening_eq (h : Sound c l) {turn : String} (hturn : turn ∈ l.index.order) :
    ∃ o p body, own (l.recorded c) turn = o :: body ∧ o.payload = .turnOpen p ∧
      l.index.ordinal turn = p.n := by
  obtain ⟨b, r, hb⟩ := h.coherent
  rw [hb.index_eq, Index.live_order, hb.intact.folded.mem_order, Option.isSome_iff_exists] at hturn
  obtain ⟨st, hst⟩ := hturn
  obtain ⟨o, p, body, hown, hp, -, hsn, -⟩ :=
    (hb.recorded.2 h.wellFormed.opensOnce turn st hst).opening
  refine ⟨o, p, body, hown, hp, ?_⟩
  rw [hb.index_eq, Index.live_ordinal, Index.ordinal, hst, Option.map_some, Option.getD_some, hsn]

/-- What comes behind a turn leaves its n. -/
theorem Sound.ordinal_eq (h : Sound c l) (h' : Sound c l') {es : List Entry}
    (hrec : l'.recorded c = l.recorded c ++ es) {turn : String} (hturn : turn ∈ l.index.order) :
    l'.index.ordinal turn = l.index.ordinal turn := by
  have hturn' : turn ∈ l'.index.order := by
    rw [h.order_eq] at hturn
    rw [h'.order_eq, hrec, opened_append]
    exact List.mem_append_left _ hturn
  obtain ⟨o, p, body, hown, hp, heq⟩ := h.opening_eq hturn
  obtain ⟨o', p', body', hown', hp', heq'⟩ := h'.opening_eq hturn'
  rw [hrec, own_append, hown, List.cons_append] at hown'
  obtain ⟨rfl, -⟩ := List.cons_eq_cons.mp hown'
  rw [hp] at hp'
  cases hp'
  rw [heq, heq']

/-- A carrier that is hidden again leaves what the log showed before it was minted. -/
theorem Opened.hidden (h : Sound c l) {turn : String} {ordinal : ℕ} {l₁ l₂ : EntryLog}
    (hopen : Opened c l l₁ turn ordinal) {es : List Entry} (hext : Lengthens c l₁ l₂ es)
    (hes : ∀ e ∈ es, e.turn = turn) :
    ∃ es', Lengthens c l (l₂.hideCarrier turn) es' ∧ ∀ e ∈ es', e.turn = turn := by
  have hsound : Sound c (l₂.hideCarrier turn) := hext.sound.grows ((Grows.refl l₂).hide turn)
  obtain ⟨opening, hopening, hrec₁⟩ := hopen.recorded
  have hrec : (l₂.hideCarrier turn).recorded c = l.recorded c ++ (opening :: es) := by
    change l₂.recorded c = _
    rw [hext.recorded, hrec₁, List.append_assoc, List.singleton_append]
  have hsurvive : (l₂.hideCarrier turn).index.survivingOrder = l.index.survivingOrder := by
    have hfilter : (l₂.hideCarrier turn).index.survivingOrder =
        l₂.index.survivingOrder.filter (· ≠ turn) := by
      rw [Index.survivingOrder, Index.survivingOrder, List.filter_filter]
      apply List.filter_congr
      intro id hid
      change id ∈ l₂.index.order at hid
      obtain ⟨st, hst, -⟩ := hext.sound.row hid
      rw [hideCarrier, Index.revert]
      by_cases heq : id = turn
      · subst heq
        simp [hst, TurnState.setReverted]
      · simp [heq]
    rw [hfilter, hext.survivors, hopen.survivors, List.filter_append]
    have hself : [turn].filter (· ≠ turn) = [] := by simp
    rw [hself, List.append_nil, List.filter_eq_self]
    intro id hid
    have hne : id ≠ turn := by
      rintro rfl
      exact hopen.new (List.mem_of_mem_filter hid)
    simpa using hne
  refine ⟨opening :: es, ⟨hsound, hsurvive, ?_, hext.header.trans hopen.header, hrec⟩, ?_⟩
  · rw [Index.turnCount, Index.turnCount, hsurvive]
    cases hlast : l.index.survivingOrder.getLast? with
    | none => rfl
    | some id =>
      have hid : id ∈ l.index.order := List.mem_of_mem_filter (List.mem_of_getLast? hlast)
      exact h.ordinal_eq hsound hrec hid
  · intro e he
    rcases List.mem_cons.mp he with rfl | he
    · exact hopening
    · exact hes e he

/-- A revert that fails is behind turns that the log does not show. -/
theorem Sound.revert_error (h : Sound c l) {ticks : ℕ → Tick} {mint : String}
    (hnew : l.NewTurn mint) {fromTurn : String} {cause : TurnRevertCause} {kasMessageID : String}
    {opened : Option Entry} {err : LogError}
    (heq : l.revert c ticks mint fromTurn cause kasMessageID = (l', opened, .error err)) :
    ∃ es, Lengthens c l l' es ∧ ∀ e ∈ es, e.turn ∉ l.index.order := by
  have hsame : ∀ {l' : EntryLog}, Lengthens c l l' [] →
      ∃ es, Lengthens c l l' es ∧ ∀ e ∈ es, e.turn ∉ l.index.order := by
    intro l' hext
    exact ⟨[], hext, by simp⟩
  have hhide : ∀ {l₁ l₂ : EntryLog} {es : List Entry} {turn : String} {ordinal : ℕ},
      Opened c l l₁ turn ordinal → Lengthens c l₁ l₂ es → (∀ e ∈ es, e.turn = turn) →
      ∃ es, Lengthens c l (l₂.hideCarrier turn) es ∧ ∀ e ∈ es, e.turn ∉ l.index.order := by
    intro l₁ l₂ es turn ordinal hopen hext hes
    obtain ⟨es', hext', hturns⟩ := hopen.hidden h hext hes
    refine ⟨es', hext', ?_⟩
    intro e he
    rw [hturns e he]
    exact hopen.new
  rw [EntryLog.revert] at heq
  cases hst : l.index.turns fromTurn with
  | none =>
    simp only [hst] at heq
    cases heq
    exact hsame h.lengthens_self
  | some st =>
    simp only [hst] at heq
    split at heq
    · cases heq
      exact hsame h.lengthens_self
    generalize hwindow : l.index.revertWindow fromTurn = window at heq
    cases hs : l.index.newestSurviving window.1 with
    | some carrier =>
      simp only [hs] at heq
      rcases hreq : l.append c (ticks 0)
          (revertRecord fromTurn st.n window.2 cause kasMessageID carrier) with ⟨l₁, err₁ | record⟩
      · rw [hreq] at heq
        cases heq
        exact hsame (h.refused (opensNew_of_ne (by simp)) hreq).1
      · rw [hreq] at heq
        cases heq
    | none =>
      simp only [hs] at heq
      rcases hoeq : l.openTurnWithOrdinal c (ticks 0) mint { source := .revert }
          (l.index.survivingHighWater window.1 + 1) with ⟨l₁, err₁ | opening⟩
      · rw [hoeq] at heq
        cases heq
        exact hsame (h.opens_error hnew hoeq)
      obtain ⟨hturn, hopen⟩ := h.opens hnew hoeq
      rw [← hturn] at hopen
      simp only [hoeq] at heq
      obtain ⟨es, hclose, hes⟩ := hopen.sound.append_lengthens (ticks 1)
        (e := carrierClose opening.turn) (by simp) (by simp)
      have hes' : ∀ e ∈ es, e.turn = opening.turn := fun e he => (hes e he).1
      rcases hceq : l₁.closeCarrier c (ticks 1) opening.turn with ⟨l₂, err₂ | closed⟩
      · rw [closeCarrier] at hceq
        rw [hceq] at hclose
        simp only [closeCarrier, hceq] at heq
        cases heq
        exact hhide hopen hclose hes'
      rw [closeCarrier] at hceq
      rw [hceq] at hclose
      simp only [closeCarrier, hceq] at heq
      generalize hrecord : revertRecord fromTurn st.n window.2 cause kasMessageID opening.turn =
        record at heq
      have hkind : record.kind ≠ .turnOpen := by
        rw [← hrecord]
        simp
      rcases hreq : l₂.append c (ticks 2) record with ⟨l₃, err₃ | stamped⟩
      · simp only [hreq] at heq
        cases heq
        have hrefused := (hclose.sound.refused (opensNew_of_ne hkind) hreq).1
        refine hhide hopen ?_ hes'
        refine ⟨hrefused.sound, hrefused.survivors.trans hclose.survivors,
          hrefused.count.trans hclose.count, hrefused.header.trans hclose.header, ?_⟩
        rw [hrefused.recorded, List.append_nil, hclose.recorded]
      · simp only [hreq] at heq
        cases heq

/-! ## Counters -/

/-- Counters that are written are the log's. -/
theorem writeCounters_counts {caches : Bool} (h : l.header.reconcilable = true)
    (heq : l.writeCounters caches = (l', .ok ())) :
    l'.index = l.index ∧ l'.header.reconcilable = true ∧
      l'.header.turnCount = l'.index.turnCount := by
  rw [writeCounters] at heq
  split at heq
  · cases heq
  · next header hcache =>
    cases heq
    rw [LogHeader.cacheCounters] at hcache
    simp only [h, Bool.not_true, Bool.false_eq_true, if_false] at hcache
    split at hcache
    · cases hcache
    split at hcache
    · next hsame =>
      cases hcache
      exact ⟨rfl, h, hsame.1⟩
    · cases hcache
      exact ⟨rfl, rfl, rfl⟩

theorem writeCounters_ok (h : l.header.reconcilable = true) :
    ∃ l', l.writeCounters true = (l', .ok ()) := by
  rw [writeCounters, LogHeader.cacheCounters]
  simp only [h, Bool.not_true, Bool.false_eq_true, if_false]
  split
  · next herr =>
    split at herr
    · cases herr
    · cases herr
  · exact ⟨_, rfl⟩

/-- Counters that read as they did were not written. -/
theorem writeCounters_same {caches : Bool} {res : Except LogError Unit}
    (heq : l.writeCounters caches = (l', res)) (hcount : l'.header.turnCount = l.header.turnCount)
    (hlast : l'.header.lastTurnOutcome = l.header.lastTurnOutcome) : l' = l := by
  rw [writeCounters] at heq
  split at heq
  · cases heq
    rfl
  · next header hcache =>
    cases heq
    rw [LogHeader.cacheCounters] at hcache
    split at hcache
    · cases hcache
      rfl
    split at hcache
    · cases hcache
    split at hcache
    · cases hcache
      rfl
    · next hne =>
      cases hcache
      exact absurd ⟨hcount.symm, hlast.symm⟩ hne

/-- A rewrite whose world fails nothing once it has replaced the file. -/
theorem rewrite_header {w : RewriteWorld} (htruncates : w.truncates = true)
    (hcaches : w.caches = true) (h : l.header.reconcilable = true) {entries : List Entry}
    {res : Except LogError Unit} (heq : l.rewrite c w entries = (l', res)) :
    (∀ err, res = .error err → l' = l) ∧
      (res = .ok () → l'.header.reconcilable = true ∧
        l'.header.turnCount = l'.index.turnCount) := by
  rw [rewrite] at heq
  split at heq
  · cases heq
    exact ⟨fun _ _ => rfl, by simp⟩
  · split at heq
    · cases heq
      exact ⟨fun _ _ => rfl, by simp⟩
    · split at heq
      · cases heq
        exact ⟨fun _ _ => rfl, by simp⟩
      split at heq
      · cases heq
        exact ⟨fun _ _ => rfl, by simp⟩
      simp only [htruncates, Bool.true_eq_false, and_false, if_false, hcaches] at heq
      generalize hl : ({ l with file := _, index := _ } : EntryLog) = scan at heq
      have hscan : scan.header.reconcilable = true := by
        rw [← hl]
        exact h
      obtain ⟨written, hwritten⟩ := writeCounters_ok hscan
      rw [hwritten] at heq
      cases heq
      refine ⟨by simp, fun _ => ?_⟩
      exact (writeCounters_counts hscan hwritten).2

/-! ## The closers of an open -/

theorem appendAll_header (ticks : ℕ → Tick) (l : EntryLog) (es : List Entry) :
    (l.appendAll c ticks es).1.header = l.header := by
  induction es generalizing l ticks with
  | nil => rfl
  | cons e es ih =>
    have hone := append_header (c := c) (ticks 0) l e
    rw [appendAll]
    rcases heq : l.append c (ticks 0) e with ⟨l', err | stamped⟩
    · rw [heq] at hone
      exact hone
    · rw [heq] at hone
      exact (ih _ l').trans hone

theorem synthesizeClose_header (ticks : ℕ → Tick) (l : EntryLog) (turn model : String) :
    (l.synthesizeClose c ticks turn model).1.header = l.header := by
  rw [synthesizeClose]
  generalize ((l.index.turns turn).map TurnState.unsettled).getD [] = calls
  have hall := appendAll_header (c := c) ticks l (calls.map (abortedResult turn))
  rcases heq : l.appendAll c ticks (calls.map (abortedResult turn)) with ⟨l₁, err | ⟨⟩⟩
  · rw [heq] at hall
    exact hall
  · rw [heq] at hall
    simp only
    generalize ((l₁.index.turns turn).map (fun st => st.lastTs - st.openTs)).getD 0 = elapsed
    have hclose := append_header (c := c) (ticks calls.length) l₁
      (unterminatedClose turn model elapsed)
    rcases hceq : l₁.append c (ticks calls.length) (unterminatedClose turn model elapsed) with
      ⟨l₂, err | stamped⟩
    · rw [hceq] at hclose
      exact hclose.trans hall
    · rw [hceq] at hclose
      exact hclose.trans hall

theorem closeUnterminated_header (ticks : ℕ → ℕ → Tick) (l : EntryLog) (model : String)
    (turns : List String) : (l.closeUnterminated c ticks model turns).1.header = l.header := by
  induction turns generalizing l ticks with
  | nil => rfl
  | cons turn turns ih =>
    have hone := synthesizeClose_header (c := c) (ticks 0) l turn model
    rw [closeUnterminated]
    rcases heq : l.synthesizeClose c (ticks 0) turn model with ⟨l', err | ⟨⟩⟩
    · rw [heq] at hone
      exact hone
    · rw [heq] at hone
      exact (ih _ l').trans hone

end EntryLog
end Marotte
