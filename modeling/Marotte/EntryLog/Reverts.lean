import Marotte.EntryLog.History

/-! # The algebra of reverts

From an empty log on, the windows that reverts record decide which turns survive, and
the survivors are numbered from one in file order.
-/
namespace Marotte

namespace Index

def survivors (b : Index) : List String := b.order.filter (fun id => !b.hidden id)

/-- What every run of reverts keeps of the fold. -/
structure Ordered (b : Index) : Prop where
  nodup : b.order.Nodup
  ends : ∀ w ∈ b.unappliedReverts, w.fromTurn ∈ b.order ∧ w.through ∈ b.order
  ordinals : b.survivors.map b.ordinal = List.range' 1 b.survivors.length
  newest : ∀ w, b.unappliedReverts.getLast? = some w →
    w.carrier ∈ b.order ∧ b.hidden w.carrier = false

@[simp] theorem ordinal_live (b : Index) (r : String → Bool) : (b.live r).ordinal = b.ordinal := by
  funext id
  cases hst : b.turns id <;> simp [ordinal, live_turns, hst, TurnState.setReverted]

/-- The newest survivor's n counts the survivors. -/
theorem Ordered.turnCount_eq {b : Index} (h : b.Ordered) (hb : b.Folded) :
    (b.live b.hidden).turnCount = b.survivors.length := by
  have hs : (b.live b.hidden).survivingOrder = b.survivors := hb.survivingOrder_live _
  rw [turnCount, hs]
  cases hlast : b.survivors.getLast? with
  | none => rw [List.getLast?_eq_none_iff.mp hlast, List.length_nil]
  | some id =>
    have hmap : (b.survivors.map b.ordinal).getLast? = some (b.ordinal id) := by
      rw [List.getLast?_map, hlast]
      rfl
    rw [h.ordinals, List.getLast?_range'] at hmap
    split at hmap
    · cases hmap
    · have hn := Option.some.inj hmap
      simp only [ordinal_live]
      rw [← hn]
      omega

theorem observeLine_unapplied {b b' : Index} {e : Entry} {len : ℕ}
    (h : b.observeLine e len = some b') :
    b'.unappliedReverts = match e.payload with
      | .turnRevert p => b.unappliedReverts ++ [⟨e.turn, p.fromTurn, p.through⟩]
      | _ => b.unappliedReverts := by
  obtain ⟨i, hi, rfl⟩ := observeLine_iff_observe.mp h
  have hu := observe_unapplied hi
  exact hu

theorem observeLine_unapplied_of_ne {b b' : Index} {e : Entry} {len : ℕ}
    (hr : e.kind ≠ .turnRevert) (h : b.observeLine e len = some b') :
    b'.unappliedReverts = b.unappliedReverts := by
  rw [observeLine_unapplied h]
  cases hp : e.payload <;> first | rfl | exact absurd (Entry.kind_of_payload hp) hr

theorem Ordered.entry {b b' : Index} {e : Entry} {len : ℕ} (h : b.Ordered)
    (ho : e.kind ≠ .turnOpen) (hr : e.kind ≠ .turnRevert) (hobs : b.observeLine e len = some b') :
    b'.Ordered := by
  have hh := (hidden_observeLine ho hr hobs).1
  have hord := observeLine_order ho hobs
  have hu := observeLine_unapplied_of_ne hr hobs
  have hn := ordinal_observeLine ho hobs
  have hs : b'.survivors = b.survivors := by rw [survivors, survivors, hh, hord]
  constructor
  · rw [hord]
    exact h.nodup
  · rw [hu, hord]
    exact h.ends
  · rw [hs, hn]
    exact h.ordinals
  · rw [hu, hh, hord]
    exact h.newest

theorem Ordered.opens {b b' : Index} {e : Entry} {p : EntryTurnOpen} {len : ℕ} (h : b.Ordered)
    (hb : b.Folded) (he : e.payload = .turnOpen p) (hf : b.Fresh e.turn)
    (hn : if p.source = .revert then p.n = 1 else p.n = b.nextOrdinal)
    (hobs : b.observeLine e len = some b') : b'.Ordered := by
  have hk : e.kind = .turnOpen := Entry.kind_of_payload he
  have hh := (hidden_turnOpen he hf.opens hobs).1
  have hord := observeLine_order_turnOpen hk hobs
  have hu := observeLine_unapplied_of_ne (by simp [hk]) hobs
  have hnum := ordinal_turnOpen he hobs
  have hne : ∀ id ∈ b.order, id ≠ e.turn := fun id hid heq => hf.notMem (heq ▸ hid)
  have hold : b.order.filter (fun id => !b'.hidden id) = b.survivors := by
    refine List.filter_congr (fun id hid => ?_)
    rw [hh, Function.update_of_ne (hne id hid)]
  have hmap : b.survivors.map b'.ordinal = b.survivors.map b.ordinal := by
    refine List.map_congr_left (fun id hid => ?_)
    rw [hnum, Function.update_of_ne (hne id (List.mem_filter.mp hid).1)]
  constructor
  · rw [hord, List.nodup_append]
    exact ⟨h.nodup, by simp, fun id hid t ht => by
      rw [List.mem_singleton.mp ht]
      exact hne id hid⟩
  · rw [hu, hord]
    intro w hw
    obtain ⟨hfrom, hthrough⟩ := h.ends w hw
    exact ⟨List.mem_append_left _ hfrom, List.mem_append_left _ hthrough⟩
  · have hs : b'.survivors = b.survivors ++ [e.turn].filter (fun id => !b'.hidden id) := by
      rw [survivors, hord, List.filter_append, hold]
    by_cases hsrc : p.source = .revert
    · have hnil : [e.turn].filter (fun id => !b'.hidden id) = [] := by simp [hh, hsrc]
      rw [hs, hnil, List.append_nil, hmap, h.ordinals]
    · have hone : [e.turn].filter (fun id => !b'.hidden id) = [e.turn] := by simp [hh, hsrc]
      rw [if_neg hsrc, nextOrdinal, h.turnCount_eq hb] at hn
      rw [hs, hone, List.map_append, hmap, h.ordinals, List.length_append, List.length_singleton,
        List.range'_concat]
      simp [hnum, hn, Nat.add_comm]
  · rw [hu]
    intro w hw
    obtain ⟨hm, hv⟩ := h.newest w hw
    rw [hord, hh, Function.update_of_ne (hne _ hm)]
    exact ⟨List.mem_append_left _ hm, hv⟩

/-- The flags after a record, given the turns its window names. -/
theorem hidden_record {b b' : Index} {e : Entry} {p : EntryTurnRevert} {len : ℕ}
    (he : e.payload = .turnRevert p) (hobs : b.observeLine e len = some b') {window : List String}
    (hwin : Window.window b.order p.fromTurn p.through = window) (id : String) :
    b'.hidden id = if id = e.turn then b.taken id else b.hidden id || decide (id ∈ window) := by
  obtain ⟨i, hi, rfl⟩ := observeLine_iff_observe.mp hobs
  change i.hidden id = _
  rw [hidden_observe_turnRevert he hi]
  by_cases hid : id = e.turn
  · simp [hid]
  · have hne : (id != e.turn) = true := by simpa using hid
    simp [hid, RevertWindow.takes, hwin, hne]

theorem Ordered.record {b b' : Index} {e : Entry} {p : EntryTurnRevert} {len : ℕ} (h : b.Ordered)
    (he : e.payload = .turnRevert p) (hrec : b.Records e.turn p)
    (hobs : b.observeLine e len = some b') : b'.Ordered := by
  have ho : e.kind ≠ .turnOpen := by simp [Entry.kind_of_payload he, Payload.kind]
  have hord := observeLine_order ho hobs
  have hn := ordinal_observeLine ho hobs
  have hu : b'.unappliedReverts = b.unappliedReverts ++ [⟨e.turn, p.fromTurn, p.through⟩] := by
    simpa [he] using observeLine_unapplied hobs
  have hends : p.fromTurn ∈ b.order ∧ p.through ∈ b.order ∧ e.turn ∈ b.order := by
    cases hrec with
    | survivor hfrom hlast hmem => exact ⟨hfrom, List.mem_of_getLast? hlast, hmem⟩
    | minted older horder _ hfrom hlast =>
      rw [horder]
      exact ⟨by simp [hfrom], by simp [List.mem_of_getLast? hlast], by simp⟩
  have hcarrier : b'.hidden e.turn = false := by
    rw [hidden_record he hobs rfl, if_pos rfl]
    cases hrec with
    | survivor _ _ _ _ hv =>
      rw [hidden, Bool.or_eq_false_iff] at hv
      exact hv.1
    | minted _ _ _ _ _ _ _ hfree => exact hfree
  refine ⟨by rw [hord]; exact h.nodup, ?_, ?_, ?_⟩
  · rw [hu, hord]
    intro w hw
    rcases List.mem_append.mp hw with hm | hm
    · exact h.ends w hm
    · rw [List.mem_singleton.mp hm]
      exact ⟨hends.1, hends.2.1⟩
  · cases hrec with
    | survivor hfrom hlast hmem hout hv =>
      have hwin := Window.window_eq_drop h.nodup hfrom hlast
      have hs : b'.survivors =
          (b.order.take (b.order.idxOf p.fromTurn)).filter (fun id => !b.hidden id) := by
        rw [survivors, hord, ← Window.filter_notMem_drop h.nodup]
        refine List.filter_congr (fun id _ => ?_)
        rw [hidden_record he hobs hwin]
        by_cases hid : id = e.turn
        · subst hid
          rw [hidden, Bool.or_eq_false_iff] at hv
          simp [hidden, hv, hout]
        · simp [hid, Bool.not_or]
      have hsplit : b.survivors = b'.survivors ++
          (b.order.drop (b.order.idxOf p.fromTurn)).filter (fun id => !b.hidden id) := by
        rw [hs, ← List.filter_append, List.take_append_drop, survivors]
      have hmap := h.ordinals
      rw [hsplit, List.map_append, List.length_append, ← List.range'_append_1] at hmap
      rw [hn]
      exact List.append_inj_left hmap (by simp)
    | minted older horder hnew hfrom hlast hnone hhidden hfree hordinal =>
      have hnodup : older.Nodup := by
        have := h.nodup
        rw [horder] at this
        exact (List.nodup_append.mp this).1
      have hwin : Window.window b.order p.fromTurn p.through =
          older.drop (older.idxOf p.fromTurn) := by
        rw [horder, Window.window_append (.inl hfrom) (.inl (List.mem_of_getLast? hlast))]
        exact Window.window_eq_drop hnodup hfrom hlast
      have hgone : older.filter (fun id => !b'.hidden id) = [] := by
        rw [List.filter_eq_nil_iff]
        intro id hid
        have hne : id ≠ e.turn := fun heq => hnew (heq ▸ hid)
        rw [hidden_record he hobs hwin, if_neg hne]
        rcases hnone id hid with hh | hh <;> simp [hh]
      have hs : b'.survivors = [e.turn] := by
        rw [survivors, hord, horder, List.filter_append, hgone]
        simp [hcarrier]
      rw [hs, hn]
      simp [hordinal]
  · rw [hu, hord]
    intro w hw
    rw [List.getLast?_concat, Option.some.injEq] at hw
    subst hw
    exact ⟨hends.2.2, hcarrier⟩

theorem kept_ordered : Kept Ordered where
  entry := fun _ h ho hr hobs => h.entry ho hr hobs
  opens := fun hb h he hf hn hobs => h.opens hb he hf hn hobs
  record := fun _ h he hrec hobs => h.record he hrec hobs

theorem ordered_empty : empty.Ordered where
  nodup := by simp [empty]
  ends := by simp [empty]
  ordinals := by simp [survivors, empty]
  newest := by simp [empty]

/-- A turn the order lacks is fresh, the windows naming turns of the order only. -/
theorem Ordered.fresh {b : Index} (h : b.Ordered) {id : String} (hid : id ∉ b.order) :
    b.Fresh id where
  notMem := hid
  unnamed := fun w hw => ⟨fun heq => hid (heq ▸ (h.ends w hw).1),
    fun heq => hid (heq ▸ (h.ends w hw).2)⟩

end Index

namespace EntryLog

def reverted (l : EntryLog) (turn : String) : Bool :=
  ((l.index.turns turn).map TurnState.reverted).getD false

/-- What the callers keep to: minted ids are new, a turn_open and a turn_revert come from the
log's own operations, and only a revert opens a `source: revert` turn. -/
def Regular (l : EntryLog) : LogOp → Prop
  | .openTurn _ mint spec => l.NewTurn mint ∧ spec.source ≠ .revert
  | .append _ e => e.kind ≠ .turnOpen ∧ e.kind ≠ .turnRevert
  | .appendBetweenTurns _ mint e => l.NewTurn mint ∧ e.kind ≠ .turnOpen ∧ e.kind ≠ .turnRevert
  | .appendReconciled _ mint _ => l.NewTurn mint
  | .revert _ mint _ _ _ => l.NewTurn mint

def RegularRun (c : LineCodec) (l : EntryLog) : List LogOp → Prop
  | [] => True
  | op :: ops => l.Regular op ∧ RegularRun c (l.perform c op) ops

variable {c : LineCodec}

theorem NewTurn.mints {l : EntryLog} {mint : String} (h : l.NewTurn mint) :
    l.Mints Index.Ordered c ("t-" ++ mint) := by
  intro b hb ho hf
  refine ho.fresh ?_
  have := h hf
  rwa [hb.index_eq, Index.live_order] at this

theorem Regular.opensOnlyNew {l : EntryLog} {op : LogOp} (h : l.Regular op) : l.OpensOnlyNew op := by
  cases op with
  | openTurn => exact h.1
  | append => exact h.1
  | appendBetweenTurns => exact ⟨h.1, h.2.1⟩
  | appendReconciled => exact h
  | revert => exact h

theorem coherentWith_perform {l : EntryLog} {op : LogOp} (h : CoherentWith Index.Ordered c l)
    (hop : l.Regular op) : CoherentWith Index.Ordered c (l.perform c op) := by
  cases op with
  | openTurn t mint spec => exact h.openTurn Index.kept_ordered hop.1.mints spec hop.2 t
  | append t e => exact h.append Index.kept_ordered hop.1 hop.2 t
  | appendBetweenTurns ticks mint e =>
    exact h.appendBetweenTurns Index.kept_ordered hop.1.mints hop.2.1 hop.2.2 ticks
  | appendReconciled ticks mint rec =>
    exact h.appendReconciled Index.kept_ordered (NewTurn.mints hop) ticks rec
  | revert ticks mint fromTurn cause kasMessageID =>
    exact h.revert Index.kept_ordered (NewTurn.mints hop) ticks fromTurn cause kasMessageID

theorem coherentWith_performAll {l : EntryLog} {ops : List LogOp}
    (h : CoherentWith Index.Ordered c l) (hops : l.RegularRun c ops) :
    CoherentWith Index.Ordered c (l.performAll c ops) := by
  induction ops generalizing l with
  | nil => exact h
  | cons op ops ih => exact ih (coherentWith_perform h hops.1) hops.2

theorem coherentWith_new (header : LogHeader) (cap : ℕ) :
    CoherentWith Index.Ordered c (new header cap) :=
  ⟨.empty, ⟨LineCodec.intact_nil, rfl, fun _ => rfl⟩, Index.ordered_empty⟩

theorem grows_performAll {l : EntryLog} {ops : List LogOp} (hops : l.RegularRun c ops) :
    Grows c l (l.performAll c ops) := by
  induction ops generalizing l with
  | nil => exact Grows.refl l
  | cons op ops ih => exact (grows_perform hops.1.opensOnlyNew).trans (ih hops.2)

theorem CoherentUnder.reverted_of_mem {l : EntryLog} {b : Index} {r : String → Bool}
    {turn : String} (h : CoherentUnder c l b r) (hm : turn ∈ b.order) : l.reverted turn = r turn :=
  h.reverted_eq (by simpa [h.index_eq] using hm)

theorem CoherentUnder.mem_of_reverted {l : EntryLog} {b : Index} {r : String → Bool}
    {turn : String} (h : CoherentUnder c l b r) (hr : l.reverted turn = true) :
    turn ∈ b.order ∧ r turn = true := by
  have hm : turn ∈ b.order := by
    rw [h.intact.folded.mem_order]
    cases hst : b.turns turn with
    | none => simp [reverted, h.index_eq, Index.live_turns, hst] at hr
    | some st => rfl
  exact ⟨hm, by rw [← h.reverted_of_mem hm]; exact hr⟩

/-- Once reverted a turn stays so, whatever the operations. -/
theorem reverted_mono {l l' : EntryLog} {turn : String} (h : CoherentWith Index.Ordered c l)
    (hg : Grows c l l') (hr : l.reverted turn = true) : l'.reverted turn = true := by
  obtain ⟨b, hb, -⟩ := h
  obtain ⟨hm, hrb⟩ := hb.mem_of_reverted hr
  obtain ⟨b', r', hb', hord, hmono⟩ := hg.coherentUnder hb
  rw [hb'.reverted_of_mem (hord.subset hm)]
  exact hmono turn hm hrb

theorem mem_windows {es : List Entry} {w : RevertWindow} :
    w ∈ History.windows es ↔
      ∃ e ∈ es, ∃ p, e.payload = .turnRevert p ∧ w = ⟨e.turn, p.fromTurn, p.through⟩ := by
  rw [History.windows, List.mem_filterMap]
  refine exists_congr (fun e => and_congr_right (fun _ => ?_))
  cases hp : e.payload <;> simp [History.windowOf, hp, eq_comm]

/-- A window takes a turn exactly where some record but its own names it between its ends. -/
theorem taken_iff {es : List Entry} {b : Index} (hf : b.Follows es) (ho : b.order.Nodup)
    (turn : String) : b.taken turn = true ↔
      ∃ e ∈ es, ∃ p, e.payload = .turnRevert p ∧ e.turn ≠ turn ∧
        Window.Between (History.opened es) p.fromTurn p.through turn := by
  rw [Index.taken, List.any_eq_true, hf.windows, ← hf.order]
  constructor
  · rintro ⟨w, hw, ht⟩
    obtain ⟨e, he, p, hp, rfl⟩ := mem_windows.mp hw
    simp only [RevertWindow.takes, Bool.and_eq_true, decide_eq_true_eq, bne_iff_ne] at ht
    exact ⟨e, he, p, hp, ht.2.symm, (Window.mem_window_iff ho).mp ht.1⟩
  · rintro ⟨e, he, p, hp, hne, hbetween⟩
    refine ⟨_, mem_windows.mpr ⟨e, he, p, hp, rfl⟩, ?_⟩
    simp only [RevertWindow.takes, Bool.and_eq_true, decide_eq_true_eq, bne_iff_ne]
    exact ⟨(Window.mem_window_iff ho).mpr hbetween, hne.symm⟩

/-- A carrier is incomplete exactly where its turn's own entries hold no record. -/
theorem incomplete_iff {es : List Entry} {b : Index} (hf : b.Follows es) (hr : b.RowsFollow es)
    (hb : b.Folded) (ho : b.order.Nodup) (turn : String) : b.incomplete turn = true ↔
      (∃ e ∈ es, ∃ p, e.turn = turn ∧ e.payload = .turnOpen p ∧ p.source = .revert) ∧
        ∀ e ∈ es, e.turn = turn → e.kind ≠ .turnRevert := by
  rw [hf.order] at ho
  cases hst : b.turns turn with
  | none =>
    have hnone : ∀ e ∈ es, e.turn ≠ turn := by
      intro e he heq
      have hm := (hb.mem_order turn).mp (heq ▸ hf.turn_mem e he)
      simp [hst] at hm
    constructor
    · simp [Index.incomplete, hst]
    · rintro ⟨⟨e, he, p, ht, -⟩, -⟩
      exact absurd ht (hnone e he)
  | some st =>
    have hrow := hr ho turn st hst
    obtain ⟨o, p, body, hown, hp, hsrc, -, hbody⟩ := hrow.opening
    have hmem : ∀ e, e ∈ o :: body ↔ e ∈ es ∧ e.turn = turn := by
      intro e
      rw [← hown, History.own, List.mem_filter, decide_eq_true_eq]
    have hrec : st.hasRevert = false ↔ ∀ e ∈ es, e.turn = turn → e.kind ≠ .turnRevert := by
      rw [hrow.hasRevert, hown, List.any_eq_false]
      simp only [decide_eq_true_eq, hmem, and_imp]
    have hopen : st.source = .revert ↔
        ∃ e ∈ es, ∃ p, e.turn = turn ∧ e.payload = .turnOpen p ∧ p.source = .revert := by
      constructor
      · intro h
        obtain ⟨ho, hot⟩ := (hmem o).mp (by simp)
        exact ⟨o, ho, p, hot, hp, hsrc ▸ h⟩
      · rintro ⟨e, he, q, ht, hq, hqs⟩
        rcases List.mem_cons.mp ((hmem e).mpr ⟨he, ht⟩) with rfl | hin
        · rw [hp] at hq
          cases hq
          rw [hsrc, hqs]
        · exact absurd (Entry.kind_of_payload hq) (hbody e hin)
    rw [← hrec, ← hopen]
    simp [Index.incomplete, hst, TurnState.incompleteCarrier]

/-- Which turns are reverted, read off the record. -/
theorem reverted_iff {l : EntryLog} (h : CoherentWith Index.Ordered c l) {turn : String}
    (hm : turn ∈ History.opened (l.recorded c)) : l.reverted turn = true ↔
      (∃ e ∈ l.recorded c, ∃ p, e.payload = .turnRevert p ∧ e.turn ≠ turn ∧
        Window.Between (History.opened (l.recorded c)) p.fromTurn p.through turn) ∨
      (∃ e ∈ l.recorded c, ∃ p, e.turn = turn ∧ e.payload = .turnOpen p ∧ p.source = .revert) ∧
        ∀ e ∈ l.recorded c, e.turn = turn → e.kind ≠ .turnRevert := by
  obtain ⟨b, hb, ho⟩ := h
  obtain ⟨hf, hr⟩ := hb.recorded
  rw [← hf.order] at hm
  rw [hb.reverted_of_mem hm, Index.hidden, Bool.or_eq_true, taken_iff hf ho.nodup,
    incomplete_iff hf hr hb.intact.folded ho.nodup]

/-- The newest record's carrier survives. -/
theorem newest_carrier {l : EntryLog} (h : CoherentWith Index.Ordered c l) {pre post : List Entry}
    {e : Entry} (hes : l.recorded c = pre ++ e :: post) (he : e.kind = .turnRevert)
    (hpost : ∀ f ∈ post, f.kind ≠ .turnRevert) : l.reverted e.turn = false := by
  obtain ⟨b, hb, ho⟩ := h
  obtain ⟨p, hp⟩ := Entry.kind_eq_turnRevert.mp he
  have hnil : History.windows post = [] := by
    rw [History.windows, List.filterMap_eq_nil_iff]
    intro f hf
    cases hq : f.payload <;> simp [History.windowOf, hq]
    exact hpost f hf (Entry.kind_of_payload hq)
  have hlast : b.unappliedReverts.getLast? = some ⟨e.turn, p.fromTurn, p.through⟩ := by
    have hcons : e :: post = [e] ++ post := rfl
    rw [hb.recorded.1.windows, hes, hcons, History.windows_append, History.windows_append, hnil]
    simp [History.windows, History.windowOf, hp]
  obtain ⟨hm, hv⟩ := ho.newest _ hlast
  rw [hb.reverted_of_mem hm, hv]

/-- The survivors in file order are numbered from one. -/
theorem surviving_ordinals {l : EntryLog} (h : CoherentWith Index.Ordered c l) :
    l.index.survivingOrder.map l.index.ordinal = List.range' 1 l.index.survivingOrder.length ∧
      l.index.turnCount = l.index.survivingOrder.length := by
  obtain ⟨b, hb, ho⟩ := h
  have hs : l.index.survivingOrder = b.survivors := by
    rw [hb.index_eq, hb.intact.folded.survivingOrder_live, Index.survivors]
  rw [hs]
  refine ⟨?_, ?_⟩
  · rw [hb.index_eq, Index.ordinal_live]
    exact ho.ordinals
  · rw [hb.index_eq]
    exact ho.turnCount_eq hb.intact.folded

/-- An entry filed between turns lands in a survivor. -/
theorem appendBetweenTurns_survives {l l' : EntryLog} {mint : String} {e filed : Entry}
    {opened : Option Entry} {ticks : ℕ → Tick} (h : CoherentWith Index.Ordered c l)
    (hid : l.NewTurn mint) (ho : e.kind ≠ .turnOpen) (hr : e.kind ≠ .turnRevert)
    (heq : l.appendBetweenTurns c ticks mint e = (l', opened, .ok filed)) :
    filed.turn ∈ l'.index.survivingOrder := by
  have hland : ∀ {l₁ l₂ : EntryLog} {b : Index} {turn : String} {t : Tick},
      CoherentUnder c l₁ b b.hidden → turn ∈ b.order → b.hidden turn = false →
      l₁.append c t { e with turn := turn } = (l₂, .ok filed) →
      filed.turn ∈ l₂.index.survivingOrder := by
    intro l₁ l₂ b turn t hb hm hv happ
    rcases hb.append t { e with turn := turn } with ⟨_, _, heq₁, -⟩ | ⟨l₃, b', heq₁, -, hobs, hl₃⟩
    · rw [happ] at heq₁
      cases heq₁
    · rw [happ] at heq₁
      obtain ⟨rfl, hfiled⟩ := Prod.mk.inj heq₁
      have ho' : (l₁.stamp t { e with turn := turn }).kind ≠ .turnOpen := by
        rw [stamp_kind]
        exact ho
      have hr' : (l₁.stamp t { e with turn := turn }).kind ≠ .turnRevert := by
        rw [stamp_kind]
        exact hr
      rw [Except.ok.inj hfiled, stamp_turn]
      rw [Index.flagsAfter_of_ne ho' hr'] at hl₃
      rw [hl₃.index_eq, hl₃.intact.folded.survivingOrder_live, List.mem_filter,
        Index.observeLine_order ho' hobs]
      exact ⟨hm, by simp [hv]⟩
  obtain ⟨b, hb, hord⟩ := h
  unfold appendBetweenTurns at heq
  cases hs : l.index.newestSurviving [] with
  | some turn =>
    obtain ⟨hm, -, hv⟩ := hb.newestSurviving hs
    rw [hs] at heq
    simp only [Prod.mk.injEq] at heq
    exact hland hb hm hv (Prod.ext heq.1 heq.2.2)
  | none =>
    rw [hs] at heq
    simp only at heq
    rcases hb.openTurn (hid.mints b hb hord) (ticks 0) { source := .event }
        (l.index.turnCount + 1) with
      ⟨l₁, err, hopen, -⟩ | ⟨l₁, b₁, new, hopen, hnew, hf, hobs, hh, hl₁⟩
    · rw [openTurn, hopen] at heq
      cases heq
    · rw [openTurn, hopen] at heq
      simp only [Prod.mk.injEq] at heq
      have hturn : new.turn = "t-" ++ mint := by rw [hnew]; rfl
      have hk : new.kind = .turnOpen := by rw [hnew]; simp
      have hcoh : CoherentUnder c l₁ b₁ b₁.hidden := by rw [hh]; exact hl₁
      refine hland hcoh ?_ ?_ (Prod.ext heq.1 heq.2.2)
      · rw [Index.observeLine_order_turnOpen hk hobs]
        simp
      · rw [hh, hturn, Function.update_self]
        rfl

/-- The law of reverts at one state: which turns are reverted, that they stay so, that the
newest record's carrier survives, how the survivors are numbered and what the next turn draws,
and where an entry filed between turns lands. -/
structure RevertLaw (c : LineCodec) (l : EntryLog) : Prop where
  reverted_iff : ∀ turn ∈ History.opened (l.recorded c), (l.reverted turn = true ↔
    (∃ e ∈ l.recorded c, ∃ p, e.payload = .turnRevert p ∧ e.turn ≠ turn ∧
      Window.Between (History.opened (l.recorded c)) p.fromTurn p.through turn) ∨
    (∃ e ∈ l.recorded c, ∃ p, e.turn = turn ∧ e.payload = .turnOpen p ∧ p.source = .revert) ∧
      ∀ e ∈ l.recorded c, e.turn = turn → e.kind ≠ .turnRevert)
  stays : ∀ ops, l.RegularRun c ops → ∀ turn, l.reverted turn = true →
    (l.performAll c ops).reverted turn = true
  newest : ∀ pre e post, l.recorded c = pre ++ e :: post → e.kind = .turnRevert →
    (∀ f ∈ post, f.kind ≠ .turnRevert) → l.reverted e.turn = false
  ordinals : l.index.survivingOrder.map l.index.ordinal =
    List.range' 1 l.index.survivingOrder.length
  draws : ∀ t mint spec, l.openTurn c t mint spec =
    l.openTurnWithOrdinal c t mint spec (l.index.survivingOrder.length + 1)
  lands : ∀ ticks mint e l' opened filed, l.Regular (.appendBetweenTurns ticks mint e) →
    l.appendBetweenTurns c ticks mint e = (l', opened, .ok filed) →
    filed.turn ∈ l'.index.survivingOrder

/-- From an empty log on, the law holds after every run of regular calls. -/
theorem revert_law (header : LogHeader) (cap : ℕ) {ops : List LogOp}
    (hops : (new header cap).RegularRun c ops) :
    RevertLaw c ((new header cap).performAll c ops) := by
  have h := coherentWith_performAll (coherentWith_new header cap) hops
  constructor
  · exact fun turn hm => EntryLog.reverted_iff h hm
  · exact fun ops hrun turn hr => reverted_mono h (grows_performAll hrun) hr
  · exact fun pre e post hes he hpost => newest_carrier h hes he hpost
  · exact (surviving_ordinals h).1
  · intro t mint spec
    rw [openTurn, (surviving_ordinals h).2]
  · rintro ticks mint e l' opened filed ⟨hid, ho, hr⟩ heq
    exact appendBetweenTurns_survives h hid ho hr heq

/-- Two turns, the second of them reverted, and a third that takes its ordinal again. -/
theorem revert_law_of_reuse :
    RevertLaw jsonLines ((new noHeader 0).performAll jsonLines
      [.openTurn {} "a" { source := .prompt }, .openTurn {} "b" { source := .prompt },
        .revert (fun _ => {}) "c" "t-b" .rewind "k1",
        .openTurn {} "d" { source := .prompt }]) := by
  refine revert_law noHeader 0 ⟨⟨by decide +kernel, by decide⟩, ⟨by decide +kernel, by decide⟩,
    ?_, ⟨by decide +kernel, by decide⟩, trivial⟩
  change NewTurn _ "c"
  decide +kernel

/-- The runs the law leaves out: a turn_revert a caller appends hides a turn between two
survivors, a caller's own `source: revert` turn holds no record and stays, and a turn_open a
caller appends brings its own n. -/
theorem irregular_run_breaks_revert_law :
    (let l := (new noHeader 0).performAll jsonLines
        [.openTurn {} "a" { source := .prompt }, .openTurn {} "b" { source := .prompt },
          .openTurn {} "c" { source := .prompt },
          .append {}
            { id := "r"
              turn := "t-c"
              payload := .turnRevert { fromTurn := "t-b", through := "t-b" } }]
     l.index.survivingOrder.map l.index.ordinal ≠
      List.range' 1 l.index.survivingOrder.length) ∧
    (let l := (new noHeader 0).performAll jsonLines [.openTurn {} "a" { source := .revert }]
     l.recorded jsonLines = [turnOpenEntry "a" { source := .revert } 1] ∧
      l.reverted "t-a" = false) ∧
    (let l := (new noHeader 0).performAll jsonLines
        [.append {} { id := "t-a", turn := "t-a", payload := .turnOpen { source := .prompt, n := 7 } }]
     l.index.survivingOrder.map l.index.ordinal ≠
      List.range' 1 l.index.survivingOrder.length) := by
  refine ⟨?_, ⟨?_, ?_⟩, ?_⟩ <;> decide +kernel

end EntryLog

end Marotte
