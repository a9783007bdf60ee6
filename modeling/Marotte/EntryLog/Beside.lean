import Marotte.EntryLog.Paging

/-! # Logs that show the same

Two logs whose survivors have the same rows and the same entries answer every read alike, whatever
else their files hold, and go on alike when the same is appended to both.
-/
namespace Marotte

open History

/-- A row without the place of its lines in the file. -/
def TurnState.bare (st : TurnState) : TurnState := { st with ranges := [] }

theorem TurnState.bare_fold_extend {st st' : TurnState} (h : st.bare = st'.bare) (e : Entry)
    (start stop start' stop' : ℕ) :
    ((st.extend e start stop).fold e).bare = ((st'.extend e start' stop').fold e).bare := by
  have hfold : ∀ (st : TurnState) (start stop : ℕ),
      ((st.extend e start stop).fold e).bare = ((st.bare.extend e 0 0).fold e).bare := by
    intro st start stop
    cases hp : e.payload <;>
      simp [TurnState.fold, hp, TurnState.extend, TurnState.bare, foldTurnClose, foldSteer]
  rw [hfold, hfold st', h]

namespace EntryLog

variable {c : LineCodec} {l l' l₁ l₁' : EntryLog}

/-- The n a turn_open states. -/
def opensAt (e : Entry) : Option ℕ :=
  match e.payload with
  | .turnOpen p => some p.n
  | _ => none

/-- Two logs answer a reader of the survivors alike, and their next turns draw the same n. -/
structure SeenAlike (c : LineCodec) (l l' : EntryLog) : Prop where
  all : l'.all c = l.all c
  window : ∀ turns before, l'.window c turns before = l.window c turns before
  railRows : l'.railRows = l.railRows
  counters : l'.index.counters = l.index.counters
  turnRange : ∀ turn fromSeq, l'.turnRange c turn fromSeq = l.turnRange c turn fromSeq
  newestRevert : l'.newestRevert = l.newestRevert
  draws : ∀ t t' mint mint' spec opening opening',
    (l.openTurn c t mint spec).2 = .ok opening → (l'.openTurn c t' mint' spec).2 = .ok opening' →
      opensAt opening' = opensAt opening

/-- Two sound logs with the same survivors, of the same rows and entries. -/
structure Beside (c : LineCodec) (l l' : EntryLog) : Prop where
  sound : Sound c l
  sound' : Sound c l'
  survivors : l'.index.survivingOrder = l.index.survivingOrder
  rows : ∀ turn ∈ l.index.survivingOrder,
    (l'.index.turns turn).map TurnState.bare = (l.index.turns turn).map TurnState.bare
  entries : (l'.recorded c).filter (fun e => e.turn ∈ l.index.survivingOrder) =
    (l.recorded c).filter (fun e => e.turn ∈ l.index.survivingOrder)
  newestRevert : l'.index.newestRevert = l.index.newestRevert

theorem Sound.beside_self (h : Sound c l) : Beside c l l := ⟨h, h, rfl, fun _ _ => rfl, rfl, rfl⟩

/-! ## The reads -/

theorem Beside.map_row (h : Beside c l l') {α : Type*} (f : TurnState → α)
    (hf : ∀ st, f st = f st.bare) {turn : String} (hturn : turn ∈ l.index.survivingOrder) :
    (l'.index.turns turn).map f = (l.index.turns turn).map f := by
  have hrow := congrArg (Option.map f) (h.rows turn hturn)
  rw [Option.map_map, Option.map_map] at hrow
  have hcomp : f ∘ TurnState.bare = f := by
    funext st
    exact (hf st).symm
  rwa [hcomp] at hrow

theorem Beside.entries_of (h : Beside c l l') (set : List String)
    (hset : ∀ t ∈ set, t ∈ l.index.survivingOrder) :
    (l'.recorded c).filter (fun e => e.turn ∈ set) = (l.recorded c).filter (fun e => e.turn ∈ set) := by
  have hfilter : ∀ es : List Entry, es.filter (fun e => e.turn ∈ set) =
      (es.filter (fun e => e.turn ∈ l.index.survivingOrder)).filter (fun e => e.turn ∈ set) := by
    intro es
    rw [List.filter_filter]
    apply List.filter_congr
    intro e _
    by_cases he : e.turn ∈ set
    · simp [he, hset _ he]
    · simp [he]
  rw [hfilter, h.entries, ← hfilter]

theorem Beside.readSet (h : Beside c l l') {set : List String} (hnodup : set.Nodup)
    (hset : ∀ t ∈ set, t ∈ l.index.survivingOrder) : l'.readSet c set = l.readSet c set := by
  rw [h.sound'.readSet_eq hnodup, h.sound.readSet_eq hnodup, h.entries_of set hset]

theorem Beside.all (h : Beside c l l') : l'.all c = l.all c := by
  rw [EntryLog.all, EntryLog.all, h.survivors]
  exact h.readSet h.sound.nodup_survivingOrder (fun _ ht => ht)

theorem Beside.window (h : Beside c l l') (turns : ℤ) (before : String) :
    l'.window c turns before = l.window c turns before := by
  rw [h.sound'.window_eq, h.sound.window_eq, h.survivors]
  split
  · rfl
  · rw [h.entries_of]
    intro t ht
    exact List.mem_of_mem_take (List.mem_of_mem_drop ht)

theorem Beside.railRows (h : Beside c l l') : l'.railRows = l.railRows := by
  rw [EntryLog.railRows, EntryLog.railRows, h.survivors]
  apply List.filterMap_congr
  intro turn hturn
  have hrow := h.map_row (railRow turn) (fun _ => rfl) hturn
  cases hst : l.index.turns turn <;> cases hst' : l'.index.turns turn <;>
    simp only [hst, hst', Option.map_none, Option.map_some, Option.some.injEq, reduceCtorEq] at hrow
  · rfl
  · exact hrow

theorem Beside.ordinal (h : Beside c l l') {turn : String} (hturn : turn ∈ l.index.survivingOrder) :
    l'.index.ordinal turn = l.index.ordinal turn := by
  rw [Index.ordinal, Index.ordinal, h.map_row TurnState.n (fun _ => rfl) hturn]

theorem Beside.turnCount (h : Beside c l l') : l'.index.turnCount = l.index.turnCount := by
  rw [Index.turnCount, Index.turnCount, h.survivors]
  cases hlast : l.index.survivingOrder.getLast? with
  | none => rfl
  | some turn => exact h.ordinal (List.mem_of_getLast? hlast)

theorem Beside.counters (h : Beside c l l') : l'.index.counters = l.index.counters := by
  rw [Index.counters, Index.counters, h.turnCount, h.survivors]
  congr 1
  apply List.foldl_ext
  intro last id hid
  have hrow := h.map_row (fun st => if st.closed then st.outcome else last) (fun _ => rfl) hid
  cases hst : l.index.turns id <;> cases hst' : l'.index.turns id <;>
    simp only [hst, hst', Option.map_none, Option.map_some, Option.some.injEq, reduceCtorEq] at hrow
  · rfl
  · exact hrow

/-- A turn out of the survivors has no range. -/
theorem Sound.turnRange_of_notMem (h : Sound c l) {turn : String}
    (hturn : turn ∉ l.index.survivingOrder) (fromSeq : ℕ) :
    l.turnRange c turn fromSeq = .error (.turnNotInLog turn) := by
  rw [EntryLog.turnRange]
  cases hst : l.index.turns turn with
  | none => rfl
  | some st =>
    have horder : turn ∈ l.index.order := by
      obtain ⟨b, r, hb⟩ := h.coherent
      rw [hb.index_eq, Index.live_order, hb.intact.folded.mem_order]
      rw [hb.index_eq, Index.live_turns, Option.map_eq_some_iff] at hst
      obtain ⟨st₀, hst₀, -⟩ := hst
      rw [hst₀]
      rfl
    have hrev : st.reverted = true := by
      by_contra hno
      apply hturn
      rw [Index.survivingOrder, List.mem_filter]
      exact ⟨horder, by simpa [hst] using hno⟩
    simp only [hrev, if_true]

theorem Beside.turnRange (h : Beside c l l') (turn : String) (fromSeq : ℕ) :
    l'.turnRange c turn fromSeq = l.turnRange c turn fromSeq := by
  by_cases hturn : turn ∈ l.index.survivingOrder
  · have hown : own (l'.recorded c) turn = own (l.recorded c) turn := by
      have hset := h.entries_of [turn] (by simpa using hturn)
      simpa [own] using hset
    rw [h.sound'.turnRange_eq (h.survivors ▸ hturn), h.sound.turnRange_eq hturn, hown]
  · rw [h.sound'.turnRange_of_notMem (h.survivors ▸ hturn), h.sound.turnRange_of_notMem hturn]

/-- A turn opens at one past the newest survivor's n. -/
theorem openTurn_opensAt {t : Tick} {mint : String} {spec : TurnSpec} {opening : Entry}
    (h : (l.openTurn c t mint spec).2 = .ok opening) :
    opensAt opening = some (l.index.turnCount + 1) := by
  rw [openTurn, openTurnWithOrdinal] at h
  rcases append_cases (c := c) l t (turnOpenEntry mint spec (l.index.turnCount + 1)) with
    ⟨idx, -, -, heq⟩ | ⟨l₁, err, heq, -⟩
  · rw [heq] at h
    cases h
    rw [opensAt, stamp_payload]
    rfl
  · rw [heq] at h
    cases h

theorem Beside.seenAlike (h : Beside c l l') : SeenAlike c l l' where
  all := h.all
  window := h.window
  railRows := h.railRows
  counters := h.counters
  turnRange := h.turnRange
  newestRevert := by rw [EntryLog.newestRevert, EntryLog.newestRevert, h.newestRevert]
  draws := by
    intro t t' mint mint' spec opening opening' hopen hopen'
    rw [openTurn_opensAt hopen, openTurn_opensAt hopen', h.turnCount]

/-! ## Appending the same to both -/

/-- The index behind an append that reverts nothing is one fold further. -/
theorem Sound.append_index (h : Sound c l) {t : Tick} {e stamped : Entry}
    (hr : e.kind ≠ .turnRevert) (heq : l.append c t e = (l₁, .ok stamped)) :
    stamped = l.stamp t e ∧ l₁.index.newestRevert = l.index.newestRevert ∧
      ∃ start stop i, l.index.observe stamped start stop = some i ∧ l₁.index.turns = i.turns := by
  rcases append_cases (c := c) l t e with ⟨idx, -, hobs, heq'⟩ | ⟨l₂, err, heq', -⟩
  · rw [heq] at heq'
    obtain ⟨rfl, hs⟩ := Prod.mk.inj heq'
    cases hs
    obtain ⟨i, hi, rfl⟩ := Index.observeLine_iff_observe.mp hobs
    have hr' : (l.stamp t e).kind ≠ .turnRevert := by rwa [stamp_kind]
    have hnil : i.unappliedReverts = [] := by
      obtain ⟨b, r, hb⟩ := h.coherent
      have hfold := Index.observe_unapplied hi
      rw [hb.index_eq, Index.live_unapplied] at hfold
      cases hp : (l.stamp t e).payload <;> simp only [hp] at hfold <;> try exact hfold
      exact absurd (Entry.kind_of_payload hp) hr'
    have hnewest : i.newestRevert = l.index.newestRevert := by
      by_cases ho : (l.stamp t e).kind = .turnOpen
      · obtain ⟨p, hp⟩ := Entry.kind_eq_turnOpen.mp ho
        rw [Index.observe_turnOpen hp] at hi
        cases hi
        rfl
      · rw [Index.observe_of_ne_turnOpen ho, Option.map_eq_some_iff] at hi
        obtain ⟨st, -, rfl⟩ := hi
        cases hp : (l.stamp t e).payload <;> simp only [Index.fold, hp, Index.setTurn]
        exact absurd (Entry.kind_of_payload hp) hr'
    rw [Index.applyReverts_setSize, Index.applyReverts_of_nil hnil]
    exact ⟨rfl, hnewest, _, _, i, hi, rfl⟩
  · rw [heq] at heq'
    cases heq'

/-- What an append that opens and reverts nothing does to the rows. -/
theorem Sound.append_rows (h : Sound c l) {t : Tick} {e stamped : Entry} (ho : e.kind ≠ .turnOpen)
    (hr : e.kind ≠ .turnRevert) (heq : l.append c t e = (l₁, .ok stamped)) :
    l₁.index.newestRevert = l.index.newestRevert ∧ ∃ start stop, ∀ turn, l₁.index.turns turn =
      if turn = e.turn then
        (l.index.turns turn).map (fun st => (st.extend stamped start stop).fold stamped)
      else l.index.turns turn := by
  obtain ⟨hs, hnewest, start, stop, i, hi, hturns⟩ := h.append_index hr heq
  have ho' : stamped.kind ≠ .turnOpen := by rwa [hs, stamp_kind]
  have hrows := Index.observe_turns_of_ne_turnOpen ho' hi
  rw [hs, stamp_turn, ← hs] at hrows
  exact ⟨hnewest, start, stop, fun turn => by rw [hturns, hrows]⟩

/-- An append that opens and reverts nothing, by what it adds. -/
theorem Sound.append_adds (h : Sound c l) {t : Tick} {e stamped : Entry} (ho : e.kind ≠ .turnOpen)
    (hr : e.kind ≠ .turnRevert) (heq : l.append c t e = (l₁, .ok stamped)) :
    stamped = l.stamp t e ∧ Sound c l₁ ∧ l₁.index.survivingOrder = l.index.survivingOrder ∧
      l₁.recorded c = l.recorded c ++ [stamped] := by
  obtain ⟨es, hext, -⟩ := h.append_lengthens t ho hr
  rw [heq] at hext
  obtain ⟨b, r, hb⟩ := h.coherent
  obtain ⟨hstamped, -, -, hrec, -⟩ := hb.append_eq_ok heq
  exact ⟨hstamped, hext.sound, hext.survivors, hrec⟩

theorem Beside.stamp (h : Beside c l l') (t : Tick) {e : Entry}
    (hturn : e.turn ∈ l.index.survivingOrder) : l'.stamp t e = l.stamp t e := by
  have hrow := h.map_row TurnState.nextSeq (fun _ => rfl) hturn
  rw [EntryLog.stamp, EntryLog.stamp]
  cases hst : l.index.turns e.turn <;> cases hst' : l'.index.turns e.turn <;>
    simp only [hst, hst', Option.map_none, Option.map_some, Option.some.injEq, reduceCtorEq] at hrow
  · rfl
  · simp only [hrow]

/-- The same entry appended to a survivor of both. -/
theorem Beside.append (h : Beside c l l') {t : Tick} {e stamped stamped' : Entry}
    (hturn : e.turn ∈ l.index.survivingOrder) (ho : e.kind ≠ .turnOpen)
    (hr : e.kind ≠ .turnRevert) (heq : l.append c t e = (l₁, .ok stamped))
    (heq' : l'.append c t e = (l₁', .ok stamped')) : Beside c l₁ l₁' := by
  obtain ⟨hs, hsound, hsurvive, hrec⟩ := h.sound.append_adds ho hr heq
  obtain ⟨hs', hsound', hsurvive', hrec'⟩ := h.sound'.append_adds ho hr heq'
  obtain ⟨hnewest, start, stop, hrows⟩ := h.sound.append_rows ho hr heq
  obtain ⟨hnewest', start', stop', hrows'⟩ := h.sound'.append_rows ho hr heq'
  have hsame : stamped' = stamped := by rw [hs, hs', h.stamp t hturn]
  subst hsame
  constructor
  · exact hsound
  · exact hsound'
  · rw [hsurvive', hsurvive, h.survivors]
  · intro turn hmem
    rw [hsurvive] at hmem
    rw [hrows, hrows']
    by_cases hself : turn = e.turn
    · rw [if_pos hself, if_pos hself, Option.map_map, Option.map_map]
      have hrow := h.rows turn hmem
      cases hst : l.index.turns turn <;> cases hst' : l'.index.turns turn <;>
        simp only [hst, hst', Option.map_none, Option.map_some, Option.some.injEq, reduceCtorEq]
          at hrow
      · rfl
      · exact congrArg some (TurnState.bare_fold_extend hrow ..)
    · rw [if_neg hself, if_neg hself]
      exact h.rows turn hmem
  · rw [hsurvive, hrec, hrec', List.filter_append, List.filter_append, h.entries]
  · rw [hnewest, hnewest', h.newestRevert]

theorem Beside.appendAll (h : Beside c l l') {ticks : ℕ → Tick} {es : List Entry}
    (hes : ∀ e ∈ es, e.turn ∈ l.index.survivingOrder ∧ e.kind ≠ .turnOpen ∧ e.kind ≠ .turnRevert)
    (heq : l.appendAll c ticks es = (l₁, .ok ())) (heq' : l'.appendAll c ticks es = (l₁', .ok ())) :
    Beside c l₁ l₁' ∧ l₁.index.survivingOrder = l.index.survivingOrder := by
  induction es generalizing l l' ticks with
  | nil =>
    cases heq
    cases heq'
    exact ⟨h, rfl⟩
  | cons e es ih =>
    obtain ⟨hturn, ho, hr⟩ := hes e (by simp)
    rw [EntryLog.appendAll] at heq heq'
    rcases hone : l.append c (ticks 0) e with ⟨m, err | stamped⟩
    · simp only [hone] at heq
      cases heq
    rcases hone' : l'.append c (ticks 0) e with ⟨m', err | stamped'⟩
    · simp only [hone'] at heq'
      cases heq'
    simp only [hone] at heq
    simp only [hone'] at heq'
    have hsurvive := (h.sound.append_adds ho hr hone).2.2.1
    have hnext := ih (h.append hturn ho hr hone hone')
      (fun e he => hsurvive ▸ hes e (List.mem_cons_of_mem _ he)) heq heq'
    exact ⟨hnext.1, hnext.2.trans hsurvive⟩

/-- The closers of one survivor, synthesized in both. -/
theorem Beside.synthesizeClose (h : Beside c l l') {ticks : ℕ → Tick} {turn model : String}
    (hturn : turn ∈ l.index.survivingOrder)
    (heq : l.synthesizeClose c ticks turn model = (l₁, .ok ()))
    (heq' : l'.synthesizeClose c ticks turn model = (l₁', .ok ())) :
    Beside c l₁ l₁' ∧ l₁.index.survivingOrder = l.index.survivingOrder := by
  have hcalls := h.map_row TurnState.unsettled (fun _ => rfl) hturn
  rw [EntryLog.synthesizeClose] at heq heq'
  rw [hcalls] at heq'
  generalize ((l.index.turns turn).map TurnState.unsettled).getD [] = calls at heq heq'
  simp only at heq heq'
  rcases hall : l.appendAll c ticks (calls.map (abortedResult turn)) with ⟨m, err | ⟨⟩⟩
  · simp only [hall] at heq
    cases heq
  rcases hall' : l'.appendAll c ticks (calls.map (abortedResult turn)) with ⟨m', err | ⟨⟩⟩
  · simp only [hall'] at heq'
    cases heq'
  have hresults : ∀ e ∈ calls.map (abortedResult turn),
      e.turn ∈ l.index.survivingOrder ∧ e.kind ≠ .turnOpen ∧ e.kind ≠ .turnRevert := by
    intro e he
    obtain ⟨call, -, rfl⟩ := List.mem_map.mp he
    exact ⟨hturn, by simp, by simp⟩
  obtain ⟨hbeside, hsurvive⟩ := h.appendAll hresults hall hall'
  have hturn' : turn ∈ m.index.survivingOrder := hsurvive ▸ hturn
  have helapsed := hbeside.map_row (fun st => st.lastTs - st.openTs) (fun _ => rfl) hturn'
  simp only [hall] at heq
  simp only [hall', helapsed] at heq'
  generalize ((m.index.turns turn).map (fun st => st.lastTs - st.openTs)).getD 0 = elapsed
    at heq heq'
  rcases hclose : m.append c (ticks calls.length) (unterminatedClose turn model elapsed) with
    ⟨m₁, err | stamped⟩
  · simp only [hclose] at heq
    cases heq
  rcases hclose' : m'.append c (ticks calls.length) (unterminatedClose turn model elapsed) with
    ⟨m₁', err | stamped'⟩
  · simp only [hclose'] at heq'
    cases heq'
  simp only [hclose] at heq
  simp only [hclose'] at heq'
  cases heq
  cases heq'
  have hadds := hbeside.sound.append_adds (by simp) (by simp) hclose
  exact ⟨hbeside.append hturn' (by simp) (by simp) hclose hclose', hadds.2.2.1.trans hsurvive⟩

theorem Beside.closeUnterminated (h : Beside c l l') {ticks : ℕ → ℕ → Tick} {model : String}
    {turns : List String} (hturns : ∀ t ∈ turns, t ∈ l.index.survivingOrder)
    (heq : l.closeUnterminated c ticks model turns = (l₁, .ok ()))
    (heq' : l'.closeUnterminated c ticks model turns = (l₁', .ok ())) : Beside c l₁ l₁' := by
  induction turns generalizing l l' ticks with
  | nil =>
    cases heq
    cases heq'
    exact h
  | cons turn turns ih =>
    rw [EntryLog.closeUnterminated] at heq heq'
    rcases hone : l.synthesizeClose c (ticks 0) turn model with ⟨m, err | ⟨⟩⟩
    · simp only [hone] at heq
      cases heq
    rcases hone' : l'.synthesizeClose c (ticks 0) turn model with ⟨m', err | ⟨⟩⟩
    · simp only [hone'] at heq'
      cases heq'
    simp only [hone] at heq
    simp only [hone'] at heq'
    obtain ⟨hbeside, hsurvive⟩ := h.synthesizeClose (hturns turn (by simp)) hone hone'
    exact ih hbeside (fun t ht => hsurvive ▸ hturns t (List.mem_cons_of_mem _ ht)) heq heq'

end EntryLog

end Marotte
