import Marotte.EntryLog.Log

/-! # One append, and the flags it leaves

What an append can do is said once, in `append_cases`. On a log whose index is a live view
of the fold of its file, it leaves such a view again, under flags that follow its line.
-/
namespace Marotte
namespace EntryLog

variable {c : LineCodec}

@[simp] theorem stamp_turn (l : EntryLog) (t : Tick) (e : Entry) : (l.stamp t e).turn = e.turn := rfl

@[simp] theorem stamp_lane (l : EntryLog) (t : Tick) (e : Entry) : (l.stamp t e).lane = e.lane := rfl

@[simp] theorem stamp_payload (l : EntryLog) (t : Tick) (e : Entry) :
    (l.stamp t e).payload = persistBoundPayload e.payload := rfl

@[simp] theorem stamp_kind (l : EntryLog) (t : Tick) (e : Entry) : (l.stamp t e).kind = e.kind :=
  persistBoundPayload_kind e.payload

/-- What a refused append leaves: the log as it was, or a latched one with some bytes of a line
that would have gone through. -/
def Refused (c : LineCodec) (l : EntryLog) (t : Tick) (e : Entry) (l' : EntryLog) : Prop :=
  l' = l ∨ l.failed = false ∧ (c.marshal (l.stamp t e)).length + 1 ≤ maxEntryLineBytes ∧
    (l.index.turns e.turn ≠ none ∨ e.kind = .turnOpen) ∧
    ∃ written, l' =
      { l with
        file := l.file ++ (c.marshal (l.stamp t e) ++ [newline]).take written
        failed := true }

/-- The conditions under which an append goes through. -/
structure Admits (c : LineCodec) (l : EntryLog) (t : Tick) (e : Entry) : Prop where
  present : l.removed = false
  running : l.failed = false
  alive : t.cancelled = false
  fits : (c.marshal (l.stamp t e)).length + 1 ≤ maxEntryLineBytes
  room : l.cap = 0 ∨ l.index.size + ((c.marshal (l.stamp t e)).length + 1) ≤ l.cap
  written : t.write = .done

end EntryLog

/-- A line folds unless it names a turn the index does not hold. -/
theorem Index.observeLine_eq_none {b : Index} {e : Entry} {len : ℕ} :
    b.observeLine e len = none ↔ b.turns e.turn = none ∧ e.kind ≠ .turnOpen := by
  unfold Index.observeLine
  rw [Option.map_eq_none_iff]
  by_cases ho : e.kind = .turnOpen
  · cases hp : e.payload <;> simp only [Entry.kind, hp, Payload.kind, reduceCtorEq] at ho
    simp [Index.observe_turnOpen hp, Entry.kind, hp, Payload.kind]
  · simp [Index.observe_of_ne_turnOpen ho, ho]

namespace EntryLog

theorem checkBounds_eq_none {l : EntryLog} {bytes : ℕ} : l.checkBounds bytes = none ↔
    bytes ≤ maxEntryLineBytes ∧ (l.cap = 0 ∨ l.index.size + bytes ≤ l.cap) := by
  unfold checkBounds
  split
  · simp only [reduceCtorEq, false_iff]
    omega
  split
  · simp only [true_iff]
    omega
  split
  · simp only [reduceCtorEq, false_iff]
    omega
  · simp only [true_iff]
    omega

/-- Every append either goes through with the line it stamped, or is refused. -/
theorem append_cases (l : EntryLog) (t : Tick) (e : Entry) :
    (∃ idx, l.Admits c t e ∧
      l.index.observeLine (l.stamp t e) ((c.marshal (l.stamp t e)).length + 1) = some idx ∧
      l.append c t e =
        ({ l with
            file := l.file ++ (c.marshal (l.stamp t e) ++ [newline])
            index := idx.applyReverts }, .ok (l.stamp t e))) ∨
    ∃ l' err, l.append c t e = (l', .error err) ∧ l.Refused c t e l' := by
  unfold append
  by_cases hr : l.removed
  · exact .inr ⟨l, .tombstoned, if_pos hr, .inl rfl⟩
  rw [if_neg hr]
  by_cases hf : l.failed
  · exact .inr ⟨l, .entryLogFailed, if_pos hf, .inl rfl⟩
  rw [if_neg hf]
  by_cases hc : t.cancelled
  · exact .inr ⟨l, .cancelled, if_pos hc, .inl rfl⟩
  rw [if_neg hc]
  by_cases hheld : l.index.turns e.turn = none ∧ e.kind ≠ .turnOpen
  · exact .inr ⟨l, _, if_pos hheld, .inl rfl⟩
  rw [if_neg hheld]
  cases hb : l.checkBounds (c.marshal (l.stamp t e) ++ [newline]).length with
  | some err => exact .inr ⟨l, err, by simp only [hb], .inl rfl⟩
  | none =>
    obtain ⟨hmax, hcap⟩ := checkBounds_eq_none.mp hb
    rw [List.length_append, List.length_singleton] at hmax hcap
    have hturn : l.index.turns e.turn ≠ none ∨ e.kind = .turnOpen := by
      by_contra hno
      exact hheld (by simpa using hno)
    cases hw : t.write with
    | failed written =>
      exact .inr ⟨_, .entryLogFailed, by simp only [hb],
        .inr ⟨by simpa using hf, hmax, hturn, written, rfl⟩⟩
    | done =>
      cases hobs : l.index.observeLine (l.stamp t e)
          (c.marshal (l.stamp t e) ++ [newline]).length with
      | none => exact absurd (by simpa using Index.observeLine_eq_none.mp hobs) hheld
      | some idx =>
        exact .inl ⟨idx, ⟨by simpa using hr, by simpa using hf, by simpa using hc, hmax, hcap, hw⟩,
          by simpa using hobs, by simp only [hb, hobs]⟩

end EntryLog

namespace Index

@[simp] theorem applyReverts_live (b : Index) (r : String → Bool) :
    (b.live r).applyReverts = b.live r := applyReverts_of_nil rfl

/-- The flags after one line, written as an append writes them. -/
def flagsAfter (b : Index) (r : String → Bool) (e : Entry) : String → Bool :=
  match e.payload with
  | .turnOpen _ => Function.update r e.turn false
  | .turnRevert p => fun id => r id || RevertWindow.takes ⟨e.turn, p.fromTurn, p.through⟩ b.order id
  | _ => r

theorem flagsAfter_of_ne {e : Entry} (ho : e.kind ≠ .turnOpen) (hr : e.kind ≠ .turnRevert)
    (b : Index) (r : String → Bool) : b.flagsAfter r e = r := by
  cases hp : e.payload <;> simp [Entry.kind, hp, Payload.kind] at ho hr <;> simp [flagsAfter, hp]

theorem applyReverts_setSize (b : Index) (size : ℕ) :
    ({ b with size := size } : Index).applyReverts = { b.applyReverts with size := size } := by
  rw [applyReverts_eq_marked, applyReverts_eq_marked]
  rfl

/-- What an append leaves in the index, from the fold alone. -/
theorem observeLine_live (b : Index) (r : String → Bool) (e : Entry) (len : ℕ) :
    ((b.live r).observeLine e len).map applyReverts =
      (b.observeLine e len).map (·.live (b.flagsAfter r e)) := by
  have hobs : ((b.live r).observe e b.size (b.size + len)).map applyReverts =
      (b.observe e b.size (b.size + len)).map (·.live (b.flagsAfter r e)) := by
    by_cases ho : e.kind = .turnOpen
    · rw [observe_live_turnOpen ho]
      obtain ⟨p, hp⟩ := Entry.kind_eq_turnOpen.mp ho
      cases b.observe e b.size (b.size + len) with
      | none => rfl
      | some i => simp [flagsAfter, hp]
    · by_cases hr : e.kind = .turnRevert
      · obtain ⟨p, hp⟩ := Entry.kind_eq_turnRevert.mp hr
        rw [observe_live_turnRevert hp]
        simp [flagsAfter, hp]
      · rw [observe_live ho hr]
        rw [flagsAfter_of_ne ho hr]
        cases b.observe e b.size (b.size + len) with
        | none => rfl
        | some i => simp
  unfold observeLine
  rw [live_size, Option.map_map, Option.map_map]
  have h := congrArg (Option.map (fun i : Index => { i with size := b.size + len })) hobs
  simp only [Option.map_map] at h
  refine Eq.trans ?_ (h.trans ?_)
  · congr 1
    funext i
    exact applyReverts_setSize i _
  · rfl

theorem observeLine_iff_observe {b b' : Index} {e : Entry} {len : ℕ} :
    b.observeLine e len = some b' ↔
      ∃ i, b.observe e b.size (b.size + len) = some i ∧ { i with size := b.size + len } = b' := by
  rw [observeLine, Option.map_eq_some_iff]

/-- A line that opens no turn leaves the flags the record gives, unless it completes a carrier. -/
theorem flagsAfter_hidden {b b' : Index} {e : Entry} {len : ℕ} (ho : e.kind ≠ .turnOpen)
    (hr : e.kind = .turnRevert → b.incomplete e.turn = false)
    (h : b.observeLine e len = some b') : b.flagsAfter b.hidden e = b'.hidden := by
  obtain ⟨i, hi, rfl⟩ := observeLine_iff_observe.mp h
  change _ = i.hidden
  by_cases hk : e.kind = .turnRevert
  · obtain ⟨p, hp⟩ := Entry.kind_eq_turnRevert.mp hk
    funext id
    rw [hidden_observe_turnRevert hp hi]
    by_cases hid : id = e.turn
    · simp [flagsAfter, hp, hid, hidden, hr hk, RevertWindow.takes]
    · simp [flagsAfter, hp, hid]
  · rw [hidden_observe ho hk hi]
    cases hp : e.payload <;> simp [Entry.kind, hp, Payload.kind] at ho hk <;> simp [flagsAfter, hp]

/-- A record completes the carrier whose flag was kept down for it. -/
theorem flagsAfter_carrier {b b' : Index} {e : Entry} {len : ℕ} (hr : e.kind = .turnRevert)
    (hfree : b.taken e.turn = false) (h : b.observeLine e len = some b') :
    b.flagsAfter (Function.update b.hidden e.turn false) e = b'.hidden := by
  obtain ⟨i, hi, rfl⟩ := observeLine_iff_observe.mp h
  change _ = i.hidden
  obtain ⟨p, hp⟩ := Entry.kind_eq_turnRevert.mp hr
  funext id
  rw [hidden_observe_turnRevert hp hi]
  by_cases hid : id = e.turn
  · simp [flagsAfter, hp, hid, hfree, RevertWindow.takes]
  · simp [flagsAfter, hp, hid]

/-- An opened turn's flag is the one its source gives it, and no window takes it. -/
theorem hidden_turnOpen {b b' : Index} {e : Entry} {p : EntryTurnOpen} {len : ℕ}
    (he : e.payload = .turnOpen p) (hf : b.Opens e.turn) (h : b.observeLine e len = some b') :
    b'.hidden = Function.update b.hidden e.turn (p.source == .revert) ∧
      b'.taken e.turn = false := by
  obtain ⟨i, hi, rfl⟩ := observeLine_iff_observe.mp h
  have ht := taken_observe_turnOpen (Entry.kind_of_payload he) hf hi
  have hh := hidden_observe_turnOpen he hf hi
  exact ⟨hh, (congrFun ht e.turn).trans hf.untaken⟩

theorem observeLine_order_turnOpen {b b' : Index} {e : Entry} {len : ℕ} (ho : e.kind = .turnOpen)
    (h : b.observeLine e len = some b') : b'.order = b.order ++ [e.turn] := by
  obtain ⟨i, hi, rfl⟩ := observeLine_iff_observe.mp h
  simpa [ho] using observe_order hi

theorem observeLine_order {b b' : Index} {e : Entry} {len : ℕ} (ho : e.kind ≠ .turnOpen)
    (h : b.observeLine e len = some b') : b'.order = b.order := by
  obtain ⟨i, hi, rfl⟩ := observeLine_iff_observe.mp h
  simpa [ho] using observe_order hi

/-- Only a turn_open sets a turn's n. -/
theorem ordinal_observeLine {b b' : Index} {e : Entry} {len : ℕ} (ho : e.kind ≠ .turnOpen)
    (h : b.observeLine e len = some b') : b'.ordinal = b.ordinal := by
  obtain ⟨i, hi, rfl⟩ := observeLine_iff_observe.mp h
  funext id
  change i.ordinal id = b.ordinal id
  rw [ordinal, ordinal, observe_turns_of_ne_turnOpen ho hi]
  by_cases hid : id = e.turn
  · cases b.turns id <;> simp [hid, TurnState.fold_n, TurnState.extend]
  · simp [hid]

theorem ordinal_turnOpen {b b' : Index} {e : Entry} {p : EntryTurnOpen} {len : ℕ}
    (he : e.payload = .turnOpen p) (h : b.observeLine e len = some b') :
    b'.ordinal = Function.update b.ordinal e.turn p.n := by
  obtain ⟨i, hi, rfl⟩ := observeLine_iff_observe.mp h
  funext id
  change i.ordinal id = _
  rw [ordinal, observe_turns hi]
  by_cases hid : id = e.turn
  · simp [hid, he, newTurnState]
  · simp [hid, ordinal]

theorem Folded.survivingOrder_live {b : Index} (hb : b.Folded) (r : String → Bool) :
    (b.live r).survivingOrder = b.order.filter (fun id => !r id) := by
  rw [survivingOrder, live_order]
  refine List.filter_congr (fun id hid => ?_)
  obtain ⟨st, hst⟩ := Option.isSome_iff_exists.mp ((hb.mem_order id).mp hid)
  simp [live_turns, hst]

theorem hidden_observeLine {b b' : Index} {e : Entry} {len : ℕ} (ho : e.kind ≠ .turnOpen)
    (hr : e.kind ≠ .turnRevert) (h : b.observeLine e len = some b') :
    b'.hidden = b.hidden ∧ b'.taken = b.taken := by
  obtain ⟨i, hi, rfl⟩ := observeLine_iff_observe.mp h
  have hh := hidden_observe ho hr hi
  have ht := taken_observe ho hr hi
  exact ⟨hh, ht⟩

end Index

namespace EntryLog

variable {c : LineCodec}

/-- The log's index is the live view, under the flags given, of the fold of its file; a latch
is all that lets the file hold more. -/
structure CoherentUnder (c : LineCodec) (l : EntryLog) (b : Index) (r : String → Bool) : Prop where
  intact : c.Intact (l.file.take b.size) b
  index_eq : l.index = b.live r
  whole : l.failed = false → b.size = l.file.length

theorem CoherentUnder.refused {l l' : EntryLog} {b : Index} {r : String → Bool} {t : Tick}
    {e : Entry} (h : CoherentUnder c l b r) (hl : l.Refused c t e l') :
    CoherentUnder c l' b r := by
  rcases hl with rfl | ⟨hf, -, -, written, rfl⟩
  · exact h
  · refine ⟨?_, h.index_eq, by simp⟩
    simpa [List.take_append_of_le_length (Nat.le_of_eq (h.whole hf))] using h.intact

/-- An append that went through: the fold took its line, and the flags follow. -/
theorem CoherentUnder.append_ok {l : EntryLog} {b idx : Index} {r : String → Bool} {t : Tick}
    {e : Entry} (h : CoherentUnder c l b r) (ha : l.Admits c t e)
    (hobs : l.index.observeLine (l.stamp t e) ((c.marshal (l.stamp t e)).length + 1) = some idx) :
    ∃ b', b.observeLine (l.stamp t e) ((c.marshal (l.stamp t e)).length + 1) = some b' ∧
      CoherentUnder c
        { l with
          file := l.file ++ (c.marshal (l.stamp t e) ++ [newline])
          index := idx.applyReverts }
        b' (b.flagsAfter r (l.stamp t e)) := by
  have hlive := Index.observeLine_live b r (l.stamp t e) ((c.marshal (l.stamp t e)).length + 1)
  rw [← h.index_eq, hobs, Option.map_some, eq_comm, Option.map_eq_some_iff] at hlive
  obtain ⟨b', hb', hidx⟩ := hlive
  have hwhole := h.whole ha.running
  have hfile : l.file.take b.size = l.file := by rw [hwhole, List.take_length]
  have hintact := (hfile ▸ h.intact).append ha.fits hb'
  have hsize := hintact.size_eq
  refine ⟨b', hb', ⟨?_, hidx.symm, fun _ => hsize⟩⟩
  rw [hsize, List.take_length]
  exact hintact

/-- One append on a log under stated flags: refused with the fold as it was, or one line on. -/
theorem CoherentUnder.append {l : EntryLog} {b : Index} {r : String → Bool}
    (h : CoherentUnder c l b r) (t : Tick) (e : Entry) :
    (∃ l' err, l.append c t e = (l', .error err) ∧ CoherentUnder c l' b r) ∨
    ∃ l' b', l.append c t e = (l', .ok (l.stamp t e)) ∧ l.failed = false ∧
      b.observeLine (l.stamp t e) ((c.marshal (l.stamp t e)).length + 1) = some b' ∧
      CoherentUnder c l' b' (b.flagsAfter r (l.stamp t e)) := by
  rcases append_cases l t e with ⟨idx, hadm, hobs, heq⟩ | ⟨l', err, heq, href⟩
  · obtain ⟨b', hb', hl'⟩ := h.append_ok hadm hobs
    exact .inr ⟨_, b', heq, hadm.running, hb', hl'⟩
  · exact .inl ⟨l', err, heq, h.refused href⟩

theorem CoherentUnder.scanFile_eq {l : EntryLog} {b : Index} {r : String → Bool}
    (h : CoherentUnder c l b r) (hf : l.failed = false) : c.scanFile l.file = b := by
  have hi := h.intact
  rw [h.whole hf, List.take_length] at hi
  exact hi.scanFile_eq

/-- An open that goes through adds one turn with its flag down; the record hides it only as a
carrier. -/
theorem CoherentUnder.openTurn {l : EntryLog} {b : Index} {r : String → Bool} {mint : String}
    (h : CoherentUnder c l b r) (hf : l.failed = false → b.Fresh ("t-" ++ mint)) (t : Tick)
    (spec : TurnSpec) (ordinal : ℕ) :
    (∃ l' err, l.openTurnWithOrdinal c t mint spec ordinal = (l', .error err) ∧
      CoherentUnder c l' b r) ∨
    ∃ l' b' opened, l.openTurnWithOrdinal c t mint spec ordinal = (l', .ok opened) ∧
      opened = l.stamp t (turnOpenEntry mint spec ordinal) ∧ b.Fresh ("t-" ++ mint) ∧
      b.observeLine opened ((c.marshal opened).length + 1) = some b' ∧
      b'.hidden = Function.update b.hidden ("t-" ++ mint) (spec.source == .revert) ∧
      CoherentUnder c l' b' (Function.update r ("t-" ++ mint) false) := by
  rcases h.append t (turnOpenEntry mint spec ordinal) with
    ⟨l', err, heq, hl'⟩ | ⟨l', b', heq, hfail, hobs, hl'⟩
  · exact .inl ⟨l', err, heq, hl'⟩
  · have hh := (Index.hidden_turnOpen (by rfl) (hf hfail).opens hobs).1
    exact .inr ⟨l', b', _, heq, rfl, hf hfail, hobs, hh, hl'⟩

theorem CoherentUnder.reverted_eq {l : EntryLog} {b : Index} {r : String → Bool} {id : String}
    (h : CoherentUnder c l b r) (hm : id ∈ l.index.order) :
    ((l.index.turns id).map TurnState.reverted).getD false = r id := by
  rw [h.index_eq, Index.live_order, h.intact.folded.mem_order, Option.isSome_iff_exists] at hm
  obtain ⟨st, hst⟩ := hm
  simp [h.index_eq, Index.live_turns, hst]

/-- The newest survivor is a turn of the log that its flag does not hide. -/
theorem CoherentUnder.newestSurviving {l : EntryLog} {b : Index} {r : String → Bool}
    {excluding : List String} {turn : String} (h : CoherentUnder c l b r)
    (hs : l.index.newestSurviving excluding = some turn) :
    turn ∈ b.order ∧ turn ∉ excluding ∧ r turn = false := by
  have hmem : turn ∈ l.index.order := by simpa using List.mem_of_find?_eq_some hs
  have hrev := List.find?_some hs
  simp only [Bool.not_eq_true', Bool.or_eq_false_iff, List.contains_eq_mem,
    decide_eq_false_iff_not] at hrev
  refine ⟨by simpa [h.index_eq] using hmem, hrev.1, ?_⟩
  rw [← h.reverted_eq hmem]
  exact hrev.2

/-- With no newest survivor every turn is hidden or among those left out. -/
theorem CoherentUnder.newestSurviving_none {l : EntryLog} {b : Index} {r : String → Bool}
    {excluding : List String} (h : CoherentUnder c l b r)
    (hs : l.index.newestSurviving excluding = none) {id : String} (hm : id ∈ b.order) :
    r id = true ∨ id ∈ excluding := by
  have hmem : id ∈ l.index.order := by simpa [h.index_eq] using hm
  have hrev := List.find?_eq_none.mp hs id (by simpa using hmem)
  rw [h.reverted_eq hmem] at hrev
  by_cases hx : id ∈ excluding
  · exact .inr hx
  · exact .inl (by simpa [hx] using hrev)

end EntryLog

end Marotte
