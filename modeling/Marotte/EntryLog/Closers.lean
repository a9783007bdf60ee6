import Marotte.EntryLog.Files

/-! # The closers an open writes

A turn left open gets an aborted result for each unsettled call, in the call's own lane, and
then a turn_close. Nothing of what the log held moves.
-/
namespace Marotte

namespace History

/-- The calls of a turn's own entries that none of its results answers. -/
def unsettled (own : List Entry) : List EntryCall :=
  ((own.filter (fun e => e.kind = .toolCall)).map call).filter
    (fun call => !own.any (fun e => e.kind = .toolResult && e.id = toolResultID call.id))

theorem RowOf.unsettled {own : List Entry} {st : TurnState} (h : RowOf own st) :
    st.unsettled = History.unsettled own := by
  rw [TurnState.unsettled, History.unsettled, h.calls]
  apply List.filter_congr
  intro call _
  by_cases hr : toolResultID call.id ∈ st.results
  · simpa [hr] using (h.results _).mp hr
  · have hno : ¬∃ e ∈ own, e.kind = .toolResult ∧ e.id = toolResultID call.id :=
      fun hex => hr ((h.results _).mpr hex)
    simpa [hr] using hno

end History

open History

/-- An entry without what the append path stamps on it. -/
def Entry.unstamped (e : Entry) : Entry := { e with seq := 0, ts := 0 }

@[simp] theorem Entry.unstamped_turn (e : Entry) : e.unstamped.turn = e.turn := rfl

@[simp] theorem Entry.unstamped_kind (e : Entry) : e.unstamped.kind = e.kind := rfl

/-- What an open writes for one turn: a result per unsettled call, in the call's own lane, and
then the closer. -/
def ClosedBy (turn model : String) (calls : List EntryCall) (es : List Entry) : Prop :=
  ∃ elapsed, es.map Entry.unstamped =
    calls.map (abortedResult turn) ++ [unterminatedClose turn model elapsed]

theorem ClosedBy.mem {turn model : String} {calls : List EntryCall} {es : List Entry}
    (h : ClosedBy turn model calls es) {e : Entry} (he : e ∈ es) :
    e.turn = turn ∧ (e.kind = .toolResult ∨ e.kind = .turnClose) := by
  obtain ⟨elapsed, hes⟩ := h
  have hm : e.unstamped ∈ es.map Entry.unstamped := List.mem_map_of_mem he
  rw [hes, List.mem_append, List.mem_map, List.mem_singleton] at hm
  rw [← Entry.unstamped_turn, ← Entry.unstamped_kind]
  rcases hm with ⟨call, -, heq⟩ | heq
  · rw [← heq]
    exact ⟨rfl, .inl rfl⟩
  · rw [heq]
    exact ⟨rfl, .inr rfl⟩

theorem ClosedBy.own_of_ne {turn model t : String} {calls : List EntryCall} {es : List Entry}
    (h : ClosedBy turn model calls es) (ht : t ≠ turn) : own es t = [] := by
  rw [own, List.filter_eq_nil_iff]
  intro e he
  simpa [(h.mem he).1] using ht.symm

theorem ClosedBy.own_self {turn model : String} {calls : List EntryCall} {es : List Entry}
    (h : ClosedBy turn model calls es) : own es turn = es := by
  rw [own, List.filter_eq_self]
  intro e he
  simpa using (h.mem he).1

/-- The last of them closes the turn with the placeholder reason. -/
theorem ClosedBy.closer {turn model : String} {calls : List EntryCall} {es : List Entry}
    (h : ClosedBy turn model calls es) :
    ∃ results closer, es = results ++ [closer] ∧ closer.kind = .turnClose ∧
      isUnterminated closer = true := by
  obtain ⟨elapsed, hes⟩ := h
  obtain ⟨results, closers, rfl, -, hclosers⟩ := List.map_eq_append_iff.mp hes
  obtain ⟨closer, rfl, heq⟩ := List.map_eq_singleton_iff.mp hclosers
  have hp : closer.payload = (unterminatedClose turn model elapsed).payload := by rw [← heq]; rfl
  refine ⟨results, closer, rfl, ?_, ?_⟩
  · rw [Entry.kind, hp]
    rfl
  · rw [isUnterminated, hp]
    simp [unterminatedClose]

namespace EntryLog

variable {c : LineCodec}

/-- The append path stamps what an open writes and changes nothing else of it. -/
theorem stamp_unstamped (l : EntryLog) (t : Tick) {e : Entry} (hid : e.id ≠ "")
    (hp : persistBoundPayload e.payload = e.payload) :
    (l.stamp t e).unstamped = e.unstamped := by
  simp [stamp, Entry.unstamped, persistBoundEntry, hid, hp]

/-- A running log reached from another by appends of closers alone. -/
structure Extends (c : LineCodec) (l₀ : EntryLog) (r : String → Bool) (l : EntryLog)
    (added : List Entry) : Prop where
  coherent : ∃ b, CoherentUnder c l b r
  recorded : l.recorded c = l₀.recorded c ++ added
  eq : l = { l₀ with
    file := l₀.file ++ Lines.join newline (added.map c.marshal)
    index := l.index }
  kinds : ∀ e ∈ added, e.kind = .toolResult ∨ e.kind = .turnClose

theorem Extends.refl {l : EntryLog} {b : Index} {r : String → Bool} (h : CoherentUnder c l b r) :
    Extends c l r l [] where
  coherent := ⟨b, h⟩
  recorded := by simp
  eq := by simp
  kinds := by simp

theorem Extends.append {l₀ l l' : EntryLog} {r : String → Bool} {added : List Entry} {t : Tick}
    {e stamped : Entry} (h : Extends c l₀ r l added)
    (hk : e.kind = .toolResult ∨ e.kind = .turnClose)
    (heq : l.append c t e = (l', .ok stamped)) :
    stamped = l.stamp t e ∧ Extends c l₀ r l' (added ++ [stamped]) := by
  obtain ⟨b, hb⟩ := h.coherent
  obtain ⟨hs, -, hl', hrec, b', -, hb'⟩ := hb.append_eq_ok heq
  have hkind : stamped.kind = e.kind := by rw [hs, stamp_kind]
  have hflags : b.flagsAfter r stamped = r := by
    apply Index.flagsAfter_of_ne <;> rw [hkind] <;> rcases hk with hk | hk <;> simp [hk]
  refine ⟨hs, ⟨b', hflags ▸ hb'⟩, ?_, ?_, ?_⟩
  · rw [hrec, h.recorded, List.append_assoc]
  · rw [hl', h.eq]
    simp
  · intro f hf
    rcases List.mem_append.mp hf with hm | hm
    · exact h.kinds f hm
    · rwa [List.mem_singleton.mp hm, hkind]

theorem Extends.appendAll {l₀ l l' : EntryLog} {r : String → Bool} {added es : List Entry}
    {ticks : ℕ → Tick} (h : Extends c l₀ r l added)
    (hes : ∀ e ∈ es, e.kind = .toolResult ∧ e.id ≠ "" ∧ e.unstamped = e ∧
      persistBoundPayload e.payload = e.payload)
    (heq : l.appendAll c ticks es = (l', .ok ())) :
    ∃ more, more.map Entry.unstamped = es ∧ Extends c l₀ r l' (added ++ more) := by
  induction es generalizing l added ticks with
  | nil =>
    cases heq
    exact ⟨[], rfl, by simpa using h⟩
  | cons e es ih =>
    unfold EntryLog.appendAll at heq
    split at heq
    · cases heq
    · rename_i l₁ stamped hone
      obtain ⟨hk, hid, hun, hp⟩ := hes e (by simp)
      obtain ⟨hs, h₁⟩ := h.append (.inl hk) hone
      obtain ⟨more, hmore, h'⟩ := ih h₁ (fun e he => hes e (List.mem_cons_of_mem _ he)) heq
      refine ⟨stamped :: more, ?_, ?_⟩
      · rw [List.map_cons, hmore, hs, stamp_unstamped l _ hid hp, hun]
      · simpa using h'

theorem Extends.synthesizeClose {l₀ l l' : EntryLog} {r : String → Bool} {added : List Entry}
    {ticks : ℕ → Tick} {turn model : String} {st : TurnState} (h : Extends c l₀ r l added)
    (hst : l.index.turns turn = some st)
    (heq : l.synthesizeClose c ticks turn model = (l', .ok ())) :
    ∃ more, ClosedBy turn model st.unsettled more ∧ Extends c l₀ r l' (added ++ more) := by
  unfold EntryLog.synthesizeClose at heq
  simp only [hst, Option.map_some, Option.getD_some] at heq
  have hes : ∀ e ∈ st.unsettled.map (abortedResult turn), e.kind = .toolResult ∧ e.id ≠ "" ∧
      e.unstamped = e ∧ persistBoundPayload e.payload = e.payload := by
    intro e he
    obtain ⟨call, -, rfl⟩ := List.mem_map.mp he
    exact ⟨rfl, by simp [abortedResult, toolResultID], rfl, rfl⟩
  split at heq
  · cases heq
  · rename_i l₁ hres
    obtain ⟨results, hresults, h₁⟩ := h.appendAll hes hres
    generalize ((l₁.index.turns turn).map (fun st => st.lastTs - st.openTs)).getD 0 = elapsed at heq
    split at heq
    · cases heq
    · rename_i l₂ closer hclose
      obtain ⟨hs, h₂⟩ := h₁.append (.inr rfl) hclose
      cases heq
      refine ⟨results ++ [closer], ⟨elapsed, ?_⟩, by simpa using h₂⟩
      rw [List.map_append, hresults, List.map_singleton, hs,
        stamp_unstamped _ _ (by simp [unterminatedClose]) rfl]
      rfl

theorem Extends.opened_eq {l₀ l : EntryLog} {r : String → Bool} {added : List Entry}
    (h : Extends c l₀ r l added) : opened (l.recorded c) = opened (l₀.recorded c) := by
  have hnil : opened added = [] := by
    rw [opened, List.filterMap_eq_nil_iff]
    intro e he
    rcases h.kinds e he with hk | hk <;> simp [hk]
  rw [h.recorded, opened_append, hnil, List.append_nil]

/-- A turn nothing was added to still has the row its entries gave it. -/
theorem Extends.row {l₀ l : EntryLog} {r : String → Bool} {added : List Entry} {turn : String}
    (h : Extends c l₀ r l added) (hwf : WellFormed (l₀.recorded c))
    (hturn : turn ∈ opened (l₀.recorded c)) :
    ∃ st, l.index.turns turn = some st ∧ st.reverted = r turn ∧
      RowOf (own (l₀.recorded c) turn ++ own added turn) st := by
  obtain ⟨b, hb⟩ := h.coherent
  obtain ⟨hfollows, hrows⟩ := hb.recorded
  have hmem : turn ∈ b.order := by rw [hfollows.order, h.opened_eq]; exact hturn
  obtain ⟨st, hst⟩ := Option.isSome_iff_exists.mp ((hb.intact.folded.mem_order turn).mp hmem)
  have hrow := hrows (h.opened_eq ▸ hwf.opensOnce) turn st hst
  rw [h.recorded, own_append] at hrow
  refine ⟨st.setReverted (r turn), ?_, rfl, ?_⟩
  · rw [hb.index_eq, Index.live_turns, hst]
    rfl
  · exact ⟨hrow.opening, hrow.hasRevert, hrow.closed, hrow.calls, hrow.results,
      hrow.unterminated, hrow.emptySteer⟩

/-- The closers of a list of turns: each turn's own, and nothing for any other turn. -/
theorem Extends.closeUnterminated {l₀ l l' : EntryLog} {r : String → Bool} {added : List Entry}
    {ticks : ℕ → ℕ → Tick} {model : String} {turns : List String}
    (h : Extends c l₀ r l added) (hwf : WellFormed (l₀.recorded c)) (hnodup : turns.Nodup)
    (hturns : ∀ turn ∈ turns, turn ∈ opened (l₀.recorded c) ∧ own added turn = [])
    (heq : l.closeUnterminated c ticks model turns = (l', .ok ())) :
    ∃ more, Extends c l₀ r l' (added ++ more) ∧
      (∀ turn ∈ turns, ClosedBy turn model (unsettled (own (l₀.recorded c) turn)) (own more turn)) ∧
      ∀ turn, turn ∉ turns → own more turn = [] := by
  induction turns generalizing l added ticks with
  | nil =>
    cases heq
    exact ⟨[], by simpa using h, by simp, by simp [own]⟩
  | cons turn turns ih =>
    obtain ⟨hfresh, hnodup⟩ := List.nodup_cons.mp hnodup
    obtain ⟨hopened, hown⟩ := hturns turn (by simp)
    obtain ⟨st, hst, -, hrow⟩ := h.row hwf hopened
    rw [hown, List.append_nil] at hrow
    unfold EntryLog.closeUnterminated at heq
    split at heq
    · cases heq
    · rename_i l₁ hone
      obtain ⟨first, hfirst, h₁⟩ := h.synthesizeClose hst hone
      have hrest : ∀ t ∈ turns, t ∈ opened (l₀.recorded c) ∧ own (added ++ first) t = [] := by
        intro t ht
        have hne : t ≠ turn := fun heq => hfresh (heq ▸ ht)
        obtain ⟨ho, hnil⟩ := hturns t (List.mem_cons_of_mem _ ht)
        rw [own_append, hnil, hfirst.own_of_ne hne]
        exact ⟨ho, rfl⟩
      obtain ⟨more, h', hclosed, hothers⟩ := ih h₁ hnodup hrest heq
      refine ⟨first ++ more, by simpa using h', ?_, ?_⟩
      · intro t ht
        rw [own_append]
        rcases List.mem_cons.mp ht with rfl | ht
        · rw [hothers t hfresh, hfirst.own_self, List.append_nil, ← hrow.unsettled]
          exact hfirst
        · have hne : t ≠ turn := fun heq => hfresh (heq ▸ ht)
          rw [hfirst.own_of_ne hne, List.nil_append]
          exact hclosed t ht
      · intro t ht
        obtain ⟨hne, hnot⟩ : t ≠ turn ∧ t ∉ turns := by simpa using ht
        rw [own_append, hfirst.own_of_ne hne, hothers t hnot]
        rfl

theorem Extends.survivingOrder {l₀ l : EntryLog} {r : String → Bool} {added : List Entry}
    (h : Extends c l₀ r l added) :
    l.index.survivingOrder = (opened (l₀.recorded c)).filter (fun turn => !r turn) := by
  obtain ⟨b, hb⟩ := h.coherent
  rw [hb.index_eq, hb.intact.folded.survivingOrder_live, hb.recorded.1.order, h.opened_eq]

theorem holds_eq_any_own (es : List Entry) (turn : String) (k : EntryKind) :
    holds es turn k = (own es turn).any (fun e => e.kind = k) := by
  rw [holds, own, List.any_filter]

theorem mem_openTurns {idx : Index} {turn : String} {st : TurnState}
    (hst : idx.turns turn = some st) :
    turn ∈ idx.openTurns ↔ turn ∈ idx.survivingOrder ∧ st.closed = false := by
  rw [Index.openTurns, List.mem_filter]
  simp [hst]

end EntryLog

end Marotte
