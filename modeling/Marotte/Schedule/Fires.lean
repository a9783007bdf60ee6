import Marotte.Schedule.Sweep

/-! # Every slot once

Over any run of sweeps and edits, an anchor only moves forward, so that no slot is fired twice and
none is fired late. A slot is missed only where the local time it is scanned in is not well dated,
or where two slots of a rule are closer together than the grace.
-/
namespace Marotte.Schedule

namespace State
variable {s : State} {loc : Location} {launch : Launcher}

/-! ## The invariant of a run -/

structure Sound (s : State) : Prop where
  keyed : s.Keyed
  started : zeroTime ≤ s.clock
  anchors : ∀ id e, s.find id = some e → zeroTime ≤ e.anchor ∧ e.anchor ≤ s.clock
  valid : ∀ id e, s.find id = some e → e.spec.validate = .ok ()
  recent : ∀ f ∈ s.fires, f.due ≤ f.firedAt ∧ f.firedAt ≤ f.due + missGrace ∧ f.due ≤ s.clock
  anchored : ∀ f ∈ s.fires, ∀ e, s.find f.id = some e → f.due ≤ e.anchor
  ordered : s.fires.Pairwise fun f g => f.id = g.id → f.due < g.due

theorem sound_empty : ({} : State).Sound where
  keyed := List.nodup_nil
  started := le_refl _
  anchors := nofun
  valid := nofun
  recent := nofun
  anchored := nofun
  ordered := .nil

theorem Sound.tick (h : s.Sound) (elapsed : ℕ) :
    ({ s with clock := s.clock + elapsed } : State).Sound where
  keyed := h.keyed
  started := by
    have hstarted := h.started
    dsimp only
    omega
  anchors id e he := by
    have hanchors := h.anchors id e he
    dsimp only
    omega
  valid := h.valid
  recent f hf := by
    have hrecent := h.recent f hf
    dsimp only
    omega
  anchored := h.anchored
  ordered := h.ordered

/-- The floor of a sweep is before every anchor. -/
theorem Sound.nextRunFrom_eq (h : s.Sound) {id : String} {e : Entry} (he : s.find id = some e) :
    nextRunFrom loc e.spec e.anchor zeroTime = nextRun loc e.spec e.anchor := by
  rw [nextRunFrom, if_neg]
  have hanchors := (h.anchors id e he).1
  omega

/-- A sweep moves one schedule's anchor forward, and no further than the clock. -/
theorem Sound.swept_anchor (h : s.Sound) {id : String} {e : Entry} (he : s.find id = some e) :
    e.anchor ≤ (swept loc launch s.clock e).1.anchor ∧
      (swept loc launch s.clock e).1.anchor ≤ s.clock := by
  have hanchor := (h.anchors id e he).2
  rcases swept_cases loc launch s.clock e with ⟨heq, -⟩ | ⟨heq, -⟩ |
    ⟨due, result, hdue, -, hle, -, heq⟩
  · rw [heq]
    exact ⟨le_refl _, hanchor⟩
  · rw [heq]
    exact ⟨hanchor, le_refl _⟩
  · rw [heq]
    rw [h.nextRunFrom_eq he] at hdue
    exact ⟨(nextRun_after hdue).le, hle⟩

/-- A sweep launches a schedule for a due and recent slot after its anchor, that becomes its
anchor. -/
theorem Sound.swept_fire (h : s.Sound) {id : String} {e : Entry} (he : s.find id = some e)
    {f : Fire} (hf : (swept loc launch s.clock e).2 = some f) :
    e.enabled = true ∧ nextRun loc e.spec e.anchor = .ok f.due ∧ f.due ≤ s.clock ∧
      f.firedAt = s.clock ∧ s.clock ≤ f.due + missGrace ∧
      (swept loc launch s.clock e).1.anchor = f.due := by
  rcases swept_cases loc launch s.clock e with ⟨heq, -⟩ | ⟨heq, -⟩ |
    ⟨due, result, hdue, hon, hle, hgrace, heq⟩
  · rw [heq] at hf
    cases hf
  · rw [heq] at hf
    cases hf
  · rw [heq] at hf ⊢
    cases hf
    rw [h.nextRunFrom_eq he] at hdue
    exact ⟨hon, hdue, hle, rfl, hgrace, rfl⟩

/-- A launch of a sweep is of one stored schedule. -/
theorem Sound.mem_sweep_fires (h : s.Sound) {f : Fire} (hf : f ∈ (s.sweep loc launch).fires) :
    f ∈ s.fires ∨ ∃ e, s.find f.id = some e ∧ (swept loc launch s.clock e).2 = some f := by
  rw [(sweep_spec h.keyed).2.1] at hf
  rcases List.mem_append.mp hf with hold | hnew
  · exact .inl hold
  · right
    obtain ⟨e, he, hfire⟩ := List.mem_filterMap.mp hnew
    refine ⟨e, ?_, hfire⟩
    rw [swept_fire_id hfire, ← list_find h.keyed]
    exact Keyed.find_of_mem (((list_perm s).map _).nodup_iff.mpr h.keyed) he

theorem Sound.sweep_ordered (h : s.Sound) :
    (s.sweep loc launch).fires.Pairwise fun f g => f.id = g.id → f.due < g.due := by
  have hlist : (s.list.map Entry.id).Nodup := ((list_perm s).map _).nodup_iff.mpr h.keyed
  have hstored : ∀ e ∈ s.list, s.find e.id = some e := by
    intro e he
    rw [← list_find h.keyed]
    exact Keyed.find_of_mem hlist he
  rw [(sweep_spec h.keyed).2.1, List.pairwise_append]
  refine ⟨h.ordered, ?_, ?_⟩
  · rw [List.pairwise_filterMap]
    apply (List.pairwise_map.mp hlist).imp
    intro e e' hne f hf f' hf' hid
    rw [swept_fire_id hf, swept_fire_id hf'] at hid
    exact absurd hid hne
  · intro f hf g hg hid
    obtain ⟨e, he, hfire⟩ := List.mem_filterMap.mp hg
    have hfind := hstored e he
    have hdue := nextRun_after (h.swept_fire hfind hfire).2.1
    rw [swept_fire_id hfire] at hid
    have hanchor := h.anchored f hf e (by rw [hid]; exact hfind)
    omega

theorem Sound.sweep (h : s.Sound) : (s.sweep loc launch).Sound := by
  obtain ⟨hfind, -, hclock, hkeyed⟩ := @sweep_spec _ loc launch h.keyed
  constructor
  · exact hkeyed
  · rw [hclock]
    exact h.started
  · intro id e' he'
    rw [hfind] at he'
    obtain ⟨e, he, rfl⟩ := Option.map_eq_some_iff.mp he'
    have hanchor := @Sound.swept_anchor _ loc launch h _ _ he
    have hold := h.anchors id e he
    rw [hclock]
    omega
  · intro id e' he'
    rw [hfind] at he'
    obtain ⟨e, he, rfl⟩ := Option.map_eq_some_iff.mp he'
    rw [(swept_spec e s.clock).1]
    exact h.valid id e he
  · intro f hf
    rw [hclock]
    rcases h.mem_sweep_fires hf with hold | ⟨e, he, hfire⟩
    · exact h.recent f hold
    · obtain ⟨-, -, hle, hat, hgrace, -⟩ := h.swept_fire he hfire
      rw [hat]
      exact ⟨hle, hgrace, hle⟩
  · intro f hf e' he'
    rw [hfind] at he'
    obtain ⟨e, he, rfl⟩ := Option.map_eq_some_iff.mp he'
    rcases h.mem_sweep_fires hf with hold | ⟨e₁, he₁, hfire⟩
    · exact (h.anchored f hold e he).trans (h.swept_anchor he).1
    · rw [he] at he₁
      cases he₁
      rw [(h.swept_fire he hfire).2.2.2.2.2]
  · exact h.sweep_ordered

/-! ## Edits -/

/-- The id that an edit is stored under. -/
def putId (req : PutRequest) : String := if req.id = "" then req.source else req.id

/-- The entry that a write stores has the history and the anchor of its id, or starts one now. -/
theorem put_ok {e : Entry} {s' : State} (hzero : e.anchor = zeroTime) (h : s.put e = .ok s') :
    ∃ e' : Entry, e'.id = e.id ∧ e'.spec.validate = .ok () ∧
      e'.anchor = (match s.find e'.id with
        | some prev => if prev.anchor = zeroTime then s.clock else prev.anchor
        | none => s.clock) ∧
      s' = { s with entries := Keyed.set Entry.id s.entries e' } := by
  simp only [put] at h
  by_cases hid : e.id = ""
  · rw [if_pos hid] at h
    cases h
  · by_cases hsource : e.source = ""
    · rw [if_neg hid, if_pos hsource] at h
      cases h
    · rw [if_neg hid, if_neg hsource] at h
      cases hvalid : e.spec.validate with
      | error err =>
        rw [hvalid] at h
        cases h
      | ok u =>
        rw [hvalid] at h
        cases hprev : s.find e.id with
        | none =>
          rw [hprev] at h
          simp only [if_pos hzero] at h
          cases h
          refine ⟨{ e with anchor := s.clock }, rfl, hvalid, ?_, rfl⟩
          dsimp only
          rw [hprev]
        | some prev =>
          rw [hprev] at h
          simp only [if_pos hzero] at h
          let stored (anchor : ℤ) : Entry :=
            { e with anchor, lastRunAt := prev.lastRunAt, lastResult := prev.lastResult }
          by_cases hfirst : prev.anchor = zeroTime
          · rw [if_pos hfirst] at h
            cases h
            refine ⟨stored s.clock, rfl, hvalid, ?_, rfl⟩
            simp only [stored, hprev, if_pos hfirst]
          · rw [if_neg hfirst] at h
            cases h
            refine ⟨stored prev.anchor, rfl, hvalid, ?_, rfl⟩
            simp only [stored, hprev, if_neg hfirst]

/-- An edit is refused, or stores a valid rule under the anchor of its schedule. -/
theorem handleSchedulePut_cases (s : State) (req : PutRequest) :
    s.handleSchedulePut req = s ∨
    ∃ e : Entry, e.id = putId req ∧ e.spec.validate = .ok () ∧
      e.anchor = (match s.find e.id with
        | some prev => if prev.anchor = zeroTime then s.clock else prev.anchor
        | none => s.clock) ∧
      s.handleSchedulePut req = { s with entries := Keyed.set Entry.id s.entries e } := by
  rw [handleSchedulePut]
  split
  · next s' hput =>
    obtain ⟨e, hid, hvalid, hanchor, hs'⟩ := put_ok rfl hput
    exact .inr ⟨e, hid, hvalid, hanchor, hs'⟩
  · exact .inl rfl

theorem find_set (h : s.Keyed) (e : Entry) (k : String) :
    ({ s with entries := Keyed.set Entry.id s.entries e } : State).find k =
      if k = e.id then some e else s.find k := by
  split
  · next hk =>
    rw [hk]
    exact Keyed.find_set_self h
  · next hk => exact Keyed.find_set_of_ne hk

/-- An entry is stored that keeps the anchor of its id, or starts one now. -/
theorem Sound.set (h : s.Sound) {e : Entry} (hvalid : e.spec.validate = .ok ())
    (hanchor : e.anchor = match s.find e.id with
      | some prev => if prev.anchor = zeroTime then s.clock else prev.anchor
      | none => s.clock) :
    ({ s with entries := Keyed.set Entry.id s.entries e } : State).Sound ∧
      ∀ prev, s.find e.id = some prev → prev.anchor ≤ e.anchor := by
  have hstarted := h.started
  have hforward : ∀ prev, s.find e.id = some prev → prev.anchor ≤ e.anchor := by
    intro prev hprev
    rw [hprev] at hanchor
    dsimp only at hanchor
    split at hanchor
    · omega
    · omega
  have hbounds : zeroTime ≤ e.anchor ∧ e.anchor ≤ s.clock := by
    cases hprev : s.find e.id with
    | none =>
      rw [hprev] at hanchor
      dsimp only at hanchor
      omega
    | some prev =>
      have hold := h.anchors _ prev hprev
      rw [hprev] at hanchor
      dsimp only at hanchor
      split at hanchor
      · omega
      · omega
  refine ⟨?_, hforward⟩
  constructor
  · exact Keyed.nodup_set h.keyed
  · exact hstarted
  · intro id e' he'
    rw [find_set h.keyed] at he'
    split at he'
    · cases he'
      exact hbounds
    · exact h.anchors id e' he'
  · intro id e' he'
    rw [find_set h.keyed] at he'
    split at he'
    · cases he'
      exact hvalid
    · exact h.valid id e' he'
  · exact h.recent
  · intro f hf e' he'
    rw [find_set h.keyed] at he'
    split at he'
    · next hid =>
      cases he'
      cases hprev : s.find e.id with
      | none =>
        rw [hprev] at hanchor
        dsimp only at hanchor
        rw [hanchor]
        exact (h.recent f hf).2.2
      | some prev =>
        exact (h.anchored f hf prev (by rw [hid]; exact hprev)).trans (hforward prev hprev)
    · exact h.anchored f hf e' he'
  · exact h.ordered

theorem Sound.handleSchedulePut (h : s.Sound) (req : PutRequest) :
    (s.handleSchedulePut req).Sound := by
  rcases handleSchedulePut_cases s req with heq | ⟨e, -, hvalid, hanchor, heq⟩
  · rw [heq]
    exact h
  · rw [heq]
    exact (h.set hvalid hanchor).1

theorem Sound.delete (h : s.Sound) (id : String) : (s.delete id).Sound := by
  have hfind : ∀ k e, (s.delete id).find k = some e → s.find k = some e := by
    intro k e he
    by_cases hk : k = id
    · rw [hk] at he
      cases (Keyed.find_erase_self.symm.trans he)
    · exact (Keyed.find_erase_of_ne hk).symm.trans he
  constructor
  · exact Keyed.nodup_erase h.keyed
  · exact h.started
  · exact fun k e he => h.anchors k e (hfind k e he)
  · exact fun k e he => h.valid k e (hfind k e he)
  · exact h.recent
  · exact fun f hf e he => h.anchored f hf e (hfind f.id e he)
  · exact h.ordered

theorem recordOutcome_find (id result k : String) :
    (s.recordOutcome id result).find k =
      if k = id then (s.find id).map (fun e => { e with lastResult := result }) else s.find k := by
  rw [recordOutcome]
  apply rewrite_find
  exact fun _ => rfl

/-- What a late outcome leaves of every entry. -/
theorem recordOutcome_keeps (id result : String) {k : String} {e' : Entry}
    (h : (s.recordOutcome id result).find k = some e') :
    ∃ e, s.find k = some e ∧ e'.anchor = e.anchor ∧ e'.spec = e.spec ∧ e'.enabled = e.enabled := by
  rw [recordOutcome_find] at h
  split at h
  · next hk =>
    obtain ⟨e, he, rfl⟩ := Option.map_eq_some_iff.mp h
    exact ⟨e, by rw [hk, he], rfl, rfl, rfl⟩
  · exact ⟨e', h, rfl, rfl, rfl⟩

theorem Sound.recordOutcome (h : s.Sound) (id result : String) :
    (s.recordOutcome id result).Sound := by
  have hclock : (s.recordOutcome id result).clock = s.clock := rewrite_clock ..
  have hfires : (s.recordOutcome id result).fires = s.fires := rewrite_fires ..
  constructor
  · exact rewrite_keyed h.keyed ..
  · rw [hclock]
    exact h.started
  · intro k e' he'
    obtain ⟨e, he, hanchor, -⟩ := recordOutcome_keeps id result he'
    rw [hclock, hanchor]
    exact h.anchors k e he
  · intro k e' he'
    obtain ⟨e, he, -, hspec, -⟩ := recordOutcome_keeps id result he'
    rw [hspec]
    exact h.valid k e he
  · rw [hfires, hclock]
    exact h.recent
  · rw [hfires]
    intro f hf e' he'
    obtain ⟨e, he, hanchor, -⟩ := recordOutcome_keeps id result he'
    rw [hanchor]
    exact h.anchored f hf e he
  · rw [hfires]
    exact h.ordered

theorem Sound.act (h : s.Sound) (action : Action) : (s.act loc action).Sound := by
  cases action with
  | sweep launch => exact h.sweep
  | put req => exact h.handleSchedulePut req
  | delete id => exact h.delete id
  | recordOutcome id result => exact h.recordOutcome id result

theorem Sound.step (h : s.Sound) (ev : Event) : (step loc s ev).Sound := (h.tick ev.elapsed).act _

/-! ## The anchors only move forward -/

/-- A schedule that is stored before and after a step has no earlier anchor after it. -/
def AnchorsForward (loc : Location) (s : State) (ev : Event) : Prop :=
  ∀ id e e', s.find id = some e → (step loc s ev).find id = some e' → e.anchor ≤ e'.anchor

theorem Sound.anchorsForward (h : s.Sound) (ev : Event) : AnchorsForward loc s ev := by
  intro id e e' he he'
  have htick := h.tick ev.elapsed
  have hsame : ∀ e', s.find id = some e' → e.anchor ≤ e'.anchor := by
    intro e' he'
    rw [he] at he'
    cases he'
    exact le_refl _
  rw [State.step] at he'
  cases haction : ev.action with
  | sweep launch =>
    rw [haction] at he'
    rw [State.act, (sweep_spec htick.keyed).1] at he'
    obtain ⟨e₁, he₁, rfl⟩ := Option.map_eq_some_iff.mp he'
    have hforward := (@Sound.swept_anchor _ loc launch htick _ _ he₁).1
    exact (hsame e₁ he₁).trans hforward
  | put req =>
    rw [haction] at he'
    rw [State.act] at he'
    rcases handleSchedulePut_cases { s with clock := s.clock + ev.elapsed } req with
      heq | ⟨e₁, -, hvalid, hanchor, heq⟩
    · rw [heq] at he'
      exact hsame e' he'
    · rw [heq, find_set htick.keyed] at he'
      split at he'
      · next hid =>
        cases he'
        exact (htick.set hvalid hanchor).2 e (by rw [← hid]; exact he)
      · exact hsame e' he'
  | delete id' =>
    rw [haction] at he'
    by_cases hid : id = id'
    · rw [hid] at he'
      cases (Keyed.find_erase_self.symm.trans he')
    · exact hsame e' ((Keyed.find_erase_of_ne hid).symm.trans he')
  | recordOutcome id' result =>
    rw [haction] at he'
    obtain ⟨e₁, he₁, hanchor, -⟩ := recordOutcome_keeps id' result he'
    rw [hanchor]
    exact hsame e₁ he₁

/-! ## No slot is missed -/

/-- What a sweep of a due or early schedule relies on: the scan from its anchor to now is in well
dated local time, and no two of its slots there are closer together than the grace. -/
def Regular (loc : Location) (now : ℤ) (e : Entry) : Prop :=
  WellDated loc e.anchor now ∧ Spaced loc e.spec missGrace e.anchor now

/-- After a sweep no slot before it is still to come. Where no slot was more than the grace ago, each
one to come was fired or is still to come. -/
theorem Sound.swept_slots (h : s.Sound) {id : String} {e : Entry} (he : s.find id = some e)
    (hon : e.enabled = true) (hregular : Regular loc s.clock e) :
    (∀ t, Slot loc e.spec t → (swept loc launch s.clock e).1.anchor < t → s.clock ≤ t) ∧
    ((∀ t, Slot loc e.spec t → e.anchor < t → s.clock ≤ t + missGrace) →
      ∀ t, Slot loc e.spec t → e.anchor < t →
        (∃ f, (swept loc launch s.clock e).2 = some f ∧ f.due = t) ∨
        s.clock ≤ t ∧ (swept loc launch s.clock e).1.anchor < t) := by
  obtain ⟨hloc, hspaced⟩ := hregular
  have hvalid := h.valid id e he
  rcases swept_cases loc launch s.clock e with ⟨heq, hearly⟩ | ⟨heq, -, due, hdue, hlate⟩ |
    ⟨due, result, hdue, -, hle, hgrace, heq⟩
  · have hcome : ∀ t, Slot loc e.spec t → e.anchor < t → s.clock ≤ t := by
      intro t hslot hlater
      by_contra hpast
      obtain ⟨due, hdue, hle⟩ := hloc.nextRun_le hvalid hslot hlater (by omega)
      have hnow := hearly hon due (by rw [h.nextRunFrom_eq he, hdue])
      omega
    rw [heq]
    exact ⟨hcome, fun _ t hslot hlater => .inr ⟨hcome t hslot hlater, hlater⟩⟩
  · rw [h.nextRunFrom_eq he] at hdue
    rw [heq]
    refine ⟨fun t _ hlater => hlater.le, fun hrecent => ?_⟩
    have hdue' := hrecent due (slot_of_nextRun hdue) (nextRun_after hdue)
    omega
  · rw [h.nextRunFrom_eq he] at hdue
    have hcome : ∀ t, Slot loc e.spec t → due < t → s.clock ≤ t := by
      intro t hslot hlater
      by_contra hpast
      have hapart := hspaced due t (slot_of_nextRun hdue) hslot (nextRun_after hdue) hlater
        (by omega)
      omega
    rw [heq]
    refine ⟨hcome, fun _ t hslot hlater => ?_⟩
    by_cases hpast : t ≤ s.clock
    · obtain ⟨due', hdue', hle'⟩ := hloc.nextRun_le hvalid hslot hlater hpast
      rw [hdue] at hdue'
      cases hdue'
      rcases Int.lt_or_eq_of_le hle' with hlt | rfl
      · exact .inr ⟨hcome t hslot hlt, hlt⟩
      · exact .inl ⟨_, rfl, rfl⟩
    · exact .inr ⟨by omega, show due < t by omega⟩

/-- An edit of another schedule, a sweep or a late outcome. -/
def Untouched (id : String) : Action → Prop
  | .put req => putId req ≠ id
  | .delete id' => id' ≠ id
  | .sweep _ | .recordOutcome .. => True

/-- The times of a run's sweeps. -/
def sweepTimes (clock : ℤ) : List Event → List ℤ
  | [] => []
  | ev :: events =>
    match ev.action with
    | .sweep _ => (clock + ev.elapsed) :: sweepTimes (clock + ev.elapsed) events
    | .put _ | .delete _ | .recordOutcome .. => sweepTimes (clock + ev.elapsed) events

/-- What a step without a sweep leaves of a schedule that it does not edit. -/
theorem act_untouched (h : s.Keyed) {id : String} {e : Entry} (he : s.find id = some e)
    {action : Action} (haction : Untouched id action) (hsweep : ∀ launch, action ≠ .sweep launch) :
    ∃ e', (s.act loc action).find id = some e' ∧ e'.anchor = e.anchor ∧ e'.spec = e.spec ∧
      e'.enabled = e.enabled := by
  cases action with
  | sweep launch => exact absurd rfl (hsweep launch)
  | put req =>
    rw [act]
    rcases handleSchedulePut_cases s req with heq | ⟨e₁, hid, -, -, heq⟩
    · rw [heq]
      exact ⟨e, he, rfl, rfl, rfl⟩
    · rw [heq, find_set h, if_neg (by rw [hid]; exact Ne.symm haction)]
      exact ⟨e, he, rfl, rfl, rfl⟩
  | delete id' => exact ⟨e, (Keyed.find_erase_of_ne (Ne.symm haction)).trans he, rfl, rfl, rfl⟩
  | recordOutcome id' result =>
    rw [act, recordOutcome_find]
    split
    · next hid => exact ⟨{ e with lastResult := result }, by rw [← hid, he]; rfl, rfl, rfl, rfl⟩
    · exact ⟨e, he, rfl, rfl, rfl⟩

theorem sweepTimes_sweep {clock : ℤ} {ev : Event} {events : List Event}
    (h : ev.action = .sweep launch) : sweepTimes clock (ev :: events) =
      (clock + ev.elapsed) :: sweepTimes (clock + ev.elapsed) events := by
  rw [sweepTimes, h]

theorem sweepTimes_other {clock : ℤ} {ev : Event} {events : List Event}
    (h : ∀ launch, ev.action ≠ .sweep launch) :
    sweepTimes clock (ev :: events) = sweepTimes (clock + ev.elapsed) events := by
  rw [sweepTimes]
  cases haction : ev.action with
  | sweep launch => exact absurd haction (h launch)
  | put | delete | recordOutcome => rfl

theorem act_clock (h : s.Keyed) (action : Action) : (s.act loc action).clock = s.clock := by
  cases action with
  | sweep launch => exact (sweep_spec h).2.2.1
  | put req =>
    rw [act]
    rcases handleSchedulePut_cases s req with heq | ⟨e, -, -, -, heq⟩
    · rw [heq]
    · rw [heq]
  | delete id => rfl
  | recordOutcome id result => exact rewrite_clock ..

theorem act_fires (h : s.Keyed) (action : Action) {f : Fire} (hf : f ∈ s.fires) :
    f ∈ (s.act loc action).fires := by
  cases action with
  | sweep launch =>
    rw [act, (sweep_spec h).2.1]
    exact List.mem_append_left _ hf
  | put req =>
    rw [act]
    rcases handleSchedulePut_cases s req with heq | ⟨e, -, -, -, heq⟩
    · rw [heq]
      exact hf
    · rw [heq]
      exact hf
  | delete id => exact hf
  | recordOutcome id result =>
    rw [act, recordOutcome, rewrite_fires]
    exact hf

theorem Sound.run_fires (h : s.Sound) (events : List Event) {f : Fire} (hf : f ∈ s.fires) :
    f ∈ (runFrom (State.step loc) s events).fires := by
  induction events generalizing s with
  | nil => exact hf
  | cons ev events ih => exact ih (h.step ev) (act_fires (h.tick ev.elapsed).keyed _ hf)

/-- Every enabled schedule that a sweep meets is regular. -/
def Kept (loc : Location) (s : State) (ev : Event) : Prop :=
  ∀ launch, ev.action = .sweep launch → ∀ id e, s.find id = some e → e.enabled = true →
    Regular loc (s.clock + ev.elapsed) e

/-- Once a sweep was made, a slot to come is fired by the first sweep after it, as long as no sweep
is further from the one before it than the grace. -/
theorem Sound.fired_of_chain {id : String} {spec : Spec} (events : List Event) :
    ∀ {s : State} {e : Entry} {last t : ℤ}, s.Sound → s.find id = some e → e.enabled = true →
      e.spec = spec → (∀ t, Slot loc spec t → e.anchor < t → last ≤ t) →
      Along (State.step loc) (Kept loc) s events → (∀ ev ∈ events, Untouched id ev.action) →
      List.IsChain (fun a b => b ≤ a + missGrace) (last :: sweepTimes s.clock events) →
      Slot loc spec t → e.anchor < t → (∃ now ∈ sweepTimes s.clock events, t < now) →
      ∃ f ∈ (runFrom (State.step loc) s events).fires, f.id = id ∧ f.due = t := by
  induction events with
  | nil => rintro s e last t - - - - - - - - - - ⟨now, hnow, -⟩; cases hnow
  | cons ev events ih =>
    intro s e last t h he hon hspec hcome hkept huntouched hchain hslot hlater hsweeps
    have htick := h.tick ev.elapsed
    have hrest : ∀ ev ∈ events, Untouched id ev.action :=
      fun ev' hmem => huntouched ev' (List.mem_cons_of_mem ev hmem)
    by_cases hsweep : ∃ launch, ev.action = .sweep launch
    · obtain ⟨launch, haction⟩ := hsweep
      rw [sweepTimes_sweep haction] at hchain hsweeps
      rw [List.isChain_cons_cons] at hchain
      subst hspec
      obtain ⟨hfind, hfires, hclock, -⟩ :=
        @sweep_spec _ loc launch htick.keyed
      obtain ⟨hpast, hfired⟩ := @Sound.swept_slots _ loc launch htick _ _ he hon
        (hkept.1 launch haction id e he hon)
      have hstep : State.step loc s ev =
          State.sweep { s with clock := s.clock + ev.elapsed } loc launch := by
        rw [State.step, haction]
        rfl
      have hcome' : ∀ t, Slot loc e.spec t → e.anchor < t →
          s.clock + ev.elapsed ≤ t + missGrace := by
        intro t hslot hlater
        have hlast := hcome t hslot hlater
        omega
      rcases hfired hcome' t hslot hlater with ⟨f, hf, hdue⟩ | ⟨hle, hlater'⟩
      · refine ⟨f, ?_, (swept_fire_id hf).trans (find_id he), hdue⟩
        apply (h.step ev).run_fires
        rw [hstep, hfires, List.mem_append]
        right
        rw [List.mem_filterMap]
        refine ⟨e, ?_, hf⟩
        exact (list_perm _).mem_iff.mpr (Keyed.mem_of_find he)
      · have hswept := @swept_spec loc launch e (s.clock + ev.elapsed)
        refine @ih _ (swept loc launch (s.clock + ev.elapsed) e).1 (s.clock + ev.elapsed) _
          (h.step ev) ?_ ?_ ?_ hpast hkept.2 hrest ?_ hslot hlater' ?_
        · rw [hstep, hfind]
          exact Option.map_eq_some_iff.mpr ⟨e, he, rfl⟩
        · rw [hswept.2, hon]
        · exact hswept.1
        · rw [hstep, hclock]
          exact hchain.2
        · obtain ⟨now, hmem, hlt⟩ := hsweeps
          rcases List.mem_cons.mp hmem with rfl | hmem
          · dsimp only at hle
            omega
          · rw [hstep, hclock]
            exact ⟨now, hmem, hlt⟩
    · have hother : ∀ launch, ev.action ≠ .sweep launch :=
        fun launch haction => hsweep ⟨launch, haction⟩
      rw [sweepTimes_other hother] at hchain hsweeps
      obtain ⟨e', he', hanchor, hspec', hon'⟩ := @act_untouched _ loc htick.keyed _ _ he _
        (huntouched ev List.mem_cons_self) hother
      have hclock : (State.step loc s ev).clock = s.clock + ev.elapsed := act_clock htick.keyed _
      rw [← hanchor] at hcome hlater
      rw [← hclock] at hchain hsweeps
      exact ih (h.step ev) he' (hon'.trans hon) (hspec'.trans hspec) hcome hkept.2 hrest hchain
        hslot hlater hsweeps

/-- Every slot after a period's first sweep is fired by the first sweep after it. -/
theorem Sound.fired_of_first {id : String} (events : List Event) :
    ∀ {s : State} {e : Entry} {first t : ℤ} {rest : List ℤ}, s.Sound → s.find id = some e →
      e.enabled = true → Along (State.step loc) (Kept loc) s events →
      (∀ ev ∈ events, Untouched id ev.action) → sweepTimes s.clock events = first :: rest →
      List.IsChain (fun a b => b ≤ a + missGrace) (first :: rest) →
      Slot loc e.spec t → first < t → (∃ now ∈ rest, t < now) →
      ∃ f ∈ (runFrom (State.step loc) s events).fires, f.id = id ∧ f.due = t := by
  induction events with
  | nil => rintro s e first t rest - - - - - ⟨⟩
  | cons ev events ih =>
    intro s e first t rest h he hon hkept huntouched htimes hchain hslot hlater hsweeps
    have htick := h.tick ev.elapsed
    have hclock : (State.step loc s ev).clock = s.clock + ev.elapsed := act_clock htick.keyed _
    have hrest : ∀ ev ∈ events, Untouched id ev.action :=
      fun ev' hmem => huntouched ev' (List.mem_cons_of_mem ev hmem)
    by_cases hsweep : ∃ launch, ev.action = .sweep launch
    · obtain ⟨launch, haction⟩ := hsweep
      rw [sweepTimes_sweep haction, List.cons.injEq] at htimes
      obtain ⟨hfirst, htimes⟩ := htimes
      have hfind := (@sweep_spec _ loc launch htick.keyed).1
      have hpast := (@Sound.swept_slots _ loc launch htick _ _ he hon
        (hkept.1 launch haction id e he hon)).1
      have hanchor := (@Sound.swept_anchor _ loc launch htick _ _ he).2
      have hswept := @swept_spec loc launch e (s.clock + ev.elapsed)
      rw [← htimes, ← hclock] at hchain hsweeps
      refine @Sound.fired_of_chain loc id e.spec events _
        (swept loc launch (s.clock + ev.elapsed) e).1 first _ (h.step ev) ?_ ?_ hswept.1 ?_ hkept.2 hrest hchain
        hslot ?_ hsweeps
      · rw [State.step, haction, State.act, hfind]
        exact Option.map_eq_some_iff.mpr ⟨e, he, rfl⟩
      · rw [hswept.2, hon]
      · rw [← hfirst]
        exact hpast
      · dsimp only at hanchor
        omega
    · have hother : ∀ launch, ev.action ≠ .sweep launch :=
        fun launch haction => hsweep ⟨launch, haction⟩
      rw [sweepTimes_other hother] at htimes
      obtain ⟨e', he', -, hspec, hon'⟩ := @act_untouched _ loc htick.keyed _ _ he _
        (huntouched ev List.mem_cons_self) hother
      rw [← hclock] at htimes
      rw [← hspec] at hslot
      exact ih (h.step ev) he' (hon'.trans hon) hkept.2 hrest htimes hchain hslot hlater hsweeps

/-- What a step launches is the next slot of a schedule that was stored and enabled. -/
def LaunchesSlots (loc : Location) (s : State) (ev : Event) : Prop :=
  ∀ f ∈ (step loc s ev).fires, f ∈ s.fires ∨ ∃ e, s.find f.id = some e ∧ e.enabled = true ∧
    nextRun loc e.spec e.anchor = .ok f.due ∧ f.firedAt = s.clock + ev.elapsed

theorem Sound.launchesSlots (h : s.Sound) (ev : Event) : LaunchesSlots loc s ev := by
  intro f hf
  have htick := h.tick ev.elapsed
  rw [State.step] at hf
  cases haction : ev.action with
  | sweep launch =>
    rw [haction] at hf
    rcases htick.mem_sweep_fires hf with hold | ⟨e, he, hfire⟩
    · exact .inl hold
    · obtain ⟨hon, hdue, -, hat, -⟩ := htick.swept_fire he hfire
      exact .inr ⟨e, he, hon, hdue, hat⟩
  | put req =>
    rw [haction, State.act] at hf
    rcases handleSchedulePut_cases { s with clock := s.clock + ev.elapsed } req with
      heq | ⟨e, -, -, -, heq⟩
    · rw [heq] at hf
      exact .inl hf
    · rw [heq] at hf
      exact .inl hf
  | delete id =>
    rw [haction] at hf
    exact .inl hf
  | recordOutcome id result =>
    rw [haction, State.act, State.recordOutcome, rewrite_fires] at hf
    exact .inl hf

/-- A run from an empty store fires the slots of its schedules, each of them once, none later than
the grace, and every one that lies between the first and the last sweep of a period without edits
whose sweeps are never further apart than the grace. -/
structure OncePerSlot (loc : Location) (events : List Event) : Prop where
  once : ((runFrom (step loc) {} events).fires.map fun f => (f.id, f.due)).Nodup
  recent : ∀ f ∈ (runFrom (step loc) {} events).fires,
    f.due ≤ f.firedAt ∧ f.firedAt ≤ f.due + missGrace
  slots : Along (step loc) (LaunchesSlots loc) {} events
  forward : Along (step loc) (AnchorsForward loc) {} events
  every : ∀ before period, events = before ++ period →
    ∀ id e, (runFrom (step loc) {} before).find id = some e → e.enabled = true →
    (∀ ev ∈ period, Untouched id ev.action) →
    ∀ first rest, sweepTimes (runFrom (step loc) {} before).clock period = first :: rest →
    List.IsChain (fun a b => b ≤ a + missGrace) (first :: rest) →
    ∀ after t, nextRun loc e.spec after = .ok t → first < t → (∃ now ∈ rest, t < now) →
    ∃ f ∈ (runFrom (step loc) {} events).fires, f.id = id ∧ f.due = t

theorem sound_run (events : List Event) : (runFrom (step loc) {} events).Sound :=
  runFrom_invariant sound_empty (fun _ ev h => h.step ev) events

/-- In a location of a fixed offset every run meets the condition. -/
theorem fixed_kept (offset : ℤ) (events : List Event) :
    Along (step fun _ => offset) (Kept fun _ => offset) {} events := by
  apply along_of_invariant sound_empty
  · intro s ev h launch _ id e he _
    refine ⟨fixed_wellDated .., ?_⟩
    intro t t' hslot hslot' hlo hlt hhi
    have hapart := fixed_spaced offset _ _ (h.valid id e he) t t' hslot hslot' hlo hlt hhi
    rw [missGrace]
    rw [second] at *
    omega
  · exact fun _ ev h => h.step ev

theorem fires_oncePerSlot (loc : Location) (events : List Event)
    (h : Along (step loc) (Kept loc) {} events) : OncePerSlot loc events where
  once := by
    rw [List.Nodup, List.pairwise_map]
    apply (sound_run events).ordered.imp
    intro f g hlt heq
    have hdue := hlt (congrArg Prod.fst heq)
    rw [Prod.mk.injEq] at heq
    omega
  recent f hf := by
    obtain ⟨hle, hgrace, -⟩ := (sound_run events).recent f hf
    exact ⟨hle, hgrace⟩
  slots := along_of_invariant sound_empty (fun _ ev h => h.launchesSlots ev)
    (fun _ ev h => h.step ev) events
  forward := along_of_invariant sound_empty (fun _ ev h => h.anchorsForward ev)
    (fun _ ev h => h.step ev) events
  every := by
    rintro before period rfl id e he hon huntouched first rest htimes hchain after t hdue hfirst
      hsweeps
    rw [runFrom_append]
    exact (sound_run before).fired_of_first period he hon (along_append.mp h).2 huntouched htimes
      hchain (slot_of_nextRun hdue) hfirst hsweeps

def everyFive : PutRequest :=
  { source := "bundled://demo", spec := { freq := .minutely, interval := 5 }, enabled := true }

def sweepAfter (elapsed : ℕ) : Event := { elapsed, action := .sweep fun _ _ _ => none }

/-- A schedule of every five minutes, swept at once and five minutes later. -/
theorem fires_oncePerSlot_utc :
    OncePerSlot (fun _ => 0)
      [{ elapsed := 0, action := .put everyFive }, sweepAfter 0, sweepAfter 300000000000] :=
  fires_oncePerSlot _ _ (fixed_kept 0 _)

end State

/-! ## A midnight that does not exist -/

/-- Four hours behind until the midnight of 6 September 2026, and three hours from then on: that
day begins at one o'clock. -/
def santiago : Location := fun t => if t < 1788667200 then -14400 else -10800

/-- A schedule of every five minutes is saved at 23:54 on the evening before, and swept every three
minutes until 01:15. -/
def midnightRun : List Event :=
  { elapsed := (1788666840 * second - zeroTime).toNat, action := .put State.everyFive } ::
    State.sweepAfter 0 :: List.replicate 7 (State.sweepAfter 180000000000)

/-- The slot at 01:05 is never fired: from an anchor of the evening before, the scan meets that
evening twice and then the day after next. -/
theorem midnightRun_misses : ¬ State.OncePerSlot santiago midnightRun := by
  intro h
  let e : Entry :=
    { anchor := 1788666840 * second, id := "bundled://demo", source := "bundled://demo",
      spec := State.everyFive.spec, enabled := true }
  have huntouched : ∀ ev ∈ midnightRun.drop 1, State.Untouched e.id ev.action := by
    intro ev hev
    rcases List.mem_cons.mp hev with rfl | hmem
    · trivial
    · rw [List.eq_of_mem_replicate hmem]
      trivial
  have hfired := h.every (midnightRun.take 1) (midnightRun.drop 1) (List.take_append_drop 1 _).symm
    e.id e (by decide +kernel) rfl huntouched (1788666840 * second) _ rfl (by decide +kernel)
    (1788667260 * second) (1788667500 * second) (by decide +kernel) (by decide) (by decide +kernel)
  revert hfired
  decide +kernel

end Marotte.Schedule
