import Marotte.RunLog.Ahead

/-! # When the browser's log of a run converges

An answer must not be older than a frame of its turn that was delivered meanwhile: it puts its own
open tails in the place of newer ones and takes the marker of a frame that it does not cover.
-/
namespace Marotte.Transcript.RunLog

namespace RunLogState

variable {s : RunLogState}

/-- The frame at a position is of a turn. -/
def About (s : RunLogState) (i : ℕ) (turn : String) : Prop :=
  (s.frame i).map frameTurn = some turn

instance (s : RunLogState) (i : ℕ) (turn : String) : Decidable (s.About i turn) :=
  inferInstanceAs (Decidable ((s.frame i).map frameTurn = some turn))

/-- What the browser holds of a turn is the log's: its entries, and the open tail of each lane. -/
def Whole (s : RunLogState) (turn : String) : Prop :=
  ((s.turns turn).state.map TurnState.entries).getD [] = s.log.own turn ∧
    ∀ lane, ((s.turns turn).state.bind fun st => st.openIn lane) = s.log.tail turn lane

/-- Each lost frame of a turn is followed by one that was delivered and found the turn incomplete. -/
def Noticed (s : RunLogState) (turn : String) : Prop :=
  ∀ i ∈ s.lost, s.About i turn → ∃ j ∈ s.refused, s.About j turn ∧ i < j

/-- A held turn is true of the log, with no open tail that it holds sealed; and once every frame is
delivered or lost and its read has settled, a turn is whole or has its marker, unless the loss of a
frame of it went unnoticed. -/
structure Agrees (s : RunLogState) : Prop where
  held : ∀ turn st, (s.turns turn).state = some st → st.TrueOf s.log turn
  settled : s.cursor = s.actions.length → ∀ turn, (s.turns turn).inFlight = none →
    s.Noticed turn → (s.turns turn).hole = true ∨ s.Whole turn

/-! ## The condition -/

/-- The ids that the server gives are new to their turns. -/
def Minted (s : RunLogState) : RunLogEvent → Prop
  | .server op => s.log.Through Log.Names (s.perform op)
  | _ => True

instance (s : RunLogState) (e : RunLogEvent) : Decidable (s.Minted e) :=
  match e with
  | .server op => inferInstanceAs (Decidable (s.log.Through Log.Names (s.perform op)))
  | .delivers | .loses | .redelivers _ | .asks _ | .answers _ | .fails _ | .arrives _ => isTrue trivial

def opened (s : RunLogState) (i : ℕ) : List OpenEntry :=
  match s.frame i with
  | some (.entryOpened o) => [o]
  | _ => []

def replied (t : RunTurn) : List OpenEntry :=
  (((t.inFlight.bind RangeRead.answer).bind RangeAnswer.reply).map Prod.snd).getD []

/-- The open tails that a step seats as a frame or an answer has them. -/
def seats (s : RunLogState) : RunLogEvent → List OpenEntry
  | .delivers => s.opened s.cursor
  | .redelivers i => s.opened i
  | .arrives turn => replied (s.turns turn)
  | _ => []

/-- No open tail is seated that its turn holds sealed. -/
def Unsealed (s : RunLogState) (e : RunLogEvent) : Prop :=
  ∀ o ∈ s.seats e, ∀ st ∈ (s.turns o.turn).state, ∀ x ∈ st.entries, x.id ≠ o.id

instance (s : RunLogState) (e : RunLogEvent) : Decidable (s.Unsealed e) :=
  inferInstanceAs (Decidable (∀ o ∈ s.seats e, ∀ st ∈ (s.turns o.turn).state,
    ∀ x ∈ st.entries, x.id ≠ o.id))

/-- The frame at a position is of a lane. -/
def OfLane (s : RunLogState) (i : ℕ) (turn lane : String) : Prop :=
  s.About i turn ∧ (s.frame i).bind frameLane = some lane

instance (s : RunLogState) (i : ℕ) (turn lane : String) : Decidable (s.OfLane i turn lane) :=
  inferInstanceAs (Decidable (s.About i turn ∧ (s.frame i).bind frameLane = some lane))

/-- An entry_opened frame comes again before any later frame of its lane. -/
def InOrder (s : RunLogState) : RunLogEvent → Prop
  | .redelivers i => ∀ o ∈ s.opened i, ∀ j < s.cursor, i < j → ¬ s.OfLane j o.turn o.lane
  | _ => True

instance (s : RunLogState) (e : RunLogEvent) : Decidable (s.InOrder e) :=
  match e with
  | .redelivers i => inferInstanceAs (Decidable
      (∀ o ∈ s.opened i, ∀ j < s.cursor, i < j → ¬ s.OfLane j o.turn o.lane))
  | .server _ | .delivers | .loses | .asks _ | .answers _ | .fails _ | .arrives _ => isTrue trivial

/-- The frames of a turn that were delivered are behind an answer. -/
def Behind (s : RunLogState) (turn : String) (answer : RangeAnswer) : Prop :=
  ∀ j < s.cursor, answer.taken ≤ j → s.About j turn → j ∈ s.lost

instance (s : RunLogState) (turn : String) (answer : RangeAnswer) :
    Decidable (s.Behind turn answer) :=
  inferInstanceAs (Decidable (∀ j < s.cursor, answer.taken ≤ j → s.About j turn → j ∈ s.lost))

/-- An answer that arrives was taken behind every frame of its turn that was delivered. -/
def Fresh (s : RunLogState) : RunLogEvent → Prop
  | .arrives turn => ∀ answer ∈ (s.turns turn).inFlight.bind RangeRead.answer,
      answer.reply.isSome → s.Behind turn answer
  | _ => True

instance (s : RunLogState) (e : RunLogEvent) : Decidable (s.Fresh e) :=
  match e with
  | .arrives turn => inferInstanceAs (Decidable
      (∀ answer ∈ (s.turns turn).inFlight.bind RangeRead.answer,
        answer.reply.isSome → s.Behind turn answer))
  | .server _ | .delivers | .loses | .redelivers _ | .asks _ | .answers _ | .fails _ => isTrue trivial

structure Kept (s : RunLogState) (e : RunLogEvent) : Prop where
  minted : s.Minted e
  unsealed : s.Unsealed e
  inOrder : s.InOrder e
  fresh : s.Fresh e

instance (s : RunLogState) (e : RunLogEvent) : Decidable (s.Kept e) :=
  decidable_of_iff (s.Minted e ∧ s.Unsealed e ∧ s.InOrder e ∧ s.Fresh e)
    ⟨fun h => ⟨h.1, h.2.1, h.2.2.1, h.2.2.2⟩,
      fun h => ⟨h.minted, h.unsealed, h.inOrder, h.fresh⟩⟩

/-! ## What a run keeps -/

/-- A turn that is not marked has an answer, or its start, behind every frame that was refused;
since then a frame of it was lost, or it is not behind the stream. -/
def Covered (s : RunLogState) (turn : String) : Prop :=
  ∃ a, (∀ j ∈ s.refused, s.About j turn → j < a) ∧
    ((∃ i ∈ s.lost, s.About i turn ∧ a ≤ i) ∨
      Ahead s.actions s.cursor turn (s.turns turn).state)

structure Sound (s : RunLogState) : Prop where
  lawful : Lawful s.actions
  announced : Announced s.actions
  cursor : s.cursor ≤ s.actions.length
  lost : ∀ i ∈ s.lost, i < s.cursor
  refused : ∀ j ∈ s.refused, j < s.cursor ∧ j ∉ s.lost
  fits : ∀ turn, (s.turns turn).Fits s.actions turn
  covered : ∀ turn, (s.turns turn).hole = true ∨ s.Covered turn

theorem sound_start : ({} : RunLogState).Sound where
  lawful := ⟨trivial, trivial⟩
  announced a ha := by cases ha
  cursor := Nat.le_refl 0
  lost i hi := by cases hi
  refused j hj := by cases hj
  fits turn := RunTurn.Fits.empty [] turn
  covered turn := by
    right
    refine ⟨0, ?_, .inr (Ahead.start turn)⟩
    intro j hj
    cases hj

/-! ## Frames by their position -/

theorem frame_eq {i : ℕ} {f : Frame} : s.frame i = some f ↔ s.actions[i]? = some (.announced f) := by
  rw [frame]
  cases s.actions[i]? with
  | none => simp
  | some a => cases a <;> simp

theorem about_iff {i : ℕ} {turn : String} :
    s.About i turn ↔ ∃ f, s.actions[i]? = some (.announced f) ∧ frameTurn f = turn := by
  rw [About, Option.map_eq_some_iff]
  constructor
  · rintro ⟨f, hf, hturn⟩
    exact ⟨f, frame_eq.mp hf, hturn⟩
  · rintro ⟨f, hf, hturn⟩
    exact ⟨f, frame_eq.mpr hf, hturn⟩

theorem about_append {i : ℕ} {turn : String} (hi : i < s.actions.length) (bs : List Action) :
    ({ s with actions := s.actions ++ bs }).About i turn ↔ s.About i turn := by
  rw [about_iff, about_iff, List.getElem?_append_left hi]

/-- What happens to the actions alone. -/
theorem covered_append {turn : String} (h : s.Covered turn) (hs : s.Sound) (bs : List Action) :
    ({ s with actions := s.actions ++ bs }).Covered turn := by
  obtain ⟨a, hrefused, hcovered⟩ := h
  refine ⟨a, ?_, ?_⟩
  · intro j hj habout
    apply hrefused j hj
    exact (about_append (Nat.lt_of_lt_of_le (hs.refused j hj).1 hs.cursor) bs).mp habout
  · rcases hcovered with ⟨i, hi, habout, ha⟩ | hahead
    · left
      refine ⟨i, hi, ?_, ha⟩
      exact (about_append (Nat.lt_of_lt_of_le (hs.lost i hi) hs.cursor) bs).mpr habout
    · exact .inr (hahead.append hs.cursor)

theorem perform_eq (s : RunLogState) (op : ServerOp) :
    s.perform op = [] ∨ s.perform op = s.log.perform op := by
  cases op with
  | revert fromTurn mint ts => exact .inl rfl
  | openTurn turn ts => exact .inr rfl
  | openEntry turn lane id kind text => exact .inr rfl
  | extend turn lane delta => exact .inr rfl
  | «seal» turn lane ts => exact .inr rfl
  | append turn lane id payload ts => exact .inr rfl

/-- An operation on a run's log is one announced action, or none. -/
theorem perform_announced (s : RunLogState) (op : ServerOp) : Announced (s.perform op) := by
  intro a ha
  cases op with
  | openTurn turn ts =>
    simp only [perform, Log.perform] at ha
    split at ha
    · cases ha
    · exact ⟨_, List.mem_singleton.mp ha⟩
  | openEntry turn lane id kind text =>
    simp only [perform, Log.perform] at ha
    split at ha
    · exact ⟨_, List.mem_singleton.mp ha⟩
    · cases ha
  | extend turn lane delta =>
    simp only [perform, Log.perform] at ha
    split at ha
    · exact ⟨_, List.mem_singleton.mp ha⟩
    · cases ha
  | «seal» turn lane ts =>
    simp only [perform, Log.perform] at ha
    split at ha
    · exact ⟨_, List.mem_singleton.mp ha⟩
    · cases ha
  | append turn lane id payload ts =>
    simp only [perform, Log.perform] at ha
    split at ha
    · exact ⟨_, List.mem_singleton.mp ha⟩
    · cases ha
  | revert fromTurn mint ts => cases ha

theorem turns_setTurn_self {turn : String} (t : RunTurn) : (s.setTurn turn t).turns turn = t :=
  Function.update_self ..

theorem turns_setTurn_of_ne {turn turn' : String} {t : RunTurn} (hne : turn' ≠ turn) :
    (s.setTurn turn t).turns turn' = s.turns turn' := Function.update_of_ne hne ..

/-! ## Markers -/

@[simp] theorem hole_markRunHole (t : RunTurn) : t.markRunHole.hole = true := by
  rw [RunTurn.markRunHole, RunTurn.requestRange]
  split
  · rfl
  · rfl

theorem hole_appendRunEntry (t : RunTurn) (e : Entry) :
    (t.appendRunEntry e).hole = (t.hole || ({ t with hole := false }.appendRunEntry e).hole) := by
  obtain ⟨state, hole, inFlight⟩ := t
  simp only [RunTurn.appendRunEntry]
  cases state with
  | none => simp
  | some st =>
    dsimp only
    split
    · split
      · simp
      · simp
    · simp

/-- A marker stays, and is set by the frames that are refused. -/
theorem hole_receive (t : RunTurn) (f : Frame) : (t.receive f).hole = (t.hole || t.refuses f) := by
  rw [RunTurn.refuses]
  cases f with
  | turnOpened e =>
    simp only [RunTurn.receive, RunTurn.openRunTurn]
    split
    · simp
    · simp
  | entryOpened o =>
    simp only [RunTurn.receive, RunTurn.openRunEntry]
    split
    · simp
    · simp
  | entryDelta turn id lane n delta =>
    simp only [RunTurn.receive, RunTurn.applyRunDelta]
    split
    · simp
    · split
      · split
        · simp
        · simp
      · simp
  | entrySealed turn id lane seq ts n =>
    simp only [RunTurn.receive, RunTurn.sealRunEntry]
    split
    · simp
    · split
      · split
        · exact hole_appendRunEntry _ _
        · simp
      · simp
  | entryAppended e => exact hole_appendRunEntry t e

/-- A turn other than the frame's. -/
theorem turns_receive_of_ne {i : ℕ} {f : Frame} {turn : String} (hne : turn ≠ frameTurn f) :
    (s.receive i f).turns turn = s.turns turn := Function.update_of_ne hne ..

theorem turns_receive_self (s : RunLogState) (i : ℕ) (f : Frame) :
    (s.receive i f).turns (frameTurn f) = (s.turns (frameTurn f)).receive f :=
  Function.update_self ..

namespace Sound

theorem server (h : s.Sound) {op : ServerOp}
    (hminted : s.log.Through Log.Names (s.perform op)) :
    ({ s with actions := s.actions ++ s.perform op }).Sound where
  lawful := by
    apply h.lawful.append _ hminted
    rcases perform_eq s op with hnone | hsame
    · rw [hnone]
      trivial
    · rw [hsame]
      exact h.lawful.history.sound.performs op
  announced := by
    intro a ha
    rcases List.mem_append.mp ha with hold | hnew
    · exact h.announced a hold
    · exact perform_announced s op a hnew
  cursor := by
    rw [List.length_append]
    exact Nat.le_add_right_of_le h.cursor
  lost := h.lost
  refused := h.refused
  fits turn := (h.fits turn).mono
  covered turn := (h.covered turn).imp_right fun hcovered => covered_append hcovered h _

/-- A frame that is delivered, for the first time or again. -/
theorem received (h : s.Sound) {i c : ℕ} {f : Frame}
    (hf : s.actions[i]? = some (.announced f))
    (hid : ∀ o, f = .entryOpened o → ∀ st, (s.turns (frameTurn f)).state = some st →
      ∀ e ∈ st.entries, e.id ≠ o.id)
    (hc : s.cursor ≤ c) (hle : c ≤ s.actions.length) (hi : i < c) (hlost : i ∉ s.lost)
    (hother : ∀ turn, frameTurn f ≠ turn → Ahead s.actions s.cursor turn (s.turns turn).state →
      Ahead s.actions c turn (s.turns turn).state)
    (hself : Ahead s.actions s.cursor (frameTurn f) (s.turns (frameTurn f)).state →
      Ahead s.actions c (frameTurn f) ((s.turns (frameTurn f)).receive f).state) :
    ({ s.receive i f with cursor := c }).Sound where
  lawful := h.lawful
  announced := h.announced
  cursor := hle
  lost j hj := Nat.lt_of_lt_of_le (h.lost j hj) hc
  refused j hj := by
    have hsplit : j = i ∨ j ∈ s.refused := by
      simp only [receive] at hj
      split at hj
      · exact List.mem_cons.mp hj
      · exact .inr hj
    rcases hsplit with rfl | hold
    · exact ⟨hi, hlost⟩
    · exact ⟨Nat.lt_of_lt_of_le (h.refused j hold).1 hc, (h.refused j hold).2⟩
  fits turn := by
    change ((s.receive i f).turns turn).Fits s.actions turn
    by_cases hturn : turn = frameTurn f
    · rw [hturn, turns_receive_self]
      exact RunTurn.Fits.receive h.lawful (List.mem_of_getElem? hf) (h.fits _) hid
    · rw [turns_receive_of_ne hturn]
      exact h.fits turn
  covered turn := by
    change ((s.receive i f).turns turn).hole = true ∨ _
    by_cases hturn : turn = frameTurn f
    · subst hturn
      rw [turns_receive_self, hole_receive]
      cases hhole : (s.turns (frameTurn f)).hole with
      | true => exact .inl rfl
      | false =>
        cases hrefuses : (s.turns (frameTurn f)).refuses f with
        | true => exact .inl rfl
        | false =>
          right
          have hcovered := (h.covered (frameTurn f)).resolve_left (by simp [hhole])
          obtain ⟨a, hrefused, hcovered⟩ := hcovered
          refine ⟨a, ?_, ?_⟩
          · intro j hj
            simp only [receive, hrefuses, Bool.false_eq_true, if_false] at hj
            exact hrefused j hj
          · change _ ∨ Ahead s.actions c (frameTurn f) ((s.receive i f).turns (frameTurn f)).state
            rw [turns_receive_self]
            exact hcovered.imp_right hself
    · rw [turns_receive_of_ne hturn]
      apply (h.covered turn).imp_right
      rintro ⟨a, hrefused, hcovered⟩
      refine ⟨a, ?_, ?_⟩
      · intro j hj habout
        apply hrefused j _ habout
        simp only [receive] at hj
        split at hj
        · rcases List.mem_cons.mp hj with rfl | hold
          · obtain ⟨f', hf', hturn'⟩ := about_iff.mp habout
            change s.actions[j]? = _ at hf'
            rw [hf] at hf'
            cases hf'
            exact absurd hturn'.symm hturn
          · exact hold
        · exact hj
      · change _ ∨ Ahead s.actions c turn ((s.receive i f).turns turn).state
        rw [turns_receive_of_ne hturn]
        exact hcovered.imp_right (hother turn (Ne.symm hturn))

theorem delivers (h : s.Sound) {f : Frame} (hf : s.frame s.cursor = some f)
    (hunsealed : s.Unsealed .delivers) :
    ({ s.receive s.cursor f with cursor := s.cursor + 1 }).Sound := by
  have hget := frame_eq.mp hf
  apply h.received hget
  · rintro o rfl st hst
    exact hunsealed o (by simp [seats, opened, hf]) st hst
  · exact Nat.le_succ s.cursor
  · exact (List.getElem?_eq_some_iff.mp hget).1
  · exact Nat.lt_succ_self s.cursor
  · intro hlost
    exact Nat.lt_irrefl _ (h.lost s.cursor hlost)
  · intro turn hne hahead
    exact hahead.pass hget hne
  · intro hahead
    exact hahead.receives (h.fits _) h.lawful hget rfl

theorem redelivers (h : s.Sound) {i : ℕ} {f : Frame} (hf : s.frame i = some f)
    (hi : i < s.cursor) (hlost : i ∉ s.lost) (hunsealed : s.Unsealed (.redelivers i))
    (horder : s.InOrder (.redelivers i)) : (s.receive i f).Sound := by
  have hget := frame_eq.mp hf
  have hsound : ({ s.receive i f with cursor := s.cursor }).Sound := by
    refine h.received hget ?_ (Nat.le_refl _) h.cursor hi hlost (fun _ _ hahead => hahead) ?_
    · rintro o rfl st hst
      exact hunsealed o (by simp [seats, opened, hf]) st hst
    · intro hahead
      apply hahead.again h.lawful h.announced h.cursor hi hget rfl
      rintro o rfl j hj hlt f' hf' hturn hlane
      apply horder o (by simp [opened, hf]) j hlt hj
      refine ⟨about_iff.mpr ⟨f', hf', hturn⟩, ?_⟩
      rw [frame_eq.mpr hf']
      exact hlane
  exact hsound

theorem loses (h : s.Sound) {f : Frame} (hf : s.frame s.cursor = some f) :
    ({ s with cursor := s.cursor + 1, lost := s.cursor :: s.lost }).Sound where
  lawful := h.lawful
  announced := h.announced
  cursor := (List.getElem?_eq_some_iff.mp (frame_eq.mp hf)).1
  lost i hi := by
    rcases List.mem_cons.mp hi with rfl | hold
    · exact Nat.lt_succ_self _
    · exact Nat.lt_succ_of_lt (h.lost i hold)
  refused j hj := by
    obtain ⟨hlt, hout⟩ := h.refused j hj
    refine ⟨Nat.lt_succ_of_lt hlt, ?_⟩
    intro hmem
    rcases List.mem_cons.mp hmem with rfl | hold
    · exact Nat.lt_irrefl _ hlt
    · exact hout hold
  fits := h.fits
  covered turn := by
    apply (h.covered turn).imp_right
    rintro ⟨a, hrefused, hcovered⟩
    by_cases habout : s.About s.cursor turn
    · -- the moment before the lost frame is behind all that was refused
      refine ⟨s.cursor, fun j hj _ => (h.refused j hj).1, .inl ?_⟩
      exact ⟨s.cursor, List.mem_cons_self, habout, Nat.le_refl _⟩
    · refine ⟨a, hrefused, ?_⟩
      rcases hcovered with ⟨i, hi, hturn, ha⟩ | hahead
      · exact .inl ⟨i, List.mem_cons_of_mem _ hi, hturn, ha⟩
      · right
        apply hahead.pass (frame_eq.mp hf)
        intro hturn
        exact habout (about_iff.mpr ⟨f, frame_eq.mp hf, hturn⟩)

theorem setTurn (h : s.Sound) {turn : String} {t : RunTurn} (hfits : t.Fits s.actions turn)
    (hcovered : t.hole = true ∨ ∃ a, (∀ j ∈ s.refused, s.About j turn → j < a) ∧
      ((∃ i ∈ s.lost, s.About i turn ∧ a ≤ i) ∨ Ahead s.actions s.cursor turn t.state)) :
    (s.setTurn turn t).Sound where
  lawful := h.lawful
  announced := h.announced
  cursor := h.cursor
  lost := h.lost
  refused := h.refused
  fits turn' := by
    by_cases hturn : turn' = turn
    · subst hturn
      rw [turns_setTurn_self]
      exact hfits
    · rw [turns_setTurn_of_ne hturn]
      exact h.fits turn'
  covered turn' := by
    by_cases hturn : turn' = turn
    · subst hturn
      rw [Covered, turns_setTurn_self]
      exact hcovered
    · rw [Covered, turns_setTurn_of_ne hturn]
      exact h.covered turn'

/-- A turn changed but for its log and its marker. -/
theorem setTurn_same (h : s.Sound) {turn : String} {t : RunTurn} (hfits : t.Fits s.actions turn)
    (hstate : t.state = (s.turns turn).state) (hhole : t.hole = (s.turns turn).hole) :
    (s.setTurn turn t).Sound := by
  apply h.setTurn hfits
  rw [hstate, hhole]
  exact h.covered turn

theorem requestRange_same (t : RunTurn) (after : Option ℕ) :
    (t.requestRange after).state = t.state ∧ (t.requestRange after).hole = t.hole := by
  rw [RunTurn.requestRange]
  split
  · exact ⟨rfl, rfl⟩
  · exact ⟨rfl, rfl⟩

/-- A read is answered, from the log as it is, or fails. -/
theorem answered (h : s.Sound) {turn : String}
    {reply : Option ℕ → Option (List Entry × List OpenEntry)}
    (hreply : ∀ after range, reply after = some range → s.log.turnRange turn after = some range) :
    (s.setTurn turn (s.answer turn reply)).Sound := by
  refine h.setTurn_same ?_ rfl rfl
  have hfits := h.fits turn
  refine ⟨hfits.held, ?_, ?_⟩
  · intro read hread after hafter
    obtain ⟨read', hread', rfl⟩ := Option.map_eq_some_iff.mp hread
    exact hfits.asked read' hread' after hafter
  · intro read hread answer hanswer
    obtain ⟨read', hread', rfl⟩ := Option.map_eq_some_iff.mp hread
    cases hold : read'.answer with
    | some answer' =>
      rw [hold, Option.some_or, Option.some_inj] at hanswer
      subst hanswer
      have hsame := hfits.answered read' hread' answer' hold
      exact ⟨hsame.le, hsame.reply⟩
    | none =>
      rw [hold, Option.none_or, Option.some_inj] at hanswer
      subst hanswer
      refine ⟨Nat.le_refl _, ?_⟩
      intro range hrange
      rw [logAt_length]
      exact hreply read'.afterSeq range hrange

/-- An answer arrives that is behind every frame of its turn. -/
theorem arrives (h : s.Sound) {turn : String} (hunsealed : s.Unsealed (.arrives turn))
    (hfresh : s.Fresh (.arrives turn)) :
    (s.setTurn turn ((s.turns turn).rangeArrives turn)).Sound := by
  have hfits := h.fits turn
  rw [RunTurn.rangeArrives]
  split
  · exact h.setTurn_same hfits rfl rfl
  next read hread =>
  split
  · exact h.setTurn_same hfits rfl rfl
  next answer hanswer =>
  split
  · refine h.setTurn_same ⟨hfits.held, ?_, ?_⟩ rfl rfl
    · intro read' hread'
      cases hread'
    · intro read' hread'
      cases hread'
  next entries tails hreply =>
  have hfound : (s.turns turn).inFlight.bind RangeRead.answer = some answer := by
    rw [hread, Option.bind_some, hanswer]
  have hbehind := hfresh answer hfound (by rw [hreply]; rfl)
  obtain ⟨st, hadopt, hheld, hmore, hcount, hopen⟩ :=
    hfits.adopts h.lawful hread hanswer hreply (by
      intro o ho st hst
      have hturn : o.turn = turn := by
        have htails := ((hfits.answered read hread answer hanswer).range h.lawful hreply).2.1
        rw [htails] at ho
        exact of_decide_eq_true (List.mem_filter.mp ho).2
      apply hunsealed o
      · simp [seats, replied, hfound, hreply, ho]
      · rw [hturn]
        exact hst)
  rw [hadopt]
  have hanswered := hfits.answered read hread answer hanswer
  apply h.setTurn
  · refine ⟨?_, ?_, ?_⟩
    · intro st' hst'
      cases hst'
      have hpos := (hanswered.range h.lawful hreply).2.2
      exact ⟨hheld, List.length_pos_iff.mp (Nat.lt_of_lt_of_le hpos hcount)⟩
    · intro read' hread'
      cases hread'
    · intro read' hread'
      cases hread'
  · right
    refine ⟨answer.taken, ?_, ?_⟩
    · intro j hj habout
      by_contra hlt
      exact (h.refused j hj).2 (hbehind j (h.refused j hj).1 (Nat.le_of_not_lt hlt) habout)
    · by_cases hlost : ∃ i ∈ s.lost, s.About i turn ∧ answer.taken ≤ i
      · exact .inl hlost
      · right
        apply ahead_of_answer h.announced hanswered.le h.cursor hcount hopen
        intro j hj hlt f hf hturn
        have habout : s.About j turn := about_iff.mpr ⟨f, hf, hturn⟩
        exact hlost ⟨j, hbehind j hlt hj habout, habout, hj⟩

theorem step (h : s.Sound) {e : RunLogEvent} (hkept : s.Kept e) : (s.step e).Sound := by
  cases e with
  | server op => exact h.server hkept.minted
  | delivers =>
    simp only [RunLogState.step]
    split
    · next f hf => exact h.delivers hf hkept.unsealed
    · exact h
  | loses =>
    simp only [RunLogState.step]
    split
    · next f hf => exact h.loses hf
    · exact h
  | redelivers i =>
    simp only [RunLogState.step]
    split
    · next f hf =>
      split
      · next hold => exact h.redelivers hf hold.1 hold.2 hkept.unsealed hkept.inOrder
      · exact h
    · exact h
  | asks turn =>
    obtain ⟨hstate, hhole⟩ := requestRange_same (s.turns turn) (s.turns turn).heldSeq
    exact h.setTurn_same (h.fits turn).requestRange hstate hhole
  | answers turn => exact h.answered fun _ _ hreply => hreply
  | fails turn =>
    apply h.answered
    intro _ _ hreply
    cases hreply
  | arrives turn => exact h.arrives hkept.unsealed hkept.fresh

/-- A turn that is not marked and each of whose losses was noticed is at the end of the stream. -/
theorem agrees (h : s.Sound) : s.Agrees where
  held turn st hst := ((h.fits turn).held st hst).1.trueOf h.lawful.history.sound
  settled := by
    intro hcursor turn _ hnoticed
    apply (h.covered turn).imp_right
    rintro ⟨a, hrefused, ⟨i, hi, habout, ha⟩ | hahead⟩
    · obtain ⟨j, hj, hturn, hlt⟩ := hnoticed i hi habout
      have hbefore := hrefused j hj hturn
      omega
    · rw [hcursor] at hahead
      exact hahead.whole (h.fits turn) h.lawful

end Sound

/-- An opened entry is lost, and its delta has the turn read again. -/
def repaired : List RunLogEvent :=
  [.server (.openTurn "t" 0), .delivers, .server (.openEntry "t" "" "s" .text "a"), .loses,
    .server (.extend "t" "" "b"), .delivers, .answers "t", .arrives "t", .server (.seal "t" "" 1),
    .delivers]

/-- The entry is sealed while the answer that has it open is on its way. -/
def overtaken : List RunLogEvent :=
  [.server (.openTurn "t" 0), .delivers, .server (.openEntry "t" "" "s" .text "a"), .loses,
    .server (.extend "t" "" "b"), .delivers, .answers "t", .server (.seal "t" "" 1), .delivers,
    .arrives "t"]

end RunLogState
end Marotte.Transcript.RunLog
