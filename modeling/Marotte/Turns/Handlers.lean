import Marotte.Turns.Exclusion

/-! # The handlers of the wire

The engine's turn_start and turn_end name no turn, so a bracket is matched with the slots it finds.
Each handler runs whole: a finalize's claim, its effects and its finish are one step here. Between
handlers no finalize is running, and the open turns are those of the two slots.
-/
namespace Marotte.Turns
namespace ChatTurns

section Handlers
variable (s : ChatTurns)

/-- The finalize of the turn that an id names. -/
def closeTurn (id : ℕ) : ChatTurns :=
  match s.claimTurn id with
  | (claimed, true) => claimed.finish id
  | (lost, false) => lost

/-- The finalize of the chat's own turn. -/
def closeOwn : ChatTurns :=
  match s.claimOwn with
  | (claimed, some o) => claimed.finish o
  | (lost, none) => lost

/-- The second half of a turn_start, once no lost turn_end stands in its way. -/
def bindOrOpen (appended : Bool) : ChatTurns :=
  match s.bindPending with
  | (bound, ⟨true, _⟩) => bound
  | (unbound, ⟨false, _⟩) => (unbound.openWireTurn appended).1

def wireTurnStart (appended : Bool) : ChatTurns :=
  match s.bindPending with
  | (bound, ⟨true, _⟩) => bound
  | (unbound, ⟨false, some lost⟩) => (unbound.closeTurn lost).bindOrOpen appended
  | (unbound, ⟨false, none⟩) => (unbound.openWireTurn appended).1

def wireTurnEnd : ChatTurns := s.closeOwn

/-- The turn that a frame of the chat's own session folds into; a frame whose turn could not be
opened is dropped. -/
def turnFoldTarget (appended : Bool) : ChatTurns × Option ℕ :=
  match s.foldTarget with
  | some o => (s, some o)
  | none =>
    match s.openWireTurn appended with
    | (s, .opened t) | (s, .joined t) => (s, some t)
    | (s, .parked) | (s, .held) | (s, .failed) => (s, none)

/-- A content frame, that revises the binding first when it is the agent's own. -/
def contentFrame (agentInitiated revised appended : Bool) : ChatTurns × Option ℕ :=
  (if agentInitiated then (s.reviseTurnBinding revised).1 else s).turnFoldTarget appended

/-- In the log, and not closed. -/
def Open (t : ℕ) : Prop := 0 < t ∧ t ≤ s.nextSeq ∧ (s.turns t).closes = 0

end Handlers

variable {s : ChatTurns}

/-! ## Between handlers -/

/-- No finalize of the chat is running. -/
structure Quiet (s : ChatTurns) : Prop where
  sound : s.Sound
  closers : s.closers = []

theorem Quiet.unclaimed (h : s.Quiet) {t : ℕ} (ht : (s.turns t).closes = 0) :
    (s.turns t).finalizing = false := by
  cases hclaimed : (s.turns t).finalizing with
  | false => rfl
  | true =>
    have hmem := (h.sound.closers t).mpr ⟨hclaimed, ht⟩
    rw [h.closers] at hmem
    cases hmem

theorem Quiet.not_finalizing (h : s.Quiet) : s.state ≠ .finalizing := by
  intro hstate
  obtain ⟨o, ho, hclaimed⟩ := h.sound.finalizing.mp hstate
  rw [h.unclaimed (h.sound.own_open o ho).2] at hclaimed
  cases hclaimed

theorem Quiet.own_unclaimed (h : s.Quiet) {o : ℕ} (ho : s.own = some o) :
    (s.turns o).finalizing = false := h.unclaimed (h.sound.own_open o ho).2

theorem Quiet.pending_unclaimed (h : s.Quiet) {p : ℕ} (hp : s.pending = some p) :
    (s.turns p).finalizing = false := h.unclaimed (h.sound.pending_open p hp).2

theorem Quiet.closes_of_live (h : s.Quiet) {t : ℕ} (hlive : s.live t = true) :
    (s.turns t).closes = 0 := by
  rw [live, decide_eq_true_iff] at hlive
  rcases hlive with ho | hp
  · exact (h.sound.own_open t ho).2
  · exact (h.sound.pending_open t hp).2

/-- A finalize from its claim to its finish. -/
def closed (s : ChatTurns) (t : ℕ) : ChatTurns := (s.claimLocked t).finish t

@[grind =] theorem closed_turns (t u : ℕ) :
    (s.closed t).turns u =
      if u = t then
        { s.turns t with
          finalizing := true, claims := (s.turns t).claims + 1, closes := (s.turns t).closes + 1 }
      else s.turns u := by
  rw [closed, finish_turns, claimLocked_turns, claimLocked_turns, if_pos rfl]
  split
  · rfl
  · rfl

@[grind =] theorem closed_own (t : ℕ) :
    (s.closed t).own = if s.own = some t then none else s.own := rfl

@[grind =] theorem closed_pending (t : ℕ) :
    (s.closed t).pending = if s.pending = some t then none else s.pending := rfl

@[grind =] theorem closed_nextSeq (t : ℕ) : (s.closed t).nextSeq = s.nextSeq := rfl

theorem Quiet.closed (h : s.Quiet) {t : ℕ} (hlive : s.live t = true) : (s.closed t).Quiet := by
  have hsound := h.sound.claimLocked hlive (h.unclaimed (h.closes_of_live hlive))
  have hclosers : (s.claimLocked t).closers = [t] := by rw [claimLocked_closers, h.closers]
  constructor
  · apply hsound.finish (by rw [hclosers]; exact List.mem_singleton_self t)
    intro _
    rw [hclosers]
    simp only [List.mem_singleton]
    exact ⟨fun o _ hne => hne, fun _ _ u hu => hu⟩
  · rw [ChatTurns.closed, finish_closers, hclosers, List.erase_cons_head]

theorem Quiet.closeTurn_live (h : s.Quiet) {t : ℕ} (hlive : s.live t = true) :
    s.closeTurn t = s.closed t := by
  have hclaim : s.claimTurn t = (s.claimLocked t, true) := by
    rw [claimTurn, if_neg]
    rw [not_or, not_or, Bool.not_eq_false, Bool.not_eq_true]
    exact ⟨h.not_finalizing, hlive, h.unclaimed (h.closes_of_live hlive)⟩
  rw [closeTurn, hclaim]
  rfl

theorem closeTurn_stale {t : ℕ} (hlive : s.live t = false) : s.closeTurn t = s := by
  rw [closeTurn, claimTurn, if_pos (.inr (.inl hlive))]

theorem live_own {o : ℕ} (ho : s.own = some o) : s.live o = true := decide_eq_true (.inl ho)

theorem Quiet.foldTarget_some (h : s.Quiet) {o : ℕ} (ho : s.own = some o) :
    s.foldTarget = some o := by
  rw [foldTarget, ho, Option.filter_some, h.own_unclaimed ho]
  rfl

theorem foldTarget_none (ho : s.own = none) : s.foldTarget = none := by
  rw [foldTarget, ho]
  rfl

theorem Quiet.closeOwn_some (h : s.Quiet) {o : ℕ} (ho : s.own = some o) :
    s.closeOwn = s.closed o := by
  rw [closeOwn, claimOwn, if_neg h.not_finalizing, h.foldTarget_some ho]
  rfl

theorem closeOwn_none (ho : s.own = none) : s.closeOwn = s := by
  have hclaim : s.claimOwn = (s, none) := by
    rw [claimOwn, foldTarget_none ho]
    exact ite_self _
  rw [closeOwn, hclaim]

/-- The pending turn with its bracket. -/
def bindTo (s : ChatTurns) (p : ℕ) : ChatTurns :=
  { s.setTurn p (fun t => { t with acked := true }) with
      pending := none, own := some p, state := .opened }

@[grind =] theorem bindTo_turns (p u : ℕ) :
    (s.bindTo p).turns u = if u = p then { s.turns p with acked := true } else s.turns u :=
  Function.update_apply ..

@[grind =] theorem bindTo_own (p : ℕ) : (s.bindTo p).own = some p := rfl

@[grind =] theorem bindTo_pending (p : ℕ) : (s.bindTo p).pending = none := rfl

@[grind =] theorem bindTo_nextSeq (p : ℕ) : (s.bindTo p).nextSeq = s.nextSeq := rfl

theorem Quiet.owed_filter (h : s.Quiet) {p : ℕ} (hp : s.pending = some p) :
    (s.pending.filter fun p => ¬ ((s.turns p).acked ∨ (s.turns p).finalizing)) = some p := by
  rw [hp, Option.filter_some, (h.sound.pending_owed p hp).1, h.pending_unclaimed hp]
  rfl

theorem Quiet.bindPending_owed (h : s.Quiet) {p : ℕ} (hp : s.pending = some p)
    (hown : s.own = none ∨ s.own = some p) : s.bindPending = (s.bindTo p, { bound := true }) := by
  rw [bindPending, if_neg h.not_finalizing, h.owed_filter hp]
  dsimp only
  rw [if_neg (fun hne => hown.elim hne.1 hne.2)]
  rfl

theorem Quiet.bindPending_beside (h : s.Quiet) {p o : ℕ} (hp : s.pending = some p)
    (ho : s.own = some o) (hne : o ≠ p) : s.bindPending = (s, { lost := some o }) := by
  rw [bindPending, if_neg h.not_finalizing, h.owed_filter hp]
  dsimp only
  rw [ho, if_pos ⟨Option.some_ne_none o, fun heq => hne (Option.some.inj heq)⟩]

theorem Quiet.bindPending_none (h : s.Quiet) (hp : s.pending = none) :
    s.bindPending = (s, { lost := s.own.filter fun o => (s.turns o).acked }) := by
  rw [bindPending, if_neg h.not_finalizing, hp]
  rfl

/-- The wire's own turn, opened by a bracket or a frame that found none. -/
def wireOpened (s : ChatTurns) : ChatTurns :=
  (s.openLocked .wireTurnStart).setTurn (s.nextSeq + 1) fun t => { t with acked := true }

theorem Quiet.openWireTurn_none (h : s.Quiet) (ho : s.own = none) (appended : Bool) :
    s.openWireTurn appended =
      if appended then (s.wireOpened, .opened (s.nextSeq + 1)) else (s, .failed) := by
  rw [openWireTurn, if_neg h.not_finalizing, ho]
  cases appended <;> rfl

theorem Quiet.openWireTurn_some (h : s.Quiet) {o : ℕ} (ho : s.own = some o) (appended : Bool) :
    s.openWireTurn appended = (s, .joined o) := by
  rw [openWireTurn, if_neg h.not_finalizing, ho]
  dsimp only
  rw [if_neg (Bool.eq_false_iff.mp (h.own_unclaimed ho))]

theorem Quiet.turnFoldTarget_some (h : s.Quiet) {o : ℕ} (ho : s.own = some o) (appended : Bool) :
    s.turnFoldTarget appended = (s, some o) := by
  rw [turnFoldTarget, h.foldTarget_some ho]

theorem Quiet.turnFoldTarget_none (h : s.Quiet) (ho : s.own = none) (appended : Bool) :
    s.turnFoldTarget appended =
      if appended then (s.wireOpened, some (s.nextSeq + 1)) else (s, none) := by
  rw [turnFoldTarget, foldTarget_none ho, h.openWireTurn_none ho]
  cases appended <;> rfl

/-- The prompt's turn owed its bracket again, beside the agent's. -/
def revisedTo (s : ChatTurns) (pre : ℕ) : ChatTurns :=
  { s.wireOpened.setTurn pre fun t => { t with acked := false } with pending := some pre }

theorem Quiet.reviseTurnBinding_some (h : s.Quiet) {pre : ℕ} (hpre : s.revisable = some pre)
    (appended : Bool) : s.reviseTurnBinding appended =
      if appended then (s.revisedTo pre, some (s.nextSeq + 1)) else (s, none) := by
  rw [reviseTurnBinding, if_neg h.not_finalizing, hpre]
  cases appended <;> rfl

theorem Quiet.reviseTurnBinding_none (h : s.Quiet) (hpre : s.revisable = none) (appended : Bool) :
    s.reviseTurnBinding appended = (s, none) := by
  rw [reviseTurnBinding, if_neg h.not_finalizing, hpre]

theorem Quiet.wireTurnStart_owed (h : s.Quiet) {p : ℕ} (hp : s.pending = some p)
    (hown : s.own = none ∨ s.own = some p) (appended : Bool) :
    s.wireTurnStart appended = s.bindTo p := by
  rw [wireTurnStart, h.bindPending_owed hp hown]

theorem Quiet.bindOrOpen_owed (h : s.Quiet) {p : ℕ} (hp : s.pending = some p)
    (hown : s.own = none ∨ s.own = some p) (appended : Bool) :
    s.bindOrOpen appended = s.bindTo p := by
  rw [bindOrOpen, h.bindPending_owed hp hown]

theorem Quiet.bindOrOpen_none (h : s.Quiet) (hp : s.pending = none) (ho : s.own = none)
    (appended : Bool) : s.bindOrOpen appended = if appended then s.wireOpened else s := by
  rw [bindOrOpen, h.bindPending_none hp]
  dsimp only
  rw [h.openWireTurn_none ho]
  cases appended <;> rfl

theorem Quiet.wireTurnStart_beside (h : s.Quiet) {p o : ℕ} (hp : s.pending = some p)
    (ho : s.own = some o) (hne : o ≠ p) (appended : Bool) :
    s.wireTurnStart appended = (s.closed o).bindTo p := by
  rw [wireTurnStart, h.bindPending_beside hp ho hne]
  dsimp only
  rw [h.closeTurn_live (live_own ho)]
  apply (h.closed (live_own ho)).bindOrOpen_owed
  · rw [closed_pending, hp, if_neg (fun heq => hne (Option.some.inj heq).symm)]
  · rw [closed_own, if_pos ho]
    exact .inl rfl

theorem Quiet.wireTurnStart_lost (h : s.Quiet) {o : ℕ} (hp : s.pending = none)
    (ho : s.own = some o) (hacked : (s.turns o).acked = true) (appended : Bool) :
    s.wireTurnStart appended = if appended then (s.closed o).wireOpened else s.closed o := by
  rw [wireTurnStart, h.bindPending_none hp, ho, Option.filter_some, hacked]
  rw [if_pos rfl]
  dsimp only
  rw [h.closeTurn_live (live_own ho)]
  apply (h.closed (live_own ho)).bindOrOpen_none
  · rw [closed_pending, hp]
    rfl
  · rw [closed_own, if_pos ho]

theorem Quiet.wireTurnStart_idle (h : s.Quiet) (hp : s.pending = none) (ho : s.own = none)
    (appended : Bool) : s.wireTurnStart appended = if appended then s.wireOpened else s := by
  rw [wireTurnStart, h.bindPending_none hp, ho]
  dsimp only [Option.filter_none]
  rw [h.openWireTurn_none ho]
  cases appended <;> rfl

@[grind =] theorem wireOpened_turns (u : ℕ) :
    s.wireOpened.turns u =
      if u = s.nextSeq + 1 then { source := .wireTurnStart, acked := true } else s.turns u := by
  rw [wireOpened, setTurn_turns, openLocked_turns, openLocked_turns, if_pos rfl]
  split
  · rfl
  · rfl

@[grind =] theorem wireOpened_own : s.wireOpened.own = some (s.nextSeq + 1) := rfl

@[grind =] theorem wireOpened_pending : s.wireOpened.pending = s.pending := rfl

@[grind =] theorem wireOpened_nextSeq : s.wireOpened.nextSeq = s.nextSeq + 1 := rfl

@[grind =] theorem revisedTo_turns (pre u : ℕ) :
    (s.revisedTo pre).turns u =
      if u = pre then { s.wireOpened.turns pre with acked := false } else s.wireOpened.turns u :=
  Function.update_apply ..

@[grind =] theorem revisedTo_own (pre : ℕ) : (s.revisedTo pre).own = some (s.nextSeq + 1) := rfl

@[grind =] theorem revisedTo_pending (pre : ℕ) : (s.revisedTo pre).pending = some pre := rfl

@[grind =] theorem revisedTo_nextSeq (pre : ℕ) : (s.revisedTo pre).nextSeq = s.nextSeq + 1 := rfl

theorem Quiet.bindTo (h : s.Quiet) {p : ℕ} (hp : s.pending = some p)
    (hown : s.own = none ∨ s.own = some p) : (s.bindTo p).Quiet := by
  have hsound := h.sound.bindPending
  rw [h.bindPending_owed hp hown] at hsound
  exact ⟨hsound, h.closers⟩

theorem Quiet.wireOpened (h : s.Quiet) (ho : s.own = none) : s.wireOpened.Quiet := by
  have hsound := h.sound.openWireTurn true
  rw [h.openWireTurn_none ho, if_pos rfl] at hsound
  exact ⟨hsound, h.closers⟩

theorem Quiet.revisedTo (h : s.Quiet) {pre : ℕ} (hpre : s.revisable = some pre) :
    (s.revisedTo pre).Quiet := by
  have hsound := h.sound.reviseTurnBinding true
  rw [h.reviseTurnBinding_some hpre, if_pos rfl] at hsound
  exact ⟨hsound, h.closers⟩

/-- The open turns are those of the slots, the open prompt is the one in flight, and the own turn
has its bracket or is still owed it. -/
structure Paired (s : ChatTurns) (inFlight : Option ℕ) : Prop where
  quiet : s.Quiet
  slots : ∀ t, s.Open t ↔ s.own = some t ∨ s.pending = some t
  prompts : ∀ t, s.Open t → (s.turns t).source.promptClass = true → inFlight = some t
  owed : ∀ o, s.own = some o → (s.turns o).acked = true ∨ s.pending = some o

variable {inFlight : Option ℕ}

theorem Paired.closed (h : s.Paired inFlight) {t : ℕ} (hlive : s.live t = true) :
    (s.closed t).Paired inFlight := by
  have hcloses := h.quiet.closes_of_live hlive
  have hquiet := h.quiet.closed hlive
  obtain ⟨-, hslots, hprompts, howed⟩ := h
  constructor
  · exact hquiet
  all_goals grind [ChatTurns.Open]

theorem Paired.bindTo (h : s.Paired inFlight) {p : ℕ} (hp : s.pending = some p)
    (hown : s.own = none ∨ s.own = some p) : (s.bindTo p).Paired inFlight := by
  have hquiet := h.quiet.bindTo hp hown
  obtain ⟨-, hslots, hprompts, howed⟩ := h
  constructor
  · exact hquiet
  all_goals grind [ChatTurns.Open]

theorem Paired.wireOpened (h : s.Paired inFlight) (ho : s.own = none) :
    s.wireOpened.Paired inFlight := by
  have hquiet := h.quiet.wireOpened ho
  obtain ⟨hold, hslots, hprompts, howed⟩ := h
  have hpending := hold.sound.pending_open
  constructor
  · exact hquiet
  all_goals grind [ChatTurns.Open, TurnOpenSource.promptClass]

theorem revisable_some {pre : ℕ} (hpre : s.revisable = some pre) :
    s.own = some pre ∧ (s.turns pre).acked = true ∧
      (s.turns pre).source.promptClass = true := by
  rw [revisable, Option.filter_eq_some_iff, decide_eq_true_iff,
    TurnOpenSource.acknowledgeable_eq_promptClass] at hpre
  exact ⟨hpre.1, hpre.2.1, hpre.2.2.1⟩

theorem Paired.revisedTo (h : s.Paired inFlight) {pre : ℕ} (hpre : s.revisable = some pre) :
    (s.revisedTo pre).Paired inFlight := by
  have hquiet := h.quiet.revisedTo hpre
  obtain ⟨ho, hacked, hclass⟩ := revisable_some hpre
  obtain ⟨hold, hslots, hprompts, howed⟩ := h
  have hown := hold.sound.own_open
  have hpend := hold.sound.pending_owed
  constructor
  · exact hquiet
  all_goals grind [ChatTurns.Open, TurnOpenSource.promptClass]

theorem openTurn_refused {source : TurnOpenSource} {appended : Bool}
    (h : ∀ t, (s.openTurn source appended).2 ≠ .opened t) :
    (s.openTurn source appended).1 = s := by
  revert h
  rw [openTurn]
  split
  · exact fun _ => rfl
  · split
    · exact fun _ => rfl
    · split
      · exact fun _ => rfl
      · exact fun h => absurd rfl (h _)

/-- A prompt's turn as it opens. -/
def promptOpened (s : ChatTurns) (source : TurnOpenSource) : ChatTurns :=
  (s.openLocked source).setTurn (s.nextSeq + 1) fun t => { t with holds := t.holds + 1 }

@[grind =] theorem promptOpened_turns (source : TurnOpenSource) (u : ℕ) :
    (s.promptOpened source).turns u =
      if u = s.nextSeq + 1 then { source, holds := 1 } else s.turns u := by
  rw [promptOpened, setTurn_turns, openLocked_turns, openLocked_turns, if_pos rfl]
  split
  · rfl
  · rfl

@[grind =] theorem promptOpened_own (source : TurnOpenSource) :
    (s.promptOpened source).own = (s.openLocked source).own := rfl

@[grind =] theorem promptOpened_pending (source : TurnOpenSource) :
    (s.promptOpened source).pending = (s.openLocked source).pending := rfl

@[grind =] theorem promptOpened_nextSeq (source : TurnOpenSource) :
    (s.promptOpened source).nextSeq = s.nextSeq + 1 := by
  rw [promptOpened, setTurn_nextSeq, openLocked_nextSeq]

theorem Quiet.openTurn_free (h : s.Quiet) {source : TurnOpenSource}
    (hfree : s.slotFreeLocked source = true) (appended : Bool) :
    s.openTurn source appended =
      if appended then (s.promptOpened source, .opened (s.nextSeq + 1)) else (s, .failed) := by
  rw [openTurn, if_neg h.not_finalizing, if_neg (by rw [hfree]; exact Bool.noConfusion)]
  cases appended <;> rfl

theorem Quiet.promptOpened (h : s.Quiet) {source : TurnOpenSource}
    (hfree : s.slotFreeLocked source = true) : (s.promptOpened source).Quiet := by
  have hsound := h.sound.openTurn source true
  rw [h.openTurn_free hfree, if_pos rfl] at hsound
  apply Quiet.mk hsound
  rw [ChatTurns.promptOpened, setTurn_closers, openLocked_closers, h.closers]

/-- Where no prompt is in flight, the slot that a prompt opens in is free. -/
theorem Paired.slotFree (h : s.Paired none) {source : TurnOpenSource}
    (hclass : source.promptClass = true) : s.pending = none ∧ s.slotFreeLocked source = true := by
  have hpending : s.pending = none := by
    cases hp : s.pending with
    | none => rfl
    | some p =>
      have hopen := (h.slots p).mpr (.inr hp)
      have hflight := h.prompts p hopen (h.quiet.sound.pending_owed p hp).2
      cases hflight
  refine ⟨hpending, ?_⟩
  cases source with
  | prompt | emptyRetry => rw [slotFreeLocked, hpending, Option.isNone_none]
  | localShell | wireTurnStart | workflowStep => cases hclass

theorem Paired.promptOpened (h : s.Paired none) {source : TurnOpenSource}
    (hclass : source.promptClass = true) :
    (s.promptOpened source).Paired (some (s.nextSeq + 1)) := by
  have hack : source.acknowledgeable = true := by
    rw [TurnOpenSource.acknowledgeable_eq_promptClass, hclass]
  obtain ⟨hpending, hfree⟩ := h.slotFree hclass
  have hquiet := h.quiet.promptOpened hfree
  obtain ⟨hold, hslots, hprompts, howed⟩ := h
  have hown := hold.sound.own_open
  constructor
  · exact hquiet
  all_goals grind [ChatTurns.Open]

theorem Paired.startTurn (h : s.Paired inFlight) (t : ℕ) : (s.startTurn t).Paired inFlight := by
  have hsound := h.quiet.sound.startTurn t
  have hclosers := h.quiet.closers
  revert hsound
  rw [ChatTurns.startTurn]
  split
  · exact fun _ => h
  · next hlive =>
    rw [not_or, Bool.not_eq_false, live, decide_eq_true_iff] at hlive
    split
    · next hfree =>
      intro hsound
      obtain ⟨-, hslots, hprompts, howed⟩ := h
      constructor
      · exact ⟨hsound, hclosers⟩
      all_goals grind [ChatTurns.Open]
    · exact fun _ => h

theorem Paired.reserved (h : s.Paired inFlight) (r : Option TurnOpenSource) :
    ({ s with reserved := r } : ChatTurns).Paired inFlight where
  quiet := ⟨h.quiet.sound.reserved, h.quiet.closers⟩
  slots := h.slots
  prompts := h.prompts
  owed := h.owed

/-- The prompt in flight settles: its turn is closed if it is still open. -/
theorem Paired.settle {t : ℕ} (h : s.Paired (some t)) : (s.closeTurn t).Paired none := by
  have hshut : ¬ (s.closeTurn t).Open t := by
    cases hlive : s.live t with
    | true =>
      rw [h.quiet.closeTurn_live hlive, ChatTurns.Open, closed_turns, if_pos rfl]
      exact fun hopen => absurd hopen.2.2 (Nat.succ_ne_zero _)
    | false =>
      rw [closeTurn_stale hlive, h.slots]
      rw [live, decide_eq_false_iff_not] at hlive
      exact hlive
  have hpaired : (s.closeTurn t).Paired (some t) := by
    cases hlive : s.live t with
    | true =>
      rw [h.quiet.closeTurn_live hlive]
      exact h.closed hlive
    | false =>
      rw [closeTurn_stale hlive]
      exact h
  constructor
  · exact hpaired.quiet
  · exact hpaired.slots
  · intro u hopen hclass
    have hflight := hpaired.prompts u hopen hclass
    rw [← Option.some.inj hflight] at hopen
    exact absurd hopen hshut
  · exact hpaired.owed

/-- Which of its three cases a turn_start meets. -/
theorem Paired.turnStart_cases (h : s.Paired inFlight) (appended : Bool) :
    (∃ p, s.pending = some p ∧ (s.own = none ∨ s.own = some p) ∧
      s.wireTurnStart appended = s.bindTo p) ∨
    (∃ p o, s.pending = some p ∧ s.own = some o ∧ o ≠ p ∧
      s.wireTurnStart appended = (s.closed o).bindTo p) ∨
    (∃ o, s.pending = none ∧ s.own = some o ∧ (s.turns o).acked = true ∧
      s.wireTurnStart appended = if appended then (s.closed o).wireOpened else s.closed o) ∨
    (s.pending = none ∧ s.own = none ∧
      s.wireTurnStart appended = if appended then s.wireOpened else s) := by
  cases hp : s.pending with
  | some p =>
    by_cases hown : s.own = none ∨ s.own = some p
    · exact .inl ⟨p, rfl, hown, h.quiet.wireTurnStart_owed hp hown appended⟩
    · rw [not_or] at hown
      obtain ⟨o, ho⟩ := Option.ne_none_iff_exists'.mp hown.1
      have hne : o ≠ p := fun heq => hown.2 (by rw [ho, heq])
      exact .inr (.inl ⟨p, o, rfl, ho, hne, h.quiet.wireTurnStart_beside hp ho hne appended⟩)
  | none =>
    cases ho : s.own with
    | some o =>
      have hacked : (s.turns o).acked = true := by
        rcases h.owed o ho with hacked | hpending
        · exact hacked
        · rw [hp] at hpending
          cases hpending
      exact .inr (.inr (.inl ⟨o, rfl, rfl, hacked,
        h.quiet.wireTurnStart_lost hp ho hacked appended⟩))
    | none => exact .inr (.inr (.inr ⟨rfl, rfl, h.quiet.wireTurnStart_idle hp ho appended⟩))

theorem Paired.wireTurnStart (h : s.Paired inFlight) (appended : Bool) :
    (s.wireTurnStart appended).Paired inFlight := by
  rcases h.turnStart_cases appended with ⟨p, hp, hown, heq⟩ | ⟨p, o, hp, ho, hne, heq⟩ |
    ⟨o, hp, ho, -, heq⟩ | ⟨hp, ho, heq⟩
  · rw [heq]
    exact h.bindTo hp hown
  · rw [heq]
    apply (h.closed (live_own ho)).bindTo
    · rw [closed_pending, hp, if_neg (fun heq => hne (Option.some.inj heq).symm)]
    · rw [closed_own, if_pos ho]
      exact .inl rfl
  · rw [heq]
    have hclosed := h.closed (live_own ho)
    cases appended with
    | true => exact hclosed.wireOpened (by rw [closed_own, if_pos ho])
    | false => exact hclosed
  · rw [heq]
    cases appended with
    | true => exact h.wireOpened ho
    | false => exact h

theorem Paired.wireTurnEnd (h : s.Paired inFlight) : s.wireTurnEnd.Paired inFlight := by
  rw [ChatTurns.wireTurnEnd]
  cases ho : s.own with
  | some o =>
    rw [h.quiet.closeOwn_some ho]
    exact h.closed (live_own ho)
  | none =>
    rw [closeOwn_none ho]
    exact h

/-- A frame that revises the binding folds into the agent's turn; every other one folds into the own
turn, or into the turn that it opens. -/
theorem Paired.contentFrame_cases (h : s.Paired inFlight)
    (agentInitiated revised appended : Bool) :
    (∃ pre, agentInitiated = true ∧ revised = true ∧ s.revisable = some pre ∧
      s.contentFrame agentInitiated revised appended =
        (s.revisedTo pre, some (s.nextSeq + 1))) ∨
    (¬ (agentInitiated = true ∧ revised = true ∧ s.revisable ≠ none) ∧
      s.contentFrame agentInitiated revised appended = s.turnFoldTarget appended) := by
  cases agentInitiated with
  | false => exact .inr ⟨fun hall => Bool.noConfusion hall.1, rfl⟩
  | true =>
    cases hpre : s.revisable with
    | none =>
      refine .inr ⟨fun hall => hall.2.2 rfl, ?_⟩
      rw [contentFrame, if_pos rfl, h.quiet.reviseTurnBinding_none hpre]
    | some pre =>
      cases revised with
      | false =>
        refine .inr ⟨fun hall => Bool.noConfusion hall.2.1, ?_⟩
        rw [contentFrame, if_pos rfl, h.quiet.reviseTurnBinding_some hpre]
        rfl
      | true =>
        refine .inl ⟨pre, rfl, rfl, rfl, ?_⟩
        rw [contentFrame, if_pos rfl, h.quiet.reviseTurnBinding_some hpre, if_pos rfl]
        exact (h.quiet.revisedTo hpre).turnFoldTarget_some rfl appended

theorem Paired.turnFoldTarget (h : s.Paired inFlight) (appended : Bool) :
    (s.turnFoldTarget appended).1.Paired inFlight := by
  cases ho : s.own with
  | some o =>
    rw [h.quiet.turnFoldTarget_some ho]
    exact h
  | none =>
    rw [h.quiet.turnFoldTarget_none ho]
    cases appended with
    | true => exact h.wireOpened ho
    | false => exact h

theorem Paired.contentFrame (h : s.Paired inFlight) (agentInitiated revised appended : Bool) :
    (s.contentFrame agentInitiated revised appended).1.Paired inFlight := by
  rcases h.contentFrame_cases agentInitiated revised appended with
    ⟨pre, -, -, hpre, heq⟩ | ⟨-, heq⟩
  · rw [heq]
    exact h.revisedTo hpre
  · rw [heq]
    exact h.turnFoldTarget appended

end ChatTurns
end Marotte.Turns
