import Mathlib.Data.List.Induction
import Marotte.Runs.Bounds

/-! # Executing time

The events of one lease, each taken whole at a time that never goes back. What the bounds bank is
the time the run executed, and every deadline is within the backstop of it.
-/
namespace Marotte.Runs

namespace RunBounds

variable (s : RunBounds) (workflowID : String)

/-- The one transaction of a stamp, with the deadline that it wrote. -/
def stampDeadline (kind : Stamp) (now : Time) : RunBounds × Option Time :=
  match s.leases.get workflowID with
  | none => (s, none)
  | some l =>
    match s.decide workflowID kind l now with
    | (b, none) => (b, none)
    | (b, some deadline) =>
      match b.leases.setDeadline workflowID (some deadline) with
      | none => (b.clearStretch workflowID, none)
      | some leases => ({ b with leases }.setTimerLocked workflowID deadline, some deadline)

/-- Bank what the stretch spent, then park the lease and stop its timer. -/
def disarmDeadline (now : Time) : RunBounds :=
  if (s.leases.get workflowID).any Lease.bounded then
    let s := s.bankExecuted workflowID now
    { s with leases := (s.leases.setDeadline workflowID none).getD s.leases }.stopTimer workflowID
  else s.stopTimer workflowID

def grantIfMissing : RunBounds :=
  if (s.leases.get workflowID).isSome then s
  else { s with leases := s.leases.put workflowID {} }

/-- A re-driven run gets a clean row and a fresh deadline: it is parked at one time and armed at
another. -/
def rearmRetried (parked armed : Time) : RunBounds × Option Time :=
  (((s.clearEnd workflowID).disarmDeadline workflowID parked).grantIfMissing
    workflowID).stampDeadline workflowID .arm armed

end RunBounds

/-- What happens to a lease. Time passes between two events, and between the two halves of a
re-arm. -/
inductive LeaseEvent where
  | tick (elapsed : ℕ)
  | arm | refill | pause | resume
  | rearm (elapsed : ℕ)

/-- The bounds at a time. -/
structure Envelope where
  bounds : RunBounds
  now : Time

namespace Envelope

variable (workflowID : String) (s : Envelope)

/-- An event, with the deadline that it stamped. -/
def take : LeaseEvent → Envelope × Option Time
  | .tick elapsed => ({ s with now := s.now + elapsed }, none)
  | .arm =>
    let stamp := s.bounds.stampDeadline workflowID .arm s.now
    ({ s with bounds := stamp.1 }, stamp.2)
  | .refill =>
    let stamp := s.bounds.stampDeadline workflowID .refill s.now
    ({ s with bounds := stamp.1 }, stamp.2)
  | .pause => ({ s with bounds := s.bounds.disarmDeadline workflowID s.now }, none)
  | .resume =>
    let stamp := (s.bounds.grantIfMissing workflowID).stampDeadline workflowID .arm s.now
    ({ s with bounds := stamp.1 }, stamp.2)
  | .rearm elapsed =>
    let stamp := s.bounds.rearmRetried workflowID s.now (s.now + elapsed)
    ({ bounds := stamp.1, now := s.now + elapsed }, stamp.2)

def step (event : LeaseEvent) : Envelope := (s.take workflowID event).1

/-- The deadline that an event stamps. -/
def stamped (event : LeaseEvent) : Option Time := (s.take workflowID event).2

def run (events : List LeaseEvent) : Envelope := events.foldl (step workflowID) s

def deadline : Option Time := (s.bounds.leases workflowID).bind Lease.deadline

/-- The executing time that the bounds have for the run: what is banked, and the open stretch. -/
def spent : Time :=
  s.bounds.executed workflowID + ((s.bounds.armedAt workflowID).map (s.now - ·)).getD 0

/-- The bounds at the grant of a lease, with nothing banked under its id. -/
def granted (bounds : RunBounds) (slotAt : Option Time) (now : Time) : Envelope where
  bounds := { bounds.clearExecuted workflowID with
    leases := bounds.leases.put workflowID { slotAt } }
  now := now

end Envelope

/-- What the events say of a run, whatever the bounds do: whether it executes, and for how long it
has. -/
structure Stretch where
  executing : Bool := false
  ran : Time := 0

namespace Stretch

def step (c : Stretch) : LeaseEvent → Stretch
  | .tick elapsed => if c.executing then { c with ran := c.ran + elapsed } else c
  | .arm | .resume | .rearm _ => { c with executing := true }
  | .refill => c
  | .pause => { c with executing := false }

def run (c : Stretch) (events : List LeaseEvent) : Stretch := events.foldl step c

end Stretch

/-- The time that a run executes over some events of its lease. -/
def executingTime (events : List LeaseEvent) : Time := (Stretch.run {} events).ran

/-! ## Parked and executing -/

variable {workflowID : String} {s : Envelope} {ran : Time}

theorem nextDeadline_le_backstop {now backstop : Time} {b : Bounds}
    (h : b.backstopAt = some backstop) : nextDeadline now b ≤ backstop := by
  have hclamp : ∀ a b : Time, (if a < b then a else b) ≤ a := by
    intro a b
    split
    · exact Int.le_refl a
    · exact Int.not_lt.mp ‹_›
  simp only [nextDeadline, h]
  exact hclamp backstop _

/-- A parked run has banked all that it ran. -/
structure Parked (workflowID : String) (s : Envelope) (ran : Time) : Prop where
  lease : ∃ slotAt, s.bounds.leases workflowID = some { slotAt, deadline := none }
  closed : s.bounds.armedAt workflowID = none
  banked : s.bounds.executed workflowID = ran

/-- An executing run has a deadline within the backstop of its stretch, and what it banked and its
open stretch are all that it ran. -/
structure Executing (workflowID : String) (s : Envelope) (ran start deadline : Time) : Prop where
  lease : ∃ slotAt, s.bounds.leases workflowID = some { slotAt, deadline := some deadline }
  opened : s.bounds.armedAt workflowID = some start
  banked : s.bounds.executed workflowID + (s.now - start) = ran
  within : deadline ≤ start + (runBackstop - s.bounds.executed workflowID)

namespace RunBounds

variable {b : RunBounds} {now : Time}

theorem stampDeadline_arm_bounded {l : Lease} (hl : b.leases workflowID = some l)
    (hb : l.bounded = true) : b.stampDeadline workflowID .arm now = (b, none) := by
  simp only [stampDeadline, Leases.get, hl, decide, if_pos hb]

theorem stampDeadline_arm {slotAt : Option Time}
    (hl : b.leases workflowID = some { slotAt, deadline := none }) :
    ∃ deadline, deadline ≤ now + (runBackstop - b.executed workflowID) ∧
      (b.stampDeadline workflowID .arm now).2 = some deadline ∧
      (b.stampDeadline workflowID .arm now).1.leases workflowID =
        some { slotAt, deadline := some deadline } ∧
      (b.stampDeadline workflowID .arm now).1.armedAt workflowID = some now ∧
      (b.stampDeadline workflowID .arm now).1.executed = b.executed := by
  simp only [stampDeadline, Leases.get, hl, decide, Lease.bounded, Option.isSome_none,
    Bool.false_eq_true, if_false, Leases.setDeadline, Option.map_some, setTimerLocked]
  refine ⟨_, ?_, rfl, Function.update_self .., Function.update_self .., trivial⟩
  exact nextDeadline_le_backstop rfl

/-- A refill of an executing run stamps within the backstop of its stretch, and nothing earlier
than a deadline that is ahead. -/
theorem stampDeadline_refill {slotAt : Option Time} {start deadline : Time}
    (hl : b.leases workflowID = some { slotAt, deadline := some deadline })
    (hs : b.armedAt workflowID = some start) :
    b.stampDeadline workflowID .refill now = (b, none) ∨
      ∃ next, next ≤ start + (runBackstop - b.executed workflowID) ∧
        (now < deadline → deadline ≤ next) ∧
        (b.stampDeadline workflowID .refill now).2 = some next ∧
        (b.stampDeadline workflowID .refill now).1.leases workflowID =
          some { slotAt, deadline := some next } ∧
        (b.stampDeadline workflowID .refill now).1.armedAt = b.armedAt ∧
        (b.stampDeadline workflowID .refill now).1.executed = b.executed := by
  simp only [stampDeadline, Leases.get, hl, decide, hs, Option.getD_some]
  generalize hnext : nextDeadline now (b.runBoundsLocked workflowID _ start) = next
  have hle : next ≤ start + (runBackstop - b.executed workflowID) := by
    rw [← hnext]
    exact nextDeadline_le_backstop rfl
  by_cases hskip : now < deadline ∧ next ≤ deadline + refillGranularity
  · rw [if_pos hskip]
    exact .inl rfl
  · rw [if_neg hskip]
    simp only [Leases.setDeadline, hl, Option.map_some, setTimerLocked]
    refine .inr ⟨next, hle, ?_, rfl, Function.update_self .., trivial, trivial⟩
    intro hlt
    have hgran : (0 : Time) ≤ refillGranularity := by decide
    by_contra hback
    exact hskip ⟨hlt, by lia⟩

theorem disarmDeadline_parked {slotAt : Option Time}
    (hl : b.leases workflowID = some { slotAt, deadline := none }) :
    b.disarmDeadline workflowID now = b.stopTimer workflowID := by
  simp only [disarmDeadline, Leases.get, hl, Option.any_some, Lease.bounded, Option.isSome_none,
    Bool.false_eq_true, if_false]

theorem disarmDeadline_executing {slotAt : Option Time} {start deadline : Time}
    (hl : b.leases workflowID = some { slotAt, deadline := some deadline })
    (hs : b.armedAt workflowID = some start) :
    (b.disarmDeadline workflowID now).leases workflowID = some { slotAt, deadline := none } ∧
      (b.disarmDeadline workflowID now).armedAt workflowID = none ∧
      (b.disarmDeadline workflowID now).executed workflowID =
        b.executed workflowID + (now - start) := by
  simp only [disarmDeadline, Leases.get, hl, Option.any_some, Lease.bounded, Option.isSome_some,
    if_true, bankExecuted, hs, Leases.setDeadline, Option.map_some, Option.getD_some, stopTimer]
  exact ⟨Function.update_self .., Function.update_self .., Function.update_self ..⟩

theorem clearEnd_stretch (b : RunBounds) (workflowID : String) :
    (b.clearEnd workflowID).leases = b.leases ∧ (b.clearEnd workflowID).armedAt = b.armedAt ∧
      (b.clearEnd workflowID).executed = b.executed := by
  simp only [clearEnd]
  split
  · exact ⟨rfl, rfl, rfl⟩
  · exact ⟨rfl, rfl, rfl⟩

theorem grantIfMissing_held {l : Lease} (hl : b.leases workflowID = some l) :
    b.grantIfMissing workflowID = b := by
  simp only [grantIfMissing, Leases.get, hl, Option.isSome_some, if_true]

end RunBounds

namespace Parked

/-- A parked run that is armed executes from now on, over no fresh backstop. -/
theorem arm (h : Parked workflowID s ran) : ∃ deadline,
    (s.bounds.stampDeadline workflowID .arm s.now).2 = some deadline ∧
      Executing workflowID { s with bounds := (s.bounds.stampDeadline workflowID .arm s.now).1 }
        ran s.now deadline := by
  obtain ⟨slotAt, hl⟩ := h.lease
  obtain ⟨deadline, hle, hsome, hlease, harmed, hexec⟩ := @RunBounds.stampDeadline_arm _ _ s.now _ hl
  refine ⟨deadline, hsome, ⟨slotAt, hlease⟩, harmed, ?_, ?_⟩
  · simp only [hexec, h.banked]
    lia
  · simp only [hexec]
    exact hle

theorem refill (h : Parked workflowID s ran) :
    s.bounds.stampDeadline workflowID .refill s.now = (s.bounds, none) := by
  obtain ⟨slotAt, hl⟩ := h.lease
  simp only [RunBounds.stampDeadline, Leases.get, hl, RunBounds.decide]

theorem pause (h : Parked workflowID s ran) : Parked workflowID
    { s with bounds := s.bounds.disarmDeadline workflowID s.now } ran := by
  obtain ⟨slotAt, hl⟩ := h.lease
  rw [RunBounds.disarmDeadline_parked hl]
  exact ⟨⟨slotAt, hl⟩, h.closed, h.banked⟩

theorem later (h : Parked workflowID s ran) (now : Time) :
    Parked workflowID { s with now } ran := ⟨h.lease, h.closed, h.banked⟩

end Parked

namespace Executing

variable {start deadline : Time}

theorem arm (h : Executing workflowID s ran start deadline) :
    s.bounds.stampDeadline workflowID .arm s.now = (s.bounds, none) := by
  obtain ⟨slotAt, hl⟩ := h.lease
  exact RunBounds.stampDeadline_arm_bounded hl rfl

theorem pause (h : Executing workflowID s ran start deadline) : Parked workflowID
    { s with bounds := s.bounds.disarmDeadline workflowID s.now } ran := by
  obtain ⟨slotAt, hl⟩ := h.lease
  obtain ⟨hlease, harmed, hexec⟩ := @RunBounds.disarmDeadline_executing _ _ s.now _ _ _ hl h.opened
  exact ⟨⟨slotAt, hlease⟩, harmed, hexec.trans h.banked⟩

theorem later (h : Executing workflowID s ran start deadline) (elapsed : ℕ) :
    Executing workflowID { s with now := s.now + elapsed } (ran + elapsed) start deadline := by
  refine ⟨h.lease, h.opened, ?_, h.within⟩
  have hbanked := h.banked
  simp only
  lia

/-- A refill stamps nothing, or a deadline within the backstop and no earlier than one ahead. -/
theorem refill (h : Executing workflowID s ran start deadline) :
    s.bounds.stampDeadline workflowID .refill s.now = (s.bounds, none) ∨ ∃ next,
      (s.now < deadline → deadline ≤ next) ∧
      (s.bounds.stampDeadline workflowID .refill s.now).2 = some next ∧
      Executing workflowID { s with bounds := (s.bounds.stampDeadline workflowID .refill s.now).1 }
        ran start next := by
  obtain ⟨slotAt, hl⟩ := h.lease
  rcases @RunBounds.stampDeadline_refill _ _ s.now _ _ _ hl h.opened with
    hsame | ⟨next, hle, hahead, hsome, hlease, harmed, hexec⟩
  · exact .inl hsame
  · refine .inr ⟨next, hahead, hsome, ⟨slotAt, hlease⟩, ?_, ?_, ?_⟩
    · rw [harmed]
      exact h.opened
    · rw [hexec]
      exact h.banked
    · rw [hexec]
      exact hle

theorem deadline_eq (h : Executing workflowID s ran start deadline) :
    s.deadline workflowID = some deadline := by
  obtain ⟨slotAt, hl⟩ := h.lease
  rw [Envelope.deadline, hl]
  rfl

theorem spent_eq (h : Executing workflowID s ran start deadline) : s.spent workflowID = ran := by
  rw [Envelope.spent, h.opened]
  exact h.banked

end Executing

theorem Parked.deadline_eq (h : Parked workflowID s ran) : s.deadline workflowID = none := by
  obtain ⟨slotAt, hl⟩ := h.lease
  rw [Envelope.deadline, hl]
  rfl

theorem Parked.spent_eq (h : Parked workflowID s ran) : s.spent workflowID = ran := by
  rw [Envelope.spent, h.closed, h.banked]
  exact Int.add_zero ran

/-! ## The account of a lease -/

/-- The bounds agree with what the events say of the run. -/
def Accounted (workflowID : String) (s : Envelope) (c : Stretch) : Prop :=
  if c.executing then ∃ start deadline, Executing workflowID s c.ran start deadline
  else Parked workflowID s c.ran

namespace Accounted

variable {c : Stretch}

theorem executing (hc : c.executing = true) : Accounted workflowID s c ↔
    ∃ start deadline, Executing workflowID s c.ran start deadline := by
  rw [Accounted, if_pos hc]

theorem parked (hc : c.executing = false) :
    Accounted workflowID s c ↔ Parked workflowID s c.ran := by
  rw [Accounted, hc]
  exact Iff.rfl

theorem spent_eq (h : Accounted workflowID s c) : s.spent workflowID = c.ran := by
  cases hc : c.executing with
  | true =>
    obtain ⟨start, deadline, he⟩ := (executing hc).mp h
    exact he.spent_eq
  | false => exact ((parked hc).mp h).spent_eq

/-- A deadline that stands is within the backstop of its stretch. -/
theorem standing (h : Accounted workflowID s c) {deadline : Time}
    (hd : s.deadline workflowID = some deadline) :
    ∃ start, Executing workflowID s c.ran start deadline := by
  cases hc : c.executing with
  | true =>
    obtain ⟨start, deadline', he⟩ := (executing hc).mp h
    rw [he.deadline_eq, Option.some_inj] at hd
    exact ⟨start, hd ▸ he⟩
  | false =>
    rw [((parked hc).mp h).deadline_eq] at hd
    cases hd

theorem pause (h : Accounted workflowID s c) : Parked workflowID
    { s with bounds := s.bounds.disarmDeadline workflowID s.now } c.ran := by
  cases hc : c.executing with
  | true =>
    obtain ⟨start, deadline, he⟩ := (executing hc).mp h
    exact he.pause
  | false => exact ((parked hc).mp h).pause

theorem lease (h : Accounted workflowID s c) : ∃ l, s.bounds.leases workflowID = some l := by
  cases hc : c.executing with
  | true =>
    obtain ⟨start, deadline, he⟩ := (executing hc).mp h
    exact ⟨_, he.lease.choose_spec⟩
  | false => exact ⟨_, ((parked hc).mp h).lease.choose_spec⟩

/-- An arm, by whatever event: the deadline it stamps is the one that stands after it. -/
theorem arm (h : Accounted workflowID s c) :
    Accounted workflowID { s with bounds := (s.bounds.stampDeadline workflowID .arm s.now).1 }
        { c with executing := true } ∧
      ∀ deadline, (s.bounds.stampDeadline workflowID .arm s.now).2 = some deadline →
        Envelope.deadline workflowID
          { s with bounds := (s.bounds.stampDeadline workflowID .arm s.now).1 } = some deadline := by
  cases hc : c.executing with
  | true =>
    obtain ⟨start, deadline, he⟩ := (executing hc).mp h
    rw [he.arm]
    exact ⟨(executing rfl).mpr ⟨start, deadline, he⟩, nofun⟩
  | false =>
    obtain ⟨deadline, hsome, he⟩ := ((parked hc).mp h).arm
    refine ⟨(executing rfl).mpr ⟨s.now, deadline, he⟩, ?_⟩
    intro d hd
    rw [he.deadline_eq, ← hsome, hd]

/-- One event: the account goes on, and a deadline that it stamps is the one that stands. -/
theorem take (h : Accounted workflowID s c) (event : LeaseEvent) :
    Accounted workflowID (s.step workflowID event) (c.step event) ∧
      ∀ deadline, s.stamped workflowID event = some deadline →
        (s.step workflowID event).deadline workflowID = some deadline := by
  cases event with
  | tick elapsed =>
    refine ⟨?_, nofun⟩
    cases hc : c.executing with
    | true =>
      obtain ⟨start, deadline, he⟩ := (executing hc).mp h
      rw [Stretch.step, if_pos hc]
      exact (executing (c := { c with ran := c.ran + elapsed }) hc).mpr
        ⟨start, deadline, he.later elapsed⟩
    | false =>
      rw [Stretch.step, if_neg (by simp [hc]), parked hc]
      exact ((parked hc).mp h).later _
  | arm => exact h.arm
  | resume =>
    obtain ⟨l, hl⟩ := h.lease
    simp only [Envelope.step, Envelope.stamped, Envelope.take,
      RunBounds.grantIfMissing_held hl]
    exact h.arm
  | refill =>
    simp only [Envelope.step, Envelope.stamped, Envelope.take]
    cases hc : c.executing with
    | true =>
      obtain ⟨start, deadline, he⟩ := (executing hc).mp h
      rcases he.refill with hsame | ⟨next, -, hsome, he'⟩
      · rw [hsame]
        exact ⟨h, nofun⟩
      · refine ⟨(executing hc).mpr ⟨start, next, he'⟩, ?_⟩
        intro d hd
        rw [he'.deadline_eq, ← hsome, hd]
    | false =>
      rw [((parked hc).mp h).refill]
      exact ⟨h, nofun⟩
  | pause => exact ⟨(parked rfl).mpr h.pause, nofun⟩
  | rearm elapsed =>
    obtain ⟨hleases, harmed, hexec⟩ := RunBounds.clearEnd_stretch s.bounds workflowID
    -- the row is cleared first, which leaves the stretch as it is
    have hcleared : Accounted workflowID { s with bounds := s.bounds.clearEnd workflowID } c := by
      cases hc : c.executing with
      | true =>
        obtain ⟨start, deadline, he⟩ := (executing hc).mp h
        rw [executing hc]
        refine ⟨start, deadline, ?_, ?_, ?_, ?_⟩
        · rw [hleases]
          exact he.lease
        · rw [harmed]
          exact he.opened
        · rw [hexec]
          exact he.banked
        · rw [hexec]
          exact he.within
      | false =>
        have hp := (parked hc).mp h
        rw [parked hc]
        refine ⟨?_, ?_, ?_⟩
        · rw [hleases]
          exact hp.lease
        · rw [harmed]
          exact hp.closed
        · rw [hexec]
          exact hp.banked
    have hparked := hcleared.pause.later (s.now + elapsed)
    obtain ⟨slotAt, hl⟩ := hparked.lease
    have hagain : Accounted workflowID
        { bounds := (s.bounds.clearEnd workflowID).disarmDeadline workflowID s.now,
          now := s.now + elapsed } { c with executing := false } := (parked rfl).mpr hparked
    simp only [Envelope.step, Envelope.stamped, Envelope.take, RunBounds.rearmRetried,
      RunBounds.grantIfMissing_held hl]
    exact hagain.arm

theorem run (h : Accounted workflowID s c) (events : List LeaseEvent) :
    Accounted workflowID (s.run workflowID events) (c.run events) := by
  induction events generalizing s c with
  | nil => exact h
  | cons event events ih => exact ih (h.take event).1

theorem granted (bounds : RunBounds) (slotAt : Option Time) (now : Time) :
    Accounted workflowID (Envelope.granted workflowID bounds slotAt now) {} := by
  rw [parked rfl]
  exact ⟨⟨slotAt, Function.update_self ..⟩, Function.update_self .., Function.update_self ..⟩

end Accounted

namespace Stretch

variable (c : Stretch)

theorem ran_le_step (event : LeaseEvent) : c.ran ≤ (c.step event).ran := by
  cases event with
  | tick elapsed =>
    rw [step]
    split
    · simp only
      lia
    · exact Int.le_refl _
  | arm | refill | pause | resume | rearm _ => exact Int.le_refl _

theorem ran_le_run (events : List LeaseEvent) : c.ran ≤ (c.run events).ran := by
  induction events generalizing c with
  | nil => exact Int.le_refl _
  | cons event events ih => exact Int.le_trans (c.ran_le_step event) (ih (c.step event))

/-- Only a run that goes on executing has executed for longer. -/
theorem ran_step (event : LeaseEvent) (h : (c.step event).executing = false) :
    (c.step event).ran = c.ran := by
  cases event with
  | tick elapsed =>
    rw [step] at h ⊢
    split
    · next hc =>
      rw [if_pos hc, hc] at h
      cases h
    · rfl
  | arm | refill | pause | resume | rearm _ => rfl

end Stretch

theorem Executing.expiry {start deadline : Time} (h : Executing workflowID s ran start deadline) :
    ran + (deadline - s.now) ≤ runBackstop := by
  have hbanked := h.banked
  have hwithin := h.within
  lia

/-- Before any deadline passes, a run has executed for no longer than the backstop. -/
theorem Accounted.within {c : Stretch} (h : Accounted workflowID s c) (hran : c.ran ≤ runBackstop)
    (events : List LeaseEvent)
    (hahead : ∀ before, before <+: events → ∀ deadline,
      (s.run workflowID before).deadline workflowID = some deadline →
      (s.run workflowID before).now ≤ deadline) : (c.run events).ran ≤ runBackstop := by
  induction events using List.reverseRecOn with
  | nil => exact hran
  | append_singleton events event ih =>
    have hbefore := ih fun before hpre => hahead before (hpre.trans (List.prefix_append _ _))
    have hafter := h.run (events ++ [event])
    have hstep : c.run (events ++ [event]) = (c.run events).step event := by
      rw [Stretch.run, Stretch.run, List.foldl_append]
      rfl
    cases hc : (c.run (events ++ [event])).executing with
    | true =>
      obtain ⟨start, deadline, he⟩ := (Accounted.executing hc).mp hafter
      have hle := hahead _ List.prefix_rfl deadline he.deadline_eq
      have hexpiry := he.expiry
      lia
    | false =>
      rw [hstep] at hc ⊢
      rw [Stretch.ran_step _ event hc]
      exact hbefore

/-- What is promised of the events of one lease, in every state that they reach. -/
structure ExecutionBounded (workflowID : String) (granted : Envelope) (events : List LeaseEvent) :
    Prop where
  /-- A stamped deadline is within what is left of the backstop when its stretch begins. -/
  stamped : ∀ event deadline,
    (granted.run workflowID events).stamped workflowID event = some deadline →
    ∃ start, ((granted.run workflowID events).step workflowID event).bounds.armedAt workflowID =
      some start ∧ deadline ≤ start + (runBackstop -
        ((granted.run workflowID events).step workflowID event).bounds.executed workflowID)
  /-- At the expiry of the standing deadline the run will have executed within the backstop. -/
  expiry : ∀ deadline, (granted.run workflowID events).deadline workflowID = some deadline →
    executingTime events + (deadline - (granted.run workflowID events).now) ≤ runBackstop
  within : (∀ before, before <+: events → ∀ deadline,
      (granted.run workflowID before).deadline workflowID = some deadline →
      (granted.run workflowID before).now ≤ deadline) → executingTime events ≤ runBackstop
  /-- What the bounds have spent is the time that the run executed, across any pause. -/
  banked : (granted.run workflowID events).spent workflowID = executingTime events
  resumed : ∀ elapsed, ((granted.run workflowID events).run workflowID
      [.pause, .tick elapsed, .resume]).spent workflowID =
    (granted.run workflowID events).spent workflowID
  refilled : ∀ deadline, (granted.run workflowID events).deadline workflowID = some deadline →
    (granted.run workflowID events).now < deadline →
    ∃ next, ((granted.run workflowID events).step workflowID .refill).deadline workflowID =
      some next ∧ deadline ≤ next
  standing : (granted.run workflowID events).bounds.backstopSpent workflowID
      (granted.run workflowID events).now = true →
    ∀ later event deadline,
      ((granted.run workflowID events).run workflowID later).stamped workflowID event =
        some deadline →
      deadline ≤ (((granted.run workflowID events).run workflowID later).step workflowID event).now

theorem executing_time_bounded (workflowID : String) (bounds : RunBounds) (slotAt : Option Time)
    (now : Time) (events : List LeaseEvent) :
    ExecutionBounded workflowID (Envelope.granted workflowID bounds slotAt now) events := by
  have hgranted := @Accounted.granted workflowID bounds slotAt now
  have hrun := hgranted.run events
  generalize Envelope.granted workflowID bounds slotAt now = granted at hgranted hrun ⊢
  have hstanding : ∀ {s : Envelope} {c : Stretch}, Accounted workflowID s c → ∀ event deadline,
      s.stamped workflowID event = some deadline →
      ∃ start, Executing workflowID (s.step workflowID event) (c.step event).ran start deadline := by
    intro s c h event deadline hd
    obtain ⟨hafter, hstands⟩ := h.take event
    exact hafter.standing (hstands deadline hd)
  constructor
  · intro event deadline hd
    obtain ⟨start, he⟩ := hstanding hrun event deadline hd
    exact ⟨start, he.opened, he.within⟩
  · intro deadline hd
    obtain ⟨start, he⟩ := hrun.standing hd
    exact he.expiry
  · exact hgranted.within (by decide) events
  · exact hrun.spent_eq
  · intro elapsed
    have hpaused := hrun.run [.pause, .tick elapsed, .resume]
    rw [hpaused.spent_eq, hrun.spent_eq]
    rfl
  · intro deadline hd hlt
    obtain ⟨start, he⟩ := hrun.standing hd
    rcases he.refill with hsame | ⟨next, hahead, -, he'⟩
    · refine ⟨deadline, ?_, Int.le_refl _⟩
      simp only [Envelope.step, Envelope.take, hsame]
      exact hd
    · exact ⟨next, he'.deadline_eq, hahead hlt⟩
  · intro hspent later event deadline hd
    have hlater := hrun.run later
    obtain ⟨start, he⟩ := hstanding hlater event deadline hd
    have hran := Int.le_trans (Stretch.ran_le_run (Stretch.run {} events) later)
      (Stretch.ran_le_step _ event)
    have hover : runBackstop ≤ (granted.run workflowID events).spent workflowID :=
      of_decide_eq_true hspent
    rw [hrun.spent_eq] at hover
    have hexpiry := he.expiry
    lia

/-- A run that is refilled up to its backstop, parked for a week and resumed. -/
def marathon : List LeaseEvent :=
  [.arm] ++ (List.replicate 215 [.tick (10 * 60 * 10 ^ 9), .refill]).flatten ++
    [.pause, .tick (7 * 24 * 3600 * 10 ^ 9), .resume]

example : ((Envelope.granted "r" {} none 0).run "r" marathon).deadline "r" =
    some (((Envelope.granted "r" {} none 0).run "r" marathon).now + 10 * minute) := by
  decide +kernel

end Marotte.Runs
