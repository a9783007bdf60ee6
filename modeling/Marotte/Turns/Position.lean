import Mathlib.Logic.Function.Basic
import Marotte.Library.Along

/-! # The position that a settle waits for

Every bridge numbers its frames from one, and one forward goroutine for each attachment consumes
them in order. A prompt's response carries the number of frames before it, and its settle waits
until the chat's observed position is there.
-/
namespace Marotte.Turns

/-- What the chat's lifecycle holds of the forward goroutines. `changed` numbers the channel that
the next wake closes: the channels before it are closed. -/
structure Lifecycle where
  fwdGen : ℕ := 0
  observedSeq : ℕ := 0
  forwardGone : Bool := false
  changed : ℕ := 0
  deriving DecidableEq

/-- Where a wait is: its position is minted, it is parked on a channel under the generation that it
read, or it answered. -/
inductive Phase where
  | minted
  | parked (gen channel : ℕ)
  | answered (reached : Bool)
  deriving DecidableEq

namespace Lifecycle

variable (lc : Lifecycle)

def wakeLocked : Lifecycle := { lc with changed := lc.changed + 1 }

/-- A new bridge restarts its sequence at zero, under the next generation. -/
def attachForward : Lifecycle :=
  { lc with fwdGen := lc.fwdGen + 1, observedSeq := 0, forwardGone := false }.wakeLocked

/-- The folder reached a position; a straggler's generation is ignored. -/
def observe (gen seq : ℕ) : Lifecycle :=
  if gen ≠ lc.fwdGen ∨ seq ≤ lc.observedSeq then lc else { lc with observedSeq := seq }.wakeLocked

def sealPosition (gen : ℕ) : Lifecycle :=
  if gen ≠ lc.fwdGen then lc else { lc with forwardGone := true }.wakeLocked

/-- One hold of the mutex by a wait: it answers, or parks on the channel of the moment. -/
def awaitPosition (gen seq : ℕ) : Phase :=
  if seq ≤ lc.observedSeq then .answered true
  else if lc.forwardGone ∨ lc.fwdGen ≠ gen then .answered false
  else .parked gen lc.changed

end Lifecycle

/-- One attachment: the frames its bridge delivered, those its goroutine consumed, and the
position that the goroutine reported last. -/
structure Forward where
  delivered : ℕ := 0
  consumed : ℕ := 0
  observed : ℕ := 0
  exited : Bool := false

/-- A settle: the attachment its response arrived on, the position it carries, and its wait. -/
structure Settle where
  attachment : ℕ
  seq : ℕ
  phase : Phase := .minted

structure Forwarding where
  lc : Lifecycle := {}
  forwards : ℕ → Forward := fun _ => {}
  settles : ℕ → Option Settle := fun _ => none

inductive ForwardEvent where
  | attach
  | deliver (gen : ℕ)
  | consume (gen : ℕ)
  | observe (gen : ℕ)
  | exit (gen : ℕ)
  | respond (gen settle : ℕ)
  | await (settle : ℕ)
  | wake (settle : ℕ)
  | cancel (settle : ℕ)

namespace Forwarding

variable (s : Forwarding)

def setForward (gen : ℕ) (f : Forward) : Forwarding :=
  { s with forwards := Function.update s.forwards gen f }

def setSettle (id : ℕ) (w : Settle) : Forwarding :=
  { s with settles := Function.update s.settles id (some w) }

/-- A bridge is attached and its goroutine runs. -/
def running (gen : ℕ) : Bool := 0 < gen ∧ gen ≤ s.lc.fwdGen ∧ (s.forwards gen).exited = false

def step : ForwardEvent → Forwarding
  | .attach => { s with lc := s.lc.attachForward }
  | .deliver gen =>
    let f := s.forwards gen
    if s.running gen then s.setForward gen { f with delivered := f.delivered + 1 } else s
  | .consume gen =>
    let f := s.forwards gen
    if s.running gen ∧ f.observed = f.consumed ∧ f.consumed < f.delivered then
      s.setForward gen { f with consumed := f.consumed + 1 }
    else s
  -- the deferred half of a consumed frame
  | .observe gen =>
    let f := s.forwards gen
    if s.running gen ∧ f.observed < f.consumed then
      { s.setForward gen { f with observed := f.consumed } with
        lc := s.lc.observe gen f.consumed }
    else s
  | .exit gen =>
    let f := s.forwards gen
    if s.running gen ∧ f.observed = f.consumed then
      { s.setForward gen { f with exited := true } with lc := s.lc.sealPosition gen }
    else s
  | .respond gen id =>
    if s.running gen ∧ (s.settles id).isNone then
      s.setSettle id { attachment := gen, seq := (s.forwards gen).delivered }
    else s
  | .await id =>
    match s.settles id with
    | some { attachment, seq, phase := .minted } =>
      s.setSettle id { attachment, seq, phase := s.lc.awaitPosition s.lc.fwdGen seq }
    | _ => s
  | .wake id =>
    match s.settles id with
    | some { attachment, seq, phase := .parked gen channel } =>
      if channel < s.lc.changed then
        s.setSettle id { attachment, seq, phase := s.lc.awaitPosition gen seq }
      else s
    | _ => s
  | .cancel id =>
    match s.settles id with
    | some { attachment, seq, phase := .parked .. } =>
      s.setSettle id { attachment, seq, phase := .answered false }
    | _ => s

def run (events : List ForwardEvent) : Forwarding := runFrom step {} events

/-! ## What a settle may take for an answer -/

/-- The goroutine that a position was minted on has consumed every frame up to it. -/
def Consumed (w : Settle) : Prop := w.seq ≤ (s.forwards w.attachment).consumed

/-- The attachment was replaced, or its goroutine exited, short of the position. -/
def Short (w : Settle) : Prop :=
  (w.attachment ≠ s.lc.fwdGen ∨ (s.forwards w.attachment).exited = true) ∧ ¬ s.Consumed w

instance (w : Settle) : Decidable (s.Consumed w) := inferInstanceAs (Decidable (_ ≤ _))

instance (w : Settle) : Decidable (s.Short w) := inferInstanceAs (Decidable (_ ∧ _))

/-- A wait begins on the attachment of its position, and reads the registry no later than a newer
attachment reaches the position, unless its goroutine has consumed every frame up to it. -/
def Timely : ForwardEvent → Prop
  | .await id => ∀ w ∈ s.settles id, w.phase = .minted → s.Consumed w ∨
      w.attachment = s.lc.fwdGen ∨ (s.lc.forwardGone = true ∧ s.lc.observedSeq < w.seq)
  | .wake id => ∀ w ∈ s.settles id, s.Consumed w ∨
      w.attachment = s.lc.fwdGen ∨ s.lc.observedSeq < w.seq
  | _ => True

instance (e : ForwardEvent) : Decidable (s.Timely e) :=
  match e with
  | .await id => inferInstanceAs (Decidable (∀ w ∈ s.settles id, w.phase = .minted →
      s.Consumed w ∨ w.attachment = s.lc.fwdGen ∨
        (s.lc.forwardGone = true ∧ s.lc.observedSeq < w.seq)))
  | .wake id => inferInstanceAs (Decidable (∀ w ∈ s.settles id, s.Consumed w ∨
      w.attachment = s.lc.fwdGen ∨ s.lc.observedSeq < w.seq))
  | .attach | .deliver _ | .consume _ | .observe _ | .exit _ | .respond .. | .cancel _ =>
    isTrue trivial

/-- A wait that reads the registry in a step: it begins, or it was woken. -/
def Reads (id : ℕ) (w : Settle) : ForwardEvent → Prop
  | .await id' => id' = id ∧ s.settles id = some w ∧ w.phase = .minted
  | .wake id' => id' = id ∧ s.settles id = some w ∧
      ∃ gen channel, w.phase = .parked gen channel ∧ channel < s.lc.changed
  | _ => False

/-- What a settle is promised in a state: an answer of true is true, a wait that is short of its
position for good is woken, and answers false when it reads the registry. -/
structure Settles (s : Forwarding) : Prop where
  reached : ∀ id w, s.settles id = some w → w.phase = .answered true → s.Consumed w
  woken : ∀ id w gen channel, s.settles id = some w → w.phase = .parked gen channel →
    s.Short w → channel < s.lc.changed
  refused : ∀ id w event, s.Timely event → s.Reads id w event → s.Short w →
    (s.step event).settles id = some { w with phase := .answered false }

/-! ## The invariant -/

/-- What a wait's phase says of the registry. -/
def Phased (s : Forwarding) (w : Settle) : Phase → Prop
  | .minted => True
  | .parked gen channel => (s.Consumed w ∨ w.attachment = gen) ∧ channel ≤ s.lc.changed ∧
      (channel = s.lc.changed →
        gen = s.lc.fwdGen ∧ s.lc.forwardGone = false ∧ s.lc.observedSeq < w.seq)
  | .answered reached => reached = true → s.Consumed w

structure Sound (s : Forwarding) : Prop where
  current : s.lc.observedSeq = (s.forwards s.lc.fwdGen).observed
  gone : s.lc.forwardGone = (s.forwards s.lc.fwdGen).exited
  behind : ∀ gen, (s.forwards gen).observed ≤ (s.forwards gen).consumed
  fresh : ∀ gen, s.lc.fwdGen < gen → s.forwards gen = {}
  phased : ∀ id w, s.settles id = some w → s.Phased w w.phase

variable {s}

theorem sound_empty : Sound {} where
  current := rfl
  gone := rfl
  behind _ := Nat.le_refl _
  fresh _ _ := rfl
  phased := nofun

/-- The registry moved on and woke every wait, and no goroutine lost a frame. -/
theorem Phased.woken {s' : Forwarding} {w : Settle} {phase : Phase} (h : s.Phased w phase)
    (hc : s.Consumed w → s'.Consumed w) (hlt : s.lc.changed < s'.lc.changed) :
    s'.Phased w phase := by
  cases phase with
  | minted => trivial
  | parked gen channel =>
    obtain ⟨hgen, hle, -⟩ := h
    exact ⟨hgen.imp_left hc, by omega, fun heq => by omega⟩
  | answered reached => exact fun hr => hc (h hr)

/-- The registry is as it was, and no goroutine lost a frame. -/
theorem Phased.same {s' : Forwarding} {w : Settle} {phase : Phase} (h : s.Phased w phase)
    (hc : s.Consumed w → s'.Consumed w) (hlc : s'.lc = s.lc) : s'.Phased w phase := by
  cases phase with
  | minted => trivial
  | parked gen channel =>
    obtain ⟨hgen, hle, hchannel⟩ := h
    rw [Phased, hlc]
    exact ⟨hgen.imp_left hc, hle, hchannel⟩
  | answered reached => exact fun hr => hc (h hr)

/-- A goroutine that reports or consumes has all the frames that it had. -/
theorem consumed_setForward {gen : ℕ} {f : Forward} {lc : Lifecycle} {w : Settle}
    (hle : (s.forwards gen).consumed ≤ f.consumed) (h : s.Consumed w) :
    ({ s.setForward gen f with lc } : Forwarding).Consumed w := by
  rw [Consumed] at h ⊢
  by_cases hg : w.attachment = gen
  · simp only [setForward, hg, Function.update_self]
    rw [hg] at h
    omega
  · simp only [setForward, Function.update_of_ne hg]
    exact h

namespace Sound

/-- A step of one goroutine: it moves the registry only where it is the current one, and then
wakes the waits. -/
theorem update (h : s.Sound) {gen : ℕ} {f : Forward} {lc : Lifecycle} (hrun : s.running gen = true)
    (hgen : lc.fwdGen = s.lc.fwdGen)
    (hcurrent : lc.observedSeq = if s.lc.fwdGen = gen then f.observed else s.lc.observedSeq)
    (hgone : lc.forwardGone = if s.lc.fwdGen = gen then f.exited else s.lc.forwardGone)
    (hbehind : f.observed ≤ f.consumed) (hle : (s.forwards gen).consumed ≤ f.consumed)
    (hwake : lc = s.lc ∨ s.lc.changed < lc.changed) :
    ({ s.setForward gen f with lc } : Forwarding).Sound := by
  have hlive : 0 < gen ∧ gen ≤ s.lc.fwdGen ∧ (s.forwards gen).exited = false := by
    simpa [running] using hrun
  have hat : ∀ g, (s.setForward gen f).forwards g = if g = gen then f else s.forwards g := by
    intro g
    simp only [Forwarding.setForward, Function.update_apply]
  constructor
  · simp only [hgen, hcurrent, hat]
    split
    · rfl
    · exact h.current
  · simp only [hgen, hgone, hat]
    split
    · rfl
    · exact h.gone
  · intro g
    simp only [hat]
    split
    · exact hbehind
    · exact h.behind g
  · intro g hlt
    have hbound : s.lc.fwdGen < g := hgen ▸ hlt
    have hne : g ≠ gen := by omega
    simp only [hat, if_neg hne]
    exact h.fresh g hbound
  · intro id w hw
    rcases hwake with heq | hlt
    · exact (h.phased id w hw).same (consumed_setForward hle) heq
    · exact (h.phased id w hw).woken (consumed_setForward hle) hlt

theorem attach (h : s.Sound) : (s.step .attach).Sound := by
  have hnew := h.fresh (s.lc.fwdGen + 1) (Nat.lt_succ_self _)
  constructor
  · simp only [step, Lifecycle.attachForward, Lifecycle.wakeLocked, hnew]
  · simp only [step, Lifecycle.attachForward, Lifecycle.wakeLocked, hnew]
  · exact h.behind
  · exact fun gen hlt => h.fresh gen (Nat.lt_of_succ_lt hlt)
  · exact fun _ w hw => (h.phased _ w hw).woken (fun hc => hc) (Nat.lt_succ_self _)

theorem deliver (h : s.Sound) (gen : ℕ) : (s.step (.deliver gen)).Sound := by
  simp only [step]
  split
  · next hrun =>
    apply @update s h gen { s.forwards gen with delivered := (s.forwards gen).delivered + 1 } s.lc
      hrun rfl _ _ (h.behind gen) (Nat.le_refl _) (.inl rfl)
    · split
      · next hg => rw [h.current, hg]
      · rfl
    · split
      · next hg => rw [h.gone, hg]
      · rfl
  · exact h

theorem consume (h : s.Sound) (gen : ℕ) : (s.step (.consume gen)).Sound := by
  simp only [step]
  split
  · next hc =>
    apply @update s h gen { s.forwards gen with consumed := (s.forwards gen).consumed + 1 } s.lc
      hc.1 rfl _ _ _ (Nat.le_succ _) (.inl rfl)
    · split
      · next hg => rw [h.current, hg]
      · rfl
    · split
      · next hg => rw [h.gone, hg]
      · rfl
    · exact Nat.le_succ_of_le (h.behind gen)
  · exact h

/-- A consumed frame is reported: the current goroutine moves the position. -/
theorem observe (h : s.Sound) (gen : ℕ) : (s.step (.observe gen)).Sound := by
  simp only [step]
  split
  · next hc =>
    by_cases hg : gen = s.lc.fwdGen
    · have hadvance : s.lc.observe gen (s.forwards gen).consumed =
          { s.lc with observedSeq := (s.forwards gen).consumed }.wakeLocked := by
        rw [Lifecycle.observe, if_neg]
        rw [h.current, ← hg]
        omega
      rw [hadvance]
      apply @update s h gen { s.forwards gen with observed := (s.forwards gen).consumed }
        (Lifecycle.wakeLocked { s.lc with observedSeq := (s.forwards gen).consumed }) hc.1 rfl _ _
        (Nat.le_refl _) (Nat.le_refl _) (.inr (Nat.lt_succ_self _))
      · rw [if_pos hg.symm]
        rfl
      · rw [if_pos hg.symm, hg]
        exact h.gone
    · have hignored : s.lc.observe gen (s.forwards gen).consumed = s.lc := by
        rw [Lifecycle.observe, if_pos (.inl hg)]
      rw [hignored]
      apply @update s h gen { s.forwards gen with observed := (s.forwards gen).consumed } s.lc
        hc.1 rfl _ _ (Nat.le_refl _) (Nat.le_refl _) (.inl rfl)
      · rw [if_neg (Ne.symm hg)]
      · rw [if_neg (Ne.symm hg)]
  · exact h

theorem exit (h : s.Sound) (gen : ℕ) : (s.step (.exit gen)).Sound := by
  simp only [step]
  split
  · next hc =>
    by_cases hg : gen = s.lc.fwdGen
    · have hseal : s.lc.sealPosition gen = { s.lc with forwardGone := true }.wakeLocked := by
        rw [Lifecycle.sealPosition, if_neg (not_not.mpr hg)]
      rw [hseal]
      apply @update s h gen { s.forwards gen with exited := true }
        (Lifecycle.wakeLocked { s.lc with forwardGone := true }) hc.1 rfl _ _ (h.behind gen)
        (Nat.le_refl _) (.inr (Nat.lt_succ_self _))
      · rw [if_pos hg.symm, hg]
        exact h.current
      · rw [if_pos hg.symm]
        rfl
    · have hignored : s.lc.sealPosition gen = s.lc := by
        rw [Lifecycle.sealPosition, if_pos hg]
      rw [hignored]
      apply @update s h gen { s.forwards gen with exited := true } s.lc hc.1 rfl _ _
        (h.behind gen) (Nat.le_refl _) (.inl rfl)
      · rw [if_neg (Ne.symm hg)]
      · rw [if_neg (Ne.symm hg)]
  · exact h

/-- A wait whose phase fits the registry. -/
theorem setSettle (h : s.Sound) {id : ℕ} {w : Settle} (hw : s.Phased w w.phase) :
    (s.setSettle id w).Sound := by
  refine ⟨h.current, h.gone, h.behind, h.fresh, ?_⟩
  intro id' w' hget
  by_cases hid : id' = id
  · rw [Forwarding.setSettle, hid] at hget
    simp only [Function.update_self, Option.some_inj] at hget
    exact hget ▸ hw
  · simp only [Forwarding.setSettle, Function.update_of_ne hid] at hget
    exact h.phased id' w' hget

/-- A wait that reads the registry under a generation it may trust. -/
theorem read (h : s.Sound) {w : Settle} {gen : ℕ}
    (htrue : s.lc.observedSeq < w.seq ∨ s.Consumed w ∨ w.attachment = s.lc.fwdGen)
    (hpark : s.lc.forwardGone = false → s.lc.fwdGen = gen → s.Consumed w ∨ w.attachment = gen) :
    s.Phased w (s.lc.awaitPosition gen w.seq) := by
  simp only [Lifecycle.awaitPosition]
  split
  · next hle =>
    intro _
    rcases htrue with hlt | hc | heq
    · omega
    · exact hc
    · rw [h.current, ← heq] at hle
      exact Nat.le_trans hle (h.behind _)
  · next hlt =>
    split
    · nofun
    · next hboth =>
      rw [not_or, Bool.not_eq_true, not_not] at hboth
      exact ⟨hpark hboth.1 hboth.2, Nat.le_refl _, fun _ => ⟨hboth.2.symm, hboth.1, by omega⟩⟩

theorem step (h : s.Sound) {event : ForwardEvent} (ht : s.Timely event) :
    (s.step event).Sound := by
  cases event with
  | attach => exact h.attach
  | deliver gen => exact h.deliver gen
  | consume gen => exact h.consume gen
  | observe gen => exact h.observe gen
  | exit gen => exact h.exit gen
  | respond gen id =>
    simp only [Forwarding.step]
    split
    · exact h.setSettle trivial
    · exact h
  | await id =>
    simp only [Forwarding.step]
    split
    · next attachment seq hw =>
      have htimely := ht _ hw rfl
      apply h.setSettle
      apply @read s h { attachment, seq }
      · rcases htimely with hc | heq | hshort
        · exact .inr (.inl hc)
        · exact .inr (.inr heq)
        · exact .inl hshort.2
      · intro hlive _
        rcases htimely with hc | heq | hshort
        · exact .inl hc
        · exact .inr heq
        · rw [hlive] at hshort
          cases hshort.1
    · exact h
  | wake id =>
    simp only [Forwarding.step]
    split
    · next attachment seq gen channel hw =>
      split
      · have htimely := ht _ hw
        obtain ⟨hgen, -, -⟩ := h.phased id _ hw
        apply h.setSettle
        apply @read s h { attachment, seq }
        · rcases htimely with hc | heq | hlt
          · exact .inr (.inl hc)
          · exact .inr (.inr heq)
          · exact .inl hlt
        · exact fun _ _ => hgen
      · exact h
    · exact h
  | cancel id =>
    simp only [Forwarding.step]
    split
    · exact h.setSettle nofun
    · exact h

/-- A wait that is short of its position for good and reads the registry in time answers false. -/
theorem refuses (h : s.Sound) {id : ℕ} {w : Settle} {event : ForwardEvent}
    (ht : s.Timely event) (hreads : s.Reads id w event) (hshort : s.Short w) :
    (s.step event).settles id = some { w with phase := .answered false } := by
  -- the registry's position is short too, and the wait's generation is gone
  have hanswer : ∀ gen, s.lc.observedSeq < w.seq →
      (s.lc.fwdGen = gen → s.lc.forwardGone = true) →
      s.lc.awaitPosition gen w.seq = .answered false := by
    intro gen hlt hgone
    rw [Lifecycle.awaitPosition, if_neg (by omega), if_pos]
    by_cases hg : s.lc.fwdGen = gen
    · exact .inl (hgone hg)
    · exact .inr hg
  have hbehind : w.attachment = s.lc.fwdGen → s.lc.observedSeq < w.seq := by
    intro heq
    have hle := h.behind w.attachment
    have hnot : ¬ w.seq ≤ (s.forwards w.attachment).consumed := hshort.2
    rw [h.current, ← heq]
    omega
  have hexited : w.attachment = s.lc.fwdGen → s.lc.forwardGone = true := by
    intro heq
    rcases hshort.1 with hne | hex
    · exact absurd heq hne
    · rw [h.gone, ← heq, hex]
  cases event with
  | await id' =>
    obtain ⟨rfl, hw, hphase⟩ := hreads
    obtain ⟨attachment, seq, phase⟩ := w
    simp only at hphase
    subst hphase
    have hread : s.lc.awaitPosition s.lc.fwdGen seq = .answered false := by
      rcases ht _ hw rfl with hc | heq | hgone
      · exact absurd hc hshort.2
      · exact hanswer _ (hbehind heq) fun _ => hexited heq
      · exact hanswer _ hgone.2 fun _ => hgone.1
    simp only [Forwarding.step, hw, hread, Forwarding.setSettle, Function.update_self]
  | wake id' =>
    obtain ⟨rfl, hw, gen, channel, hphase, hlt⟩ := hreads
    obtain ⟨attachment, seq, phase⟩ := w
    simp only at hphase
    subst hphase
    obtain ⟨hgen, -, -⟩ := h.phased id' _ hw
    have hsame : attachment = gen := hgen.resolve_left hshort.2
    have hread : s.lc.awaitPosition gen seq = .answered false := by
      rcases ht _ hw with hc | heq | hseq
      · exact absurd hc hshort.2
      · exact hanswer _ (hbehind heq) fun _ => hexited heq
      · exact hanswer _ hseq fun hg => hexited (hsame.trans hg.symm)
    simp only [Forwarding.step, hw, if_pos hlt, hread, Forwarding.setSettle, Function.update_self]
  | attach => exact hreads.elim
  | deliver => exact hreads.elim
  | consume => exact hreads.elim
  | observe => exact hreads.elim
  | exit => exact hreads.elim
  | respond => exact hreads.elim
  | cancel => exact hreads.elim

theorem settles (h : s.Sound) : s.Settles where
  reached id w hw hphase := by
    have hphased := h.phased id w hw
    rw [hphase] at hphased
    exact hphased rfl
  woken id w gen channel hw hphase hshort := by
    have hphased := h.phased id w hw
    rw [hphase] at hphased
    obtain ⟨hgen, hle, hchannel⟩ := hphased
    have hsame : w.attachment = gen := hgen.resolve_left hshort.2
    by_contra hnot
    obtain ⟨hcurrent, hlive, -⟩ := hchannel (by omega)
    rcases hshort.1 with hne | hex
    · exact hne (hsame.trans hcurrent)
    · rw [h.gone, ← hcurrent, ← hsame, hex] at hlive
      cases hlive
  refused _ _ _ ht hreads hshort := h.refuses ht hreads hshort

end Sound

/-- In every run whose waits begin and read in time, every state keeps what a settle is promised. -/
theorem settle_position_reached {events : List ForwardEvent}
    (h : Along step Timely {} events) : (run events).Settles :=
  (h.invariant sound_empty fun _ _ hs ht => hs.step ht).settles

/-- Two frames and a response, whose wait the goroutine satisfies; a second response is caught
short by the goroutine's exit. -/
def settled : List ForwardEvent :=
  [.attach, .deliver 1, .deliver 1, .respond 1 0, .await 0, .consume 1, .observe 1, .wake 0,
    .consume 1, .observe 1, .wake 0, .deliver 1, .respond 1 1, .await 1, .consume 1, .observe 1,
    .deliver 1, .respond 1 2, .await 2, .exit 1, .attach, .wake 2]

theorem settle_position_reached_of_settled : (run settled).Settles := by
  apply @settle_position_reached settled
  decide +kernel

/-- The bridge dies with its response's frame unread, and the next one reaches the position before
the wait reads the registry again; or the wait begins after the next bridge attached. -/
def overtaken : List ForwardEvent :=
  [.attach, .deliver 1, .respond 1 0, .await 0, .respond 1 1, .exit 1, .attach, .deliver 2,
    .consume 2, .observe 2, .wake 0, .await 1]

/-- Both waits of `overtaken` answer true, and neither position was reached. -/
theorem overtaken_answers_true : ¬ (run overtaken).Settles ∧
    ((run overtaken).settles 0).any (fun w => w.phase = .answered true) = true ∧
    ((run overtaken).settles 1).any (fun w => w.phase = .answered true) = true := by
  refine ⟨?_, by decide +kernel, by decide +kernel⟩
  intro h
  have hsome : ((run overtaken).settles 0).any (fun w =>
      w.phase = .answered true ∧ ¬ (run overtaken).Consumed w) = true := by decide +kernel
  obtain ⟨w, hw, hp⟩ := (Option.any_eq_true ..).mp hsome
  rw [decide_eq_true_eq] at hp
  exact hp.2 (h.reached 0 w hw hp.1)

end Forwarding
end Marotte.Turns
