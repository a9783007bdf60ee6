import Marotte.Library.Along
import Marotte.Turns.Registry

/-! # The exclusion of a finalize

The state of a chat follows from its slots and from the claims that are outstanding, as long as no
finish overlooks another turn's claim.
-/
namespace Marotte.Turns.ChatTurns

variable {s : ChatTurns}

/-! ## Fields of an updated registry -/

@[grind =] theorem setTurn_turns (t u : ℕ) (f : Turn → Turn) :
    (s.setTurn t f).turns u = if u = t then f (s.turns t) else s.turns u :=
  Function.update_apply ..

@[grind =] theorem setTurn_own (t : ℕ) (f : Turn → Turn) : (s.setTurn t f).own = s.own := rfl

@[grind =] theorem setTurn_pending (t : ℕ) (f : Turn → Turn) :
    (s.setTurn t f).pending = s.pending := rfl

@[grind =] theorem setTurn_nextSeq (t : ℕ) (f : Turn → Turn) :
    (s.setTurn t f).nextSeq = s.nextSeq := rfl

@[grind =] theorem setTurn_closers (t : ℕ) (f : Turn → Turn) :
    (s.setTurn t f).closers = s.closers := rfl

@[grind =] theorem setTurn_retained (t : ℕ) (f : Turn → Turn) :
    (s.setTurn t f).retained = s.retained := rfl

@[grind =] theorem setTurn_state (t : ℕ) (f : Turn → Turn) : (s.setTurn t f).state = s.state := rfl

@[grind =] theorem openLocked_turns (source : TurnOpenSource) (u : ℕ) :
    (s.openLocked source).turns u = if u = s.nextSeq + 1 then { source } else s.turns u := by
  rw [openLocked]
  split
  · exact Function.update_apply ..
  · exact Function.update_apply ..

@[grind =] theorem openLocked_own (source : TurnOpenSource) :
    (s.openLocked source).own =
      if source.acknowledgeable ∧ s.own ≠ none then s.own else some (s.nextSeq + 1) := by
  rw [openLocked]
  cases source.acknowledgeable <;> cases s.own <;> rfl

@[grind =] theorem openLocked_pending (source : TurnOpenSource) :
    (s.openLocked source).pending =
      if source.acknowledgeable then some (s.nextSeq + 1) else s.pending := by
  rw [openLocked]
  cases source.acknowledgeable <;> rfl

@[grind =] theorem openLocked_nextSeq (source : TurnOpenSource) :
    (s.openLocked source).nextSeq = s.nextSeq + 1 := by
  rw [openLocked]
  cases source.acknowledgeable <;> rfl

@[grind =] theorem openLocked_closers (source : TurnOpenSource) :
    (s.openLocked source).closers = s.closers := by
  rw [openLocked]
  cases source.acknowledgeable <;> rfl

@[grind =] theorem openLocked_retained (source : TurnOpenSource) :
    (s.openLocked source).retained = s.retained := by
  rw [openLocked]
  cases source.acknowledgeable <;> rfl

@[grind =] theorem openLocked_state (source : TurnOpenSource) :
    (s.openLocked source).state = .opened := by
  rw [openLocked]
  cases source.acknowledgeable <;> rfl

@[grind =] theorem claimLocked_turns (t u : ℕ) :
    (s.claimLocked t).turns u =
      if u = t then { s.turns t with finalizing := true, claims := (s.turns t).claims + 1 }
      else s.turns u := Function.update_apply ..

@[grind =] theorem claimLocked_own (t : ℕ) : (s.claimLocked t).own = s.own := rfl

@[grind =] theorem claimLocked_pending (t : ℕ) : (s.claimLocked t).pending = s.pending := rfl

@[grind =] theorem claimLocked_nextSeq (t : ℕ) : (s.claimLocked t).nextSeq = s.nextSeq := rfl

@[grind =] theorem claimLocked_closers (t : ℕ) : (s.claimLocked t).closers = t :: s.closers := rfl

@[grind =] theorem claimLocked_retained (t : ℕ) : (s.claimLocked t).retained = s.retained := rfl

@[grind =] theorem claimLocked_state (t : ℕ) :
    (s.claimLocked t).state = if s.own = some t then .finalizing else s.state := rfl

@[grind =] theorem finish_turns (t u : ℕ) :
    (s.finish t).turns u =
      if u = t then { s.turns t with closes := (s.turns t).closes + 1 } else s.turns u :=
  Function.update_apply ..

@[grind =] theorem finish_own (t : ℕ) :
    (s.finish t).own = if s.own = some t then none else s.own := rfl

@[grind =] theorem finish_pending (t : ℕ) :
    (s.finish t).pending = if s.pending = some t then none else s.pending := rfl

@[grind =] theorem finish_nextSeq (t : ℕ) : (s.finish t).nextSeq = s.nextSeq := rfl

@[grind =] theorem finish_closers (t : ℕ) : (s.finish t).closers = s.closers.erase t := rfl

@[grind =] theorem finish_retained (t : ℕ) :
    (s.finish t).retained = if 0 < (s.turns t).holds then t :: s.retained else s.retained := rfl

@[grind =] theorem finish_state (t : ℕ) :
    (s.finish t).state =
      if (s.finish t).own = none ∧ (s.finish t).pending = none then .idle else .opened := by
  rw [finish_own, finish_pending]
  simp only [finish]
  cases hown : (if s.own = some t then none else s.own) with
  | some o => rfl
  | none =>
    cases hpending : (if s.pending = some t then none else s.pending) with
    | some p => rfl
    | none => rfl

/-! ## The invariant -/

/-- Claimed, and not finished. -/
def Outstanding (s : ChatTurns) (t : ℕ) : Prop :=
  (s.turns t).finalizing = true ∧ (s.turns t).closes = 0

/-- The chat's own turn is mid-finalize. -/
def OwnClaimed (s : ChatTurns) : Prop := ∃ o, s.own = some o ∧ s.Outstanding o

/-- What holds of a chat's registry after every locked step. -/
structure LifecycleInvariant (s : ChatTurns) : Prop where
  idle_iff : s.state = .idle ↔ s.own = none ∧ s.pending = none ∧ ∀ t, ¬ s.Outstanding t
  finalizing_iff : s.state = .finalizing ↔ s.OwnClaimed
  pending_owed : ∀ p, s.pending = some p →
    (s.turns p).acked = false ∧ (s.turns p).source.promptClass = true
  once : ∀ t, (s.turns t).claims ≤ 1 ∧ (s.turns t).closes ≤ (s.turns t).claims
  frames_wait : s.OwnClaimed → ∀ appended, (s.openWireTurn appended).2 = .parked

/-- A step that keeps the invariant and makes no turn own while another is mid-finalize as own. -/
def Lawful (s : ChatTurns) (e : TurnEvent) : Prop :=
  (s.step e).LifecycleInvariant ∧ ∀ t, (s.step e).own = some t → s.own ≠ some t → ¬ s.OwnClaimed

/-- A finish finds no other turn claimed as own, and where it empties both slots no other claim is
outstanding. -/
def Kept (s : ChatTurns) : TurnEvent → Prop
  | .finish t => t ∈ s.closers →
      (∀ o ∈ s.own, o ≠ t → o ∉ s.closers) ∧
      ((∀ o ∈ s.own, o = t) → (∀ p ∈ s.pending, p = t) → ∀ u ∈ s.closers, u = t)
  | _ => True

instance (s : ChatTurns) (e : TurnEvent) : Decidable (s.Kept e) :=
  match e with
  | .finish t => inferInstanceAs (Decidable (t ∈ s.closers →
      (∀ o ∈ s.own, o ≠ t → o ∉ s.closers) ∧
      ((∀ o ∈ s.own, o = t) → (∀ p ∈ s.pending, p = t) → ∀ u ∈ s.closers, u = t)))
  | .reserve _ | .releaseReservation | .openTurn .. | .openWireTurn _ | .startTurn _ | .bindPending
  | .reviseTurnBinding _ | .claimOwn | .claimTurn _ | .release _ => isTrue trivial

/-! ## The invariant of the runs -/

structure Sound (s : ChatTurns) : Prop where
  fresh : ∀ t, s.nextSeq < t → s.turns t = {}
  own_open : ∀ o, s.own = some o → o ≤ s.nextSeq ∧ (s.turns o).closes = 0
  pending_open : ∀ p, s.pending = some p → p ≤ s.nextSeq ∧ (s.turns p).closes = 0
  pending_owed : ∀ p, s.pending = some p →
    (s.turns p).acked = false ∧ (s.turns p).source.promptClass = true
  closers : ∀ t, t ∈ s.closers ↔ s.Outstanding t
  nodup : s.closers.Nodup
  retained : ∀ t ∈ s.retained, t ≤ s.nextSeq
  claims : ∀ t, (s.turns t).claims = if (s.turns t).finalizing then 1 else 0
  closes : ∀ t, (s.turns t).closes ≤ (s.turns t).claims
  finalizing : s.state = .finalizing ↔ ∃ o, s.own = some o ∧ (s.turns o).finalizing = true
  idle : s.state = .idle ↔ s.own = none ∧ s.pending = none ∧ s.closers = []

theorem Sound.ownClaimed_iff (h : s.Sound) : s.OwnClaimed ↔ s.state = .finalizing := by
  rw [h.finalizing]
  constructor
  · rintro ⟨o, ho, hclaimed, -⟩
    exact ⟨o, ho, hclaimed⟩
  · rintro ⟨o, ho, hclaimed⟩
    exact ⟨o, ho, hclaimed, (h.own_open o ho).2⟩

theorem Sound.lifecycleInvariant (h : s.Sound) : s.LifecycleInvariant where
  idle_iff := by
    rw [h.idle, List.eq_nil_iff_forall_not_mem]
    simp only [h.closers]
  finalizing_iff := h.ownClaimed_iff.symm
  pending_owed := h.pending_owed
  once t := by
    refine ⟨?_, h.closes t⟩
    rw [h.claims t]
    split <;> omega
  frames_wait hclaimed appended := by
    rw [openWireTurn, if_pos (h.ownClaimed_iff.mp hclaimed)]

theorem sound_empty : Sound {} where
  fresh _ _ := rfl
  own_open := nofun
  pending_open := nofun
  pending_owed := nofun
  closers t := by simp [Outstanding]
  nodup := List.nodup_nil
  retained := nofun
  claims _ := rfl
  closes _ := Nat.le_refl _
  finalizing := by simp
  idle := by simp

/-! ## The steps -/

/-- A slot that is free takes the new turn, whose record is fresh. -/
theorem Sound.openLocked (h : s.Sound) (hstate : s.state ≠ .finalizing) {source : TurnOpenSource}
    (hslot : if source.acknowledgeable then s.pending = none else s.own = none) :
    (s.openLocked source).Sound := by
  have hnew := h.fresh (s.nextSeq + 1) (Nat.lt_succ_self _)
  have hclass : source.promptClass = source.acknowledgeable :=
    congrFun TurnOpenSource.acknowledgeable_eq_promptClass.symm source
  obtain ⟨hfresh, hown, hpending, howed, hclosers, hnodup, hkeep, hclaims, hcloses, hfin, hidle⟩ := h
  constructor
  all_goals grind [Outstanding]

/-- A rewrite of an opened turn's flags, which the claims do not see. -/
theorem Sound.setTurn (h : s.Sound) {t : ℕ} {f : Turn → Turn} (hopen : t ≤ s.nextSeq)
    (hfin : (f (s.turns t)).finalizing = (s.turns t).finalizing)
    (hclaims : (f (s.turns t)).claims = (s.turns t).claims)
    (hcloses : (f (s.turns t)).closes = (s.turns t).closes)
    (howed : s.pending = some t → (f (s.turns t)).acked = false ∧
      (f (s.turns t)).source = (s.turns t).source) :
    (s.setTurn t f).Sound := by
  obtain ⟨hfresh, hown, hpending, howed', hclosers, hnodup, hkeep, hclaims', hcloses', hfin', hidle⟩ := h
  constructor
  all_goals grind [Outstanding]

theorem Sound.openTurn (h : s.Sound) (source : TurnOpenSource) (appended : Bool) :
    (s.openTurn source appended).1.Sound := by
  rw [ChatTurns.openTurn]
  split
  · exact h
  · next hstate =>
    split
    · exact h
    · next hslot =>
      split
      · exact h
      · dsimp only
        apply Sound.setTurn
        · apply h.openLocked hstate
          cases source <;> simpa [slotFreeLocked, TurnOpenSource.acknowledgeable] using hslot
        · exact Nat.le_of_eq (openLocked_nextSeq _).symm
        · rfl
        · rfl
        · rfl
        · intro _
          simp only [openLocked_turns, if_true, and_self]

theorem Sound.openWireTurn (h : s.Sound) (appended : Bool) :
    (s.openWireTurn appended).1.Sound := by
  rw [ChatTurns.openWireTurn]
  split
  · exact h
  · next hstate =>
    split
    · split
      · exact h
      · exact h
    · next hown =>
      split
      · exact h
      · dsimp only
        apply Sound.setTurn
        · exact h.openLocked hstate hown
        · exact Nat.le_of_eq (openLocked_nextSeq _).symm
        · rfl
        · rfl
        · rfl
        · intro hpending
          -- the new turn is not the pending one
          rw [openLocked_pending] at hpending
          have := (h.pending_open _ hpending).1
          omega

theorem Sound.startTurn (h : s.Sound) (id : ℕ) : (s.startTurn id).Sound := by
  obtain ⟨hfresh, hown, hpending, howed, hclosers, hnodup, hkeep, hclaims, hcloses, hfin, hidle⟩ := h
  rw [ChatTurns.startTurn]
  split
  · exact ⟨hfresh, hown, hpending, howed, hclosers, hnodup, hkeep, hclaims, hcloses, hfin, hidle⟩
  · split
    · constructor
      all_goals grind [Outstanding, live]
    · exact ⟨hfresh, hown, hpending, howed, hclosers, hnodup, hkeep, hclaims, hcloses, hfin, hidle⟩

theorem Sound.bindPending (h : s.Sound) : s.bindPending.1.Sound := by
  rw [ChatTurns.bindPending]
  split
  · exact h
  · next hstate =>
    split
    · exact h
    · next p hp =>
      split
      · exact h
      · next hslot =>
        rw [Option.filter_eq_some_iff, decide_eq_true_eq] at hp
        obtain ⟨hfresh, hown, hpending, howed, hclosers, hnodup, hkeep, hclaims, hcloses, hfin, hidle⟩ := h
        constructor
        all_goals grind [Outstanding]

theorem Sound.reviseTurnBinding (h : s.Sound) (appended : Bool) :
    (s.reviseTurnBinding appended).1.Sound := by
  rw [ChatTurns.reviseTurnBinding]
  split
  · exact h
  · split
    · exact h
    · next pre hpre =>
      split
      · exact h
      · rw [revisable, Option.filter_eq_some_iff, decide_eq_true_eq] at hpre
        have hclass : (s.turns pre).source.promptClass = (s.turns pre).source.acknowledgeable :=
          congrFun TurnOpenSource.acknowledgeable_eq_promptClass.symm _
        have hnew := h.fresh (s.nextSeq + 1) (Nat.lt_succ_self _)
        have hwire : TurnOpenSource.wireTurnStart.acknowledgeable = false := rfl
        obtain ⟨hfresh, hown, hpending, howed, hclosers, hnodup, hkeep, hclaims, hcloses, hfin, hidle⟩ := h
        constructor
        all_goals grind [Outstanding]

theorem Sound.claimLocked (h : s.Sound) {t : ℕ} (hlive : s.live t = true)
    (hun : (s.turns t).finalizing = false) : (s.claimLocked t).Sound := by
  obtain ⟨hfresh, hown, hpending, howed, hclosers, hnodup, hkeep, hclaims, hcloses, hfin, hidle⟩ := h
  constructor
  all_goals grind [Outstanding, live]

theorem Sound.claimTurn (h : s.Sound) (id : ℕ) : (s.claimTurn id).1.Sound := by
  rw [ChatTurns.claimTurn]
  split
  · exact h
  · next hc =>
    rw [not_or, not_or, Bool.not_eq_false, Bool.not_eq_true] at hc
    exact h.claimLocked hc.2.1 hc.2.2

theorem Sound.claimOwn (h : s.Sound) : s.claimOwn.1.Sound := by
  rw [ChatTurns.claimOwn]
  split
  · exact h
  · split
    · exact h
    · next o ho =>
      rw [foldTarget, Option.filter_eq_some_iff, decide_eq_true_eq, Bool.not_eq_true] at ho
      apply h.claimLocked
      · rw [live, decide_eq_true_eq]
        exact .inl ho.1
      · exact ho.2

/-- A finish that overlooks no claim. -/
theorem Sound.finish (h : s.Sound) {t : ℕ} (ht : t ∈ s.closers) (hkept : s.Kept (.finish t)) :
    (s.finish t).Sound := by
  obtain ⟨hfirst, hlast⟩ := hkept ht
  obtain ⟨hfresh, hown, hpending, howed, hclosers, hnodup, hkeep, hclaims, hcloses, hfin, hidle⟩ := h
  -- the own turn that is left is not claimed, and where none is left no claim is
  have hother : ∀ o, s.own = some o → o ≠ t → (s.turns o).finalizing = false := by
    intro o ho hne
    by_contra hclaimed
    rw [Bool.not_eq_false] at hclaimed
    exact hfirst o ho hne ((hclosers o).mpr ⟨hclaimed, (hown o ho).2⟩)
  have hnone : (s.finish t).own = none → (s.finish t).pending = none → s.closers.erase t = [] := by
    intro ho hp
    rw [List.eq_nil_iff_forall_not_mem]
    intro u hu
    rw [hnodup.mem_erase_iff] at hu
    apply hu.1
    apply hlast _ _ u hu.2
    · intro o ho'
      grind
    · intro p hp'
      grind
  constructor
  all_goals grind [Outstanding]

theorem Sound.reserved {r : Option TurnOpenSource} (h : s.Sound) :
    ({ s with reserved := r } : ChatTurns).Sound :=
  ⟨h.fresh, h.own_open, h.pending_open, h.pending_owed, h.closers, h.nodup, h.retained, h.claims, h.closes,
    h.finalizing, h.idle⟩

/-- A completion handle that is given up. -/
theorem Sound.release (h : s.Sound) (id : ℕ) : (s.release id).Sound := by
  rw [ChatTurns.release]
  split
  · next hid =>
    have hopen : id ≤ s.nextSeq := by
      rcases hid with hlive | hkeep
      · rw [live, decide_eq_true_eq] at hlive
        rcases hlive with ho | hp
        · exact (h.own_open id ho).1
        · exact (h.pending_open id hp).1
      · exact h.retained id hkeep
    have hset : (s.setTurn id fun t => { t with holds := t.holds - 1 }).Sound :=
      h.setTurn hopen rfl rfl rfl fun hp => ⟨(h.pending_owed id hp).1, rfl⟩
    obtain ⟨hfresh, hown, hpending, howed, hclosers, hnodup, hkeep, hclaims, hcloses, hfin, hidle⟩ :=
      hset
    refine ⟨hfresh, hown, hpending, howed, hclosers, hnodup, ?_, hclaims, hcloses, hfin, hidle⟩
    intro t ht
    dsimp only at ht
    split at ht
    · exact hkeep t (List.mem_of_mem_erase ht)
    · exact hkeep t ht
  · exact h

theorem Sound.step (h : s.Sound) {e : TurnEvent} (hkept : s.Kept e) : (s.step e).Sound := by
  cases e with
  | reserve source =>
    simp only [ChatTurns.step, ChatTurns.reserve]
    split
    · exact h
    · exact h.reserved
  | releaseReservation => exact h.reserved
  | openTurn source appended => exact h.openTurn source appended
  | openWireTurn appended => exact h.openWireTurn appended
  | startTurn id => exact h.startTurn id
  | bindPending => exact h.bindPending
  | reviseTurnBinding appended => exact h.reviseTurnBinding appended
  | claimOwn => exact h.claimOwn
  | claimTurn id => exact h.claimTurn id
  | finish t =>
    simp only [ChatTurns.step]
    split
    · next ht => exact h.finish ht hkept
    · exact h
  | release id => exact h.release id

/-- While the own turn is mid-finalize a step leaves it own, or no turn is. -/
theorem own_of_finalizing (hstate : s.state = .finalizing) {o : ℕ} (ho : s.own = some o)
    (e : TurnEvent) : (s.step e).own = s.own ∨ (s.step e).own = none := by
  cases e with
  | reserve source =>
    simp only [step, reserve]
    split <;> exact .inl rfl
  | releaseReservation => exact .inl rfl
  | openTurn source appended => simp only [step, openTurn, if_pos hstate, true_or]
  | openWireTurn appended => simp only [step, openWireTurn, if_pos hstate, true_or]
  | startTurn id =>
    simp only [step, startTurn, ho, Option.isNone_some, Bool.false_eq_true, if_false, ite_self,
      true_or]
  | bindPending => simp only [step, bindPending, if_pos hstate, true_or]
  | reviseTurnBinding appended => simp only [step, reviseTurnBinding, if_pos hstate, true_or]
  | claimOwn => simp only [step, claimOwn, if_pos hstate, true_or]
  | claimTurn id => simp only [step, claimTurn, hstate, true_or, if_true]
  | finish t =>
    simp only [step]
    split
    · rw [finish_own]
      split
      · exact .inr rfl
      · exact .inl rfl
    · exact .inl rfl
  | release id =>
    simp only [step, release]
    split <;> exact .inl rfl

theorem Sound.lawful (h : s.Sound) {e : TurnEvent} (hkept : s.Kept e) : s.Lawful e := by
  refine ⟨(h.step hkept).lifecycleInvariant, ?_⟩
  intro t hnew hold hclaimed
  obtain ⟨o, ho, -⟩ := id hclaimed
  rcases own_of_finalizing (h.ownClaimed_iff.mp hclaimed) ho e with hsame | hnone
  · exact hold (hsame ▸ hnew)
  · rw [hnone] at hnew
    cases hnew

/-- A finish that overlooks a claim leaves a state that the claim contradicts. -/
theorem Sound.kept_of_lawful (h : s.Sound) {e : TurnEvent} (hlawful : s.Lawful e) : s.Kept e := by
  cases e with
  | finish t =>
    intro ht
    have hinv := hlawful.1
    simp only [ChatTurns.step, if_pos ht] at hinv
    have houtstanding : ∀ u ∈ s.closers, u ≠ t → (s.finish t).Outstanding u := by
      intro u hu hne
      obtain ⟨hfin, hcloses⟩ := (h.closers u).mp hu
      rw [Outstanding, finish_turns, if_neg hne]
      exact ⟨hfin, hcloses⟩
    constructor
    · intro o ho hne hclaimed
      have hown : (s.finish t).own = some o := by
        rw [finish_own, ho, if_neg (fun heq => hne (Option.some.inj heq))]
      have hstate := hinv.finalizing_iff.mpr ⟨o, hown, houtstanding o hclaimed hne⟩
      rw [finish_state, if_neg (fun hnone => by rw [hown] at hnone; cases hnone.1)] at hstate
      cases hstate
    · intro hown hpending u hu
      by_contra hne
      have hidle : (s.finish t).state = .idle := by
        rw [finish_state, if_pos]
        constructor
        · rw [finish_own]
          split
          · rfl
          · next hdiff =>
            cases ho : s.own with
            | none => rfl
            | some o => exact absurd (by rw [ho, hown o ho]) hdiff
        · rw [finish_pending]
          split
          · rfl
          · next hdiff =>
            cases hp : s.pending with
            | none => rfl
            | some p => exact absurd (by rw [hp, hpending p hp]) hdiff
      exact (hinv.idle_iff.mp hidle).2.2 u (houtstanding u hu hne)
  | reserve | releaseReservation | openTurn | openWireTurn | startTurn | bindPending
  | reviseTurnBinding | claimOwn | claimTurn | release => trivial

/-- Over a run from any sound registry. -/
theorem Sound.along_lawful_iff (h : s.Sound) (events : List TurnEvent) :
    Along ChatTurns.step Lawful s events ↔ Along ChatTurns.step Kept s events := by
  apply along_iff h
  · intro s e hs
    exact ⟨hs.kept_of_lawful, hs.lawful⟩
  · intro s e hs hkept
    exact hs.step hkept

/-- Every step of a run is lawful exactly when every finish of it finds no claim to overlook. -/
theorem lifecycle_lawful_iff (events : List TurnEvent) :
    Along step Lawful {} events ↔ Along step Kept {} events :=
  sound_empty.along_lawful_iff events

/-- A prompt is admitted beside an open wire turn; its failed call's finish runs while the wire's
bracket has claimed the wire turn. -/
def racingClosers : List TurnEvent :=
  [.openWireTurn true, .reserve .prompt, .openTurn .prompt true, .claimTurn 2, .claimOwn, .finish 2]

/-- The own turn is mid-finalize and its chat reads open: the next frame is refused. -/
theorem racingClosers_refuses : ¬ Along step Lawful {} racingClosers ∧
    ((runFrom step {} racingClosers).openWireTurn true).2 = .held := by
  refine ⟨?_, by decide +kernel⟩
  rw [sound_empty.along_lawful_iff]
  decide +kernel

end Marotte.Turns.ChatTurns
