import Marotte.Turns.Handlers

/-! # One bracket, one turn

The events that reach one chat: the engine's brackets, any of them lost, its content frames, and the
prompts that are admitted one at a time. No turn_start is the prompt's for certain, so its binding
stands until a frame of the agent's own revises it.
-/
namespace Marotte.Turns

/-- A chat with the turn of the prompt that is in flight, and with the newest turn at each bracketed
turn of the engine once its turn_start was read. -/
structure Wire where
  turns : ChatTurns := {}
  inFlight : Option ℕ := none
  began : ℕ → Option ℕ := fun _ => none

/-- What reaches one chat. A bracket is of a turn of the engine, which the wire does not say; a lost
one is not in the list. A settle is the end of a prompt, by its response, a failure or a cancel. -/
inductive WireEvent where
  | turnStart (turn : ℕ) (appended : Bool)
  | turnEnd (turn : ℕ)
  | frame (agentInitiated revised appended : Bool)
  | admission (source : TurnOpenSource)
  | prompt (source : TurnOpenSource) (appended : Bool)
  | startTurn
  | settle
  deriving DecidableEq

namespace Wire

/-- A prompt opens its one turn under the admission slot that it holds, and gives the slot back when
it settles. -/
def step (s : Wire) : WireEvent → Wire
  | .turnStart turn appended =>
    let turns := s.turns.wireTurnStart appended
    { s with turns, began := Function.update s.began turn (some turns.nextSeq) }
  | .turnEnd _ => { s with turns := s.turns.wireTurnEnd }
  | .frame agentInitiated revised appended =>
    { s with turns := (s.turns.contentFrame agentInitiated revised appended).1 }
  | .admission source => { s with turns := s.turns.reserve source }
  | .prompt source appended =>
    if s.turns.reserved = none ∨ s.inFlight ≠ none ∨ source.promptClass = false then s
    else
      match s.turns.openTurn source appended with
      | (turns, .opened t) => { s with turns, inFlight := some t }
      | (turns, _) => { s with turns }
  | .startTurn =>
    match s.inFlight with
    | some t => { s with turns := s.turns.startTurn t }
    | none => s
  | .settle =>
    match s.inFlight with
    | some t => { s with turns := (s.turns.closeTurn t).releaseReservation, inFlight := none }
    | none => { s with turns := s.turns.releaseReservation }

/-- What one event does to the open turns of a chat. -/
structure Lawful (s : Wire) (e : WireEvent) : Prop where
  slots : ∀ t, (s.step e).turns.Open t ↔
    (s.step e).turns.own = some t ∨ (s.step e).turns.pending = some t
  prompted : ∀ p, (s.step e).turns.pending = some p →
    ((s.step e).turns.turns p).source.promptClass = true
  once : ∀ t, (s.turns.turns t).closes ≤ ((s.step e).turns.turns t).closes ∧
    ((s.step e).turns.turns t).closes ≤ 1
  folds : ∀ agentInitiated revised appended, e = .frame agentInitiated revised appended →
    (s.turns.contentFrame agentInitiated revised appended).2 = (s.step e).turns.own ∧
    ((s.step e).turns.own = none → s.turns.own = none ∧ appended = false)
  ends : ∀ turn, e = .turnEnd turn → ∀ t, ((s.step e).turns.turns t).closes =
    if s.turns.own = some t then 1 else (s.turns.turns t).closes
  revises : ∀ appended pre, e = .frame true true appended → s.turns.revisable = some pre →
    (s.step e).turns.pending = some pre ∧ ((s.step e).turns.turns pre).acked = false ∧
    (s.step e).turns.own = some (s.turns.nextSeq + 1)
  owed : ∀ p, s.turns.pending = some p → (∀ turn appended, e ≠ .turnStart turn appended) →
    (s.step e).turns.pending = some p ∨ ((s.step e).turns.turns p).closes = 1
  binds : ∀ turn appended p, e = .turnStart turn appended → s.turns.pending = some p →
    (s.step e).turns.pending = none ∧ (s.step e).turns.own = some p ∧
    ((s.step e).turns.turns p).acked = true ∧ ((s.step e).turns.turns p).closes = 0
  lasts : ∀ t, s.turns.Open t → (s.turns.turns t).source.promptClass = true →
    (s.step e).turns.Open t ∨
    (e = .settle ∧ s.inFlight = some t) ∨
    (∃ turn, e = .turnEnd turn ∧ s.turns.own = some t) ∨
    (∃ turn appended, e = .turnStart turn appended ∧ s.turns.own = some t ∧
      (s.turns.turns t).acked = true)

variable {s : Wire}

theorem step_paired (h : s.turns.Paired s.inFlight) (e : WireEvent) :
    (s.step e).turns.Paired (s.step e).inFlight := by
  cases e with
  | turnStart turn appended => exact h.wireTurnStart appended
  | turnEnd turn => exact h.wireTurnEnd
  | frame agentInitiated revised appended => exact h.contentFrame agentInitiated revised appended
  | admission source =>
    simp only [step, ChatTurns.reserve]
    split
    · exact h
    · exact h.reserved (some source)
  | prompt source appended =>
    simp only [step]
    split
    · exact h
    · next hopen =>
      simp only [not_or, ne_eq, not_not, Bool.not_eq_false] at hopen
      obtain ⟨-, hflight, hclass⟩ := hopen
      rw [hflight] at h
      rw [h.quiet.openTurn_free (h.slotFree hclass).2]
      cases appended with
      | true => exact h.promptOpened hclass
      | false =>
        rw [if_neg Bool.noConfusion, hflight]
        exact h
  | startTurn =>
    simp only [step]
    split
    · exact h.startTurn _
    · exact h
  | settle =>
    simp only [step]
    split
    · next t hflight =>
      rw [hflight] at h
      exact h.settle.reserved none
    · exact h.reserved none

theorem step_nextSeq (h : s.turns.Paired s.inFlight) (e : WireEvent) :
    s.turns.nextSeq ≤ (s.step e).turns.nextSeq := by
  cases e with
  | turnStart turn appended =>
    simp only [step]
    rcases h.turnStart_cases appended with ⟨p, -, -, heq⟩ | ⟨p, o, -, -, -, heq⟩ |
      ⟨o, -, -, -, heq⟩ | ⟨-, -, heq⟩
    · rw [heq]
      exact Nat.le_refl _
    · rw [heq]
      exact Nat.le_refl _
    · rw [heq]
      cases appended <;> grind
    · rw [heq]
      cases appended <;> grind
  | turnEnd turn =>
    simp only [step, ChatTurns.wireTurnEnd]
    cases ho : s.turns.own with
    | some o =>
      rw [h.quiet.closeOwn_some ho]
      exact Nat.le_refl _
    | none => simp only [ChatTurns.closeOwn_none ho, Nat.le_refl]
  | frame agentInitiated revised appended =>
    simp only [step]
    rcases h.contentFrame_cases agentInitiated revised appended with
      ⟨pre, -, -, -, heq⟩ | ⟨-, heq⟩
    · rw [heq]
      exact Nat.le_succ _
    · rw [heq]
      cases ho : s.turns.own with
      | some o =>
        simp only [h.quiet.turnFoldTarget_some ho, Nat.le_refl]
      | none =>
        rw [h.quiet.turnFoldTarget_none ho]
        cases appended <;> grind
  | admission source =>
    simp only [step, ChatTurns.reserve]
    split <;> exact Nat.le_refl _
  | prompt source appended =>
    simp only [step]
    split
    · exact Nat.le_refl _
    · next hopen =>
      simp only [not_or, ne_eq, not_not, Bool.not_eq_false] at hopen
      obtain ⟨-, hflight, hclass⟩ := hopen
      rw [hflight] at h
      rw [h.quiet.openTurn_free (h.slotFree hclass).2]
      cases appended <;> grind
  | startTurn =>
    simp only [step]
    split
    · simp only [ChatTurns.startTurn]
      split
      · exact Nat.le_refl _
      · split <;> exact Nat.le_refl _
    · exact Nat.le_refl _
  | settle =>
    simp only [step]
    split
    · next t _ =>
      cases hlive : s.turns.live t with
      | true =>
        rw [h.quiet.closeTurn_live hlive]
        exact Nat.le_refl _
      | false =>
        rw [ChatTurns.closeTurn_stale hlive]
        exact Nat.le_refl _
    · exact Nat.le_refl _

/-- The open turns that an event closes. -/
def Shuts (s : Wire) : WireEvent → ℕ → Prop
  | .turnStart .., t => s.turns.own = some t ∧ s.turns.pending ≠ some t
  | .turnEnd _, t => s.turns.own = some t
  | .settle, t => s.inFlight = some t ∧ s.turns.live t = true
  | .frame .., _ | .admission _, _ | .prompt .., _ | .startTurn, _ => False

theorem contentFrame_closes (h : s.turns.Paired s.inFlight)
    (agentInitiated revised appended : Bool) (t : ℕ) :
    (((s.turns.contentFrame agentInitiated revised appended).1).turns t).closes =
      (s.turns.turns t).closes := by
  have hfresh := h.quiet.sound.fresh
  rcases h.contentFrame_cases agentInitiated revised appended with
    ⟨pre, -, -, hpre, heq⟩ | ⟨-, heq⟩
  · have hown := h.quiet.sound.own_open pre (ChatTurns.revisable_some hpre).1
    rw [heq]
    grind
  · rw [heq]
    cases ho : s.turns.own with
    | some o => rw [h.quiet.turnFoldTarget_some ho]
    | none =>
      rw [h.quiet.turnFoldTarget_none ho]
      cases appended with
      | true => grind
      | false => rfl

/-- An event counts one close on each turn that it closes, and no other. -/
theorem step_closes (h : s.turns.Paired s.inFlight) (e : WireEvent) (t : ℕ) :
    (s.Shuts e t → ((s.step e).turns.turns t).closes = 1) ∧
    (¬ s.Shuts e t → ((s.step e).turns.turns t).closes = (s.turns.turns t).closes) := by
  have hfresh := h.quiet.sound.fresh
  have hown := h.quiet.sound.own_open
  cases e with
  | turnStart turn appended =>
    simp only [step, Shuts]
    rcases h.turnStart_cases appended with ⟨p, hp, hfree, heq⟩ | ⟨p, o, hp, ho, hne, heq⟩ |
      ⟨o, hp, ho, hacked, heq⟩ | ⟨hp, ho, heq⟩
    · rw [heq]
      grind
    · rw [heq]
      grind
    · rw [heq]
      cases appended <;> grind
    · rw [heq]
      cases appended <;> grind
  | turnEnd turn =>
    simp only [step, Shuts, ChatTurns.wireTurnEnd]
    cases ho : s.turns.own with
    | some o =>
      rw [h.quiet.closeOwn_some ho]
      grind
    | none =>
      rw [ChatTurns.closeOwn_none ho]
      exact ⟨by simp, fun _ => rfl⟩
  | frame agentInitiated revised appended =>
    exact ⟨False.elim, fun _ => contentFrame_closes h agentInitiated revised appended t⟩
  | admission source =>
    simp only [step, Shuts, ChatTurns.reserve]
    refine ⟨False.elim, fun _ => ?_⟩
    split <;> rfl
  | prompt source appended =>
    refine ⟨False.elim, fun _ => ?_⟩
    simp only [step]
    split
    · rfl
    · next hopen =>
      simp only [not_or, ne_eq, not_not, Bool.not_eq_false] at hopen
      obtain ⟨-, hflight, hclass⟩ := hopen
      rw [hflight] at h
      rw [h.quiet.openTurn_free (h.slotFree hclass).2]
      cases appended with
      | true => grind
      | false => rfl
  | startTurn =>
    refine ⟨False.elim, fun _ => ?_⟩
    simp only [step]
    split
    · simp only [ChatTurns.startTurn]
      split
      · rfl
      · split <;> rfl
    · rfl
  | settle =>
    simp only [step, Shuts]
    cases hflight : s.inFlight with
    | none => exact ⟨fun hshut => absurd hshut.1.symm (Option.some_ne_none t), fun _ => rfl⟩
    | some u =>
      cases hlive : s.turns.live u with
      | true =>
        have hcloses := h.quiet.closes_of_live hlive
        simp only [h.quiet.closeTurn_live hlive, ChatTurns.releaseReservation]
        grind
      | false =>
        simp only [ChatTurns.closeTurn_stale hlive, ChatTurns.releaseReservation]
        grind

/-- A turn that is owed its bracket stays owed until a turn_start, or its own close. -/
theorem step_owed (h : s.turns.Paired s.inFlight) (e : WireEvent) {p : ℕ}
    (hp : s.turns.pending = some p) (hstart : ∀ turn appended, e ≠ .turnStart turn appended) :
    (s.step e).turns.pending = some p ∨ ((s.step e).turns.turns p).closes = 1 := by
  have hcloses := (step_closes h e p).1
  cases e with
  | turnStart turn appended => exact absurd rfl (hstart turn appended)
  | turnEnd turn =>
    by_cases ho : s.turns.own = some p
    · exact .inr (hcloses ho)
    · left
      simp only [step, ChatTurns.wireTurnEnd]
      cases hown : s.turns.own with
      | some o =>
        rw [h.quiet.closeOwn_some hown]
        grind
      | none => rw [ChatTurns.closeOwn_none hown, hp]
  | frame agentInitiated revised appended =>
    left
    simp only [step]
    rcases h.contentFrame_cases agentInitiated revised appended with
      ⟨pre, -, -, hpre, heq⟩ | ⟨-, heq⟩
    · obtain ⟨ho, -, hclass⟩ := ChatTurns.revisable_some hpre
      have hopen := (h.slots pre).mpr (.inl ho)
      have howed := (h.slots p).mpr (.inr hp)
      have hflight := h.prompts pre hopen hclass
      rw [h.prompts p howed (h.quiet.sound.pending_owed p hp).2] at hflight
      rw [heq, ChatTurns.revisedTo_pending, hflight]
    · rw [heq]
      cases ho : s.turns.own with
      | some o => rw [h.quiet.turnFoldTarget_some ho, hp]
      | none =>
        rw [h.quiet.turnFoldTarget_none ho]
        cases appended with
        | true => rw [if_pos rfl, ChatTurns.wireOpened_pending, hp]
        | false => exact hp
  | admission source =>
    left
    simp only [step, ChatTurns.reserve]
    split <;> exact hp
  | prompt source appended =>
    left
    simp only [step]
    split
    · exact hp
    · next hopen =>
      simp only [not_or, ne_eq, not_not, Bool.not_eq_false] at hopen
      obtain ⟨-, hflight, hclass⟩ := hopen
      rw [hflight] at h
      rw [(h.slotFree hclass).1] at hp
      cases hp
  | startTurn =>
    left
    simp only [step]
    split
    · simp only [ChatTurns.startTurn]
      split
      · exact hp
      · split <;> exact hp
    · exact hp
  | settle =>
    simp only [step] at hcloses ⊢
    cases hflight : s.inFlight with
    | none => exact .inl hp
    | some u =>
      rw [hflight] at hcloses
      by_cases heq : u = p
      · right
        rw [heq] at hcloses ⊢
        exact hcloses ⟨by rw [hflight, heq], decide_eq_true (.inr hp)⟩
      · left
        cases hlive : s.turns.live u with
        | true =>
          simp only [h.quiet.closeTurn_live hlive, ChatTurns.releaseReservation]
          grind
        | false =>
          simp only [ChatTurns.closeTurn_stale hlive, ChatTurns.releaseReservation, hp]

theorem step_once (h : s.turns.Paired s.inFlight) (e : WireEvent) (t : ℕ) :
    (s.turns.turns t).closes ≤ ((s.step e).turns.turns t).closes ∧
      ((s.step e).turns.turns t).closes ≤ 1 := by
  obtain ⟨hshuts, hkeeps⟩ := step_closes h e t
  have hbound : ∀ s : Wire, s.turns.Paired s.inFlight → (s.turns.turns t).closes ≤ 1 := by
    intro s h
    have hclaims := h.quiet.sound.claims t
    have hcloses := h.quiet.sound.closes t
    split at hclaims <;> omega
  refine ⟨?_, hbound _ (step_paired h e)⟩
  by_cases hshut : s.Shuts e t
  · rw [hshuts hshut]
    exact hbound s h
  · exact Nat.le_of_eq (hkeeps hshut).symm

/-- A prompt's turn stays open until it settles or a bracket of its own closes it. -/
theorem step_lasts (h : s.turns.Paired s.inFlight) (e : WireEvent) {t : ℕ}
    (hopen : s.turns.Open t) :
    (s.step e).turns.Open t ∨ (e = .settle ∧ s.inFlight = some t) ∨
      (∃ turn, e = .turnEnd turn ∧ s.turns.own = some t) ∨
      (∃ turn appended, e = .turnStart turn appended ∧ s.turns.own = some t ∧
        (s.turns.turns t).acked = true) := by
  by_cases hshut : s.Shuts e t
  · right
    cases e with
    | turnStart turn appended =>
      exact .inr (.inr ⟨turn, appended, rfl, hshut.1,
        (h.owed t hshut.1).resolve_right hshut.2⟩)
    | turnEnd turn => exact .inr (.inl ⟨turn, rfl, hshut⟩)
    | settle => exact .inl ⟨rfl, hshut.1⟩
    | frame | admission | prompt | startTurn => exact hshut.elim
  · left
    refine ⟨hopen.1, ?_, ((step_closes h e t).2 hshut).trans hopen.2.2⟩
    exact Nat.le_trans hopen.2.1 (step_nextSeq h e)

/-- A frame folds into the own turn, that is open. -/
theorem step_folds (h : s.turns.Paired s.inFlight) (agentInitiated revised appended : Bool) :
    (s.turns.contentFrame agentInitiated revised appended).2 =
        (s.turns.contentFrame agentInitiated revised appended).1.own ∧
      ((s.turns.contentFrame agentInitiated revised appended).1.own = none →
        s.turns.own = none ∧ appended = false) := by
  rcases h.contentFrame_cases agentInitiated revised appended with
    ⟨pre, -, -, hpre, heq⟩ | ⟨-, heq⟩
  · rw [heq]
    exact ⟨rfl, nofun⟩
  · rw [heq]
    cases ho : s.turns.own with
    | some o =>
      rw [h.quiet.turnFoldTarget_some ho]
      exact ⟨ho.symm, fun hnone => absurd (ho.symm.trans hnone) (Option.some_ne_none o)⟩
    | none =>
      rw [h.quiet.turnFoldTarget_none ho]
      cases appended with
      | true => exact ⟨rfl, nofun⟩
      | false => exact ⟨ho.symm, fun _ => ⟨rfl, rfl⟩⟩

theorem step_revises (h : s.turns.Paired s.inFlight) {pre : ℕ} (appended : Bool)
    (hpre : s.turns.revisable = some pre) :
    (s.turns.contentFrame true true appended).1 = s.turns.revisedTo pre := by
  rcases h.contentFrame_cases true true appended with ⟨pre', -, -, hpre', heq⟩ | ⟨hnone, -⟩
  · rw [heq, Option.some.inj (hpre.symm.trans hpre')]
  · refine absurd ⟨rfl, rfl, ?_⟩ hnone
    rw [hpre]
    exact Option.some_ne_none pre

theorem step_binds (h : s.turns.Paired s.inFlight) (appended : Bool) {p : ℕ}
    (hp : s.turns.pending = some p) :
    (s.turns.wireTurnStart appended).pending = none ∧
      (s.turns.wireTurnStart appended).own = some p ∧
      ((s.turns.wireTurnStart appended).turns p).acked = true ∧
      ((s.turns.wireTurnStart appended).turns p).closes = 0 := by
  have hopen := h.quiet.sound.pending_open p hp
  rcases h.turnStart_cases appended with ⟨p', hp', -, heq⟩ | ⟨p', o, hp', ho, hne, heq⟩ |
    ⟨o, hp', -⟩ | ⟨hp', -⟩
  · rw [heq]
    grind
  · rw [heq]
    grind
  · rw [hp'] at hp
    cases hp
  · rw [hp'] at hp
    cases hp

theorem lawful (h : s.turns.Paired s.inFlight) (e : WireEvent) : s.Lawful e where
  slots := (step_paired h e).slots
  prompted p hp := ((step_paired h e).quiet.sound.pending_owed p hp).2
  once := step_once h e
  folds := by
    rintro agentInitiated revised appended rfl
    exact step_folds h agentInitiated revised appended
  ends := by
    rintro turn rfl t
    obtain ⟨hshuts, hkeeps⟩ := step_closes h (.turnEnd turn) t
    split
    · next ho => exact hshuts ho
    · next ho => exact hkeeps ho
  revises := by
    rintro appended pre rfl hpre
    simp only [step, step_revises h appended hpre]
    refine ⟨rfl, ?_, rfl⟩
    rw [ChatTurns.revisedTo_turns, if_pos rfl]
  owed p hp := step_owed h e hp
  binds := by
    rintro turn appended p rfl hp
    exact step_binds h appended hp
  lasts t hopen _ := step_lasts h e hopen

theorem paired_empty : ({} : ChatTurns).Paired none where
  quiet := ⟨ChatTurns.sound_empty, rfl⟩
  slots t := by
    simp only [ChatTurns.Open]
    grind
  prompts t hopen _ := absurd hopen.1 (Nat.not_lt.mpr hopen.2.1)
  owed := nofun

/-- A turn_end closes no turn that opened after its own turn_start was read. -/
def EndsItsOwn (s : Wire) (e : WireEvent) : Prop :=
  ∀ turn newest t, e = .turnEnd turn → s.began turn = some newest → newest < t →
    ((s.step e).turns.turns t).closes = (s.turns.turns t).closes

/-- The first prompt's call fails, and the engine's turn_end for it is read after the next prompt
opened its turn. -/
def lateTurnEnd : List WireEvent :=
  [.admission .prompt, .prompt .prompt true, .startTurn, .turnStart 0 true, .settle,
    .admission .prompt, .prompt .prompt true, .startTurn, .turnEnd 0]

end Wire
end Marotte.Turns
