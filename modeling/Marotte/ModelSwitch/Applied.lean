import Marotte.ModelSwitch.Pending

/-! # A chat's model at rest

A parked pick waits for an application as long as no admission slot is freed over it. While no
application overlaps a pick, another application or a session's opening, the header ends on the
pick that is due and the entries follow the header's model.
-/
namespace Marotte.ModelSwitch

open Turns

namespace Chat

variable {s : Chat} {effortForSwitch : String → String}

/-- Nothing is in flight and the chat is idle. -/
def AtRest (s : Chat) : Prop := s.tasks = [] ∧ s.busy = false

/-- The applications between their read and their write. -/
def inFlight (s : Chat) : List Task := s.tasks.filter Task.inFlight

/-- A step that leaves the chat at rest leaves no pick parked. -/
def Settles (effortForSwitch : String → String) (s : Chat) (e : Event) : Prop :=
  (s.step effortForSwitch e).AtRest → (s.step effortForSwitch e).header.pendingModel = ""

/-- The admission slot is not freed over a parked pick that no application is to take. -/
def Freed (s : Chat) (e : Event) : Prop :=
  e = .turn .releaseReservation →
    (s.turnStep .releaseReservation).busy = true ∨ s.header.pendingModel = "" ∨ s.tasks ≠ []

/-- No pick is written or read and no session opens during an application's flight. -/
def Apart (s : Chat) : Event → Prop
  | .task i _ =>
    match s.tasks[i]? with
    | some (.picked _) => s.inFlight = []
    | some .idle => s.header.pendingModel = "" ∨ s.inFlight = []
    | _ => True
  | .sessionStarts _ => s.inFlight = []
  | .switchModel _ | .turn _ | .sessionEnds => True

/-! ## A parked pick -/

/-- A parked pick has a turn's end or an application before it. -/
def Parked (s : Chat) : Prop := s.header.pendingModel ≠ "" → s.busy = true ∨ s.tasks ≠ []

theorem busy_iff (s : Chat) : s.busy = true ↔
    s.turns.own ≠ none ∨ s.turns.pending ≠ none ∨ s.turns.reserved ≠ none := by
  simp only [busy, Bool.or_eq_true, Option.isSome_iff_ne_none, or_assoc]

/-- Only a finish and a freed slot make a busy chat idle. -/
theorem busy_turnStep (h : s.busy = true) (e : TurnEvent) :
    (s.turnStep e).busy = true ∨ e = .releaseReservation ∨
      ∃ t, e = .finish t ∧ t ∈ s.turns.closers := by
  rw [busy_iff] at h ⊢
  simp only [turnStep]
  cases e with
  | reserve source =>
    simp only [ChatTurns.step, ChatTurns.reserve]
    grind
  | releaseReservation => exact .inr (.inl rfl)
  | openTurn source appended =>
    simp only [ChatTurns.step, ChatTurns.openTurn, ChatTurns.openLocked, ChatTurns.setTurn]
    grind
  | openWireTurn appended =>
    simp only [ChatTurns.step, ChatTurns.openWireTurn, ChatTurns.openLocked, ChatTurns.setTurn]
    grind
  | startTurn id =>
    simp only [ChatTurns.step, ChatTurns.startTurn]
    grind
  | bindPending =>
    simp only [ChatTurns.step, ChatTurns.bindPending, ChatTurns.setTurn]
    grind
  | reviseTurnBinding appended =>
    simp only [ChatTurns.step, ChatTurns.reviseTurnBinding, ChatTurns.openLocked,
      ChatTurns.setTurn]
    grind
  | claimOwn =>
    simp only [ChatTurns.step, ChatTurns.claimOwn, ChatTurns.claimLocked, ChatTurns.setTurn]
    grind
  | claimTurn id =>
    simp only [ChatTurns.step, ChatTurns.claimTurn, ChatTurns.claimLocked, ChatTurns.setTurn]
    grind
  | finish t =>
    by_cases hmem : t ∈ s.turns.closers
    · exact .inr (.inr ⟨t, rfl, hmem⟩)
    · simp only [ChatTurns.step, if_neg hmem]
      exact .inl h
  | release id =>
    simp only [ChatTurns.step, ChatTurns.release, ChatTurns.setTurn]
    grind

theorem tasks_turnStep (e : TurnEvent) : s.tasks <+: (s.turnStep e).tasks := by
  cases e with
  | finish t =>
    simp only [turnStep]
    split
    · exact List.prefix_append _ _
    · exact List.prefix_rfl
  | _ => exact List.prefix_rfl

/-- A task that goes and writes no pick leaves a busy chat or no parked pick behind. -/
theorem advance_parked (t : Task) (accepted : Bool) :
    let r := s.advance effortForSwitch accepted t
    r.2 = none → r.1.header.pendingModel = "" ∨ r.1.busy = true := by
  cases t <;> simp only [advance, persistModelPick, take] <;> grind

namespace Parked

theorem turnStep (h : s.Parked) {e : TurnEvent} (hfreed : s.Freed (.turn e)) :
    (s.turnStep e).Parked := by
  intro hpending
  have htasks : s.tasks ≠ [] → (s.turnStep e).tasks ≠ [] := (tasks_turnStep e).ne_nil
  rcases h hpending with hbusy | hne
  · rcases busy_turnStep hbusy e with hstill | rfl | ⟨t, rfl, hmem⟩
    · exact .inl hstill
    · rcases hfreed rfl with hstill | hnone | hne
      · exact .inl hstill
      · exact absurd hnone hpending
      · exact .inr (htasks hne)
    · simp [Chat.turnStep, hmem]
  · exact .inr (htasks hne)

theorem step (h : s.Parked) {e : Event} (hfreed : s.Freed e) :
    (s.step effortForSwitch e).Parked := by
  cases e with
  | switchModel payload =>
    simp only [Chat.step]
    split
    · intro _
      simp
    · exact h
  | task i accepted =>
    simp only [Chat.step]
    split
    · exact h
    · next t ht =>
      intro hpending
      have hgone := @advance_parked s effortForSwitch t accepted
      cases hnext : (s.advance effortForSwitch accepted t).2 with
      | some t' => simp
      | none =>
        rcases hgone hnext with hnone | hbusy
        · exact absurd hnone hpending
        · exact .inl hbusy
  | turn e => exact h.turnStep hfreed
  | sessionStarts reported =>
    simp only [Chat.step, sessionStarts]
    split
    · exact h
    · intro hpending
      simp only [persistModelPick, take] at hpending
      split at hpending
      · next hnone => exact absurd hnone hpending
      · exact absurd rfl hpending
  | sessionEnds => exact h

theorem settles_iff (h : s.Parked) (e : Event) : Settles effortForSwitch s e ↔ s.Freed e := by
  constructor
  · rintro hsettles rfl
    by_contra hnot
    push Not at hnot
    obtain ⟨hidle, hpending, htasks⟩ := hnot
    exact hpending (hsettles ⟨htasks, Bool.eq_false_iff.mpr hidle⟩)
  · intro hfreed hrest
    by_contra hpending
    rcases h.step hfreed hpending with hbusy | hne
    · rw [hrest.2] at hbusy
      cases hbusy
    · exact hne hrest.1

end Parked

/-! ## Applications apart -/

/-- The header holds the pick that an application has read. -/
def Holds (s : Chat) (model : String) : Prop := s.header.pendingModel = model ∧ model ≠ ""

/-- The record ends at a model, and a live session runs it. -/
def Runs (start : String) (s : Chat) (model : String) : Prop :=
  reached start s.moves = model ∧ ∀ m, s.session = some m → m = model

/-- The record and the session, while an application is in flight. -/
def Flying (start : String) (s : Chat) : Task → Prop
  | .taken model fromModel | .calling model fromModel _ =>
    s.Holds model ∧ s.header.model = fromModel ∧ s.Runs start fromModel
  | .landing model => s.Holds model ∧ s.Runs start s.header.model ∧ s.session = none
  | .refused => s.due = none ∧ s.Runs start s.header.model
  | .granted entry =>
    s.Holds entry.toModel ∧ reached start s.moves = entry.fromModel ∧
      ∀ m, s.session = some m → m = entry.toModel
  | .recorded model => s.Holds model ∧ s.Runs start model
  | .picked _ | .dispatched | .idle => False

/-- What holds between steps that keep applications apart. -/
structure Sound (start : String) (s : Chat) : Prop where
  picks : ∀ model, .picked model ∈ s.tasks → model ≠ ""
  named : ∀ model, s.due = some model → model ≠ ""
  parked : ∀ model, s.due = some model →
    s.header.pendingModel = model ∨ s.header.pendingModel = "" ∧ s.header.model = model
  chained : Chained start s.moves
  settled : s.inFlight = [] → s.Runs start s.header.model
  flying : ∀ t, t ∈ s.inFlight → s.inFlight = [t] ∧ s.Flying start t

theorem mem_inFlight {t : Task} : t ∈ s.inFlight ↔ t ∈ s.tasks ∧ t.inFlight = true :=
  List.mem_filter

/-- The task that goes on, between those before it and those after it. -/
theorem tasks_split {i : ℕ} {t : Task} (h : s.tasks[i]? = some t) :
    s.tasks = s.tasks.take i ++ t :: s.tasks.drop (i + 1) := by
  obtain ⟨hi, rfl⟩ := List.getElem?_eq_some_iff.mp h
  rw [List.getElem_cons_drop, List.take_append_drop]

namespace Sound

variable {start : String}

/-- Tasks that come and go beside what is in flight. -/
theorem beside (h : s.Sound start) {tasks : List Task}
    (hflight : tasks.filter Task.inFlight = s.inFlight)
    (hpicks : ∀ model, .picked model ∈ tasks → model ≠ "") :
    ({ s with tasks } : Chat).Sound start where
  picks := hpicks
  named := h.named
  parked := h.parked
  chained := h.chained
  settled hin := h.settled (hflight.symm.trans hin)
  flying t ht := by
    have ht' : t ∈ s.inFlight := hflight ▸ ht
    refine ⟨hflight.trans (h.flying t ht').1, ?_⟩
    have hfly := (h.flying t ht').2
    cases t <;> exact hfly

/-- A step after which one application is in flight. -/
theorem aloft {s' : Chat} {t : Task} (hflight : s'.inFlight = [t]) (hfly : s'.Flying start t)
    (hpicks : ∀ model, .picked model ∈ s'.tasks → model ≠ "")
    (hnamed : ∀ model, s'.due = some model → model ≠ "")
    (hparked : ∀ model, s'.due = some model →
      s'.header.pendingModel = model ∨ s'.header.pendingModel = "" ∧ s'.header.model = model)
    (hchained : Chained start s'.moves) : s'.Sound start where
  picks := hpicks
  named := hnamed
  parked := hparked
  chained := hchained
  settled := by simp [hflight]
  flying := by
    intro t' ht
    rw [hflight, List.mem_singleton] at ht
    rw [ht]
    exact ⟨hflight, hfly⟩

/-- A step after which none is. -/
theorem grounded {s' : Chat} (hflight : s'.inFlight = [])
    (hsettled : s'.Runs start s'.header.model)
    (hpicks : ∀ model, .picked model ∈ s'.tasks → model ≠ "")
    (hnamed : ∀ model, s'.due = some model → model ≠ "")
    (hparked : ∀ model, s'.due = some model →
      s'.header.pendingModel = model ∨ s'.header.pendingModel = "" ∧ s'.header.model = model)
    (hchained : Chained start s'.moves) : s'.Sound start where
  picks := hpicks
  named := hnamed
  parked := hparked
  chained := hchained
  settled _ := hsettled
  flying := by simp [hflight]

/-- The pick that is due is the one the header holds. -/
theorem held (h : s.Sound start) {model m : String} (hholds : s.Holds model)
    (hdue : s.due = some m) : model = m := by
  rcases h.parked m hdue with hpending | ⟨hnone, -⟩
  · exact hholds.1.symm.trans hpending
  · exact absurd (hholds.1.symm.trans hnone) hholds.2

theorem task (h : s.Sound start) {i : ℕ} {accepted : Bool} (hapart : s.Apart (.task i accepted)) :
    (s.step effortForSwitch (.task i accepted)).Sound start := by
  simp only [step]
  cases ht : s.tasks[i]? with
  | none => exact h
  | some t =>
    have hsplit := tasks_split ht
    simp only [Apart, ht] at hapart
    generalize s.tasks.take i = before at *
    generalize s.tasks.drop (i + 1) = after at *
    have hmem : t ∈ s.tasks := hsplit ▸ List.mem_append_right _ (List.mem_cons_self ..)
    have hflight : s.inFlight = before.filter Task.inFlight ++ ([t].filter Task.inFlight ++
        after.filter Task.inFlight) := by
      rw [inFlight, hsplit, ← List.singleton_append, List.filter_append, List.filter_append]
    have hpicks : ∀ next : Option Task, (∀ m, next ≠ some (.picked m)) →
        ∀ m, .picked m ∈ before ++ next.toList ++ after → m ≠ "" := by
      intro next hnext m hm
      apply h.picks m
      rw [hsplit]
      simp only [List.mem_append, Option.mem_toList, List.mem_cons] at hm ⊢
      grind
    have hnone : s.inFlight = [] → ∀ next : Option Task,
        (before ++ next.toList ++ after).filter Task.inFlight =
          next.toList.filter Task.inFlight := by
      intro hin next
      rw [hflight, List.append_eq_nil_iff, List.append_eq_nil_iff] at hin
      rw [List.filter_append, List.filter_append, hin.1, hin.2.2, List.nil_append,
        List.append_nil]
    have hone : t.inFlight = true → s.Flying start t ∧ ∀ next : Option Task,
        (before ++ next.toList ++ after).filter Task.inFlight =
          next.toList.filter Task.inFlight := by
      intro hin
      obtain ⟨hall, hfly⟩ := h.flying t (mem_inFlight.mpr ⟨hmem, hin⟩)
      have hlength := congrArg List.length (hflight.symm.trans hall)
      rw [List.filter_cons_of_pos hin, List.filter_nil, List.length_append, List.length_append,
        List.length_singleton] at hlength
      refine ⟨hfly, ?_⟩
      intro next
      have hbefore : before.filter Task.inFlight = [] := List.eq_nil_of_length_eq_zero (by omega)
      have hafter : after.filter Task.inFlight = [] := List.eq_nil_of_length_eq_zero (by omega)
      rw [List.filter_append, List.filter_append, hbefore, hafter, List.nil_append,
        List.append_nil]
    cases t with
    | picked model =>
      have hne := h.picks model hmem
      apply grounded
      · exact hnone hapart (some .dispatched)
      · exact h.settled hapart
      · exact hpicks (some .dispatched) (by simp)
      · rintro _ ⟨⟩
        exact hne
      · rintro _ ⟨⟩
        exact .inl rfl
      · exact h.chained
    | dispatched =>
      have hsame : before.filter Task.inFlight ++ after.filter Task.inFlight = s.inFlight := by
        simp [hflight, Task.inFlight]
      simp only [advance]
      split
      · apply h.beside _ (hpicks none (by simp))
        simpa using hsame
      · apply h.beside _ (hpicks (some .idle) (by simp))
        simpa [Task.inFlight] using hsame
    | idle =>
      simp only [advance]
      split
      · apply h.beside _ (hpicks none (by simp))
        simp [hflight, Task.inFlight]
      · next hpending =>
        have hground := hapart.resolve_left hpending
        apply aloft
        · exact hnone hground (some (.taken _ _))
        · exact ⟨⟨rfl, hpending⟩, rfl, h.settled hground⟩
        · exact hpicks (some (.taken _ _)) (by simp)
        · exact h.named
        · exact h.parked
        · exact h.chained
    | taken model fromModel =>
      obtain ⟨⟨hholds, hmodel, hruns⟩, hin⟩ := hone rfl
      simp only [advance]
      split
      · apply aloft
        · exact hin (some (.calling _ _ _))
        · exact ⟨hholds, hmodel, hruns⟩
        · exact hpicks (some (.calling _ _ _)) (by simp)
        · exact h.named
        · exact h.parked
        · exact h.chained
      · next hlive =>
        rw [Option.not_isSome_iff_eq_none] at hlive
        apply aloft
        · exact hin (some (.landing _))
        · exact ⟨hholds, hmodel ▸ hruns, hlive⟩
        · exact hpicks (some (.landing _)) (by simp)
        · exact h.named
        · exact h.parked
        · exact h.chained
    | landing model =>
      obtain ⟨⟨hholds, hruns, hlive⟩, hin⟩ := hone rfl
      apply grounded
      · exact hin none
      · refine ⟨reached_concat .., ?_⟩
        intro m hm
        have hsome : s.session = some m := hm
        rw [hlive] at hsome
        cases hsome
      · exact hpicks none (by simp)
      · exact h.named
      · exact fun m hdue => .inr ⟨rfl, h.held hholds hdue⟩
      · exact h.chained.concat (by simp)
    | calling model fromModel effort =>
      obtain ⟨⟨hholds, hmodel, hruns⟩, hin⟩ := hone rfl
      simp only [advance]
      split
      · apply aloft
        · exact hin (some (.granted _))
        · refine ⟨hholds, hruns.1, ?_⟩
          rintro _ ⟨⟩
          rfl
        · exact hpicks (some (.granted _)) (by simp)
        · exact h.named
        · exact h.parked
        · exact h.chained
      · have hdue : (if s.due = some model then none else s.due) = none := by
          split
          · rfl
          · next hne =>
            cases hd : s.due with
            | none => rfl
            | some m => exact absurd (by rw [hd, h.held hholds hd]) hne
        apply aloft
        · exact hin (some .refused)
        · exact ⟨hdue, hmodel ▸ hruns⟩
        · exact hpicks (some .refused) (by simp)
        · simp [hdue]
        · simp [hdue]
        · exact h.chained
    | refused =>
      obtain ⟨⟨hdue, hruns⟩, hin⟩ := hone rfl
      apply grounded
      · exact hin none
      · exact hruns
      · exact hpicks none (by simp)
      · exact h.named
      · intro m hm
        have hsome : s.due = some m := hm
        rw [hdue] at hsome
        cases hsome
      · exact h.chained
    | granted entry =>
      obtain ⟨⟨hholds, hreached, hsession⟩, hin⟩ := hone rfl
      apply aloft
      · exact hin (some (.recorded _))
      · exact ⟨hholds, reached_concat .., hsession⟩
      · exact hpicks (some (.recorded _)) (by simp)
      · exact h.named
      · exact h.parked
      · apply h.chained.concat
        rintro _ ⟨⟩
        exact hreached.symm
    | recorded model =>
      obtain ⟨⟨hholds, hruns⟩, hin⟩ := hone rfl
      apply grounded
      · exact hin none
      · exact hruns
      · exact hpicks none (by simp)
      · exact h.named
      · exact fun m hdue => .inr ⟨rfl, h.held hholds hdue⟩
      · exact h.chained

theorem sessionStarts (h : s.Sound start) (hground : s.inFlight = []) (reported : String) :
    (s.sessionStarts reported).Sound start := by
  rw [Chat.sessionStarts]
  split
  · exact h
  · apply grounded
    · split <;> exact hground
    · refine ⟨reached_concat .., ?_⟩
      rintro _ ⟨⟩
      rfl
    · split <;> exact h.picks
    · simp
    · simp
    · apply Chained.concat _ (by simp)
      split
      · exact h.chained
      · exact h.chained.concat (by simp)

/-- The session's end takes no application's model from it. -/
theorem sessionEnds (h : s.Sound start) : ({ s with session := none } : Chat).Sound start where
  picks := h.picks
  named := h.named
  parked := h.parked
  chained := h.chained
  settled hin := ⟨(h.settled hin).1, by simp⟩
  flying t ht := by
    obtain ⟨hall, hfly⟩ := h.flying t ht
    refine ⟨hall, ?_⟩
    cases t with
    | picked | dispatched | idle => exact hfly
    | taken | calling => exact ⟨hfly.1, hfly.2.1, hfly.2.2.1, by simp⟩
    | landing => exact ⟨hfly.1, ⟨hfly.2.1.1, by simp⟩, rfl⟩
    | refused => exact ⟨hfly.1, hfly.2.1, by simp⟩
    | granted => exact ⟨hfly.1, hfly.2.1, by simp⟩
    | recorded => exact ⟨hfly.1, hfly.2.1, by simp⟩

theorem step (h : s.Sound start) {e : Event} (hapart : s.Apart e) :
    (s.step effortForSwitch e).Sound start := by
  cases e with
  | switchModel payload =>
    simp only [Chat.step]
    split
    · next model hpicked =>
      apply h.beside
      · simp [inFlight, Task.inFlight]
      · intro m hm
        rw [List.mem_append, List.mem_singleton] at hm
        rcases hm with hm | hm
        · exact h.picks m hm
        · cases hm
          exact cmdSwitchModel_picked hpicked
    · exact h
  | task i accepted => exact h.task hapart
  | turn e =>
    have hbeside : ({ s with tasks := (s.turnStep e).tasks } : Chat).Sound start := by
      apply h.beside
      · cases e <;> simp only [turnStep, inFlight]
        split <;> simp [Task.inFlight]
      · intro m hm
        apply h.picks m
        cases e <;> simp only [turnStep] at hm <;> grind
    exact ⟨hbeside.picks, h.named, h.parked, h.chained, hbeside.settled, hbeside.flying⟩
  | sessionStarts reported => exact h.sessionStarts hapart reported
  | sessionEnds => exact h.sessionEnds

end Sound

/-! ## A run -/

theorem step_running (s : Chat) : s.step effortForSwitch (.switchModel s.header.model) = s := by
  simp only [step]
  split
  · next model hpicked =>
    simp only [cmdSwitchModel, resolveSwitchModel, or_true, if_true] at hpicked
    split at hpicked <;> cases hpicked
  · rfl

theorem sound_new (model : String) (served : List String) (live : Bool) (turns : ChatTurns) :
    (new model served live turns).Sound model where
  picks := by simp [new]
  named := by simp [new]
  parked := by simp [new]
  chained := chained_nil _
  settled _ := by cases live <;> simp [Runs, reached, new]
  flying := by simp [inFlight, new]

/-- A pick is parked under an open turn. -/
def parkedPick : List Event :=
  [.turn (.openWireTurn true), .switchModel "b", .task 0 true, .task 0 true]

/-- The turn ends, and its closer applies what is parked. -/
def turnEnds : List Event :=
  [.turn .claimOwn, .turn (.finish 1), .task 0 true, .task 0 true, .task 0 true, .task 0 true,
    .task 0 true, .task 0 true]

end Chat
end Marotte.ModelSwitch
