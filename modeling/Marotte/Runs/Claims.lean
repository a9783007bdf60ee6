import Mathlib.Data.List.Induction
import Mathlib.Data.List.Nodup
import Marotte.Runs.Interleave

/-! # One holder, one reason

What any interleaving keeps of the claims and the reasons: which steps a thread with a claim
can still take, who records a reason, and when a second party can hold a run's claim.
-/
namespace Marotte.Runs

/-! ## The reason map and its queue -/

/-- The reasons and their eviction queue hold the same runs, once each, within the cap. -/
structure RunBounds.ReasonsKept (b : RunBounds) : Prop where
  keys : ∀ id, (b.reasons id).isSome ↔ id ∈ b.order
  nodup : b.order.Nodup
  length : b.order.length ≤ maxRunEndReasons

namespace RunBounds

variable {b : RunBounds} {id : String}

/-- The eviction drops a prefix of the queue, and exactly its runs' reasons. -/
theorem evict_spec (reasons : String → Option String) (order : List String) (hn : order.Nodup) :
    ∃ gone, order = gone ++ (evict reasons order).2 ∧
      (∀ id, (evict reasons order).1 id = if id ∈ gone then none else reasons id) ∧
      (evict reasons order).2.length ≤ maxRunEndReasons := by
  induction order generalizing reasons with
  | nil => exact ⟨[], rfl, fun id => by simp [evict], by simp [evict]⟩
  | cons a order ih =>
    rw [List.nodup_cons] at hn
    unfold evict
    split
    · obtain ⟨gone, ho, hr, hl⟩ := ih (Function.update reasons a none) hn.2
      refine ⟨a :: gone, by rw [List.cons_append, ← ho], fun id => ?_, hl⟩
      rw [hr]
      by_cases hid : id = a
      · simp [hid]
      · simp [hid]
    · next hle =>
      exact ⟨[], rfl, fun id => by simp, Nat.le_of_not_lt hle⟩

theorem ReasonsKept.recordEnd (h : b.ReasonsKept) (reason : String) :
    (b.recordEnd id reason).ReasonsKept := by
  unfold RunBounds.recordEnd
  split
  · exact h
  · have hn : (if b.reasons id = none then b.order ++ [id] else b.order).Nodup := by
      split
      · next hnone =>
        apply h.nodup.append (List.nodup_singleton id)
        have hid : id ∉ b.order := fun hm => by simpa [hnone] using (h.keys id).mpr hm
        simpa using hid
      · exact h.nodup
    obtain ⟨gone, ho, hr, hl⟩ := evict_spec (Function.update b.reasons id (some reason)) _ hn
    rw [ho, List.nodup_append] at hn
    refine ⟨fun id' => ?_, hn.2.1, hl⟩
    change ((evict _ _).1 id').isSome ↔ id' ∈ (evict _ _).2
    have hkeys : id' ∈ (if b.reasons id = none then b.order ++ [id] else b.order) ↔
        (Function.update b.reasons id (some reason) id').isSome := by
      by_cases hid : id' = id
      · subst hid
        split
        · simp
        · next hsome => simp [← h.keys, Option.isSome_iff_ne_none, hsome]
      · split <;> simp [hid, h.keys]
    rw [hr]
    rw [ho, List.mem_append] at hkeys
    by_cases hgone : id' ∈ gone
    · have hnot : id' ∉ (evict (Function.update b.reasons id (some reason))
          (if b.reasons id = none then b.order ++ [id] else b.order)).2 :=
        fun hm => hn.2.2 id' hgone id' hm rfl
      simp [hgone, hnot]
    · simp only [hgone, false_or] at hkeys
      rw [if_neg hgone]
      exact hkeys.symm

theorem ReasonsKept.clearEnd (h : b.ReasonsKept) : (b.clearEnd id).ReasonsKept := by
  unfold RunBounds.clearEnd
  dsimp only
  split
  · exact ⟨h.keys, h.nodup, h.length⟩
  · refine ⟨fun id' => ?_, h.nodup.filter _, (List.length_filter_le _ _).trans h.length⟩
    by_cases hid : id' = id
    · simp [hid]
    · simp [hid, h.keys]

theorem reasons_clearEnd : (b.clearEnd id).reasons id = none := by
  unfold RunBounds.clearEnd
  dsimp only
  split
  · assumption
  · simp

end RunBounds

/-! ## What a thread can still do -/

namespace Instr

/-- The reason that a step needs its thread to hold the claim with. -/
def holds : Instr → Option String
  | cancelRPC reason | recordEnd reason => some reason
  | restartPaused | orphanRPC => some runEndOrphaned
  | _ => none

def records : Instr → Bool
  | recordEnd _ => true
  | _ => false

/-- The steps that take a claim. -/
def claims : Instr → Bool
  | claim _ | expiredClaim _ | claimOrphan => true
  | _ => false

/-- The steps from which a thread goes on to take a claim. -/
def leads : Instr → Bool
  | claim _ | expiredClaim _ | claimOrphan | retryBounded _ | expired _ => true
  | expiredSpent .. | expiredWorking .. | expiredRefill .. | expiredRead .. => true
  | _ => false

/-- The steps that only end a program. -/
def last : Instr → Bool
  | cancelRPC _ | restartPaused | orphanRPC => true
  | i => i.leads

end Instr

/-- What the rest of a program says about its thread: a step that needs the claim is held by
its own reason, a recording one follows a landed cancel, and a claim is yet to be taken. -/
def Typed (holder : Option String) (landed : Bool) : List Instr → Prop
  | [] => True
  | i :: rest =>
    (∀ r, i.holds = some r → holder = some r) ∧ (i.records → landed = true) ∧
    (i.last → rest = []) ∧ (i.leads → holder = none ∧ landed = false) ∧
    (i = .releaseTermination → ∀ j ∈ rest, j.holds = none) ∧ Typed holder landed rest

theorem Typed.release {holder : Option String} {landed : Bool} {program : List Instr}
    (h : Typed holder landed program) (hno : ∀ j ∈ program, j.holds = none) :
    Typed none landed program := by
  induction program with
  | nil => trivial
  | cons i rest ih =>
    obtain ⟨_, hrec, hlast, hlead, hrel, hrest⟩ := h
    refine ⟨fun r hr => ?_, hrec, hlast, fun hl => ⟨rfl, (hlead hl).2⟩, hrel,
      ih hrest fun j hj => hno j (List.mem_cons_of_mem _ hj)⟩
    rw [hno i List.mem_cons_self] at hr
    cases hr

/-- A step that keeps the thread's part, and puts harmless steps before the rest. -/
def Plain (i : Instr) : Prop :=
  i.holds = none ∧ i.records = false ∧ i.last = false ∧ i.leads = false ∧ i ≠ .releaseTermination

theorem Typed.cons {holder : Option String} {landed : Bool} {i : Instr} {rest : List Instr}
    (h : Typed holder landed rest) (hi : Plain i) : Typed holder landed (i :: rest) := by
  obtain ⟨hh, hr, hl, hle, hne⟩ := hi
  exact ⟨by simp [hh], by simp [hr], by simp [hl], by simp [hle], fun he => absurd he hne, h⟩

/-- A step that leads to a claim, by a thread without one. -/
theorem Typed.of_leads {holder : Option String} {landed : Bool} {i : Instr}
    (hi : i.leads = true) (h : holder = none ∧ landed = false) : Typed holder landed [i] := by
  have hplain : i.holds = none ∧ i.records = false ∧ i ≠ .releaseTermination := by
    cases i <;> simp_all [Instr.leads, Instr.holds, Instr.records]
  obtain ⟨hh, hr, hne⟩ := hplain
  exact ⟨by simp [hh], by simp [hr], fun _ => rfl, fun _ => h, fun he => absurd he hne, trivial⟩

theorem Operation.typed (op : Operation) : Typed none false op.program := by
  cases op <;> simp [Operation.program, disarmDeadline, forgetBounds, rearmRetried, Typed,
    Instr.holds, Instr.records, Instr.last, Instr.leads]

namespace Host

variable {s s' : Host} {t : ℕ} {thread : Thread} {answer : Bool} {instr : Instr}
  {rest : List Instr}

theorem stampOutcome_typed {kind : RunBounds.Stamp} {own : Bool} {skip : List Instr}
    (hskip : Typed thread.holder thread.landed skip)
    (hrest : Typed thread.holder thread.landed rest) :
    Typed (s.stampOutcome t thread kind own skip rest).holder
      (s.stampOutcome t thread kind own skip rest).landed
      (s.stampOutcome t thread kind own skip rest).program := by
  unfold stampOutcome
  split
  · exact hskip
  · split
    · exact hskip
    · exact hrest.cons ⟨rfl, rfl, rfl, rfl, by simp⟩

theorem claimOutcome_typed {reason : String} {won : List Instr} (hrest : rest = [])
    (hwon : Typed (some reason) thread.landed won) :
    Typed (s.claimOutcome t thread reason won rest).holder
      (s.claimOutcome t thread reason won rest).landed
      (s.claimOutcome t thread reason won rest).program := by
  unfold claimOutcome
  subst hrest
  split
  · trivial
  · rw [List.append_nil]
    exact hwon

/-- What a program says about its thread, one step keeps. -/
theorem outcome_typed (h : Typed thread.holder thread.landed (instr :: rest)) :
    Typed (s.outcome t thread answer rest instr).holder
      (s.outcome t thread answer rest instr).landed
      (s.outcome t thread answer rest instr).program := by
  obtain ⟨hholds, hrec, hlast, hlead, hrel, hrest⟩ := h
  have plain : ∀ {i}, Plain i → Typed thread.holder thread.landed (i :: rest) := hrest.cons
  cases instr with
  | stamp kind => exact stampOutcome_typed hrest hrest
  | stampWrite deadline own =>
    simp only [outcome]
    split
    · exact plain ⟨rfl, rfl, rfl, rfl, by simp⟩
    · exact hrest
  | stampTimer deadline own =>
    change Typed thread.holder thread.landed (if own then [] else rest)
    split
    · trivial
    · exact hrest
  | disarm =>
    have hstop := plain (i := .stopTimer) ⟨rfl, rfl, rfl, rfl, by simp⟩
    simp only [outcome]
    split
    · exact (hstop.cons ⟨rfl, rfl, rfl, rfl, by simp⟩).cons ⟨rfl, rfl, rfl, rfl, by simp⟩
    · exact hstop
  | bankExecuted | parkDeadline | stopTimer | releaseLease | clearCancelRetries
  | clearExecuted | clearEnd | grant _ | recordEnd _ | retryTermination _ => exact hrest
  | releaseTermination => exact hrest.release (hrel rfl)
  | grantIfMissing =>
    change Typed _ _ (if _ then rest else _)
    split
    · exact hrest
    · exact plain ⟨rfl, rfl, rfl, rfl, by simp⟩
  | invoke =>
    cases answer
    · exact plain ⟨rfl, rfl, rfl, rfl, by simp⟩
    · exact plain ⟨rfl, rfl, rfl, rfl, by simp⟩
  | releaseIfOver =>
    change Typed _ _ (if _ then _ else rest)
    split
    · exact plain ⟨rfl, rfl, rfl, rfl, by simp⟩
    · exact hrest
  | claim reason =>
    apply claimOutcome_typed (hlast rfl)
    simp [finishTermination, Typed, Instr.holds, Instr.records, Instr.last, Instr.leads]
  | claimOrphan =>
    apply claimOutcome_typed (hlast rfl)
    simp [Typed, Instr.holds, Instr.records, Instr.last, Instr.leads]
  | expiredClaim reason =>
    have hclaim := @claimOutcome_typed s t thread _ reason (finishTermination reason) (hlast rfl)
      (by simp [finishTermination, Typed, Instr.holds, Instr.records, Instr.last, Instr.leads])
    exact hclaim
  | cancelRPC reason =>
    have hholder := hholds reason rfl
    simp only [outcome]
    obtain rfl := hlast rfl
    split
    · simp [proceed, Typed, Instr.holds, Instr.records, Instr.last, Instr.leads, hholder]
    · simp [proceed, Typed, Instr.holds, Instr.records, Instr.last, Instr.leads]
  | restartPaused =>
    have hholder := hholds _ rfl
    simp only [outcome]
    obtain rfl := hlast rfl
    split
    · simp [proceed, Typed, Instr.holds, Instr.records, Instr.last, Instr.leads, hholder]
    · simp [proceed, Typed, Instr.holds, Instr.records, Instr.last, Instr.leads]
  | orphanRPC =>
    have hholder := hholds _ rfl
    simp only [outcome]
    obtain rfl := hlast rfl
    split
    · simp [proceed, Typed, Instr.holds, Instr.records, Instr.last, Instr.leads, hholder]
    · simp [proceed, Typed, Instr.holds, Instr.records, Instr.last, Instr.leads]
  | retryBounded reason =>
    obtain rfl := hlast rfl
    change Typed thread.holder thread.landed (if _ then _ else [])
    split
    · exact .of_leads rfl (hlead rfl)
    · trivial
  | expired armedFor =>
    obtain rfl := hlast rfl
    exact .of_leads rfl (hlead rfl)
  | expiredSpent armedFor held slotRanOut =>
    obtain rfl := hlast rfl
    exact .of_leads rfl (hlead rfl)
  | expiredWorking armedFor reason asks =>
    obtain rfl := hlast rfl
    change Typed thread.holder thread.landed [if _ then _ else _]
    split
    · exact .of_leads rfl (hlead rfl)
    · exact .of_leads rfl (hlead rfl)
  | expiredRefill armedFor reason =>
    obtain rfl := hlast rfl
    have hread : Typed thread.holder thread.landed [.expiredRead armedFor reason] :=
      .of_leads rfl (hlead rfl)
    exact stampOutcome_typed hread hread
  | expiredRead armedFor reason =>
    obtain rfl := hlast rfl
    simp only [outcome]
    split
    · exact .of_leads rfl (hlead rfl)
    · trivial

/-! ## What a step does to the claims and the reasons -/

/-- Two states of the bounds with the same claims and the same reasons. -/
def SameClaims (b b' : RunBounds) : Prop :=
  b'.terminating = b.terminating ∧ b'.reasons = b.reasons ∧ b'.order = b.order

theorem sameClaims_decide (b : RunBounds) (id : String) (kind : RunBounds.Stamp) (l : Lease)
    (now : Time) : SameClaims b (b.decide id kind l now).1 := by
  cases kind with
  | arm =>
    by_cases hb : l.bounded = true
    · simp only [RunBounds.decide, if_pos hb]
      exact ⟨rfl, rfl, rfl⟩
    · simp only [RunBounds.decide, if_neg hb]
      exact ⟨rfl, rfl, rfl⟩
  | refill =>
    cases hd : l.deadline with
    | none =>
      simp only [RunBounds.decide, hd]
      exact ⟨rfl, rfl, rfl⟩
    | some deadline =>
      simp only [RunBounds.decide, hd]
      split
      · exact ⟨rfl, rfl, rfl⟩
      · exact ⟨rfl, rfl, rfl⟩

theorem sameClaims_stampOutcome (kind : RunBounds.Stamp) (own : Bool) (skip : List Instr) :
    SameClaims s.bounds (s.stampOutcome t thread kind own skip rest).bounds ∧
      (s.stampOutcome t thread kind own skip rest).holder = thread.holder := by
  unfold stampOutcome
  split
  · exact ⟨⟨rfl, rfl, rfl⟩, rfl⟩
  · next l _ =>
    have h := sameClaims_decide s.bounds thread.workflowID kind l s.now
    split
    · next hd =>
      rw [hd] at h
      exact ⟨h, rfl⟩
    · next hd =>
      rw [hd] at h
      exact ⟨h, rfl⟩

/-- The steps that touch a claim or a reason. -/
def touches : Instr → Bool
  | .releaseTermination | .clearEnd => true
  | i => i.claims || i.records

/-- Every other step leaves the claims, the reasons and its thread's hold. -/
theorem outcome_frame (h : touches instr = false) :
    SameClaims s.bounds (s.outcome t thread answer rest instr).bounds ∧
      (s.outcome t thread answer rest instr).holder = thread.holder := by
  cases instr with
  | stamp kind => exact sameClaims_stampOutcome kind false rest
  | expiredRefill armedFor reason => exact sameClaims_stampOutcome _ _ _
  | stampWrite deadline own =>
    simp only [outcome]
    split <;> exact ⟨⟨rfl, rfl, rfl⟩, rfl⟩
  | disarm | orphanRPC | cancelRPC _ | expiredRead _ _ =>
    simp only [outcome]
    split <;> exact ⟨⟨rfl, rfl, rfl⟩, rfl⟩
  | bankExecuted =>
    simp only [outcome, update, RunBounds.bankExecuted]
    split <;> exact ⟨⟨rfl, rfl, rfl⟩, rfl⟩
  | retryTermination reason =>
    simp only [outcome, update, RunBounds.claimCancelRetry]
    split <;> exact ⟨⟨rfl, rfl, rfl⟩, rfl⟩
  | releaseTermination | clearEnd | claim _ | expiredClaim _ | claimOrphan | recordEnd _ =>
    cases h
  | _ => exact ⟨⟨rfl, rfl, rfl⟩, rfl⟩

/-- The reason a claiming step takes the claim with. -/
def claimReason : Instr → String
  | .claim reason | .expiredClaim reason => reason
  | _ => runEndOrphaned

/-- A claim that finds the run claimed leaves it; one that finds it free takes it. -/
theorem outcome_claim (h : instr.claims = true) :
    (s.outcome t thread answer rest instr).bounds.reasons = s.bounds.reasons ∧
    (s.outcome t thread answer rest instr).bounds.order = s.bounds.order ∧
    (s.outcome t thread answer rest instr).bounds.terminating =
      (if s.bounds.claimed thread.workflowID then s.bounds.terminating
        else Function.update s.bounds.terminating thread.workflowID (some t)) ∧
    (s.outcome t thread answer rest instr).holder =
      if s.bounds.claimed thread.workflowID then thread.holder else some (claimReason instr) := by
  have hclaim : ∀ reason won, let o := s.claimOutcome t thread reason won rest
      o.bounds.reasons = s.bounds.reasons ∧ o.bounds.order = s.bounds.order ∧
      o.bounds.terminating = (if s.bounds.claimed thread.workflowID then s.bounds.terminating
        else Function.update s.bounds.terminating thread.workflowID (some t)) ∧
      o.holder = if s.bounds.claimed thread.workflowID then thread.holder else some reason := by
    intro reason won
    by_cases hc : s.bounds.claimed thread.workflowID
    · simp [claimOutcome, hc, proceed]
    · simp [claimOutcome, hc, update, RunBounds.claimLocked]
  cases instr with
  | claim reason => exact hclaim reason _
  | expiredClaim reason => exact hclaim reason _
  | claimOrphan => exact hclaim _ _
  | _ => cases h

theorem outcome_release (h : instr = .releaseTermination) :
    let o := s.outcome t thread answer rest instr
    o.bounds.terminating = Function.update s.bounds.terminating thread.workflowID none ∧
      o.bounds.reasons = s.bounds.reasons ∧ o.bounds.order = s.bounds.order ∧ o.holder = none := by
  subst h
  exact ⟨rfl, rfl, rfl, rfl⟩

theorem outcome_clearEnd (h : instr = .clearEnd) :
    let o := s.outcome t thread answer rest instr
    o.bounds = s.bounds.clearEnd thread.workflowID ∧ o.holder = thread.holder := by
  subst h
  exact ⟨rfl, rfl⟩

theorem terminating_clearEnd (b : RunBounds) (id : String) :
    (b.clearEnd id).terminating = Function.update b.terminating id none := by
  unfold RunBounds.clearEnd
  dsimp only
  split <;> rfl

theorem outcome_recordEnd {reason : String} (h : instr = .recordEnd reason) :
    let o := s.outcome t thread answer rest instr
    o.bounds = s.bounds.recordEnd thread.workflowID reason ∧ o.holder = thread.holder := by
  subst h
  exact ⟨rfl, rfl⟩

theorem terminating_recordEnd (b : RunBounds) (id reason : String) :
    (b.recordEnd id reason).terminating = b.terminating := by
  unfold RunBounds.recordEnd
  split <;> rfl

/-- The kinds of step, as far as the claims and the reasons go. -/
theorem instr_kinds (instr : Instr) : touches instr = false ∨ instr.claims = true ∨
    instr = .releaseTermination ∨ instr = .clearEnd ∨ ∃ reason, instr = .recordEnd reason := by
  cases instr <;> simp [touches, Instr.claims, Instr.records]

theorem outcome_landed (h : thread.landed = true) :
    (s.outcome t thread answer rest instr).landed = true := by
  have hstamp : ∀ kind own skip rest, (s.stampOutcome t thread kind own skip rest).landed = true := by
    intro kind own skip rest
    unfold stampOutcome
    split
    · exact h
    · split <;> exact h
  have hclaim : ∀ reason won, (s.claimOutcome t thread reason won rest).landed = true := by
    intro reason won
    unfold claimOutcome
    split <;> exact h
  cases instr with
  | stamp kind => exact hstamp _ _ _ _
  | expiredRefill armedFor reason => exact hstamp _ _ _ _
  | claim reason => exact hclaim _ _
  | expiredClaim reason => exact hclaim _ _
  | claimOrphan => exact hclaim _ _
  | stampWrite _ _ | disarm | expiredRead _ _ =>
    simp only [outcome]
    split <;> exact h
  | cancelRPC _ | orphanRPC =>
    simp only [outcome]
    split
    · rfl
    · exact h
  | _ => exact h

/-! ## Steps of the system -/

/-- What an event that starts an operation, or moves the clock, leaves. -/
structure Begins (s s' : Host) : Prop where
  claims : SameClaims s.bounds s'.bounds
  cancelled : s'.cancelled = s.cancelled
  next : s.next ≤ s'.next
  threads : ∀ t thread, s'.threads t = some thread → s.threads t = some thread ∨
    s.next ≤ t ∧ t < s'.next ∧ thread.holder = none ∧ Typed none thread.landed thread.program

/-- A thread's step: its thread, its instruction, and the commit of its outcome. -/
structure Steps (s : Host) (e : Event) (s' : Host) (t : ℕ) (answer : Bool) (thread : Thread)
    (instr : Instr) (rest : List Instr) : Prop where
  event : e = .step t answer
  runs : s.threads t = some thread
  head : thread.program = instr :: rest
  enters : ¬ (instr.locks ∧ s.mu ≠ none ∧ s.mu ≠ some t)
  commit : s' = s.commit t thread instr answer (s.outcome t thread answer rest instr)

theorem spawn_begins {program : List Instr} (id : String) (hb : SameClaims s.bounds s'.bounds)
    (hc : s'.cancelled = s.cancelled) (hn : s'.next = s.next) (ht : s'.threads = s.threads)
    (htyped : Typed none false program) : Begins s (s'.spawn id program) where
  claims := hb
  cancelled := hc
  next := by
    rw [← hn]
    exact Nat.le_succ _
  threads := by
    intro t thread h
    by_cases hnt : t = s'.next
    · subst hnt
      have : thread = { workflowID := id, program } := by
        simpa [spawn] using h.symm
      subst this
      exact .inr ⟨Nat.le_of_eq hn.symm, Nat.lt_succ_self _, rfl, htyped⟩
    · left
      simpa [spawn, hnt, ht] using h

theorem step_thread (h : s.step (.step t answer) = some s') :
    ∃ thread instr rest, Steps s (.step t answer) s' t answer thread instr rest := by
  simp only [step] at h
  split at h
  · next id instr rest holder landed ht =>
    unfold exec at h
    split at h
    · cases h
    · next henter =>
      exact ⟨_, instr, rest, rfl, ht, rfl, henter, (Option.some_inj.mp h).symm⟩
  · cases h

theorem step_cases {e : Event} (h : s.step e = some s') :
    Begins s s' ∨ ∃ t answer thread instr rest, Steps s e s' t answer thread instr rest := by
  cases e with
  | tick elapsed =>
    obtain rfl := Option.some_inj.mp h
    exact .inl ⟨⟨rfl, rfl, rfl⟩, rfl, Nat.le_refl _, fun t thread ht => .inl ht⟩
  | spawn id op =>
    simp only [step] at h
    split at h
    · cases h
    · obtain rfl := Option.some_inj.mp h
      exact .inl (spawn_begins id ⟨rfl, rfl, rfl⟩ rfl rfl rfl op.typed)
  | fires id =>
    simp only [step] at h
    split at h
    · next timer _ =>
      split at h
      · obtain rfl := Option.some_inj.mp h
        have hs : SameClaims s.bounds (s.spendTimer id timer).bounds := ⟨rfl, rfl, rfl⟩
        exact .inl (spawn_begins id hs rfl rfl rfl (.of_leads rfl ⟨rfl, rfl⟩))
      · cases h
    · cases h
  | retryFires id reason =>
    simp only [step] at h
    split at h
    · obtain rfl := Option.some_inj.mp h
      exact .inl (spawn_begins id ⟨rfl, rfl, rfl⟩ rfl rfl rfl (.of_leads rfl ⟨rfl, rfl⟩))
    · cases h
  | step t answer =>
    obtain ⟨thread, instr, rest, hst⟩ := step_thread h
    exact .inr ⟨t, answer, thread, instr, rest, hst⟩

/-! ## What every run keeps -/

/-- The invariant of every interleaving. -/
structure Lawful (s : Host) : Prop where
  reasons : s.bounds.ReasonsKept
  typed : ∀ t thread, s.threads t = some thread →
    Typed thread.holder thread.landed thread.program
  fresh : ∀ t thread, s.threads t = some thread → t < s.next
  cancelled : ∀ id t, s.cancelled id = some t → t < s.next ∧ ∀ thread, s.threads t = some thread →
    thread.workflowID = id ∧ thread.landed = true ∧ (thread.holder = none ∨ thread.holder = some "")

theorem Begins.lawful (h : Begins s s') (hs : s.Lawful) : s'.Lawful where
  reasons := by
    obtain ⟨_, hr, ho⟩ := h.claims
    exact ⟨fun id => by rw [hr, ho]; exact hs.reasons.keys id, ho ▸ hs.reasons.nodup,
      ho ▸ hs.reasons.length⟩
  typed := by
    intro t thread ht
    rcases h.threads t thread ht with ht | ⟨_, _, hh, htyped⟩
    · exact hs.typed t thread ht
    · rw [hh]
      exact htyped
  fresh := by
    intro t thread ht
    rcases h.threads t thread ht with ht | ⟨_, hlt, _⟩
    · exact Nat.lt_of_lt_of_le (hs.fresh t thread ht) h.next
    · exact hlt
  cancelled := by
    intro id t hc
    rw [h.cancelled] at hc
    obtain ⟨hlt, hthread⟩ := hs.cancelled id t hc
    refine ⟨Nat.lt_of_lt_of_le hlt h.next, fun thread ht => ?_⟩
    rcases h.threads t thread ht with ht | ⟨hge, _⟩
    · exact hthread thread ht
    · exact absurd hlt (Nat.not_lt.mpr hge)

variable {e : Event}

theorem Steps.bounds (h : Steps s e s' t answer thread instr rest) :
    s'.bounds = (s.outcome t thread answer rest instr).bounds := by
  rw [h.commit]
  rfl

theorem Steps.next (h : Steps s e s' t answer thread instr rest) : s'.next = s.next := by
  rw [h.commit]
  rfl

theorem Steps.other (h : Steps s e s' t answer thread instr rest) {t' : ℕ} (ht : t' ≠ t) :
    s'.threads t' = s.threads t' := by
  rw [h.commit]
  exact Function.update_of_ne ht _ _

/-- A thread whose program goes on is still there after its step. -/
theorem Steps.alive (h : Steps s e s' t answer thread instr rest)
    (hp : (s.outcome t thread answer rest instr).program ≠ []) :
    ∃ thread', s'.threads t = some thread' := by
  rw [h.commit]
  change ∃ thread', Function.update s.threads t _ t = some thread'
  rw [Function.update_self, Outcome.thread, if_neg hp]
  exact ⟨_, rfl⟩

/-- The thread that stepped, when it has not ended. -/
theorem Steps.self (h : Steps s e s' t answer thread instr rest) {thread' : Thread}
    (ht : s'.threads t = some thread') :
    thread'.workflowID = thread.workflowID ∧
      thread'.program = (s.outcome t thread answer rest instr).program ∧
      thread'.holder = (s.outcome t thread answer rest instr).holder ∧
      thread'.landed = (s.outcome t thread answer rest instr).landed := by
  rw [h.commit] at ht
  change Function.update s.threads t _ t = some thread' at ht
  rw [Function.update_self, Outcome.thread] at ht
  split at ht
  · cases ht
  · obtain rfl := Option.some_inj.mp ht
    exact ⟨rfl, rfl, rfl, rfl⟩

theorem Steps.typed (h : Steps s e s' t answer thread instr rest) (hs : s.Lawful) :
    Typed thread.holder thread.landed (instr :: rest) := by
  rw [← h.head]
  exact hs.typed t thread h.runs

/-- A claim is taken by a thread that holds none and has landed none. -/
theorem Steps.claims_holder (h : Steps s e s' t answer thread instr rest) (hs : s.Lawful)
    (hc : instr.claims = true) : thread.holder = none ∧ thread.landed = false := by
  have hl : instr.leads = true := by cases instr <;> first | rfl | cases hc
  exact (h.typed hs).2.2.2.1 hl

/-- What a step does to the hold of its thread. -/
theorem Steps.holder (h : Steps s e s' t answer thread instr rest) {thread' : Thread}
    (ht : s'.threads t = some thread') :
    thread'.holder = thread.holder ∨ thread'.holder = none ∨
      instr.claims = true ∧ s.bounds.claimed thread.workflowID = false ∧
        thread'.holder = some (claimReason instr) := by
  rw [(h.self ht).2.2.1]
  rcases instr_kinds instr with hf | hc | hr | he | ⟨reason, hr⟩
  · exact .inl (outcome_frame hf).2
  · have hclaim := (@outcome_claim s t thread answer _ rest hc).2.2.2
    by_cases hb : s.bounds.claimed thread.workflowID = true
    · left
      rw [hclaim, if_pos hb]
    · right
      right
      rw [hclaim, if_neg hb]
      exact ⟨hc, by simpa using hb, rfl⟩
  · exact .inr (.inl (outcome_release hr).2.2.2)
  · exact .inl (outcome_clearEnd he).2
  · exact .inl (outcome_recordEnd hr).2

theorem Steps.lawful (h : Steps s e s' t answer thread instr rest) (hs : s.Lawful) :
    s'.Lawful where
  reasons := by
    rw [h.bounds]
    have hsame : ∀ {b : RunBounds}, b.reasons = s.bounds.reasons → b.order = s.bounds.order →
        b.ReasonsKept := by
      intro b hr ho
      exact ⟨fun id => by rw [hr, ho]; exact hs.reasons.keys id, ho ▸ hs.reasons.nodup,
        ho ▸ hs.reasons.length⟩
    rcases instr_kinds instr with hf | hc | hr | he | ⟨reason, hr⟩
    · obtain ⟨⟨_, hr, ho⟩, _⟩ := @outcome_frame s t thread answer _ rest hf
      exact hsame hr ho
    · have hclaim := @outcome_claim s t thread answer _ rest hc
      exact hsame hclaim.1 hclaim.2.1
    · have hrel := @outcome_release s t thread answer _ rest hr
      exact hsame hrel.2.1 hrel.2.2.1
    · rw [(outcome_clearEnd he).1]
      exact hs.reasons.clearEnd
    · rw [(outcome_recordEnd hr).1]
      exact hs.reasons.recordEnd reason
  typed := by
    intro t' thread' ht
    by_cases htt : t' = t
    · subst htt
      obtain ⟨_, hp, hh, hl⟩ := h.self ht
      rw [hp, hh, hl]
      exact outcome_typed (h.typed hs)
    · rw [h.other htt] at ht
      exact hs.typed t' thread' ht
  fresh := by
    intro t' thread' ht
    rw [h.next]
    by_cases htt : t' = t
    · subst htt
      exact hs.fresh t' thread h.runs
    · rw [h.other htt] at ht
      exact hs.fresh t' thread' ht
  cancelled := by
    intro id t' hc
    rw [h.next]
    have hold : s.cancelled id = some t' → t' < s.next ∧ ∀ thread', s'.threads t' = some thread' →
        thread'.workflowID = id ∧ thread'.landed = true ∧
          (thread'.holder = none ∨ thread'.holder = some "") := by
      intro hc
      obtain ⟨hlt, hthread⟩ := hs.cancelled id t' hc
      refine ⟨hlt, fun thread' ht => ?_⟩
      by_cases htt : t' = t
      · subst htt
        obtain ⟨hid, hl, hh⟩ := hthread thread h.runs
        obtain ⟨hid', _, _, hl'⟩ := h.self ht
        refine ⟨hid'.trans hid, by rw [hl']; exact outcome_landed hl, ?_⟩
        rcases h.holder ht with hsame | hnone | ⟨hclaims, _, _⟩
        · rw [hsame]
          exact hh
        · exact .inl hnone
        · have := (h.claims_holder hs hclaims).2
          rw [hl] at this
          cases this
      · rw [h.other htt] at ht
        exact hthread thread' ht
    rw [h.commit] at hc
    change s.noteCancelled t thread instr answer id = some t' at hc
    unfold noteCancelled at hc
    split at hc
    · next hcancel =>
      obtain ⟨hinstr, hans⟩ := hcancel
      by_cases hid : id = thread.workflowID
      · subst hid
        rw [Function.update_self] at hc
        obtain rfl := Option.some_inj.mp hc
        refine ⟨hs.fresh t thread h.runs, fun thread' ht => ?_⟩
        obtain ⟨hid', _, hh', hl'⟩ := h.self ht
        have hholder : thread.holder = some "" := (h.typed hs).1 "" (by rw [hinstr]; rfl)
        refine ⟨hid', ?_, .inr ?_⟩
        · rw [hl', hinstr]
          simp [outcome, hans]
        · rw [hh', hinstr, ← hholder]
          simp [outcome, hans, proceed]
      · rw [Function.update_of_ne hid] at hc
        exact hold hc
    · exact hold hc

theorem step_lawful (hs : s.Lawful) (h : s.step e = some s') : s'.Lawful := by
  rcases step_cases h with hb | ⟨t, answer, thread, instr, rest, hst⟩
  · exact hb.lawful hs
  · exact hst.lawful hs

/-! ## One holder -/

/-- At most one party holds a run's claim. -/
def OneHolder (s : Host) : Prop :=
  ∀ t t' thread thread', s.threads t = some thread → s.threads t' = some thread' →
    thread.workflowID = thread'.workflowID → thread.holder.isSome → thread'.holder.isSome → t = t'

/-- A step that finds a run unclaimed and takes its claim. -/
def TakesClaim (s : Host) (e : Event) (id : String) : Prop :=
  s.bounds.claimed id = false ∧ ∃ t answer thread instr rest, e = .step t answer ∧
    s.threads t = some thread ∧ thread.program = instr :: rest ∧ instr.claims = true ∧
    thread.workflowID = id

/-- No party is between its claim on a run and the end of its attempt. -/
def NoHolder (s : Host) (id : String) : Prop :=
  ∀ t thread, s.threads t = some thread → thread.workflowID = id → thread.holder = none

/-- One holder at a time, and a standing claim is that of every party that holds one. -/
structure Exclusive (s : Host) : Prop where
  one : s.OneHolder
  standing : ∀ id t, s.bounds.terminating id = some t → ∀ t' thread, s.threads t' = some thread →
    thread.workflowID = id → thread.holder.isSome → t' = t

/-- Fewer holders and fewer standing claims. -/
theorem Exclusive.mono (h : s.Exclusive)
    (hthreads : ∀ t thread', s'.threads t = some thread' → thread'.holder.isSome →
      ∃ thread, s.threads t = some thread ∧ thread.workflowID = thread'.workflowID ∧
        thread.holder.isSome)
    (hclaims : ∀ id t, s'.bounds.terminating id = some t → s.bounds.terminating id = some t) :
    s'.Exclusive where
  one := by
    intro t t' thread thread' ht ht' hid hh hh'
    obtain ⟨old, ho, hido, hho⟩ := hthreads t thread ht hh
    obtain ⟨old', ho', hido', hho'⟩ := hthreads t' thread' ht' hh'
    exact h.one t t' old old' ho ho' (hido.trans (hid.trans hido'.symm)) hho hho'
  standing := by
    intro id t hc t' thread ht hid hh
    obtain ⟨old, ho, hido, hho⟩ := hthreads t' thread ht hh
    exact h.standing id t (hclaims id t hc) t' old ho (hido.trans hid) hho

theorem Begins.exclusive (h : Begins s s') (hs : s.Exclusive) : s'.Exclusive := by
  apply hs.mono
  · intro t thread ht hh
    rcases h.threads t thread ht with ht | ⟨_, _, hnone, _⟩
    · exact ⟨thread, ht, rfl, hh⟩
    · rw [hnone] at hh
      cases hh
  · intro id t hc
    rwa [h.claims.1] at hc

/-- A step that takes no claim leaves no further holder. -/
theorem Steps.mono (h : Steps s e s' t answer thread instr rest)
    (hno : ¬ (instr.claims = true ∧ s.bounds.claimed thread.workflowID = false)) :
    ∀ t' thread', s'.threads t' = some thread' → thread'.holder.isSome →
      ∃ old, s.threads t' = some old ∧ old.workflowID = thread'.workflowID ∧ old.holder.isSome := by
  intro t' thread' ht hh
  by_cases htt : t' = t
  · subst htt
    refine ⟨thread, h.runs, (h.self ht).1.symm, ?_⟩
    rcases h.holder ht with hsame | hnone | ⟨hclaims, hfree, _⟩
    · rwa [← hsame]
    · rw [hnone] at hh
      cases hh
    · exact absurd ⟨hclaims, hfree⟩ hno
  · rw [h.other htt] at ht
    exact ⟨thread', ht, rfl, hh⟩

theorem Steps.terminating (h : Steps s e s' t answer thread instr rest)
    (hno : ¬ (instr.claims = true ∧ s.bounds.claimed thread.workflowID = false)) :
    ∀ id t', s'.bounds.terminating id = some t' → s.bounds.terminating id = some t' := by
  have hdrop : ∀ id t', Function.update s.bounds.terminating thread.workflowID none id = some t' →
      s.bounds.terminating id = some t' := by
    intro id t' hc
    by_cases hid : id = thread.workflowID
    · subst hid
      rw [Function.update_self] at hc
      cases hc
    · rwa [Function.update_of_ne hid] at hc
  intro id t' hc
  rw [h.bounds] at hc
  rcases instr_kinds instr with hf | hcl | hr | he | ⟨reason, hr⟩
  · rwa [(outcome_frame hf).1.1] at hc
  · have hbusy : s.bounds.claimed thread.workflowID = true := by
      by_contra hb
      exact hno ⟨hcl, by simpa using hb⟩
    rwa [(outcome_claim hcl).2.2.1, if_pos hbusy] at hc
  · rw [(outcome_release hr).1] at hc
    exact hdrop id t' hc
  · rw [(outcome_clearEnd he).1, terminating_clearEnd] at hc
    exact hdrop id t' hc
  · rwa [(outcome_recordEnd hr).1, terminating_recordEnd] at hc

/-- A claim taken while no party holds one leaves its thread the one holder. -/
theorem Steps.exclusive (h : Steps s e s' t answer thread instr rest) (hs : s.Exclusive)
    (hquiet : ∀ id, TakesClaim s e id → NoHolder s id) : s'.Exclusive := by
  by_cases htake : instr.claims = true ∧ s.bounds.claimed thread.workflowID = false
  · obtain ⟨hcl, hfree⟩ := htake
    have hnone := hquiet thread.workflowID
      ⟨hfree, t, answer, thread, instr, rest, h.event, h.runs, h.head, hcl, rfl⟩
    have hself : ∀ t' thread', s'.threads t' = some thread' →
        thread'.workflowID = thread.workflowID → thread'.holder.isSome → t' = t := by
      intro t' thread' ht hid hh
      by_contra htt
      rw [h.other htt] at ht
      rw [hnone t' thread' ht hid] at hh
      cases hh
    have hother : ∀ t' thread', s'.threads t' = some thread' →
        thread'.workflowID ≠ thread.workflowID → s.threads t' = some thread' := by
      intro t' thread' ht hid
      by_cases htt : t' = t
      · subst htt
        exact absurd (h.self ht).1 hid
      · rwa [h.other htt] at ht
    refine ⟨?_, ?_⟩
    · intro t₁ t₂ thread₁ thread₂ h₁ h₂ hid hh₁ hh₂
      by_cases hid₁ : thread₁.workflowID = thread.workflowID
      · rw [hself t₁ thread₁ h₁ hid₁ hh₁, hself t₂ thread₂ h₂ (hid ▸ hid₁) hh₂]
      · exact hs.one t₁ t₂ thread₁ thread₂ (hother t₁ thread₁ h₁ hid₁)
          (hother t₂ thread₂ h₂ fun he => hid₁ (hid.trans he)) hid hh₁ hh₂
    · intro id t₁ hc t₂ thread₂ h₂ hid hh₂
      rw [h.bounds, (outcome_claim hcl).2.2.1, if_neg (by simp [hfree])] at hc
      by_cases hidt : id = thread.workflowID
      · subst hidt
        rw [Function.update_self] at hc
        rw [← Option.some_inj.mp hc]
        exact hself t₂ thread₂ h₂ hid hh₂
      · rw [Function.update_of_ne hidt] at hc
        exact hs.standing id t₁ hc t₂ thread₂ (hother t₂ thread₂ h₂ (hid ▸ hidt)) hid hh₂
  · exact hs.mono (h.mono htake) (h.terminating htake)

theorem step_exclusive (hs : s.Exclusive) (h : s.step e = some s')
    (hquiet : ∀ id, TakesClaim s e id → NoHolder s id) : s'.Exclusive := by
  rcases step_cases h with hb | ⟨t, answer, thread, instr, rest, hst⟩
  · exact hb.exclusive hs
  · exact hst.exclusive hs hquiet

theorem won_ne_nil {instr : Instr} (hc : instr.claims = true)
    (hfree : s.bounds.claimed thread.workflowID = false) :
    (s.outcome t thread answer rest instr).program ≠ [] := by
  have hclaim : ∀ reason won, won ≠ [] →
      (s.claimOutcome t thread reason won rest).program ≠ [] := by
    intro reason won hwon
    simp [claimOutcome, hfree, update, proceed, hwon]
  cases instr with
  | claim reason => exact hclaim _ _ (by simp [finishTermination])
  | expiredClaim reason => exact hclaim _ _ (by simp [finishTermination])
  | claimOrphan => exact hclaim _ _ (by simp)
  | _ => cases hc

/-- A claim taken while another party holds one leaves two holders. -/
theorem two_holders (hs : s.Lawful) (h : s.step e = some s') {id : String}
    (htake : TakesClaim s e id) (hbusy : ¬ NoHolder s id) : ¬ s'.OneHolder := by
  obtain ⟨hfree, t, answer, thread, instr, rest, rfl, hrun, hprog, hcl, rfl⟩ := htake
  obtain ⟨thread₁, instr₁, rest₁, hst⟩ := step_thread h
  obtain rfl := Option.some_inj.mp (hst.runs.symm.trans hrun)
  obtain ⟨rfl, rfl⟩ := List.cons.inj (hst.head.symm.trans hprog)
  unfold NoHolder at hbusy
  push Not at hbusy
  obtain ⟨t', thread', ht', hid, hh⟩ := hbusy
  have hne : t' ≠ t := by
    rintro rfl
    obtain rfl := Option.some_inj.mp (ht'.symm.trans hrun)
    exact hh (hst.claims_holder hs hcl).1
  obtain ⟨won, hwon⟩ := hst.alive (won_ne_nil hcl hfree)
  obtain ⟨hwid, _, hwholder, _⟩ := hst.self hwon
  have hwh : won.holder.isSome := by
    rw [hwholder, (outcome_claim hcl).2.2.2, if_neg (by simp [hfree])]
    rfl
  intro hone
  exact hne (hone t' t thread' won (by rwa [hst.other hne]) hwon (hid.trans hwid.symm)
    (Option.isSome_iff_ne_none.mpr hh) hwh)

/-! ## Reasons -/

/-- A reason is recorded only by a party that holds the claim with it, after its cancel
landed. -/
def RecordedByHolder (s : Host) (e : Event) (s' : Host) : Prop :=
  ∀ id r, s'.bounds.reasons id = some r → s.bounds.reasons id = some r ∨
    ∃ t answer thread, e = .step t answer ∧ s.threads t = some thread ∧ thread.workflowID = id ∧
      thread.holder = some r ∧ thread.landed = true

/-- While the claim of a user's landed cancel stands, its run gets no reason. -/
def CancelSilent (s s' : Host) : Prop :=
  ∀ id t, s.bounds.terminating id = some t → s.cancelled id = some t →
    ∀ r, s'.bounds.reasons id = some r → s.bounds.reasons id = some r

/-- A cancel that is refused, or not issued after all, goes on to hand its claim back, and a
claim handed back leaves the run claimable. -/
def RefusalReleases (s : Host) (e : Event) (s' : Host) : Prop :=
  ∀ t answer thread instr rest, e = .step t answer → s.threads t = some thread →
    thread.program = instr :: rest →
    (instr.last = true → instr.leads = false → answer = false →
      ∃ thread', s'.threads t = some thread' ∧ thread'.program.head? = some .releaseTermination) ∧
    (instr = .releaseTermination → s'.bounds.claimed thread.workflowID = false)

/-- A re-drive starts without a reason. -/
def RedriveClears (s : Host) (e : Event) (s' : Host) : Prop :=
  ∀ t answer thread rest, e = .step t answer → s.threads t = some thread →
    thread.program = .clearEnd :: rest → s'.bounds.reasons thread.workflowID = none

theorem evict_some {reasons : String → Option String} {order : List String} {id r : String}
    (h : (RunBounds.evict reasons order).1 id = some r) : reasons id = some r := by
  induction order generalizing reasons with
  | nil => exact h
  | cons a order ih =>
    unfold RunBounds.evict at h
    split at h
    · have hu := ih h
      by_cases hid : id = a
      · subst hid
        rw [Function.update_self] at hu
        cases hu
      · rwa [Function.update_of_ne hid] at hu
    · exact h

theorem reasons_recordEnd {b : RunBounds} {id id' reason r : String}
    (h : (b.recordEnd id reason).reasons id' = some r) :
    b.reasons id' = some r ∨ id' = id ∧ r = reason ∧ reason ≠ "" := by
  unfold RunBounds.recordEnd at h
  split at h
  · exact .inl h
  · next hne =>
    have hu := evict_some h
    by_cases hid : id' = id
    · subst hid
      rw [Function.update_self] at hu
      exact .inr ⟨rfl, (Option.some_inj.mp hu).symm, fun he => hne (.inr he)⟩
    · rw [Function.update_of_ne hid] at hu
      exact .inl hu

theorem reasons_clearEnd_some {b : RunBounds} {id id' r : String}
    (h : (b.clearEnd id).reasons id' = some r) : b.reasons id' = some r := by
  by_cases hid : id' = id
  · subst hid
    rw [RunBounds.reasons_clearEnd] at h
    cases h
  · unfold RunBounds.clearEnd at h
    dsimp only at h
    split at h
    · exact h
    · simpa [hid] using h

/-- A step that gives a run a reason is the recording one, by its holder. -/
theorem step_reasons (hs : s.Lawful) (h : s.step e = some s') {id r : String}
    (hr : s'.bounds.reasons id = some r) : s.bounds.reasons id = some r ∨
      r ≠ "" ∧ ∃ t answer thread, e = .step t answer ∧ s.threads t = some thread ∧
        thread.workflowID = id ∧ thread.holder = some r ∧ thread.landed = true := by
  rcases step_cases h with hb | ⟨t, answer, thread, instr, rest, hst⟩
  · left
    rwa [hb.claims.2.1] at hr
  · rw [hst.bounds] at hr
    rcases instr_kinds instr with hf | hcl | hrel | he | ⟨reason, hrec⟩
    · left
      rwa [(outcome_frame hf).1.2.1] at hr
    · left
      rwa [(outcome_claim hcl).1] at hr
    · left
      rwa [(outcome_release hrel).2.1] at hr
    · left
      rw [(outcome_clearEnd he).1] at hr
      exact reasons_clearEnd_some hr
    · rw [(outcome_recordEnd hrec).1] at hr
      rcases reasons_recordEnd hr with hold | ⟨rfl, rfl, hne⟩
      · exact .inl hold
      · have htyped := hst.typed hs
        exact .inr ⟨hne, t, answer, thread, hst.event, hst.runs, rfl,
          htyped.1 _ (by rw [hrec]; rfl), htyped.2.1 (by rw [hrec]; rfl)⟩

theorem step_recorded (hs : s.Lawful) (h : s.step e = some s') : RecordedByHolder s e s' := by
  intro id r hr
  rcases step_reasons hs h hr with hold | ⟨_, hby⟩
  · exact .inl hold
  · exact .inr hby

theorem step_silent (hs : s.Lawful) (hx : s.Exclusive) (h : s.step e = some s') :
    CancelSilent s s' := by
  intro id t hstand hcancel r hr
  rcases step_reasons hs h hr with hold | ⟨hne, t', _, thread, _, ht', hid, hholder, _⟩
  · exact hold
  · have htt : t' = t := hx.standing id t hstand t' thread ht' hid (by simp [hholder])
    subst htt
    rcases ((hs.cancelled id t' hcancel).2 thread ht').2.2 with hnone | huser
    · rw [hnone] at hholder
      cases hholder
    · rw [huser] at hholder
      exact absurd (Option.some_inj.mp hholder).symm hne

theorem step_refusal (h : s.step e = some s') : RefusalReleases s e s' := by
  rintro t answer thread instr rest rfl ht hprog
  obtain ⟨thread₁, instr₁, rest₁, hst⟩ := step_thread h
  obtain rfl := Option.some_inj.mp (hst.runs.symm.trans ht)
  obtain ⟨rfl, rfl⟩ := List.cons.inj (hst.head.symm.trans hprog)
  constructor
  · rintro hlast hlead rfl
    have hhead : (s.outcome t thread₁ false rest₁ instr₁).program.head? =
        some .releaseTermination := by
      cases instr₁ with
      | cancelRPC reason => rfl
      | restartPaused => rfl
      | orphanRPC => rfl
      | _ => simp_all [Instr.last, Instr.leads]
    obtain ⟨thread', ht'⟩ := hst.alive (fun hnil => by simp [hnil] at hhead)
    exact ⟨thread', ht', (hst.self ht').2.1 ▸ hhead⟩
  · intro hrel
    rw [hst.bounds, RunBounds.claimed, (outcome_release hrel).1, Function.update_self]
    rfl

theorem step_redrive (h : s.step e = some s') : RedriveClears s e s' := by
  rintro t answer thread rest rfl ht hprog
  obtain ⟨thread₁, instr₁, rest₁, hst⟩ := step_thread h
  obtain rfl := Option.some_inj.mp (hst.runs.symm.trans ht)
  obtain ⟨rfl, rfl⟩ := List.cons.inj (hst.head.symm.trans hprog)
  rw [hst.bounds, (outcome_clearEnd rfl).1]
  exact RunBounds.reasons_clearEnd

end Host

/-! ## Runs -/

open Host

variable {stored : Leases}

theorem lawful_boot : (boot stored).Lawful where
  reasons := ⟨fun id => by simp [boot], List.nodup_nil, by simp [boot]⟩
  typed := nofun
  fresh := nofun
  cancelled := nofun

theorem exclusive_boot : (boot stored).Exclusive where
  one := nofun
  standing := nofun

theorem run_lawful {events : List Event} {s : Host} (h : (boot stored).run events = some s) :
    s.Lawful := by
  induction events using List.reverseRecOn generalizing s with
  | nil =>
    obtain rfl := Option.some_inj.mp h
    exact lawful_boot
  | append_singleton events e ih =>
    obtain ⟨s₁, h₁, hstep⟩ := run_snoc.mp h
    exact step_lawful (ih h₁) hstep

/-- One holder and one reason over a run: in each state at most one party holds a run's claim
and the reasons match their queue; in each step a reason is recorded only by a holder whose
cancel landed and not while a user's landed cancel stands, a refusal hands the claim back, and
a re-drive starts without a reason. -/
structure EndsOnce (stored : Leases) (events : List Event) : Prop where
  holder : ∀ pre s, pre <+: events → (boot stored).run pre = some s → s.OneHolder
  reasons : ∀ pre s, pre <+: events → (boot stored).run pre = some s → s.bounds.ReasonsKept
  recorded : ∀ pre e s s', pre ++ [e] <+: events → (boot stored).run pre = some s →
    s.step e = some s' → RecordedByHolder s e s'
  silent : ∀ pre e s s', pre ++ [e] <+: events → (boot stored).run pre = some s →
    s.step e = some s' → CancelSilent s s'
  refusal : ∀ pre e s s', pre ++ [e] <+: events → (boot stored).run pre = some s →
    s.step e = some s' → RefusalReleases s e s'
  redrive : ∀ pre e s s', pre ++ [e] <+: events → (boot stored).run pre = some s →
    s.step e = some s' → RedriveClears s e s'

/-- No step of a run takes a claim while an earlier holder, whose claim was dropped under it,
is still at its attempt. -/
def Undisturbed (stored : Leases) (events : List Event) : Prop :=
  ∀ pre e s s', pre ++ [e] <+: events → (boot stored).run pre = some s → s.step e = some s' →
    ∀ id, TakesClaim s e id → NoHolder s id

theorem run_exclusive {events pre : List Event} {s : Host} (hu : Undisturbed stored events)
    (hpre : pre <+: events) (h : (boot stored).run pre = some s) : s.Exclusive := by
  induction pre using List.reverseRecOn generalizing s with
  | nil =>
    obtain rfl := Option.some_inj.mp h
    exact exclusive_boot
  | append_singleton pre e ih =>
    obtain ⟨s₁, h₁, hstep⟩ := run_snoc.mp h
    have hx := ih ((List.prefix_append pre [e]).trans hpre) h₁
    exact step_exclusive hx hstep (hu pre e s₁ s hpre h₁ hstep)

/-- A run goes on the wire, its window passes, and its deadline's callback takes the claim. A
terminal frame drops that claim while the cancel is out, the run is re-driven, and the user
cancels it: two parties hold the claim, and the first one's cancel lands after the user's. -/
def overtaken : List Event :=
  [.spawn "r" (.launch none), .step 0 false, .step 0 true] ++ List.replicate 3 (.step 0 false) ++
  [.tick (15 * 60 * 10 ^ 9), .fires "r"] ++ List.replicate 5 (.step 1 false) ++
  [.spawn "r" .complete] ++ List.replicate 5 (.step 2 false) ++
  [.spawn "r" .rearm] ++ List.replicate 8 (.step 3 false) ++
  [.spawn "r" .cancel, .step 4 false, .step 4 true, .step 1 true]

end Marotte.Runs
