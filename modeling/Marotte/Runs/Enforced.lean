import Marotte.Runs.Claims

/-! # Every bounded lease is enforced

The deadline is kept by the leases and its timer by a map of its own, each under its own lock.
While an operation is between the two, one of its remaining steps answers for the deadline.
-/
namespace Marotte.Runs

namespace Instr

/-- The steps by which a thread still answers for the deadline `d` of its run. -/
def answers (d : Time) : Instr → Bool
  | stampTimer d' _ => d' = d
  | expired armedFor | expiredSpent armedFor .. | expiredWorking armedFor .. => armedFor = d
  | expiredRefill armedFor _ | expiredRead armedFor _ => armedFor = d
  | expiredClaim _ | claim _ | claimOrphan | retryBounded _ | cancelRPC _ => true
  | retryTermination _ | disarm | parkDeadline => true
  | _ => false

/-- The steps that stop the timer of a parked run, bound it again, or release its lease. -/
def settles : Instr → Bool
  | stopTimer | stamp .arm | stampWrite .. | invoke | releaseLease | disarm => true
  | _ => false

/-- The later steps of one hold of the bounds' lock. -/
def within : Instr → Bool
  | stampWrite .. | stampTimer .. | expiredClaim _ => true
  | _ => false

/-- The steps that write a lease, a timer or the mark of a spent budget. -/
def retimes : Instr → Bool
  | stampWrite .. | stampTimer .. | parkDeadline | stopTimer | releaseLease | grant _ => true
  | retryTermination _ => true
  | _ => false

/-- The steps that leave a lease without a deadline. -/
def unsettles : Instr → Bool
  | parkDeadline | grant _ | grantIfMissing => true
  | _ => false

/-- The timer's update, the last step of a stamp. -/
def timed : Instr → Bool
  | stampTimer .. => true
  | _ => false

/-- The stamps of a callback that yields to a live shell: the callback returns after them. -/
def yields : Instr → Bool
  | stampWrite _ own | stampTimer _ own => own
  | i => i.leads

theorem within_of_timed {i : Instr} (h : i.timed = true) : i.within = true := by
  cases i <;> first | rfl | cases h

end Instr

/-- The order of a program's steps: what is done inside one hold of the lock comes at its head,
a lease left without a deadline is settled after, and a callback that yields settles nothing. -/
def Shaped : List Instr → Prop
  | [] => True
  | i :: rest =>
    (∀ j ∈ rest, j.within = false) ∧ (i.unsettles = true → ∃ j ∈ rest, j.settles = true) ∧
    (i.yields = true → ∀ j ∈ rest, j.settles = false) ∧ Shaped rest

theorem Shaped.cons {i j : Instr} {rest : List Instr} (h : Shaped (j :: rest))
    (hu : i.unsettles = false) (hy : i.yields = false) : Shaped (i :: rest) :=
  ⟨h.1, by simp [hu], by simp [hy], h.2.2.2⟩

theorem Shaped.push {i j : Instr} {rest : List Instr} (h : Shaped (j :: rest))
    (hj : j.within = false) (hu : i.unsettles = false) (hy : i.yields = false) :
    Shaped (i :: j :: rest) := by
  refine ⟨fun k hk => ?_, by simp [hu], by simp [hy], h⟩
  rcases List.mem_cons.mp hk with rfl | hk
  · exact hj
  · exact h.1 k hk

theorem Operation.shaped (op : Operation) : Shaped op.program := by
  cases op <;> simp [Operation.program, disarmDeadline, forgetBounds, rearmRetried, Shaped,
    Instr.within, Instr.unsettles, Instr.settles, Instr.yields, Instr.leads]

namespace Host

variable {s s' : Host} {t : ℕ} {thread : Thread} {answer : Bool} {instr : Instr}
  {rest : List Instr} {e : Event} {id : String} {d : Time}

def deadline (s : Host) (id : String) : Option Time := (s.bounds.leases id).bind Lease.deadline

/-- A timer is set for exactly the deadline, and has not fired. -/
def Pending (s : Host) (id : String) (d : Time) : Prop :=
  s.bounds.timers id = some { deadline := d, pending := true }

/-- A re-attempt of a refused cancel is scheduled, or the last one was refused and logged. -/
def Retried (s : Host) (id : String) : Prop :=
  (∃ reason, (id, reason) ∈ s.retries) ∨ s.bounds.unretried id = true

def Enforced (s : Host) (id : String) (d : Time) : Prop :=
  s.Pending id d ∨ s.bounds.claimed id = true ∨ s.Retried id

/-- Some operation on the run has a step ahead of it that is `p`. -/
def Ahead (s : Host) (id : String) (p : Instr → Bool) : Prop :=
  ∃ t thread, s.threads t = some thread ∧ thread.workflowID = id ∧ ∃ i ∈ thread.program, p i = true

/-- An operation midway on the run has a step ahead that answers for its deadline. -/
def Midway (s : Host) (id : String) (d : Time) : Prop := s.Ahead id (Instr.answers d)

/-! ## What a step does to the leases and the timers -/

/-- Two states of the bounds with the same leases, timers and spent marks. -/
def SameTimes (b b' : RunBounds) : Prop :=
  b'.leases = b.leases ∧ b'.timers = b.timers ∧ b'.unretried = b.unretried

theorem sameTimes_decide (b : RunBounds) (id : String) (kind : RunBounds.Stamp) (l : Lease)
    (now : Time) : SameTimes b (b.decide id kind l now).1 := by
  cases kind with
  | arm =>
    by_cases hb : l.bounded = true
    · simp only [RunBounds.decide, if_pos hb]
      exact ⟨rfl, rfl, rfl⟩
    · simp only [RunBounds.decide, if_neg hb]
      exact ⟨rfl, rfl, rfl⟩
  | refill =>
    cases hd : l.deadline with
    | none =>
      simp only [RunBounds.decide, hd]
      exact ⟨rfl, rfl, rfl⟩
    | some deadline =>
      simp only [RunBounds.decide, hd]
      split
      · exact ⟨rfl, rfl, rfl⟩
      · exact ⟨rfl, rfl, rfl⟩

/-- A stamp's read leaves the bounds, and either skips or goes on to its write. -/
theorem stampOutcome_spec (kind : RunBounds.Stamp) (own : Bool) (skip : List Instr) :
    SameTimes s.bounds (s.stampOutcome t thread kind own skip rest).bounds ∧
      (s.stampOutcome t thread kind own skip rest).retries = s.retries ∧
      ((s.stampOutcome t thread kind own skip rest).program = skip ∧
          (s.stampOutcome t thread kind own skip rest).mu = s.mu ∨
        ∃ deadline, (s.stampOutcome t thread kind own skip rest).program =
            .stampWrite deadline own :: rest ∧
          (s.stampOutcome t thread kind own skip rest).mu = some t) := by
  unfold stampOutcome
  split
  · exact ⟨⟨rfl, rfl, rfl⟩, rfl, .inl ⟨rfl, rfl⟩⟩
  · next l _ =>
    have h := sameTimes_decide s.bounds thread.workflowID kind l s.now
    split
    · next hd =>
      rw [hd] at h
      exact ⟨h, rfl, .inl ⟨rfl, rfl⟩⟩
    · next deadline hd =>
      rw [hd] at h
      exact ⟨h, rfl, .inr ⟨deadline, rfl, rfl⟩⟩

/-- A claim leaves the leases and the timers; its winner's steps come before the rest. -/
theorem claimOutcome_spec (reason : String) (won : List Instr) :
    SameTimes s.bounds (s.claimOutcome t thread reason won rest).bounds ∧
      (s.claimOutcome t thread reason won rest).retries = s.retries ∧
      (s.claimOutcome t thread reason won rest).mu = s.mu ∧
      ((s.claimOutcome t thread reason won rest).program = rest ∨
        (s.claimOutcome t thread reason won rest).program = won ++ rest) := by
  unfold claimOutcome RunBounds.claimLocked
  split
  · exact ⟨⟨rfl, rfl, rfl⟩, rfl, rfl, .inl rfl⟩
  · exact ⟨⟨rfl, rfl, rfl⟩, rfl, rfl, .inr rfl⟩

theorem sameTimes_clearEnd (b : RunBounds) (id : String) : SameTimes b (b.clearEnd id) := by
  unfold RunBounds.clearEnd
  dsimp only
  split <;> exact ⟨rfl, rfl, rfl⟩

theorem sameTimes_recordEnd (b : RunBounds) (id reason : String) :
    SameTimes b (b.recordEnd id reason) := by
  unfold RunBounds.recordEnd
  split <;> exact ⟨rfl, rfl, rfl⟩

/-- Every other step leaves the leases, the timers and the re-attempts. -/
theorem outcome_times (h : instr.retimes = false) :
    SameTimes s.bounds (s.outcome t thread answer rest instr).bounds ∧
      (s.outcome t thread answer rest instr).retries = s.retries := by
  cases instr with
  | stamp kind =>
    obtain ⟨hs, hr, _⟩ := @stampOutcome_spec s t thread rest kind false rest
    exact ⟨hs, hr⟩
  | expiredRefill armedFor reason =>
    obtain ⟨hs, hr, _⟩ := @stampOutcome_spec s t thread (.expiredRead armedFor reason :: rest)
      .refill true (.expiredRead armedFor reason :: rest)
    exact ⟨hs, hr⟩
  | claim reason =>
    obtain ⟨hs, hr, _⟩ := @claimOutcome_spec s t thread rest reason
      (finishTermination reason)
    exact ⟨hs, hr⟩
  | expiredClaim reason =>
    obtain ⟨hs, hr, _⟩ := @claimOutcome_spec s t thread rest reason
      (finishTermination reason)
    exact ⟨hs, hr⟩
  | claimOrphan =>
    obtain ⟨hs, hr, _⟩ := @claimOutcome_spec s t thread rest runEndOrphaned
      [.restartPaused]
    exact ⟨hs, hr⟩
  | disarm | orphanRPC | cancelRPC _ | expiredRead _ _ =>
    simp only [outcome]
    split <;> exact ⟨⟨rfl, rfl, rfl⟩, rfl⟩
  | bankExecuted =>
    simp only [outcome, update, RunBounds.bankExecuted]
    split <;> exact ⟨⟨rfl, rfl, rfl⟩, rfl⟩
  | clearEnd => exact ⟨sameTimes_clearEnd _ _, rfl⟩
  | recordEnd reason => exact ⟨sameTimes_recordEnd _ _ _, rfl⟩
  | stampWrite _ _ | stampTimer _ _ | parkDeadline | stopTimer | releaseLease | grant _
  | retryTermination _ => cases h
  | _ => exact ⟨⟨rfl, rfl, rfl⟩, rfl⟩

/-- What follows a step stays ahead, but for the callback that returns after its stamp. -/
theorem outcome_rest (h : ∀ deadline, instr ≠ .stampTimer deadline true) :
    rest ⊆ (s.outcome t thread answer rest instr).program := by
  have hcons : ∀ {i : Instr} {l}, rest ⊆ l → rest ⊆ i :: l :=
    fun hl => List.subset_cons_of_subset _ hl
  have hrefl : rest ⊆ rest := List.Subset.refl rest
  have hclaim : ∀ reason won, rest ⊆ (s.claimOutcome t thread reason won rest).program := by
    intro reason won
    obtain ⟨_, _, _, hp | hp⟩ := @claimOutcome_spec s t thread rest reason won
    · rw [hp]
      exact hrefl
    · rw [hp]
      exact List.subset_append_right _ _
  have hstamp : ∀ kind own skip rest', rest ⊆ skip → rest ⊆ rest' →
      rest ⊆ (s.stampOutcome t thread kind own skip rest').program := by
    intro kind own skip rest' hskip hrest
    obtain ⟨_, _, ⟨hp, _⟩ | ⟨deadline, hp, _⟩⟩ := @stampOutcome_spec s t thread rest' kind own skip
    · rw [hp]
      exact hskip
    · rw [hp]
      exact hcons hrest
  cases instr with
  | stamp kind => exact hstamp _ _ _ _ hrefl hrefl
  | expiredRefill armedFor reason => exact hstamp _ _ _ _ (hcons hrefl) (hcons hrefl)
  | stampWrite deadline own =>
    simp only [outcome]
    split
    · exact hcons hrefl
    · exact hrefl
  | stampTimer deadline own =>
    cases own with
    | true => exact absurd rfl (h deadline)
    | false => exact hrefl
  | disarm =>
    simp only [outcome]
    split
    · exact hcons (hcons (hcons hrefl))
    · exact hcons hrefl
  | claim reason => exact hclaim _ _
  | expiredClaim reason => exact hclaim _ _
  | claimOrphan => exact hclaim _ _
  | grantIfMissing | retryBounded _ | releaseIfOver =>
    simp only [outcome, proceed]
    split
    · first | exact hrefl | exact hcons hrefl
    · first | exact hrefl | exact hcons hrefl
  | invoke | expired _ | expiredSpent _ _ _ | expiredWorking _ _ _ => exact hcons hrefl
  | expiredRead armedFor reason =>
    simp only [outcome]
    split
    · exact hcons hrefl
    · exact hrefl
  | cancelRPC reason =>
    simp only [outcome]
    split
    · exact hcons (hcons (hcons (hcons hrefl)))
    · exact hcons (hcons hrefl)
  | restartPaused =>
    simp only [outcome, proceed]
    split
    · exact hcons (hcons hrefl)
    · exact hcons hrefl
  | orphanRPC =>
    simp only [outcome]
    split
    · exact hcons (hcons hrefl)
    · exact hcons hrefl
  | _ => exact hrefl

/-! ## The slots of a run -/

/-- A step writes no slot of a run other than its thread's. -/
theorem Steps.elsewhere (h : Steps s e s' t answer thread instr rest)
    (hid : id ≠ thread.workflowID) :
    s'.bounds.leases id = s.bounds.leases id ∧ s'.bounds.timers id = s.bounds.timers id ∧
      s'.bounds.terminating id = s.bounds.terminating id ∧
      s'.bounds.unretried id = s.bounds.unretried id := by
  have hclaims : s'.bounds.terminating id = s.bounds.terminating id := by
    rw [h.bounds]
    rcases instr_kinds instr with hf | hc | hr | he | ⟨reason, hr⟩
    · rw [(outcome_frame hf).1.1]
    · rw [(outcome_claim hc).2.2.1]
      split
      · rfl
      · rw [Function.update_of_ne hid]
    · rw [(outcome_release hr).1, Function.update_of_ne hid]
    · rw [(outcome_clearEnd he).1, terminating_clearEnd, Function.update_of_ne hid]
    · rw [(outcome_recordEnd hr).1, terminating_recordEnd]
  by_cases hk : instr.retimes = true
  · rw [h.bounds] at hclaims ⊢
    cases instr with
    | stampWrite deadline own =>
      cases hl : s.bounds.leases thread.workflowID with
      | none => simp [outcome, Leases.setDeadline, hl, update, proceed, RunBounds.clearStretch]
      | some l => simp [outcome, Leases.setDeadline, hl, updateLeases, update, proceed, hid]
    | parkDeadline =>
      cases hl : s.bounds.leases thread.workflowID with
      | none => simp [outcome, Leases.setDeadline, hl, updateLeases, update, proceed]
      | some l => simp [outcome, Leases.setDeadline, hl, updateLeases, update, proceed, hid]
    | stampTimer deadline own => simp [outcome, update, proceed, RunBounds.setTimerLocked, hid]
    | stopTimer => simp [outcome, update, proceed, RunBounds.stopTimer, hid]
    | releaseLease => simp [outcome, updateLeases, update, proceed, Leases.release, hid]
    | grant slotAt => simp [outcome, updateLeases, update, proceed, Leases.put, hid]
    | retryTermination reason =>
      simp only [outcome, update, proceed, RunBounds.claimCancelRetry]
      split <;> simp [hid]
    | _ => cases hk
  · obtain ⟨hl, ht, hu⟩ := (@outcome_times s t thread answer _ rest (by simpa using hk)).1
    rw [h.bounds] at hclaims ⊢
    exact ⟨congrFun hl id, congrFun ht id, hclaims, congrFun hu id⟩

/-- The re-attempts only grow while threads step. -/
theorem Steps.retries (h : Steps s e s' t answer thread instr rest) : s.retries ⊆ s'.retries := by
  have hr : s'.retries = (s.outcome t thread answer rest instr).retries := by
    rw [h.commit]
    rfl
  rw [hr]
  by_cases hk : instr.retimes = true
  · cases instr with
    | retryTermination reason =>
      simp only [outcome]
      split
      · exact List.subset_cons_self _ _
      · exact List.Subset.refl _
    | stampWrite _ _ =>
      simp only [outcome]
      split <;> exact List.Subset.refl _
    | stampTimer _ _ | parkDeadline | stopTimer | releaseLease | grant _ =>
      exact List.Subset.refl _
    | _ => cases hk
  · rw [(outcome_times (by simpa using hk)).2]
    exact List.Subset.refl _

/-- A deadline is written by a stamp alone. -/
theorem Steps.deadline (h : Steps s e s' t answer thread instr rest)
    (hd : s'.deadline id = some d) : s.deadline id = some d ∨
      id = thread.workflowID ∧ ∃ own, instr = .stampWrite d own ∧
        (s.outcome t thread answer rest instr).program = .stampTimer d own :: rest := by
  by_cases hid : id = thread.workflowID
  · subst hid
    unfold Host.deadline at hd ⊢
    rw [h.bounds] at hd
    by_cases hk : instr.retimes = true
    · cases instr with
      | stampWrite deadline own =>
        cases hl : s.bounds.leases thread.workflowID with
        | none =>
          simp [outcome, Leases.setDeadline, hl, update, proceed, RunBounds.clearStretch] at hd
        | some l =>
          right
          simp only [outcome, Leases.setDeadline, hl, updateLeases, update, proceed,
            Option.map_some, Function.update_self, Option.bind_some] at hd ⊢
          obtain rfl := Option.some_inj.mp hd
          exact ⟨trivial, own, rfl, rfl⟩
      | parkDeadline =>
        cases hl : s.bounds.leases thread.workflowID with
        | none => simp [outcome, Leases.setDeadline, hl, updateLeases, update, proceed] at hd
        | some l => simp [outcome, Leases.setDeadline, hl, updateLeases, update, proceed] at hd
      | releaseLease => simp [outcome, updateLeases, update, proceed, Leases.release] at hd
      | grant slotAt => simp [outcome, updateLeases, update, proceed, Leases.put] at hd
      | stampTimer _ _ | stopTimer => exact .inl hd
      | retryTermination reason =>
        simp only [outcome, update, proceed, RunBounds.claimCancelRetry] at hd
        split at hd <;> exact .inl hd
      | _ => cases hk
    · left
      rwa [(outcome_times (by simpa using hk)).1.1] at hd
  · left
    unfold Host.deadline at hd ⊢
    rwa [(h.elsewhere hid).1] at hd

/-- The timer of a run moves with a stop and with a stamp, and with nothing else. -/
theorem Steps.timers (h : Steps s e s' t answer thread instr rest)
    (hk : id = thread.workflowID → instr ≠ .stopTimer ∧ ∀ d own, instr ≠ .stampTimer d own) :
    s'.bounds.timers id = s.bounds.timers id := by
  by_cases hid : id = thread.workflowID
  · obtain ⟨hstop, hstamp⟩ := hk hid
    rw [h.bounds]
    by_cases hr : instr.retimes = true
    · cases instr with
      | stampWrite deadline own =>
        simp only [outcome]
        split <;> rfl
      | stampTimer deadline own => exact absurd rfl (hstamp deadline own)
      | stopTimer => exact absurd rfl hstop
      | retryTermination reason =>
        simp only [outcome, update, RunBounds.claimCancelRetry]
        split <;> rfl
      | parkDeadline | releaseLease | grant _ => rfl
      | _ => cases hr
    · rw [(outcome_times (by simpa using hr)).1.2.1]
  · exact (h.elsewhere hid).2.1

theorem Steps.unretried (h : Steps s e s' t answer thread instr rest)
    (hk : id = thread.workflowID → ∀ d own, instr ≠ .stampTimer d own)
    (hu : s.bounds.unretried id = true) : s'.bounds.unretried id = true := by
  by_cases hid : id = thread.workflowID
  · rw [h.bounds]
    by_cases hr : instr.retimes = true
    · cases instr with
      | stampWrite deadline own =>
        simp only [outcome]
        split <;> exact hu
      | stampTimer deadline own => exact absurd rfl (hk hid deadline own)
      | retryTermination reason =>
        simp only [outcome, update, RunBounds.claimCancelRetry]
        split
        · simp [hid]
        · exact hu
      | parkDeadline | stopTimer | releaseLease | grant _ => exact hu
      | _ => cases hr
    · rw [(outcome_times (by simpa using hr)).1.2.2]
      exact hu
  · rw [(h.elsewhere hid).2.2.2]
    exact hu

theorem Steps.retried (h : Steps s e s' t answer thread instr rest)
    (hk : id = thread.workflowID → ∀ d own, instr ≠ .stampTimer d own) (hr : s.Retried id) :
    s'.Retried id := by
  rcases hr with ⟨reason, hm⟩ | hu
  · exact .inl ⟨reason, h.retries hm⟩
  · exact .inr (h.unretried hk hu)

/-- A claim is dropped by a hand-back and by a re-drive alone. -/
theorem Steps.claimed (h : Steps s e s' t answer thread instr rest)
    (hk : id = thread.workflowID → instr ≠ .releaseTermination ∧ instr ≠ .clearEnd)
    (hc : s.bounds.claimed id = true) : s'.bounds.claimed id = true := by
  unfold RunBounds.claimed at hc ⊢
  by_cases hid : id = thread.workflowID
  · obtain ⟨hrel, hend⟩ := hk hid
    rw [h.bounds]
    rcases instr_kinds instr with hf | hcl | hr | he | ⟨reason, hr⟩
    · rw [(outcome_frame hf).1.1]
      exact hc
    · rw [(outcome_claim hcl).2.2.1]
      split
      · exact hc
      · simp [hid]
    · exact absurd hr hrel
    · exact absurd he hend
    · rw [(outcome_recordEnd hr).1, terminating_recordEnd]
      exact hc
  · rw [(h.elsewhere hid).2.2.1]
    exact hc

/-- A step ahead of another thread, or behind the head of the stepping one, is still ahead. -/
theorem Steps.ahead (h : Steps s e s' t answer thread instr rest) {p : Instr → Bool}
    (ha : s.Ahead id p) : s'.Ahead id p ∨ id = thread.workflowID ∧
      (p instr = true ∨ (∃ d, instr = .stampTimer d true) ∧ ∃ i ∈ rest, p i = true) := by
  obtain ⟨t', thread', ht', hid, i, hi, hp⟩ := ha
  by_cases htt : t' = t
  · subst htt
    obtain rfl := Option.some_inj.mp (h.runs.symm.trans ht')
    rw [h.head] at hi
    rcases List.mem_cons.mp hi with rfl | hi
    · exact .inr ⟨hid.symm, .inl hp⟩
    · by_cases hown : ∃ d, instr = .stampTimer d true
      · exact .inr ⟨hid.symm, .inr ⟨hown, i, hi, hp⟩⟩
      · left
        have hmem : i ∈ (s.outcome t' thread answer rest instr).program :=
          outcome_rest (fun d he => hown ⟨d, he⟩) hi
        obtain ⟨after, hafter⟩ := h.alive (List.ne_nil_of_mem hmem)
        obtain ⟨hwid, hprog, _⟩ := h.self hafter
        exact ⟨t', after, hafter, hwid.trans hid, i, hprog ▸ hmem, hp⟩
  · left
    exact ⟨t', thread', by rwa [h.other htt], hid, i, hi, hp⟩

/-- What the outcome's program holds is ahead after the step. -/
theorem Steps.ahead_self (h : Steps s e s' t answer thread instr rest) {p : Instr → Bool} {i : Instr}
    (hi : i ∈ (s.outcome t thread answer rest instr).program) (hp : p i = true) :
    s'.Ahead thread.workflowID p := by
  obtain ⟨after, hafter⟩ := h.alive (List.ne_nil_of_mem hi)
  obtain ⟨hwid, hprog, _⟩ := h.self hafter
  exact ⟨t, after, hafter, hwid, i, hprog ▸ hi, hp⟩

/-! ## An answer for every deadline -/

/-- A deadline is enforced, or an operation midway answers for it. -/
def Answered (s : Host) (id : String) (d : Time) : Prop := s.Enforced id d ∨ s.Midway id d

/-- The step that answers for a deadline hands it on: to the timer, to the claim, to a
re-attempt, or to a step of its own that follows. -/
theorem Steps.answers (h : Steps s e s' t answer thread instr rest)
    (hd : s.deadline thread.workflowID = some d) (ha : instr.answers d = true) :
    s'.deadline thread.workflowID = some d → s'.Answered thread.workflowID d := by
  intro hd'
  have hbounded : (s.bounds.leases.get thread.workflowID).any Lease.bounded = true ∧
      (s.bounds.leases.get thread.workflowID).any (fun l => l.deadline = some d) = true := by
    unfold Host.deadline at hd
    obtain ⟨l, hl, hld⟩ := Option.bind_eq_some_iff.mp hd
    simp [Leases.get, hl, Lease.bounded, hld]
  have hnext : ∀ {i : Instr}, i ∈ (s.outcome t thread answer rest instr).program →
      i.answers d = true → s'.Answered thread.workflowID d :=
    fun hi hp => .inr (h.ahead_self hi hp)
  have hclaim : instr.claims = true → s'.Answered thread.workflowID d := by
    intro hc
    left
    right
    left
    rw [RunBounds.claimed, h.bounds, (outcome_claim hc).2.2.1]
    split
    · assumption
    · simp
  cases instr with
  | stampTimer deadline own =>
    left
    left
    obtain rfl : deadline = d := by simpa [Instr.answers] using ha
    rw [Pending, h.bounds]
    simp [outcome, update, proceed, RunBounds.setTimerLocked]
  | expired armedFor => exact hnext List.mem_cons_self ha
  | expiredSpent armedFor held slotRanOut => exact hnext List.mem_cons_self ha
  | expiredWorking armedFor reason asks =>
    apply hnext List.mem_cons_self
    split <;> exact ha
  | expiredRefill armedFor reason =>
    obtain ⟨_, _, ⟨hp, _⟩ | ⟨deadline, hp, _⟩⟩ := @stampOutcome_spec s t thread
      (.expiredRead armedFor reason :: rest) .refill true (.expiredRead armedFor reason :: rest)
    · apply hnext (i := .expiredRead armedFor reason) _ ha
      change _ ∈ (s.stampOutcome ..).program
      rw [hp]
      exact List.mem_cons_self
    · apply hnext (i := .expiredRead armedFor reason) _ ha
      change _ ∈ (s.stampOutcome ..).program
      rw [hp]
      exact List.mem_cons_of_mem _ List.mem_cons_self
  | expiredRead armedFor reason =>
    obtain rfl : armedFor = d := by simpa [Instr.answers] using ha
    apply hnext (i := .expiredClaim reason) _ rfl
    simp only [outcome, if_pos hbounded.2]
    exact List.mem_cons_self
  | expiredClaim reason => exact hclaim rfl
  | claim reason => exact hclaim rfl
  | claimOrphan => exact hclaim rfl
  | retryBounded reason =>
    apply hnext (i := .claim reason) _ rfl
    simp only [outcome, if_pos hbounded.1]
    exact List.mem_cons_self
  | cancelRPC reason =>
    cases answer with
    | true => exact hnext (i := .disarm) List.mem_cons_self rfl
    | false =>
      exact hnext (i := .retryTermination reason) (List.mem_cons_of_mem _ List.mem_cons_self) rfl
  | retryTermination reason =>
    left
    right
    right
    by_cases hspent : maxCancelRetries ≤ s.bounds.cancelRetries thread.workflowID
    · right
      rw [h.bounds]
      simp [outcome, update, proceed, RunBounds.claimCancelRetry, hspent]
    · left
      rw [h.commit]
      exact ⟨reason, by simp [Host.commit, outcome, RunBounds.claimCancelRetry, hspent]⟩
  | disarm =>
    apply hnext (i := .parkDeadline) _ rfl
    simp only [outcome, if_pos hbounded.1]
    exact List.mem_cons_of_mem _ List.mem_cons_self
  | parkDeadline =>
    rcases h.deadline hd' with _ | ⟨_, _, hw, _⟩
    · unfold Host.deadline at hd'
      rw [h.bounds] at hd'
      cases hl : s.bounds.leases thread.workflowID with
      | none => simp [outcome, Leases.setDeadline, hl, updateLeases, update, proceed] at hd'
      | some l => simp [outcome, Leases.setDeadline, hl, updateLeases, update, proceed] at hd'
    · cases hw
  | _ => cases ha

/-! ## The lock, and a lease without a deadline -/

theorem outcome_shaped (h : Shaped (instr :: rest)) :
    Shaped (s.outcome t thread answer rest instr).program := by
  have hrest : Shaped rest := h.2.2.2
  have plain : ∀ {i : Instr}, i.unsettles = false → i.yields = false → Shaped (i :: rest) :=
    fun hu hy => h.cons hu hy
  have hclaim : ∀ reason won, Shaped (won ++ rest) →
      Shaped (s.claimOutcome t thread reason won rest).program := by
    intro reason won hwon
    obtain ⟨_, _, _, hp | hp⟩ := @claimOutcome_spec s t thread rest reason won
    · rw [hp]
      exact hrest
    · rw [hp]
      exact hwon
  have hstamp : ∀ kind own skip rest', Shaped skip →
      (∀ deadline, Shaped (.stampWrite deadline own :: rest')) →
      Shaped (s.stampOutcome t thread kind own skip rest').program := by
    intro kind own skip rest' hskip hwrite
    obtain ⟨_, _, ⟨hp, _⟩ | ⟨deadline, hp, _⟩⟩ := @stampOutcome_spec s t thread rest' kind own skip
    · rw [hp]
      exact hskip
    · rw [hp]
      exact hwrite deadline
  cases instr with
  | stamp kind => exact hstamp _ _ _ _ hrest fun _ => plain rfl rfl
  | expiredRefill armedFor reason =>
    have hquiet : ∀ k ∈ rest, k.settles = false := h.2.2.1 rfl
    have hread : Shaped (.expiredRead armedFor reason :: rest) :=
      ⟨h.1, by simp [Instr.unsettles], fun _ => hquiet, hrest⟩
    apply hstamp _ _ _ _ hread
    intro deadline
    refine ⟨fun k hk => ?_, by simp [Instr.unsettles], fun _ k hk => ?_, hread⟩
    · rcases List.mem_cons.mp hk with rfl | hk
      · rfl
      · exact h.1 k hk
    · rcases List.mem_cons.mp hk with rfl | hk
      · rfl
      · exact hquiet k hk
  | stampWrite deadline own =>
    simp only [outcome]
    split
    · exact ⟨h.1, by simp [Instr.unsettles], h.2.2.1, hrest⟩
    · exact hrest
  | stampTimer deadline own =>
    cases own with
    | true => trivial
    | false => exact hrest
  | disarm =>
    have hstop : Shaped (.stopTimer :: rest) := plain rfl rfl
    simp only [outcome]
    split
    · have hpark : Shaped (.parkDeadline :: .stopTimer :: rest) :=
        ⟨(hstop.push (i := .bankExecuted) rfl rfl rfl).1, fun _ => ⟨_, List.mem_cons_self, rfl⟩,
          by simp [Instr.yields, Instr.leads], hstop⟩
      exact hpark.push rfl rfl rfl
    · exact hstop
  | claim reason => exact hclaim _ _ (plain rfl rfl)
  | expiredClaim reason => exact hclaim _ _ (plain rfl rfl)
  | claimOrphan => exact hclaim _ _ (plain rfl rfl)
  | grantIfMissing =>
    change Shaped (if _ then rest else _)
    split
    · exact hrest
    · exact ⟨h.1, fun _ => h.2.1 rfl, by simp [Instr.yields, Instr.leads], hrest⟩
  | invoke =>
    change Shaped ((if _ then _ else _) :: rest)
    split <;> exact plain rfl rfl
  | retryBounded reason =>
    change Shaped (if _ then _ else rest)
    split
    · exact ⟨h.1, by simp [Instr.unsettles], fun _ => h.2.2.1 rfl, hrest⟩
    · exact hrest
  | releaseIfOver =>
    change Shaped (if _ then _ else rest)
    split
    · exact plain rfl rfl
    · exact hrest
  | expired armedFor => exact ⟨h.1, by simp [Instr.unsettles], fun _ => h.2.2.1 rfl, hrest⟩
  | expiredSpent armedFor held slotRanOut =>
    exact ⟨h.1, by simp [Instr.unsettles], fun _ => h.2.2.1 rfl, hrest⟩
  | expiredWorking armedFor reason asks =>
    change Shaped ((if _ then _ else _) :: rest)
    split <;> exact ⟨h.1, by simp [Instr.unsettles], fun _ => h.2.2.1 rfl, hrest⟩
  | expiredRead armedFor reason =>
    simp only [outcome]
    split
    · exact ⟨h.1, by simp [Instr.unsettles], fun _ => h.2.2.1 rfl, hrest⟩
    · exact hrest
  | cancelRPC reason =>
    simp only [outcome]
    split
    · have hover : Shaped (.releaseIfOver :: rest) := plain rfl rfl
      exact (((hover.push (i := .clearCancelRetries) rfl rfl rfl).push (i := .recordEnd reason)
        rfl rfl rfl).push rfl rfl rfl)
    · have hretry : Shaped (.retryTermination reason :: rest) := plain rfl rfl
      exact hretry.push rfl rfl rfl
  | restartPaused =>
    change Shaped (if _ then _ else _)
    split
    · have horphan : Shaped (.orphanRPC :: rest) := plain rfl rfl
      exact horphan.push rfl rfl rfl
    · exact plain rfl rfl
  | orphanRPC =>
    simp only [outcome]
    split
    · have hrelease : Shaped (.releaseLease :: rest) := plain rfl rfl
      exact hrelease.push rfl rfl rfl
    · exact plain rfl rfl
  | _ => exact hrest

/-- The timer of the run is pending, or a stamp is about to set one. -/
def Timing (s : Host) (id : String) : Prop := (∃ d, s.Pending id d) ∨ s.Ahead id Instr.timed

/-- What the locks and the order of the steps keep over every interleaving. -/
structure Orderly (s : Host) : Prop where
  shaped : ∀ t thread, s.threads t = some thread → Shaped thread.program
  inside : ∀ t thread i rest, s.threads t = some thread → thread.program = i :: rest →
    i.within = true → s.mu = some t
  stamped : ∀ t thread d own rest d', s.threads t = some thread →
    thread.program = .stampTimer d own :: rest → s.deadline thread.workflowID = some d' → d' = d
  parked : ∀ id l, s.bounds.leases id = some l → l.deadline = none → s.Timing id →
    s.Ahead id Instr.settles

/-- A timer's update is only ever a thread's next step, inside the lock. -/
theorem Orderly.timed (hs : s.Orderly) {t : ℕ} {thread : Thread} {i : Instr}
    (ht : s.threads t = some thread) (hi : i ∈ thread.program) (hp : i.timed = true) :
    s.mu = some t ∧ ∃ rest, thread.program = i :: rest := by
  have hw := Instr.within_of_timed hp
  have hshape := hs.shaped t thread ht
  cases hprog : thread.program with
  | nil =>
    rw [hprog] at hi
    cases hi
  | cons j rest =>
    rw [hprog] at hi hshape
    rcases List.mem_cons.mp hi with rfl | hi
    · exact ⟨hs.inside t thread i rest ht hprog hw, rest, rfl⟩
    · exact absurd (hshape.1 i hi) (by simp [hw])

/-- While a thread is inside the lock, a step of another is one that takes no lock. -/
theorem Steps.locks (h : Steps s e s' t answer thread instr rest) {t' : ℕ} (ht : t' ≠ t)
    (hmu : s.mu = some t') : instr.locks = false := by
  by_contra hl
  apply h.enters
  refine ⟨by simpa using hl, by simp [hmu], ?_⟩
  rw [hmu]
  exact fun he => ht (Option.some_inj.mp he)

theorem outcome_mu (h : instr.locks = false) : (s.outcome t thread answer rest instr).mu = s.mu := by
  cases instr with
  | disarm | cancelRPC _ | orphanRPC =>
    simp only [outcome]
    split <;> rfl
  | parkDeadline | releaseLease | grantIfMissing | grant _ | invoke | releaseIfOver
  | retryBounded _ | expired _ | expiredWorking _ _ _ | restartPaused => rfl
  | _ => cases h

/-- What a step puts inside the lock: a read that goes on to a write or a claim takes the lock,
and a write goes on to the timer's update. -/
theorem outcome_within {i : Instr} (hi : i ∈ (s.outcome t thread answer rest instr).program)
    (hw : i.within = true) : i ∈ rest ∨
      i.timed = false ∧ (s.outcome t thread answer rest instr).mu = some t ∨
      i.timed = true ∧ (s.outcome t thread answer rest instr).mu = s.mu ∧
        ∃ d own, instr = .stampWrite d own := by
  have hskip : ∀ {j : Instr} {l}, j.within = false → i ∈ j :: l → i ∈ l := by
    intro j l hj hm
    rcases List.mem_cons.mp hm with rfl | hm
    · rw [hw] at hj
      cases hj
    · exact hm
  have hclaim : ∀ reason won, (∀ j ∈ won, j.within = false) →
      i ∈ (s.claimOutcome t thread reason won rest).program → i ∈ rest := by
    intro reason won hwon hm
    obtain ⟨_, _, _, hp | hp⟩ := @claimOutcome_spec s t thread rest reason won
    · exact hp ▸ hm
    · rw [hp] at hm
      rcases List.mem_append.mp hm with hm | hm
      · rw [hwon i hm] at hw
        cases hw
      · exact hm
  have hstamp : ∀ kind own skip rest', (i ∈ skip → i ∈ rest) → (i ∈ rest' → i ∈ rest) →
      i ∈ (s.stampOutcome t thread kind own skip rest').program →
      i ∈ rest ∨ i.timed = false ∧ (s.stampOutcome t thread kind own skip rest').mu = some t := by
    intro kind own skip rest' hskip' hrest' hm
    obtain ⟨_, _, ⟨hp, _⟩ | ⟨deadline, hp, hmu⟩⟩ := @stampOutcome_spec s t thread rest' kind own skip
    · exact .inl (hskip' (hp ▸ hm))
    · rw [hp] at hm
      rcases List.mem_cons.mp hm with rfl | hm
      · exact .inr ⟨rfl, hmu⟩
      · exact .inl (hrest' hm)
  cases instr with
  | stamp kind =>
    rcases hstamp _ _ _ _ id id hi with hm | hm
    · exact .inl hm
    · exact .inr (.inl hm)
  | expiredRefill armedFor reason =>
    rcases hstamp _ _ _ _ (hskip rfl) (hskip rfl) hi with hm | hm
    · exact .inl hm
    · exact .inr (.inl hm)
  | stampWrite deadline own =>
    simp only [outcome] at hi ⊢
    split at hi
    · rcases List.mem_cons.mp hi with rfl | hm
      · exact .inr (.inr ⟨rfl, rfl, deadline, own, rfl⟩)
      · exact .inl hm
    · exact .inl hi
  | stampTimer deadline own =>
    cases own with
    | true => cases hi
    | false => exact .inl hi
  | expiredRead armedFor reason =>
    simp only [outcome] at hi ⊢
    split at hi
    · next hread =>
      rcases List.mem_cons.mp hi with rfl | hm
      · exact .inr (.inl ⟨rfl, by rw [if_pos hread]⟩)
      · exact .inl hm
    · exact .inl hi
  | claim reason => exact .inl (hclaim _ _ (by simp [finishTermination, Instr.within]) hi)
  | expiredClaim reason => exact .inl (hclaim _ _ (by simp [finishTermination, Instr.within]) hi)
  | claimOrphan => exact .inl (hclaim _ _ (by simp [Instr.within]) hi)
  | disarm =>
    simp only [outcome] at hi
    split at hi
    · exact .inl (hskip rfl (hskip rfl (hskip rfl hi)))
    · exact .inl (hskip rfl hi)
  | cancelRPC reason =>
    simp only [outcome] at hi
    split at hi
    · exact .inl (hskip rfl (hskip rfl (hskip rfl (hskip rfl hi))))
    · exact .inl (hskip rfl (hskip rfl hi))
  | orphanRPC =>
    simp only [outcome] at hi
    split at hi
    · exact .inl (hskip rfl (hskip rfl hi))
    · exact .inl (hskip rfl hi)
  | restartPaused =>
    simp only [outcome, proceed] at hi
    split at hi
    · exact .inl (hskip rfl (hskip rfl hi))
    · exact .inl (hskip rfl hi)
  | grantIfMissing | releaseIfOver | retryBounded _ =>
    simp only [outcome, proceed] at hi
    split at hi <;> first | exact .inl (hskip rfl hi) | exact .inl hi
  | invoke | expiredWorking _ _ _ =>
    simp only [outcome, proceed] at hi
    split at hi <;> exact .inl (hskip rfl hi)
  | expired _ | expiredSpent _ _ _ => exact .inl (hskip rfl hi)
  | _ => exact .inl hi

/-- The lease of a run moves with a write, a park, a release or a grant. -/
theorem Steps.leases (h : Steps s e s' t answer thread instr rest) {l : Lease}
    (hl : s'.bounds.leases id = some l) (hd : l.deadline = none) :
    s.bounds.leases id = some l ∧ (id = thread.workflowID → ∀ d own, instr ≠ .stampWrite d own) ∨
      id = thread.workflowID ∧ instr.unsettles = true := by
  by_cases hid : id = thread.workflowID
  · subst hid
    rw [h.bounds] at hl
    by_cases hk : instr.retimes = true
    · cases instr with
      | stampWrite deadline own =>
        cases hl' : s.bounds.leases thread.workflowID with
        | none =>
          simp [outcome, Leases.setDeadline, hl', update, proceed, RunBounds.clearStretch] at hl
        | some l' =>
          simp only [outcome, Leases.setDeadline, hl', updateLeases, update, proceed,
            Option.map_some, Function.update_self] at hl
          obtain rfl := Option.some_inj.mp hl
          cases hd
      | releaseLease => simp [outcome, updateLeases, update, proceed, Leases.release] at hl
      | parkDeadline | grant _ => exact .inr ⟨rfl, rfl⟩
      | stampTimer _ _ | stopTimer => exact .inl ⟨hl, by simp⟩
      | retryTermination reason =>
        simp only [outcome, update, proceed, RunBounds.claimCancelRetry] at hl
        split at hl <;> exact .inl ⟨hl, by simp⟩
      | _ => cases hk
    · left
      rw [(outcome_times (by simpa using hk)).1.1] at hl
      refine ⟨hl, fun _ d own he => ?_⟩
      rw [he] at hk
      exact hk rfl
  · left
    rw [(h.elsewhere hid).1] at hl
    exact ⟨hl, fun he => absurd he hid⟩

/-! ## Events that start a thread -/

/-- The programs that threads start with. -/
inductive Opening : List Instr → Prop
  | op (op : Operation) : Opening op.program
  | expired (armedFor : Time) : Opening [.expired armedFor]
  | retry (reason : String) : Opening [.retryBounded reason]

theorem Opening.shaped {program : List Instr} (h : Opening program) : Shaped program := by
  cases h with
  | op op => exact op.shaped
  | expired armedFor => simp [Shaped, Instr.unsettles]
  | retry reason => simp [Shaped, Instr.unsettles]

theorem Opening.within {program : List Instr} (h : Opening program) :
    ∀ i ∈ program, i.within = false := by
  cases h with
  | op op =>
    cases op <;> simp [Operation.program, disarmDeadline, forgetBounds, rearmRetried, Instr.within]
  | expired armedFor => simp [Instr.within]
  | retry reason => simp [Instr.within]

/-- An event that moves the clock, or starts an operation or a callback. -/
inductive Starts (s : Host) : Host → Prop
  | tick (elapsed : ℕ) : Starts s { s with now := s.now + elapsed }
  | spawn (id : String) (op : Operation) : Starts s (s.spawn id op.program)
  | fires (id : String) (timer : Timer) (ht : s.bounds.timers id = some timer) :
      Starts s ((s.spendTimer id timer).spawn id [.expired timer.deadline])
  | retryFires (id reason : String) :
      Starts s ({ s with retries := s.retries.erase (id, reason) }.spawn id [.retryBounded reason])

theorem step_starts (h : s.step e = some s') :
    Starts s s' ∨ ∃ t answer thread instr rest, Steps s e s' t answer thread instr rest := by
  cases e with
  | tick elapsed =>
    obtain rfl := Option.some_inj.mp h
    exact .inl (.tick elapsed)
  | spawn id op =>
    simp only [step] at h
    split at h
    · cases h
    · obtain rfl := Option.some_inj.mp h
      exact .inl (.spawn id op)
  | fires id =>
    simp only [step] at h
    split at h
    · next timer ht =>
      split at h
      · obtain rfl := Option.some_inj.mp h
        exact .inl (.fires id timer ht)
      · cases h
    · cases h
  | retryFires id reason =>
    simp only [step] at h
    split at h
    · obtain rfl := Option.some_inj.mp h
      exact .inl (.retryFires id reason)
    · cases h
  | step t answer =>
    obtain ⟨thread, instr, rest, hst⟩ := step_thread h
    exact .inr ⟨t, answer, thread, instr, rest, hst⟩

/-- A start leaves the leases, the claims, the spent marks and the lock. -/
theorem Starts.frame (h : Starts s s') : s'.bounds.leases = s.bounds.leases ∧
    s'.bounds.terminating = s.bounds.terminating ∧ s'.bounds.unretried = s.bounds.unretried ∧
    s'.mu = s.mu := by
  cases h <;> exact ⟨rfl, rfl, rfl, rfl⟩

theorem Starts.deadline (h : Starts s s') : s'.deadline id = s.deadline id := by
  unfold Host.deadline
  rw [h.frame.1]

theorem spawn_self (program : List Instr) :
    (s.spawn id program).threads s.next = some { workflowID := id, program } := by
  simp [spawn]

theorem spawn_other (program : List Instr) (ht : t ≠ s.next) :
    (s.spawn id program).threads t = s.threads t := by
  simp [spawn, ht]

theorem spawn_thread {program : List Instr} {thread : Thread}
    (h : (s.spawn id program).threads t = some thread) :
    s.threads t = some thread ∨ thread.program = program := by
  by_cases hn : t = s.next
  · right
    rw [hn, spawn_self] at h
    obtain rfl := Option.some_inj.mp h
    rfl
  · left
    rwa [spawn_other program hn] at h

theorem Starts.opened (h : Starts s s') {thread : Thread} (ht : s'.threads t = some thread) :
    s.threads t = some thread ∨ Opening thread.program := by
  cases h with
  | tick elapsed => exact .inl ht
  | spawn id op =>
    rcases spawn_thread ht with ht | hp
    · exact .inl ht
    · exact .inr (hp ▸ .op op)
  | fires id timer _ =>
    rcases spawn_thread ht with ht | hp
    · exact .inl ht
    · exact .inr (hp ▸ .expired _)
  | retryFires id reason =>
    rcases spawn_thread ht with ht | hp
    · exact .inl ht
    · exact .inr (hp ▸ .retry reason)

/-- A started thread takes no other's number. -/
theorem Starts.keeps (h : Starts s s') (hs : s.Lawful) {thread : Thread}
    (ht : s.threads t = some thread) : s'.threads t = some thread := by
  have hne : t ≠ s.next := Nat.ne_of_lt (hs.fresh t thread ht)
  cases h with
  | tick elapsed => exact ht
  | spawn id op => rwa [spawn_other _ hne]
  | fires id timer _ => exact (spawn_other (s := s.spendTimer id timer) _ hne).trans ht
  | retryFires id reason =>
    exact (spawn_other (s := { s with retries := s.retries.erase (id, reason) }) _ hne).trans ht

theorem Starts.ahead (h : Starts s s') (hs : s.Lawful) {p : Instr → Bool} (ha : s.Ahead id p) :
    s'.Ahead id p := by
  obtain ⟨t, thread, ht, hid, hi⟩ := ha
  exact ⟨t, thread, h.keeps hs ht, hid, hi⟩

theorem spawn_ahead {program : List Instr} {p : Instr → Bool} {i : Instr} (hi : i ∈ program)
    (hp : p i = true) : (s.spawn id program).Ahead id p :=
  ⟨s.next, { workflowID := id, program }, spawn_self program, rfl, i, hi, hp⟩

/-- A timer that fires is followed by its callback. -/
theorem Starts.pending (h : Starts s s') (hp : s.Pending id d) :
    s'.Pending id d ∨ s'.Midway id d := by
  cases h with
  | tick elapsed => exact .inl hp
  | spawn id' op => exact .inl hp
  | fires id' timer ht =>
    by_cases hid : id = id'
    · right
      subst hid
      have htimer : timer.deadline = d := by
        rw [Pending, ht] at hp
        rw [Option.some_inj.mp hp]
      exact spawn_ahead List.mem_cons_self (by simp [Instr.answers, htimer])
    · left
      rw [Pending]
      change Function.update s.bounds.timers id' _ id = _
      rwa [Function.update_of_ne hid]
  | retryFires id' reason => exact .inl hp

/-- No start sets a timer. -/
theorem Starts.pending_back (h : Starts s s') (hp : s'.Pending id d) : s.Pending id d := by
  cases h with
  | tick elapsed => exact hp
  | spawn id' op => exact hp
  | fires id' timer ht =>
    by_cases hid : id = id'
    · subst hid
      rw [Pending] at hp
      change Function.update s.bounds.timers id _ id = _ at hp
      rw [Function.update_self] at hp
      cases hp
    · rw [Pending] at hp
      change Function.update s.bounds.timers id' _ id = _ at hp
      rwa [Function.update_of_ne hid] at hp
  | retryFires id' reason => exact hp

/-- A re-attempt that fires is followed by its own reads. -/
theorem Starts.retried (h : Starts s s') (hr : s.Retried id) : s'.Retried id ∨ s'.Midway id d := by
  rcases hr with ⟨reason, hm⟩ | hu
  · cases h with
    | tick elapsed => exact .inl (.inl ⟨reason, hm⟩)
    | spawn id' op => exact .inl (.inl ⟨reason, hm⟩)
    | fires id' timer _ => exact .inl (.inl ⟨reason, hm⟩)
    | retryFires id' reason' =>
      by_cases he : (id, reason) = (id', reason')
      · right
        obtain ⟨rfl, rfl⟩ := Prod.mk.inj he
        exact spawn_ahead List.mem_cons_self rfl
      · exact .inl (.inl ⟨reason, (List.mem_erase_of_ne he).mpr hm⟩)
  · left
    right
    rw [h.frame.2.2.1]
    exact hu

theorem Starts.answered (h : Starts s s') (hs : s.Lawful) (ha : s.Answered id d) :
    s'.Answered id d := by
  rcases ha with (hp | hc | hr) | hm
  · rcases h.pending hp with hp | hm
    · exact .inl (.inl hp)
    · exact .inr hm
  · left
    right
    left
    rw [RunBounds.claimed, h.frame.2.1]
    exact hc
  · rcases h.retried hr with hr | hm
    · exact .inl (.inr (.inr hr))
    · exact .inr hm
  · exact .inr (h.ahead hs hm)

theorem Starts.orderly (h : Starts s s') (hs : s.Orderly) (hlaw : s.Lawful) : s'.Orderly where
  shaped := by
    intro t thread ht
    rcases h.opened ht with ht | ho
    · exact hs.shaped t thread ht
    · exact ho.shaped
  inside := by
    intro t thread i rest ht hp hi
    rw [h.frame.2.2.2]
    rcases h.opened ht with ht | ho
    · exact hs.inside t thread i rest ht hp hi
    · have hno := ho.within i (hp ▸ List.mem_cons_self)
      rw [hi] at hno
      cases hno
  stamped := by
    intro t thread d own rest d' ht hp hd
    rw [h.deadline] at hd
    rcases h.opened ht with ht | ho
    · exact hs.stamped t thread d own rest d' ht hp hd
    · have hno := ho.within (.stampTimer d own) (hp ▸ List.mem_cons_self)
      cases hno
  parked := by
    intro id l hl hd htiming
    rw [h.frame.1] at hl
    apply h.ahead hlaw
    apply hs.parked id l hl hd
    rcases htiming with ⟨d, hp⟩ | ⟨t, thread, ht, hid, i, hi, htimed⟩
    · exact .inl ⟨d, h.pending_back hp⟩
    · right
      rcases h.opened ht with ht | ho
      · exact ⟨t, thread, ht, hid, i, hi, htimed⟩
      · have hno := ho.within i hi
        rw [Instr.within_of_timed htimed] at hno
        cases hno

/-! ## Steps of the threads -/

theorem Steps.mu (h : Steps s e s' t answer thread instr rest) :
    s'.mu = (s.outcome t thread answer rest instr).mu := by
  rw [h.commit]
  rfl

/-- What is ahead after a step was ahead before it, or is in the program its thread goes on
with. -/
theorem Steps.ahead_back (h : Steps s e s' t answer thread instr rest) {p : Instr → Bool}
    (ha : s'.Ahead id p) : (∃ t' thread', t' ≠ t ∧ s.threads t' = some thread' ∧
        thread'.workflowID = id ∧ ∃ i ∈ thread'.program, p i = true) ∨
      id = thread.workflowID ∧ ∃ i ∈ (s.outcome t thread answer rest instr).program, p i = true := by
  obtain ⟨t', thread', ht', hid, hi⟩ := ha
  by_cases htt : t' = t
  · subst htt
    obtain ⟨hwid, hprog, _⟩ := h.self ht'
    exact .inr ⟨hid.symm.trans hwid, hprog ▸ hi⟩
  · left
    exact ⟨t', thread', htt, by rwa [h.other htt] at ht', hid, hi⟩

theorem Steps.shaped (h : Steps s e s' t answer thread instr rest) (hs : s.Orderly) :
    Shaped (instr :: rest) := h.head ▸ hs.shaped t thread h.runs

/-- While a stamp holds the lock, a timer is set or stopped by its own thread alone. -/
theorem Steps.timing_back (h : Steps s e s' t answer thread instr rest) (hs : s.Orderly)
    (hw : id = thread.workflowID → ∀ d own, instr ≠ .stampWrite d own)
    (htiming : s'.Timing id) : s.Timing id := by
  rcases htiming with ⟨d, hp⟩ | ha
  · by_cases hstamp : id = thread.workflowID ∧ ∃ d own, instr = .stampTimer d own
    · right
      obtain ⟨hid, d, own, rfl⟩ := hstamp
      exact ⟨t, thread, h.runs, hid.symm, _, h.head ▸ List.mem_cons_self, rfl⟩
    · left
      by_cases hstop : id = thread.workflowID ∧ instr = .stopTimer
      · obtain ⟨rfl, rfl⟩ := hstop
        rw [Pending, h.bounds] at hp
        simp [outcome, update, proceed, RunBounds.stopTimer] at hp
      · have hsame := h.timers fun hid =>
          ⟨fun he => hstop ⟨hid, he⟩, fun d own he => hstamp ⟨hid, d, own, he⟩⟩
        rw [Pending, hsame] at hp
        exact ⟨d, hp⟩
  · right
    rcases h.ahead_back ha with ⟨t', thread', _, ht', hid, hi⟩ | ⟨hid, i, hi, ht⟩
    · exact ⟨t', thread', ht', hid, hi⟩
    · rcases outcome_within hi (Instr.within_of_timed ht) with hm | ⟨hf, _⟩ | ⟨_, _, d, own, he⟩
      · have hno := (h.shaped hs).1 i hm
        rw [Instr.within_of_timed ht] at hno
        cases hno
      · rw [ht] at hf
        cases hf
      · exact absurd he (hw hid d own)

/-- An arm of a lease without a deadline goes on to write one. -/
theorem outcome_arm {l : Lease} (hl : s.bounds.leases thread.workflowID = some l)
    (hd : l.deadline = none) : ∃ deadline, (s.outcome t thread answer rest (.stamp .arm)).program =
      .stampWrite deadline false :: rest := by
  have hb : l.bounded = false := by rw [Lease.bounded, hd]; rfl
  simp only [outcome, stampOutcome, Leases.get, hl, RunBounds.decide, hb, Bool.false_eq_true,
    if_false]
  exact ⟨_, rfl⟩

/-- A stamp's write goes on to set the timer of the deadline it wrote. -/
theorem Steps.writes {own : Bool} (h : Steps s e s' t answer thread (.stampWrite d own) rest)
    {d' : Time} (hd : s'.deadline thread.workflowID = some d') : d' = d ∧
      (s.outcome t thread answer rest (.stampWrite d own)).program = .stampTimer d own :: rest := by
  unfold Host.deadline at hd
  rw [h.bounds] at hd
  cases hl : s.bounds.leases thread.workflowID with
  | none => simp [outcome, Leases.setDeadline, hl, update, proceed, RunBounds.clearStretch] at hd
  | some l =>
    simp only [outcome, Leases.setDeadline, hl, updateLeases, update, proceed, Option.map_some,
      Function.update_self, Option.bind_some] at hd ⊢
    exact ⟨(Option.some_inj.mp hd).symm, trivial⟩

/-- A step that settles a lease without a deadline leaves one that settles it ahead, or the
lease gone, or the timer stopped for good. -/
theorem Steps.settles (h : Steps s e s' t answer thread instr rest) (hs : s.Orderly)
    (hset : instr.settles = true) {l : Lease} (hl : s.bounds.leases thread.workflowID = some l)
    (hl' : s'.bounds.leases thread.workflowID = some l) (hd : l.deadline = none)
    (hw : ∀ d own, instr ≠ .stampWrite d own) (htiming : s'.Timing thread.workflowID) :
    s'.Ahead thread.workflowID Instr.settles := by
  cases instr with
  | stopTimer =>
    exfalso
    rcases htiming with ⟨d, hp⟩ | ha
    · rw [Pending, h.bounds] at hp
      simp [outcome, update, proceed, RunBounds.stopTimer] at hp
    · rcases h.ahead_back ha with ⟨t', thread', hne, ht', hid, i, hi, ht⟩ | ⟨_, i, hi, ht⟩
      · -- the stamp holds the lock that the stop waits for
        have hlocks := h.locks hne (hs.timed ht' hi ht).1
        cases hlocks
      · have hno := (h.shaped hs).1 i hi
        rw [Instr.within_of_timed ht] at hno
        cases hno
  | stamp kind =>
    cases kind with
    | arm =>
      obtain ⟨deadline, hp⟩ := @outcome_arm s t thread answer rest l hl hd
      exact h.ahead_self (i := .stampWrite deadline false) (hp ▸ List.mem_cons_self) rfl
    | refill => cases hset
  | stampWrite deadline own => exact absurd rfl (hw deadline own)
  | invoke =>
    cases answer
    · exact h.ahead_self (i := .releaseLease) List.mem_cons_self rfl
    · exact h.ahead_self (i := .stamp .arm) List.mem_cons_self rfl
  | releaseLease =>
    rw [h.bounds] at hl'
    simp [outcome, updateLeases, update, proceed, Leases.release] at hl'
  | disarm =>
    apply h.ahead_self (i := .stopTimer) _ rfl
    simp only [outcome]
    split
    · exact List.mem_cons_of_mem _ (List.mem_cons_of_mem _ List.mem_cons_self)
    · exact List.mem_cons_self
  | _ => cases hset

theorem Steps.parked (h : Steps s e s' t answer thread instr rest) (hs : s.Orderly) {l : Lease}
    (hl : s'.bounds.leases id = some l) (hd : l.deadline = none) (htiming : s'.Timing id) :
    s'.Ahead id Instr.settles := by
  have hshape := h.shaped hs
  rcases h.leases hl hd with ⟨hold, hw⟩ | ⟨rfl, hun⟩
  · have ha := hs.parked id l hold hd (h.timing_back hs hw htiming)
    rcases h.ahead ha with ha | ⟨rfl, hset | ⟨⟨d, rfl⟩, i, hi, hset⟩⟩
    · exact ha
    · exact h.settles hs hset hold hl hd (hw rfl) htiming
    · rw [hshape.2.2.1 rfl i hi] at hset
      cases hset
  · obtain ⟨i, hi, hset⟩ := hshape.2.1 hun
    apply h.ahead_self (i := i) _ hset
    apply outcome_rest _ hi
    rintro d rfl
    cases hun

theorem Steps.orderly (h : Steps s e s' t answer thread instr rest) (hs : s.Orderly) :
    s'.Orderly where
  shaped := by
    intro t' thread' ht
    by_cases htt : t' = t
    · subst htt
      obtain ⟨_, hprog, _⟩ := h.self ht
      rw [hprog]
      exact outcome_shaped (h.shaped hs)
    · rw [h.other htt] at ht
      exact hs.shaped t' thread' ht
  inside := by
    intro t' thread' i rest' ht hp hi
    rw [h.mu]
    by_cases htt : t' = t
    · subst htt
      obtain ⟨_, hprog, _⟩ := h.self ht
      have hmem : i ∈ (s.outcome t' thread answer rest instr).program :=
        hprog ▸ hp ▸ List.mem_cons_self
      rcases outcome_within hmem hi with hm | ⟨_, hmu⟩ | ⟨_, hmu, d, own, rfl⟩
      · rw [(h.shaped hs).1 i hm] at hi
        cases hi
      · exact hmu
      · rw [hmu]
        exact hs.inside t' thread _ rest h.runs h.head rfl
    · rw [h.other htt] at ht
      have hmu := hs.inside t' thread' i rest' ht hp hi
      rw [outcome_mu (h.locks htt hmu)]
      exact hmu
  stamped := by
    intro t' thread' d own rest' d' ht hp hd
    by_cases htt : t' = t
    · subst htt
      obtain ⟨hwid, hprog, _⟩ := h.self ht
      rw [hwid] at hd
      have hmem : .stampTimer d own ∈ (s.outcome t' thread answer rest instr).program :=
        hprog ▸ hp ▸ List.mem_cons_self
      rcases outcome_within hmem rfl with hm | ⟨hf, _⟩ | ⟨_, _, d₁, own₁, rfl⟩
      · have hno := (h.shaped hs).1 _ hm
        cases hno
      · cases hf
      · obtain ⟨hd₁, hprog₁⟩ := h.writes hd
        have hhead := (List.cons.inj (hp.symm.trans (hprog.trans hprog₁))).1
        rw [hd₁]
        exact ((Instr.stampTimer.inj hhead).1).symm
    · rw [h.other htt] at ht
      have hmu := hs.inside t' thread' _ rest' ht hp rfl
      rcases h.deadline hd with hd | ⟨_, own, rfl, _⟩
      · exact hs.stamped t' thread' d own rest' d' ht hp hd
      · have hlocks := h.locks htt hmu
        cases hlocks
  parked := fun id l hl hd htiming => h.parked hs hl hd htiming

theorem step_orderly (hlaw : s.Lawful) (hs : s.Orderly) (h : s.step e = some s') : s'.Orderly := by
  rcases step_starts h with hb | ⟨t, answer, thread, instr, rest, hst⟩
  · exact hb.orderly hs hlaw
  · exact hst.orderly hs

/-- A step that stops a timer, hands back a claim or forgets one finds another answer for the
deadline of its run: no stamp crossed the stop, and no bound fired behind the claim. -/
structure Careful (s : Host) (e : Event) : Prop where
  stops : ∀ t answer thread rest d, e = .step t answer → s.threads t = some thread →
    thread.program = .stopTimer :: rest → s.deadline thread.workflowID = some d →
      s.bounds.claimed thread.workflowID = true ∨ s.Retried thread.workflowID ∨
        s.Midway thread.workflowID d
  drops : ∀ t answer thread instr rest d, e = .step t answer → s.threads t = some thread →
    thread.program = instr :: rest → instr = .releaseTermination ∨ instr = .clearEnd →
    s.deadline thread.workflowID = some d →
      s.Pending thread.workflowID d ∨ s.Retried thread.workflowID ∨ s.Midway thread.workflowID d

/-- A thread that sets its timer sets the one of the deadline the lease has. -/
theorem Steps.sets {own : Bool} {d' : Time} (hs : s.Orderly)
    (h : Steps s e s' t answer thread (.stampTimer d' own) rest)
    (hd : s.deadline thread.workflowID = some d) : s'.Pending thread.workflowID d := by
  obtain rfl := hs.stamped t thread d' own rest d h.runs h.head hd
  rw [Pending, h.bounds]
  simp [outcome, update, proceed, RunBounds.setTimerLocked]

/-- The pending timer, the claim and the re-attempts outlive every step but a careful one that
drops them, where another answer stands. -/
theorem Steps.midway (h : Steps s e s' t answer thread instr rest) (hs : s.Orderly)
    (hd : s.deadline id = some d) (hd' : s'.deadline id = some d) (hm : s.Midway id d) :
    s'.Answered id d := by
  rcases h.ahead hm with hm | ⟨rfl, ha | ⟨⟨d', rfl⟩, _⟩⟩
  · exact .inr hm
  · exact h.answers hd ha hd'
  · exact .inl (.inl (h.sets hs hd))

theorem Steps.keeps_retried (h : Steps s e s' t answer thread instr rest) (hs : s.Orderly)
    (hd : s.deadline id = some d) (hr : s.Retried id) : s'.Answered id d := by
  left
  by_cases hset : id = thread.workflowID ∧ ∃ d own, instr = .stampTimer d own
  · obtain ⟨rfl, d', own, rfl⟩ := hset
    exact .inl (h.sets hs hd)
  · exact .inr (.inr (h.retried (fun hid d own he => hset ⟨hid, d, own, he⟩) hr))

theorem Steps.keeps_claimed (h : Steps s e s' t answer thread instr rest) (hs : s.Orderly)
    (hd : s.deadline id = some d) (hd' : s'.deadline id = some d) (hc : s.Careful e)
    (hclaim : s.bounds.claimed id = true) : s'.Answered id d := by
  by_cases hdrop : id = thread.workflowID ∧ (instr = .releaseTermination ∨ instr = .clearEnd)
  · obtain ⟨rfl, hdrop⟩ := hdrop
    rcases hc.drops t answer thread instr rest d h.event h.runs h.head hdrop hd with hp | hr | hm
    · left
      left
      have hsame : s'.bounds.timers thread.workflowID = s.bounds.timers thread.workflowID := by
        apply h.timers
        intro _
        rcases hdrop with rfl | rfl
        · exact ⟨by simp, by simp⟩
        · exact ⟨by simp, by simp⟩
      rw [Pending, hsame]
      exact hp
    · exact h.keeps_retried hs hd hr
    · exact h.midway hs hd hd' hm
  · left
    right
    left
    apply h.claimed _ hclaim
    intro hid
    exact ⟨fun he => hdrop ⟨hid, .inl he⟩, fun he => hdrop ⟨hid, .inr he⟩⟩

theorem Steps.keeps_pending (h : Steps s e s' t answer thread instr rest) (hs : s.Orderly)
    (hd : s.deadline id = some d) (hd' : s'.deadline id = some d) (hc : s.Careful e)
    (hp : s.Pending id d) : s'.Answered id d := by
  by_cases hset : id = thread.workflowID ∧ ∃ d own, instr = .stampTimer d own
  · obtain ⟨rfl, d', own, rfl⟩ := hset
    exact .inl (.inl (h.sets hs hd))
  · by_cases hstop : id = thread.workflowID ∧ instr = .stopTimer
    · obtain ⟨rfl, rfl⟩ := hstop
      rcases hc.stops t answer thread rest d h.event h.runs h.head hd with hclaim | hr | hm
      · exact h.keeps_claimed hs hd hd' hc hclaim
      · exact h.keeps_retried hs hd hr
      · exact h.midway hs hd hd' hm
    · left
      left
      have hsame := h.timers fun hid =>
        ⟨fun he => hstop ⟨hid, he⟩, fun d own he => hset ⟨hid, d, own, he⟩⟩
      rw [Pending, hsame]
      exact hp

theorem Steps.answered (h : Steps s e s' t answer thread instr rest) (hs : s.Orderly)
    (hc : s.Careful e) (ha : ∀ id d, s.deadline id = some d → s.Answered id d)
    (hd' : s'.deadline id = some d) : s'.Answered id d := by
  rcases h.deadline hd' with hd | ⟨rfl, own, rfl, hprog⟩
  · rcases ha id d hd with (hp | hclaim | hr) | hm
    · exact h.keeps_pending hs hd hd' hc hp
    · exact h.keeps_claimed hs hd hd' hc hclaim
    · exact h.keeps_retried hs hd hr
    · exact h.midway hs hd hd' hm
  · right
    apply h.ahead_self (i := .stampTimer d own) (hprog ▸ List.mem_cons_self)
    simp [Instr.answers]

theorem step_answered (hlaw : s.Lawful) (hs : s.Orderly) (hc : s.Careful e)
    (ha : ∀ id d, s.deadline id = some d → s.Answered id d) (h : s.step e = some s') :
    ∀ id d, s'.deadline id = some d → s'.Answered id d := by
  intro id d hd'
  rcases step_starts h with hb | ⟨t, answer, thread, instr, rest, hst⟩
  · apply hb.answered hlaw
    apply ha
    rwa [hb.deadline] at hd'
  · exact hst.answered hs hc ha hd'

end Host

/-! ## Runs -/

open Host

variable {stored : Leases}

theorem deadline_boot (id : String) : (boot stored).deadline id = none := by
  simp only [Host.deadline, boot, Leases.newStore]
  split
  · rfl
  · cases stored id <;> rfl

theorem orderly_boot : (boot stored).Orderly where
  shaped := nofun
  inside := nofun
  stamped := nofun
  parked := by
    rintro id l _ _ (⟨d, hp⟩ | ⟨t, thread, ht, _⟩)
    · cases hp
    · cases ht

theorem run_orderly {events : List Event} {s : Host} (h : (boot stored).run events = some s) :
    s.Orderly := by
  induction events using List.reverseRecOn generalizing s with
  | nil =>
    obtain rfl := Option.some_inj.mp h
    exact orderly_boot
  | append_singleton events e ih =>
    obtain ⟨s₁, h₁, hstep⟩ := run_snoc.mp h
    exact step_orderly (run_lawful h₁) (ih h₁) hstep

/-- No step of a run drops the last answer for a deadline. -/
def CarefulRun (stored : Leases) (events : List Event) : Prop :=
  ∀ pre e s, pre ++ [e] <+: events → (boot stored).run pre = some s → s.Careful e

theorem run_answered {events : List Event} {s : Host} (hc : CarefulRun stored events)
    (h : (boot stored).run events = some s) : ∀ id d, s.deadline id = some d → s.Answered id d := by
  induction events using List.reverseRecOn generalizing s with
  | nil =>
    obtain rfl := Option.some_inj.mp h
    intro id d hd
    rw [deadline_boot] at hd
    cases hd
  | append_singleton events e ih =>
    obtain ⟨s₁, h₁, hstep⟩ := run_snoc.mp h
    have hprefix : CarefulRun stored events :=
      fun pre e' s hpre => hc pre e' s (hpre.trans (List.prefix_append _ _))
    exact step_answered (run_lawful h₁) (run_orderly h₁) (hc events e s₁ (List.prefix_refl _) h₁)
      (ih hprefix h₁) hstep

/-- No operation is midway on the run. -/
def Host.Idle (s : Host) (id : String) : Prop :=
  ∀ t thread, s.threads t = some thread → thread.workflowID ≠ id

theorem Host.Idle.not_ahead {s : Host} {id : String} (h : s.Idle id) (p : Instr → Bool) :
    ¬ s.Ahead id p := by
  rintro ⟨t, thread, ht, hid, _⟩
  exact h t thread ht hid

/-- Every numbered operation has ended. -/
def Host.ended (s : Host) : Bool := (List.range s.next).all fun t => (s.threads t).isNone

theorem Host.Lawful.idle {s : Host} (hs : s.Lawful) (h : s.ended = true) (id : String) :
    s.Idle id := by
  intro t thread ht
  have hlt := hs.fresh t thread ht
  have hnone := List.all_eq_true.mp h t (List.mem_range.mpr hlt)
  rw [ht] at hnone
  cases hnone

/-- A run on the wire, armed. -/
def armed : List Event :=
  [.spawn "r" (.launch none), .step 0 false, .step 0 true] ++ List.replicate 3 (.step 0 false)

/-- The next step stops no timer and drops no claim. -/
def Host.quiet (s : Host) : Event → Bool
  | .step t _ => (s.threads t).all fun thread =>
      thread.program.head? ≠ some .stopTimer ∧ thread.program.head? ≠ some .releaseTermination ∧
        thread.program.head? ≠ some .clearEnd
  | _ => true

theorem Host.careful_of_quiet {s : Host} {e : Event} (h : s.quiet e = true) : s.Careful e where
  stops := by
    rintro t answer thread rest d rfl ht hp _
    simp [Host.quiet, ht, hp] at h
  drops := by
    rintro t answer thread instr rest d rfl ht hp (rfl | rfl) _
    · simp [Host.quiet, ht, hp] at h
    · simp [Host.quiet, ht, hp] at h

theorem carefulRun_of_quiet {events : List Event}
    (h : ∀ k < events.length, ((boot stored).run (events.take k)).all
      (fun s => (events[k]?).all s.quiet) = true) : CarefulRun stored events := by
  intro pre e s hpre hrun
  apply careful_of_quiet
  obtain ⟨post, rfl⟩ := hpre
  have hk := h pre.length (by simp)
  rw [List.append_assoc, List.take_left, hrun] at hk
  simpa using hk

/-- A lease with a deadline that no timer, no claim and no scheduled re-attempt stands for. -/
def Host.unenforced (s : Host) (id : String) : Bool :=
  (s.deadline id).isSome && !(s.bounds.timers id).any (·.pending) && !s.bounds.claimed id &&
    s.retries.all (·.1 ≠ id)

/-- The bound fires, and its cancel and three re-attempts are all refused. -/
def refused : List Event :=
  armed ++ [.tick (15 * 60 * 10 ^ 9), .fires "r"] ++ List.replicate 8 (.step 1 false) ++
  ([2, 3, 4].map fun t => .retryFires "r" runEndStalled :: List.replicate 5 (.step t false)).flatten

/-- A pause reads the lease and parks it, an arm stamps it again, and the pause's stop then takes
the arm's timer. -/
def crossed : List Event :=
  armed ++ [.spawn "r" .paused] ++ List.replicate 3 (.step 1 false) ++ [.spawn "r" .arm] ++
  List.replicate 3 (.step 2 false) ++ [.step 1 false]

/-- The run ends with no operation midway on `"r"` and with a deadline that nothing enforces. -/
def Unenforced (events : List Event) : Prop :=
  ∃ s l d, (boot fun _ => none).run events = some s ∧ s.Idle "r" ∧
    s.bounds.leases "r" = some l ∧ l.deadline = some d ∧ ¬ s.Pending "r" d ∧
    s.bounds.claimed "r" = false ∧ ∀ reason, ("r", reason) ∉ s.retries

theorem unenforced_of_any {events : List Event} (h : ((boot fun _ => none).run events).any
    (fun s => s.ended ∧ s.unenforced "r") = true) : Unenforced events := by
  obtain ⟨s, hrun, hs⟩ := (Option.any_eq_true ..).mp h
  simp only [Host.unenforced, Bool.decide_and, Bool.and_eq_true, decide_eq_true_eq,
    Bool.not_eq_true'] at hs
  obtain ⟨hended, ⟨⟨hd, hpending⟩, hclaim⟩, hretry⟩ := hs
  obtain ⟨d, hd⟩ := Option.isSome_iff_exists.mp hd
  obtain ⟨l, hl, hld⟩ := Option.bind_eq_some_iff.mp hd
  refine ⟨s, l, d, hrun, (run_lawful hrun).idle hended "r", hl, hld, ?_, hclaim, ?_⟩
  · intro hp
    rw [Host.Pending] at hp
    simp [hp] at hpending
  · intro reason hm
    have hne := List.all_eq_true.mp hretry _ hm
    simp at hne

end Marotte.Runs
