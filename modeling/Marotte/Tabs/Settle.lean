import Mathlib.Data.List.Induction
import Marotte.Tabs.Sync

/-! # Every pending operation settles once

A confirmation or a rollback runs exactly once for every operation that some signal settles,
and never for one that still waits. The watermark moves with frames and lists only.
-/
namespace Marotte.Tabs.Sync

/-- How an operation ends. -/
inductive Verdict where
  | confirm | rollback
  deriving DecidableEq

def Call.verdict (opID : String) : Call → Option Verdict
  | .confirm id => if id = opID then some .confirm else none
  | .rollback id => if id = opID then some .rollback else none
  | _ => none

/-- The operation that an applied frame echoes. -/
def Call.echo : Call → Option String
  | .apply delta _ => delta.opID
  | _ => none

/-- The callback of a verdict. -/
def Verdict.call (opID : String) : Verdict → Call
  | .confirm => .confirm opID
  | .rollback => .rollback opID

/-- The operation that an event registers. -/
def Event.begins : Event → Option String
  | .beginAdopt opID => some opID
  | .beginRemove opID _ _ => some opID
  | .beginReorder opID _ => some opID
  | _ => none

/-- Whether an event hands the machine a frame or a snapshot. -/
def Event.carriesVersion : Event → Bool
  | .frame _ | .drainResumes | .listAnswers _ => true
  | _ => false

namespace Machine

variable {s s' s'' : Machine} {k : String} {op : PendingOp}

/-- The verdicts run for one operation, in order. -/
def verdicts (s : Machine) (opID : String) : List Verdict :=
  s.calls.filterMap (Call.verdict opID)

/-- The operations echoed by the frames applied so far. -/
def echoes (s : Machine) : List String := s.calls.filterMap Call.echo

/-! ## What one operation sees -/

/-- From `s` to `s'` the operation `k` ends with the verdict that `V` gives its record, and is
left alone where it gives none. -/
structure Ends (k : String) (V : PendingOp → Option Verdict) (s s' : Machine) : Prop where
  pending : s'.pending k = (s.pending k).filter fun op => (V op).isNone
  verdicts : s'.verdicts k = s.verdicts k ++ ((s.pending k).bind V).toList

/-- No operation ends. -/
def nothing : PendingOp → Option Verdict := fun _ => none

theorem Ends.of_eq (hp : s'.pending k = s.pending k) (hv : s'.verdicts k = s.verdicts k) :
    Ends k nothing s s' where
  pending := by
    rw [hp]
    cases s.pending k <;> rfl
  verdicts := by
    rw [hv]
    cases s.pending k <;> simp [nothing]

theorem Ends.trans {V W : PendingOp → Option Verdict} (h : Ends k V s s') (h' : Ends k W s' s'') :
    Ends k (fun op => (V op).or (W op)) s s'' where
  pending := by
    rw [h'.pending, h.pending]
    cases s.pending k with
    | none => rfl
    | some op => cases hV : V op <;> simp [Option.filter, hV]
  verdicts := by
    rw [h'.verdicts, h.verdicts, h.pending]
    cases s.pending k with
    | none => simp
    | some op => cases hV : V op <;> simp [Option.filter, hV]

theorem Ends.congr {V W : PendingOp → Option Verdict} (h : Ends k V s s')
    (hVW : ∀ op, s.pending k = some op → V op = W op) : Ends k W s s' where
  pending := by
    rw [h.pending]
    cases hp : s.pending k with
    | none => rfl
    | some op => simp [Option.filter, hVW op hp]
  verdicts := by
    rw [h.verdicts]
    cases hp : s.pending k with
    | none => rfl
    | some op => simp [hVW op hp]

/-! ## The parts of the machine -/

@[simp] theorem pending_call (c : Call) : (s.call c).pending k = s.pending k := rfl

@[simp] theorem localVersion_call (c : Call) : (s.call c).localVersion = s.localVersion := rfl

@[simp] theorem pendingOps_call (c : Call) : (s.call c).pendingOps = s.pendingOps := rfl

theorem verdicts_call (c : Call) :
    (s.call c).verdicts k = s.verdicts k ++ (c.verdict k).toList := by
  rw [verdicts, call, List.filterMap_append]
  cases h : c.verdict k <;> simp [verdicts, h]

theorem echoes_call (c : Call) : (s.call c).echoes = s.echoes ++ c.echo.toList := by
  rw [echoes, call, List.filterMap_append]
  cases h : c.echo <;> simp [echoes, h]

/-- The operations, the watermark and the calls: all that settlement reads. -/
def Same (s s' : Machine) : Prop :=
  s'.pendingOps = s.pendingOps ∧ s'.localVersion = s.localVersion ∧ s'.calls = s.calls

theorem same_cancelTimer (handle : Option ℕ) : Same s (s.cancelTimer handle) := by
  cases handle <;> exact ⟨rfl, rfl, rfl⟩

theorem same_relist : Same s s.relist := by
  unfold relist
  split <;> exact ⟨rfl, rfl, rfl⟩

theorem same_frameIsLocal (opID : Option String) : Same s (s.frameIsLocal opID).1 := by
  cases opID <;> exact ⟨rfl, rfl, rfl⟩

theorem pendingOps_retire (op : PendingOp) :
    (s.retire op).pendingOps = Keyed.erase PendingOp.opID s.pendingOps op.opID := by
  cases op with
  | remove op =>
    change Keyed.erase _ (s.cancelTimer op.verifyTimer).pendingOps _ = _
    rw [(same_cancelTimer _).1]
  | adopt op => rfl
  | reorder op => rfl

theorem localVersion_retire (op : PendingOp) : (s.retire op).localVersion = s.localVersion := by
  cases op with
  | remove op => exact (same_cancelTimer op.verifyTimer).2.1
  | adopt op => rfl
  | reorder op => rfl

theorem calls_retire (op : PendingOp) : (s.retire op).calls = s.calls := by
  cases op with
  | remove op => exact (same_cancelTimer op.verifyTimer).2.2
  | adopt op => rfl
  | reorder op => rfl

theorem pending_retire (op : PendingOp) :
    (s.retire op).pending k = if k = op.opID then none else s.pending k := by
  unfold pending
  rw [pendingOps_retire]
  split
  · next h => rw [h, Keyed.find_erase_self]
  · next h => exact Keyed.find_erase_of_ne h

theorem noteRemoveSettled_cases (s : Machine) :
    s.noteRemoveSettled = s ∨ s.noteRemoveSettled = s.call .removesSettled := by
  unfold noteRemoveSettled
  split
  · exact .inl rfl
  · exact .inr rfl

theorem pendingOps_noteRemoveSettled : s.noteRemoveSettled.pendingOps = s.pendingOps := by
  rcases noteRemoveSettled_cases s with h | h <;> rw [h]
  rfl

theorem localVersion_noteRemoveSettled : s.noteRemoveSettled.localVersion = s.localVersion := by
  rcases noteRemoveSettled_cases s with h | h <;> rw [h]
  rfl

theorem verdicts_noteRemoveSettled : s.noteRemoveSettled.verdicts k = s.verdicts k := by
  rcases noteRemoveSettled_cases s with h | h <;> rw [h]
  rw [verdicts_call]
  exact List.append_nil _

theorem echoes_noteRemoveSettled : s.noteRemoveSettled.echoes = s.echoes := by
  rcases noteRemoveSettled_cases s with h | h <;> rw [h]
  rw [echoes_call]
  exact List.append_nil _

/-- What `confirmOp` and `failOp` share: retire, call back, and note a settled remove. -/
def conclude (s : Machine) (op : PendingOp) (v : Verdict) : Machine :=
  let s := (s.retire op).call (Verdict.call op.opID v)
  if op.isRemove then s.noteRemoveSettled else s

theorem confirmOp_eq (op : PendingOp) : s.confirmOp op = s.conclude op .confirm := rfl

theorem verdict_call (opID : String) (v : Verdict) :
    (Verdict.call opID v).verdict k = if k = opID then some v else none := by
  cases v <;> simp [Verdict.call, Call.verdict, eq_comm]

theorem echo_call (opID : String) (v : Verdict) : (Verdict.call opID v).echo = none := by
  cases v <;> rfl

theorem pendingOps_conclude (op : PendingOp) (v : Verdict) :
    (s.conclude op v).pendingOps = Keyed.erase PendingOp.opID s.pendingOps op.opID := by
  unfold conclude
  split
  · rw [pendingOps_noteRemoveSettled, pendingOps_call, pendingOps_retire]
  · rw [pendingOps_call, pendingOps_retire]

theorem localVersion_conclude (op : PendingOp) (v : Verdict) :
    (s.conclude op v).localVersion = s.localVersion := by
  unfold conclude
  split
  · rw [localVersion_noteRemoveSettled, localVersion_call, localVersion_retire]
  · rw [localVersion_call, localVersion_retire]

theorem verdicts_retire (op : PendingOp) : (s.retire op).verdicts k = s.verdicts k := by
  rw [verdicts, calls_retire]
  rfl

theorem echoes_retire (op : PendingOp) : (s.retire op).echoes = s.echoes := by
  rw [echoes, calls_retire]
  rfl

theorem verdicts_conclude (op : PendingOp) (v : Verdict) :
    (s.conclude op v).verdicts k = s.verdicts k ++ if k = op.opID then [v] else [] := by
  have h : ((s.retire op).call (Verdict.call op.opID v)).verdicts k =
      s.verdicts k ++ if k = op.opID then [v] else [] := by
    rw [verdicts_call, verdicts_retire, verdict_call]
    split <;> rfl
  unfold conclude
  split
  · rw [verdicts_noteRemoveSettled, h]
  · exact h

theorem echoes_conclude (op : PendingOp) (v : Verdict) :
    (s.conclude op v).echoes = s.echoes := by
  have h : ((s.retire op).call (Verdict.call op.opID v)).echoes = s.echoes := by
    rw [echoes_call, echoes_retire, echo_call]
    exact List.append_nil _
  unfold conclude
  split
  · rw [echoes_noteRemoveSettled, h]
  · exact h

theorem pending_conclude (op : PendingOp) (v : Verdict) :
    (s.conclude op v).pending k = if k = op.opID then none else s.pending k := by
  rw [← pending_retire, pending, pendingOps_conclude, pending, pendingOps_retire]

/-- The one operation that a verdict names ends with it. -/
theorem conclude_ends (op : PendingOp) (v : Verdict) (h : (s.pending op.opID).isSome) :
    Ends k (fun _ => if k = op.opID then some v else none) s (s.conclude op v) where
  pending := by
    rw [pending_conclude]
    by_cases hk : k = op.opID
    · cases s.pending k <;> simp [hk, Option.filter]
    · cases s.pending k <;> simp [hk, Option.filter]
  verdicts := by
    rw [verdicts_conclude]
    by_cases hk : k = op.opID
    · subst hk
      obtain ⟨op', hop⟩ := Option.isSome_iff_exists.mp h
      simp [hop]
    · cases s.pending k <;> simp [hk]

/-! ## The watermark -/

/-- Whether the watermark covers an operation that waits for its frame. -/
def covered (version : ℕ) (op : PendingOp) : Bool :=
  op.confirmed && op.committedVersion.any (· ≤ version)

/-- Each operation has one record, and none waits for a version the watermark has reached. -/
structure WellFormed (s : Machine) : Prop where
  nodup : (s.pendingOps.map PendingOp.opID).Nodup
  waiting : ∀ op ∈ s.pendingOps, covered s.localVersion op = false
  committed : ∀ op ∈ s.pendingOps, op.confirmed → op.committedVersion.isSome

def absorbOp (s : Machine) (op : PendingOp) : Machine :=
  if op.confirmed ∧ op.committedVersion.any (· ≤ s.localVersion) then s.confirmOp op else s

theorem absorbOp_eq (op : PendingOp) :
    s.absorbOp op = if covered s.localVersion op then s.conclude op .confirm else s := by
  simp only [absorbOp, covered, Bool.and_eq_true, confirmOp_eq]

theorem localVersion_absorbOp (op : PendingOp) : (s.absorbOp op).localVersion = s.localVersion := by
  rw [absorbOp_eq]
  split
  · exact localVersion_conclude op _
  · rfl

theorem echoes_absorbOp (op : PendingOp) : (s.absorbOp op).echoes = s.echoes := by
  rw [absorbOp_eq]
  split
  · exact echoes_conclude op _
  · rfl

theorem WellFormed.behind (h : s.WellFormed) (hm : op ∈ s.pendingOps) (hc : op.confirmed) :
    ∃ v, op.committedVersion = some v ∧ s.localVersion < v := by
  obtain ⟨v, hv⟩ := Option.isSome_iff_exists.mp (h.committed op hm hc)
  have hw := h.waiting op hm
  rw [covered, hc, hv] at hw
  exact ⟨v, hv, by simpa using hw⟩

theorem pending_of_mem (hs : (s.pendingOps.map PendingOp.opID).Nodup) (h : op ∈ s.pendingOps) :
    s.pending op.opID = some op := Keyed.find_of_mem hs h

theorem mem_of_pending (h : s.pending k = some op) : op ∈ s.pendingOps ∧ op.opID = k :=
  ⟨Keyed.mem_of_find h, Keyed.key_of_find h⟩

/-- The operations of a list that the watermark covers. -/
def absorbs (ops : List PendingOp) (version : ℕ) (op : PendingOp) : Option Verdict :=
  if op ∈ ops ∧ covered version op then some .confirm else none

theorem absorbOp_ends (op : PendingOp) (h : s.pending op.opID = some op) :
    Ends k (absorbs [op] s.localVersion) s (s.absorbOp op) := by
  rw [absorbOp_eq]
  by_cases hc : covered s.localVersion op
  · rw [if_pos hc]
    apply (conclude_ends op .confirm (by simp [h])).congr
    intro op' hop
    have hk : k = op.opID ↔ op' = op := by
      constructor
      · rintro rfl
        exact Option.some_inj.mp (hop.symm.trans h)
      · rintro rfl
        exact (mem_of_pending hop).2.symm
    by_cases ho : op' = op
    · simp [absorbs, ho, hc, hk.mpr ho]
    · simp [absorbs, ho, mt hk.mp ho]
  · rw [if_neg hc]
    apply (Ends.of_eq rfl rfl).congr
    intro op' _
    by_cases ho : op' = op
    · simp [absorbs, nothing, ho, hc]
    · simp [absorbs, nothing, ho]

theorem absorb_ends (ops : List PendingOp) (hn : (ops.map PendingOp.opID).Nodup)
    (h : ∀ op ∈ ops, s.pending op.opID = some op) :
    Ends k (absorbs ops s.localVersion) s (ops.foldl absorbOp s) ∧
      (ops.foldl absorbOp s).localVersion = s.localVersion ∧
      (ops.foldl absorbOp s).echoes = s.echoes := by
  induction ops generalizing s with
  | nil =>
    refine ⟨(Ends.of_eq rfl rfl).congr fun op _ => ?_, rfl, rfl⟩
    simp [absorbs, nothing]
  | cons op ops ih =>
    rw [List.map_cons, List.nodup_cons] at hn
    have hop := absorbOp_ends (k := k) op (h op List.mem_cons_self)
    have hrest : ∀ op' ∈ ops, (s.absorbOp op).pending op'.opID = some op' := by
      intro op' hm
      have hne : op'.opID ≠ op.opID := fun he => hn.1 (he ▸ List.mem_map_of_mem hm)
      rw [absorbOp_eq]
      split
      · rw [pending_conclude, if_neg hne]
        exact h op' (List.mem_cons_of_mem _ hm)
      · exact h op' (List.mem_cons_of_mem _ hm)
    obtain ⟨hends, hv, he⟩ := ih hn.2 hrest
    refine ⟨(hop.trans hends).congr fun op' _ => ?_, hv.trans (localVersion_absorbOp op),
      he.trans (echoes_absorbOp op)⟩
    rw [localVersion_absorbOp]
    by_cases hc : covered s.localVersion op'
    · by_cases ho : op' = op
      · subst ho
        simp [absorbs, hc]
      · simp [absorbs, ho, hc]
    · simp [absorbs, hc]

theorem absorbOp_pendingOps (op : PendingOp) :
    (s.absorbOp op).pendingOps =
      if covered s.localVersion op then Keyed.erase PendingOp.opID s.pendingOps op.opID
      else s.pendingOps := by
  rw [absorbOp_eq]
  split
  · exact pendingOps_conclude op _
  · rfl

theorem foldl_absorbOp_sublist (ops : List PendingOp) (s : Machine) :
    (ops.foldl absorbOp s).pendingOps.Sublist s.pendingOps := by
  induction ops generalizing s with
  | nil => exact List.Sublist.refl _
  | cons op ops ih =>
    refine (ih (s.absorbOp op)).trans ?_
    rw [absorbOp_pendingOps]
    split
    · exact List.filter_sublist
    · exact List.Sublist.refl _

/-- Of well-keyed operations the absorption leaves exactly those the watermark is behind. -/
theorem absorbCommitted_ends (hn : (s.pendingOps.map PendingOp.opID).Nodup) :
    Ends k (fun op => if covered s.localVersion op then some .confirm else none) s
      s.absorbCommitted := by
  apply (absorb_ends s.pendingOps hn fun op h => pending_of_mem hn h).1.congr
  intro op hop
  simp [absorbs, (mem_of_pending hop).1]

theorem localVersion_absorbCommitted (hn : (s.pendingOps.map PendingOp.opID).Nodup) :
    s.absorbCommitted.localVersion = s.localVersion :=
  (absorb_ends (k := "") s.pendingOps hn fun _ h => pending_of_mem hn h).2.1

theorem echoes_absorbCommitted (hn : (s.pendingOps.map PendingOp.opID).Nodup) :
    s.absorbCommitted.echoes = s.echoes :=
  (absorb_ends (k := "") s.pendingOps hn fun _ h => pending_of_mem hn h).2.2

theorem absorbCommitted_wellFormed (hn : (s.pendingOps.map PendingOp.opID).Nodup)
    (hc : ∀ op ∈ s.pendingOps, op.confirmed → op.committedVersion.isSome) :
    s.absorbCommitted.WellFormed where
  nodup := hn.sublist ((foldl_absorbOp_sublist _ s).map _)
  waiting := by
    intro op hm
    have hsub := foldl_absorbOp_sublist s.pendingOps s
    have hop : s.absorbCommitted.pending op.opID = some op :=
      pending_of_mem (hn.sublist (hsub.map _)) hm
    rw [(absorbCommitted_ends hn).pending, Option.filter_eq_some_iff] at hop
    rw [localVersion_absorbCommitted hn]
    by_contra hcov
    simp [hcov] at hop
  committed := fun op hm => hc op ((foldl_absorbOp_sublist _ s).mem hm)

/-! ## Frames -/

/-- What one frame settles: the operation it echoes, and those it brings the watermark to. -/
def frameSettles (opID : Option String) (version : ℕ) (op : PendingOp) : Option Verdict :=
  if opID = some op.opID ∨ covered version op then some .confirm else none

theorem settleFrame_ends (hn : (s.pendingOps.map PendingOp.opID).Nodup) (opID : Option String) :
    Ends k (frameSettles opID s.localVersion) s (s.settleFrame opID) := by
  unfold settleFrame
  cases hop : opID.bind s.pending with
  | none =>
    apply (absorbCommitted_ends hn).congr
    intro op hp
    have hne : opID ≠ some op.opID := by
      rintro rfl
      rw [Option.bind_some, (mem_of_pending hp).2, hp] at hop
      cases hop
    simp [frameSettles, hne]
  | some op =>
    obtain ⟨id, rfl, hid⟩ := Option.bind_eq_some_iff.mp hop
    obtain ⟨hm, rfl⟩ := mem_of_pending hid
    have hn' : ((s.conclude op .confirm).pendingOps.map PendingOp.opID).Nodup := by
      rw [pendingOps_conclude]
      exact Keyed.nodup_erase hn
    have h := (conclude_ends (k := k) op .confirm (by simp [hid])).trans (absorbCommitted_ends hn')
    apply h.congr
    intro op' hp
    rw [localVersion_conclude, (mem_of_pending hp).2.symm]
    by_cases he : op.opID = op'.opID
    · simp [frameSettles, he]
    · simp [frameSettles, he, Ne.symm he]

theorem committed_conclude (hc : ∀ op ∈ s.pendingOps, op.confirmed → op.committedVersion.isSome)
    (op : PendingOp) (v : Verdict) :
    ∀ op' ∈ (s.conclude op v).pendingOps, op'.confirmed → op'.committedVersion.isSome := by
  intro op' hm
  rw [pendingOps_conclude] at hm
  exact hc op' (Keyed.mem_erase.mp hm).1

theorem settleFrame_wellFormed (hn : (s.pendingOps.map PendingOp.opID).Nodup)
    (hc : ∀ op ∈ s.pendingOps, op.confirmed → op.committedVersion.isSome)
    (opID : Option String) :
    (s.settleFrame opID).WellFormed ∧ (s.settleFrame opID).localVersion = s.localVersion ∧
      (s.settleFrame opID).echoes = s.echoes := by
  unfold settleFrame
  cases opID.bind s.pending with
  | none =>
    exact ⟨absorbCommitted_wellFormed hn hc, localVersion_absorbCommitted hn,
      echoes_absorbCommitted hn⟩
  | some op =>
    have hn' : ((s.conclude op .confirm).pendingOps.map PendingOp.opID).Nodup := by
      rw [pendingOps_conclude]
      exact Keyed.nodup_erase hn
    have hc' := committed_conclude hc op .confirm
    exact ⟨absorbCommitted_wellFormed hn' hc',
      (localVersion_absorbCommitted hn').trans (localVersion_conclude op _),
      (echoes_absorbCommitted hn').trans (echoes_conclude op _)⟩

theorem opID_overlayFrame (delta : TabsChanged) : (s.overlayFrame delta).opID = delta.opID := by
  simp only [overlayFrame]
  split <;> rfl

/-- What the drain hands to `settleFrame`: the frame applied at its version. -/
def reached (s : Machine) (delta : TabsChanged) : Machine :=
  let s' := { (s.frameIsLocal delta.opID).1 with localVersion := delta.version }
  s'.call (.apply (s'.overlayFrame delta) (s.frameIsLocal delta.opID).2)

theorem pendingOps_reached (delta : TabsChanged) :
    (s.reached delta).pendingOps = s.pendingOps := (same_frameIsLocal delta.opID).1

theorem echoes_reached (delta : TabsChanged) :
    (s.reached delta).echoes = s.echoes ++ delta.opID.toList := by
  have h : (s.frameIsLocal delta.opID).1.echoes = s.echoes := by
    unfold echoes
    rw [(same_frameIsLocal delta.opID).2.2]
  rw [reached, echoes_call]
  exact congrArg₂ (· ++ ·) h (congrArg Option.toList (opID_overlayFrame delta))

theorem reached_ends (delta : TabsChanged) : Ends k nothing s (s.reached delta) := by
  apply Ends.of_eq
  · unfold pending
    rw [pendingOps_reached]
  · have h : (s.frameIsLocal delta.opID).1.verdicts k = s.verdicts k := by
      unfold verdicts
      rw [(same_frameIsLocal delta.opID).2.2]
    rw [reached, verdicts_call]
    exact (List.append_nil _).trans h

theorem applyFrame_ends (hn : (s.pendingOps.map PendingOp.opID).Nodup) (delta : TabsChanged) :
    Ends k (frameSettles delta.opID delta.version) s (s.applyFrame delta) := by
  have hn' : ((s.reached delta).pendingOps.map PendingOp.opID).Nodup := by
    rwa [pendingOps_reached]
  exact (reached_ends delta).trans (settleFrame_ends hn' delta.opID)

theorem applyFrame_wellFormed (h : s.WellFormed) (delta : TabsChanged) :
    (s.applyFrame delta).WellFormed ∧ (s.applyFrame delta).localVersion = delta.version ∧
      (s.applyFrame delta).echoes = s.echoes ++ delta.opID.toList := by
  have hs := settleFrame_wellFormed (s := s.reached delta) (by rw [pendingOps_reached]; exact h.nodup)
    (by rw [pendingOps_reached]; exact h.committed) delta.opID
  exact ⟨hs.1, hs.2.1, hs.2.2.trans (echoes_reached delta)⟩

/-! ## The drain -/

/-- What a batch of frames settles: the operations they echo, and those behind the watermark
they leave. -/
def batchSettles (echoed : List String) (version : ℕ) (op : PendingOp) : Option Verdict :=
  if op.opID ∈ echoed ∨ covered version op then some .confirm else none

/-- What a stretch of frames leaves. -/
structure Drained (s s' : Machine) : Prop where
  wellFormed : s'.WellFormed
  version : s.localVersion ≤ s'.localVersion
  ends : ∃ echoed, s'.echoes = s.echoes ++ echoed ∧
    ∀ k, Ends k (batchSettles echoed s'.localVersion) s s'

theorem covered_mono {version version' : ℕ} (h : version ≤ version')
    (hc : covered version op = true) : covered version' op = true := by
  unfold covered at hc ⊢
  rw [Bool.and_eq_true] at hc ⊢
  refine ⟨hc.1, ?_⟩
  cases hv : op.committedVersion with
  | none => simp [hv] at hc
  | some v =>
    have := hc.2
    simp only [hv, Option.any_some, decide_eq_true_eq] at this ⊢
    omega

/-- A machine that differs only in what settlement does not read is drained by nothing. -/
theorem Drained.of_same (h : s.WellFormed) (hsame : Same s s') : Drained s s' := by
  obtain ⟨hp, hv, hc⟩ := hsame
  refine ⟨⟨?_, ?_, ?_⟩, Nat.le_of_eq hv.symm, [], ?_, ?_⟩
  · rw [hp]
    exact h.nodup
  · rw [hp, hv]
    exact h.waiting
  · rw [hp]
    exact h.committed
  · rw [echoes, hc, List.append_nil]
    rfl
  · intro k
    have hpk : s'.pending k = s.pending k := by rw [pending, hp]; rfl
    have hvk : s'.verdicts k = s.verdicts k := by rw [verdicts, hc]; rfl
    apply (Ends.of_eq hpk hvk).congr
    intro op hop
    simp [batchSettles, nothing, hv, h.waiting op (mem_of_pending hop).1]

theorem Drained.trans (h : Drained s s') (h' : Drained s' s'') : Drained s s'' := by
  obtain ⟨new, he, hk⟩ := h.ends
  obtain ⟨new', he', hk'⟩ := h'.ends
  refine ⟨h'.wellFormed, Nat.le_trans h.version h'.version, new ++ new', ?_, fun k => ?_⟩
  · rw [he', he, List.append_assoc]
  · apply ((hk k).trans (hk' k)).congr
    intro op _
    unfold batchSettles
    by_cases hc : covered s''.localVersion op
    · by_cases h1 : op.opID ∈ new ∨ covered s'.localVersion op
      · simp [hc, h1]
      · simp [hc, h1]
    · have hc' : ¬ covered s'.localVersion op := fun hc' => hc (covered_mono h'.version hc')
      by_cases h1 : op.opID ∈ new
      · simp [h1]
      · simp [h1, hc, hc']

theorem applyFrame_drained (h : s.WellFormed) (delta : TabsChanged)
    (hv : s.localVersion ≤ delta.version) : Drained s (s.applyFrame delta) := by
  obtain ⟨hw, hver, he⟩ := applyFrame_wellFormed h delta
  refine ⟨hw, by rwa [hver], delta.opID.toList, he, fun k => ?_⟩
  apply (applyFrame_ends h.nodup delta).congr
  intro op _
  simp [frameSettles, batchSettles, hver]

theorem drainLoop_drained (queue : List TabsChanged) (h : s.WellFormed) :
    Drained s (s.drainLoop queue) := by
  induction queue generalizing s with
  | nil => exact .of_same h ⟨rfl, rfl, rfl⟩
  | cons delta queue ih =>
    unfold drainLoop
    split
    · exact ih h
    · next hlt =>
      split
      · have hrel := same_relist (s := { s with queue := queue, draining := .awaiting })
        exact .of_same h hrel
      · have hd := applyFrame_drained h delta (by omega)
        exact hd.trans (ih hd.wellFormed)

/-! ## Lists -/

/-- What an adopted list settles: a verifying remove by the presence of its row, and what
the watermark now covers. -/
def listSettles (list : TabList) (op : PendingOp) : Option Verdict :=
  match op with
  | .remove rm =>
    if rm.state = .verifying then
      some (if list.tabs.any (·.id = rm.id) then .rollback else .confirm)
    else if covered list.version op then some .confirm else none
  | _ => if covered list.version op then some .confirm else none

/-- The verdict of a verifying remove. -/
def verifySettles (tabs : List TabSubject) (op : PendingOp) : Option Verdict :=
  match op with
  | .remove rm =>
    if rm.state = .verifying then
      some (if tabs.any (·.id = rm.id) then .rollback else .confirm)
    else none
  | _ => none

def isVerifying : PendingOp → Bool
  | .remove rm => rm.state = .verifying
  | _ => false

/-- The verifying remove whose row a list shows, or does not show. -/
def settledRemove (tabs : List TabSubject) (shown : Bool) : PendingOp → Option PendingRemove
  | .remove rm =>
    if rm.state = .verifying ∧ tabs.any (·.id = rm.id) = shown then some rm else none
  | _ => none

def retireVerifying (s : Machine) (op : PendingOp) : Machine :=
  if isVerifying op then s.retire op else s

theorem settleVerifyingOp_eq (tabs : List TabSubject) (op : PendingOp)
    (confirms rollbacks : List PendingRemove) :
    settleVerifyingOp tabs (s, confirms, rollbacks) op =
      (s.retireVerifying op, confirms ++ (settledRemove tabs false op).toList,
        rollbacks ++ (settledRemove tabs true op).toList) := by
  cases op with
  | remove rm =>
    simp only [settleVerifyingOp, retireVerifying, isVerifying, settledRemove, decide_eq_true_eq]
    by_cases hv : rm.state = .verifying
    · cases hshown : tabs.any (·.id = rm.id)
      · simp [hv]
      · simp [hv]
    · simp [hv]
  | adopt op => simp [settleVerifyingOp, retireVerifying, isVerifying, settledRemove]
  | reorder op => simp [settleVerifyingOp, retireVerifying, isVerifying, settledRemove]

theorem foldl_settleVerifyingOp (tabs : List TabSubject) (ops : List PendingOp)
    (confirms rollbacks : List PendingRemove) :
    ops.foldl (settleVerifyingOp tabs) (s, confirms, rollbacks) =
      (ops.foldl retireVerifying s, confirms ++ ops.filterMap (settledRemove tabs false),
        rollbacks ++ ops.filterMap (settledRemove tabs true)) := by
  induction ops generalizing s confirms rollbacks with
  | nil => simp
  | cons op ops ih =>
    rw [List.foldl_cons, settleVerifyingOp_eq, ih, List.foldl_cons,
      Keyed.filterMap_cons_toList, Keyed.filterMap_cons_toList, List.append_assoc,
      List.append_assoc]

theorem settleVerifying_eq (tabs : List TabSubject) :
    s.settleVerifying tabs = (s.pendingOps.foldl retireVerifying s,
      s.pendingOps.filterMap (settledRemove tabs false),
      s.pendingOps.filterMap (settledRemove tabs true)) :=
  foldl_settleVerifyingOp tabs s.pendingOps [] []

/-! The state that `settleVerifying` leaves. -/

theorem foldl_retireVerifying (ops : List PendingOp) (s : Machine) :
    (ops.foldl retireVerifying s).calls = s.calls ∧
      (ops.foldl retireVerifying s).localVersion = s.localVersion ∧
      (ops.foldl retireVerifying s).pendingOps.Sublist s.pendingOps := by
  induction ops generalizing s with
  | nil => exact ⟨rfl, rfl, List.Sublist.refl _⟩
  | cons op ops ih =>
    obtain ⟨hc, hv, hs⟩ := ih (s.retireVerifying op)
    rw [List.foldl_cons, hc, hv]
    unfold retireVerifying at hs ⊢
    split at hs
    · next h =>
      rw [if_pos h, calls_retire, localVersion_retire]
      refine ⟨rfl, rfl, hs.trans ?_⟩
      rw [pendingOps_retire]
      exact List.filter_sublist
    · next h =>
      rw [if_neg h]
      exact ⟨rfl, rfl, hs⟩

theorem pending_foldl_retireVerifying (ops : List PendingOp) (s : Machine)
    (h : ∀ op ∈ ops, ∀ op', s.pending op.opID = some op' → op' = op) :
    (ops.foldl retireVerifying s).pending k =
      (s.pending k).filter fun op => ¬ (op ∈ ops ∧ isVerifying op) := by
  induction ops generalizing s with
  | nil =>
    rw [List.foldl_nil]
    cases s.pending k <;> simp [Option.filter]
  | cons op ops ih =>
    rw [List.foldl_cons, ih]
    · unfold retireVerifying
      by_cases hv : isVerifying op
      · rw [if_pos hv, pending_retire]
        by_cases hk : k = op.opID
        · subst hk
          cases hp : s.pending op.opID with
          | none => simp
          | some op' =>
            rw [h op List.mem_cons_self op' hp]
            simp [Option.filter, hv]
        · cases hp : s.pending k with
          | none => simp [hk]
          | some op' =>
            have hne : op' ≠ op := by
              rintro rfl
              exact hk (mem_of_pending hp).2.symm
            simp [Option.filter, hk, hne]
      · rw [if_neg hv]
        cases hp : s.pending k with
        | none => rfl
        | some op' =>
          by_cases ho : op' = op
          · subst ho
            simp [Option.filter, hv]
          · simp [Option.filter, ho]
    · intro op₁ hm op' hp
      apply h op₁ (List.mem_cons_of_mem _ hm)
      unfold retireVerifying at hp
      split at hp
      · rw [pending_retire] at hp
        split at hp
        · cases hp
        · exact hp
      · exact hp

/-- The callbacks of settled removes, run in turn. -/
def callAll (s : Machine) (v : Verdict) (ops : List PendingRemove) : Machine :=
  ops.foldl (fun s op => s.call (Verdict.call op.opID v)) s

theorem callAll_frame (v : Verdict) (ops : List PendingRemove) (s : Machine) :
    (s.callAll v ops).pendingOps = s.pendingOps ∧
      (s.callAll v ops).localVersion = s.localVersion ∧
      (s.callAll v ops).echoes = s.echoes := by
  induction ops generalizing s with
  | nil => exact ⟨rfl, rfl, rfl⟩
  | cons op ops ih =>
    obtain ⟨hp, hv, he⟩ := ih (s.call (Verdict.call op.opID v))
    refine ⟨hp, hv, he.trans ?_⟩
    rw [echoes_call, echo_call]
    exact List.append_nil _

theorem verdicts_callAll (v : Verdict) (ops : List PendingRemove) (s : Machine) :
    (s.callAll v ops).verdicts k =
      s.verdicts k ++ ops.filterMap fun op => if k = op.opID then some v else none := by
  induction ops generalizing s with
  | nil => simp [callAll]
  | cons op ops ih =>
    rw [Keyed.filterMap_cons_toList, ← List.append_assoc]
    change ((s.call (Verdict.call op.opID v)).callAll v ops).verdicts k = _
    rw [ih, verdicts_call, verdict_call]

/-- Of the removes that a list settles one way, the callbacks name an operation once. -/
theorem filterMap_settledRemove (tabs : List TabSubject) (shown : Bool) (v : Verdict)
    (hn : (s.pendingOps.map PendingOp.opID).Nodup) :
    ((s.pendingOps.filterMap (settledRemove tabs shown)).filterMap
        fun op => if k = op.opID then some v else none) =
      ((s.pending k).bind fun op => (settledRemove tabs shown op).map fun _ => v).toList := by
  rw [List.filterMap_filterMap]
  rw [Keyed.filterMap_eq_find (k := k) hn]
  · cases hp : s.pending k with
    | none =>
      unfold pending at hp
      simp [hp]
    | some op =>
      have hk := (mem_of_pending hp).2
      unfold pending at hp
      cases op with
      | remove rm =>
        have hrm : k = rm.opID := hk.symm
        simp only [hp, Option.bind_some, settledRemove]
        split
        · simp [hrm]
        · rfl
      | adopt op => simp [hp, settledRemove]
      | reorder op => simp [hp, settledRemove]
  · intro op hne
    cases op with
    | remove rm =>
      have hrm : k ≠ rm.opID := fun h => hne h.symm
      simp only [settledRemove]
      split
      · simp [hrm]
      · rfl
    | adopt op => rfl
    | reorder op => rfl

/-- The adoption of a list, up to the absorption that ends it. -/
def adopted (s : Machine) (list : TabList) : Machine :=
  let s := { s with localVersion := list.version }
  let confirms := s.pendingOps.filterMap (settledRemove list.tabs false)
  let rollbacks := s.pendingOps.filterMap (settledRemove list.tabs true)
  let s := s.pendingOps.foldl retireVerifying s
  let s := s.call (.reset (s.overlayList list.tabs list.version))
  let s := (s.callAll .confirm confirms).callAll .rollback rollbacks
  if confirms ≠ [] ∨ rollbacks ≠ [] then s.noteRemoveSettled else s

theorem readList_eq (list : TabList) :
    s.readList (some list) =
      if list.version < s.localVersion then s else (s.adopted list).absorbCommitted := by
  simp only [readList, settleVerifying_eq]
  rfl

theorem verifySettles_eq (tabs : List TabSubject) (op : PendingOp) :
    (verifySettles tabs op).toList =
      ((settledRemove tabs false op).map fun _ => Verdict.confirm).toList ++
        ((settledRemove tabs true op).map fun _ => Verdict.rollback).toList := by
  cases op with
  | remove rm =>
    unfold verifySettles settledRemove
    by_cases hv : rm.state = .verifying
    · cases hshown : tabs.any (·.id = rm.id)
      · simp only [hv, hshown, true_and, reduceIte]
        rfl
      · simp only [hv, hshown, true_and, reduceIte]
        rfl
    · simp [hv]
  | adopt op => rfl
  | reorder op => rfl

theorem isNone_verifySettles (tabs : List TabSubject) (op : PendingOp) :
    (verifySettles tabs op).isNone = !isVerifying op := by
  cases op with
  | remove rm => by_cases hv : rm.state = .verifying <;> simp [verifySettles, isVerifying, hv]
  | adopt op => rfl
  | reorder op => rfl

/-- What the adoption leaves: each verifying remove ended, and the rest as it was. -/
theorem adopted_spec (hn : (s.pendingOps.map PendingOp.opID).Nodup) (list : TabList) :
    Ends k (verifySettles list.tabs) s (s.adopted list) ∧
      (s.adopted list).localVersion = list.version ∧ (s.adopted list).echoes = s.echoes ∧
      (s.adopted list).pendingOps.Sublist s.pendingOps := by
  let s₀ : Machine := { s with localVersion := list.version }
  let confirms := s.pendingOps.filterMap (settledRemove list.tabs false)
  let rollbacks := s.pendingOps.filterMap (settledRemove list.tabs true)
  let s₁ := s.pendingOps.foldl retireVerifying s₀
  let s₂ := s₁.call (.reset (s₁.overlayList list.tabs list.version))
  let s₃ := (s₂.callAll .confirm confirms).callAll .rollback rollbacks
  obtain ⟨hc, hv, hsub⟩ := foldl_retireVerifying s.pendingOps s₀
  obtain ⟨hp₁, hv₁, he₁⟩ := callAll_frame .confirm confirms s₂
  obtain ⟨hp₂, hv₂, he₂⟩ := callAll_frame .rollback rollbacks (s₂.callAll .confirm confirms)
  have hpend : ∀ k, s₃.pending k = s₁.pending k := by
    intro k
    unfold pending
    rw [hp₂, hp₁]
    rfl
  have hpending : s₃.pending k = (s.pending k).filter fun op => (verifySettles list.tabs op).isNone := by
    rw [hpend, pending_foldl_retireVerifying s.pendingOps s₀]
    · change Option.filter _ (s.pending k) = _
      cases hk : s.pending k with
      | none => rfl
      | some op => simp [Option.filter, isNone_verifySettles, (mem_of_pending hk).1]
    · intro op hm op' hop
      exact Option.some_inj.mp (hop.symm.trans (pending_of_mem hn hm))
  have hcalls : s₂.verdicts k = s.verdicts k := by
    change (s₁.call _).verdicts k = _
    rw [verdicts_call, verdicts, hc]
    exact List.append_nil _
  have hverdicts : s₃.verdicts k =
      s.verdicts k ++ ((s.pending k).bind (verifySettles list.tabs)).toList := by
    rw [verdicts_callAll, verdicts_callAll, hcalls, List.append_assoc,
      filterMap_settledRemove _ _ _ hn, filterMap_settledRemove _ _ _ hn]
    cases s.pending k with
    | none => rfl
    | some op => exact congrArg (s.verdicts k ++ ·) (verifySettles_eq list.tabs op).symm
  have hechoes : s₃.echoes = s.echoes := by
    rw [he₂, he₁]
    change (s₁.call _).echoes = _
    rw [echoes_call, echoes, hc]
    exact List.append_nil _
  have hversion : s₃.localVersion = list.version := by
    rw [hv₂, hv₁]
    exact hv
  have hsublist : s₃.pendingOps.Sublist s.pendingOps := by
    rw [hp₂, hp₁]
    exact hsub
  have heq : s.adopted list = if confirms ≠ [] ∨ rollbacks ≠ [] then s₃.noteRemoveSettled else s₃ := rfl
  rw [heq]
  split
  · refine ⟨⟨?_, ?_⟩, ?_, ?_, ?_⟩
    · rw [pending, pendingOps_noteRemoveSettled]
      exact hpending
    · rw [verdicts_noteRemoveSettled, hverdicts]
    · rw [localVersion_noteRemoveSettled, hversion]
    · rw [echoes_noteRemoveSettled, hechoes]
    · rw [pendingOps_noteRemoveSettled]
      exact hsublist
  · exact ⟨⟨hpending, hverdicts⟩, hversion, hechoes, hsublist⟩

/-- A list below the watermark settles nothing. -/
theorem readList_discarded {list : TabList} (h : list.version < s.localVersion) :
    s.readList (some list) = s := by
  rw [readList_eq, if_pos h]

theorem readList_adopted (h : s.WellFormed) {list : TabList}
    (hv : s.localVersion ≤ list.version) :
    Ends k (listSettles list) s (s.readList (some list)) ∧
      (s.readList (some list)).WellFormed ∧
      (s.readList (some list)).localVersion = list.version ∧
      (s.readList (some list)).echoes = s.echoes := by
  rw [readList_eq, if_neg (Nat.not_lt.mpr hv)]
  obtain ⟨hends, hver, he, hsub⟩ := adopted_spec (k := k) h.nodup list
  have hn := h.nodup.sublist (hsub.map PendingOp.opID)
  refine ⟨?_, absorbCommitted_wellFormed hn fun op hm => h.committed op (hsub.mem hm),
    (localVersion_absorbCommitted hn).trans hver, (echoes_absorbCommitted hn).trans he⟩
  apply (hends.trans (absorbCommitted_ends hn)).congr
  intro op _
  rw [hver]
  cases op with
  | remove rm =>
    by_cases hrm : rm.state = .verifying
    · simp [verifySettles, listSettles, hrm]
    · simp [verifySettles, listSettles, hrm]
  | adopt op => rfl
  | reorder op => rfl

/-! ## One step -/

/-- What one event settles of the operation with a given record. -/
def settles (s : Machine) (e : Event) (op : PendingOp) : Option Verdict :=
  match e with
  | .adoptCommitted opID _ version created =>
    match op with
    | .adopt a =>
      if a.opID = opID ∧ (created = false ∨ version ≤ s.localVersion) then some .confirm else none
    | _ => none
  | .removeCommitted opID closed version =>
    match op with
    | .remove rm =>
      if rm.opID = opID ∧ (closed = [] ∨ version ≤ s.localVersion) then some .confirm else none
    | _ => none
  | .reorderCommitted opID version =>
    match op with
    | .reorder r => if r.opID = opID ∧ version ≤ s.localVersion then some .confirm else none
    | _ => none
  | .opFailed opID => if op.opID = opID then some .rollback else none
  | .frame _ | .drainResumes =>
    batchSettles ((s.step e).echoes.drop s.echoes.length) (s.step e).localVersion op
  | .listAnswers (some list) =>
    if s.listInFlight = .inFlight ∧ s.localVersion ≤ list.version then listSettles list op
    else none
  | _ => none

/-- What becomes of the operation `k`: it is no longer pending exactly if `V` gives its record
a verdict, and exactly that verdict has then run. -/
structure Fate (k : String) (V : PendingOp → Option Verdict) (s s' : Machine) : Prop where
  pending : (s'.pending k).isSome = (s.pending k).any fun op => (V op).isNone
  verdicts : s'.verdicts k = s.verdicts k ++ ((s.pending k).bind V).toList

theorem Ends.fate {V : PendingOp → Option Verdict} (h : Ends k V s s') : Fate k V s s' where
  pending := by
    rw [h.pending]
    cases s.pending k with
    | none => rfl
    | some op => cases hV : (V op).isNone <;> simp [Option.filter, hV]
  verdicts := h.verdicts

theorem Fate.congr {V W : PendingOp → Option Verdict} (h : Fate k V s s')
    (hVW : ∀ op, s.pending k = some op → V op = W op) : Fate k W s s' where
  pending := by
    rw [h.pending]
    cases hp : s.pending k with
    | none => rfl
    | some op => simp [hVW op hp]
  verdicts := by
    rw [h.verdicts]
    cases hp : s.pending k with
    | none => rfl
    | some op => simp [hVW op hp]

/-- What a step leaves: the invariant, the watermark, and each operation's fate. -/
structure Stepped (V : PendingOp → Option Verdict) (s s' : Machine) : Prop where
  wellFormed : s'.WellFormed
  version : s'.localVersion = s.localVersion
  fate : ∀ k, Fate k V s s'

theorem Stepped.of_same (h : s.WellFormed) (hsame : Same s s') : Stepped nothing s s' := by
  obtain ⟨hp, hv, hc⟩ := hsame
  refine ⟨⟨?_, ?_, ?_⟩, hv, fun k => (Ends.of_eq ?_ ?_).fate⟩
  · rw [hp]
    exact h.nodup
  · rw [hp, hv]
    exact h.waiting
  · rw [hp]
    exact h.committed
  · rw [pending, hp]
    rfl
  · rw [verdicts, hc]
    rfl

theorem Stepped.trans_same {V : PendingOp → Option Verdict} (h : Stepped V s s')
    (hsame : Same s' s'') : Stepped V s s'' := by
  have h' := Stepped.of_same h.wellFormed hsame
  refine ⟨h'.wellFormed, h'.version.trans h.version, fun k => ⟨?_, ?_⟩⟩
  · rw [pending, hsame.1]
    exact (h.fate k).pending
  · rw [verdicts, hsame.2.2]
    exact (h.fate k).verdicts

theorem Stepped.congr {V W : PendingOp → Option Verdict} (h : Stepped V s s')
    (hVW : ∀ op ∈ s.pendingOps, V op = W op) : Stepped W s s' :=
  ⟨h.wellFormed, h.version, fun k => (h.fate k).congr fun op hop =>
    hVW op (mem_of_pending hop).1⟩

/-- A record may change while it waits. -/
theorem setOp_stepped (h : s.WellFormed) {op' : PendingOp} (hp : (s.pending op'.opID).isSome)
    (hw : covered s.localVersion op' = false)
    (hc : op'.confirmed → op'.committedVersion.isSome) : Stepped nothing s (s.setOp op') := by
  refine ⟨⟨Keyed.nodup_set h.nodup, ?_, ?_⟩, rfl, fun k => ⟨?_, ?_⟩⟩
  · intro op hm
    rcases Keyed.mem_set hm with rfl | ⟨hm, _⟩
    · exact hw
    · exact h.waiting op hm
  · intro op hm
    rcases Keyed.mem_set hm with rfl | ⟨hm, _⟩
    · exact hc
    · exact h.committed op hm
  · by_cases hk : k = op'.opID
    · subst hk
      have hself : (s.setOp op').pending op'.opID = some op' := Keyed.find_set_self h.nodup
      obtain ⟨op, hop⟩ := Option.isSome_iff_exists.mp hp
      rw [hself, hop]
      rfl
    · have hne : (s.setOp op').pending k = s.pending k := Keyed.find_set_of_ne hk
      rw [hne]
      cases s.pending k <;> rfl
  · change s.verdicts k = _
    cases s.pending k <;> simp [nothing]

theorem conclude_stepped (h : s.WellFormed) {op : PendingOp} (v : Verdict)
    (hp : (s.pending op.opID).isSome) :
    Stepped (fun op' => if op'.opID = op.opID then some v else none) s (s.conclude op v) := by
  refine ⟨⟨?_, ?_, committed_conclude h.committed op v⟩, localVersion_conclude op v,
    fun k => ((conclude_ends op v hp).congr ?_).fate⟩
  · rw [pendingOps_conclude]
    exact Keyed.nodup_erase h.nodup
  · intro op' hm
    rw [localVersion_conclude]
    rw [pendingOps_conclude] at hm
    exact h.waiting op' (Keyed.mem_erase.mp hm).1
  · intro op' hop
    rw [(mem_of_pending hop).2]

theorem same_armVerify (op : PendingRemove) :
    Same (s.setOp (.remove { op with verifyTimer := some s.nextTimer })) (s.armVerify op) :=
  ⟨rfl, rfl, rfl⟩

theorem opID_eq_iff (h : s.WellFormed) (hp : s.pending k = some op) {op' : PendingOp}
    (hm : op' ∈ s.pendingOps) : op'.opID = k ↔ op' = op := by
  constructor
  · rintro rfl
    exact Option.some_inj.mp ((pending_of_mem h.nodup hm).symm.trans hp)
  · rintro rfl
    exact (mem_of_pending hp).2

theorem opID_ne (hp : s.pending k = none) {op' : PendingOp} (hm : op' ∈ s.pendingOps) :
    op'.opID ≠ k := by
  rintro rfl
  exact Keyed.find_eq_none.mp hp (List.mem_map_of_mem hm)

theorem opFailed_stepped (h : s.WellFormed) (opID : String) :
    Stepped (s.settles (.opFailed opID)) s (s.opFailed opID) := by
  unfold opFailed
  cases hp : s.pending opID with
  | none =>
    apply (Stepped.of_same h ⟨rfl, rfl, rfl⟩).congr
    intro op' hm
    simp [nothing, settles, opID_ne hp hm]
  | some op =>
    have hid := (mem_of_pending hp).2
    apply (conclude_stepped h .rollback (by simp [hid, hp])).congr
    intro op' _
    rw [hid]
    rfl

/-- A response that reaches another kind of operation, or none, changes nothing. -/
theorem response_ignored (h : s.WellFormed) {V : PendingOp → Option Verdict}
    (hV : ∀ op' ∈ s.pendingOps, V op' = none) : Stepped V s s :=
  (Stepped.of_same h ⟨rfl, rfl, rfl⟩).congr fun op' hm => (hV op' hm).symm

theorem Stepped.of_same_left {V : PendingOp → Option Verdict} (hsame : Same s s')
    (h : Stepped V s' s'') : Stepped V s s'' := by
  refine ⟨h.wellFormed, h.version.trans hsame.2.1, fun k => ⟨?_, ?_⟩⟩
  · have hp : s.pending k = s'.pending k := by rw [pending, pending, hsame.1]
    rw [hp]
    exact (h.fate k).pending
  · have hp : s.pending k = s'.pending k := by rw [pending, pending, hsame.1]
    have hv : s.verdicts k = s'.verdicts k := by rw [verdicts, verdicts, hsame.2.2]
    rw [hp, hv]
    exact (h.fate k).verdicts

theorem WellFormed.of_same (h : s.WellFormed) (hsame : Same s s') : s'.WellFormed :=
  (Stepped.of_same h hsame).wellFormed

/-- The conclusion of a record's successor ends that record and no other. -/
theorem conclude_only (h : s.WellFormed) (hp : s.pending k = some op) {op' : PendingOp}
    (hid : op'.opID = op.opID) (v : Verdict) :
    Stepped (fun o => if o = op then some v else none) s (s.conclude op' v) := by
  have hk := (mem_of_pending hp).2
  apply (conclude_stepped h v (by simp [hid, hk, hp])).congr
  intro o hm
  rw [hid, hk]
  by_cases ho : o = op
  · rw [if_pos ho, if_pos ((opID_eq_iff h hp hm).mpr ho)]
  · rw [if_neg ho, if_neg (mt (opID_eq_iff h hp hm).mp ho)]

/-- A confirmed record that the watermark is behind waits for its frame. -/
theorem setOp_confirmed (h : s.WellFormed) (hp : s.pending k = some op) {op' : PendingOp}
    (hid : op'.opID = op.opID) {version : ℕ} (hv : op'.committedVersion = some version)
    (hlt : ¬ version ≤ s.localVersion) : Stepped nothing s (s.setOp op') := by
  have hk := (mem_of_pending hp).2
  apply setOp_stepped h
  · simp [hid, hk, hp]
  · simp [covered, hv, hlt]
  · simp [hv]

theorem adoptCommitted_stepped (h : s.WellFormed) (opID : String) (subject : TabSubject)
    (version : ℕ) (created : Bool) :
    Stepped (s.settles (.adoptCommitted opID subject version created)) s
      (s.adoptCommitted opID subject version created) := by
  unfold adoptCommitted
  split
  · next op hp =>
    have hid : op.opID = opID := (mem_of_pending hp).2
    by_cases hc : created = false ∨ version ≤ s.localVersion
    · simp only [if_pos hc]
      refine (conclude_only h hp ?_ .confirm).congr fun op' hm => ?_
      · rfl
      cases op' with
      | adopt a =>
        have hiff : a.opID = opID ↔ PendingOp.adopt a = .adopt op := opID_eq_iff h hp hm
        simp [settles, hc, hiff]
      | remove _ => rfl
      | reorder _ => rfl
    · simp only [if_neg hc]
      have hlt : ¬ version ≤ s.localVersion := fun hle => hc (.inr hle)
      refine (setOp_confirmed h hp ?_ ?_ hlt).congr fun op' _ => ?_
      · rfl
      · rfl
      cases op' <;> simp [nothing, settles, hc]
  · next hno =>
    apply response_ignored h
    intro op' hm
    cases op' with
    | adopt a =>
      have hne : a.opID ≠ opID := fun he => hno a (he ▸ pending_of_mem h.nodup hm)
      simp [settles, hne]
    | remove _ => rfl
    | reorder _ => rfl

theorem removeCommitted_stepped (h : s.WellFormed) (opID : String) (closed : List String)
    (version : ℕ) :
    Stepped (s.settles (.removeCommitted opID closed version)) s
      (s.removeCommitted opID closed version) := by
  unfold removeCommitted
  split
  · next op hp =>
    have hsame := same_cancelTimer (s := s) op.verifyTimer
    have h' := h.of_same hsame
    have hp' : (s.cancelTimer op.verifyTimer).pending opID = some (.remove op) := by
      rw [← hp, pending, hsame.1]
      rfl
    have hver : (s.cancelTimer op.verifyTimer).localVersion = s.localVersion := hsame.2.1
    by_cases hc : closed = [] ∨ version ≤ s.localVersion
    · simp only [hver, if_pos hc]
      refine ((conclude_only h' hp' ?_ .confirm).of_same_left hsame).congr fun op' hm => ?_
      · rfl
      cases op' with
      | remove rm =>
        have hiff : rm.opID = opID ↔ PendingOp.remove rm = .remove op := opID_eq_iff h hp hm
        simp [settles, hc, hiff]
      | adopt _ => rfl
      | reorder _ => rfl
    · simp only [hver, if_neg hc]
      have hlt : ¬ version ≤ (s.cancelTimer op.verifyTimer).localVersion := by
        rw [hver]
        exact fun hle => hc (.inr hle)
      refine ((setOp_confirmed h' hp' ?_ ?_ hlt).of_same_left hsame).congr fun op' _ => ?_
      · rfl
      · rfl
      cases op' <;> simp [nothing, settles, hc]
  · next hno =>
    apply response_ignored h
    intro op' hm
    cases op' with
    | remove rm =>
      have hne : rm.opID ≠ opID := fun he => hno rm (he ▸ pending_of_mem h.nodup hm)
      simp [settles, hne]
    | adopt _ => rfl
    | reorder _ => rfl

theorem reorderCommitted_stepped (h : s.WellFormed) (opID : String) (version : ℕ) :
    Stepped (s.settles (.reorderCommitted opID version)) s (s.reorderCommitted opID version) := by
  unfold reorderCommitted
  split
  · next op hp =>
    by_cases hc : version ≤ s.localVersion
    · simp only [if_pos hc]
      refine (conclude_only h hp ?_ .confirm).congr fun op' hm => ?_
      · rfl
      cases op' with
      | reorder r =>
        have hiff : r.opID = opID ↔ PendingOp.reorder r = .reorder op := opID_eq_iff h hp hm
        simp [settles, hc, hiff]
      | adopt _ => rfl
      | remove _ => rfl
    · simp only [if_neg hc]
      refine (setOp_confirmed h hp ?_ ?_ hc).congr fun op' _ => ?_
      · rfl
      · rfl
      cases op' <;> simp [nothing, settles, hc]
  · next hno =>
    apply response_ignored h
    intro op' hm
    cases op' with
    | reorder r =>
      have hne : r.opID ≠ opID := fun he => hno r (he ▸ pending_of_mem h.nodup hm)
      simp [settles, hne]
    | adopt _ => rfl
    | remove _ => rfl

/-- A verifying remove waits for no version, so its timer and its count may change. -/
theorem setOp_verifying (h : s.WellFormed) {rm : PendingRemove}
    (hp : (s.pending rm.opID).isSome) (hv : rm.state ≠ .confirmedAwaitingFrame) :
    Stepped nothing s (s.setOp (.remove rm)) := by
  refine setOp_stepped h ?_ ?_ ?_
  · exact hp
  · simp [covered, PendingOp.confirmed, hv]
  · simp [PendingOp.confirmed, hv]

theorem armVerify_stepped (h : s.WellFormed) {rm : PendingRemove}
    (hp : (s.pending rm.opID).isSome) (hv : rm.state = .verifying) :
    Stepped nothing s (s.armVerify rm) := by
  have hset : Stepped nothing s (s.setOp (.remove { rm with verifyTimer := some s.nextTimer })) :=
    setOp_verifying h hp (by simp [hv])
  exact hset.trans_same (same_armVerify rm)

theorem opTimedOut_stepped (h : s.WellFormed) (opID : String) :
    Stepped nothing s (s.opTimedOut opID) := by
  unfold opTimedOut
  split
  · next op hp =>
    have hid : op.opID = opID := (mem_of_pending hp).2
    split
    · exact .of_same h ⟨rfl, rfl, rfl⟩
    · exact armVerify_stepped h (by simp [hid, hp]) rfl
  · exact .of_same h ⟨rfl, rfl, rfl⟩

theorem verifying_some {opID : String} {seq : ℕ} {rm : PendingRemove}
    (h : s.verifying opID seq = some rm) : s.pending opID = some (.remove rm) := by
  unfold verifying at h
  split at h
  · next hp =>
    split at h
    · rw [hp, Option.some_inj.mp h]
    · cases h
  · cases h

/-- A record's timer and count may change, whatever it waits for. -/
theorem setOp_timer (h : s.WellFormed) {rm : PendingRemove} (hp : s.pending k = some (.remove rm))
    (timer : Option ℕ) (attempts : ℕ) : Stepped nothing s
      (s.setOp (.remove { rm with verifyTimer := timer, verifyAttempts := attempts })) := by
  obtain ⟨hm, hid⟩ := mem_of_pending hp
  have hk : rm.opID = k := hid
  refine setOp_stepped h ?_ ?_ ?_
  · simp [PendingOp.opID, hk, hp]
  · exact h.waiting (.remove rm) hm
  · exact h.committed (.remove rm) hm

theorem same_tick (ticks : List (String × ℕ)) : Same s { s.relist with ticks } := same_relist

theorem timerFires_stepped (h : s.WellFormed) (handle : ℕ) :
    Stepped nothing s (s.timerFires handle) := by
  unfold timerFires
  split
  · exact .of_same h ⟨rfl, rfl, rfl⟩
  · next timer _ =>
    have hsame := same_cancelTimer (s := s) (some handle)
    have h' := h.of_same hsame
    cases hv : (s.cancelTimer (some handle)).verifying timer.opID timer.seq with
    | none =>
      simp only [hv]
      exact (Stepped.of_same h' (same_tick _)).of_same_left hsame
    | some op =>
      simp only [hv]
      have hset := setOp_timer h' (verifying_some hv) none (op.verifyAttempts + 1)
      exact (hset.trans_same (same_tick _)).of_same_left hsame

theorem tickDone_stepped (h : s.WellFormed) (opID : String) (seq : ℕ) :
    Stepped nothing s (s.tickDone opID seq) := by
  have hsame : Same s { s with ready := s.ready.erase (opID, seq) } := ⟨rfl, rfl, rfl⟩
  have h' := h.of_same hsame
  unfold tickDone
  split
  · dsimp only
    split
    · next op hv =>
      have hp := verifying_some hv
      have hid : op.opID = opID := (mem_of_pending hp).2
      split
      · next hst =>
        exact (armVerify_stepped h' (by rw [hid, hp]; rfl) hst).of_same_left hsame
      · exact .of_same h hsame
    · exact .of_same h hsame
  · exact .of_same h ⟨rfl, rfl, rfl⟩

/-- A registration, with the record it makes. -/
def begin (s : Machine) (op : PendingOp) : Machine := { s with opSeq := s.opSeq + 1 }.setOp op

theorem begin_wellFormed (h : s.WellFormed) {op : PendingOp} (hop : op.confirmed = false) :
    (s.begin op).WellFormed where
  nodup := Keyed.nodup_set h.nodup
  waiting := by
    intro op' hm
    rcases Keyed.mem_set hm with rfl | ⟨hm, _⟩
    · simp [covered, hop]
    · exact h.waiting op' hm
  committed := by
    intro op' hm
    rcases Keyed.mem_set hm with rfl | ⟨hm, _⟩
    · simp [hop]
    · exact h.committed op' hm

theorem begin_fate {op : PendingOp} (hk : op.opID ≠ k) : Fate k nothing s (s.begin op) := by
  have hp : (s.begin op).pending k = s.pending k := Keyed.find_set_of_ne (Ne.symm hk)
  exact (Ends.of_eq hp rfl).fate

theorem pending_begin (h : s.WellFormed) (op : PendingOp) :
    (s.begin op).pending op.opID = some op := Keyed.find_set_self h.nodup

/-- What the frames that a step applies leave, as one step. -/
theorem Drained.fate (h : Drained s s') (k : String) :
    Fate k (batchSettles (s'.echoes.drop s.echoes.length) s'.localVersion) s s' := by
  obtain ⟨echoed, he, hends⟩ := h.ends
  rw [he, List.drop_left]
  exact (hends k).fate

theorem frame_drained (h : s.WellFormed) (delta : TabsChanged) :
    Drained s (s.ingestTabsChanged delta) := by
  have hsame : Same s { s with queue := s.queue ++ [delta] } := ⟨rfl, rfl, rfl⟩
  unfold ingestTabsChanged
  dsimp only
  split
  · have hd := drainLoop_drained (s.queue ++ [delta]) (h.of_same hsame)
    exact (Drained.of_same h hsame).trans hd
  · exact .of_same h hsame

theorem drainResumes_drained (h : s.WellFormed) : Drained s (s.step .drainResumes) := by
  simp only [step]
  split
  · exact drainLoop_drained s.queue h
  · exact .of_same h ⟨rfl, rfl, rfl⟩

/-- What a list leaves, adopted or not. -/
theorem listAnswers_spec (h : s.WellFormed) (list : Option TabList) :
    Fate k (s.settles (.listAnswers list)) s (s.step (.listAnswers list)) ∧
      (s.step (.listAnswers list)).WellFormed ∧
      s.localVersion ≤ (s.step (.listAnswers list)).localVersion := by
  have hquiet : ∀ {s'}, Same s s' → (∀ op, s.settles (.listAnswers list) op = none) →
      Fate k (s.settles (.listAnswers list)) s s' ∧ s'.WellFormed ∧
        s.localVersion ≤ s'.localVersion := by
    intro s' hsame hnone
    have hst := Stepped.of_same h hsame
    exact ⟨(hst.fate k).congr fun op _ => (hnone op).symm, hst.wellFormed,
      Nat.le_of_eq hst.version.symm⟩
  by_cases hin : s.listInFlight = .inFlight
  · simp only [step, if_pos hin]
    cases list with
    | none => exact hquiet ⟨rfl, rfl, rfl⟩ fun _ => rfl
    | some list =>
      by_cases hv : s.localVersion ≤ list.version
      · obtain ⟨hends, hw, hver, _⟩ := readList_adopted (k := k) h hv
        refine ⟨⟨?_, ?_⟩, ⟨hw.nodup, hw.waiting, hw.committed⟩, ?_⟩
        · apply (hends.fate.congr _).pending
          intro op _
          simp [settles, hin, hv]
        · apply (hends.fate.congr _).verdicts
          intro op _
          simp [settles, hin, hv]
        · rwa [hver]
      · rw [readList_discarded (Nat.not_le.mp hv)]
        refine hquiet ⟨rfl, rfl, rfl⟩ fun op => ?_
        simp [settles, hv]
  · simp only [step, if_neg hin]
    refine hquiet ⟨rfl, rfl, rfl⟩ fun op => ?_
    cases list with
    | none => rfl
    | some list => simp [settles, hin]

/-- Every step but a registration: the invariant, the watermark, and each fate. -/
theorem step_quiet (h : s.WellFormed) (e : Event) (hb : e.begins = none) (k : String) :
    Fate k (s.settles e) s (s.step e) ∧ (s.step e).WellFormed ∧
      s.localVersion ≤ (s.step e).localVersion ∧
      (e.carriesVersion = false → (s.step e).localVersion = s.localVersion) := by
  have hstep : ∀ {V s'}, Stepped V s s' → V = s.settles e → s.step e = s' →
      Fate k (s.settles e) s (s.step e) ∧ (s.step e).WellFormed ∧
        s.localVersion ≤ (s.step e).localVersion ∧
        (e.carriesVersion = false → (s.step e).localVersion = s.localVersion) := by
    rintro V s' hst rfl rfl
    exact ⟨hst.fate k, hst.wellFormed, Nat.le_of_eq hst.version.symm, fun _ => hst.version⟩
  have hsame : ∀ {s'}, Same s s' → nothing = s.settles e → s.step e = s' →
      Fate k (s.settles e) s (s.step e) ∧ (s.step e).WellFormed ∧
        s.localVersion ≤ (s.step e).localVersion ∧
        (e.carriesVersion = false → (s.step e).localVersion = s.localVersion) :=
    fun hs => hstep (.of_same h hs)
  cases e with
  | markLocalOp opID now =>
    have hmark : Same s (s.markLocalOp opID now) := ⟨rfl, rfl, rfl⟩
    exact hsame hmark rfl rfl
  | beginAdopt opID => cases hb
  | beginRemove opID id captured => cases hb
  | beginReorder opID order => cases hb
  | adoptCommitted opID subject version created =>
    exact hstep (adoptCommitted_stepped h opID subject version created) rfl rfl
  | removeCommitted opID closed version =>
    exact hstep (removeCommitted_stepped h opID closed version) rfl rfl
  | reorderCommitted opID version => exact hstep (reorderCommitted_stepped h opID version) rfl rfl
  | opFailed opID => exact hstep (opFailed_stepped h opID) rfl rfl
  | opTimedOut opID => exact hstep (opTimedOut_stepped h opID) rfl rfl
  | frame delta =>
    have hd := frame_drained h delta
    exact ⟨hd.fate k, hd.wellFormed, hd.version, nofun⟩
  | drainResumes =>
    have hd := drainResumes_drained h
    exact ⟨hd.fate k, hd.wellFormed, hd.version, nofun⟩
  | listTabs => exact hsame same_relist rfl rfl
  | listAnswers list =>
    obtain ⟨hf, hw, hv⟩ := listAnswers_spec (k := k) h list
    exact ⟨hf, hw, hv, nofun⟩
  | listDone =>
    have hdone : Same s s.listDone := by
      unfold listDone
      split <;> exact ⟨rfl, rfl, rfl⟩
    exact hsame hdone rfl rfl
  | timerFires handle => exact hstep (timerFires_stepped h handle) rfl rfl
  | tickDone opID seq => exact hstep (tickDone_stepped h opID seq) rfl rfl

/-- A registration makes one record, which waits for its response. -/
theorem step_begins (e : Event) (hb : e.begins = some k) :
    ∃ op : PendingOp, op.opID = k ∧ op.confirmed = false ∧ s.step e = s.begin op ∧
      s.settles e = nothing := by
  cases e with
  | beginAdopt opID =>
    obtain rfl : opID = k := Option.some_inj.mp hb
    exact ⟨.adopt { opID, seq := s.opSeq + 1 }, rfl, rfl, rfl, rfl⟩
  | beginRemove opID id capturedTabIDs =>
    obtain rfl : opID = k := Option.some_inj.mp hb
    exact ⟨.remove { opID, seq := s.opSeq + 1, id, capturedTabIDs }, rfl, rfl, rfl, rfl⟩
  | beginReorder opID order =>
    obtain rfl : opID = k := Option.some_inj.mp hb
    exact ⟨.reorder { opID, seq := s.opSeq + 1, order }, rfl, rfl, rfl, rfl⟩
  | _ => cases hb

theorem step_wellFormed (h : s.WellFormed) (e : Event) : (s.step e).WellFormed := by
  cases hb : e.begins with
  | none => exact (step_quiet h e hb "").2.1
  | some k =>
    obtain ⟨op, _, hop, hst, _⟩ := step_begins e hb
    rw [hst]
    exact begin_wellFormed h hop

theorem step_fate (h : s.WellFormed) (e : Event) (hb : e.begins ≠ some k) :
    Fate k (s.settles e) s (s.step e) := by
  cases hb' : e.begins with
  | none => exact (step_quiet h e hb' k).1
  | some k' =>
    obtain ⟨op, hid, _, hst, hset⟩ := step_begins e hb'
    rw [hst, hset]
    apply begin_fate
    rintro rfl
    exact hb (hid ▸ hb')

/-- The watermark never goes back, and only a frame or a snapshot moves it. -/
theorem step_version (h : s.WellFormed) (e : Event) :
    s.localVersion ≤ (s.step e).localVersion ∧
      (e.carriesVersion = false → (s.step e).localVersion = s.localVersion) := by
  cases hb : e.begins with
  | none => exact (step_quiet h e hb "").2.2
  | some k =>
    obtain ⟨op, _, _, hst, _⟩ := step_begins e hb
    rw [hst]
    exact ⟨Nat.le_refl _, fun _ => rfl⟩

end Machine

/-! ## Runs -/

open Machine

/-- The module as it starts. -/
def start : Machine := {}

/-- The operations that a run registers. -/
def begun (events : List Event) : List String := events.filterMap Event.begins

theorem run_append (s : Machine) (events events' : List Event) :
    run s (events ++ events') = run (run s events) events' := by
  induction events generalizing s with
  | nil => rfl
  | cons e events ih => exact ih (s.step e)

theorem run_wellFormed (events : List Event) : (run start events).WellFormed := by
  induction events using List.reverseRecOn with
  | nil => exact ⟨List.nodup_nil, fun op hm => absurd hm List.not_mem_nil,
      fun op hm => absurd hm List.not_mem_nil⟩
  | append_singleton events e ih =>
    rw [run_append]
    exact step_wellFormed ih e

/-- The step of a run that settled an operation, with its verdict. -/
def SettledBy (events : List Event) (k : String) (v : Verdict) : Prop :=
  ∃ pre e post op, events = pre ++ e :: post ∧ (run start pre).pending k = some op ∧
    (run start pre).settles e op = some v

/-- An operation is settled: one step gave it its one verdict, and it is no longer pending. -/
def Settled (events : List Event) (k : String) : Prop :=
  ∃ v, SettledBy events k v ∧ (run start events).verdicts k = [v] ∧
    (run start events).pending k = none

/-- An operation waits: it is pending, and no step gave it a verdict. -/
def Waits (events : List Event) (k : String) : Prop :=
  ((run start events).pending k).isSome ∧ (run start events).verdicts k = [] ∧
    ∀ v, ¬ SettledBy events k v

theorem SettledBy.append {events : List Event} {k : String} {v : Verdict}
    (h : SettledBy events k v) (events' : List Event) : SettledBy (events ++ events') k v := by
  obtain ⟨pre, e, post, op, rfl, hp, hs⟩ := h
  exact ⟨pre, e, post ++ events', op, by simp, hp, hs⟩

/-- What settles an operation in a longer run does so before its last step or at it. -/
theorem settledBy_snoc {events : List Event} {e : Event} {k : String} {v : Verdict} :
    SettledBy (events ++ [e]) k v ↔ SettledBy events k v ∨
      ∃ op, (run start events).pending k = some op ∧ (run start events).settles e op = some v := by
  constructor
  · rintro ⟨pre, e', post, op, heq, hp, hs⟩
    rcases List.eq_nil_or_concat post with rfl | ⟨post, last, rfl⟩
    · obtain ⟨rfl, he⟩ := List.append_inj' heq rfl
      cases he
      exact .inr ⟨op, hp, hs⟩
    · rw [List.concat_eq_append, ← List.cons_append, ← List.append_assoc] at heq
      obtain ⟨rfl, _⟩ := List.append_inj' heq rfl
      exact .inl ⟨pre, e', post, op, rfl, hp, hs⟩
  · rintro (h | ⟨op, hp, hs⟩)
    · exact h.append [e]
    · exact ⟨events, e, [], op, rfl, hp, hs⟩

/-- An operation that nothing registered has no record and no verdict. -/
theorem unregistered {events : List Event} {k : String} (hk : k ∉ begun events) :
    (run start events).pending k = none ∧ (run start events).verdicts k = [] := by
  induction events using List.reverseRecOn with
  | nil => exact ⟨rfl, rfl⟩
  | append_singleton events e ih =>
    rw [begun, List.filterMap_append, List.mem_append, not_or] at hk
    obtain ⟨hp, hv⟩ := ih hk.1
    have hb : e.begins ≠ some k := fun hb => hk.2 (by simp [hb])
    have hf := step_fate (run_wellFormed events) e hb
    have hrun : run start (events ++ [e]) = (run start events).step e := run_append ..
    have hpend := hf.pending
    have hverd := hf.verdicts
    rw [hp] at hpend
    rw [hp, hv] at hverd
    rw [hrun]
    exact ⟨Option.not_isSome_iff_eq_none.mp (by simpa using hpend), hverd⟩

theorem registered {events : List Event} {k : String} (hk : k ∈ begun events)
    (hn : (begun events).Nodup) : Settled events k ∨ Waits events k := by
  induction events using List.reverseRecOn with
  | nil => cases hk
  | append_singleton events e ih =>
    have hw := run_wellFormed events
    rw [begun, List.filterMap_append] at hk hn
    by_cases hb : e.begins = some k
    · have hnew : k ∉ begun events := by
        intro hmem
        rw [List.nodup_append] at hn
        exact hn.2.2 k hmem k (by simp [hb]) rfl
      obtain ⟨hp, hv⟩ := unregistered hnew
      obtain ⟨op, hid, _, hst, _⟩ := step_begins e hb
      right
      refine ⟨?_, ?_, fun v hset => ?_⟩
      · rw [run_append]
        change ((run start events).step e).pending k |>.isSome
        rw [hst, ← hid, pending_begin hw op]
        rfl
      · rw [run_append]
        change ((run start events).step e).verdicts k = []
        rw [hst]
        exact hv
      · rcases settledBy_snoc.mp hset with ⟨pre, e', post, op', rfl, hp', _⟩ | ⟨op', hp', _⟩
        · have hpre : k ∉ begun pre := by
            intro hmem
            apply hnew
            rw [begun, List.filterMap_append]
            exact List.mem_append_left _ hmem
          rw [(unregistered hpre).1] at hp'
          cases hp'
        · rw [hp] at hp'
          cases hp'
    · have hk' : k ∈ begun events := by
        rcases List.mem_append.mp hk with hk | hk
        · exact hk
        · cases hbe : e.begins <;> simp [hbe] at hk
          exact absurd (hbe.trans (congrArg some hk.symm)) hb
      have hf := step_fate hw e hb
      have hrun : run start (events ++ [e]) = (run start events).step e := run_append ..
      rcases ih hk' (hn.sublist (List.sublist_append_left _ _)) with ⟨v, hset, hv, hp⟩ | ⟨hp, hv, hno⟩
      · left
        refine ⟨v, hset.append [e], ?_, ?_⟩
        · rw [hrun, hf.verdicts, hp, hv]
          rfl
        · have hgone := hf.pending
          rw [hp] at hgone
          rw [hrun]
          exact Option.not_isSome_iff_eq_none.mp (by simpa using hgone)
      · obtain ⟨op, hop⟩ := Option.isSome_iff_exists.mp hp
        have hpend := hf.pending
        have hverd := hf.verdicts
        rw [hop] at hpend hverd
        cases hset : (run start events).settles e op with
        | none =>
          right
          refine ⟨?_, ?_, fun v hs => ?_⟩
          · rw [hrun, hpend]
            simp [hset]
          · rw [hrun, hverd, hv]
            simp [hset]
          · rcases settledBy_snoc.mp hs with hs | ⟨op', hop', hs⟩
            · exact hno v hs
            · rw [hop] at hop'
              rw [← Option.some_inj.mp hop', hset] at hs
              cases hs
        | some v =>
          left
          refine ⟨v, settledBy_snoc.mpr (.inr ⟨op, hop, hset⟩), ?_, ?_⟩
          · rw [hrun, hverd, hv]
            simp [hset]
          · rw [hrun]
            apply Option.not_isSome_iff_eq_none.mp
            rw [hpend]
            simp [hset]

end Marotte.Tabs.Sync
