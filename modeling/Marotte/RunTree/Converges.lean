import Marotte.Library.Along
import Marotte.RunTree.Tree

/-! # The browser's reads of a run

One run at the server with the frames it publishes, and one browser's cached tree under the frames
and under the reads that the store issues: one at a time, with a trailing one for what was
invalidated meanwhile and a bounded ladder of retries behind one that failed.
-/
namespace Marotte.RunTree

/-- A run's frames on the wire. -/
inductive RunFrame where
  | runStarted
  | runProgress (p : RunProgressFrame)
  | runFinished

/-- What a read is answered with: the tree that the server had behind that many frames, or a
failure with its status. -/
inductive RunAnswer where
  | state (taken : ℕ) (root : Option (RunNode String))
  | failed (status : ℕ)

def RUN_RETRY_LIMIT : ℕ := 3

def RUN_GONE_STATUS : ℕ := 404

/-- The ladder behind a failed read: whether a rung is due, and the rungs so far. -/
structure RunRetry where
  timer : Bool := false
  attempts : ℕ := 0

/-- The server's tree with every frame published, and the browser's cell, which has seen the first
`applied` of them. A read in flight waits for its answer. -/
structure RunView where
  root : Option (RunNode String) := none
  published : List RunFrame := []
  applied : ℕ := 0
  cached : Option (RunNode RunNodeStatus) := none
  inFlight : Option (Option RunAnswer) := none
  stale : Bool := false
  runRetries : Option RunRetry := none

inductive RunEvent where
  /-- The server's tree becomes this one, and the frame goes out. -/
  | publishes (root : Option (RunNode String)) (frame : RunFrame)
  | delivers
  /-- A surface asks for the run to be read again. -/
  | invalidates
  | answers
  | fails (status : ℕ)
  | settles
  | fires

namespace RunView

variable (s : RunView)

def fetchRun : RunView := { s with inFlight := some none }

def invalidateRun : RunView := if s.inFlight.isSome then { s with stale := true } else s.fetchRun

/-- The frames' handlers. -/
def handle : RunFrame → RunView
  | .runStarted | .runFinished => s.invalidateRun
  | .runProgress p =>
    match applyRunProgress s.cached p with
    | some root => { s with cached := some root }
    | none => s.invalidateRun

def cancelRunRetry : RunView := { s with runRetries := none }

def scheduleRunRetry : RunView :=
  let ladder := s.runRetries.getD {}
  if RUN_RETRY_LIMIT ≤ ladder.attempts then { s with runRetries := none }
  else { s with runRetries := some { timer := true, attempts := ladder.attempts + 1 } }

/-- The read's outcome, before a trailing read. -/
def adopt : RunAnswer → RunView
  | .state _ root => { s with cached := root.map classifyRunNode }.cancelRunRetry
  | .failed status => if status = RUN_GONE_STATUS then s.cancelRunRetry else s.scheduleRunRetry

def settle (answer : RunAnswer) : RunView :=
  let s := { s with inFlight := none }.adopt answer
  if s.stale then { s with stale := false }.fetchRun else s

/-- The rung's own read. -/
def fire (ladder : RunRetry) : RunView :=
  { s with runRetries := some { ladder with timer := false } }.invalidateRun

def step (s : RunView) : RunEvent → RunView
  | .publishes root frame => { s with root := root, published := s.published ++ [frame] }
  | .delivers =>
    match s.published[s.applied]? with
    | some frame => { s with applied := s.applied + 1 }.handle frame
    | none => s
  | .invalidates => s.invalidateRun
  | .answers =>
    match s.inFlight with
    | some none => { s with inFlight := some (some (.state s.published.length s.root)) }
    | _ => s
  | .fails status =>
    match s.inFlight with
    | some none => { s with inFlight := some (some (.failed status)) }
    | _ => s
  | .settles =>
    match s.inFlight with
    | some (some answer) => s.settle answer
    | _ => s
  | .fires =>
    match s.runRetries with
    | some ladder => if ladder.timer then s.fire ladder else s
    | none => s

end RunView

/-! ## When the browser's tree of a run converges

A frame that was applied since an answer was taken must say nothing that the answer's tree does not:
the answer replaces the tree, and a frame that was applied schedules no read behind it.
-/

/-- A frame that names a node says how the node stands. -/
def RunFrame.Names : RunFrame → Prop
  | .runProgress p => p.nodePath ≠ []
  | .runStarted | .runFinished => False

instance (frame : RunFrame) : Decidable frame.Names :=
  match frame with
  | .runProgress p => inferInstanceAs (Decidable (p.nodePath ≠ []))
  | .runStarted | .runFinished => isFalse id

/-- A frame on a tree, which stays where the frame does not land. -/
def RunFrame.on : RunFrame → Option (RunNode RunNodeStatus) → Option (RunNode RunNodeStatus)
  | .runProgress p, tree => tree.map (done (patchNode p p.nodePath none))
  | .runStarted, tree | .runFinished, tree => tree

theorem on_again (frame : RunFrame) (tree : Option (RunNode RunNodeStatus)) :
    frame.on (frame.on tree) = frame.on tree := by
  cases frame with
  | runStarted => rfl
  | runFinished => rfl
  | runProgress p =>
    cases tree with
    | none => rfl
    | some node => exact congrArg some (patchNode_again p p.nodePath none node)

theorem on_overwrites : Overwrites RunFrame.on where
  again := on_again
  absorb frame other tree := by
    cases frame with
    | runStarted => rfl
    | runFinished => rfl
    | runProgress p =>
      cases other with
      | runStarted => exact on_again (.runProgress p) tree
      | runFinished => exact on_again (.runProgress p) tree
      | runProgress q =>
        cases tree with
        | none => rfl
        | some node =>
          exact congrArg some ((patchNode_absorbs p q p.nodePath q.nodePath none).absorb node)

namespace RunView

variable {s : RunView}

/-- The server's tree as the browser spells it. -/
def tree (s : RunView) : Option (RunNode RunNodeStatus) := s.root.map classifyRunNode

/-- A rung of the ladder is due. -/
def Armed (s : RunView) : Prop := ∃ ladder ∈ s.runRetries, ladder.timer = true

/-- Once every frame is delivered and every read and retry has settled, the cached tree is the
server's. -/
def Converged (s : RunView) : Prop :=
  s.applied = s.published.length → s.inFlight = none → ¬ s.Armed → s.cached = s.tree

/-- The frames that were applied since an answer was taken leave its tree as it is. -/
def Spared (s : RunView) (taken : ℕ) (root : Option (RunNode String)) : Prop :=
  runUpdates RunFrame.on (root.map classifyRunNode) ((s.published.take s.applied).drop taken) =
    root.map classifyRunNode

/-- The retry ladder has a rung for the failure. -/
def Retried (s : RunView) (status : ℕ) : Prop :=
  status ≠ RUN_GONE_STATUS ∧ (s.runRetries.getD {}).attempts < RUN_RETRY_LIMIT

/-- A frame that names a node states all that the server changed; a read that no trailing one
follows fails only while there are retries left. -/
def Promised (s : RunView) : RunEvent → Prop
  | .publishes root frame => frame.Names → root.map classifyRunNode = frame.on s.tree
  | .settles =>
    s.stale = false → ∀ status, s.inFlight = some (some (.failed status)) → s.Retried status
  | _ => True

/-- An answer that no trailing read follows spares the frames. -/
def Spares (s : RunView) : RunEvent → Prop
  | .settles =>
    s.stale = false → ∀ taken root, s.inFlight = some (some (.state taken root)) →
      s.Spared taken root
  | _ => True

/-! ## What the server's side keeps -/

def Leads (s : RunView) (k : ℕ) (copy : Option (RunNode RunNodeStatus)) : Prop :=
  Marotte.Leads RunFrame.on RunFrame.Names s.published s.tree k copy

/-- What holds of an answer on its way. -/
structure AnswerSound (s : RunView) (taken : ℕ) (copy : Option (RunNode RunNodeStatus)) : Prop where
  le : taken ≤ s.published.length
  leads : s.Leads taken copy
  replayed : Replayed RunFrame.on RunFrame.Names (s.published.take taken) copy

structure Current (s : RunView) : Prop where
  applied : s.applied ≤ s.published.length
  replayed : Replayed RunFrame.on RunFrame.Names s.published s.tree
  answer : ∀ taken root, s.inFlight = some (some (.state taken root)) →
    s.AnswerSound taken (root.map classifyRunNode)

/-- A read is on its way or due, or the frames not yet applied lead the cached tree on; a frame that
is applied while an answer is on its way and that names no node has a trailing read behind it. -/
structure Sound (s : RunView) : Prop where
  current : s.Current
  owed : s.inFlight.isSome ∨ s.Armed ∨ s.Leads s.applied s.cached
  flagged : ∀ taken root, s.inFlight = some (some (.state taken root)) → s.stale = false →
    ∀ frame ∈ (s.published.take s.applied).drop taken, frame.Names

theorem sound_start : ({} : RunView).Sound where
  current := by
    refine ⟨Nat.le_refl 0, ?_, by simp⟩
    intro k _
    rw [List.drop_nil]
    rfl
  owed := by
    right; right
    intro _
    rfl
  flagged := by simp

theorem Current.publishes (h : s.Current) {root : Option (RunNode String)} {frame : RunFrame}
    (hkept : frame.Names → root.map classifyRunNode = frame.on s.tree) :
    ({ s with root := root, published := s.published ++ [frame] }).Current where
  applied := by
    rw [List.length_append]
    exact Nat.le_add_right_of_le h.applied
  replayed := h.replayed.publish on_overwrites hkept
  answer taken root hanswer := by
    have hsound := h.answer taken root hanswer
    refine ⟨?_, hsound.leads.publish hsound.le hkept, ?_⟩
    · rw [List.length_append]
      exact Nat.le_add_right_of_le hsound.le
    · rw [List.take_append_of_le_length hsound.le]
      exact hsound.replayed

/-- What a handler does to the cell, the flag and the ladder is nothing to the server's side. -/
theorem Current.of_same {s' : RunView} (h : s.Current) (hroot : s'.root = s.root)
    (hpublished : s'.published = s.published) (happlied : s'.applied ≤ s.published.length)
    (hinFlight : ∀ taken root, s'.inFlight = some (some (.state taken root)) →
      s.inFlight = some (some (.state taken root))) : s'.Current := by
  cases s'
  dsimp only at hroot hpublished happlied hinFlight
  subst hroot hpublished
  refine ⟨happlied, h.replayed, ?_⟩
  intro taken root hanswer
  have hsound := h.answer taken root (hinFlight taken root hanswer)
  exact ⟨hsound.le, hsound.leads, hsound.replayed⟩

/-- A read is issued, or the one on its way gets a trailing one. -/
theorem Current.invalidates (h : s.Current) : s.invalidateRun.Sound := by
  rw [invalidateRun]
  split
  · next hflight =>
    refine ⟨h.of_same rfl rfl h.applied fun _ _ hs => hs, .inl hflight, ?_⟩
    intro _ _ _ hstale
    cases hstale
  · refine ⟨h.of_same rfl rfl h.applied ?_, .inl rfl, ?_⟩
    · intro _ _ hs
      cases hs
    · intro _ _ hs
      cases hs

theorem scheduleRunRetry_cell (s : RunView) :
    s.scheduleRunRetry = { s with runRetries := s.scheduleRunRetry.runRetries } := by
  rw [scheduleRunRetry]
  split
  · rfl
  · rfl

/-- An outcome changes the cell and the ladder. -/
theorem adopt_eq (s : RunView) (answer : RunAnswer) :
    s.adopt answer =
      { s with
        cached := (s.adopt answer).cached
        runRetries := (s.adopt answer).runRetries } := by
  cases answer with
  | state taken root => rfl
  | failed status =>
    rw [adopt]
    split
    · rfl
    · rw [scheduleRunRetry_cell]

theorem adopt_stale (s : RunView) (answer : RunAnswer) : (s.adopt answer).stale = s.stale := by
  rw [adopt_eq]

theorem adopt_inFlight (s : RunView) (answer : RunAnswer) :
    (s.adopt answer).inFlight = s.inFlight := by
  rw [adopt_eq]

theorem Current.adopts (h : s.Current) (answer : RunAnswer) :
    ({ s with inFlight := none }.adopt answer).Current := by
  rw [adopt_eq]
  refine h.of_same rfl rfl h.applied ?_
  intro _ _ hanswer
  cases hanswer

theorem handle_progress (p : RunProgressFrame) (s : RunView) :
    (s.handle (.runProgress p) = { s with cached := (RunFrame.runProgress p).on s.cached } ∧
      p.nodePath ≠ []) ∨ s.handle (.runProgress p) = s.invalidateRun := by
  rw [handle]
  split
  · next root hroot =>
    left
    obtain ⟨node, hnode, hpatch⟩ := Option.bind_eq_some_iff.mp hroot
    constructor
    · rw [hnode, RunFrame.on, Option.map_some, done_of_some hpatch]
    · intro hnil
      rw [hnil, patchNode] at hpatch
      cases hpatch
  · right
    rfl

namespace Sound

theorem publishes (h : s.Sound) {root : Option (RunNode String)} {frame : RunFrame}
    (hkept : frame.Names → root.map classifyRunNode = frame.on s.tree) :
    ({ s with root := root, published := s.published ++ [frame] }).Sound where
  current := h.current.publishes hkept
  owed := by
    rcases h.owed with hflight | harmed | hleads
    · exact .inl hflight
    · exact .inr (.inl harmed)
    · exact .inr (.inr (hleads.publish h.current.applied hkept))
  flagged taken root hanswer hstale := by
    rw [List.take_append_of_le_length h.current.applied]
    exact h.flagged taken root hanswer hstale

theorem delivers (h : s.Sound) {frame : RunFrame} (hframe : s.published[s.applied]? = some frame) :
    ({ s with applied := s.applied + 1 }.handle frame).Sound := by
  have hlt : s.applied < s.published.length := (List.getElem?_eq_some_iff.mp hframe).1
  have hcurrent : ({ s with applied := s.applied + 1 }).Current :=
    h.current.of_same rfl rfl hlt fun _ _ hs => hs
  cases frame with
  | runStarted => exact hcurrent.invalidates
  | runFinished => exact hcurrent.invalidates
  | runProgress p =>
    rcases handle_progress p { s with applied := s.applied + 1 } with ⟨happlied, hnames⟩ | hread
    · rw [happlied]
      refine ⟨hcurrent.of_same rfl rfl hlt fun _ _ hs => hs, ?_, ?_⟩
      · rcases h.owed with hflight | harmed | hleads
        · exact .inl hflight
        · exact .inr (.inl harmed)
        · exact .inr (.inr (hleads.apply hframe hnames))
      · intro taken root hanswer hstale frame' hframe'
        have htake : s.published.take (s.applied + 1) =
            s.published.take s.applied ++ [.runProgress p] := by
          rw [List.take_add_one, hframe]
          rfl
        rw [htake, List.drop_append] at hframe'
        rcases List.mem_append.mp hframe' with hold | hnew
        · exact h.flagged taken root hanswer hstale frame' hold
        · rw [List.mem_singleton.mp (List.mem_of_mem_drop hnew)]
          exact hnames
    · rw [hread]
      exact hcurrent.invalidates

theorem answers (h : s.Sound) :
    ({ s with inFlight := some (some (.state s.published.length s.root)) }).Sound := by
  refine ⟨⟨h.current.applied, h.current.replayed, ?_⟩, .inl rfl, ?_⟩
  · intro taken root hanswer
    cases hanswer
    refine ⟨Nat.le_refl _, leads_now _ _ _ _, ?_⟩
    rw [List.take_length]
    exact h.current.replayed
  · intro taken root hanswer _ frame hframe
    cases hanswer
    have hle : (s.published.take s.applied).length ≤ s.published.length := List.length_take_le' _ _
    rw [List.drop_eq_nil_of_le hle] at hframe
    cases hframe

theorem fails (h : s.Sound) (status : ℕ) :
    ({ s with inFlight := some (some (.failed status)) }).Sound := by
  refine ⟨h.current.of_same rfl rfl h.current.applied ?_, .inl rfl, ?_⟩
  · intro _ _ hanswer
    cases hanswer
  · intro _ _ hanswer
    cases hanswer

/-- A trailing read, after any outcome. -/
theorem fetches (h : s.Current) : ({ s with stale := false }.fetchRun).Sound := by
  refine ⟨h.of_same rfl rfl h.applied ?_, .inl rfl, ?_⟩
  · intro _ _ hanswer
    cases hanswer
  · intro _ _ hanswer
    cases hanswer

/-- The answer's tree stands in for the cached one. -/
theorem leads_answer (h : s.Sound) {taken : ℕ} {root : Option (RunNode String)}
    (hanswer : s.inFlight = some (some (.state taken root))) (hstale : s.stale = false)
    (hspared : s.Spared taken root) : s.Leads s.applied (root.map classifyRunNode) := by
  have hsound := h.current.answer taken root hanswer
  exact hsound.leads.adopt hsound.le hsound.replayed (h.flagged taken root hanswer hstale) hspared

theorem settles (h : s.Sound) {answer : RunAnswer} (hanswer : s.inFlight = some (some answer))
    (hretried : s.stale = false → ∀ status, answer = .failed status → s.Retried status)
    (hspared : s.stale = false → ∀ taken root, answer = .state taken root → s.Spared taken root) :
    (s.settle answer).Sound := by
  have hcurrent := h.current.adopts answer
  rw [settle]
  split
  · exact fetches hcurrent
  · next hflag =>
    have hstale : s.stale = false := by
      rw [adopt_stale] at hflag
      simpa using hflag
    refine ⟨hcurrent, ?_, ?_⟩
    · cases answer with
      | state taken root =>
        exact .inr (.inr (h.leads_answer hanswer hstale (hspared hstale taken root rfl)))
      | failed status =>
        obtain ⟨hgone, hleft⟩ := hretried hstale status rfl
        right; left
        rw [adopt, if_neg hgone, scheduleRunRetry, if_neg (Nat.not_le_of_lt hleft)]
        exact ⟨_, rfl, rfl⟩
    · intro taken root hflight
      rw [adopt_inFlight] at hflight
      cases hflight

theorem fires (h : s.Sound) (ladder : RunRetry) : (s.fire ladder).Sound := by
  have hcurrent : ({ s with runRetries := some { ladder with timer := false } }).Current :=
    h.current.of_same rfl rfl h.current.applied fun _ _ hs => hs
  exact hcurrent.invalidates

theorem step (h : s.Sound) {e : RunEvent} (hpromised : s.Promised e) (hspares : s.Spares e) :
    (s.step e).Sound := by
  cases e with
  | publishes root frame => exact h.publishes hpromised
  | delivers =>
    simp only [RunView.step]
    split
    · next frame hframe => exact h.delivers hframe
    · exact h
  | invalidates => exact h.current.invalidates
  | answers =>
    simp only [RunView.step]
    split
    · exact h.answers
    · exact h
  | fails status =>
    simp only [RunView.step]
    split
    · exact h.fails status
    · exact h
  | settles =>
    simp only [RunView.step]
    split
    · next answer hanswer =>
      apply h.settles hanswer
      · rintro hstale status rfl
        exact hpromised hstale status hanswer
      · rintro hstale taken root rfl
        exact hspares hstale taken root hanswer
    · exact h
  | fires =>
    simp only [RunView.step]
    split
    · next ladder _ =>
      split
      · exact h.fires ladder
      · exact h
    · exact h

theorem converged (h : s.Sound) : s.Converged := by
  intro happlied hflight harmed
  rcases h.owed with hread | hrung | hleads
  · rw [hflight] at hread
    cases hread
  · exact absurd hrung harmed
  · rw [happlied] at hleads
    have hdone := hleads (by simp)
    rwa [List.drop_length, runUpdates_nil] at hdone

end Sound

/-- While every answer that no trailing read follows spares the frames applied since it was taken,
the browser's tree converges. -/
theorem tree_converges (events : List RunEvent)
    (hkept : Along step (fun s e => s.Promised e ∧ s.Spares e) {} events) :
    (runFrom step {} events).Converged := by
  have hsound := hkept.invariant sound_start fun _ _ hs he => hs.step he.1 he.2
  exact hsound.converged

/-- A workflow of one step. -/
def oneStep (status : String) (endedAt : Option String) : RunNode String where
  nodeId := "main"
  type := .sequence
  status := "running"
  children := some [{ nodeId := "draft", type := .step, status := status, endedAt := endedAt }]

def draftCompleted : RunFrame :=
  .runProgress
    { nodePath := ["main", "draft"], status := some "completed", endedAt := some "10:00" }

/-- The step completes while nothing is read. -/
theorem tree_converges_completed :
    (runFrom step {}
      [.publishes (some (oneStep "running" none)) .runStarted, .delivers, .answers, .settles,
        .publishes (some (oneStep "completed" (some "10:00"))) draftCompleted,
        .delivers]).Converged := by
  apply tree_converges
  refine ⟨⟨?_, trivial⟩, ⟨trivial, trivial⟩, ⟨trivial, trivial⟩, ⟨?_, ?_⟩, ⟨?_, trivial⟩,
    ⟨trivial, trivial⟩, trivial⟩
  · intro hnames
    cases hnames
  · intro _ status hfailed
    cases hfailed
  · intro _ taken root hanswer
    cases hanswer
    rfl
  · intro _
    rfl

/-- The step completes while an answer from before it is on its way. -/
def overtaken : List RunEvent :=
  [.publishes (some (oneStep "running" none)) .runStarted, .delivers, .answers, .settles,
    .invalidates, .answers,
    .publishes (some (oneStep "completed" (some "10:00"))) draftCompleted, .delivers, .settles]

/-- The completion is applied, and the older answer takes it back. -/
theorem answer_undoes_frame :
    Along step (fun s e => s.Promised e) {} overtaken ∧
      ¬ (runFrom step {} overtaken).Converged := by
  constructor
  · refine ⟨?_, trivial, trivial, ?_, trivial, trivial, ?_, trivial, ?_, trivial⟩
    · intro hnames
      cases hnames
    · intro _ status hfailed
      cases hfailed
    · intro _
      rfl
    · intro _ status hfailed
      cases hfailed
  · intro hconverged
    have hnone : ¬ (runFrom step {} overtaken).Armed := by
      rintro ⟨ladder, hladder, -⟩
      cases hladder
    have htree := hconverged rfl rfl hnone
    cases htree

end RunView
end Marotte.RunTree
