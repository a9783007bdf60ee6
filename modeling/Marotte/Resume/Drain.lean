import Marotte.Library.Along

/-! # A resumed session's replay

A `session/load` opens a projection of its chat, attaches a forward loop to the bridge and waits
for the response. The loop folds the bridge's frames one by one, and the projection settles once
it has folded every frame that came before the response.
-/
namespace Marotte.Resume

/-! ## The completion condition -/

/-- A position on a bridge's read loop, with the attachment that it belongs to. -/
structure DrainPoint where
  gen : ℕ
  seq : ℕ

structure ReplayDrain where
  gen : ℕ := 0
  observed : ℕ := 0
  loadSeq : ℕ := 0
  loaded : Bool := false
  deriving DecidableEq

namespace ReplayDrain

/-- A new attachment drops what the previous one established. -/
def reattach (gen : ℕ) : ReplayDrain := { gen }

def noteConsumed (d : ReplayDrain) (p : DrainPoint) : ReplayDrain :=
  if p.gen < d.gen then d
  else
    let d := if d.gen < p.gen then reattach p.gen else d
    if d.observed < p.seq then { d with observed := p.seq } else d

def markLoadedAt (d : ReplayDrain) (p : DrainPoint) : ReplayDrain :=
  if p.gen < d.gen then d
  else
    let d := if d.gen < p.gen then reattach p.gen else d
    { d with loadSeq := p.seq, loaded := true }

/-- `exited` is the bridge's exit, after which no frame can advance the position. -/
def complete (d : ReplayDrain) (gen : ℕ) (exited : Bool) : Bool :=
  gen = d.gen && d.loaded && (exited || d.loadSeq ≤ d.observed)

theorem gen_noteConsumed (d : ReplayDrain) (p : DrainPoint) :
    (d.noteConsumed p).gen = max d.gen p.gen := by
  simp only [noteConsumed, reattach]
  grind

theorem gen_markLoadedAt (d : ReplayDrain) (p : DrainPoint) :
    (d.markLoadedAt p).gen = max d.gen p.gen := by
  simp only [markLoadedAt, reattach]
  grind

/-- A load of an attachment that is gone bounds nothing; one of a newer attachment starts over. -/
theorem markLoadedAt_cases (d : ReplayDrain) (p : DrainPoint) :
    d.markLoadedAt p = d ∨
      (d.markLoadedAt p).gen = p.gen ∧ (d.markLoadedAt p).loadSeq = p.seq ∧
        ((d.markLoadedAt p).observed = 0 ∨
          (d.markLoadedAt p).gen = d.gen ∧ (d.markLoadedAt p).observed = d.observed) := by
  simp only [markLoadedAt, reattach]
  grind

theorem loaded_noteConsumed {d : ReplayDrain} {p : DrainPoint}
    (h : (d.noteConsumed p).loaded = true) :
    d.loaded = true ∧ (d.noteConsumed p).gen = d.gen ∧
      (d.noteConsumed p).loadSeq = d.loadSeq := by
  simp only [noteConsumed, reattach] at h ⊢
  grind

theorem observed_noteConsumed {d : ReplayDrain} {p : DrainPoint} {gen n : ℕ}
    (hd : d.gen = gen → d.observed ≤ n) (hp : p.gen = gen → p.seq ≤ n)
    (h : (d.noteConsumed p).gen = gen) : (d.noteConsumed p).observed ≤ n := by
  simp only [noteConsumed, reattach] at h ⊢
  grind

theorem complete_iff {d : ReplayDrain} {gen : ℕ} {exited : Bool} :
    d.complete gen exited = true ↔
      gen = d.gen ∧ d.loaded = true ∧ (exited = true ∨ d.loadSeq ≤ d.observed) := by
  simp [complete, and_assoc]

end ReplayDrain

/-! ## The loads of one chat -/

/-- One forward loop and its bridge. A delivered frame that is tagged as a replay carries its
update; `loadSeq` is how many frames came before the load's response. The loop has folded
`folded` of them, and attempted a settle after `settled`. -/
structure Attachment (α : Type) where
  delivered : List (Option α) := []
  loadSeq : Option ℕ := none
  folded : ℕ := 0
  settled : ℕ := 0
  closed : Bool := false
  exited : Bool := false

/-- The replay updates among the first frames. -/
def Attachment.replayed {α : Type} (a : Attachment α) (n : ℕ) : List α :=
  (a.delivered.take n).filterMap id

/-- A projection: the updates it has ingested, each with the attachment that consumed it. `serial`
tells projections apart, and `own` is the attachment of the load that opened it. -/
structure LoadProjection (α : Type) where
  serial : ℕ
  own : Option ℕ := none
  frames : List (ℕ × α) := []
  drain : ReplayDrain := {}
  deriving DecidableEq

/-- Where a load stands. The spawns of a chat are coalesced, so that it has one at a time. -/
inductive Load where
  | idle
  | opened
  | attached (gen : ℕ)
  | returned (gen seq : ℕ)
  | failed
  deriving DecidableEq

/-- One chat's loads. The attachments are numbered from one. `dropped` are the projections that a
re-load superseded or a failed load discarded. -/
structure Replays (α : Type) where
  attachments : List (Attachment α) := []
  projection : Option (LoadProjection α) := none
  load : Load := .idle
  opened : ℕ := 0
  dropped : List ℕ := []
  adopted : List (LoadProjection α) := []

/-- The spawn's steps and, for each attachment, those of its bridge and of its loop. -/
inductive ReplayEvent (α : Type) where
  | openReplayProjection
  | attachForward
  | loadReturns
  | loadFails
  | markReplayLoadedAt
  | discardReplayProjection
  | delivered (gen : ℕ) (frame : Option α)
  | consumed (gen : ℕ)
  | settles (gen : ℕ)
  | closes (gen : ℕ)
  | exits (gen : ℕ)

namespace Replays

variable {α : Type} (s : Replays α)

def attachment (gen : ℕ) : Option (Attachment α) :=
  if gen = 0 then none else s.attachments[gen - 1]?

def setAttachment (gen : ℕ) (a : Attachment α) : Replays α :=
  { s with attachments := s.attachments.set (gen - 1) a }

/-- A projection that is still open is superseded. -/
def openReplayProjection : Replays α :=
  { s with
    projection := some { serial := s.opened + 1 }
    opened := s.opened + 1
    dropped := s.projection.toList.map LoadProjection.serial ++ s.dropped
    load := .opened }

/-- The load's own attachment, or one of a bridge that loads nothing. -/
def attachForward : Replays α :=
  let gen := s.attachments.length + 1
  match s.load with
  | .idle => { s with attachments := s.attachments ++ [{}] }
  | .opened =>
    { s with
      attachments := s.attachments ++ [{}]
      projection := s.projection.map fun p => { p with own := some gen }
      load := .attached gen }
  | .attached _ | .returned .. | .failed => s

def discardReplayProjection : Replays α :=
  { s with
    projection := none
    dropped := s.projection.toList.map LoadProjection.serial ++ s.dropped
    load := .idle }

/-- The frame is routed by its chat. -/
def ingestReplayFrame (gen : ℕ) (update : α) : Replays α :=
  { s with
    projection := s.projection.map fun p => { p with frames := p.frames ++ [(gen, update)] } }

/-- One observation of the drain; the projection that it completes is taken out and adopted. -/
def claimSettled (gen : ℕ) (exited : Bool) (note : ReplayDrain → ReplayDrain) : Replays α :=
  match s.projection with
  | none => s
  | some p =>
    let p := { p with drain := note p.drain }
    if p.drain.complete gen exited then
      { s with projection := none, adopted := s.adopted ++ [p] }
    else { s with projection := some p }

def markReplayLoadedAt (p : DrainPoint) : Replays α :=
  s.claimSettled p.gen false (·.markLoadedAt p)

def settleReplayProjection (p : DrainPoint) (exited : Bool) : Replays α :=
  s.claimSettled p.gen exited (·.noteConsumed p)

/-- The loop's next frame is folded. -/
def consume (gen : ℕ) (a : Attachment α) : Replays α :=
  let s' := s.setAttachment gen { a with folded := a.folded + 1 }
  match a.delivered[a.folded]? with
  | some (some update) => s'.ingestReplayFrame gen update
  | _ => s'

def stepAttachment (gen : ℕ) (a : Attachment α) : ReplayEvent α → Replays α
  | .delivered _ frame =>
    if a.closed then s else s.setAttachment gen { a with delivered := a.delivered ++ [frame] }
  | .consumed _ =>
    if a.folded < a.delivered.length ∧ a.settled = a.folded then s.consume gen a else s
  | .settles _ =>
    if a.settled < a.folded then
      (s.setAttachment gen { a with settled := a.folded }).settleReplayProjection
        { gen, seq := a.folded } false
    else s
  | .closes _ => s.setAttachment gen { a with closed := true }
  | .exits _ =>
    if a.closed ∧ a.exited = false ∧ a.settled = a.delivered.length then
      (s.setAttachment gen { a with exited := true }).settleReplayProjection { gen, seq := 0 } true
    else s
  | _ => s

def step (s : Replays α) (e : ReplayEvent α) : Replays α :=
  match e with
  | .openReplayProjection => if s.load = .idle then s.openReplayProjection else s
  | .attachForward => s.attachForward
  | .loadReturns =>
    match s.load with
    | .attached gen =>
      match s.attachment gen with
      | some a =>
        { s.setAttachment gen { a with loadSeq := some a.delivered.length } with
          load := .returned gen a.delivered.length }
      | none => s
    | _ => s
  | .loadFails =>
    match s.load with
    | .attached _ => { s with load := .failed }
    | _ => s
  | .markReplayLoadedAt =>
    match s.load with
    | .returned gen seq => ({ s with load := .idle } : Replays α).markReplayLoadedAt { gen, seq }
    | _ => s
  | .discardReplayProjection => if s.load = .failed then s.discardReplayProjection else s
  | .delivered gen _ | .consumed gen | .settles gen | .closes gen | .exits gen =>
    match s.attachment gen with
    | some a => s.stepAttachment gen a e
    | none => s

end Replays
end Marotte.Resume
