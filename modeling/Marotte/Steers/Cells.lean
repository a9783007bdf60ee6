import Marotte.Library.Along
import Marotte.Steers.Records

/-! # The cells that a step looks up

Which cells of the channel and row tables a step reads, in the states that it finds the channel and
the rows in. A run that reads no impossible cell is one whose revisions find a turn bound, whose
deletes find no row waiting behind a channel without a probe, and whose post-load clears name no
row of a probe.
-/
namespace Marotte.Steers
open SteerM

/-- A cell of the channel table or of the row table. -/
inductive Cell where
  | channel (c : ChannelState) (ev : SteerEvent)
  | row (s : RowState) (ev : SteerEvent)
  deriving DecidableEq

/-- The cell answers that no reachable sequence produces it, or is the sentinel. -/
def Cell.impossible : Cell → Bool
  | channel c ev => channelRule c ev = .impossible
  | row s ev => rowRuleFor s ev = .impossible ∨ rowRuleFor s ev = .unhandled

def rowCells (rows : List DockRow) (ev : SteerEvent) : List Cell := rows.map fun w => .row w.state ev

/-- The cells of a step that is taken for each element in turn. -/
def cellsAlong {α β : Type} (f : α → SteerM β) (cells : α → SteerRecord → List Cell) :
    List α → Locked → List Cell
  | [], _ => []
  | a :: as, s => cells a s.record ++ cellsAlong f cells as (f a s).2

/-! ## The frames of KAS -/

def readCells (r : SteerRecord) (id : String) (byAck : Bool) : List Cell :=
  let members := r.under id
  if members = [] then []
  else
    let ev := readEvent members byAck
    rowCells members ev ++ if r.channel = .probing ∧ id = r.probe then [.channel r.channel ev] else []

/-- An id that an agent row answers to is not read. -/
def forgottenCells : List String → Locked → List Cell :=
  cellsAlong (fun id => steerForgotten [id]) fun id r =>
    if (r.others.find? (·.steerID = id)).isSome then [] else readCells r id true

/-- One id of a clear. -/
def clearId (promptHeld : Bool) (id : String) : SteerM (Option SteerQueued × Bool) := do
  let other ← takeOther id
  guarded other.isSome changed
  let named ← clearUnderLocked id promptHeld
  return (other, named)

def clearedCells (ids : List String) (promptHeld : Bool) (s : Locked) : List Cell :=
  let (out, t) := (ids.mapM (clearId promptHeld)) s
  cellsAlong (clearId promptHeld)
      (fun id r => rowCells ((r.under id).filter (·.state.inKAS)) .foreignClear) ids s ++
    if out.any Prod.snd then [.channel t.record.channel .foreignClear] else []

/-! ## The turn's ends -/

def endCells (r : SteerRecord) (en : SteerTurnEnd) : List Cell :=
  let own : Bool := en.turnID ≠ "" ∧ en.turnID = r.turnID
  let unbound : Bool := r.channel = .none ∧ en.source.promptClass
  let ev : SteerEvent := if en.bridgeDeath then .turnDeath else .turnEnd
  rowCells (r.rows.filter fun w => w.live ∧ endCollects w.state own unbound en.source.promptClass)
      ev ++
    if own then [.channel r.channel ev] else []

def bindCells (r : SteerRecord) : List Cell :=
  .channel r.channel .bind ::
    if channelRule r.channel .bind = .impossible then endCells r { turnID := r.turnID } else []

/-! ## Routing, removals and jobs -/

/-- A row that the route creates is parked. -/
def routeCells (r : SteerRecord) (key text : String) (h : SteerHolder) : List Cell :=
  let routed (w : DockRow) : List Cell :=
    if h.held = false then []
    else if h.promptClass ∧ (h.live = false ∨ (h.delivering = false ∧ r.parkedBesides w.seq)) then []
    else [.row w.state .steer]
  match r.row key with
  | some w => routed w
  | none =>
    if h.held = false ∨ maxSteerRows ≤ (r.rows.filter DockRow.live).length then []
    else routed { key, text, seq := r.nextSeq }

def flushCells (r : SteerRecord) : List Cell :=
  if r.unownedWaiting = [] then [] else [.channel r.channel .jobWake]

def refusedCells (r : SteerRecord) (id : String) : List Cell :=
  rowCells ((r.under id).filter (·.state.inKAS)) .refused ++ [.channel r.channel .refused]

def postLoadCells (r : SteerRecord) (cleared : List String) : List Cell :=
  rowCells (r.rows.filter fun w => w.live ∧ w.owner = "" ∧ cleared.contains w.kasID) .postLoadClear

def removeCells (r : SteerRecord) (key : String) : List Cell :=
  if r.others.any (·.steerID = key) then []
  else
    match r.row key with
    | none => []
    | some w =>
      if w.owner ≠ "" ∧ w.state.inKAS then []
      else
        let ev := deleteEvent w.state
        .row w.state ev :: if rowRuleFor w.state ev = .deleted then [.channel r.channel ev] else []

def removeClearedCells (r : SteerRecord) (opID : String) (cleared : List String) (landed : Bool) :
    List Cell :=
  if r.op ≠ opID ∨ (landed = false ∧ r.opEnd = none) then []
  else
    rowCells ((r.owned opID).filter fun w => cleared.contains w.kasID) .foreignClear ++
      if r.opEnd = none then [.channel r.opChannel .deleteQueued] else []

/-- A discard without a clear owns every live row when it drops them. -/
def beginDiscardCells (r : SteerRecord) : List Cell :=
  let userInKAS := r.rows.any fun w => w.live ∧ w.state.inKAS
  if userInKAS ∨ r.others ≠ [] then [] else rowCells (r.rows.filter DockRow.live) .discard

def discardClearedCells (r : SteerRecord) (opID : String) (landed : Bool) : List Cell :=
  if r.op ≠ opID ∨ landed = false then []
  else
    .channel r.opChannel .discard ::
      rowCells ((r.owned opID).filter fun w => w.state ≠ .read) .discard

def teardownCells (r : SteerRecord) : List Cell :=
  rowCells (r.rows.filter fun w => w.live ∧ w.noted = false) .teardown

/-- The cells that a call looks up in the record that it finds. -/
def SteerCall.cells (s : Locked) : SteerCall → List Cell
  | read id => readCells s.record id false
  | forgotten ids => forgottenCells ids s
  | cleared ids promptHeld => clearedCells ids promptHeld s
  | turnBound _ => bindCells s.record
  | turnRevised _ => [.channel s.record.channel .revise]
  | turnEnded en => endCells s.record en
  | postLoadCleared ids _ => postLoadCells s.record ids
  | route key text h => routeCells s.record key text h
  | sent id _ _ => refusedCells s.record id
  | beginRemove key _ => removeCells s.record key
  | removeCleared opID ids landed => removeClearedCells s.record opID ids landed
  | opSent opID id queued failed =>
    if s.record.op = opID ∧ failed = false ∧ queued = false then refusedCells s.record id else []
  | beginDiscard _ => beginDiscardCells s.record
  | discardCleared opID landed => discardClearedCells s.record opID landed
  | planFlush => flushCells s.record
  | waiting _ | bridgeGone | agentRowsWaiting | endOp _ | jobRows .. | straysCleared .. | release ..
  | unsent _ | resent .. | delivered _ | nextParked => []

/-! ## Which cells are impossible -/

/-- No cell of the list is impossible. -/
def Possible (cells : List Cell) : Prop := ∀ cell ∈ cells, cell.impossible = false

instance (cells : List Cell) : Decidable (Possible cells) :=
  inferInstanceAs (Decidable (∀ cell ∈ cells, cell.impossible = false))

theorem possible_nil : Possible [] := by
  intro cell hcell
  cases hcell

theorem possible_append {cells cells' : List Cell} :
    Possible (cells ++ cells') ↔ Possible cells ∧ Possible cells' := List.forall_mem_append

theorem possible_cons {cell : Cell} {cells : List Cell} :
    Possible (cell :: cells) ↔ cell.impossible = false ∧ Possible cells := List.forall_mem_cons

theorem possible_singleton {cell : Cell} : Possible [cell] ↔ cell.impossible = false :=
  List.forall_mem_singleton

theorem possible_ite {c : Prop} [Decidable c] {cells cells' : List Cell} (h : c → Possible cells)
    (h' : ¬ c → Possible cells') : Possible (if c then cells else cells') := by
  split
  · next hc => exact h hc
  · next hc => exact h' hc

theorem possible_rowCells {rows : List DockRow} {ev : SteerEvent} :
    Possible (rowCells rows ev) ↔ ∀ w ∈ rows, (Cell.row w.state ev).impossible = false :=
  List.forall_mem_map

theorem possible_cellsAlong {α β : Type} {f : α → SteerM β} {cells : α → SteerRecord → List Cell}
    (h : ∀ a r, Possible (cells a r)) (as : List α) (s : Locked) :
    Possible (cellsAlong f cells as s) := by
  induction as generalizing s with
  | nil => exact possible_nil
  | cons a as ih => exact possible_append.mpr ⟨h a s.record, ih _⟩

/-- Only three events have an impossible row cell. -/
theorem row_impossible {s : RowState} {ev : SteerEvent} (h : (Cell.row s ev).impossible = true) :
    ev = .injectedOther ∧ s = .outstanding ∨ ev = .refused ∧ s = .parked ∨
      ev = .postLoadClear ∧ (s = .outstanding ∨ s = .waiting) := by
  cases s <;> cases ev <;> revert h <;> decide

/-- Only six events have an impossible channel cell. -/
theorem channel_impossible {c : ChannelState} {ev : SteerEvent}
    (h : (Cell.channel c ev).impossible = true) :
    ev = .bind ∧ c ≠ .none ∨ ev = .revise ∧ c = .none ∨
      ev = .deleteWaiting ∧ (c = .none ∨ c = .unconfirmed) ∨
      (ev = .injectedProbe ∨ ev = .ackProbe) ∧ (c = .opened ∨ c = .unconfirmed) ∨
      ev = .postLoadClear ∧ c ≠ .none := by
  cases c <;> cases ev <;> revert h <;> decide

/-- The events of a step that takes its rows and channel as it finds them. -/
theorem row_possible {ev : SteerEvent} (hother : ev ≠ .injectedOther) (hrefused : ev ≠ .refused)
    (hload : ev ≠ .postLoadClear) (s : RowState) : (Cell.row s ev).impossible = false := by
  apply Bool.eq_false_iff.mpr
  intro h
  rcases row_impossible h with ⟨hev, -⟩ | ⟨hev, -⟩ | ⟨hev, -⟩
  · exact hother hev
  · exact hrefused hev
  · exact hload hev

theorem possible_rows {ev : SteerEvent} (hother : ev ≠ .injectedOther) (hrefused : ev ≠ .refused)
    (hload : ev ≠ .postLoadClear) (rows : List DockRow) : Possible (rowCells rows ev) :=
  possible_rowCells.mpr fun w _ => row_possible hother hrefused hload w.state

theorem channel_possible {ev : SteerEvent} (h : ev ∈ [SteerEvent.steer, .deleteQueued, .deleteIdle,
    .discard, .turnEnd, .turnDeath, .foreignClear, .refused, .jobWake]) (c : ChannelState) :
    (Cell.channel c ev).impossible = false := by
  apply Bool.eq_false_iff.mpr
  intro himp
  rcases channel_impossible himp with ⟨rfl, -⟩ | ⟨rfl, -⟩ | ⟨rfl, -⟩ | ⟨rfl | rfl, -⟩ | ⟨rfl, -⟩
  all_goals exact absurd h (by decide)

/-! ## The steps -/

/-- A probe's row is never read as another id's. -/
theorem readEvent_cases (members : List DockRow) (byAck : Bool) :
    readEvent members byAck = .injectedOther ∧ (∀ w ∈ members, w.state ≠ .outstanding) ∨
      readEvent members byAck = .ackProbe ∨ readEvent members byAck = .injectedProbe := by
  rw [readEvent]
  split
  · next hall =>
    refine .inl ⟨rfl, fun w hw => ?_⟩
    exact of_decide_eq_true (List.all_eq_true.mp hall w hw)
  · split
    · exact .inr (.inl rfl)
    · exact .inr (.inr rfl)

/-- A read looks its probe up in the channel of that probe only. -/
theorem possible_readCells (r : SteerRecord) (id : String) (byAck : Bool) :
    Possible (readCells r id byAck) := by
  have hcases := readEvent_cases (r.under id) byAck
  rw [readCells]
  refine possible_ite (fun _ => possible_nil) fun _ => possible_append.mpr ⟨?_, ?_⟩
  · apply possible_rowCells.mpr
    intro w hw
    apply Bool.eq_false_iff.mpr
    intro h
    rcases hcases with ⟨hev, hall⟩ | hev | hev
    · rcases row_impossible h with ⟨-, hs⟩ | ⟨hev', -⟩ | ⟨hev', -⟩
      · exact hall w hw hs
      · rw [hev] at hev'
        cases hev'
      · rw [hev] at hev'
        cases hev'
    · rw [hev, row_possible (by decide) (by decide) (by decide)] at h
      cases h
    · rw [hev, row_possible (by decide) (by decide) (by decide)] at h
      cases h
  · refine possible_ite (fun hprobe => possible_singleton.mpr ?_) fun _ => possible_nil
    rw [hprobe.1]
    rcases hcases with ⟨hev, -⟩ | hev | hev
    · rw [hev]
      rfl
    · rw [hev]
      rfl
    · rw [hev]
      rfl

theorem possible_clearedCells (ids : List String) (promptHeld : Bool) (s : Locked) :
    Possible (clearedCells ids promptHeld s) := by
  refine possible_append.mpr ⟨?_, ?_⟩
  · exact possible_cellsAlong
      (fun id r => possible_rows (by decide) (by decide) (by decide) _) ids s
  · refine possible_ite (fun _ => possible_singleton.mpr ?_) fun _ => possible_nil
    exact channel_possible (by decide) _

theorem possible_endCells (r : SteerRecord) (en : SteerTurnEnd) : Possible (endCells r en) := by
  have hev : ∀ ev : SteerEvent, ev = (if en.bridgeDeath then .turnDeath else .turnEnd) →
      ev = .turnDeath ∨ ev = .turnEnd := by
    rintro ev rfl
    split
    · exact .inl rfl
    · exact .inr rfl
  rw [endCells]
  generalize (if en.bridgeDeath then SteerEvent.turnDeath else .turnEnd) = ev at hev
  refine possible_append.mpr ⟨?_, possible_ite (fun _ => possible_singleton.mpr ?_)
    fun _ => possible_nil⟩
  · rcases hev ev rfl with rfl | rfl
    · exact possible_rows (by decide) (by decide) (by decide) _
    · exact possible_rows (by decide) (by decide) (by decide) _
  · rcases hev ev rfl with rfl | rfl
    · exact channel_possible (by decide) r.channel
    · exact channel_possible (by decide) r.channel

/-- A refused send's rows are in KAS. -/
theorem possible_refusedCells (r : SteerRecord) (id : String) : Possible (refusedCells r id) := by
  refine possible_append.mpr ⟨possible_rowCells.mpr fun w hw => ?_, possible_singleton.mpr ?_⟩
  · have hkas := (List.mem_filter.mp hw).2
    apply Bool.eq_false_iff.mpr
    intro h
    rcases row_impossible h with ⟨hev, -⟩ | ⟨-, hs⟩ | ⟨hev, -⟩
    · cases hev
    · rw [hs] at hkas
      cases hkas
    · cases hev
  · exact channel_possible (by decide) r.channel

theorem possible_routeCells (r : SteerRecord) (key text : String) (h : SteerHolder) :
    Possible (routeCells r key text h) := by
  have hrouted : ∀ w : DockRow, Possible (if h.held = false then []
      else if h.promptClass ∧ (h.live = false ∨ (h.delivering = false ∧ r.parkedBesides w.seq)) then
        []
      else [Cell.row w.state .steer]) := by
    intro w
    refine possible_ite (fun _ => possible_nil) fun _ => possible_ite (fun _ => possible_nil) ?_
    intro _
    exact possible_singleton.mpr (row_possible (by decide) (by decide) (by decide) w.state)
  rw [routeCells]
  split
  · exact hrouted _
  · exact possible_ite (fun _ => possible_nil) fun _ => hrouted _

theorem possible_removeClearedCells (r : SteerRecord) (opID : String) (cleared : List String)
    (landed : Bool) : Possible (removeClearedCells r opID cleared landed) := by
  refine possible_ite (fun _ => possible_nil) fun _ => possible_append.mpr ⟨?_, ?_⟩
  · exact possible_rows (by decide) (by decide) (by decide) _
  · refine possible_ite (fun _ => possible_singleton.mpr ?_) fun _ => possible_nil
    exact channel_possible (by decide) r.opChannel

theorem possible_discardClearedCells (r : SteerRecord) (opID : String) (landed : Bool) :
    Possible (discardClearedCells r opID landed) := by
  refine possible_ite (fun _ => possible_nil) fun _ => possible_cons.mpr ⟨?_, ?_⟩
  · exact channel_possible (by decide) r.opChannel
  · exact possible_rows (by decide) (by decide) (by decide) _

/-- A post-load clear meets an impossible cell at a row of a probe that it names. -/
theorem possible_postLoadCells {r : SteerRecord} {cleared : List String} :
    Possible (postLoadCells r cleared) ↔ ∀ w ∈ r.rows, w.live = true → w.owner = "" →
      cleared.contains w.kasID = true → w.state ≠ .outstanding ∧ w.state ≠ .waiting := by
  rw [postLoadCells, possible_rowCells]
  constructor
  · intro h w hw hlive howner hnamed
    have hcell := h w (List.mem_filter.mpr ⟨hw, decide_eq_true ⟨hlive, howner, hnamed⟩⟩)
    constructor
    · intro hs
      rw [hs] at hcell
      cases hcell
    · intro hs
      rw [hs] at hcell
      cases hcell
  · intro h w hw
    obtain ⟨hw, htest⟩ := List.mem_filter.mp hw
    obtain ⟨hlive, howner, hnamed⟩ := of_decide_eq_true htest
    obtain ⟨hout, hwait⟩ := h w hw hlive howner hnamed
    apply Bool.eq_false_iff.mpr
    intro himp
    rcases row_impossible himp with ⟨hev, -⟩ | ⟨hev, -⟩ | ⟨-, hs | hs⟩
    · cases hev
    · cases hev
    · exact hout hs
    · exact hwait hs

theorem deleteEvent_of_not_waiting {s : RowState} (h : s ≠ .waiting) :
    deleteEvent s = .deleteQueued ∨ deleteEvent s = .deleteIdle := by
  cases s with
  | waiting => exact absurd rfl h
  | queued => exact .inl rfl
  | outstanding => exact .inl rfl
  | parked => exact .inr rfl
  | cleared => exact .inr rfl
  | unsent => exact .inr rfl
  | read => exact .inr rfl
  | done => exact .inr rfl

/-- A delete meets an impossible cell at a row that waits behind no probe. -/
theorem possible_removeCells {r : SteerRecord} {key : String} :
    Possible (removeCells r key) ↔ r.others.any (fun o => o.steerID = key) = true ∨
      ∀ w, r.row key = some w → w.state = .waiting → r.channel = .opened ∨ r.channel = .probing := by
  rw [removeCells]
  split
  · next hothers => exact ⟨fun _ => .inl hothers, fun _ => possible_nil⟩
  · next hothers =>
    rw [or_iff_right hothers]
    split
    · next hrow =>
      constructor
      · intro _ w hw
        rw [hrow] at hw
        cases hw
      · exact fun _ => possible_nil
    · next w hrow =>
      have hall : (∀ w', r.row key = some w' → w'.state = .waiting →
          r.channel = .opened ∨ r.channel = .probing) ↔
          (w.state = .waiting → r.channel = .opened ∨ r.channel = .probing) := by
        constructor
        · exact fun h => h w hrow
        · rintro h w' hw'
          obtain rfl := Option.some.inj (hrow.symm.trans hw')
          exact h
      rw [hall]
      by_cases hwait : w.state = .waiting
      · have hkas : ¬ (w.owner ≠ "" ∧ w.state.inKAS = true) := by
          rw [hwait]
          exact fun h => absurd h.2 (by decide)
        rw [if_neg hkas, hwait]
        cases r.channel <;> decide
      · refine ⟨fun _ h => absurd h hwait, fun _ => ?_⟩
        refine possible_ite (fun _ => possible_nil) fun _ => possible_cons.mpr ⟨?_, ?_⟩
        · rcases deleteEvent_of_not_waiting hwait with hev | hev
          · rw [hev]
            exact row_possible (by decide) (by decide) (by decide) w.state
          · rw [hev]
            exact row_possible (by decide) (by decide) (by decide) w.state
        · refine possible_ite (fun _ => possible_singleton.mpr ?_) fun _ => possible_nil
          rcases deleteEvent_of_not_waiting hwait with hev | hev
          · rw [hev]
            exact channel_possible (by decide) r.channel
          · rw [hev]
            exact channel_possible (by decide) r.channel

/-! ## Runs -/

/-- A turn is bound where none is. -/
def SteerCall.bindsUnbound (r : SteerRecord) : SteerCall → Bool
  | turnBound _ => r.channel = .none
  | _ => true

/-- A revision finds a turn bound; a delete finds no row waiting behind a channel that is closed or
unconfirmed; a post-load clear names no un-owned row that is or waits behind a probe. -/
def SteerCall.Regular (r : SteerRecord) : SteerCall → Prop
  | turnRevised _ => r.channel ≠ .none
  | beginRemove key _ => r.others.any (fun o => o.steerID = key) = true ∨
      ∀ w, r.row key = some w → w.state = .waiting → r.channel = .opened ∨ r.channel = .probing
  | postLoadCleared ids _ => ∀ w ∈ r.rows, w.live = true → w.owner = "" →
      ids.contains w.kasID = true → w.state ≠ .outstanding ∧ w.state ≠ .waiting
  | _ => True

theorem possible_cells {op : SteerCall} {s : Locked} (h : op.bindsUnbound s.record = true) :
    Possible (op.cells s) ↔ op.Regular s.record := by
  cases op with
  | read id => exact iff_of_true (possible_readCells s.record id false) trivial
  | forgotten ids =>
    refine iff_of_true (possible_cellsAlong (fun id r => ?_) ids s) trivial
    exact possible_ite (fun _ => possible_nil) fun _ => possible_readCells r id true
  | cleared ids promptHeld => exact iff_of_true (possible_clearedCells ids promptHeld s) trivial
  | turnBound turnID =>
    refine iff_of_true (possible_cons.mpr ⟨?_, ?_⟩) trivial
    · rw [of_decide_eq_true h]
      rfl
    · exact possible_ite (fun _ => possible_endCells _ _) fun _ => possible_nil
  | turnRevised turnID =>
    rw [SteerCall.cells, SteerCall.Regular, possible_singleton]
    cases s.record.channel <;> decide
  | turnEnded en => exact iff_of_true (possible_endCells s.record en) trivial
  | postLoadCleared ids landed => exact possible_postLoadCells
  | route key text holder =>
    exact iff_of_true (possible_routeCells s.record key text holder) trivial
  | sent id queued failed => exact iff_of_true (possible_refusedCells s.record id) trivial
  | beginRemove key opID => exact possible_removeCells
  | removeCleared opID ids landed =>
    exact iff_of_true (possible_removeClearedCells s.record opID ids landed) trivial
  | opSent opID id queued failed =>
    exact iff_of_true (possible_ite (fun _ => possible_refusedCells s.record id)
      fun _ => possible_nil) trivial
  | beginDiscard opID =>
    refine iff_of_true (possible_ite (fun _ => possible_nil) fun _ => ?_) trivial
    exact possible_rows (by decide) (by decide) (by decide) _
  | discardCleared opID landed =>
    exact iff_of_true (possible_discardClearedCells s.record opID landed) trivial
  | planFlush =>
    refine iff_of_true (possible_ite (fun _ => possible_nil) fun _ => possible_singleton.mpr ?_)
      trivial
    exact channel_possible (by decide) s.record.channel
  | _ => exact iff_of_true possible_nil trivial

/-- What the records are called for, of any chat and in any order. -/
inductive RecordsEvent where
  | call (chat : String) (op : SteerCall)
  | takeAgentRows (chat : String)
  | turnStarted (chat turnID : String)
  | beginTeardown (chat : String)
  | endTeardown (chat : String) (serial : ℕ)
  | setLead (chat key : String)
  | undoLead (chat : String) (serial : ℕ) (key : String)

namespace SteerRecords

def perform (mint : ℕ → String) (rs : SteerRecords) : RecordsEvent → SteerRecords
  | .call chat op => (rs.call mint chat op).1
  | .takeAgentRows chat => (rs.takeAgentRows chat).1
  | .turnStarted chat turnID => rs.turnStarted chat turnID
  | .beginTeardown chat => (rs.beginTeardown chat).1
  | .endTeardown chat serial => rs.endTeardown chat serial
  | .setLead chat key => rs.setLead chat key
  | .undoLead chat serial key => rs.undoLead chat serial key

/-- The state under the lock that a call's step finds, if the call runs one. -/
def locked (rs : SteerRecords) (chat : String) (op : SteerCall) : Option Locked :=
  if op.returnsEarly then none
  else
    match rs.recordOf chat op.creates with
    | none => none
    | some (c, rs) => if c.record.gone then none else some { record := c.record, jobs := rs.jobs }

/-- The cells that an event looks up. -/
def cells (rs : SteerRecords) : RecordsEvent → List Cell
  | .call chat op =>
    match rs.locked chat op with
    | none => []
    | some s => op.cells s
  | .beginTeardown chat =>
    match rs.recordOf chat true with
    | none => []
    | some (c, _) => if c.record.gone then [] else teardownCells c.record
  | _ => []

/-- A condition on the record that a call's step finds. -/
def OnStep (P : SteerCall → SteerRecord → Prop) (rs : SteerRecords) : RecordsEvent → Prop
  | .call chat op =>
    match rs.locked chat op with
    | none => True
    | some s => P op s.record
  | _ => True

instance {P : SteerCall → SteerRecord → Prop} [∀ op r, Decidable (P op r)] (rs : SteerRecords)
    (e : RecordsEvent) : Decidable (rs.OnStep P e) :=
  match e with
  | .call chat op =>
    match h : rs.locked chat op with
    | none => isTrue (by rw [OnStep, h]; trivial)
    | some s => decidable_of_iff (P op s.record) (by rw [OnStep, h])
  | .takeAgentRows _ | .turnStarted .. | .beginTeardown _ | .endTeardown .. | .setLead ..
  | .undoLead .. => isTrue trivial

theorem possible_event {rs : SteerRecords} {e : RecordsEvent}
    (h : rs.OnStep (fun op r => op.bindsUnbound r = true) e) :
    Possible (rs.cells e) ↔ rs.OnStep (fun op r => op.Regular r) e := by
  cases e with
  | call chat op =>
    rw [OnStep] at h ⊢
    rw [cells]
    cases hs : rs.locked chat op with
    | none => exact iff_of_true possible_nil trivial
    | some s =>
      rw [hs] at h
      exact possible_cells h
  | beginTeardown chat =>
    refine iff_of_true ?_ trivial
    rw [cells]
    cases rs.recordOf chat true with
    | none => exact possible_nil
    | some found =>
      refine possible_ite (fun _ => possible_nil) fun _ => ?_
      exact possible_rows (by decide) (by decide) (by decide) _
  | _ => exact iff_of_true possible_nil trivial

/-- In every run from no record at all, with turns bound only where none is, no step looks up an
impossible cell exactly if the steps that can are taken in regular states: a revision with a turn
bound, a delete of a row that does not wait without a probe, a post-load clear of no probe. -/
theorem possible_run (mint : ℕ → String) (events : List RecordsEvent)
    (h : Along (perform mint) (OnStep fun op r => op.bindsUnbound r = true) {} events) :
    Along (perform mint) (fun rs e => Possible (rs.cells e)) {} events ↔
      Along (perform mint) (OnStep fun op r => op.Regular r) {} events :=
  h.congr fun _ _ => possible_event

/-- A row waits behind a probe, its turn ends, and the row is deleted while the job holds it. -/
def heldDelete : List RecordsEvent :=
  let holder : SteerHolder := { held := true, promptClass := true, live := true }
  [.call "c" (.turnBound "t"), .call "c" (.route "k" "first" holder),
    .call "c" (.beginRemove "k" "op1"), .call "c" (.removeCleared "op1" ["k"] true),
    .call "c" (.endOp "op1"), .call "c" (.route "p" "probe" holder),
    .call "c" (.route "w" "waits" holder), .call "c" (.turnEnded { turnID := "t" }),
    .call "c" (.beginRemove "w" "op2")]

theorem possible_run_call :
    Along (perform fun n => "m" ++ toString n) (fun rs e => Possible (rs.cells e)) {}
        heldDelete.dropLast ↔
      Along (perform fun n => "m" ++ toString n) (OnStep fun op r => op.Regular r) {}
        heldDelete.dropLast :=
  possible_run _ heldDelete.dropLast (by decide +kernel)

theorem heldDelete_impossible :
    Along (perform fun n => "m" ++ toString n) (OnStep fun op r => op.bindsUnbound r = true) {}
        heldDelete ∧
      Cell.impossible (.channel .none .deleteWaiting) = true ∧
      .channel .none .deleteWaiting ∈
        (runFrom (perform fun n => "m" ++ toString n) {} heldDelete.dropLast).cells
          (.call "c" (.beginRemove "w" "op2")) ∧
      ¬ Along (perform fun n => "m" ++ toString n) (fun rs e => Possible (rs.cells e)) {}
        heldDelete := by
  decide +kernel

end SteerRecords
end Marotte.Steers
