import Marotte.EntryLog.Scan

/-! # The entry log and its operations

One append path writes every line; the operations choose what to append. Each append
meets its own context, clock and write, and a refused write latches the log.
-/
namespace Marotte

/-- What a write(2) and its sync answer; a failed one may leave some bytes behind. -/
inductive WriteOutcome where
  | done
  | failed (written : ℕ)
  deriving DecidableEq, Repr

/-- What one append meets: its context, the clock, and the write. -/
structure Tick where
  cancelled : Bool := false
  now : ℤ := 0
  write : WriteOutcome := .done
  deriving DecidableEq, Repr

inductive LogError where
  | tombstoned
  | entryLogFailed
  | cancelled
  | turnNotHeld (kind : EntryKind) (turn : String)
  | entryLineTooLong (bytes : ℕ)
  | fileTooLarge (bytes : ℕ) (cap : ℕ)
  | reconciledFields (turn session : String)
  | turnNotInLog (turn : String)
  | rewriteLead (turn : String) (kind : EntryKind)
  | closeDescriptor
  | stageRewrite
  | truncateTail
  | parseEntry
  | windowBefore (turn : String)
  | cacheCounters
  deriving DecidableEq, Repr

/-- The header policy a log's root supplies, with the counters it caches. -/
structure LogHeader where
  reconcilable : Bool
  sessionID : String
  closerModel : String
  turnCount : ℕ
  lastTurnOutcome : TurnOutcome
  deriving DecidableEq, Repr

/-- The policy of a root with no header file. -/
def noHeader : LogHeader where
  reconcilable := false
  sessionID := ""
  closerModel := ""
  turnCount := 0
  lastTurnOutcome := .absent

/-- One log root: the file, its index and the latches. A cap of zero is no cap. -/
structure EntryLog where
  file : List UInt8
  index : Index
  header : LogHeader
  cap : ℕ
  failed : Bool
  removed : Bool

structure TurnSpec where
  prompt : Option EntryPrompt := none
  source : TurnOpenSourceName
  run : String := ""
  nodePath : String := ""
  sessionID : String := ""
  deriving DecidableEq, Repr

/-- The id of a reconciled record, derived from the signal it clears. -/
def reconciledEntryID (rec : EntryReconciled) : String :=
  if rec.turn ≠ "" then rec.turn ++ ":reconciled" else rec.session ++ ":reconciled"

namespace Index

/-- The newest turn in file order that no revert took, outside the turns named. -/
def newestSurviving (idx : Index) (excluding : List String) : Option String :=
  idx.order.reverse.find? (fun id =>
    !(excluding.contains id || ((idx.turns id).map TurnState.reverted).getD false))

def survivingOrder (idx : Index) : List String :=
  idx.order.filter (fun id => !((idx.turns id).map TurnState.reverted).getD false)

/-- The n of a turn the index holds. -/
def ordinal (idx : Index) (id : String) : ℕ := ((idx.turns id).map TurnState.n).getD 0

/-- The newest surviving turn's n. -/
def turnCount (idx : Index) : ℕ :=
  match idx.survivingOrder.getLast? with
  | none => 0
  | some id => idx.ordinal id

/-- The counters the header caches: the turn count and the newest finished turn's outcome. -/
def counters (idx : Index) : ℕ × TurnOutcome :=
  (idx.turnCount, idx.survivingOrder.foldl
    (fun last id =>
      match idx.turns id with
      | some st => if st.closed then st.outcome else last
      | none => last) .absent)

/-- Every turn from one to the newest in file order, with that newest turn's id. -/
def revertWindow (idx : Index) (fromTurn : String) : List String × String :=
  (idx.order.drop (idx.order.idxOf fromTurn), (idx.order.getLast?).getD "")

/-- The highest n among the survivors outside the turns named. -/
def survivingHighWater (idx : Index) (excluding : List String) : ℕ :=
  (idx.survivingOrder.filter (fun id => !excluding.contains id)).foldl
    (fun high id => max high (idx.ordinal id)) 0

/-- The survivors with no turn_close, oldest first. -/
def openTurns (idx : Index) : List String :=
  idx.survivingOrder.filter (fun id => !((idx.turns id).map TurnState.closed).getD true)

end Index

namespace EntryLog

variable (c : LineCodec)

/-- What the append path stamps: the next seq, an id for an entry that has none, the clock,
and the tool bounds. -/
def stamp (l : EntryLog) (t : Tick) (e : Entry) : Entry :=
  let seq := match l.index.turns e.turn with
    | some st => st.nextSeq
    | none => e.seq
  persistBoundEntry
    { e with
      seq := seq
      id := if e.id = "" then e.turn ++ ":s" ++ toString seq else e.id
      ts := t.now }

/-- The refusals that come before anything reaches disk. -/
def checkBounds (l : EntryLog) (lineBytes : ℕ) : Option LogError :=
  if lineBytes > maxEntryLineBytes then some (.entryLineTooLong lineBytes)
  else if l.cap = 0 then none
  else if l.index.size + lineBytes > l.cap then
    some (.fileTooLarge (l.index.size + lineBytes) l.cap)
  else none

/-- The one write path, with the entry as it was stamped. A refused write latches. -/
def append (t : Tick) (l : EntryLog) (e : Entry) : EntryLog × Except LogError Entry :=
  if l.removed then (l, .error .tombstoned)
  else if l.failed then (l, .error .entryLogFailed)
  else if t.cancelled then (l, .error .cancelled)
  else if l.index.turns e.turn = none ∧ e.kind ≠ .turnOpen then
    (l, .error (.turnNotHeld e.kind e.turn))
  else
    let stamped := l.stamp t e
    let line := c.marshal stamped ++ [newline]
    match l.checkBounds line.length with
    | some err => (l, .error err)
    | none =>
      match t.write with
      | .failed written =>
        ({ l with file := l.file ++ line.take written, failed := true }, .error .entryLogFailed)
      | .done =>
        match l.index.observeLine stamped line.length with
        | none =>
          ({ l with file := l.file ++ line }, .error (.turnNotHeld e.kind e.turn))
        | some idx => ({ l with file := l.file ++ line, index := idx.applyReverts }, .ok stamped)

/-- The turn_open of a turn under its minted id. -/
def turnOpenEntry (mint : String) (spec : TurnSpec) (ordinal : ℕ) : Entry where
  id := "t-" ++ mint
  turn := "t-" ++ mint
  payload := .turnOpen
    { prompt := spec.prompt
      source := spec.source
      run := spec.run
      nodePath := spec.nodePath
      sessionID := spec.sessionID
      n := ordinal }

/-- A turn opened at a stated ordinal, under a minted id. -/
def openTurnWithOrdinal (t : Tick) (mint : String) (l : EntryLog) (spec : TurnSpec)
    (ordinal : ℕ) : EntryLog × Except LogError Entry :=
  l.append c t (turnOpenEntry mint spec ordinal)

def openTurn (t : Tick) (mint : String) (l : EntryLog) (spec : TurnSpec) :
    EntryLog × Except LogError Entry :=
  l.openTurnWithOrdinal c t mint spec (l.index.turnCount + 1)

/-- Files an entry in the newest survivor, or in an event turn it opens: the turn_open it
announces and the entry as filed. The ticks are those of its appends, in order. -/
def appendBetweenTurns (ticks : ℕ → Tick) (mint : String) (l : EntryLog) (e : Entry) :
    EntryLog × Option Entry × Except LogError Entry :=
  match l.index.newestSurviving [] with
  | some turn =>
    let (l, res) := l.append c (ticks 0) { e with turn := turn }
    (l, none, res)
  | none =>
    match l.openTurn c (ticks 0) mint { source := .event } with
    | (l, .error err) => (l, none, .error err)
    | (l, .ok opened) =>
      let (l, res) := l.append c (ticks 1) { e with turn := opened.turn }
      (l, some opened, res)

def carrierClose (turn : String) : Entry where
  id := turn ++ ":close"
  turn := turn
  payload := .turnClose { outcome := .completed }

/-- Closes a turn this log opened to carry a record of its own. -/
def closeCarrier (t : Tick) (l : EntryLog) (turn : String) : EntryLog × Except LogError Entry :=
  l.append c t (carrierClose turn)

def reconciledEntry (rec : EntryReconciled) (turn : String) : Entry where
  id := reconciledEntryID rec
  turn := turn
  payload := .reconciled rec

def appendReconciledTo (t : Tick) (l : EntryLog) (rec : EntryReconciled) (turn : String) :
    EntryLog × Except LogError Entry :=
  l.append c t (reconciledEntry rec turn)

/-- Records that a merge looked at one signal: the turn_open it announces, and the record. -/
def appendReconciled (ticks : ℕ → Tick) (mint : String) (l : EntryLog) (rec : EntryReconciled) :
    EntryLog × Option Entry × Except LogError Entry :=
  if rec.turn = "" ↔ rec.session = "" then
    (l, none, .error (.reconciledFields rec.turn rec.session))
  else if rec.turn ≠ "" then
    let (l, res) := l.appendReconciledTo c (ticks 0) rec rec.turn
    (l, none, res)
  else match l.index.newestSurviving [] with
    | some turn =>
      let (l, res) := l.appendReconciledTo c (ticks 0) rec turn
      (l, none, res)
    | none =>
      match l.openTurn c (ticks 0) mint { source := .event } with
      | (l, .error err) => (l, none, .error err)
      | (l, .ok opened) =>
        match l.closeCarrier c (ticks 1) opened.turn with
        | (l, .error err) => (l, some opened, .error err)
        | (l, .ok _) =>
          let (l, res) := l.appendReconciledTo c (ticks 2) rec opened.turn
          (l, some opened, res)

/-- The turn_revert record of one rewind. -/
def revertRecord (fromTurn : String) (fromN : ℕ) (through : String) (cause : TurnRevertCause)
    (kasMessageID carrier : String) : Entry where
  id := fromTurn ++ ":revert"
  turn := carrier
  payload := .turnRevert { fromTurn, through, kasMessageID, cause, fromN }

/-- The flag a carrier minted by a revert that then failed takes. -/
def hideCarrier (l : EntryLog) (turn : String) : EntryLog :=
  { l with index := l.index.revert turn }

/-- Appends the record of a rewind: a carrier outside the window, one minted and closed when
none survives, and only then the record. -/
def revert (ticks : ℕ → Tick) (mint : String) (l : EntryLog) (fromTurn : String)
    (cause : TurnRevertCause) (kasMessageID : String) :
    EntryLog × Option Entry × Except LogError Entry :=
  match l.index.turns fromTurn with
  | none => (l, none, .error (.turnNotInLog fromTurn))
  | some st =>
    if st.reverted then (l, none, .error (.turnNotInLog fromTurn))
    else
      let (window, through) := l.index.revertWindow fromTurn
      match l.index.newestSurviving window with
      | some carrier =>
        let (l, res) := l.append c (ticks 0)
          (revertRecord fromTurn st.n through cause kasMessageID carrier)
        (l, none, res)
      | none =>
        match l.openTurnWithOrdinal c (ticks 0) mint { source := .revert }
          (l.index.survivingHighWater window + 1) with
        | (l, .error err) => (l, none, .error err)
        | (l, .ok opened) =>
          match l.closeCarrier c (ticks 1) opened.turn with
          | (l, .error err) => (l.hideCarrier opened.turn, some opened, .error err)
          | (l, .ok _) =>
            match l.append c (ticks 2)
              (revertRecord fromTurn st.n through cause kasMessageID opened.turn) with
            | (l, .error err) => (l.hideCarrier opened.turn, some opened, .error err)
            | (l, .ok record) => (l, some opened, .ok record)

@[simp] theorem turnOpenEntry_kind (mint : String) (spec : TurnSpec) (ordinal : ℕ) :
    (turnOpenEntry mint spec ordinal).kind = .turnOpen := rfl

@[simp] theorem carrierClose_kind (turn : String) : (carrierClose turn).kind = .turnClose := rfl

@[simp] theorem reconciledEntry_kind (rec : EntryReconciled) (turn : String) :
    (reconciledEntry rec turn).kind = .reconciled := rfl

@[simp] theorem revertRecord_kind (fromTurn : String) (fromN : ℕ) (through : String)
    (cause : TurnRevertCause) (kasMessageID carrier : String) :
    (revertRecord fromTurn fromN through cause kasMessageID carrier).kind = .turnRevert := rfl

/-- Refuses every later append. -/
def remove (l : EntryLog) : EntryLog := { l with removed := true }

end EntryLog

end Marotte
