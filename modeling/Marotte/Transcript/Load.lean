import Marotte.Transcript.Log

/-! # The window a browser holds of a chat

The turns that are held, by id and in order, the reads in flight, and what each frame does. A
frame that does not fit where it says it goes is a hole, and asks for a read of its turn.
-/
namespace Marotte.Transcript

/-- One held turn: `closeAt` is where its turn_close stands. -/
structure TurnState where
  entries : List Entry
  openEntries : List OpenEntry := []
  closeAt : Option ℕ := none

inductive Residency where
  | loaded | evicted | partialWindow | loadFailed
  deriving DecidableEq

/-- What a read is answered with: entries and open tails, or nothing usable. -/
abbrev Answer := Option (List Entry × List OpenEntry)

/-- A page read in flight: the newest page, or the one before a turn. -/
structure Load where
  before : Option String
  heldAtRequest : List String
  answer : Option Answer := none

/-- A turn's range read in flight. -/
structure Repair where
  turn : String
  after : Option ℕ
  answer : Option Answer := none

structure Client where
  turns : String → Option TurnState := fun _ => none
  turnOrder : List String := []
  residency : Option Residency := none
  reverted : List String := []
  load : Option Load := none
  repairs : List Repair := []

namespace TurnState

variable (st : TurnState)

def push (e : Entry) : TurnState :=
  { st with
    entries := st.entries ++ [e]
    closeAt := if e.kind = .turnClose then some e.seq else st.closeAt }

def setOpen (o : OpenEntry) : TurnState :=
  { st with openEntries := Keyed.set OpenEntry.lane st.openEntries o }

def openIn (lane : String) : Option OpenEntry := Keyed.find OpenEntry.lane st.openEntries lane

/-- The newest seq held. -/
def newestSeq : ℕ := st.entries.length - 1

end TurnState

namespace Client

variable (c : Client)

def setTurn (turn : String) (st : TurnState) : Client :=
  { c with turns := Function.update c.turns turn (some st) }

@[simp] theorem turns_setTurn_self (turn : String) (st : TurnState) :
    (c.setTurn turn st).turns turn = some st := Function.update_self ..

theorem turns_setTurn_of_ne {turn turn' : String} (st : TurnState) (h : turn' ≠ turn) :
    (c.setTurn turn st).turns turn' = c.turns turn' := Function.update_of_ne h ..

/-! ## Reads asked for -/

def markWindowStale : Client :=
  if c.residency = some .loaded then { c with residency := some .partialWindow } else c

/-- One read for each turn: a burst of holes asks once. -/
def requestTurnRange (turn : String) (after : Option ℕ) : Client :=
  if turn ∈ c.repairs.map Repair.turn then c
  else { c with repairs := c.repairs ++ [{ turn, after }] }

def markHole (turn : String) (after : Option ℕ) : Client :=
  c.markWindowStale.requestTurnRange turn after

/-- A page asked for, in place of the one in flight. -/
def loadMessages (before : Option String) : Client :=
  { c with load := some {
      before
      heldAtRequest := if before.isNone then c.turnOrder else [] } }

/-- Every read a revert could be answered with: the page, asked for again when it was the newest,
and the range reads of the dropped turns. -/
def abortReadsForRevert (turns : List String) : Client :=
  let c := match c.load with
    | none => c
    | some load => if load.before.isNone then c.loadMessages none else { c with load := none }
  { c with repairs := c.repairs.filter (·.turn ∉ turns) }

/-! ## Frames -/

def noteResidentMutation : Client :=
  if c.residency = some .evicted then { c with residency := some .partialWindow } else c

def openTurn (e : Entry) : Client :=
  if (c.turns e.turn).isSome then c
  else
    let c := c.noteResidentMutation.setTurn e.turn { entries := [e] }
    { c with turnOrder := c.turnOrder ++ [e.turn] }

def heldOrdinal (turn : String) : Option ℕ :=
  (c.turns turn).bind fun st => Log.ordinalOf st.entries

/-- The held turns a revert drops: every one at or above `fromN` but the carrier. -/
def droppedBy (carrier : String) (fromN : ℕ) : List String :=
  c.turnOrder.filter fun id => id ≠ carrier ∧ (c.heldOrdinal id).any (fromN ≤ ·)

def applyRevert (e : Entry) : Client :=
  match e.payload with
  | .turnRevert _ fromN =>
    let dropped := c.droppedBy e.turn fromN
    { c with
      turns := fun id => if id ∈ dropped then none else c.turns id
      turnOrder := c.turnOrder.filter (· ∉ dropped)
      reverted := c.reverted ++ dropped }.abortReadsForRevert dropped
  | _ => c

/-- A sealed entry at the position its seq claims: the next one, a redelivery, or a hole. -/
def appendEntry (e : Entry) : Client :=
  match c.turns e.turn with
  | none => if e.kind = .turnRevert then c.applyRevert e else c.markHole e.turn none
  | some st =>
    if e.seq ≠ st.entries.length then
      if st.entries[e.seq]?.map Entry.id = some e.id then c
      else c.markHole e.turn (some st.newestSeq)
    else
      let c := c.noteResidentMutation.setTurn e.turn (st.push e)
      if e.kind = .turnRevert then c.applyRevert e else c

def openEntry (o : OpenEntry) : Client :=
  match c.turns o.turn with
  | none => c.markHole o.turn none
  | some st => c.setTurn o.turn (st.setOpen o)

def applyDelta (turn id lane : String) (n : ℕ) (delta : String) : Client :=
  match c.turns turn with
  | none => c.markHole turn none
  | some st =>
    match st.openIn lane with
    | some o =>
      if o.id = id ∧ n = o.n + 1 then
        c.setTurn turn (st.setOpen { o with text := o.text ++ delta, n })
      else c.markHole turn (some st.newestSeq)
    | none => c.markHole turn (some st.newestSeq)

def sealEntry (turn id lane : String) (seq : ℕ) (ts : ℤ) (n : ℕ) : Client :=
  match c.turns turn with
  | none => c.markHole turn none
  | some st =>
    match st.openIn lane with
    | some o =>
      if o.id = id ∧ n = o.n then
        (c.setTurn turn { st with
          openEntries := Keyed.erase OpenEntry.lane st.openEntries lane }).appendEntry
            { id := o.id, turn, lane, payload := .say o.kind o.text, seq, ts }
      else c.markHole turn (some st.newestSeq)
    | none => c.markHole turn (some st.newestSeq)

def receive : Frame → Client
  | .turnOpened e => c.openTurn e
  | .entryOpened o => c.openEntry o
  | .entryDelta turn id lane n delta => c.applyDelta turn id lane n delta
  | .entrySealed turn id lane seq ts n => c.sealEntry turn id lane seq ts n
  | .entryAppended e => c.appendEntry e

/-- The idle sweep drops the window. -/
def evict : Client :=
  { c with turns := fun _ => none, turnOrder := [], residency := some .evicted }

end Client

/-! ## What the answers of reads do to a window

A page is a point-in-time read: it is walked into turns and merged with what the window holds. A
range read continues one turn from its end, or seats a turn that is not held.
-/

/-- The turns a page describes, and the gaps of its walk: the seq held before each, or none for a
turn whose turn_open the page has not. -/
structure PageTurns where
  turns : String → Option TurnState := fun _ => none
  order : List String := []
  holes : List (String × Option ℕ) := []

namespace PageTurns

variable (p : PageTurns)

def setTurn (turn : String) (st : TurnState) : PageTurns :=
  { p with turns := Function.update p.turns turn (some st) }

def walk (e : Entry) : PageTurns :=
  if e.kind = .turnOpen then
    if (p.turns e.turn).isSome then p
    else
      let p := p.setTurn e.turn { entries := [e] }
      { p with order := p.order ++ [e.turn] }
  else
    match p.turns e.turn with
    | none => { p with holes := Keyed.set Prod.fst p.holes (e.turn, none) }
    | some st =>
      if e.seq ≠ st.entries.length then
        if e.turn ∈ p.holes.map Prod.fst then p
        else { p with holes := Keyed.set Prod.fst p.holes (e.turn, some st.newestSeq) }
      else p.setTurn e.turn (st.push e)

def seatOpenEntry (o : OpenEntry) : PageTurns :=
  match p.turns o.turn with
  | none => { p with holes := Keyed.set Prod.fst p.holes (o.turn, none) }
  | some st => p.setTurn o.turn (st.setOpen o)

end PageTurns

def buildPageTurns (entries : List Entry) (tails : List OpenEntry) : PageTurns :=
  tails.foldl PageTurns.seatOpenEntry (entries.foldl PageTurns.walk {})

namespace TurnState

/-- Entries taken from the turn's own end for as long as each is the next. -/
def seatRun (st : TurnState) : List Entry → TurnState
  | [] => st
  | e :: es => if e.seq = st.entries.length then (st.push e).seatRun es else st

/-- A held tail kept over the page's, unless the entries hold it sealed. -/
def keepOpen (st : TurnState) (o : OpenEntry) : TurnState :=
  if o.id ∈ st.entries.map Entry.id then st
  else match st.openIn o.lane with
    | none => st.setOpen o
    | some g => if g.id = o.id ∧ g.n < o.n then st.setOpen o else st

/-- A page's turn with what the held copy has past the page's end. -/
def mergeTurn (page held : TurnState) : TurnState :=
  held.openEntries.foldl keepOpen (page.seatRun (held.entries.drop page.entries.length))

/-- The tails of an answer in place of the held ones. -/
def seatTails (st : TurnState) (turn : String) (tails : List OpenEntry) : TurnState :=
  (tails.filter (·.turn = turn)).foldl setOpen { st with openEntries := [] }

def maxSafeInteger : ℕ := 9007199254740991

def ordinal (st : TurnState) : ℕ := (Log.ordinalOf st.entries).getD maxSafeInteger

end TurnState

namespace Client

variable (c : Client)

/-- The held turns that are older than a page's first, where the two overlap. -/
def keptBefore (page : PageTurns) : List String :=
  match page.order.head?.bind (c.turnOrder.idxOf? ·) with
  | some anchor => c.turnOrder.take anchor
  | none => []

/-- The turns past a page's last that were opened while it was read. -/
def arrivedSince (page : PageTurns) (heldAtRequest : List String) : List String :=
  match page.order.getLast?.bind (c.turnOrder.idxOf? ·) with
  | some tail => (c.turnOrder.drop (tail + 1)).filter fun id =>
      (page.turns id).isNone ∧ id ∉ heldAtRequest
  | none => []

/-- An older page's turns go before the window; a newest page replaces it, but for the turns that
are older than its own and those that arrived while it was read. -/
def applyPage (page : PageTurns) (older : Bool) (heldAtRequest : List String) : Client :=
  if older then
    let fresh := page.order.filter fun id => (c.turns id).isNone
    { c with
      turns := fun id => if id ∈ fresh then page.turns id else c.turns id
      turnOrder := fresh ++ c.turnOrder }
  else
    let kept := c.keptBefore page
    let arrived := c.arrivedSince page heldAtRequest
    let turns := fun id =>
      if id ∈ arrived then c.turns id
      else if id ∈ page.order then
        (page.turns id).map fun st => ((c.turns id).map st.mergeTurn).getD st
      else if id ∈ kept then c.turns id
      else none
    { c with
      turns
      turnOrder := (kept ++ page.order ++ arrived).filter fun id => (turns id).isSome }

def loadFails : Client :=
  match c.load with
  | none => c
  | some load =>
    { c with
      load := none
      residency := if load.before.isNone then some .loadFailed else c.residency }

/-- The page in flight arrives, once it is answered. -/
def pageArrives : Client :=
  match c.load with
  | none => c
  | some load =>
    match load.answer with
    | none => c
    | some none => c.loadFails
    | some (some (entries, tails)) =>
      let page := buildPageTurns entries tails
      let c := { c.applyPage page load.before.isSome load.heldAtRequest with load := none }
      let c := if load.before.isNone then { c with residency := some .loaded } else c
      if page.holes = [] then c
      else page.holes.foldl (fun c hole => c.requestTurnRange hole.1 hole.2) c.markWindowStale

/-- A turn the window did not hold, at the position of its ordinal. -/
def insertTurnByOrdinal (turn : String) (st : TurnState) : Client :=
  let c := c.setTurn turn st
  let position := c.turnOrder.findIdx fun id => (c.turns id).any (st.ordinal < ·.ordinal)
  { c with turnOrder := c.turnOrder.insertIdx position turn }

def applyTurnRange (turn : String) (entries : List Entry) (tails : List OpenEntry) : Client :=
  if turn ∈ c.reverted then c
  else
    let held := (c.turns turn).getD { entries := [] }
    let st := held.seatRun entries
    if st.entries = [] then c
    else
      let applied := st.entries.length - held.entries.length
      let st := st.seatTails turn tails
      let c := if (c.turns turn).isNone then c.insertTurnByOrdinal turn st else c.setTurn turn st
      if applied < entries.length then
        -- a second gap is asked about only where this answer fitted anything
        if 0 < applied then c.requestTurnRange turn (some st.newestSeq) else c
      else if c.residency = some .partialWindow ∧ c.repairs = [] then
        { c with residency := some .loaded }
      else c

def endRepair (turn : String) : Client :=
  { c with repairs := Keyed.erase Repair.turn c.repairs turn }

/-- A turn's range read arrives, once it is answered. -/
def rangeArrives (turn : String) : Client :=
  match Keyed.find Repair.turn c.repairs turn with
  | none => c
  | some r =>
    match r.answer with
    | none => c
    | some none => c.endRepair turn
    | some (some (entries, tails)) => (c.endRepair turn).applyTurnRange turn entries tails

end Client
end Marotte.Transcript
