import Marotte.EntryLog.Views
import Marotte.Library.Keyed

/-! # The turns a browser draws

A page of the log is walked into turns, each with its turn_open first, and every turn that has
something to show becomes a card. A card rewinds to the prompt of the next one.
-/
namespace Marotte.Rail

/-- The entry a lane still streams: it never reaches the log. -/
structure OpenEntry where
  turn : String
  lane : String
  id : String
  text : String
  n : ℕ
  deriving DecidableEq, Repr

/-- One held turn; `closeAt` is where its turn_close was appended. -/
structure TurnState where
  entries : List Entry
  openEntries : List OpenEntry := []
  closeAt : Option ℕ := none

/-- What a projection reads of the window. -/
structure TurnSource where
  turns : String → Option TurnState := fun _ => none
  turnOrder : List String := []

/-! ## A page walked into turns -/

namespace TurnSource

variable (src : TurnSource)

def setTurn (turn : String) (st : TurnState) : TurnSource :=
  { src with turns := Function.update src.turns turn (some st) }

/-- One entry of a page: a turn_open seats its turn, and an entry that is not its turn's next is
left to the range read. -/
def walk (e : Entry) : TurnSource :=
  if e.kind = .turnOpen then
    if (src.turns e.turn).isSome then src
    else { src.setTurn e.turn { entries := [e] } with turnOrder := src.turnOrder ++ [e.turn] }
  else
    match src.turns e.turn with
    | none => src
    | some st =>
      if e.seq ≠ st.entries.length then src
      else src.setTurn e.turn
        { st with
          entries := st.entries ++ [e]
          closeAt := if e.kind = .turnClose then some e.seq else st.closeAt }

def seatOpenEntry (o : OpenEntry) : TurnSource :=
  match src.turns o.turn with
  | none => src
  | some st =>
    src.setTurn o.turn { st with openEntries := Keyed.set OpenEntry.lane st.openEntries o }

end TurnSource

def buildPageTurns (entries : List Entry) (tails : List OpenEntry) : TurnSource :=
  tails.foldl TurnSource.seatOpenEntry (entries.foldl TurnSource.walk {})

/-! ## The projection -/

/-- A turn's opening entry; absent only where the window never saw it. -/
def turnOpenOf (t : TurnState) : Option EntryTurnOpen :=
  match t.entries.head?.map Entry.payload with
  | some (.turnOpen p) => some p
  | _ => none

/-- The payload of the last turn_close. -/
def closeOfBody (body : List Entry) : Option EntryTurnClose :=
  body.reverse.findSome? fun e =>
    match e.payload with
    | .turnClose p => some p
    | _ => none

/-- Whether an entry renders at its own position, by its lane and kind; `plans` counts the plans
met before. -/
def rendersFrom : ℕ → List Entry → Bool
  | _, [] => false
  | plans, e :: es =>
    if e.lane ≠ "" then rendersFrom plans es
    else match e.kind with
      | .turnBind | .toolResult | .turnClose | .reconciled => rendersFrom plans es
      | .plan => if plans + 1 > 1 then rendersFrom (plans + 1) es else true
      | _ => true

/-- Whether a turn is drawn: a reader opened it, something streams in its own lane, or some entry
renders. -/
def turnIsDrawn (t : TurnState) : Bool :=
  match turnOpenOf t with
  | none => false
  | some opening =>
    match opening.source with
    | .prompt | .localShell | .emptyRetry => true
    | _ => t.openEntries.any (fun o => o.lane = "") || rendersFrom 0 t.entries.tail

/-- One card of the transcript. -/
structure Turn where
  id : String
  n : ℕ
  trigger : Option EntryPrompt
  body : List Entry
  openEntries : List OpenEntry
  ts : ℤ
  outcome : TurnOutcome
  rewindTo : Option EntryPrompt

/-- The card of a turn; what a rewind addresses is the caller's. -/
def turnOf (id : String) (st : TurnState) (opening : EntryTurnOpen)
    (rewindTo : Option EntryPrompt) : Turn :=
  let body := st.entries.tail
  { id
    n := opening.n
    trigger := opening.prompt
    body
    openEntries := st.openEntries
    ts := (st.entries.head?.map Entry.ts).getD 0
    outcome := ((closeOfBody body).map EntryTurnClose.outcome).getD .running
    rewindTo }

/-- A held turn's card, if it has one. -/
def card (src : TurnSource) (id : String) : Option Turn :=
  (src.turns id).bind fun st =>
    match turnOpenOf st with
    | none => none
    | some opening => if turnIsDrawn st then some (turnOf id st opening none) else none

/-- Every card given the prompt of the next. -/
def rewound : List Turn → List Turn
  | [] => []
  | t :: ts => { t with rewindTo := ts.head?.bind Turn.trigger } :: rewound ts

/-- The window read into the cards of the transcript, in file order. -/
def projectTurns (src : TurnSource) : List Turn := rewound (src.turnOrder.filterMap (card src))

/-- The prompt of the first drawn turn among the ids given. -/
def nextTrigger (src : TurnSource) : List String → Option EntryPrompt
  | [] => none
  | id :: ids =>
    match src.turns id with
    | none => nextTrigger src ids
    | some st =>
      if turnIsDrawn st then (turnOpenOf st).bind EntryTurnOpen.prompt else nextTrigger src ids

/-- One turn of the window, with the prompt found behind it. -/
def projectTurn (src : TurnSource) (turnID : String) : Option Turn :=
  match src.turnOrder.idxOf? turnID with
  | none => none
  | some i =>
    (src.turns turnID).bind fun st =>
      match turnOpenOf st with
      | none => none
      | some opening =>
        if turnIsDrawn st then
          some (turnOf turnID st opening (nextTrigger src (src.turnOrder.drop (i + 1))))
        else none

/-! ## One turn alone and the whole pass -/

variable {src : TurnSource}

theorem card_id {id : String} {t : Turn} (h : card src id = some t) : t.id = id := by
  rw [card, Option.bind_eq_some_iff] at h
  obtain ⟨st, -, h⟩ := h
  split at h
  · cases h
  · split at h
    · cases h
      rfl
    · cases h

theorem find?_rewound_of_notMem {ids : List String} {id : String} (h : id ∉ ids) :
    (rewound (ids.filterMap (card src))).find? (fun t => t.id = id) = none := by
  induction ids with
  | nil => rfl
  | cons other ids ih =>
    rw [List.mem_cons, not_or] at h
    cases hcard : card src other with
    | none =>
      rw [List.filterMap_cons_none hcard]
      exact ih h.2
    | some t =>
      have hid : t.id ≠ id := by
        rw [card_id hcard]
        exact Ne.symm h.1
      rw [List.filterMap_cons_some hcard, rewound, List.find?_cons_of_neg (by simpa using hid)]
      exact ih h.2

/-- The next card's prompt is what the walk from a turn's own place finds. -/
theorem nextTrigger_eq (ids : List String) :
    nextTrigger src ids = (ids.filterMap (card src)).head?.bind Turn.trigger := by
  induction ids with
  | nil => rfl
  | cons id ids ih =>
    rw [nextTrigger]
    cases hst : src.turns id with
    | none =>
      have hcard : card src id = none := by simp [card, hst]
      rw [List.filterMap_cons_none hcard]
      exact ih
    | some st =>
      by_cases hdrawn : turnIsDrawn st
      · cases hopen : turnOpenOf st with
        | none => simp [turnIsDrawn, hopen] at hdrawn
        | some opening =>
          have hcard : card src id = some (turnOf id st opening none) := by
            simp [card, hst, hopen, hdrawn]
          rw [List.filterMap_cons_some hcard]
          simp [hdrawn, hopen, turnOf]
      · have hcard : card src id = none := by
          rw [card, hst, Option.bind_some]
          split
          · rfl
          · exact if_neg hdrawn
        rw [List.filterMap_cons_none hcard]
        simpa [hdrawn] using ih

theorem find?_rewound {ids : List String} (hnodup : ids.Nodup) {id : String} {i : ℕ}
    (hi : ids.idxOf? id = some i) :
    (rewound (ids.filterMap (card src))).find? (fun t => t.id = id) =
      (card src id).map fun t =>
        { t with rewindTo := nextTrigger src (ids.drop (i + 1)) } := by
  induction ids generalizing i with
  | nil => cases hi
  | cons other ids ih =>
    rw [List.nodup_cons] at hnodup
    rw [List.idxOf?_cons] at hi
    by_cases heq : other = id
    · subst heq
      simp only [beq_self_eq_true, if_true, Option.some.injEq] at hi
      subst hi
      cases hcard : card src other with
      | none =>
        rw [List.filterMap_cons_none hcard, find?_rewound_of_notMem hnodup.1]
        rfl
      | some t =>
        rw [List.filterMap_cons_some hcard, rewound,
          List.find?_cons_of_pos (by simpa using card_id hcard), List.drop_succ_cons,
          List.drop_zero, nextTrigger_eq]
        rfl
    · rw [if_neg (by simpa using heq), Option.map_eq_some_iff] at hi
      obtain ⟨j, hj, rfl⟩ := hi
      rw [List.drop_succ_cons, ← ih hnodup.2 hj]
      cases hcard : card src other with
      | none => rw [List.filterMap_cons_none hcard]
      | some t =>
        have hid : t.id ≠ id := by rwa [card_id hcard]
        rw [List.filterMap_cons_some hcard, rewound, List.find?_cons_of_neg (by simpa using hid)]

/-- A turn projected alone is its element of the whole pass. -/
theorem projectTurn_eq (hnodup : src.turnOrder.Nodup) (id : String) :
    projectTurn src id = (projectTurns src).find? (fun t => t.id = id) := by
  rw [projectTurn, projectTurns]
  cases hi : src.turnOrder.idxOf? id with
  | none => rw [find?_rewound_of_notMem (List.idxOf?_eq_none_iff.mp hi)]
  | some i =>
    rw [find?_rewound hnodup hi, card]
    cases src.turns id with
    | none => rfl
    | some st =>
      simp only [Option.bind_some]
      cases turnOpenOf st with
      | none => rfl
      | some opening =>
        by_cases hdrawn : turnIsDrawn st
        · simp [hdrawn, turnOf]
        · simp [hdrawn]

end Marotte.Rail
