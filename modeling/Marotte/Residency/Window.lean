import Marotte.Rail.Projection

/-! # The entries a view draws

A turn's entries are places of one sequence, the turn_open at zero. A view draws some of them, and
the text entries with nothing drawn between them are one prose run, which a slice takes whole.
-/
namespace Marotte.Residency
open Rail

/-- A half-open range of a turn's places. -/
structure EntryRange where
  start : ℕ
  stop : ℕ
  deriving DecidableEq, Repr

/-- The entry at a place, none for the turn_open and past the turn. -/
def entryAt (t : Turn) : ℕ → Option Entry
  | 0 => none
  | seq + 1 => t.body[seq]?

def turnSpan (t : Turn) : ℕ := t.body.length + 1

/-- Whether a view draws anything at an entry's own place. A steer is the reader's words, drawn in
the root lane whichever lane took it; a plan is drawn where it is its lane's first. -/
def entryRenders (e : Entry) (lane : String) (firstPlan : Option ℕ) : Bool :=
  if e.kind = .steer then lane = ""
  else if e.lane ≠ lane then false
  else
    match e.kind with
    | .turnOpen | .turnClose | .turnBind | .toolResult | .reconciled => false
    | .plan => firstPlan = some e.seq
    | _ => true

def firstPlanSeq (t : Turn) (lane : String) : Option ℕ :=
  (t.body.find? fun e => e.kind = .plan ∧ e.lane = lane).map Entry.seq

section Runs

variable (t : Turn) (lane : String) (firstPlan : Option ℕ)

/-- Whether anything is drawn at a place. -/
def draws (seq : ℕ) : Bool := (entryAt t seq).any fun e => entryRenders e lane firstPlan

/-- Whether a place holds a text entry that the view draws. -/
def inProseRun (seq : ℕ) : Bool :=
  (entryAt t seq).any fun e => e.kind = .text && entryRenders e lane firstPlan

/-- The walk down from a place: `first` is the lowest member found so far. -/
def runStartFrom : ℕ → ℕ → ℕ
  | 0, first => first
  | i + 1, first =>
    match entryAt t (i + 1) with
    | none => first
    | some e =>
      if inProseRun t lane firstPlan (i + 1) then runStartFrom i (i + 1)
      else if entryRenders e lane firstPlan then first
      else runStartFrom i first

/-- The walk up over the `n` places from one on. -/
def runEndFrom : ℕ → ℕ → ℕ → ℕ
  | 0, _, last => last
  | n + 1, i, last =>
    match entryAt t i with
    | none => last
    | some e =>
      if inProseRun t lane firstPlan i then runEndFrom n (i + 1) i
      else if entryRenders e lane firstPlan then last
      else runEndFrom n (i + 1) last

/-- The first place of the prose run a place sits in, or the place itself. -/
def runStart (seq : ℕ) : ℕ :=
  if inProseRun t lane firstPlan seq then runStartFrom t lane firstPlan (seq - 1) seq else seq

/-- The last place of the prose run a place sits in, or the place itself. -/
def runEnd (seq : ℕ) : ℕ :=
  if inProseRun t lane firstPlan seq then
    runEndFrom t lane firstPlan (turnSpan t - (seq + 1)) (seq + 1) seq
  else seq

/-- The prose run a place belongs to. -/
def proseRunAt (seq : ℕ) : Option EntryRange :=
  if inProseRun t lane firstPlan seq then
    some ⟨runStart t lane firstPlan seq, runEnd t lane firstPlan seq + 1⟩
  else none

/-- A range clamped into a turn and snapped to whole prose runs. -/
def sliceTurn (range : EntryRange) : EntryRange :=
  let start := min range.start (turnSpan t)
  let stop := min (max range.stop start) (turnSpan t)
  if start ≥ stop then ⟨start, stop⟩
  else ⟨runStart t lane firstPlan start, runEnd t lane firstPlan (stop - 1) + 1⟩

end Runs

/-! ## The planned window

One seed grows on both sides in turn, a place at a time, under a budget of drawn entries and one of
tool calls. A side stops at the end of the sequence, or at the entry that either budget refuses.
-/

/-- A budget, and what a stretch of entries costs against one. -/
structure TurnCost where
  entries : ℕ
  toolCalls : ℕ
  deriving DecidableEq, Repr

def residentEntries : ℕ := 320

def residentToolCalls : ℕ := 96

/-- The depth the window has on each side of its anchor. -/
def overscanEntries : ℕ := 24

def defaultBudget : TurnCost where
  entries := residentEntries
  toolCalls := residentToolCalls

/-- Where the reader is. -/
structure ResidencyAnchor where
  turnID : String
  seq : ℤ

/-- One place of the whole sequence: nothing is drawn at a free one. -/
structure Ordinal where
  isFree : Bool
  isTool : Bool
  deriving DecidableEq, Repr

/-- The places of one turn. -/
def turnOrdinals (t : Turn) (lane : String) : List Ordinal :=
  (List.range (turnSpan t)).map fun seq =>
    match entryAt t seq with
    | none => ⟨true, false⟩
    | some e =>
      let free := !entryRenders e lane (firstPlanSeq t lane)
      ⟨free, !free && e.kind = .toolCall⟩

def ordinals (turns : List Turn) (lane : String) : List Ordinal :=
  turns.flatMap (turnOrdinals · lane)

/-- The anchor's place in the sequence; the live edge where there is none. -/
def anchorPlace (turns : List Turn) (anchor : Option ResidencyAnchor) (total : ℕ) : ℕ :=
  match anchor with
  | none => total - 1
  | some a =>
    match turns.findIdx? (fun t => t.id = a.turnID) with
    | none => total - 1
    | some i =>
      let base := ((turns.take i).map turnSpan).sum
      let span := (turns[i]?.map turnSpan).getD 0
      if span = 0 then min base (total - 1) else base + min a.seq.toNat (span - 1)

/-- The two edges of a window, what lies between them, and which side is due. A side that is not
latched has a place before it. -/
structure Cursors (total : ℕ) where
  lo : ℕ
  hi : ℕ
  entries : ℕ
  toolCalls : ℕ
  headLatched : Bool
  tailLatched : Bool
  head : Bool
  hi_le : hi ≤ total
  lo_pos : headLatched = false → 0 < lo
  hi_lt : tailLatched = false → hi < total

section Grow

variable {os : List Ordinal} (b : TurnCost)

def isFree (os : List Ordinal) (i : ℕ) : Bool := (os[i]?.map Ordinal.isFree).getD false

def toolAt (os : List Ordinal) (i : ℕ) : ℕ := if (os[i]?.map Ordinal.isTool).getD false then 1 else 0

namespace Cursors

def seeded (os : List Ordinal) (place : ℕ) (h : place < os.length) : Cursors os.length where
  lo := place
  hi := place + 1
  entries := if isFree os place then 0 else 1
  toolCalls := toolAt os place
  headLatched := place = 0
  tailLatched := place + 1 = os.length
  head := true
  hi_le := h
  lo_pos := by
    intro hlatched
    have hne := of_decide_eq_false hlatched
    omega
  hi_lt := by
    intro hne
    have := of_decide_eq_false hne
    omega

/-- Whether the budgets refuse a place: a free one they never do. -/
def refuses (w : Cursors os.length) (next : ℕ) : Bool :=
  !isFree os next && (w.entries + 1 > b.entries || w.toolCalls + toolAt os next > b.toolCalls)

/-- What the next place adds to the entries. -/
def entriesWith (w : Cursors os.length) (next : ℕ) : ℕ :=
  if isFree os next then w.entries else w.entries + 1

/-- One step of the side that is due. -/
def step (w : Cursors os.length) : Cursors os.length :=
  if w.head then
    if hopen : w.headLatched = false then
      if w.refuses b (w.lo - 1) then { w with headLatched := true, lo_pos := by simp, head := false }
      else
        { w with
          lo := w.lo - 1
          entries := w.entriesWith (w.lo - 1)
          toolCalls := w.toolCalls + toolAt os (w.lo - 1)
          headLatched := w.lo - 1 = 0
          lo_pos := by
            intro hlatched
            have hne := of_decide_eq_false hlatched
            omega
          head := false }
    else { w with head := false }
  else
    if hopen : w.tailLatched = false then
      if w.refuses b w.hi then { w with tailLatched := true, hi_lt := by simp, head := true }
      else
        { w with
          hi := w.hi + 1
          entries := w.entriesWith w.hi
          toolCalls := w.toolCalls + toolAt os w.hi
          tailLatched := w.hi + 1 = os.length
          hi_le := w.hi_lt hopen
          hi_lt := by
            intro hne
            have hlt := w.hi_lt hopen
            have := of_decide_eq_false hne
            omega
          head := true }
    else { w with head := true }

/-- What is left to take and to latch, and whether the side that is due has nothing to do. -/
def remaining (w : Cursors os.length) : ℕ :=
  2 * (w.lo + (os.length - w.hi) + (!w.headLatched).toNat + (!w.tailLatched).toNat) +
    (if w.head then w.headLatched else w.tailLatched).toNat

theorem remaining_step (w : Cursors os.length) (h : ¬(w.headLatched && w.tailLatched)) :
    (w.step b).remaining < w.remaining := by
  have hhi := w.hi_le
  rw [step]
  by_cases hhead : w.head = true
  · rw [if_pos hhead]
    by_cases hlatched : w.headLatched = false
    · have hlo := w.lo_pos hlatched
      rw [dif_pos hlatched]
      split
      · simp only [remaining, hhead, hlatched]
        cases w.tailLatched <;> simp
        omega
      · simp only [remaining, hhead, hlatched]
        cases w.tailLatched <;> cases decide (w.lo - 1 = 0) <;> simp <;> omega
    · rw [dif_neg hlatched]
      simp only [Bool.not_eq_false] at hlatched
      have htail : w.tailLatched = false := by simpa [hlatched] using h
      simp [remaining, hhead, hlatched, htail]
  · rw [if_neg hhead]
    simp only [Bool.not_eq_true] at hhead
    by_cases hlatched : w.tailLatched = false
    · have hlt := w.hi_lt hlatched
      rw [dif_pos hlatched]
      split
      · simp only [remaining, hhead, hlatched]
        cases w.headLatched <;> simp
        omega
      · simp only [remaining, hhead, hlatched]
        cases w.headLatched <;> cases decide (w.hi + 1 = os.length) <;> simp <;> omega
    · rw [dif_neg hlatched]
      simp only [Bool.not_eq_false] at hlatched
      have hopen : w.headLatched = false := by simpa [hlatched] using h
      simp [remaining, hhead, hlatched, hopen]

/-- The loop, to where both sides are latched. -/
def grow (w : Cursors os.length) : Cursors os.length :=
  if _ : w.headLatched && w.tailLatched then w else (w.step b).grow
termination_by w.remaining
decreasing_by exact remaining_step b w ‹_›

end Cursors

end Grow

/-! ## The plan -/

@[simp] theorem length_turnOrdinals (t : Turn) (lane : String) :
    (turnOrdinals t lane).length = turnSpan t := by
  rw [turnOrdinals, List.length_map, List.length_range]

theorem length_ordinals (turns : List Turn) (lane : String) :
    (ordinals turns lane).length = (turns.map turnSpan).sum := by
  simp [ordinals, List.length_flatMap]

theorem anchorPlace_lt {turns : List Turn} (lane : String) (anchor : Option ResidencyAnchor)
    (h : (ordinals turns lane).length ≠ 0) :
    anchorPlace turns anchor (ordinals turns lane).length < (ordinals turns lane).length := by
  cases anchor with
  | none =>
    rw [anchorPlace]
    omega
  | some a =>
    rw [anchorPlace]
    split
    · omega
    · next i hi =>
      obtain ⟨hlt, -⟩ := List.findIdx?_eq_some_iff_getElem.mp hi
      have hspan : 0 < turnSpan turns[i] := Nat.succ_pos _
      have hsum : ((turns.take i).map turnSpan).sum + turnSpan turns[i] ≤
          (turns.map turnSpan).sum := by
        conv_rhs => rw [← List.take_append_drop i turns, List.drop_eq_getElem_cons hlt]
        rw [List.map_append, List.sum_append, List.map_cons, List.sum_cons]
        omega
      rw [length_ordinals] at h ⊢
      simp only [List.getElem?_eq_getElem hlt, Option.map_some, Option.getD_some]
      rw [if_neg (by omega)]
      omega

/-- The window over a sequence that has a place. -/
def residencyWindow (turns : List Turn) (anchor : Option ResidencyAnchor) (lane : String)
    (b : TurnCost) (h : (ordinals turns lane).length ≠ 0) :
    Cursors (ordinals turns lane).length :=
  (Cursors.seeded _ _ (anchorPlace_lt lane anchor h)).grow b

/-- The part of a window that lies in a turn whose first place is `base`. -/
def turnRange (lo hi base : ℕ) (t : Turn) : EntryRange :=
  ⟨max lo base - base, min hi (base + turnSpan t) - base⟩

/-- The slice of every turn that the window touches. -/
def planFrom (lane : String) (lo hi : ℕ) :
    ℕ → List Turn → List (String × EntryRange) → List (String × EntryRange)
  | _, [], plan => plan
  | base, t :: ts, plan =>
    let range := turnRange lo hi base t
    planFrom lane lo hi (base + turnSpan t) ts
      (if range.start < range.stop then
        Keyed.set Prod.fst plan (t.id, sliceTurn t lane (firstPlanSeq t lane) range)
      else plan)

/-- What each turn's body may hold. -/
def planResidency (turns : List Turn) (anchor : Option ResidencyAnchor) (lane : String)
    (b : TurnCost) : List (String × EntryRange) :=
  if h : (ordinals turns lane).length ≠ 0 then
    let w := residencyWindow turns anchor lane b h
    planFrom lane w.lo w.hi 0 turns []
  else []

end Marotte.Residency
