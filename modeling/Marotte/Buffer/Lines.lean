import Marotte.Library.BinaryHeap
import Marotte.Library.Keyed
import Mathlib.Algebra.Order.Ring.Int
import Mathlib.Data.List.GetD

/-! # The line tracker

The lines the agent changed in the files of a chat, with the heap of files by their last turn that
one is evicted from.
-/
namespace Marotte.Buffer

abbrev Text := List Char

def maxLineRangesPerFile : ℕ := 200

def maxFilesPerChat : ℕ := 500

structure LineRange where
  kind : Text
  startLine : ℤ
  endLine : ℤ
  turn : ℤ
  deriving DecidableEq

/-- What a file's place in the heap is known by. -/
structure FileHeapEntry where
  path : Text
  lastTurn : ℤ
  index : ℤ

/-- The ranges of a path. -/
structure File where
  path : Text
  ranges : List LineRange

/-- The maps and the heap of a chat hold entries by the order in which they were made. -/
structure ChatLineState where
  ranges : List File
  entries : Text → Option ℕ
  h : List ℕ
  entry : ℕ → FileHeapEntry
  made : ℕ

namespace ChatLineState

/-! ## The heap -/

def setIndex (s : ChatLineState) (e : ℕ) (index : ℤ) : ChatLineState :=
  { s with entry := Function.update s.entry e { s.entry e with index := index } }

/-- The entry at a place of the heap. -/
def get (s : ChatLineState) (i : ℕ) : ℕ :=
  s.h.getD i 0

def swap (s : ChatLineState) (i j : ℕ) : ChatLineState :=
  ({ s with h := (s.h.set i (s.get j)).set j (s.get i) }.setIndex (s.get j) i).setIndex (s.get i) j

def lastTurn (s : ChatLineState) (i : ℕ) : ℤ :=
  (s.entry (s.get i)).lastTurn

@[simp] theorem h_setIndex (s : ChatLineState) (e : ℕ) (index : ℤ) :
    (s.setIndex e index).h = s.h := rfl

@[simp] theorem path_setIndex (s : ChatLineState) (e : ℕ) (index : ℤ) (e' : ℕ) :
    ((s.setIndex e index).entry e').path = (s.entry e').path := by
  by_cases he : e' = e
  · subst he
    simp [setIndex]
  · simp [setIndex, he]

@[simp] theorem lastTurn_setIndex (s : ChatLineState) (e : ℕ) (index : ℤ) (e' : ℕ) :
    ((s.setIndex e index).entry e').lastTurn = (s.entry e').lastTurn := by
  by_cases he : e' = e
  · subst he
    simp [setIndex]
  · simp [setIndex, he]

theorem getElem?_swap (s : ChatLineState) {i j : ℕ} (hi : i < s.h.length) (hj : j < s.h.length)
    (k : ℕ) : (s.swap i j).h[k]? = s.h[Equiv.swap i j k]? := by
  have hget : ∀ k, k < s.h.length → s.h[k]? = some (s.get k) := fun k hk => by
    rw [get, List.getD_eq_getElem _ _ hk, List.getElem?_eq_getElem hk]
  simp only [swap, h_setIndex, List.getElem?_set, List.length_set]
  by_cases hkj : j = k
  · subst hkj
    rw [if_pos rfl, if_pos hj, Equiv.swap_apply_right, hget i hi]
  · rw [if_neg hkj]
    by_cases hki : i = k
    · subst hki
      rw [if_pos rfl, if_pos hi, Equiv.swap_apply_left, hget j hj]
    · rw [if_neg hki, Equiv.swap_apply_of_ne_of_ne (Ne.symm hki) (Ne.symm hkj)]

/-- The heap of a chat under the exchanges of `container/heap`. -/
def fileHeap : BinaryHeap.Interface ChatLineState ℤ where
  len s := s.h.length
  key := lastTurn
  swap := swap
  len_swap s i j := by simp [swap]
  key_swap s i j hi hj k := by
    have hget : (s.swap i j).get k = s.get (Equiv.swap i j k) := by
      simp only [get, List.getD_eq_getElem?_getD, getElem?_swap s hi hj]
    rw [lastTurn, lastTurn, hget]
    simp [swap]

def push (s : ChatLineState) (e : ℕ) : ChatLineState :=
  let s := s.setIndex e s.h.length
  BinaryHeap.up fileHeap { s with h := s.h ++ [e] } s.h.length

/-- The entry that a pop takes off the end. -/
def pop (s : ChatLineState) : ChatLineState × ℕ :=
  let s := BinaryHeap.popped fileHeap s
  let e := s.get (s.h.length - 1)
  ({ s.setIndex e (-1) with h := s.h.dropLast }, e)

/-! ## Records -/

def evict (s : ChatLineState) : ChatLineState :=
  let (s, e) := s.pop
  let path := (s.entry e).path
  { s with
    ranges := Keyed.erase File.path s.ranges path
    entries := Function.update s.entries path none }

def rangesOf (s : ChatLineState) (path : Text) : Option (List LineRange) :=
  (Keyed.find File.path s.ranges path).map File.ranges

/-- The file's ranges with one more, the oldest dropped when they are full. -/
def addRange (s : ChatLineState) (path : Text) (r : LineRange) : ChatLineState :=
  let existing := (s.rangesOf path).getD []
  let existing := if maxLineRangesPerFile ≤ existing.length then existing.drop 1 else existing
  { s with ranges := Keyed.set File.path s.ranges ⟨path, existing ++ [r]⟩ }

def setLastTurn (s : ChatLineState) (e : ℕ) (turn : ℤ) : ChatLineState :=
  { s with entry := Function.update s.entry e { s.entry e with lastTurn := turn } }

/-- The file's entry is updated or a new one is made. -/
def touch (s : ChatLineState) (path : Text) (turn : ℤ) : ChatLineState :=
  match s.entries path with
  | some e => BinaryHeap.fix fileHeap (s.setLastTurn e turn) (s.entry e).index.toNat
  | none =>
    let e := s.made
    { s with
      entry := Function.update s.entry e ⟨path, turn, 0⟩
      entries := Function.update s.entries path (some e)
      made := s.made + 1 }.push e

def record (s : ChatLineState) (path : Text) (r : LineRange) : ChatLineState :=
  let s := if s.rangesOf path = none ∧ maxFilesPerChat ≤ s.ranges.length then s.evict else s
  (s.addRange path r).touch path r.turn

def empty : ChatLineState where
  ranges := []
  entries _ := none
  h := []
  entry _ := ⟨[], 0, 0⟩
  made := 0

end ChatLineState

/-! ## All chats -/

inductive Event where
  | record (chatID path : Text) (r : LineRange)
  | clear (chatID : Text)

/-- What is tracked of each chat. -/
abbrev LineTracker := Text → Option ChatLineState

def LineTracker.step (lt : LineTracker) : Event → LineTracker
  | .record chatID path r =>
    Function.update lt chatID (some (((lt chatID).getD .empty).record path r))
  | .clear chatID => Function.update lt chatID none

def newLineTracker : LineTracker := fun _ => none

/-- The ranges kept of a file. -/
def LineTracker.get (lt : LineTracker) (chatID path : Text) : Option (List LineRange) :=
  (lt chatID).bind fun s => s.rangesOf path

end Marotte.Buffer
