import Marotte.Library.Runes
import Mathlib.Data.List.TakeWhile
import Mathlib.Order.Compare
import Mathlib.Tactic.Linarith
import Mathlib.Tactic.Ring

/-! # The lines of a tasks document

A document split into lines, and a line read as a task: the box, the text and the dotted number the
text begins with. Lines are byte strings that need not be UTF-8.
-/
namespace Marotte.Spec

open Runes

/-! ## Splitting -/

def lf : UInt8 := 10

def cr : UInt8 := 13

/-- Every CRLF as one line feed. -/
def replaceCRLF : Bytes → Bytes
  | [] => []
  | [b] => [b]
  | b :: c :: s =>
    if b = cr ∧ c = lf then lf :: replaceCRLF s
    else b :: replaceCRLF (c :: s)

def replaceCR (s : Bytes) : Bytes :=
  s.map fun b => if b = cr then lf else b

def splitLines (src : Bytes) : List Bytes :=
  (replaceCR (replaceCRLF src)).splitOn lf

/-! ## Spaces -/

/-- The `\s` of the line expressions: ASCII space. -/
def isSpace (b : UInt8) : Bool :=
  b ∈ [9, 10, 12, 13, 32]

def isDigit (b : UInt8) : Bool :=
  48 ≤ b && b ≤ 57

/-- The space of the content: JavaScript's. -/
def isJSSpace (c : Char) : Bool :=
  c.toNat ∈ [9, 10, 11, 12, 13, 32, 0xA0, 0x1680, 0x2028, 0x2029, 0x202F, 0x205F, 0x3000, 0xFEFF]
    || (0x2000 ≤ c.toNat && c.toNat ≤ 0x200A)

def isBlank (line : Bytes) : Bool :=
  (pieces line).all fun p => isJSSpace p.char

/-- The leading space of a line, in runes. -/
def leadingSpace (line : Bytes) : ℕ :=
  ((pieces line).takeWhile fun p => isJSSpace p.char).length

/-- A line without its first `n` runes. -/
def dropLeading (line : Bytes) (n : ℕ) : Bytes :=
  ((pieces line).drop n).flatMap Piece.units

/-! ## Numbers -/

def dot : UInt8 := 46

/-- The digit runs of a dotted number and what is behind it, reading on behind a dot that a digit
follows. -/
def readDotted (s : Bytes) : List Bytes × Bytes :=
  match s.takeWhile isDigit with
  | [] => ([], s)
  | d :: ds =>
    match _h : s.dropWhile isDigit with
    | [] => ([d :: ds], [])
    | b :: t =>
      if b = dot ∧ t.takeWhile isDigit ≠ [] then
        let (segments, rest) := readDotted t
        ((d :: ds) :: segments, rest)
      else ([d :: ds], b :: t)
termination_by s.length
decreasing_by
  have hle := (List.dropWhile_sublist isDigit (l := s)).length_le
  rw [_h, List.length_cons] at hle
  omega

def joinDots (segments : List Bytes) : Bytes :=
  [dot].intercalate segments

/-- The dotted number a text begins with, or the empty string: the longest one where a space or a
dot follows it, and the one before its last segment otherwise. -/
def taskNumber (text : Bytes) : Bytes :=
  match readDotted text with
  | (segments, b :: _) =>
    if isSpace b ∨ b = dot then joinDots segments
    else joinDots segments.dropLast
  | (segments, []) => joinDots segments.dropLast

/-! ## Task lines -/

inductive PlanStatus where
  | pending
  | inProgress
  | completed
  deriving DecidableEq

/-- What a task line says. -/
structure TaskLine where
  text : Bytes
  number : Bytes
  status : PlanStatus
  indent : ℕ
  queued : Bool
  optional : Bool
  deriving DecidableEq

/-- What follows the spaces at the front of `s`: the rest, or their last one where there is nothing
else and one space is left to part it from. -/
def textBehind (s : Bytes) : Option Bytes :=
  match s.takeWhile isSpace, s.dropWhile isSpace with
  | [], _ => none
  | _ :: _, b :: t => some (b :: t)
  | [_], [] => none
  | _ :: g :: gap, [] => some [(g :: gap).getLast (List.cons_ne_nil g gap)]

/-- The flag behind the box, an escape and a star of it optional, and what is behind. -/
def readFlag (s : Bytes) : Bytes × Bytes :=
  match s with
  | 92 :: 42 :: t => ([92, 42], t)
  | 92 :: t => ([92], t)
  | 42 :: t => ([42], t)
  | t => ([], t)

/-- Whether a text holds a line separator, which is no task text in JavaScript. -/
def hasSeparator (text : Bytes) : Bool :=
  (pieces text).any fun p => p = .rune '\u2028' ∨ p = .rune '\u2029'

/-- The line expression: an indent, a marker, a box, a flag and a text. -/
def readTaskLine (line : Bytes) : Option (ℕ × UInt8 × Bytes × Bytes) :=
  match line.dropWhile isSpace with
  | [] => none
  | marker :: s =>
    if marker ∉ [45, 42, 43] ∨ s.takeWhile isSpace = [] then none
    else
      match s.dropWhile isSpace with
      | 91 :: box :: 93 :: t =>
        if box ∉ [32, 120, 88, 45, 126] then none
        else
          match textBehind (readFlag t).2 with
          | some text => some ((line.takeWhile isSpace).length, box, (readFlag t).1, text)
          | none => none
      | _ => none

def boxStatus (box : UInt8) : PlanStatus :=
  if box = 120 ∨ box = 88 then .completed
  else if box = 45 then .inProgress
  else .pending

def matchTaskLine (line : Bytes) : Option TaskLine :=
  match readTaskLine line with
  | none => none
  | some (indent, box, flag, text) =>
    if hasSeparator text then none
    else some
      { text := text
        number := taskNumber text
        status := boxStatus box
        indent := indent
        queued := box = 126
        optional := flag = [42] ∨ flag = [92, 42] }

/-- A line of the widened grammar that the line expression refuses. -/
def isNearMiss (line : Bytes) : Bool :=
  let s := line.dropWhile isSpace
  let behindMarker :=
    match s with
    | [] => none
    | b :: t =>
      if b ∈ [45, 42, 43] then some t
      else
        match s.takeWhile isDigit, s.dropWhile isDigit with
        | _ :: _, c :: u => if c = dot ∨ c = 41 then some u else none
        | _, _ => none
  match behindMarker with
  | none => false
  | some t =>
    match t.takeWhile isSpace, t.dropWhile isSpace with
    | _ :: _, 91 :: u => u.contains 93 && (readTaskLine line).isNone
    | _, _ => false

def countNearMisses (lines : List Bytes) : ℕ :=
  lines.countP isNearMiss

/-- A markdown heading. -/
def isHeading (line : Bytes) : Bool :=
  let marks := (line.takeWhile (· = 35)).length
  decide (1 ≤ marks ∧ marks ≤ 6) && ((line.dropWhile (· = 35)).head?.any isSpace)

/-! ## The order of task numbers

Numbers are compared by depth and then segment by segment. Two digit runs compare as their values
do, whatever their length and their leading zeros.
-/

/-! ## Comparing -/

def depth (number : Bytes) : ℕ :=
  number.count dot + 1

/-- A number without its last segment. -/
def parentNumber (number : Bytes) : Bytes :=
  ((number.reverse.dropWhile (· ≠ dot)).drop 1).reverse

def trimZeros (s : Bytes) : Bytes :=
  s.dropWhile (· = 48)

/-- Two values compared by what `f` makes of them. -/
def compareVia {α β : Type} (cmp : β → β → Ordering) (f : α → β) (a b : α) : Ordering :=
  cmp (f a) (f b)

instance {α β : Type} (cmp : β → β → Ordering) [Std.TransCmp cmp] (f : α → β) :
    Std.TransCmp (compareVia cmp f) where
  eq_swap := by
    intro a b
    exact Std.OrientedCmp.eq_swap (a := f a) (b := f b)
  isLE_trans := by
    intro a b c
    exact Std.TransCmp.isLE_trans (a := f a) (b := f b) (c := f c)

/-- By length and then byte by byte, the leading zeros left out. -/
def compareDigits : Bytes → Bytes → Ordering :=
  compareLex (compareOn fun s => (trimZeros s).length)
    (compareVia (List.compareLex compare) trimZeros)

/-- Segment by segment, and a number before those it begins. -/
def compareDotted : Bytes → Bytes → Ordering :=
  compareVia (List.compareLex compareDigits) (·.splitOn dot)

/-- Depth first. -/
def compareNumbers : Bytes → Bytes → Ordering :=
  compareLex (compareOn depth) compareDotted

instance : Std.TransCmp compareDigits :=
  inferInstanceAs (Std.TransCmp (compareLex _ _))

instance : Std.TransCmp compareDotted :=
  inferInstanceAs (Std.TransCmp (compareVia _ _))

instance : Std.TransCmp compareNumbers :=
  inferInstanceAs (Std.TransCmp (compareLex _ _))

/-! ## Values -/

def digitsValue (s : Bytes) : ℕ :=
  s.foldl (fun n b => 10 * n + (b.toNat - 48)) 0

/-- The values of the segments of a number. -/
def numberValues (number : Bytes) : List ℕ :=
  (number.splitOn dot).map digitsValue

def AllDigits (s : Bytes) : Prop :=
  ∀ b ∈ s, isDigit b = true

theorem isDigit_iff {b : UInt8} : isDigit b = true ↔ 48 ≤ b.toNat ∧ b.toNat ≤ 57 := by
  simp only [isDigit, Bool.and_eq_true, decide_eq_true_eq, UInt8.le_iff_toNat_le]
  rfl

theorem foldl_digits (s : Bytes) (n : ℕ) :
    s.foldl (fun n b => 10 * n + (b.toNat - 48)) n = n * 10 ^ s.length + digitsValue s := by
  induction s generalizing n with
  | nil => simp [digitsValue]
  | cons b s ih =>
    have hvalue : digitsValue (b :: s) = (b.toNat - 48) * 10 ^ s.length + digitsValue s := by
      rw [digitsValue, List.foldl_cons, ih]
      simp
    rw [List.foldl_cons, ih, hvalue, List.length_cons, pow_succ]
    ring

theorem digitsValue_cons (b : UInt8) (s : Bytes) :
    digitsValue (b :: s) = (b.toNat - 48) * 10 ^ s.length + digitsValue s := by
  rw [digitsValue, List.foldl_cons, foldl_digits]
  simp

theorem digitsValue_lt {s : Bytes} (h : AllDigits s) : digitsValue s < 10 ^ s.length := by
  induction s with
  | nil => simp [digitsValue]
  | cons b s ih =>
    have hb := isDigit_iff.1 (h b List.mem_cons_self)
    have hs := ih fun c hc => h c (List.mem_cons_of_mem _ hc)
    rw [digitsValue_cons, List.length_cons, pow_succ]
    have hdigit : (b.toNat - 48) * 10 ^ s.length ≤ 9 * 10 ^ s.length :=
      Nat.mul_le_mul_right _ (by omega)
    omega

theorem digitsValue_trimZeros (s : Bytes) : digitsValue (trimZeros s) = digitsValue s := by
  induction s with
  | nil => rfl
  | cons b s ih =>
    by_cases hb : b = 48
    · rw [trimZeros, List.dropWhile_cons_of_pos (by simpa using hb), ← trimZeros, ih,
        digitsValue_cons, hb]
      simp
    · rw [trimZeros, List.dropWhile_cons_of_neg (by simpa using hb)]

theorem compare_bytes (x y : UInt8) : compare x y = compare x.toNat y.toNat := by
  change compareOfLessAndEq x y = compareOfLessAndEq x.toNat y.toNat
  simp only [compareOfLessAndEq, UInt8.lt_iff_toNat_lt, UInt8.toNat_inj]

/-- Runs of one length compare as their values do. -/
theorem compare_digits {a b : Bytes} (ha : AllDigits a) (hb : AllDigits b)
    (hlength : a.length = b.length) :
    List.compareLex compare a b = compare (digitsValue a) (digitsValue b) := by
  induction a generalizing b with
  | nil =>
    cases b with
    | nil => rfl
    | cons y b => simp at hlength
  | cons x a ih =>
    cases b with
    | nil => simp at hlength
    | cons y b =>
      have hx := isDigit_iff.1 (ha x List.mem_cons_self)
      have hy := isDigit_iff.1 (hb y List.mem_cons_self)
      have ha' : AllDigits a := fun c hc => ha c (List.mem_cons_of_mem _ hc)
      have hb' : AllDigits b := fun c hc => hb c (List.mem_cons_of_mem _ hc)
      have hlength' : a.length = b.length := by simpa using hlength
      have hlta := digitsValue_lt ha'
      have hltb := digitsValue_lt hb'
      have hrest := ih ha' hb' hlength'
      rw [List.compareLex_cons_cons, hrest, digitsValue_cons, digitsValue_cons, hlength']
      rw [hlength'] at hlta
      rw [compare_bytes]
      rcases lt_trichotomy x.toNat y.toNat with hlt | heq | hgt
      · have hstep : (x.toNat - 48 + 1) * 10 ^ b.length ≤ (y.toNat - 48) * 10 ^ b.length :=
          Nat.mul_le_mul_right _ (by omega)
        rw [Nat.add_mul] at hstep
        rw [compare_lt_iff_lt.2 hlt, Ordering.lt_then, compare_lt_iff_lt.2 (by omega)]
      · rw [heq, compare_eq_iff_eq.2 rfl, Ordering.eq_then]
        rcases lt_trichotomy (digitsValue a) (digitsValue b) with hlt | heq | hgt
        · rw [compare_lt_iff_lt.2 hlt, compare_lt_iff_lt.2 (by omega)]
        · rw [heq, compare_eq_iff_eq.2 rfl, compare_eq_iff_eq.2 rfl]
        · rw [compare_gt_iff_gt.2 hgt, compare_gt_iff_gt.2 (by omega)]
      · have hstep : (y.toNat - 48 + 1) * 10 ^ b.length ≤ (x.toNat - 48) * 10 ^ b.length :=
          Nat.mul_le_mul_right _ (by omega)
        rw [Nat.add_mul] at hstep
        rw [compare_gt_iff_gt.2 hgt, Ordering.gt_then, compare_gt_iff_gt.2 (by omega)]

theorem allDigits_trimZeros {s : Bytes} (h : AllDigits s) : AllDigits (trimZeros s) := by
  intro b hb
  exact h b ((List.dropWhile_sublist _).mem hb)

/-- A run without leading zeros is as large as its length says. -/
theorem pow_le_trimZeros {s : Bytes} (h : AllDigits s) (hne : trimZeros s ≠ []) :
    10 ^ ((trimZeros s).length - 1) ≤ digitsValue (trimZeros s) := by
  have hhead := List.head?_dropWhile_not (fun b : UInt8 => decide (b = 48)) s
  have hdigits := allDigits_trimZeros h
  rw [← trimZeros] at hhead
  cases htrim : trimZeros s with
  | nil => exact absurd htrim hne
  | cons b t =>
    rw [htrim] at hhead hdigits
    have hb := isDigit_iff.1 (hdigits b List.mem_cons_self)
    have hzero : b.toNat ≠ 48 := by
      intro heq
      simp only [List.head?_cons, decide_eq_false_iff_not] at hhead
      exact hhead (UInt8.toNat_inj.1 heq)
    rw [digitsValue_cons, List.length_cons, Nat.add_sub_cancel]
    have hle : 1 * 10 ^ t.length ≤ (b.toNat - 48) * 10 ^ t.length :=
      Nat.mul_le_mul_right _ (by omega)
    omega

theorem length_lt_value {a b : Bytes} (ha : AllDigits a) (hb : AllDigits b)
    (h : (trimZeros a).length < (trimZeros b).length) : digitsValue a < digitsValue b := by
  have hne : trimZeros b ≠ [] := List.length_pos_iff.1 (by omega)
  rw [← digitsValue_trimZeros a, ← digitsValue_trimZeros b]
  calc digitsValue (trimZeros a) < 10 ^ (trimZeros a).length :=
        digitsValue_lt (allDigits_trimZeros ha)
    _ ≤ 10 ^ ((trimZeros b).length - 1) := Nat.pow_le_pow_right (by decide) (by omega)
    _ ≤ digitsValue (trimZeros b) := pow_le_trimZeros hb hne

/-- Digit runs compare as their values do. -/
theorem compareDigits_eq {a b : Bytes} (ha : AllDigits a) (hb : AllDigits b) :
    compareDigits a b = compare (digitsValue a) (digitsValue b) := by
  rw [compareDigits, compareLex]
  change (compare (trimZeros a).length (trimZeros b).length).then
    (List.compareLex compare (trimZeros a) (trimZeros b)) = _
  rcases lt_trichotomy (trimZeros a).length (trimZeros b).length with hlt | heq | hgt
  · rw [compare_lt_iff_lt.2 hlt, Ordering.lt_then, compare_lt_iff_lt.2 (length_lt_value ha hb hlt)]
  · rw [compare_eq_iff_eq.2 heq, Ordering.eq_then,
      compare_digits (allDigits_trimZeros ha) (allDigits_trimZeros hb) heq,
      digitsValue_trimZeros, digitsValue_trimZeros]
  · rw [compare_gt_iff_gt.2 hgt, Ordering.gt_then, compare_gt_iff_gt.2 (length_lt_value hb ha hgt)]

/-- A dotted number: its segments are runs of digits. -/
def IsDotted (number : Bytes) : Prop :=
  ∀ s ∈ number.splitOn dot, AllDigits s

theorem compareSegments_eq {as bs : List Bytes} (ha : ∀ s ∈ as, AllDigits s)
    (hb : ∀ s ∈ bs, AllDigits s) :
    List.compareLex compareDigits as bs
      = List.compareLex compare (as.map digitsValue) (bs.map digitsValue) := by
  induction as generalizing bs with
  | nil => cases bs <;> rfl
  | cons a as ih =>
    cases bs with
    | nil => rfl
    | cons b bs =>
      rw [List.map_cons, List.map_cons, List.compareLex_cons_cons, List.compareLex_cons_cons,
        compareDigits_eq (ha a List.mem_cons_self) (hb b List.mem_cons_self),
        ih (fun s hs => ha s (List.mem_cons_of_mem _ hs))
          (fun s hs => hb s (List.mem_cons_of_mem _ hs))]

/-- Dotted numbers compare as the lists of their segments' values do. -/
theorem compareDotted_eq {a b : Bytes} (ha : IsDotted a) (hb : IsDotted b) :
    compareDotted a b = List.compareLex compare (numberValues a) (numberValues b) :=
  compareSegments_eq ha hb

/-! ## The number of a task -/

/-- The segments read are runs of digits. -/
theorem readDotted_digits (s : Bytes) : ∀ seg ∈ (readDotted s).1, AllDigits seg := by
  have hrun : ∀ {u : Bytes} {d : UInt8} {ds : List UInt8}, u.takeWhile isDigit = d :: ds →
      AllDigits (d :: ds) := by
    intro u d ds h b hb
    rw [← h] at hb
    exact List.mem_takeWhile_imp hb
  induction s using readDotted.induct with
  | case1 s h =>
    rw [readDotted, h]
    simp
  | case2 s d ds h hrest =>
    rw [readDotted, h]
    simp only
    split
    · simpa using hrun h
    · simp_all
  | case3 s d ds h b t hrest hdot segments rest hread ih =>
    rw [readDotted, h]
    simp only
    split
    · simp_all
    · next c u hcu =>
      rw [hrest, List.cons.injEq] at hcu
      obtain ⟨rfl, rfl⟩ := hcu
      rw [if_pos hdot, hread]
      rw [hread] at ih
      intro seg hseg
      rcases List.mem_cons.1 hseg with rfl | hseg
      · exact hrun h
      · exact ih seg hseg
  | case4 s d ds h b t hrest hdot =>
    rw [readDotted, h]
    simp only
    split
    · simp_all
    · next c u hcu =>
      rw [hrest, List.cons.injEq] at hcu
      obtain ⟨rfl, rfl⟩ := hcu
      rw [if_neg hdot]
      simpa using hrun h

theorem isDotted_joinDots {segments : List Bytes} (h : ∀ s ∈ segments, AllDigits s) :
    IsDotted (joinDots segments) := by
  rw [IsDotted, joinDots]
  by_cases hne : segments = []
  · subst hne
    intro s hs
    have hnil : s = [] := by simpa using hs
    rw [hnil]
    simp [AllDigits]
  · rw [List.splitOn_intercalate dot _ hne]
    · exact h
    · intro s hs hdot
      have hdigit := h s hs dot hdot
      exact absurd hdigit (by decide)

/-- The number of a task is dotted, or empty. -/
theorem isDotted_taskNumber (text : Bytes) : IsDotted (taskNumber text) := by
  have hdigits := readDotted_digits text
  have hlast : ∀ s ∈ (readDotted text).1.dropLast, AllDigits s :=
    fun s hs => hdigits s (List.dropLast_subset _ hs)
  rw [taskNumber]
  split
  · next segments b rest h =>
    rw [h] at hdigits hlast
    split
    · exact isDotted_joinDots hdigits
    · exact isDotted_joinDots hlast
  · next segments h =>
    rw [h] at hlast
    exact isDotted_joinDots hlast

/-! ## Parents -/

/-- A number below the top is its parent's with a segment behind. -/
theorem parentNumber_spec {number : Bytes} (h : dot ∈ number) :
    ∃ last, dot ∉ last ∧ number = parentNumber number ++ dot :: last := by
  have hsplit := List.takeWhile_append_dropWhile (p := fun b => decide (b ≠ dot))
    (l := number.reverse)
  cases hdrop : number.reverse.dropWhile (· ≠ dot) with
  | nil =>
    rw [List.dropWhile_eq_nil_iff] at hdrop
    have hno := hdrop dot (by simpa using h)
    simp at hno
  | cons b rest =>
    have hb : b = dot := by
      have hhead := List.head?_dropWhile_not (fun b => decide (b ≠ dot)) number.reverse
      rw [hdrop] at hhead
      simpa using hhead
    refine ⟨(number.reverse.takeWhile (· ≠ dot)).reverse, ?_, ?_⟩
    · intro hmem
      rw [List.mem_reverse] at hmem
      have hne := List.mem_takeWhile_imp hmem
      simp at hne
    · rw [parentNumber, hdrop, List.drop_one, List.tail_cons]
      rw [hdrop, hb] at hsplit
      have hreverse := congrArg List.reverse hsplit
      rw [List.reverse_append, List.reverse_reverse, List.reverse_cons,
        List.append_assoc] at hreverse
      exact hreverse.symm

/-- A number below the top is one deeper than its parent's. -/
theorem depth_parentNumber {number : Bytes} (h : depth number ≠ 1) :
    depth (parentNumber number) + 1 = depth number := by
  have hdot : dot ∈ number := by
    by_contra hno
    rw [depth, List.count_eq_zero_of_not_mem hno] at h
    omega
  obtain ⟨last, hlast, hnumber⟩ := parentNumber_spec hdot
  have hcount := congrArg (List.count dot) hnumber
  rw [List.count_append, List.count_cons_self, List.count_eq_zero_of_not_mem hlast] at hcount
  rw [depth, depth]
  omega

end Marotte.Spec
