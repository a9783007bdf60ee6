import Marotte.Diff.Counted

/-! # The two line counters

The server counts the added and removed lines from the length of a longest common subsequence of
the trimmed middles, the client from the script that it draws. They agree on every two texts, and
within the budget both counts are the least that a script has.
-/
namespace Marotte.Diff

structure LineDelta where
  added : ℕ
  removed : ℕ
  deriving DecidableEq

/-! ## The trimmed middles -/

theorem countWhile_le (test : ℕ → Bool) (fuel k : ℕ) : countWhile test fuel k ≤ k + fuel := by
  induction fuel generalizing k with
  | zero => exact Nat.le_refl k
  | succ fuel ih =>
    rw [countWhile]
    split
    · have hle := ih (k + 1)
      omega
    · omega

theorem countWhile_test {test : ℕ → Bool} {fuel k i : ℕ} (hk : k ≤ i)
    (hi : i < countWhile test fuel k) : test i = true := by
  induction fuel generalizing k with
  | zero =>
    rw [countWhile] at hi
    omega
  | succ fuel ih =>
    rw [countWhile] at hi
    split at hi
    · next htest =>
      rcases Nat.eq_or_lt_of_le hk with rfl | hlt
      · exact htest
      · exact ih hlt hi
    · omega

theorem countWhile_of_test {test : ℕ → Bool} (h : ∀ k, test k = true) (fuel k : ℕ) :
    countWhile test fuel k = k + fuel := by
  induction fuel generalizing k with
  | zero => rfl
  | succ fuel ih =>
    rw [countWhile, if_pos (h k), ih]
    omega

variable {a b : List Line}

theorem trimPrefix_le : trimPrefix a b ≤ min a.length b.length := by
  have hle := countWhile_le (fun p => a[p]? = b[p]?) (min a.length b.length) 0
  rwa [Nat.zero_add] at hle

theorem trimSuffix_le (p : ℕ) : trimSuffix a b p ≤ min a.length b.length - p := by
  have hle := countWhile_le (fun s => a[a.length - 1 - s]? = b[b.length - 1 - s]?)
    (min a.length b.length - p) 0
  rwa [Nat.zero_add] at hle

theorem trimPrefix_self : trimPrefix a a = a.length := by
  rw [trimPrefix, countWhile_of_test (fun k => decide_eq_true rfl), Nat.zero_add, Nat.min_self]

theorem take_trimPrefix : a.take (trimPrefix a b) = b.take (trimPrefix a b) := by
  apply List.ext_getElem?
  intro i
  by_cases hi : i < trimPrefix a b
  · rw [List.getElem?_take_of_lt hi, List.getElem?_take_of_lt hi]
    exact of_decide_eq_true (countWhile_test (Nat.zero_le i) hi)
  · rw [List.getElem?_take_eq_none (by omega), List.getElem?_take_eq_none (by omega)]

theorem drop_trimSuffix (p : ℕ) :
    a.drop (a.length - trimSuffix a b p) = b.drop (b.length - trimSuffix a b p) := by
  have hle := trimSuffix_le (a := a) (b := b) p
  have hmin := Nat.min_le_left a.length b.length
  have hmin' := Nat.min_le_right a.length b.length
  apply List.ext_getElem?
  intro i
  rw [List.getElem?_drop, List.getElem?_drop]
  by_cases hi : i < trimSuffix a b p
  · have htest : trimSuffix a b p - 1 - i < trimSuffix a b p := by omega
    have heq := of_decide_eq_true (countWhile_test (Nat.zero_le _) htest)
    rw [show a.length - trimSuffix a b p + i = a.length - 1 - (trimSuffix a b p - 1 - i) by omega,
      show b.length - trimSuffix a b p + i = b.length - 1 - (trimSuffix a b p - 1 - i) by omega]
    exact heq
  · rw [List.getElem?_eq_none (by omega), List.getElem?_eq_none (by omega)]

/-- What is left of one side between the common ends. -/
def middle (a : List Line) (p s : ℕ) : List Line := slice a p (a.length - s)

theorem take_append_middle {p s : ℕ} (h : p + s ≤ a.length) :
    a.take p ++ middle a p s ++ a.drop (a.length - s) = a := by
  have htake : a.take p = slice a 0 p := by rw [slice, List.drop_zero, Nat.sub_zero]
  have hdrop : a.drop (a.length - s) = slice a (a.length - s) a.length := by
    rw [slice, List.take_of_length_le]
    rw [List.length_drop]
  rw [htake, hdrop, middle, slice_append (Nat.zero_le p) (by omega),
    slice_append (Nat.zero_le _) (by omega), slice_zero]

/-- The common ends are common lines. -/
theorem lcs_eq_middle (a b : List Line) :
    let p := trimPrefix a b
    let s := trimSuffix a b p
    lcs a b = p + lcs (middle a p s) (middle b p s) + s := by
  intro p s
  have hp : p ≤ min a.length b.length := trimPrefix_le
  have hs : s ≤ min a.length b.length - p := trimSuffix_le p
  have ha : a.take p ++ middle a p s ++ a.drop (a.length - s) = a := take_append_middle (by omega)
  have hb : b.take p ++ middle b p s ++ b.drop (b.length - s) = b := take_append_middle (by omega)
  have hpre : a.take p = b.take p := take_trimPrefix
  have hsuf : a.drop (a.length - s) = b.drop (b.length - s) := drop_trimSuffix p
  conv_lhs => rw [← ha, ← hb]
  rw [← hpre, ← hsuf, lcs_append_right, lcs_append_left, List.length_take, List.length_drop]
  omega

/-! ## The server's counter -/

namespace Server

def maxDiffCells : ℕ := 25000000

def lcsLen (a b : List Line) : ℕ :=
  if a.length = 0 ∨ b.length = 0 then 0
  else if b.length > a.length then (lastRow b a).getD a.length 0
  else (lastRow a b).getD b.length 0

/-- The counts of the trimmed middles. -/
def middleDelta (midOld midNew : List Line) : LineDelta :=
  if midOld.length = 0 ∨ midNew.length = 0 ∨ midOld.length * midNew.length > maxDiffCells then
    { added := midNew.length, removed := midOld.length }
  else
    let k := lcsLen midOld midNew
    { added := midNew.length - k, removed := midOld.length - k }

def lineDelta (oldText newText : List Char) : LineDelta :=
  if oldText = newText then { added := 0, removed := 0 }
  else
    let a := splitDiffLines oldText
    let b := splitDiffLines newText
    let p := trimPrefix a b
    let s := trimSuffix a b p
    middleDelta (middle a p s) (middle b p s)

theorem lcsLen_eq (a b : List Line) : lcsLen a b = lcs a b := by
  rw [lcsLen]
  split
  · next h =>
    rcases h with h | h
    · rw [List.length_eq_zero_iff.mp h, lcs_nil_left]
    · rw [List.length_eq_zero_iff.mp h, lcs_nil_right]
  · split
    · rw [getD_lastRow b a (Nat.le_refl _), List.take_length, lcs_comm]
    · rw [getD_lastRow a b (Nat.le_refl _), List.take_length]

end Server

/-! ## The client's counter -/

namespace Client

def lineDelta (oldText newText : List Char) : LineDelta :=
  let s := stats (diffLineArrays id (splitLines oldText) (splitLines newText))
  { added := s.adds, removed := s.dels }

end Client

/-- The lines that a counter takes as common to two middles: none past the budget. -/
def kept (midOld midNew : List Line) : ℕ :=
  if midOld.length * midNew.length > timeBudgetCells then 0 else lcs midOld midNew

theorem kept_of_le {midOld midNew : List Line}
    (h : midOld.length * midNew.length ≤ timeBudgetCells) : kept midOld midNew = lcs midOld midNew :=
  if_neg (Nat.not_lt.mpr h)

theorem kept_of_nil_left {midOld midNew : List Line} (h : midOld = []) :
    kept midOld midNew = 0 := by
  rw [kept, h, lcs_nil_left, ite_self]

theorem kept_of_nil_right {midOld midNew : List Line} (h : midNew = []) :
    kept midOld midNew = 0 := by
  rw [kept, h, lcs_nil_right, ite_self]

theorem length_middle {p s : ℕ} : (middle a p s).length = a.length - s - p :=
  length_slice (Nat.sub_le ..)

theorem counted_diffMiddle {aNorm bNorm : List Line} (ha : aNorm.length = a.length)
    (hb : bNorm.length = b.length) (p s : ℕ) :
    Counted (diffMiddle a b aNorm bNorm p s) (middle aNorm p s).length (middle bNorm p s).length
      (kept (middle aNorm p s) (middle bNorm p s)) := by
  have hlenA : (middle aNorm p s).length = a.length - s - p := by rw [length_middle, ha]
  have hlenB : (middle bNorm p s).length = b.length - s - p := by rw [length_middle, hb]
  rw [diffMiddle, kept, hlenA, hlenB]
  split
  · next h =>
    rw [h.1, h.2, if_neg (by decide), List.length_eq_zero_iff.mp (hlenA.trans h.1), lcs_nil_left]
    exact counted_nil
  · split
    · apply ((counted_delRun a 0 p (a.length - s)).append
        (counted_addRun b 0 p (b.length - s))).congr
      · omega
      · omega
      · rfl
    · split
      · have hsliceA : slice (middle aNorm p s) 0 (a.length - s - p) = middle aNorm p s := by
          rw [← hlenA, slice_zero]
        have hsliceB : slice (middle bNorm p s) 0 (b.length - s - p) = middle bNorm p s := by
          rw [← hlenB, slice_zero]
        rw [middle, ha] at hlenA hsliceA ⊢
        rw [middle, hb] at hlenB hsliceB ⊢
        conv =>
          arg 4
          rw [← hsliceA, ← hsliceB]
        exact counted_hirschbergDiff _ hlenA.ge (Nat.zero_le _) hlenB.ge
      · have hwalk := counted_walk a b (middle aNorm p s) (middle bNorm p s) p 0 0
        rw [hlenA, hlenB, List.drop_zero, List.drop_zero] at hwalk
        rw [middle, middle, ha, hb] at hwalk ⊢
        exact hwalk

/-- The script of two line arrays adds and deletes what the middles do not keep. -/
theorem counted_diffLineArrays (normalize : Line → Line) (a b : List Line) :
    let aNorm := a.map normalize
    let bNorm := b.map normalize
    let p := trimPrefix aNorm bNorm
    let s := trimSuffix aNorm bNorm p
    Counted (diffLineArrays normalize a b) (p + (middle aNorm p s).length + s)
      (p + (middle bNorm p s).length + s) (p + kept (middle aNorm p s) (middle bNorm p s) + s) := by
  intro aNorm bNorm p s
  have hpre := Counted.map (fun k => counted_ctxLine a 0 0 k k) (List.range p)
  have hsuf := Counted.map (fun k => counted_ctxLine a 0 0 (a.length - s + k) (b.length - s + k))
    (List.range s)
  rw [List.length_range, Nat.mul_one] at hpre hsuf
  have hmid := @counted_diffMiddle a b aNorm bNorm (List.length_map ..) (List.length_map ..) p s
  exact (hpre.append hmid).append hsuf

theorem Client.lineDelta_eq (oldText newText : List Char) :
    let a := splitDiffLines oldText
    let b := splitDiffLines newText
    let p := trimPrefix a b
    let s := trimSuffix a b p
    (Client.lineDelta oldText newText).added + kept (middle a p s) (middle b p s) =
        (middle b p s).length ∧
      (Client.lineDelta oldText newText).removed + kept (middle a p s) (middle b p s) =
        (middle a p s).length := by
  intro a b p s
  obtain ⟨hadds, hdels⟩ : Counted (diffLineArrays id a b) (p + (middle a p s).length + s)
    (p + (middle b p s).length + s) (p + kept (middle a p s) (middle b p s) + s) :=
      by simpa only [List.map_id] using counted_diffLineArrays id a b
  rw [Client.lineDelta, splitLines_eq, splitLines_eq]
  constructor
  · change (stats (diffLineArrays id a b)).adds + _ = _
    omega
  · change (stats (diffLineArrays id a b)).dels + _ = _
    omega

theorem Server.middleDelta_eq (midOld midNew : List Line) :
    (middleDelta midOld midNew).added + kept midOld midNew = midNew.length ∧
      (middleDelta midOld midNew).removed + kept midOld midNew = midOld.length := by
  rw [middleDelta]
  split
  · next hor =>
    have hkept : kept midOld midNew = 0 := by
      rcases hor with hnil | hnil | hcells
      · exact kept_of_nil_left (List.length_eq_zero_iff.mp hnil)
      · exact kept_of_nil_right (List.length_eq_zero_iff.mp hnil)
      · exact if_pos hcells
    rw [hkept]
    exact ⟨rfl, rfl⟩
  · next hor =>
    have hcells : ¬ midOld.length * midNew.length > timeBudgetCells := fun h => hor (.inr (.inr h))
    rw [kept, if_neg hcells, lcsLen_eq]
    exact ⟨Nat.sub_add_cancel (lcs_le_right _ _), Nat.sub_add_cancel (lcs_le_left _ _)⟩

theorem Server.lineDelta_eq (oldText newText : List Char) :
    let a := splitDiffLines oldText
    let b := splitDiffLines newText
    let p := trimPrefix a b
    let s := trimSuffix a b p
    (Server.lineDelta oldText newText).added + kept (middle a p s) (middle b p s) =
        (middle b p s).length ∧
      (Server.lineDelta oldText newText).removed + kept (middle a p s) (middle b p s) =
        (middle a p s).length := by
  intro a b p s
  rw [Server.lineDelta]
  split
  · next heq =>
    have hab : a = b := congrArg splitDiffLines heq
    have hp : p = b.length := by
      rw [← hab]
      exact (congrArg (trimPrefix a) hab.symm).trans trimPrefix_self
    have hlen : (middle b p s).length = 0 := by
      rw [length_middle, hp]
      omega
    rw [hab, kept_of_nil_left (List.length_eq_zero_iff.mp hlen), hlen]
    exact ⟨rfl, rfl⟩
  · exact middleDelta_eq (middle a p s) (middle b p s)

/-- The two counters agree on every two texts. -/
theorem lineDelta_agree (oldText newText : List Char) :
    Client.lineDelta oldText newText = Server.lineDelta oldText newText := by
  obtain ⟨hadded, hremoved⟩ := Client.lineDelta_eq oldText newText
  obtain ⟨hadded', hremoved'⟩ := Server.lineDelta_eq oldText newText
  cases hc : Client.lineDelta oldText newText with
  | mk added removed =>
    cases hs : Server.lineDelta oldText newText with
    | mk added' removed' =>
      rw [hc] at hadded hremoved
      rw [hs] at hadded' hremoved'
      rw [LineDelta.mk.injEq]
      simp only at hadded hadded' hremoved hremoved'
      omega

/-- Within the budget the counts are exact: a line is counted unless it belongs to a longest
common subsequence of the two texts' lines. -/
theorem lineDelta_minimal (oldText newText : List Char)
    (h :
      let a := splitDiffLines oldText
      let b := splitDiffLines newText
      let p := trimPrefix a b
      let s := trimSuffix a b p
      (middle a p s).length * (middle b p s).length ≤ Server.maxDiffCells) :
    (Server.lineDelta oldText newText).added +
          lcs (splitDiffLines oldText) (splitDiffLines newText) = (splitDiffLines newText).length ∧
      (Server.lineDelta oldText newText).removed +
          lcs (splitDiffLines oldText) (splitDiffLines newText) =
        (splitDiffLines oldText).length := by
  obtain ⟨hadded, hremoved⟩ := Server.lineDelta_eq oldText newText
  rw [kept_of_le h] at hadded hremoved
  have hlcs := lcs_eq_middle (splitDiffLines oldText) (splitDiffLines newText)
  have hp := @trimPrefix_le (splitDiffLines oldText) (splitDiffLines newText)
  have hs := @trimSuffix_le (splitDiffLines oldText) (splitDiffLines newText)
    (trimPrefix (splitDiffLines oldText) (splitDiffLines newText))
  rw [length_middle] at hadded hremoved
  omega

end Marotte.Diff
