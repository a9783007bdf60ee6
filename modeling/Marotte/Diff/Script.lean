import Marotte.Library.Subsequence
import Mathlib.Data.List.Basic
import Mathlib.Data.List.Induction

/-! # The tables of the diff

The two rolling rows, filled for each line of one side, and the dense table that a traceback
reads. A cell of either is the length of a longest common subsequence.
-/
namespace Marotte.Diff

variable {α : Type*} [DecidableEq α]

/-! ## The rolling rows -/

/-- The cells right of `left` in the row of `x`, from the row above it. -/
def fillRow (x : α) : ℕ → List α → List ℕ → List ℕ
  | left, y :: ys, diag :: above :: prev =>
    let cell := if x = y then diag + 1 else max left above
    cell :: fillRow x cell ys (above :: prev)
  | _, _, _ => []

/-- The last row for two sequences: one pass over `b` for each element of `a`. -/
def lastRow (a b : List α) : List ℕ :=
  a.foldl (fun prev x => 0 :: fillRow x 0 b prev) (List.replicate (b.length + 1) 0)

/-- What a row holds: the lengths for `p` and every prefix of `q ++ ys` from `q` on. -/
def prefixLengths (p q : List α) : List α → List ℕ
  | [] => [lcs p q]
  | y :: ys => lcs p q :: prefixLengths p (q ++ [y]) ys

theorem fillRow_prefixLengths (x : α) (p q ys : List α) :
    lcs (p ++ [x]) q :: fillRow x (lcs (p ++ [x]) q) ys (prefixLengths p q ys) =
      prefixLengths (p ++ [x]) q ys := by
  induction ys generalizing q with
  | nil => rfl
  | cons y ys ih =>
    have hcell : (if x = y then lcs p q + 1 else max (lcs (p ++ [x]) q) (lcs p (q ++ [y]))) =
        lcs (p ++ [x]) (q ++ [y]) := by
      rw [lcs_concat_concat, max_comm]
    rw [prefixLengths, prefixLengths, ← ih (q ++ [y])]
    cases ys with
    | nil =>
      simp only [prefixLengths, fillRow, hcell]
    | cons y' ys =>
      simp only [prefixLengths, fillRow, hcell]

theorem prefixLengths_nil (q ys : List α) :
    prefixLengths [] q ys = List.replicate (ys.length + 1) 0 := by
  induction ys generalizing q with
  | nil => simp [prefixLengths]
  | cons y ys ih => rw [prefixLengths, ih, lcs_nil_left, List.length_cons, ← List.replicate_succ]

/-- The last row holds the lengths for every prefix of the other side. -/
theorem lastRow_eq (a b : List α) : lastRow a b = prefixLengths a [] b := by
  induction a using List.reverseRecOn with
  | nil =>
    rw [prefixLengths_nil]
    rfl
  | append_singleton p x ih =>
    rw [lastRow] at ih ⊢
    rw [List.foldl_append, List.foldl_cons, List.foldl_nil, ih, ← fillRow_prefixLengths,
      lcs_nil_right]

theorem getD_prefixLengths (p q ys : List α) {k : ℕ} (hk : k ≤ ys.length) :
    (prefixLengths p q ys).getD k 0 = lcs p (q ++ ys.take k) := by
  induction ys generalizing q k with
  | nil =>
    obtain rfl := Nat.le_zero.mp hk
    rw [List.take_nil, List.append_nil]
    rfl
  | cons y ys ih =>
    cases k with
    | zero =>
      rw [List.take_zero, List.append_nil]
      rfl
    | succ k =>
      rw [prefixLengths, List.getD_cons_succ, ih _ (Nat.le_of_succ_le_succ hk),
        List.append_assoc, List.singleton_append, List.take_succ_cons]

theorem getD_lastRow (a b : List α) {k : ℕ} (hk : k ≤ b.length) :
    (lastRow a b).getD k 0 = lcs a (b.take k) := by
  rw [lastRow_eq, getD_prefixLengths a [] b hk, List.nil_append]

/-! ## The dense table -/

/-- The row of `x`, right to left, from the row below it. -/
def tableRow (x : α) : List α → List ℕ → List ℕ
  | [], _ => [0]
  | y :: ys, below =>
    let right := tableRow x ys below.tail
    (if x = y then below.tail.headD 0 + 1 else max (below.headD 0) (right.headD 0)) :: right

/-- All rows, bottom up. -/
def lcsTable : List α → List α → List (List ℕ)
  | [], b => [List.replicate (b.length + 1) 0]
  | x :: a, b => tableRow x b ((lcsTable a b).headD []) :: lcsTable a b

/-- A lookup answers zero outside of the table. -/
def cellAt (t : List (List ℕ)) (i j : ℕ) : ℕ := ((t[i]?).bind (·[j]?)).getD 0

/-- What a row of the table holds: the lengths for `a` and every suffix of `b`. -/
def suffixLengths (a : List α) : List α → List ℕ
  | [] => [0]
  | y :: ys => lcs a (y :: ys) :: suffixLengths a ys

theorem headD_suffixLengths (a ys : List α) : (suffixLengths a ys).headD 0 = lcs a ys := by
  cases ys with
  | nil => exact (lcs_nil_right a).symm
  | cons y ys => rfl

theorem tableRow_suffixLengths (x : α) (a ys : List α) :
    tableRow x ys (suffixLengths a ys) = suffixLengths (x :: a) ys := by
  induction ys with
  | nil => rfl
  | cons y ys ih =>
    rw [tableRow, suffixLengths, List.tail_cons, ih, headD_suffixLengths, headD_suffixLengths,
      List.headD_cons, suffixLengths, lcs_cons_cons]

theorem suffixLengths_nil (ys : List α) :
    suffixLengths [] ys = List.replicate (ys.length + 1) 0 := by
  induction ys with
  | nil => rfl
  | cons y ys ih => rw [suffixLengths, ih, lcs_nil_left, List.length_cons, ← List.replicate_succ]

theorem headD_lcsTable (a b : List α) : (lcsTable a b).headD [] = suffixLengths a b := by
  induction a with
  | nil => rw [lcsTable, List.headD_cons, suffixLengths_nil]
  | cons x a ih => rw [lcsTable, List.headD_cons, ih, tableRow_suffixLengths]

theorem getD_suffixLengths (a b : List α) (j : ℕ) :
    ((suffixLengths a b)[j]?).getD 0 = lcs a (b.drop j) := by
  induction b generalizing j with
  | nil =>
    rw [List.drop_nil, lcs_nil_right]
    cases j <;> rfl
  | cons y b ih =>
    cases j with
    | zero => rfl
    | succ j => exact ih j

/-- Every lookup is the length for the two suffixes. -/
theorem cellAt_lcsTable (a b : List α) (i j : ℕ) :
    cellAt (lcsTable a b) i j = lcs (a.drop i) (b.drop j) := by
  induction a generalizing i with
  | nil =>
    rw [List.drop_nil, lcs_nil_left]
    cases i with
    | zero =>
      rw [cellAt, lcsTable, ← suffixLengths_nil, List.getElem?_cons_zero, Option.bind_some,
        getD_suffixLengths, lcs_nil_left]
    | succ i => rfl
  | cons x a ih =>
    cases i with
    | zero =>
      rw [cellAt, lcsTable, List.getElem?_cons_zero, Option.bind_some, headD_lcsTable,
        tableRow_suffixLengths, getD_suffixLengths, List.drop_zero]
    | succ i => exact ih i

end Marotte.Diff

/-! ## The lines of a text

Both diff counters read a text as its lines: split at the line feeds, one trailing carriage return
stripped from each line, and the empty element of a final line feed dropped.
-/
namespace Marotte.Diff



abbrev Line := List Char

/-- A line without its one trailing carriage return. -/
def stripReturn (l : Line) : Line := if l.getLast? = some '\r' then l.dropLast else l

/-- The server's split. -/
def splitDiffLines (s : List Char) : List Line :=
  if s = [] then []
  else
    let lines := s.splitOn '\n'
    let lines := if lines.getLast? = some [] then lines.dropLast else lines
    lines.map stripReturn

/-- The client's split. -/
def splitLines (s : List Char) : List Line :=
  if s = [] then []
  else
    let lines := s.splitOn '\n'
    let lines := if s.getLast? = some '\n' then lines.dropLast else lines
    if '\r' ∈ s then lines.map stripReturn else lines

/-- A text that does not end in the separator has its last character in the last line. -/
theorem getLast?_splitOn_concat {sep c : Char} (h : c ≠ sep) (s : List Char) :
    ∃ l : Line, ((s ++ [c]).splitOn sep).getLast? = some (l ++ [c]) := by
  induction s with
  | nil => exact ⟨[], by simp [List.splitOn_cons_eq_if_modifyHead, h]⟩
  | cons d s ih =>
    obtain ⟨l, hl⟩ := ih
    rw [List.cons_append, List.splitOn_cons_eq_if_modifyHead]
    cases hsplit : (s ++ [c]).splitOn sep with
    | nil => exact absurd hsplit (List.splitOn_ne_nil sep _)
    | cons l₀ ls =>
      rw [hsplit] at hl
      split
      · exact ⟨l, by rw [List.getLast?_cons_cons, hl]⟩
      · cases ls with
        | nil =>
          obtain rfl := Option.some.inj hl
          exact ⟨d :: l, rfl⟩
        | cons l₁ ls => exact ⟨l, by rw [List.modifyHead_cons, List.getLast?_cons_cons, ← hl,
            List.getLast?_cons_cons]⟩

/-- The last line of a split is empty exactly after a final separator. -/
theorem getLast?_splitOn {s : List Char} (hs : s ≠ []) (sep : Char) :
    (s.splitOn sep).getLast? = some [] ↔ s.getLast? = some sep := by
  rw [← List.dropLast_concat_getLast hs]
  by_cases h : s.getLast hs = sep
  · rw [h, List.splitOn_append_cons_self, List.splitOn_nil, List.getLast?_concat,
      List.getLast?_concat]
    exact ⟨fun _ => rfl, fun _ => rfl⟩
  · obtain ⟨l, hl⟩ := getLast?_splitOn_concat h s.dropLast
    rw [hl, List.getLast?_concat, Option.some.injEq, Option.some.injEq]
    exact ⟨fun hnil => absurd hnil (by simp), fun heq => absurd heq h⟩

theorem mem_of_mem_splitOn {s : List Char} {sep c : Char} {l : Line} (hl : l ∈ s.splitOn sep)
    (hc : c ∈ l) : c ∈ s := by
  induction s generalizing l with
  | nil =>
    rw [List.splitOn_nil, List.mem_singleton] at hl
    rw [hl] at hc
    exact hc
  | cons d s ih =>
    rw [List.splitOn_cons_eq_if_modifyHead] at hl
    split at hl
    · rcases List.mem_cons.mp hl with rfl | hl
      · cases hc
      · exact List.mem_cons_of_mem d (ih hl hc)
    · cases hsplit : s.splitOn sep with
      | nil => exact absurd hsplit (List.splitOn_ne_nil sep _)
      | cons l' ls =>
        rw [hsplit, List.modifyHead_cons] at hl
        rcases List.mem_cons.mp hl with rfl | hl
        · rcases List.mem_cons.mp hc with rfl | hc
          · exact List.mem_cons_self
          · exact List.mem_cons_of_mem d (ih (hsplit ▸ List.mem_cons_self) hc)
        · exact List.mem_cons_of_mem d (ih (hsplit ▸ List.mem_cons_of_mem l' hl) hc)

theorem stripReturn_of_not_mem {l : Line} (h : '\r' ∉ l) : stripReturn l = l := by
  apply if_neg
  intro hlast
  exact h (List.mem_of_getLast? hlast)

/-- The two splits agree on every text. -/
theorem splitLines_eq (s : List Char) : splitLines s = splitDiffLines s := by
  by_cases hs : s = []
  · rw [hs]
    rfl
  · rw [splitLines, splitDiffLines, if_neg hs, if_neg hs]
    simp only [getLast?_splitOn hs]
    split
    · rfl
    · next hr =>
      symm
      apply (List.map_congr_left ?_).trans (List.map_id _)
      intro l hl
      apply stripReturn_of_not_mem
      intro hmem
      split at hl
      · exact hr (mem_of_mem_splitOn ((List.dropLast_sublist _).subset hl) hmem)
      · exact hr (mem_of_mem_splitOn hl hmem)

/-! ## The client's line diff

The edit script that the client draws and counts: common ends as context, and between them a walk
through the dense table, a divide and conquer over the rolling rows, or the coarse script of a
middle past the time budget.
-/

inductive DiffKind where
  | add
  | del
  | ctx
  deriving DecidableEq

/-- A line of the script; a number is zero where the line is not in that text. -/
structure DiffLine where
  kind : DiffKind
  oldNo : ℕ
  newNo : ℕ
  text : Line
  deriving DecidableEq

structure DiffStats where
  adds : ℕ
  dels : ℕ
  ctx : ℕ
  deriving DecidableEq

def stats (lines : List DiffLine) : DiffStats where
  adds := lines.countP (·.kind = .add)
  dels := lines.countP (·.kind = .del)
  ctx := lines.countP (·.kind = .ctx)

/-- The elements from `lo` up to `hi`. -/
def slice {α : Type*} (l : List α) (lo hi : ℕ) : List α := (l.drop lo).take (hi - lo)

/-! ## The trims -/

/-- The counter at which a loop stops that runs while its test holds, at most `fuel` times. -/
def countWhile (test : ℕ → Bool) : ℕ → ℕ → ℕ
  | 0, k => k
  | fuel + 1, k => if test k then countWhile test fuel (k + 1) else k

def trimPrefix (a b : List Line) : ℕ :=
  countWhile (fun p => a[p]? = b[p]?) (min a.length b.length) 0

def trimSuffix (a b : List Line) (p : ℕ) : ℕ :=
  countWhile (fun s => a[a.length - 1 - s]? = b[b.length - 1 - s]?) (min a.length b.length - p) 0

/-! ## The lines of a script -/

def delLine (aOrig : List Line) (aOffset i : ℕ) : DiffLine :=
  { kind := .del, oldNo := aOffset + i + 1, newNo := 0, text := aOrig.getD i [] }

def addLine (bOrig : List Line) (bOffset j : ℕ) : DiffLine :=
  { kind := .add, oldNo := 0, newNo := bOffset + j + 1, text := bOrig.getD j [] }

def ctxLine (aOrig : List Line) (aOffset bOffset i j : ℕ) : DiffLine :=
  { kind := .ctx, oldNo := aOffset + i + 1, newNo := bOffset + j + 1, text := aOrig.getD i [] }

/-- Deletes the lines from `lo` up to `hi`. -/
def delRun (aOrig : List Line) (aOffset lo hi : ℕ) : List DiffLine :=
  (List.range' lo (hi - lo)).map (delLine aOrig aOffset)

/-- Adds the lines from `lo` up to `hi`. -/
def addRun (bOrig : List Line) (bOffset lo hi : ℕ) : List DiffLine :=
  (List.range' lo (hi - lo)).map (addLine bOrig bOffset)

/-! ## Divide and conquer -/

def lcsLastRow (a : List Line) (aLo aHi : ℕ) (b : List Line) (bLo bHi : ℕ) : List ℕ :=
  lastRow (slice a aLo aHi) (slice b bLo bHi)

/-- The first index of the greatest score in `lo..hi`. -/
def bestSplit (score : ℕ → ℕ) (lo hi : ℕ) : ℕ :=
  ((List.range' lo (hi + 1 - lo)).foldl
    (fun (best : ℕ × ℤ) j => if best.2 < score j then (j, (score j : ℤ)) else best) (lo, -1)).1

/-- Where the new side is split: the forward row of the old side's first half and the reverse row
of its second half add up to what a split keeps. -/
def splitPoint (a b : List Line) (aLo aMid aHi bLo bHi : ℕ) : ℕ :=
  let fwd := lcsLastRow a aLo aMid b bLo bHi
  let aRev := (slice a aMid aHi).reverse
  let bRev := (slice b bLo bHi).reverse
  let rev := lcsLastRow aRev 0 aRev.length bRev 0 bRev.length
  bestSplit (fun j => fwd.getD (j - bLo) 0 + rev.getD (bHi - j) 0) bLo bHi

theorem lt_middle {aLo aHi : ℕ} (h : aLo < aHi) (hm : aHi - aLo ≠ 1) :
    aLo < aLo + (aHi - aLo) / 2 := by omega

theorem middle_lt {aLo aHi : ℕ} (h : aLo < aHi) : aLo + (aHi - aLo) / 2 < aHi := by omega

/-- The old side is split at its middle and the new side where the two halves have the most in
common. The old side is never empty: its halves are not, and the caller's middle is not. -/
def hirschbergDiff (a b aOrig bOrig : List Line) (aOffset bOffset aLo aHi bLo bHi : ℕ)
    (h : aLo < aHi) : List DiffLine :=
  if bHi - bLo = 0 then delRun aOrig aOffset aLo aHi
  else if hm : aHi - aLo = 1 then
    match (List.range' bLo (bHi - bLo)).find? fun j => b[j]? = a[aLo]? with
    | none => delLine aOrig aOffset aLo :: addRun bOrig bOffset bLo bHi
    | some matchIdx =>
      addRun bOrig bOffset bLo matchIdx ++
        ctxLine aOrig aOffset bOffset aLo matchIdx :: addRun bOrig bOffset (matchIdx + 1) bHi
  else
    let aMid := aLo + (aHi - aLo) / 2
    let bestJ := splitPoint a b aLo aMid aHi bLo bHi
    hirschbergDiff a b aOrig bOrig aOffset bOffset aLo aMid bLo bestJ
        (lt_middle h hm) ++
      hirschbergDiff a b aOrig bOrig aOffset bOffset aMid aHi bestJ bHi
        (middle_lt h)
termination_by aHi - aLo

/-! ## The middle and the whole -/

/-- The walk through the dense table of the middles from position `(i, j)`. -/
def walk (a b aNormMid bNormMid : List Line) (t : List (List ℕ)) (p m n i j : ℕ) :
    List DiffLine :=
  if i < m ∧ j < n then
    if aNormMid[i]? = bNormMid[j]? then
      ctxLine a 0 0 (p + i) (p + j) :: walk a b aNormMid bNormMid t p m n (i + 1) (j + 1)
    else if cellAt t (i + 1) j ≥ cellAt t i (j + 1) then
      delLine a 0 (p + i) :: walk a b aNormMid bNormMid t p m n (i + 1) j
    else addLine b 0 (p + j) :: walk a b aNormMid bNormMid t p m n i (j + 1)
  else delRun a 0 (p + i) (p + m) ++ addRun b 0 (p + j) (p + n)
termination_by (m - i) + (n - j)

def spaceThreshold : ℕ := 4000000

def timeBudgetCells : ℕ := 25000000

def diffMiddle (a b aNorm bNorm : List Line) (p s : ℕ) : List DiffLine :=
  let aHi := a.length - s
  let bHi := b.length - s
  let m := aHi - p
  let n := bHi - p
  if m = 0 ∧ n = 0 then []
  else if m * n > timeBudgetCells then delRun a 0 p aHi ++ addRun b 0 p bHi
  else if h : m * n > spaceThreshold then
    hirschbergDiff (slice aNorm p aHi) (slice bNorm p bHi) (slice a p aHi) (slice b p bHi) p p
      0 m 0 n (Nat.pos_of_mul_pos_right (Nat.zero_lt_of_lt h))
  else
    let aNormMid := slice aNorm p aHi
    let bNormMid := slice bNorm p bHi
    walk a b aNormMid bNormMid (lcsTable aNormMid bNormMid) p m n 0 0

/-- The script of two line arrays, which are compared under a normalization. -/
def diffLineArrays (normalize : Line → Line) (a b : List Line) : List DiffLine :=
  let aNorm := a.map normalize
  let bNorm := b.map normalize
  let p := trimPrefix aNorm bNorm
  let s := trimSuffix aNorm bNorm p
  (List.range p).map (fun k => ctxLine a 0 0 k k) ++ diffMiddle a b aNorm bNorm p s ++
    (List.range s).map (fun k => ctxLine a 0 0 (a.length - s + k) (b.length - s + k))

end Marotte.Diff
