import Marotte.Diff.Delta

/-! # A line diff is an edit script

The rows of a line diff that are not additions are the old lines and the rows that are not
deletions the new ones, each side numbered from one. Within the budget no script has more context.
-/
namespace Marotte.Diff

/-- The characters of the pattern `\s`, which a trim takes off as well. -/
def isBlank (c : Char) : Bool :=
  c ∈ ['\t', '\n', Char.ofNat 0x0B, Char.ofNat 0x0C, '\r', ' ', Char.ofNat 0xA0, Char.ofNat 0x1680,
    Char.ofNat 0x2028, Char.ofNat 0x2029, Char.ofNat 0x202F, Char.ofNat 0x205F, Char.ofNat 0x3000,
    Char.ofNat 0xFEFF] || (0x2000 ≤ c.toNat && c.toNat ≤ 0x200A)

/-- Every run of blanks becomes one; `inRun` says that the run's one is written already. -/
def replaceBlanks (inRun : Bool) : Line → Line
  | [] => []
  | c :: s =>
    if isBlank c then
      if inRun then replaceBlanks true s else ' ' :: replaceBlanks true s
    else c :: replaceBlanks false s

def trimBlanks (s : Line) : Line :=
  ((s.dropWhile isBlank).reverse.dropWhile isBlank).reverse

/-- What a line is compared by. -/
def normalizeLine (ignoreWhitespace : Bool) (s : Line) : Line :=
  if ignoreWhitespace then trimBlanks (replaceBlanks false s) else s

def lineDiff (oldText newText : List Char) (ignoreWhitespace : Bool) : List DiffLine :=
  diffLineArrays (normalizeLine ignoreWhitespace) (splitLines oldText) (splitLines newText)

/-- The deletions and the context of a script. -/
def oldSide (rows : List DiffLine) : List DiffLine := rows.filter (·.kind ≠ .add)

/-- The additions and the context of a script. -/
def newSide (rows : List DiffLine) : List DiffLine := rows.filter (·.kind ≠ .del)

/-! ## The sides of a part of a script -/

/-- The lines from `lo` up to `hi`, numbered from one behind `offset` others. -/
def numbered (lines : List Line) (offset lo hi : ℕ) : List (ℕ × Line) :=
  (List.range' lo (hi - lo)).map fun i => (offset + i + 1, lines.getD i [])

theorem numbered_append (lines : List Line) (offset : ℕ) {lo mid hi : ℕ} (hlo : lo ≤ mid)
    (hhi : mid ≤ hi) :
    numbered lines offset lo mid ++ numbered lines offset mid hi = numbered lines offset lo hi := by
  have hrange : List.range' lo (mid - lo) ++ List.range' mid (hi - mid) =
      List.range' lo (hi - lo) := by
    rw [show hi - lo = mid - lo + (hi - mid) by omega, ← List.range'_append_1,
      Nat.add_sub_cancel' hlo]
  rw [numbered, numbered, ← List.map_append, hrange, numbered]

theorem numbered_self (lines : List Line) (offset lo : ℕ) : numbered lines offset lo lo = [] := by
  rw [numbered, Nat.sub_self, List.range'_zero, List.map_nil]

theorem numbered_one (lines : List Line) (offset lo : ℕ) :
    numbered lines offset lo (lo + 1) = [(offset + lo + 1, lines.getD lo [])] := by
  rw [numbered, Nat.add_sub_cancel_left]
  rfl

/-- The lines of a slice, numbered behind what lies before it. -/
theorem numbered_slice (lines : List Line) {p top lo hi : ℕ} (h : p + hi ≤ top) :
    numbered (slice lines p top) p lo hi = numbered lines 0 (p + lo) (p + hi) := by
  apply List.ext_getElem?
  intro k
  rw [numbered, numbered, List.getElem?_map, List.getElem?_map, Nat.add_sub_add_left]
  by_cases hk : k < hi - lo
  · rw [List.getElem?_range' hk, List.getElem?_range' hk, Option.map_some, Option.map_some,
      List.getD_eq_getElem?_getD, List.getD_eq_getElem?_getD, getElem?_slice (by omega)]
    congr 2
    · omega
    · congr 2
      omega
  · rw [List.getElem?_eq_none (by rw [List.length_range']; omega),
      List.getElem?_eq_none (by rw [List.length_range']; omega)]
    rfl

theorem numbered_all (lines : List Line) :
    (numbered lines 0 0 lines.length).map Prod.fst = List.range' 1 lines.length ∧
      (numbered lines 0 0 lines.length).map Prod.snd = lines := by
  constructor
  · apply List.ext_getElem?
    intro k
    by_cases hk : k < lines.length
    · simp [numbered, hk, Nat.add_comm]
    · simp [numbered, hk]
  · apply List.ext_getElem?
    intro k
    by_cases hk : k < lines.length
    · simp [numbered, hk]
    · simp [numbered, hk]

variable (normalize : Line → Line) (aOrig bOrig : List Line) (aOffset bOffset : ℕ)

/-- A part of a script that covers the old lines from `aLo` to `aHi` and the new ones from `bLo` to
`bHi`, where a context row shows the old line for a new one of the same normal form. -/
structure Spans (rows : List DiffLine) (aLo aHi bLo bHi : ℕ) : Prop where
  old : (oldSide rows).map (fun r => (r.oldNo, r.text)) = numbered aOrig aOffset aLo aHi
  new : (newSide rows).map (fun r => (r.newNo, normalize r.text)) =
    (numbered bOrig bOffset bLo bHi).map (Prod.map id normalize)

variable {normalize aOrig bOrig aOffset bOffset}
variable {rows rows' : List DiffLine} {aLo aMid aHi bLo bMid bHi : ℕ}

theorem Spans.append (h : Spans normalize aOrig bOrig aOffset bOffset rows aLo aMid bLo bMid)
    (h' : Spans normalize aOrig bOrig aOffset bOffset rows' aMid aHi bMid bHi) (ha : aLo ≤ aMid)
    (ha' : aMid ≤ aHi) (hb : bLo ≤ bMid) (hb' : bMid ≤ bHi) :
    Spans normalize aOrig bOrig aOffset bOffset (rows ++ rows') aLo aHi bLo bHi where
  old := by
    have hold := h.old
    have hold' := h'.old
    rw [oldSide] at hold hold' ⊢
    rw [List.filter_append, List.map_append, hold, hold', numbered_append aOrig aOffset ha ha']
  new := by
    have hnew := h.new
    have hnew' := h'.new
    rw [newSide] at hnew hnew' ⊢
    rw [List.filter_append, List.map_append, hnew, hnew', ← List.map_append,
      numbered_append bOrig bOffset hb hb']

theorem spans_nil (aLo bLo : ℕ) : Spans normalize aOrig bOrig aOffset bOffset [] aLo aLo bLo bLo where
  old := by
    rw [numbered_self]
    rfl
  new := by
    rw [numbered_self]
    rfl

theorem spans_delRun (aLo aHi bLo : ℕ) :
    Spans normalize aOrig bOrig aOffset bOffset (delRun aOrig aOffset aLo aHi) aLo aHi bLo bLo where
  old := by
    have hall : ∀ r ∈ delRun aOrig aOffset aLo aHi, decide (r.kind ≠ .add) = true := by
      intro r hr
      obtain ⟨i, -, rfl⟩ := List.mem_map.mp hr
      rfl
    rw [oldSide, List.filter_eq_self.mpr hall, delRun, List.map_map]
    rfl
  new := by
    have hnone : ∀ r ∈ delRun aOrig aOffset aLo aHi, ¬ decide (r.kind ≠ .del) = true := by
      intro r hr
      obtain ⟨i, -, rfl⟩ := List.mem_map.mp hr
      simp [delLine]
    rw [newSide, List.filter_eq_nil_iff.mpr hnone, numbered_self]
    rfl

theorem spans_addRun (aLo bLo bHi : ℕ) :
    Spans normalize aOrig bOrig aOffset bOffset (addRun bOrig bOffset bLo bHi) aLo aLo bLo bHi where
  old := by
    have hnone : ∀ r ∈ addRun bOrig bOffset bLo bHi, ¬ decide (r.kind ≠ .add) = true := by
      intro r hr
      obtain ⟨i, -, rfl⟩ := List.mem_map.mp hr
      simp [addLine]
    rw [oldSide, List.filter_eq_nil_iff.mpr hnone, numbered_self]
    rfl
  new := by
    have hall : ∀ r ∈ addRun bOrig bOffset bLo bHi, decide (r.kind ≠ .del) = true := by
      intro r hr
      obtain ⟨i, -, rfl⟩ := List.mem_map.mp hr
      rfl
    rw [newSide, List.filter_eq_self.mpr hall, addRun, List.map_map, numbered, List.map_map]
    rfl

theorem spans_delLine (i bLo : ℕ) :
    Spans normalize aOrig bOrig aOffset bOffset [delLine aOrig aOffset i] i (i + 1) bLo bLo := by
  have hrun : delRun aOrig aOffset i (i + 1) = [delLine aOrig aOffset i] := by
    rw [delRun, Nat.add_sub_cancel_left]
    rfl
  rw [← hrun]
  exact spans_delRun i (i + 1) bLo

theorem spans_addLine (aLo j : ℕ) :
    Spans normalize aOrig bOrig aOffset bOffset [addLine bOrig bOffset j] aLo aLo j (j + 1) := by
  have hrun : addRun bOrig bOffset j (j + 1) = [addLine bOrig bOffset j] := by
    rw [addRun, Nat.add_sub_cancel_left]
    rfl
  rw [← hrun]
  exact spans_addRun aLo j (j + 1)

theorem spans_ctxLine {i j : ℕ} (h : normalize (aOrig.getD i []) = normalize (bOrig.getD j [])) :
    Spans normalize aOrig bOrig aOffset bOffset [ctxLine aOrig aOffset bOffset i j] i (i + 1) j
      (j + 1) where
  old := by
    rw [numbered_one]
    rfl
  new := by
    rw [numbered_one, List.map_singleton, Prod.map_apply, ← h]
    rfl

/-- Lines of one normal form, where both sides hold the line. -/
theorem normalize_eq_of_getElem? {i j : ℕ} (hi : i < aOrig.length)
    (h : (aOrig.map normalize)[i]? = (bOrig.map normalize)[j]?) :
    normalize (aOrig.getD i []) = normalize (bOrig.getD j []) := by
  rw [List.getElem?_map, List.getElem?_map, List.getElem?_eq_getElem hi, Option.map_some] at h
  obtain ⟨y, hy, hyx⟩ := Option.map_eq_some_iff.mp h.symm
  rw [List.getD_eq_getElem?_getD, List.getD_eq_getElem?_getD, hy, List.getElem?_eq_getElem hi,
    Option.getD_some, Option.getD_some, hyx]

/-! ## The ways to a script -/

theorem spans_walk (t : List (List ℕ)) (a b : List Line) {p m n : ℕ} (hm : p + m ≤ a.length)
    (i j : ℕ) (hi : i ≤ m) (hj : j ≤ n) :
    Spans normalize a b 0 0
      (walk a b (slice (a.map normalize) p (p + m)) (slice (b.map normalize) p (p + n)) t p m n i j)
      (p + i) (p + m) (p + j) (p + n) := by
  fun_induction walk a b (slice (a.map normalize) p (p + m)) (slice (b.map normalize) p (p + n))
    t p m n i j with
  | case1 i j hij heq ih =>
    rw [getElem?_slice (by omega), getElem?_slice (by omega)] at heq
    have hsame := normalize_eq_of_getElem? (by omega) heq
    exact (spans_ctxLine hsame).append (ih (by omega) (by omega)) (by omega) (by omega) (by omega)
      (by omega)
  | case2 i j hij hne hcell ih =>
    exact (spans_delLine (p + i) (p + j)).append (ih (by omega) hj) (by omega) (by omega) (by omega)
      (by omega)
  | case3 i j hij hne hcell ih =>
    exact (spans_addLine (p + i) (p + j)).append (ih hi (by omega)) (by omega) (by omega) (by omega)
      (by omega)
  | case4 i j hij =>
    exact (spans_delRun (p + i) (p + m) (p + j)).append (spans_addRun (p + m) (p + j) (p + n))
      (by omega) (by omega) (by omega) (by omega)

/-- The divide and conquer splices its halves exactly. -/
theorem spans_hirschbergDiff (h : aLo < aHi) (haHi : aHi ≤ aOrig.length) (hb : bLo ≤ bHi)
    (hbHi : bHi ≤ bOrig.length) :
    Spans normalize aOrig bOrig aOffset bOffset
      (hirschbergDiff (aOrig.map normalize) (bOrig.map normalize) aOrig bOrig aOffset bOffset aLo
        aHi bLo bHi h) aLo aHi bLo bHi := by
  induction hm : aHi - aLo using Nat.strong_induction_on generalizing aLo aHi bLo bHi with
  | _ m ih =>
    rw [hirschbergDiff]
    split
    · next hn =>
      obtain rfl : bLo = bHi := by omega
      exact spans_delRun aLo aHi bLo
    · split
      · next hone =>
        obtain rfl : aHi = aLo + 1 := by omega
        split
        · exact (spans_delLine aLo bLo).append (spans_addRun (aLo + 1) bLo bHi) (by omega)
            (by omega) (by omega) (by omega)
        · next matchIdx hfind =>
          have hmem := List.mem_range'_1.mp (List.mem_of_find?_eq_some hfind)
          have htest := List.find?_some hfind
          rw [decide_eq_true_eq] at htest
          have hsame := normalize_eq_of_getElem? (by omega) htest.symm
          exact (spans_addRun aLo bLo matchIdx).append
            ((spans_ctxLine hsame).append (spans_addRun (aLo + 1) (matchIdx + 1) bHi) (by omega)
              (by omega) (by omega) (by omega)) (by omega) (by omega) (by omega) (by omega)
      · next hne =>
        obtain ⟨hlo, hhi, -⟩ := @splitPoint_spec (aOrig.map normalize) (bOrig.map normalize) aLo aHi
          bLo bHi (aLo + (aHi - aLo) / 2) (by omega) (by omega) hb
          (by rw [List.length_map]; exact hbHi)
        have hleft := @ih (aLo + (aHi - aLo) / 2 - aLo) (by omega) aLo (aLo + (aHi - aLo) / 2) bLo
          _ (by omega) (by omega) hlo (hhi.trans hbHi) rfl
        have hright := @ih (aHi - (aLo + (aHi - aLo) / 2)) (by omega) (aLo + (aHi - aLo) / 2) aHi
          _ bHi (by omega) haHi hhi hbHi rfl
        exact hleft.append hright (by omega) (by omega) hlo hhi

/-- A part of the whole, read off the part's own lines. -/
theorem Spans.of_slice {a b : List Line} {p aTop bTop m n : ℕ} (ha : p + m ≤ aTop)
    (hb : p + n ≤ bTop)
    (h : Spans normalize (slice a p aTop) (slice b p bTop) p p rows 0 m 0 n) :
    Spans normalize a b 0 0 rows p (p + m) p (p + n) where
  old := by
    have hold := h.old
    rwa [numbered_slice a ha] at hold
  new := by
    have hnew := h.new
    rwa [numbered_slice b hb] at hnew

theorem slice_map {α β : Type*} (f : α → β) (l : List α) (lo hi : ℕ) :
    slice (l.map f) lo hi = (slice l lo hi).map f := by
  rw [slice, slice, List.map_take, List.map_drop]

theorem spans_diffMiddle (a b : List Line) {p s : ℕ} (ha : p + s ≤ a.length)
    (hb : p + s ≤ b.length) :
    Spans normalize a b 0 0 (diffMiddle a b (a.map normalize) (b.map normalize) p s)
      p (a.length - s) p (b.length - s) := by
  obtain ⟨m, hm⟩ : ∃ m, a.length - s = p + m := ⟨a.length - s - p, by omega⟩
  obtain ⟨n, hn⟩ : ∃ n, b.length - s = p + n := ⟨b.length - s - p, by omega⟩
  simp only [diffMiddle, hm, hn, Nat.add_sub_cancel_left]
  split
  · next hzero =>
    rw [hzero.1, hzero.2]
    exact spans_nil p p
  · split
    · exact (spans_delRun p (p + m) p).append (spans_addRun (p + m) p (p + n)) (by omega) (by omega)
        (by omega) (by omega)
    · split
      · next hspace =>
        have hpos : 0 < m := Nat.pos_of_mul_pos_right (Nat.zero_lt_of_lt hspace)
        have hlenA : (slice a p (p + m)).length = p + m - p := length_slice (by omega)
        have hlenB : (slice b p (p + n)).length = p + n - p := length_slice (by omega)
        have hrec := @spans_hirschbergDiff normalize (slice a p (p + m)) (slice b p (p + n)) p p
          0 m 0 n hpos (by omega) (Nat.zero_le _) (by omega)
        rw [← slice_map, ← slice_map] at hrec
        exact hrec.of_slice (Nat.le_refl _) (Nat.le_refl _)
      · exact spans_walk _ a b (by omega) 0 0 (Nat.zero_le _) (Nat.zero_le _)

/-- Context rows of a stretch where both sides have the same normal forms. -/
theorem spans_context {a b : List Line} (i j n : ℕ)
    (h : ∀ k < n, normalize (a.getD (i + k) []) = normalize (b.getD (j + k) [])) :
    Spans normalize a b 0 0 ((List.range n).map fun k => ctxLine a 0 0 (i + k) (j + k))
      i (i + n) j (j + n) := by
  induction n with
  | zero => exact spans_nil i j
  | succ n ih =>
    rw [List.range_succ, List.map_append]
    exact (ih fun k hk => h k (by omega)).append (spans_ctxLine (h n (by omega))) (by omega)
      (by omega) (by omega) (by omega)

theorem spans_diffLineArrays (a b : List Line) :
    Spans normalize a b 0 0 (diffLineArrays normalize a b) 0 a.length 0 b.length := by
  rw [diffLineArrays]
  have hp := @trimPrefix_le (a.map normalize) (b.map normalize)
  have hs := @trimSuffix_le (a.map normalize) (b.map normalize)
    (trimPrefix (a.map normalize) (b.map normalize))
  have hpre := @take_trimPrefix (a.map normalize) (b.map normalize)
  have hsuf := @drop_trimSuffix (a.map normalize) (b.map normalize)
    (trimPrefix (a.map normalize) (b.map normalize))
  generalize trimPrefix (a.map normalize) (b.map normalize) = p at hp hs hpre hsuf ⊢
  generalize trimSuffix (a.map normalize) (b.map normalize) p = s at hs hsuf ⊢
  rw [List.length_map, List.length_map] at hp hs hsuf
  have hfront := @spans_context normalize a b 0 0 p (by
    intro k hk
    rw [Nat.zero_add]
    apply normalize_eq_of_getElem? (by omega)
    rw [← List.getElem?_take_of_lt hk, hpre, List.getElem?_take_of_lt hk])
  have hback := @spans_context normalize a b (a.length - s) (b.length - s) s (by
    intro k hk
    apply normalize_eq_of_getElem? (by omega)
    rw [← List.getElem?_drop, hsuf, List.getElem?_drop])
  have hmid := @spans_diffMiddle normalize a b p s (by omega) (by omega)
  simp only [Nat.zero_add] at hfront
  rw [show a.length - s + s = a.length by omega, show b.length - s + s = b.length by omega] at hback
  exact (hfront.append hmid (by omega) (by omega) (by omega) (by omega)).append hback (by omega)
    (by omega) (by omega) (by omega)

/-! ## The whole -/

/-- A script from the old lines to the new ones. -/
structure ValidScript (normalize : Line → Line) (old new : List Line) (rows : List DiffLine) :
    Prop where
  oldText : (oldSide rows).map (·.text) = old
  newText : (newSide rows).map (fun r => normalize r.text) = new.map normalize
  oldNos : (oldSide rows).map (·.oldNo) = List.range' 1 old.length
  newNos : (newSide rows).map (·.newNo) = List.range' 1 new.length

theorem validScript_diffLineArrays (normalize : Line → Line) (a b : List Line) :
    ValidScript normalize a b (diffLineArrays normalize a b) := by
  obtain ⟨hold, hnew⟩ := @spans_diffLineArrays normalize a b
  obtain ⟨hnosA, htextA⟩ := numbered_all a
  obtain ⟨hnosB, htextB⟩ := numbered_all b
  constructor
  · have htext := congrArg (List.map Prod.snd) hold
    rwa [List.map_map, htextA] at htext
  · have htext := congrArg (List.map Prod.snd) hnew
    rw [List.map_map, List.map_map] at htext
    conv_rhs => rw [← htextB, List.map_map]
    exact htext
  · have hnos := congrArg (List.map Prod.fst) hold
    rwa [List.map_map, hnosA] at hnos
  · have hnos := congrArg (List.map Prod.fst) hnew
    rw [List.map_map, List.map_map] at hnos
    rw [← hnosB]
    exact hnos

/-- The old side is the deletions and the context. -/
theorem length_oldSide (rows : List DiffLine) :
    (oldSide rows).length = (stats rows).dels + (stats rows).ctx := by
  induction rows with
  | nil => rfl
  | cons r rows ih =>
    simp only [oldSide, stats, List.filter_cons, List.countP_cons] at ih ⊢
    cases r.kind with
    | add => simpa using ih
    | del =>
      simp at ih ⊢
      omega
    | ctx =>
      simp at ih ⊢
      omega

/-- The context of a script is what its sides keep. -/
theorem ctx_diffLineArrays (normalize : Line → Line) (a b : List Line) :
    let aNorm := a.map normalize
    let bNorm := b.map normalize
    let p := trimPrefix aNorm bNorm
    let s := trimSuffix aNorm bNorm p
    (stats (diffLineArrays normalize a b)).ctx =
      p + kept (middle aNorm p s) (middle bNorm p s) + s := by
  intro aNorm bNorm p s
  have hdels : (stats (diffLineArrays normalize a b)).dels +
      (p + kept (middle aNorm p s) (middle bNorm p s) + s) = p + (middle aNorm p s).length + s :=
    (counted_diffLineArrays normalize a b).dels
  have hlen := congrArg List.length (validScript_diffLineArrays normalize a b).oldText
  rw [List.length_map, length_oldSide] at hlen
  have hp : p ≤ min aNorm.length bNorm.length := trimPrefix_le
  have hs : s ≤ min aNorm.length bNorm.length - p := trimSuffix_le p
  have haNorm : aNorm.length = a.length := List.length_map ..
  rw [length_middle] at hdels
  omega

/-- For every two texts and both options the rows are a script from the old lines to the new ones,
numbered from one on each side, and while the trimmed middle is within the cell budget no script
has more context: there are as many context rows as a longest common subsequence has lines. -/
theorem lineDiff_valid (oldText newText : List Char) (ignoreWhitespace : Bool) :
    ValidScript (normalizeLine ignoreWhitespace) (splitLines oldText) (splitLines newText)
        (lineDiff oldText newText ignoreWhitespace) ∧
      let aNorm := (splitLines oldText).map (normalizeLine ignoreWhitespace)
      let bNorm := (splitLines newText).map (normalizeLine ignoreWhitespace)
      let p := trimPrefix aNorm bNorm
      let s := trimSuffix aNorm bNorm p
      (middle aNorm p s).length * (middle bNorm p s).length ≤ timeBudgetCells →
        (stats (lineDiff oldText newText ignoreWhitespace)).ctx = lcs aNorm bNorm := by
  refine ⟨validScript_diffLineArrays (normalizeLine ignoreWhitespace) _ _, ?_⟩
  intro aNorm bNorm p s hbudget
  have hctx : (stats (lineDiff oldText newText ignoreWhitespace)).ctx
      = p + kept (middle aNorm p s) (middle bNorm p s) + s :=
    ctx_diffLineArrays (normalizeLine ignoreWhitespace) (splitLines oldText) (splitLines newText)
  have hlcs : lcs aNorm bNorm = p + lcs (middle aNorm p s) (middle bNorm p s) + s :=
    lcs_eq_middle aNorm bNorm
  rw [hctx, kept_of_le hbudget, hlcs]

theorem lineDiff_valid_call :
    let a := splitLines "a\nb \tc\nd\n".toList
    let b := splitLines "x\nb c\ne\n".toList
    ValidScript (normalizeLine true) a b
        (lineDiff "a\nb \tc\nd\n".toList "x\nb c\ne\n".toList true) ∧
      (stats (lineDiff "a\nb \tc\nd\n".toList "x\nb c\ne\n".toList true)).ctx =
        lcs (a.map (normalizeLine true)) (b.map (normalizeLine true)) := by
  obtain ⟨hvalid, hctx⟩ := lineDiff_valid "a\nb \tc\nd\n".toList "x\nb c\ne\n".toList true
  exact ⟨hvalid, hctx (by decide +kernel)⟩

end Marotte.Diff
