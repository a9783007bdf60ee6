import Marotte.Diff.Script
import Mathlib.Data.List.Basic

/-! # The word diff of one line

The two versions of a line are split into words, and a walk through the dense table of the words
collects the ranges of each version that the other does not have. What is left of the two versions
is one text.
-/
namespace Marotte.Diff

/-- A text as its UTF-16 code units. -/
abbrev Units := List UInt16

/-- A half-open range of a line. -/
structure CharRange where
  start : ℕ
  stop : ℕ
  deriving DecidableEq

structure WordDiff where
  del : List CharRange
  add : List CharRange
  deriving DecidableEq

def maxWordTokens : ℕ := 400

def maxWordRuns : ℕ := 8

/-- Digits, letters, `_`, `$`, and every code unit past ASCII. -/
def isWordCharCode (c : UInt16) : Bool :=
  (48 ≤ c && c ≤ 57) || (65 ≤ c && c ≤ 90) || (97 ≤ c && c ≤ 122) || c = 95 || c = 36 || 0x80 ≤ c

def isSpaceCode (c : UInt16) : Bool := c = 32 || c = 9

/-- The code units that a trim takes off an end. -/
def isTrimmed (c : UInt16) : Bool :=
  (9 ≤ c && c ≤ 13) || c = 32 || c = 0xA0 || c = 0x1680 || (0x2000 ≤ c && c ≤ 0x200A) ||
    c = 0x2028 || c = 0x2029 || c = 0x202F || c = 0x205F || c = 0x3000 || c = 0xFEFF

/-- What a shared word counts for: nothing if a trim empties it. -/
def inkOf (s : Units) : ℕ := if s.all isTrimmed then 0 else s.length

structure WordToken where
  text : Units
  start : ℕ
  deriving DecidableEq

/-- The word at the front of a line: an identifier run, a run of blanks, or one other code unit. -/
def firstWord (c : UInt16) (s : Units) : Units :=
  if isWordCharCode c then c :: s.takeWhile isWordCharCode
  else if isSpaceCode c then c :: s.takeWhile isSpaceCode
  else [c]

/-- The words of a line from position `pos` on. -/
def splitWords (pos : ℕ) : Units → List WordToken
  | [] => []
  | c :: s =>
    { text := firstWord c s, start := pos } ::
      splitWords (pos + (firstWord c s).length) (s.drop ((firstWord c s).length - 1))
termination_by s => s.length
decreasing_by
  rw [List.length_drop, List.length_cons]
  omega

/-- A word's span goes to the end of the ranges, into the last of them where the two touch. -/
def pushRange (out : List CharRange) (tok : WordToken) : List CharRange :=
  let stop := tok.start + tok.text.length
  match out.getLast? with
  | none => out ++ [{ start := tok.start, stop }]
  | some last =>
    if last.stop = tok.start then out.dropLast ++ [{ start := last.start, stop }]
    else out ++ [{ start := tok.start, stop }]

/-- What the walk has collected. -/
structure WordWalk where
  del : List CharRange := []
  add : List CharRange := []
  matchedInk : ℕ := 0

/-- The walk through the dense table of the words from position `(i, j)`. -/
def walkWords (a b : List WordToken) (t : List (List ℕ)) (i j : ℕ) (w : WordWalk) : WordWalk :=
  if h : i < a.length ∧ j < b.length then
    if a[i].text = b[j].text then
      walkWords a b t (i + 1) (j + 1)
        { w with matchedInk := w.matchedInk + inkOf a[i].text }
    else if cellAt t (i + 1) j ≥ cellAt t i (j + 1) then
      walkWords a b t (i + 1) j { w with del := pushRange w.del a[i] }
    else walkWords a b t i (j + 1) { w with add := pushRange w.add b[j] }
  else
    { w with
      del := (a.drop i).foldl pushRange w.del
      add := (b.drop j).foldl pushRange w.add }
termination_by (a.length - i) + (b.length - j)

/-- The ranges that differ between two versions of a line, or none when they would say no more than
the line's own tint. -/
def wordDiff (oldLine newLine : Units) : Option WordDiff :=
  if oldLine = newLine ∨ oldLine = [] ∨ newLine = [] then none
  else
    let a := splitWords 0 oldLine
    let b := splitWords 0 newLine
    if a.length > maxWordTokens ∨ b.length > maxWordTokens then none
    else
      let t := lcsTable (a.map WordToken.text) (b.map WordToken.text)
      let w := walkWords a b t 0 0 {}
      if w.matchedInk = 0 then none
      else if w.del.length > maxWordRuns ∨ w.add.length > maxWordRuns then none
      else some { del := w.del, add := w.add }

/-! ## What ranges cover -/

def covered (rs : List CharRange) (i : ℕ) : Bool := rs.any fun r => r.start ≤ i ∧ i < r.stop

/-- A text that starts at position `pos`, without what the ranges cover. -/
def uncovered (rs : List CharRange) (pos : ℕ) : Units → Units
  | [] => []
  | c :: s => if covered rs pos then uncovered rs (pos + 1) s else c :: uncovered rs (pos + 1) s

variable {rs rs' : List CharRange} {pos : ℕ}

theorem uncovered_append (rs : List CharRange) (pos : ℕ) (s t : Units) :
    uncovered rs pos (s ++ t) = uncovered rs pos s ++ uncovered rs (pos + s.length) t := by
  induction s generalizing pos with
  | nil => rfl
  | cons c s ih =>
    have hpos : pos + (c :: s).length = pos + 1 + s.length := by
      rw [List.length_cons]
      omega
    rw [hpos, List.cons_append, uncovered, uncovered, ih]
    split
    · rfl
    · rfl

theorem uncovered_congr {s : Units}
    (h : ∀ i, pos ≤ i → i < pos + s.length → covered rs' i = covered rs i) :
    uncovered rs' pos s = uncovered rs pos s := by
  induction s generalizing pos with
  | nil => rfl
  | cons c s ih =>
    rw [List.length_cons] at h
    rw [uncovered, uncovered, h pos (Nat.le_refl _) (by omega),
      ih fun i hle hlt => h i (by omega) (by omega)]

theorem uncovered_none {s : Units}
    (h : ∀ i, pos ≤ i → i < pos + s.length → covered rs i = false) : uncovered rs pos s = s := by
  induction s generalizing pos with
  | nil => rfl
  | cons c s ih =>
    rw [List.length_cons] at h
    rw [uncovered, h pos (Nat.le_refl _) (by omega), ih fun i hle hlt => h i (by omega) (by omega)]
    rfl

theorem uncovered_all {s : Units}
    (h : ∀ i, pos ≤ i → i < pos + s.length → covered rs i = true) : uncovered rs pos s = [] := by
  induction s generalizing pos with
  | nil => rfl
  | cons c s ih =>
    rw [List.length_cons] at h
    rw [uncovered, h pos (Nat.le_refl _) (by omega), ih fun i hle hlt => h i (by omega) (by omega)]
    rfl

/-- Ranges that ascend up to `bound`, none of them empty and no two touching. -/
structure Spaced (bound : ℕ) (rs : List CharRange) : Prop where
  apart : rs.Pairwise fun r r' => r.stop < r'.start
  filled : ∀ r ∈ rs, r.start < r.stop
  within : ∀ r ∈ rs, r.stop ≤ bound

theorem spaced_nil (bound : ℕ) : Spaced bound [] := ⟨.nil, by simp, by simp⟩

theorem Spaced.mono (h : Spaced pos rs) {bound : ℕ} (hle : pos ≤ bound) : Spaced bound rs :=
  ⟨h.apart, h.filled, fun r hr => (h.within r hr).trans hle⟩

/-- Nothing is covered behind the bound. -/
theorem Spaced.covered_eq_false (h : Spaced pos rs) {i : ℕ} (hi : pos ≤ i) :
    covered rs i = false := by
  rw [covered, List.any_eq_false]
  intro r hr hin
  have hbound := h.within r hr
  simp only [decide_eq_true_eq] at hin
  omega

/-- A range behind all others. -/
theorem Spaced.concat {r : CharRange} (h : Spaced pos rs) (hbehind : ∀ x ∈ rs, x.stop < r.start)
    (hfilled : r.start < r.stop) : Spaced r.stop (rs ++ [r]) where
  apart := by
    rw [List.pairwise_append]
    refine ⟨h.apart, List.pairwise_singleton _ _, fun x hx y hy => ?_⟩
    rw [List.mem_singleton.mp hy]
    exact hbehind x hx
  filled x hx := by
    rcases List.mem_append.mp hx with hx | hx
    · exact h.filled x hx
    · rw [List.mem_singleton.mp hx]
      exact hfilled
  within x hx := by
    rcases List.mem_append.mp hx with hx | hx
    · have hlt := hbehind x hx
      omega
    · rw [List.mem_singleton.mp hx]

theorem covered_concat (rs : List CharRange) (r : CharRange) (i : ℕ) :
    covered (rs ++ [r]) i = (covered rs i || decide (r.start ≤ i ∧ i < r.stop)) := by
  rw [covered, covered, List.any_append, List.any_cons, List.any_nil, Bool.or_false]

/-- A word behind the ranges, pushed. -/
theorem Spaced.pushRange {tok : WordToken} (h : Spaced tok.start rs) (hne : tok.text ≠ []) :
    Spaced (tok.start + tok.text.length) (pushRange rs tok) ∧
      ∀ i, covered (pushRange rs tok) i =
        (covered rs i || decide (tok.start ≤ i ∧ i < tok.start + tok.text.length)) := by
  have hpos : 0 < tok.text.length := List.length_pos_iff.mpr hne
  rcases List.eq_nil_or_concat' rs with rfl | ⟨front, last, rfl⟩
  · refine ⟨(spaced_nil 0).concat (r := ⟨tok.start, tok.start + tok.text.length⟩) (by simp) ?_,
      fun i => ?_⟩
    · simp only
      omega
    · simp [Diff.pushRange, covered]
  have hlast := h.within last (by simp)
  have hfilled := h.filled last (by simp)
  obtain ⟨hfront, -, hbehind⟩ := List.pairwise_append.mp h.apart
  simp only [Diff.pushRange, List.getLast?_concat, List.dropLast_concat]
  split
  · rename_i htouch
    have hspaced : Spaced tok.start front :=
      ⟨hfront, fun r hr => h.filled r (List.mem_append_left _ hr),
        fun r hr => h.within r (List.mem_append_left _ hr)⟩
    refine ⟨hspaced.concat (r := ⟨last.start, tok.start + tok.text.length⟩) ?_ ?_, fun i => ?_⟩
    · intro r hr
      exact hbehind r hr last (by simp)
    · simp only
      omega
    · rw [covered_concat, covered_concat, Bool.or_assoc]
      congr 1
      rw [Bool.eq_iff_iff, Bool.or_eq_true, decide_eq_true_eq, decide_eq_true_eq, decide_eq_true_eq]
      simp only
      omega
  · rename_i hgap
    refine ⟨h.concat (r := ⟨tok.start, tok.start + tok.text.length⟩) ?_ ?_, fun i => ?_⟩
    · intro r hr
      rcases List.mem_append.mp hr with hr | hr
      · have hlt := hbehind r hr last (by simp)
        simp only
        omega
      · rw [List.mem_singleton.mp hr]
        simp only
        omega
    · simp only
      omega
    · exact covered_concat _ _ i

/-! ## Words -/

/-- Words that lie one behind another from a position on and make up a text. -/
inductive Tiled : ℕ → List WordToken → Units → Prop
  | nil {pos : ℕ} : Tiled pos [] []
  | cons {pos : ℕ} {tok : WordToken} {toks : List WordToken} {s : Units} (hstart : tok.start = pos)
      (hne : tok.text ≠ []) (h : Tiled (pos + tok.text.length) toks s) :
      Tiled pos (tok :: toks) (tok.text ++ s)

theorem firstWord_ne_nil (c : UInt16) (s : Units) : firstWord c s ≠ [] := by
  rw [firstWord]
  split
  · exact List.cons_ne_nil _ _
  · split
    · exact List.cons_ne_nil _ _
    · exact List.cons_ne_nil _ _

theorem firstWord_append (c : UInt16) (s : Units) :
    firstWord c s ++ s.drop ((firstWord c s).length - 1) = c :: s := by
  have hrun : ∀ p : UInt16 → Bool,
      c :: s.takeWhile p ++ s.drop (s.takeWhile p).length = c :: s := by
    intro p
    obtain ⟨rest, hrest⟩ := List.takeWhile_prefix (l := s) p
    have hdrop := congrArg (List.drop (s.takeWhile p).length) hrest
    rw [List.drop_left] at hdrop
    rw [← hdrop, List.cons_append, hrest]
  rw [firstWord]
  split
  · exact hrun isWordCharCode
  · split
    · exact hrun isSpaceCode
    · rfl

/-- Every code unit lands in exactly one word. -/
theorem tiled_splitWords (pos : ℕ) (s : Units) : Tiled pos (splitWords pos s) s := by
  induction hlen : s.length using Nat.strong_induction_on generalizing pos s with
  | _ n ih =>
    cases s with
    | nil =>
      rw [splitWords]
      exact .nil
    | cons c s =>
      rw [splitWords]
      have hrest := ih (s.drop ((firstWord c s).length - 1)).length (by
        rw [List.length_cons] at hlen
        rw [List.length_drop]
        omega) (pos + (firstWord c s).length) _ rfl
      have hword : (WordToken.mk (firstWord c s) pos).start = pos := rfl
      have htiled := Tiled.cons hword (firstWord_ne_nil c s) hrest
      rw [firstWord_append] at htiled
      exact htiled

/-! ## The walk -/

/-- A side of the walk that has read `read` of its line: the words ahead make up the rest, and the
ranges lie within what was read. -/
structure Side (line : Units) (toks : List WordToken) (rs : List CharRange) (read : Units) :
    Prop where
  ahead : ∃ rest, line = read ++ rest ∧ Tiled read.length toks rest
  spaced : Spaced read.length rs

/-- A word that both sides have stays uncovered. -/
theorem Side.keep {line read : Units} {tok : WordToken} {toks : List WordToken}
    (h : Side line (tok :: toks) rs read) :
    Side line toks rs (read ++ tok.text) ∧
      uncovered rs 0 (read ++ tok.text) = uncovered rs 0 read ++ tok.text := by
  obtain ⟨⟨rest, rfl, htiled⟩, hspaced⟩ := h
  cases htiled with
  | @cons _ _ _ s hstart hne hrest =>
    constructor
    · refine ⟨⟨s, (List.append_assoc ..).symm, ?_⟩, hspaced.mono ?_⟩
      · rw [List.length_append]
        exact hrest
      · rw [List.length_append]
        exact Nat.le_add_right _ _
    · rw [uncovered_append, Nat.zero_add, uncovered_none (s := tok.text)]
      intro i hle _
      exact hspaced.covered_eq_false hle

/-- A word that the other side lacks is covered. -/
theorem Side.push {line read : Units} {tok : WordToken} {toks : List WordToken}
    (h : Side line (tok :: toks) rs read) :
    Side line toks (pushRange rs tok) (read ++ tok.text) ∧
      uncovered (pushRange rs tok) 0 (read ++ tok.text) = uncovered rs 0 read := by
  obtain ⟨⟨rest, rfl, htiled⟩, hspaced⟩ := h
  cases htiled with
  | @cons _ _ _ s hstart hne hrest =>
    rw [← hstart] at hspaced
    obtain ⟨hpushed, hcovered⟩ := hspaced.pushRange hne
    rw [hstart] at hpushed hcovered
    constructor
    · refine ⟨⟨s, (List.append_assoc ..).symm, ?_⟩, ?_⟩
      · rw [List.length_append]
        exact hrest
      · rw [List.length_append]
        exact hpushed
    · rw [uncovered_append, uncovered_all (s := tok.text), List.append_nil]
      · apply uncovered_congr
        intro i _ hlt
        rw [hcovered i, decide_eq_false (by omega), Bool.or_false]
      · intro i hle hlt
        rw [hcovered i, decide_eq_true (by omega), Bool.or_true]

/-- The words that one side is left with are all covered. -/
theorem Side.pushAll {line read : Units} {toks : List WordToken} (h : Side line toks rs read) :
    Spaced line.length (toks.foldl pushRange rs) ∧
      uncovered (toks.foldl pushRange rs) 0 line = uncovered rs 0 read := by
  induction toks generalizing rs read with
  | nil =>
    obtain ⟨⟨rest, rfl, htiled⟩, hspaced⟩ := h
    cases htiled
    rw [List.append_nil]
    exact ⟨hspaced, rfl⟩
  | cons tok toks ih =>
    obtain ⟨hside, huncovered⟩ := h.push
    obtain ⟨hspaced, heq⟩ := ih hside
    exact ⟨hspaced, heq.trans huncovered⟩

/-- The ranges of either version ascend within it, none empty and no two touching, and without them
the two versions are one text. -/
structure Highlights (oldLine newLine : Units) (del add : List CharRange) : Prop where
  deleted : Spaced oldLine.length del
  added : Spaced newLine.length add
  rest : uncovered del 0 oldLine = uncovered add 0 newLine

theorem highlights_walkWords {oldLine newLine : Units} (a b : List WordToken) (t : List (List ℕ))
    (i j : ℕ) (w : WordWalk) {oldRead newRead : Units}
    (hdel : Side oldLine (a.drop i) w.del oldRead) (hadd : Side newLine (b.drop j) w.add newRead)
    (hrest : uncovered w.del 0 oldRead = uncovered w.add 0 newRead) :
    Highlights oldLine newLine (walkWords a b t i j w).del (walkWords a b t i j w).add := by
  fun_induction walkWords a b t i j w generalizing oldRead newRead with
  | case1 i j w hij hsame ih =>
    rw [List.drop_eq_getElem_cons hij.1] at hdel
    rw [List.drop_eq_getElem_cons hij.2] at hadd
    obtain ⟨hdel', holdRest⟩ := hdel.keep
    obtain ⟨hadd', hnewRest⟩ := hadd.keep
    apply ih hdel' hadd'
    rw [holdRest, hnewRest, hrest, hsame]
  | case2 i j w hij hdiffer hcell ih =>
    rw [List.drop_eq_getElem_cons hij.1] at hdel
    obtain ⟨hdel', holdRest⟩ := hdel.push
    exact ih hdel' hadd (holdRest.trans hrest)
  | case3 i j w hij hdiffer hcell ih =>
    rw [List.drop_eq_getElem_cons hij.2] at hadd
    obtain ⟨hadd', hnewRest⟩ := hadd.push
    exact ih hdel hadd' (hrest.trans hnewRest.symm)
  | case4 i j w hij =>
    obtain ⟨holdSpaced, holdRest⟩ := hdel.pushAll
    obtain ⟨hnewSpaced, hnewRest⟩ := hadd.pushAll
    exact ⟨holdSpaced, hnewSpaced, holdRest.trans (hrest.trans hnewRest.symm)⟩

theorem side_start (line : Units) : Side line (splitWords 0 line) [] [] :=
  ⟨⟨line, rfl, tiled_splitWords 0 line⟩, spaced_nil 0⟩

/-- For every pair of lines, whichever exit is taken: the ranges account for the difference. -/
theorem wordDiff_highlights {oldLine newLine : Units} {d : WordDiff}
    (h : wordDiff oldLine newLine = some d) : Highlights oldLine newLine d.del d.add := by
  rw [wordDiff] at h
  split at h
  · cases h
  simp only at h
  split at h
  · cases h
  split at h
  · cases h
  split at h
  · cases h
  rw [Option.some.injEq] at h
  rw [← h]
  exact highlights_walkWords _ _ _ 0 0 {} (side_start oldLine) (side_start newLine) rfl

/-- An argument renamed and one inserted behind it, in a call that is kept. -/
theorem wordDiff_highlights_call :
    let old : Units := [102, 111, 111, 40, 97, 41]
    let new : Units := [102, 111, 111, 40, 98, 44, 32, 99, 41]
    wordDiff old new = some { del := [⟨4, 5⟩], add := [⟨4, 8⟩] } ∧
      Highlights old new [⟨4, 5⟩] [⟨4, 8⟩] := by
  intro old new
  have h : wordDiff old new = some { del := [⟨4, 5⟩], add := [⟨4, 8⟩] } := by decide +kernel
  exact ⟨h, wordDiff_highlights h⟩

end Marotte.Diff
