import Marotte.Entry.Bounds

/-! # The bound of an output

The window of an output's first and last lines, the cut of its first and last bytes, and what a
second bound does to a bounded output. The line feed that joins two full halves is a byte past the
budget, so that output is cut again; it may be a line past the budget too, and then words are lost.
-/
namespace Marotte

/-! ## Byte lengths -/

namespace Json

variable {cs cs' front back : List Char}

@[simp] theorem utf8Len_nil : utf8Len [] = 0 := rfl

@[simp] theorem utf8Len_cons (c : Char) (cs : List Char) :
    utf8Len (c :: cs) = c.utf8Size + utf8Len cs := rfl

@[simp] theorem utf8Len_append (cs cs' : List Char) :
    utf8Len (cs ++ cs') = utf8Len cs + utf8Len cs' := by
  rw [utf8Len, List.map_append, List.sum_append]
  rfl

@[simp] theorem utf8Len_reverse (cs : List Char) : utf8Len cs.reverse = utf8Len cs := by
  rw [utf8Len, List.map_reverse, List.sum_reverse]
  rfl

theorem utf8Len_replicate (n : ℕ) (c : Char) :
    utf8Len (List.replicate n c) = n * c.utf8Size := by
  rw [utf8Len, List.map_replicate, List.sum_replicate_nat]

theorem utf8Len_eq_zero : utf8Len cs = 0 ↔ cs = [] := by
  cases cs with
  | nil => exact iff_of_true rfl rfl
  | cons c cs =>
    have hpos := c.utf8Size_pos
    rw [utf8Len_cons]
    exact iff_of_false (by omega) (List.cons_ne_nil c cs)

theorem utf8ByteSize_ofList (cs : List Char) : (String.ofList cs).utf8ByteSize = utf8Len cs := by
  induction cs with
  | nil => rfl
  | cons c cs ih =>
    rw [utf8Len_cons, ← ih]
    simp [String.utf8ByteSize, String.ofList, List.utf8Encode]

theorem utf8ByteSize_eq (s : String) : s.utf8ByteSize = utf8Len s.toList := by
  rw [← utf8ByteSize_ofList, String.ofList_toList]

theorem utf8Len_newline : '\n'.utf8Size = 1 := rfl

/-- A front and a back that do not fill a text lie apart in it. -/
theorem exists_middle (hfront : front <+: cs) (hback : back <:+ cs)
    (h : utf8Len front + utf8Len back ≤ utf8Len cs) : ∃ mid, cs = front ++ mid ++ back := by
  obtain ⟨rest, rfl⟩ := hfront
  obtain ⟨pre, hpre⟩ := hback
  rcases List.append_eq_append_iff.mp hpre with ⟨shared, hfront, hback⟩ | ⟨mid, hmid, hrest⟩
  · rw [hfront, hback] at h
    simp only [utf8Len_append] at h
    have hnil : shared = [] := utf8Len_eq_zero.mp (by omega)
    rw [hback, hnil]
    exact ⟨[], by rw [List.append_nil, List.nil_append]⟩
  · exact ⟨mid, by rw [hrest, List.append_assoc]⟩

end Json
open Json

/-! ## The byte cut -/

theorem cutRunes_isPrefix (n : ℕ) (cs : List Char) : cutRunes n cs <+: cs := by
  induction cs generalizing n with
  | nil => exact List.nil_prefix
  | cons c cs ih =>
    rw [cutRunes]
    split
    · exact List.cons_prefix_cons.mpr ⟨rfl, ih _⟩
    · exact List.nil_prefix

theorem cutRunes_le (n : ℕ) (cs : List Char) : utf8Len (cutRunes n cs) ≤ n := by
  induction cs generalizing n with
  | nil => exact Nat.zero_le n
  | cons c cs ih =>
    rw [cutRunes]
    split
    · have hle := ih (n - c.utf8Size)
      rw [utf8Len_cons]
      omega
    · exact Nat.zero_le n

/-- A cut at a rune boundary keeps all that is before it. -/
theorem cutRunes_append (front rest : List Char) : cutRunes (utf8Len front) (front ++ rest) = front := by
  induction front with
  | nil =>
    cases rest with
    | nil => rfl
    | cons c rest =>
      rw [List.nil_append, cutRunes, if_neg]
      exact Nat.not_le.mpr c.utf8Size_pos
  | cons c front ih =>
    rw [List.cons_append, cutRunes, utf8Len_cons, if_pos (Nat.le_add_right ..),
      Nat.add_sub_cancel_left, ih]

theorem cutRunesFront_suffix (n : ℕ) (cs : List Char) : cutRunesFront n cs <:+ cs := by
  have hpre := cutRunes_isPrefix n cs.reverse
  rw [← List.reverse_suffix, List.reverse_reverse] at hpre
  exact hpre

theorem cutRunesFront_le (n : ℕ) (cs : List Char) : utf8Len (cutRunesFront n cs) ≤ n := by
  rw [cutRunesFront, utf8Len_reverse]
  exact cutRunes_le n cs.reverse

theorem cutRunesFront_append (front back : List Char) :
    cutRunesFront (utf8Len back) (front ++ back) = back := by
  rw [cutRunesFront, List.reverse_append, ← utf8Len_reverse, cutRunes_append, List.reverse_reverse]

/-! ## The window of lines -/

/-- The text before a newline that `n` others precede. -/
theorem headLines_append (head rest : List Char) :
    headLines (head.count '\n' + 1) (head ++ '\n' :: rest) = head := by
  induction head with
  | nil => rfl
  | cons c head ih =>
    rw [List.cons_append, headLines]
    · split
      · next hc =>
        rw [hc, List.count_cons_self, if_neg (Nat.succ_ne_zero _), ih]
      · next hc => rw [List.count_cons_of_ne hc, ih]

theorem tailLines_append (rest tail : List Char) :
    tailLines (tail.count '\n' + 1) (rest ++ '\n' :: tail) = tail := by
  rw [tailLines, List.reverse_append, List.reverse_cons, List.append_assoc, List.singleton_append,
    ← List.count_reverse, headLines_append, List.reverse_reverse]

/-- A text with more than `n` newlines, at the one that `n` others precede. -/
theorem exists_head {n : ℕ} {cs : List Char} (h : n < cs.count '\n') :
    ∃ head rest, cs = head ++ '\n' :: rest ∧ head.count '\n' = n := by
  induction cs generalizing n with
  | nil => cases h
  | cons c cs ih =>
    by_cases hc : c = '\n'
    · subst hc
      cases n with
      | zero => exact ⟨[], cs, rfl, rfl⟩
      | succ n =>
        rw [List.count_cons_self] at h
        obtain ⟨head, rest, rfl, hcount⟩ := ih (Nat.lt_of_succ_lt_succ h)
        exact ⟨'\n' :: head, rest, rfl, by rw [List.count_cons_self, hcount]⟩
    · rw [List.count_cons_of_ne hc] at h
      obtain ⟨head, rest, rfl, hcount⟩ := ih h
      exact ⟨c :: head, rest, rfl, by rw [List.count_cons_of_ne hc, hcount]⟩

theorem exists_tail {n : ℕ} {cs : List Char} (h : n < cs.count '\n') :
    ∃ rest tail, cs = rest ++ '\n' :: tail ∧ tail.count '\n' = n := by
  rw [← List.count_reverse] at h
  obtain ⟨head, rest, hcs, hcount⟩ := exists_head h
  refine ⟨rest.reverse, head.reverse, ?_, by rw [List.count_reverse, hcount]⟩
  rw [← List.reverse_reverse cs, hcs]
  simp

/-- What the byte budget is measured on: the first and last lines of a text past the line budget. -/
def windowOf (b : ToolBudget) (cs : List Char) : List Char :=
  if cs.count '\n' + 1 > b.outputLines * 2 then
    headLines b.outputLines cs ++ '\n' :: tailLines b.outputLines cs
  else cs

/-- A text past the line budget is its head, a middle that the window leaves out, and its tail. -/
theorem exists_window {b : ToolBudget} {cs : List Char} (hb : 0 < b.outputLines)
    (h : cs.count '\n' + 1 > b.outputLines * 2) :
    ∃ head mid tail, cs = head ++ '\n' :: (mid ++ '\n' :: tail) ∧
      windowOf b cs = head ++ '\n' :: tail ∧ head.count '\n' + 1 = b.outputLines ∧
      tail.count '\n' + 1 = b.outputLines := by
  obtain ⟨head, rest, hcs, hhead⟩ := @exists_head (b.outputLines - 1) cs (by omega)
  have hrest : b.outputLines - 1 < rest.count '\n' := by
    rw [hcs, List.count_append, List.count_cons_self] at h
    omega
  obtain ⟨mid, tail, hmid, htail⟩ := exists_tail hrest
  have hheadLines : head.count '\n' + 1 = b.outputLines := by omega
  have htailLines : tail.count '\n' + 1 = b.outputLines := by omega
  refine ⟨head, mid, tail, by rw [hcs, hmid], ?_, hheadLines, htailLines⟩
  rw [windowOf, if_pos h]
  conv_lhs =>
    congr
    · rw [hcs, ← hheadLines, headLines_append]
    · rw [hcs, hmid, ← htailLines, ← List.cons_append, ← List.append_assoc, tailLines_append]

theorem windowOf_of_le {b : ToolBudget} {cs : List Char}
    (h : cs.count '\n' + 1 ≤ b.outputLines * 2) : windowOf b cs = cs := if_neg (Nat.not_lt.mpr h)

theorem count_windowOf {b : ToolBudget} (hb : 0 < b.outputLines) (cs : List Char) :
    (windowOf b cs).count '\n' + 1 ≤ b.outputLines * 2 := by
  by_cases h : cs.count '\n' + 1 > b.outputLines * 2
  · obtain ⟨head, mid, tail, -, hwindow, hhead, htail⟩ := exists_window hb h
    rw [hwindow, List.count_append, List.count_cons_self]
    omega
  · rw [windowOf_of_le (Nat.not_lt.mp h)]
    exact Nat.not_lt.mp h

/-- A window leaves a newline out, at least. -/
theorem utf8Len_windowOf_lt {b : ToolBudget} {cs : List Char} (hb : 0 < b.outputLines)
    (h : cs.count '\n' + 1 > b.outputLines * 2) : utf8Len (windowOf b cs) < utf8Len cs := by
  obtain ⟨head, mid, tail, hcs, hwindow, -, -⟩ := exists_window hb h
  rw [hwindow, hcs]
  simp only [utf8Len_append, utf8Len_cons, utf8Len_newline]
  omega

theorem utf8Len_windowOf_le {b : ToolBudget} (hb : 0 < b.outputLines) (cs : List Char) :
    utf8Len (windowOf b cs) ≤ utf8Len cs := by
  by_cases h : cs.count '\n' + 1 > b.outputLines * 2
  · exact (utf8Len_windowOf_lt hb h).le
  · rw [windowOf_of_le (Nat.not_lt.mp h)]

/-! ## The bound -/

/-- The first and last bytes, on a rune boundary from each end. -/
def byteCut (b : ToolBudget) (cs : List Char) : List Char :=
  cutRunes (b.outputBytes / 2) cs ++ '\n' :: cutRunesFront (b.outputBytes / 2) cs

/-- An output within the byte budget is kept, one whose window is becomes the window, and any other
is cut. -/
theorem boundOutput_eq (b : ToolBudget) (s : String) :
    boundOutput s b =
      if utf8Len s.toList ≤ b.outputBytes then none
      else if utf8Len (windowOf b s.toList) ≤ b.outputBytes then
        some (String.ofList (windowOf b s.toList))
      else some (String.ofList (byteCut b (windowOf b s.toList))) := by
  rw [boundOutput]
  split
  · rfl
  · next hlen =>
    by_cases hlines : s.toList.count '\n' + 1 > b.outputLines * 2
    · simp only [windowOf, hlines, if_true, true_and]
      rfl
    · simp only [windowOf, hlines, if_false, false_and, hlen]
      rfl

theorem utf8Len_byteCut_le (b : ToolBudget) (cs : List Char) :
    utf8Len (byteCut b cs) ≤ b.outputBytes / 2 * 2 + 1 := by
  have hfront := cutRunes_le (b.outputBytes / 2) cs
  have hback := cutRunesFront_le (b.outputBytes / 2) cs
  rw [byteCut, utf8Len_append, utf8Len_cons, utf8Len_newline]
  omega

/-- A cut at two rune boundaries joins what lies outside of them. -/
theorem byteCut_append {b : ToolBudget} {front back : List Char}
    (hfront : utf8Len front = b.outputBytes / 2) (hback : utf8Len back = b.outputBytes / 2)
    (mid : List Char) : byteCut b (front ++ mid ++ back) = front ++ '\n' :: back := by
  rw [byteCut, ← hback, cutRunesFront_append, hback, ← hfront, List.append_assoc, cutRunes_append]

/-- What is left of a window that the byte budget does not hold. -/
theorem exists_cut {b : ToolBudget} {cs : List Char} (h : b.outputBytes < utf8Len cs) :
    ∃ mid, cs = cutRunes (b.outputBytes / 2) cs ++ mid ++ cutRunesFront (b.outputBytes / 2) cs := by
  apply exists_middle (cutRunes_isPrefix ..) (cutRunesFront_suffix ..)
  have hfront := cutRunes_le (b.outputBytes / 2) cs
  have hback := cutRunesFront_le (b.outputBytes / 2) cs
  omega

/-- The output has, as a window too, a rune boundary at half the byte budget from each end, and a
text between the two. -/
def Brims (b : ToolBudget) (s : String) : Prop :=
  ∃ front mid back, windowOf b s.toList = front ++ mid ++ back ∧ mid ≠ [] ∧
    utf8Len front = b.outputBytes / 2 ∧ utf8Len back = b.outputBytes / 2

/-- The halves of such an output hold every newline of a window that is as long as one can be. -/
def Relines (b : ToolBudget) (s : String) : Prop :=
  ∃ front mid back, windowOf b s.toList = front ++ mid ++ back ∧ mid ≠ [] ∧
    utf8Len front = b.outputBytes / 2 ∧ utf8Len back = b.outputBytes / 2 ∧
    '\n' ∉ mid ∧ (windowOf b s.toList).count '\n' + 1 = b.outputLines * 2

theorem Relines.brims {b : ToolBudget} {s : String} (h : Relines b s) : Brims b s := by
  obtain ⟨front, mid, back, hwindow, hmid, hfront, hback, -⟩ := h
  exact ⟨front, mid, back, hwindow, hmid, hfront, hback⟩

/-! ## The bound of a bounded output -/

section Again

variable {b : ToolBudget} {s t : String}

/-- What a bound leaves is a window within the budget, or the cut of one beyond it. -/
theorem boundOutput_some (h : boundOutput s b = some t) :
    b.outputBytes < utf8Len s.toList ∧
      (utf8Len (windowOf b s.toList) ≤ b.outputBytes ∧ t.toList = windowOf b s.toList ∨
        b.outputBytes < utf8Len (windowOf b s.toList) ∧
          t.toList = byteCut b (windowOf b s.toList)) := by
  rw [boundOutput_eq] at h
  split at h
  · cases h
  · next hlen =>
    refine ⟨Nat.not_le.mp hlen, ?_⟩
    split at h
    · next hwindow =>
      obtain rfl := Option.some.inj h
      exact .inl ⟨hwindow, String.toList_ofList⟩
    · next hwindow =>
      obtain rfl := Option.some.inj h
      exact .inr ⟨Nat.not_le.mp hwindow, String.toList_ofList⟩

theorem boundOutput_eq_none : boundOutput s b = none ↔ utf8Len s.toList ≤ b.outputBytes := by
  rw [boundOutput_eq]
  split
  · next h => exact iff_of_true rfl h
  · next h =>
    refine iff_of_false ?_ h
    split
    · exact Option.some_ne_none _
    · exact Option.some_ne_none _

/-- The two halves of an output that brims are its cuts. -/
theorem Brims.cuts (h : Brims b s) (heven : b.outputBytes / 2 * 2 = b.outputBytes) :
    b.outputBytes < utf8Len (windowOf b s.toList) ∧
      utf8Len (cutRunes (b.outputBytes / 2) (windowOf b s.toList)) = b.outputBytes / 2 ∧
      utf8Len (cutRunesFront (b.outputBytes / 2) (windowOf b s.toList)) = b.outputBytes / 2 := by
  obtain ⟨front, mid, back, hwindow, hmid, hfront, hback⟩ := h
  have hpos : utf8Len mid ≠ 0 := fun hzero => hmid (utf8Len_eq_zero.mp hzero)
  rw [hwindow]
  refine ⟨?_, ?_, ?_⟩
  · simp only [utf8Len_append]
    omega
  · rw [List.append_assoc, ← hfront, cutRunes_append]
  · rw [← hback, cutRunesFront_append]

theorem brims_of_full (heven : b.outputBytes / 2 * 2 = b.outputBytes)
    (h : b.outputBytes < utf8Len (windowOf b s.toList))
    (hcut : b.outputBytes < utf8Len (byteCut b (windowOf b s.toList))) : Brims b s := by
  obtain ⟨mid, hmid⟩ := exists_cut h
  have hfront := cutRunes_le (b.outputBytes / 2) (windowOf b s.toList)
  have hback := cutRunesFront_le (b.outputBytes / 2) (windowOf b s.toList)
  rw [byteCut, utf8Len_append, utf8Len_cons, utf8Len_newline] at hcut
  refine ⟨_, mid, _, hmid, ?_, by omega, by omega⟩
  rintro rfl
  have hlen := congrArg utf8Len hmid
  simp only [utf8Len_append, utf8Len_nil] at hlen
  omega

/-- Short of a full cut the bounded output is within the budget. -/
theorem boundOutput_again (heven : b.outputBytes / 2 * 2 = b.outputBytes)
    (h : boundOutput s b = some t) (hbrims : ¬ Brims b s) : boundOutput t b = none := by
  rw [boundOutput_eq_none]
  obtain ⟨-, ⟨hlen, ht⟩ | ⟨hlen, ht⟩⟩ := boundOutput_some h
  · rw [ht]
    exact hlen
  · rw [ht]
    by_contra hcut
    exact hbrims (brims_of_full heven hlen (Nat.not_le.mp hcut))

/-- A full cut is a byte past the budget. -/
theorem Brims.bounded (hbrims : Brims b s)
    (heven : b.outputBytes / 2 * 2 = b.outputBytes) (h : boundOutput s b = some t) :
    t.toList = byteCut b (windowOf b s.toList) ∧ utf8Len t.toList = b.outputBytes + 1 := by
  obtain ⟨hlen, hfront, hback⟩ := hbrims.cuts heven
  obtain ⟨-, ⟨hle, -⟩ | ⟨-, ht⟩⟩ := boundOutput_some h
  · omega
  · refine ⟨ht, ?_⟩
    rw [ht, byteCut, utf8Len_append, utf8Len_cons, utf8Len_newline]
    omega

/-- The newlines of a full cut: those of its halves, and the one between them. -/
theorem Brims.count (hbrims : Brims b s) (heven : b.outputBytes / 2 * 2 = b.outputBytes) :
    ∃ mid : List Char, (windowOf b s.toList).count '\n' + 1 =
        (byteCut b (windowOf b s.toList)).count '\n' + mid.count '\n' ∧
      windowOf b s.toList = cutRunes (b.outputBytes / 2) (windowOf b s.toList) ++ mid ++
        cutRunesFront (b.outputBytes / 2) (windowOf b s.toList) := by
  obtain ⟨hlen, -, -⟩ := hbrims.cuts heven
  obtain ⟨mid, hmid⟩ := exists_cut hlen
  refine ⟨mid, ?_, hmid⟩
  have hcount := congrArg (List.count '\n') hmid
  rw [List.count_append, List.count_append] at hcount
  rw [byteCut, List.count_append, List.count_cons_self]
  omega

/-- A full cut within the line budget is cut to itself. -/
theorem Brims.again (hbrims : Brims b s) (hb : 0 < b.outputLines)
    (heven : b.outputBytes / 2 * 2 = b.outputBytes) (h : boundOutput s b = some t)
    (hlines : ¬ Relines b s) : boundOutput t b = some t := by
  obtain ⟨ht, hlen⟩ := hbrims.bounded heven h
  obtain ⟨hover, hfront, hback⟩ := hbrims.cuts heven
  obtain ⟨mid, hcount, hmid⟩ := hbrims.count heven
  have hwindow := count_windowOf hb s.toList
  have hfew : t.toList.count '\n' + 1 ≤ b.outputLines * 2 := by
    rw [ht]
    by_contra hmany
    refine hlines ⟨_, mid, _, hmid, ?_, hfront, hback, ?_, by omega⟩
    · rintro rfl
      have hlen := congrArg utf8Len hmid
      simp only [utf8Len_append, utf8Len_nil] at hlen
      omega
    · exact List.count_eq_zero.mp (by omega)
  rw [boundOutput_eq, windowOf_of_le hfew, hlen, if_neg (by omega), if_neg (by omega)]
  have hsame : byteCut b t.toList = t.toList := by
    rw [ht]
    conv_lhs => rw [byteCut.eq_def b (windowOf b s.toList), List.append_cons,
      byteCut_append hfront hback]
    rfl
  rw [hsame, String.ofList_toList]

/-- A full cut past the line budget is windowed, and leaves a line out. -/
theorem Relines.again (hlines : Relines b s) (hb : 0 < b.outputLines)
    (heven : b.outputBytes / 2 * 2 = b.outputBytes) (h : boundOutput s b = some t) :
    ∃ t', boundOutput t b = some t' ∧ t' ≠ t := by
  obtain ⟨ht, hlen⟩ := hlines.brims.bounded heven h
  obtain ⟨front, mid, back, hwindow, -, hfront, hback, hnone, hcount⟩ := hlines
  have hcut : byteCut b (windowOf b s.toList) = front ++ '\n' :: back := by
    rw [hwindow, byteCut_append hfront hback]
  have hmany : t.toList.count '\n' + 1 > b.outputLines * 2 := by
    rw [hwindow, List.count_append, List.count_append, List.count_eq_zero.mpr hnone] at hcount
    rw [ht, hcut, List.count_append, List.count_cons_self]
    omega
  have hless := utf8Len_windowOf_lt hb hmany
  refine ⟨String.ofList (windowOf b t.toList), ?_, ?_⟩
  · rw [boundOutput_eq, if_neg (by omega), if_pos (by omega)]
  · intro heq
    have hlist := congrArg String.toList heq
    rw [String.toList_ofList] at hlist
    rw [hlist] at hless
    omega

end Again

end Marotte
