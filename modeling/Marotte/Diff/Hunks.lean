import Mathlib.Data.List.Chain
import Marotte.Diff.Delta
import Marotte.Library.Alignment

/-! # Gutter hunks

The new lines that an edit touched, as the editor's gutter marks them: a walk through the dense
table gathers what lies between two kept lines into one run, and a run that only deletes is pinned
to the line at its junction.
-/
namespace Marotte.Diff.Server

def maxHunkCells : ℕ := 4000000

/-- A run of lines of the new text, from one and inclusive on both ends. -/
structure LineHunk where
  startLine : ℕ
  endLine : ℕ
  deriving DecidableEq

/-- The lines of a half-open range of indices; an empty range marks the line at its place. -/
def newRunHunk (lo hi newLen : ℕ) : LineHunk :=
  if newLen = 0 then { startLine := 1, endLine := 1 }
  else
    { startLine := min (lo + 1) newLen
      endLine := min (max hi (min (lo + 1) newLen)) newLen }

/-! ## The walk -/

/-- The open run of touched new lines, a half-open range of indices. -/
abbrev RunAcc := Option (ℕ × ℕ)

def RunAcc.anchor (r : RunAcc) (j : ℕ) : RunAcc := some (r.getD (j, j))

def RunAcc.extend (r : RunAcc) (j : ℕ) : RunAcc := some (r.elim j Prod.fst, j + 1)

def denseLCS (a b : List Line) : List (List ℕ) := lcsTable a b

/-- Which side the step from `(i, j)` takes a line of: of both, of the old or of the new one. -/
def diffStep (a b : List Line) (t : List (List ℕ)) (i j : ℕ) : EditStep :=
  if i < a.length ∧ j < b.length ∧ a[i]? = b[j]? then .keep
  else if j ≥ b.length ∨ i < a.length ∧ cellAt t (i + 1) j ≥ cellAt t i (j + 1) then .delete
  else .insert

variable {a b : List Line} {t : List (List ℕ)} {i j : ℕ}

theorem diffStep_keep (h : diffStep a b t i j = .keep) :
    i < a.length ∧ j < b.length ∧ a[i]? = b[j]? := by
  rw [diffStep] at h
  split at h
  · assumption
  · split at h
    · cases h
    · cases h

theorem diffStep_delete (hij : i < a.length ∨ j < b.length) (h : diffStep a b t i j = .delete) :
    i < a.length ∧ ¬ (i < a.length ∧ j < b.length ∧ a[i]? = b[j]?) ∧
      (j < b.length → cellAt t (i + 1) j ≥ cellAt t i (j + 1)) := by
  rw [diffStep] at h
  split at h
  · cases h
  · next hne =>
    split at h
    · next hor =>
      rcases hor with hj | ⟨hi, hcell⟩
      · exact ⟨by omega, hne, fun hlt => absurd hj (Nat.not_le.mpr hlt)⟩
      · exact ⟨hi, hne, fun _ => hcell⟩
    · cases h

theorem diffStep_insert (h : diffStep a b t i j = .insert) :
    j < b.length ∧ ¬ (i < a.length ∧ j < b.length ∧ a[i]? = b[j]?) ∧
      (i < a.length → cellAt t (i + 1) j < cellAt t i (j + 1)) := by
  rw [diffStep] at h
  split at h
  · cases h
  · next hne =>
    split at h
    · cases h
    · next hor =>
      rw [not_or, not_and, Nat.not_le, Nat.not_le] at hor
      exact ⟨hor.1, hne, hor.2⟩

/-- The hunks that the walk from `(i, j)` adds, with the run it has open. -/
def traceFrom (a b : List Line) (t : List (List ℕ)) (offset newLen : ℕ) (run : RunAcc) (i j : ℕ) :
    List LineHunk :=
  if _ : i < a.length ∨ j < b.length then
    match hstep : diffStep a b t i j with
    | .keep =>
      run.toList.map (fun r => newRunHunk (offset + r.1) (offset + r.2) newLen) ++
        traceFrom a b t offset newLen none (i + 1) (j + 1)
    | .delete => traceFrom a b t offset newLen (run.anchor j) (i + 1) j
    | .insert => traceFrom a b t offset newLen (run.extend j) i (j + 1)
  else run.toList.map fun r => newRunHunk (offset + r.1) (offset + r.2) newLen
termination_by (a.length - i) + (b.length - j)
decreasing_by
  · have hlt := diffStep_keep hstep
    omega
  · have hlt := diffStep_delete ‹_› hstep
    omega
  · have hlt := diffStep_insert hstep
    omega

def traceHunks (midOld midNew : List Line) (offset newLen : ℕ) : List LineHunk :=
  traceFrom midOld midNew (denseLCS midOld midNew) offset newLen none 0 0

def lineHunks (oldText newText : List Char) : List LineHunk :=
  if oldText = newText then []
  else
    let a := splitDiffLines oldText
    let b := splitDiffLines newText
    let p := trimPrefix a b
    let s := trimSuffix a b p
    let midOld := middle a p s
    let midNew := middle b p s
    if midOld.length = 0 ∧ midNew.length = 0 then []
    else if midOld.length = 0 ∨ midNew.length = 0 ∨
        midOld.length * midNew.length > maxHunkCells then
      [newRunHunk p (p + midNew.length) b.length]
    else traceHunks midOld midNew p b.length

/-! ## The script of the walk -/

def scriptFrom (a b : List Line) (t : List (List ℕ)) (i j : ℕ) : List EditStep :=
  if _ : i < a.length ∨ j < b.length then
    match hstep : diffStep a b t i j with
    | .keep => .keep :: scriptFrom a b t (i + 1) (j + 1)
    | .delete => .delete :: scriptFrom a b t (i + 1) j
    | .insert => .insert :: scriptFrom a b t i (j + 1)
  else []
termination_by (a.length - i) + (b.length - j)
decreasing_by
  · have hlt := diffStep_keep hstep
    omega
  · have hlt := diffStep_delete ‹_› hstep
    omega
  · have hlt := diffStep_insert hstep
    omega

theorem scriptFrom_end (hij : ¬ (i < a.length ∨ j < b.length)) : scriptFrom a b t i j = [] := by
  rw [scriptFrom, dif_neg hij]

theorem scriptFrom_step (hij : i < a.length ∨ j < b.length) {step : EditStep}
    (hstep : diffStep a b t i j = step) :
    scriptFrom a b t i j =
      step :: scriptFrom a b t (i + consumed [step]) (j + reached [step]) := by
  rw [scriptFrom, dif_pos hij]
  subst hstep
  split
  · next h =>
    rw [h]
    rfl
  · next h =>
    rw [h]
    rfl
  · next h =>
    rw [h]
    rfl

/-- What the walk gathers of a script, with the open run and the position in the new text. -/
def runsOf (run : RunAcc) (j : ℕ) : List EditStep → List (ℕ × ℕ)
  | [] => run.toList
  | .keep :: script => run.toList ++ runsOf none (j + 1) script
  | .delete :: script => runsOf (run.anchor j) j script
  | .insert :: script => runsOf (run.extend j) (j + 1) script

theorem traceFrom_eq (a b : List Line) (t : List (List ℕ)) (offset newLen : ℕ) (run : RunAcc)
    (i j : ℕ) :
    traceFrom a b t offset newLen run i j =
      (runsOf run j (scriptFrom a b t i j)).map
        fun r => newRunHunk (offset + r.1) (offset + r.2) newLen := by
  fun_induction traceFrom a b t offset newLen run i j with
  | case1 run i j hij hstep ih =>
    rw [scriptFrom_step hij hstep, ih, runsOf, List.map_append]
    rfl
  | case2 run i j hij hstep ih =>
    rw [scriptFrom_step hij hstep, ih, runsOf]
    rfl
  | case3 run i j hij hstep ih =>
    rw [scriptFrom_step hij hstep, ih, runsOf]
    rfl
  | case4 run i j hij =>
    rw [scriptFrom_end hij]
    rfl

/-- The script leads from the old lines to the new ones and keeps as many as it can. -/
theorem aligns_scriptFrom (a b : List Line) (i j : ℕ) :
    Aligns (scriptFrom a b (denseLCS a b) i j) (a.drop i) (b.drop j) ∧
      (scriptFrom a b (denseLCS a b) i j).count .keep = lcs (a.drop i) (b.drop j) := by
  fun_induction scriptFrom a b (denseLCS a b) i j with
  | case1 i j hij hstep ih =>
    obtain ⟨hi, hj, heq⟩ := diffStep_keep hstep
    rw [List.getElem?_eq_getElem hi, List.getElem?_eq_getElem hj, Option.some.injEq] at heq
    rw [List.drop_eq_getElem_cons hi, List.drop_eq_getElem_cons hj, lcs_cons_cons, if_pos heq,
      List.count_cons_self, ← heq]
    exact ⟨.keep _ ih.1, congrArg (· + 1) ih.2⟩
  | case2 i j hij hstep ih =>
    obtain ⟨hi, hne, hcell⟩ := diffStep_delete hij hstep
    refine ⟨?_, ?_⟩
    · rw [List.drop_eq_getElem_cons hi]
      exact .delete _ ih.1
    · rw [List.count_cons_of_ne (by decide), ih.2]
      by_cases hj : j < b.length
      · rw [denseLCS, cellAt_lcsTable, cellAt_lcsTable] at hcell
        rw [List.getElem?_eq_getElem hi, List.getElem?_eq_getElem hj, Option.some.injEq] at hne
        have hle := hcell hj
        rw [List.drop_eq_getElem_cons hj] at hle ⊢
        rw [List.drop_eq_getElem_cons hi] at hle ⊢
        rw [lcs_cons_cons, if_neg fun heq => hne ⟨hi, hj, heq⟩, max_eq_left hle]
      · rw [List.drop_of_length_le (l := b) (Nat.le_of_not_lt hj), lcs_nil_right, lcs_nil_right]
  | case3 i j hij hstep ih =>
    obtain ⟨hj, hne, hcell⟩ := diffStep_insert hstep
    refine ⟨?_, ?_⟩
    · rw [List.drop_eq_getElem_cons hj]
      exact .insert _ ih.1
    · rw [List.count_cons_of_ne (by decide), ih.2]
      by_cases hi : i < a.length
      · rw [denseLCS, cellAt_lcsTable, cellAt_lcsTable] at hcell
        rw [List.getElem?_eq_getElem hi, List.getElem?_eq_getElem hj, Option.some.injEq] at hne
        have hlt := hcell hi
        rw [List.drop_eq_getElem_cons hi] at hlt ⊢
        rw [List.drop_eq_getElem_cons hj] at hlt ⊢
        rw [lcs_cons_cons, if_neg fun heq => hne ⟨hi, hj, heq⟩, max_eq_right hlt.le]
      · rw [List.drop_of_length_le (l := a) (Nat.le_of_not_lt hi), lcs_nil_left, lcs_nil_left]
  | case4 i j hij =>
    rw [List.drop_of_length_le (by omega), lcs_nil_left, List.drop_of_length_le (by omega)]
    exact ⟨.nil, rfl⟩

/-- An inserted line is never followed by a deletion: in a run the deletions come first. -/
def DeletesFirst (script : List EditStep) : Prop :=
  script.IsChain fun step next => step = .insert → next ≠ .delete

/-- After an insertion the old side's line is not worth deleting. -/
theorem diffStep_after_insert (hstep : diffStep a b (denseLCS a b) i j = .insert)
    (hij : i < a.length ∨ j + 1 < b.length) :
    diffStep a b (denseLCS a b) i (j + 1) ≠ .delete := by
  intro hdelete
  obtain ⟨hj, -, hless⟩ := diffStep_insert hstep
  obtain ⟨hi, hne, hmore⟩ := diffStep_delete hij hdelete
  rw [denseLCS, cellAt_lcsTable, cellAt_lcsTable] at hless hmore
  have hlt := hless hi
  have hmono : lcs (a.drop (i + 1)) (b.drop (j + 1)) ≤ lcs (a.drop (i + 1)) (b.drop j) := by
    obtain ⟨c, ha, hb, hlength⟩ := exists_common_sublist (a.drop (i + 1)) (b.drop (j + 1))
    rw [← hlength]
    apply length_le_lcs ha
    rw [List.drop_eq_getElem_cons hj]
    exact hb.cons _
  by_cases hj' : j + 1 < b.length
  · have hle := hmore hj'
    rw [List.getElem?_eq_getElem hi, List.getElem?_eq_getElem hj', Option.some.injEq] at hne
    have hcell : lcs (a.drop i) (b.drop (j + 1)) =
        max (lcs (a.drop (i + 1)) (b.drop (j + 1))) (lcs (a.drop i) (b.drop (j + 1 + 1))) := by
      conv_lhs => rw [List.drop_eq_getElem_cons hi, List.drop_eq_getElem_cons hj', lcs_cons_cons,
        if_neg fun heq => hne ⟨hi, hj', heq⟩, ← List.drop_eq_getElem_cons hi,
        ← List.drop_eq_getElem_cons hj']
    rw [max_eq_left hle] at hcell
    omega
  · rw [List.drop_of_length_le (l := b) (i := j + 1) (by omega), lcs_nil_right] at hlt
    omega

theorem deletesFirst_scriptFrom (a b : List Line) (i j : ℕ) :
    DeletesFirst (scriptFrom a b (denseLCS a b) i j) := by
  rw [DeletesFirst]
  fun_induction scriptFrom a b (denseLCS a b) i j with
  | case1 i j hij hstep ih => exact List.isChain_cons.mpr ⟨fun _ _ h => absurd h (by decide), ih⟩
  | case2 i j hij hstep ih => exact List.isChain_cons.mpr ⟨fun _ _ h => absurd h (by decide), ih⟩
  | case3 i j hij hstep ih =>
    refine List.isChain_cons.mpr ⟨fun next hnext _ => ?_, ih⟩
    by_cases hij' : i < a.length ∨ j + 1 < b.length
    · rw [scriptFrom_step hij' rfl, List.head?_cons, Option.mem_some_iff] at hnext
      rw [← hnext]
      exact diffStep_after_insert hstep hij'
    · rw [scriptFrom_end hij'] at hnext
      cases hnext
  | case4 i j hij => exact List.isChain_nil

/-! ## Runs -/

/-- The open run ends at the position. -/
def Behind (run : RunAcc) (j : ℕ) : Prop := ∀ r ∈ run, r.1 ≤ r.2 ∧ r.2 = j

theorem behind_none (j : ℕ) : Behind none j := by
  intro r hr
  cases hr

variable {run : RunAcc} {script : List EditStep} {k : ℕ} {r : ℕ × ℕ}

theorem Behind.anchor (h : Behind run j) : Behind (run.anchor j) j := by
  intro r hr
  obtain rfl := Option.mem_some_iff.mp hr
  cases run with
  | none => exact ⟨le_rfl, rfl⟩
  | some r => exact h r rfl

theorem Behind.extend (h : Behind run j) : Behind (run.extend j) (j + 1) := by
  intro r hr
  obtain rfl := Option.mem_some_iff.mp hr
  cases run with
  | none => exact ⟨Nat.le_succ j, rfl⟩
  | some r => exact ⟨((h r rfl).1.trans (h r rfl).2.le).trans (Nat.le_succ j), rfl⟩

/-- Where the open run began, or the position. -/
theorem Behind.start_le (h : Behind run j) : run.elim j Prod.fst ≤ j := by
  cases run with
  | none => exact le_rfl
  | some r => exact (h r rfl).1.trans (h r rfl).2.le

/-- An open run is closed where it began. -/
theorem runsOf_some {lo hi : ℕ} (h : hi ≤ j) (script : List EditStep) :
    ∃ r ∈ runsOf (some (lo, hi)) j script, r.1 = lo ∧ hi ≤ r.2 := by
  induction script generalizing hi j with
  | nil => exact ⟨(lo, hi), List.mem_singleton_self _, rfl, le_rfl⟩
  | cons step script ih =>
    cases step with
    | keep => exact ⟨(lo, hi), List.mem_append_left _ (List.mem_singleton_self _), rfl, le_rfl⟩
    | delete => exact ih h
    | insert =>
      obtain ⟨r, hr, hlo, hhi⟩ := @ih (j + 1) (j + 1) le_rfl
      exact ⟨r, hr, hlo, by omega⟩

/-- An inserted line lies in a run. -/
theorem runsOf_insert (hrun : Behind run j) (h : StepAt script .insert k) :
    ∃ r ∈ runsOf run j script, r.1 ≤ j + k ∧ j + k < r.2 := by
  induction script generalizing run j k with
  | nil => exact absurd h not_stepAt_nil
  | cons step script ih =>
    rcases stepAt_cons.mp h with ⟨rfl, rfl⟩ | ⟨k, hk, rfl⟩
    · obtain ⟨r, hr, hr₁, hr₂⟩ := @runsOf_some (j + 1) (run.elim j Prod.fst) (j + 1) le_rfl script
      exact ⟨r, hr, hr₁.trans_le hrun.start_le, hr₂⟩
    · cases step with
      | keep =>
        obtain ⟨r, hr, hlo, hhi⟩ := ih (behind_none (j + 1)) hk
        exact ⟨r, List.mem_append_right _ hr, by rw [reached_keep, reached_nil]; omega,
          by rw [reached_keep, reached_nil]; omega⟩
      | delete =>
        obtain ⟨r, hr, hlo, hhi⟩ := ih hrun.anchor hk
        exact ⟨r, hr, by rw [reached_delete, reached_nil]; omega,
          by rw [reached_delete, reached_nil]; omega⟩
      | insert =>
        obtain ⟨r, hr, hlo, hhi⟩ := ih hrun.extend hk
        exact ⟨r, hr, by rw [reached_insert, reached_nil]; omega,
          by rw [reached_insert, reached_nil]; omega⟩

/-- A deleted line's place is where a run begins. -/
theorem runsOf_delete (hfirst : DeletesFirst script)
    (hrun : ∀ r ∈ run, r.2 ≤ j ∧ (r.1 = j ∨ script.head? ≠ some .delete))
    (h : StepAt script .delete k) : ∃ r ∈ runsOf run j script, r.1 = j + k := by
  induction script generalizing run j k with
  | nil => exact absurd h not_stepAt_nil
  | cons step script ih =>
    obtain ⟨hnext, htail⟩ := List.isChain_cons.mp hfirst
    rcases stepAt_cons.mp h with ⟨rfl, rfl⟩ | ⟨k, hk, rfl⟩
    · cases run with
      | none =>
        obtain ⟨r, hr, hlo, -⟩ := @runsOf_some j j j le_rfl script
        exact ⟨r, hr, hlo⟩
      | some r₀ =>
        obtain ⟨hhi, hlo | hhead⟩ := hrun r₀ rfl
        · obtain ⟨r, hr, hlo', -⟩ := @runsOf_some j r₀.1 r₀.2 hhi script
          exact ⟨r, hr, hlo'.trans hlo⟩
        · exact absurd rfl hhead
    · cases step with
      | keep =>
        obtain ⟨r, hr, hlo⟩ := @ih (j + 1) none k htail (by intro r hr; cases hr) hk
        exact ⟨r, List.mem_append_right _ hr, by rw [hlo, reached_keep, reached_nil]; omega⟩
      | delete =>
        have hanchor : ∀ r ∈ run.anchor j, r.2 ≤ j ∧ (r.1 = j ∨ script.head? ≠ some .delete) := by
          intro r hr
          obtain rfl := Option.mem_some_iff.mp hr
          cases run with
          | none => exact ⟨le_rfl, .inl rfl⟩
          | some r₀ =>
            obtain ⟨hhi, hlo | hhead⟩ := hrun r₀ rfl
            · exact ⟨hhi, .inl hlo⟩
            · exact absurd rfl hhead
        obtain ⟨r, hr, hlo⟩ := ih htail hanchor hk
        exact ⟨r, hr, by rw [hlo, reached_delete, reached_nil, Nat.zero_add]⟩
      | insert =>
        have hextend : ∀ r ∈ run.extend j,
            r.2 ≤ j + 1 ∧ (r.1 = j + 1 ∨ script.head? ≠ some .delete) := by
          intro r hr
          obtain rfl := Option.mem_some_iff.mp hr
          exact ⟨le_rfl, .inr fun hhead => hnext _ hhead rfl rfl⟩
        obtain ⟨r, hr, hlo⟩ := ih htail hextend hk
        exact ⟨r, hr, by rw [hlo, reached_insert, reached_nil]; omega⟩

/-- Every line of a run is inserted, and a run without a line deletes one. -/
theorem runsOf_marks (hrun : Behind run j) (hr : r ∈ runsOf run j script) :
    (∀ k, r.1 ≤ k → k < r.2 →
      (∃ r₀ ∈ run, r₀.1 ≤ k ∧ k < r₀.2) ∨ ∃ k', StepAt script .insert k' ∧ j + k' = k) ∧
      (r.1 = r.2 → r ∈ run ∨ ∃ k', StepAt script .delete k' ∧ j + k' = r.1) := by
  induction script generalizing run j with
  | nil =>
    rw [runsOf, Option.mem_toList] at hr
    exact ⟨fun k hlo hhi => .inl ⟨r, hr, hlo, hhi⟩, fun _ => .inl hr⟩
  | cons step script ih =>
    have hstep : ∀ {kind k}, (∃ k', StepAt script kind k' ∧ j + reached [step] + k' = k) →
        ∃ k', StepAt (step :: script) kind k' ∧ j + k' = k := by
      rintro kind k ⟨k', hk', rfl⟩
      exact ⟨reached [step] + k', hk'.cons step, (Nat.add_assoc ..).symm⟩
    cases step with
    | keep =>
      rcases List.mem_append.mp hr with hr | hr
      · rw [Option.mem_toList] at hr
        exact ⟨fun k hlo hhi => .inl ⟨r, hr, hlo, hhi⟩, fun _ => .inl hr⟩
      · obtain ⟨hinsert, hdelete⟩ := ih (behind_none (j + 1)) hr
        refine ⟨fun k hlo hhi => .inr ?_, fun heq => .inr ?_⟩
        · rcases hinsert k hlo hhi with ⟨r₀, hr₀, -⟩ | hk
          · cases hr₀
          · exact hstep hk
        · rcases hdelete heq with hnone | hk
          · cases hnone
          · exact hstep hk
    | delete =>
      obtain ⟨hinsert, hdelete⟩ := ih hrun.anchor hr
      refine ⟨fun k hlo hhi => ?_, fun heq => ?_⟩
      · rcases hinsert k hlo hhi with ⟨r₀, hr₀, hlo₀, hhi₀⟩ | hk
        · cases run with
          | none =>
            obtain rfl := Option.mem_some_iff.mp hr₀
            exact absurd hlo₀ (Nat.not_le.mpr hhi₀)
          | some r₁ => exact .inl ⟨r₀, hr₀, hlo₀, hhi₀⟩
        · exact .inr (hstep hk)
      · rcases hdelete heq with hr₀ | hk
        · cases run with
          | none =>
            obtain rfl := Option.mem_some_iff.mp hr₀
            exact .inr ⟨0, ⟨[], script, rfl, rfl⟩, rfl⟩
          | some r₁ => exact .inl hr₀
        · exact .inr (hstep hk)
    | insert =>
      obtain ⟨hinsert, hdelete⟩ := ih hrun.extend hr
      refine ⟨fun k hlo hhi => ?_, fun heq => ?_⟩
      · rcases hinsert k hlo hhi with ⟨r₀, hr₀, hlo₀, hhi₀⟩ | hk
        · obtain rfl := Option.mem_some_iff.mp hr₀
          rcases Nat.lt_succ_iff_lt_or_eq.mp hhi₀ with hlt | rfl
          · cases run with
            | none => exact absurd hlo₀ (Nat.not_le.mpr hlt)
            | some r₁ => exact .inl ⟨r₁, rfl, hlo₀, by have := hrun r₁ rfl; omega⟩
          · exact .inr ⟨0, ⟨[], script, rfl, rfl⟩, rfl⟩
        · exact .inr (hstep hk)
      · rcases hdelete heq with hr₀ | hk
        · obtain rfl := Option.mem_some_iff.mp hr₀
          have hle := hrun.extend
          cases run with
          | none => exact absurd heq (Nat.ne_of_lt (Nat.lt_succ_self j))
          | some r₁ =>
            have hbehind := hrun r₁ rfl
            change r₁.1 = j + 1 at heq
            omega
        · exact .inr (hstep hk)

/-- The runs are apart and within the new text. -/
theorem runsOf_spaced (hrun : Behind run j) (script : List EditStep) :
    (runsOf run j script).Pairwise (fun r r' => r.2 < r'.1) ∧
      ∀ r ∈ runsOf run j script, run.elim j Prod.fst ≤ r.1 ∧ r.1 ≤ r.2 ∧
        r.2 ≤ j + reached script := by
  induction script generalizing run j with
  | nil =>
    cases run with
    | none => exact ⟨.nil, fun r hr => absurd hr List.not_mem_nil⟩
    | some r₀ =>
      refine ⟨List.pairwise_singleton _ _, fun r hr => ?_⟩
      obtain rfl := List.mem_singleton.mp hr
      exact ⟨le_rfl, (hrun r rfl).1, (hrun r rfl).2.le⟩
  | cons step script ih =>
    cases step with
    | keep =>
      obtain ⟨hpair, hall⟩ := ih (behind_none (j + 1))
      have hstart := hrun.start_le
      refine ⟨?_, fun r hr => ?_⟩
      · apply List.pairwise_append.mpr
        refine ⟨?_, hpair, fun r hr r' hr' => ?_⟩
        · cases run with
          | none => exact .nil
          | some r₀ => exact List.pairwise_singleton _ _
        · have hend := (hrun r (Option.mem_toList.mp hr)).2
          have hlo : j + 1 ≤ r'.1 := (hall r' hr').1
          omega
      · rw [reached_keep]
        rcases List.mem_append.mp hr with hr | hr
        · obtain rfl := Option.mem_toList.mp hr
          have hbehind := hrun r rfl
          exact ⟨le_rfl, hbehind.1, by omega⟩
        · obtain ⟨hlo, hle, hhi⟩ := hall r hr
          change j + 1 ≤ r.1 at hlo
          exact ⟨by omega, hle, by omega⟩
    | delete =>
      obtain ⟨hpair, hall⟩ := ih hrun.anchor
      refine ⟨hpair, fun r hr => ?_⟩
      rw [reached_delete]
      cases run with
      | none => exact hall r hr
      | some r₀ => exact hall r hr
    | insert =>
      obtain ⟨hpair, hall⟩ := ih hrun.extend
      refine ⟨hpair, fun r hr => ?_⟩
      obtain ⟨hlo, hle, hhi⟩ := hall r hr
      rw [reached_insert]
      exact ⟨hlo, hle, by omega⟩

/-! ## The whole -/

theorem runsOf_keeps (j p : ℕ) (script : List EditStep) :
    runsOf none j (List.replicate p .keep ++ script) = runsOf none (j + p) script := by
  induction p generalizing j with
  | zero => rfl
  | succ p ih => exact (ih (j + 1)).trans (by rw [Nat.add_right_comm, Nat.add_assoc])

theorem runsOf_append_keeps (run : RunAcc) (j s : ℕ) (script : List EditStep) :
    runsOf run j (script ++ List.replicate s .keep) = runsOf run j script := by
  induction script generalizing run j with
  | nil =>
    cases s with
    | zero => rfl
    | succ s =>
      have hkeeps := runsOf_keeps (j + 1) s []
      rw [List.append_nil] at hkeeps
      change run.toList ++ runsOf none (j + 1) (List.replicate s .keep) = run.toList
      rw [hkeeps]
      exact List.append_nil _
  | cons step script ih =>
    cases step with
    | keep => exact congrArg (run.toList ++ ·) (ih none (j + 1))
    | delete => exact ih (run.anchor j) j
    | insert => exact ih (run.extend j) (j + 1)

/-- The runs behind `p` more lines. -/
theorem runsOf_shift (p : ℕ) (run : RunAcc) (j : ℕ) (script : List EditStep) :
    runsOf (run.map fun r => (p + r.1, p + r.2)) (p + j) script =
      (runsOf run j script).map fun r => (p + r.1, p + r.2) := by
  induction script generalizing run j with
  | nil => cases run <;> rfl
  | cons step script ih =>
    cases step with
    | keep =>
      rw [runsOf, runsOf, List.map_append]
      exact congrArg₂ (· ++ ·) (by cases run <;> rfl) (ih none (j + 1))
    | delete =>
      rw [runsOf, runsOf, ← ih]
      cases run <;> rfl
    | insert =>
      rw [runsOf, runsOf, ← ih]
      cases run <;> rfl

theorem runsOf_inserts (lo j n : ℕ) :
    runsOf (some (lo, j)) j (List.replicate n .insert) = [(lo, j + n)] := by
  induction n generalizing j with
  | zero => rfl
  | succ n ih => exact (ih (j + 1)).trans (by rw [Nat.add_right_comm, Nat.add_assoc])

theorem runsOf_deletes (r : ℕ × ℕ) (j m : ℕ) :
    runsOf (some r) j (List.replicate m .delete) = [r] := by
  induction m with
  | zero => rfl
  | succ m ih => exact ih

theorem DeletesFirst.keeps (h : DeletesFirst script) (p s : ℕ) :
    DeletesFirst (List.replicate p .keep ++ script ++ List.replicate s .keep) := by
  have hkeeps : ∀ n, DeletesFirst (List.replicate n .keep) := by
    intro n
    induction n with
    | zero => exact List.isChain_nil
    | succ n ih => exact List.isChain_cons.mpr ⟨fun _ _ h => absurd h (by decide), ih⟩
  refine List.isChain_append.mpr ⟨List.isChain_append.mpr ⟨hkeeps p, h, ?_⟩, hkeeps s, ?_⟩
  · intro step hstep next _ hinsert
    rw [List.eq_of_mem_replicate (List.mem_of_getLast? hstep)] at hinsert
    cases hinsert
  · intro step _ next hnext _ hdelete
    rw [List.eq_of_mem_replicate (List.mem_of_head? hnext)] at hdelete
    cases hdelete

/-- A middle with an empty side is one run, as the walk would have it. -/
theorem hunks_middle {midOld midNew : List Line} {mid : List EditStep} {p newLen : ℕ}
    (hmid : Aligns mid midOld midNew) (h : midOld.length * midNew.length ≤ maxHunkCells)
    (htrace : traceHunks midOld midNew p newLen =
      (runsOf none 0 mid).map fun r => newRunHunk (p + r.1) (p + r.2) newLen) :
    (if midOld.length = 0 ∧ midNew.length = 0 then []
      else if midOld.length = 0 ∨ midNew.length = 0 ∨
          midOld.length * midNew.length > maxHunkCells then
        [newRunHunk p (p + midNew.length) newLen]
      else traceHunks midOld midNew p newLen) =
      (runsOf none 0 mid).map fun r => newRunHunk (p + r.1) (p + r.2) newLen := by
  cases midOld with
  | nil =>
    rw [hmid.eq_of_nil_left]
    cases midNew with
    | nil => rfl
    | cons y ys =>
      rw [List.length_cons, List.replicate_succ, runsOf]
      change _ = (runsOf (some (0, 1)) 1 _).map _
      rw [runsOf_inserts, if_neg (by simp), if_pos (.inl rfl), Nat.add_comm 1]
      rfl
  | cons x xs =>
    cases midNew with
    | nil =>
      rw [hmid.eq_of_nil_right, List.length_cons, List.replicate_succ, runsOf]
      change _ = (runsOf (some (0, 0)) 0 _).map _
      rw [runsOf_deletes, if_neg (by simp), if_pos (.inr (.inl rfl))]
      rfl
    | cons y ys =>
      rw [if_neg (by simp), if_neg, htrace]
      simp only [List.length_cons] at h ⊢
      omega

/-- Within the budget the hunks are the runs of one script from the old lines to the new ones that
keeps as many lines as it can. -/
theorem lineHunks_eq (oldText newText : List Char)
    (h :
      let a := splitDiffLines oldText
      let b := splitDiffLines newText
      let p := trimPrefix a b
      let s := trimSuffix a b p
      (middle a p s).length * (middle b p s).length ≤ maxHunkCells) :
    ∃ script, Aligns script (splitDiffLines oldText) (splitDiffLines newText) ∧
      script.count .keep = lcs (splitDiffLines oldText) (splitDiffLines newText) ∧
      DeletesFirst script ∧
      lineHunks oldText newText =
        (runsOf none 0 script).map
          fun r => newRunHunk r.1 r.2 (splitDiffLines newText).length := by
  have hlcs := lcs_eq_middle (splitDiffLines oldText) (splitDiffLines newText)
  have hp := @trimPrefix_le (splitDiffLines oldText) (splitDiffLines newText)
  have hs := @trimSuffix_le (splitDiffLines oldText) (splitDiffLines newText)
    (trimPrefix (splitDiffLines oldText) (splitDiffLines newText))
  have hpre := @take_trimPrefix (splitDiffLines oldText) (splitDiffLines newText)
  have hsuf := @drop_trimSuffix (splitDiffLines oldText) (splitDiffLines newText)
    (trimPrefix (splitDiffLines oldText) (splitDiffLines newText))
  have hsame : oldText = newText →
      trimPrefix (splitDiffLines oldText) (splitDiffLines newText) =
          (splitDiffLines oldText).length ∧
        trimPrefix (splitDiffLines oldText) (splitDiffLines newText) =
          (splitDiffLines newText).length := by
    rintro rfl
    exact ⟨trimPrefix_self, trimPrefix_self⟩
  rw [lineHunks]
  generalize splitDiffLines oldText = a at h hlcs hp hs hpre hsuf hsame ⊢
  generalize splitDiffLines newText = b at h hlcs hp hs hpre hsuf hsame ⊢
  simp only at h hlcs ⊢
  generalize trimPrefix a b = p at h hlcs hp hs hpre hsuf hsame ⊢
  generalize trimSuffix a b p = s at h hlcs hs hsuf ⊢
  have hmidOld := @length_middle a p s
  have hmidNew := @length_middle b p s
  have ha : a.take p ++ middle a p s ++ a.drop (a.length - s) = a := take_append_middle (by omega)
  have hb : b.take p ++ middle b p s ++ b.drop (b.length - s) = b := take_append_middle (by omega)
  obtain ⟨hmid, hcount⟩ := aligns_scriptFrom (middle a p s) (middle b p s) 0 0
  have hfirst := deletesFirst_scriptFrom (middle a p s) (middle b p s) 0 0
  rw [List.drop_zero, List.drop_zero] at hmid hcount
  have htrace : traceHunks (middle a p s) (middle b p s) p b.length = _ := traceFrom_eq ..
  generalize scriptFrom (middle a p s) (middle b p s) (denseLCS (middle a p s) (middle b p s)) 0 0 =
    mid at hmid hcount hfirst htrace
  refine ⟨List.replicate p .keep ++ mid ++ List.replicate s .keep, ?_, ?_, hfirst.keeps p s, ?_⟩
  · have hfront := Aligns.keepAll (a.take p)
    have hback := Aligns.keepAll (a.drop (a.length - s))
    rw [List.length_take, Nat.min_eq_left (by omega)] at hfront
    rw [List.length_drop, show a.length - (a.length - s) = s by omega] at hback
    have hall := (hfront.append hmid).append hback
    rw [ha] at hall
    rwa [hpre, hsuf, hb] at hall
  · rw [List.count_append, List.count_append, List.count_replicate_self,
      List.count_replicate_self, hcount, hlcs]
  · have hruns : runsOf none 0 (List.replicate p .keep ++ mid ++ List.replicate s .keep) =
        (runsOf none 0 mid).map fun r => (p + r.1, p + r.2) := by
      rw [runsOf_append_keeps, runsOf_keeps, Nat.zero_add]
      exact runsOf_shift p none 0 mid
    rw [hruns, List.map_map]
    split
    · next heq =>
      obtain ⟨hold, hnew⟩ := hsame heq
      have hnil : middle a p s = [] := List.length_eq_zero_iff.mp (by omega)
      have hnil' : middle b p s = [] := List.length_eq_zero_iff.mp (by omega)
      rw [hnil, hnil'] at hmid
      rw [hmid.eq_of_nil_left]
      rfl
    · exact hunks_middle hmid h htrace

/-- The line that marks a place of the new text: the line there, or the last one at its end. -/
def junction (newLen k : ℕ) : ℕ := max 1 (min (k + 1) newLen)

theorem newRunHunk_start {lo hi newLen : ℕ} :
    (newRunHunk lo hi newLen).startLine = junction newLen lo := by
  rw [newRunHunk, junction]
  split
  · next h =>
    rw [h]
    rfl
  · change min (lo + 1) newLen = _
    omega

/-- A hunk ends with its run, and on its first line when that has none. -/
theorem newRunHunk_end {lo hi newLen : ℕ} (hlo : lo ≤ hi) (hhi : hi ≤ newLen) :
    (newRunHunk lo hi newLen).endLine = if lo < hi then hi else junction newLen lo := by
  rw [newRunHunk, junction]
  split
  · next h =>
    rw [if_neg (by omega), h]
    rfl
  · change min (max hi (min (lo + 1) newLen)) newLen = _
    split
    · omega
    · omega

theorem newRunHunk_apart {r r' : ℕ × ℕ} {newLen : ℕ} (hr : r.1 ≤ r.2) (hr' : r'.1 ≤ r'.2)
    (hend : r'.2 ≤ newLen) (h : r.2 < r'.1) :
    (newRunHunk r.1 r.2 newLen).endLine < (newRunHunk r'.1 r'.2 newLen).startLine ∨
      r.1 = newLen - 1 ∧ r.2 = newLen - 1 ∧ r'.1 = newLen ∧ r'.2 = newLen := by
  rw [newRunHunk_end hr (by omega), newRunHunk_start, junction, junction]
  split
  · omega
  · omega

/-- The hunks mark what a script does to the new text. Only the last two of them can meet, on the
last line: lines were deleted right before it and others at the end of the text. -/
structure GutterMarks (old new : List Line) (script : List EditStep) (hunks : List LineHunk) :
    Prop where
  aligns : Aligns script old new
  longest : script.count .keep = lcs old new
  within : ∀ h ∈ hunks, 1 ≤ h.startLine ∧ h.startLine ≤ h.endLine ∧ h.endLine ≤ max 1 new.length
  apart : hunks.Pairwise fun h h' => h.endLine < h'.startLine ∨
    h = { startLine := new.length, endLine := new.length } ∧ h' = h ∧
      StepAt script .delete (new.length - 1) ∧ StepAt script .delete new.length
  front : hunks.dropLast.Pairwise fun h h' => h.endLine < h'.startLine
  inserted : ∀ k, StepAt script .insert k → ∃ h ∈ hunks, h.startLine ≤ k + 1 ∧ k + 1 ≤ h.endLine
  deleted : ∀ k, StepAt script .delete k → ∃ h ∈ hunks, h.startLine = junction new.length k
  matched : ∀ k < new.length, (∀ h ∈ hunks, ¬ (h.startLine ≤ k + 1 ∧ k + 1 ≤ h.endLine)) →
    ∃ before behind, script = before ++ .keep :: behind ∧ reached before = k ∧
      old[consumed before]? = new[k]?
  changed : ∀ h ∈ hunks, ∀ line, h.startLine ≤ line → line ≤ h.endLine →
    (∃ k, line = k + 1 ∧ StepAt script .insert k) ∨
      ∃ k, line = junction new.length k ∧ StepAt script .delete k

theorem gutterMarks_runs {old new : List Line} {script : List EditStep}
    (haligns : Aligns script old new) (hlongest : script.count .keep = lcs old new)
    (hfirst : DeletesFirst script) :
    GutterMarks old new script
      ((runsOf none 0 script).map fun r => newRunHunk r.1 r.2 new.length) := by
  obtain ⟨hpair, hall⟩ := runsOf_spaced (behind_none 0) script
  rw [haligns.reached_eq, Nat.zero_add] at hall
  have hdelete : ∀ r ∈ runsOf none 0 script, r.1 = r.2 → StepAt script .delete r.1 := by
    intro r hr heq
    rcases (runsOf_marks (behind_none 0) hr).2 heq with hnone | ⟨k, hk, hsum⟩
    · cases hnone
    · rwa [← hsum, Nat.zero_add]
  have hinsert : ∀ r ∈ runsOf none 0 script, ∀ k, r.1 ≤ k → k < r.2 → StepAt script .insert k := by
    intro r hr k hlo hhi
    rcases (runsOf_marks (behind_none 0) hr).1 k hlo hhi with ⟨r₀, hnone, -⟩ | ⟨k, hk, rfl⟩
    · cases hnone
    · rwa [Nat.zero_add]
  have hinserted : ∀ k, StepAt script .insert k →
      ∃ h ∈ (runsOf none 0 script).map fun r => newRunHunk r.1 r.2 new.length,
        h.startLine ≤ k + 1 ∧ k + 1 ≤ h.endLine := by
    intro k hk
    obtain ⟨r, hr, hlo, hhi⟩ := runsOf_insert (behind_none 0) hk
    rw [Nat.zero_add] at hlo hhi
    obtain ⟨-, hle, hend⟩ := hall r hr
    refine ⟨_, List.mem_map_of_mem hr, ?_, ?_⟩
    · rw [newRunHunk_start, junction]
      omega
    · rw [newRunHunk_end hle hend, if_pos (hlo.trans_lt hhi)]
      omega
  constructor
  · exact haligns
  · exact hlongest
  · rintro h hh
    obtain ⟨r, hr, rfl⟩ := List.mem_map.mp hh
    obtain ⟨-, hle, hend⟩ := hall r hr
    rw [newRunHunk_start, newRunHunk_end hle hend, junction]
    split
    · omega
    · omega
  · apply List.pairwise_map.mpr
    refine List.Pairwise.imp_of_mem ?_ hpair
    intro r r' hr hr' hlt
    obtain ⟨-, hle, hend⟩ := hall r hr
    obtain ⟨-, hle', hend'⟩ := hall r' hr'
    rcases newRunHunk_apart hle hle' hend' hlt with hapart | ⟨h₁, h₂, h₁', h₂'⟩
    · exact .inl hapart
    · have hpos : 0 < new.length := by omega
      refine .inr ⟨?_, ?_, ?_, ?_⟩
      · rw [newRunHunk, if_neg hpos.ne', h₁, h₂]
        congr 1
        · omega
        · omega
      · rw [newRunHunk, newRunHunk, if_neg hpos.ne', if_neg hpos.ne', h₁, h₂, h₁', h₂']
        congr 1
        · omega
        · omega
      · exact h₁ ▸ hdelete r hr (h₁.trans h₂.symm)
      · exact h₁' ▸ hdelete r' hr' (h₁'.trans h₂'.symm)
  · rw [← List.map_dropLast]
    apply List.pairwise_map.mpr
    refine List.Pairwise.imp_of_mem ?_ (hpair.sublist (List.dropLast_sublist _))
    intro r r' hr hr' hlt
    obtain ⟨-, hle, hend⟩ := hall r ((List.dropLast_sublist _).subset hr)
    obtain ⟨-, hle', hend'⟩ := hall r' ((List.dropLast_sublist _).subset hr')
    have hne : runsOf none 0 script ≠ [] := List.ne_nil_of_mem ((List.dropLast_sublist _).subset hr)
    have hlast : r'.2 < ((runsOf none 0 script).getLast hne).1 := by
      rw [← List.dropLast_concat_getLast hne, List.pairwise_append] at hpair
      exact hpair.2.2 r' hr' _ (List.mem_singleton_self _)
    obtain ⟨-, hle'', hend''⟩ := hall _ (List.getLast_mem hne)
    rcases newRunHunk_apart hle hle' hend' hlt with hapart | ⟨-, -, -, h₂'⟩
    · exact hapart
    · omega
  · exact hinserted
  · intro k hk
    obtain ⟨r, hr, hlo⟩ := @runsOf_delete 0 none script k hfirst (fun r hr => by cases hr) hk
    rw [Nat.zero_add] at hlo
    exact ⟨_, List.mem_map_of_mem hr, by rw [newRunHunk_start, hlo]⟩
  · intro k hk hout
    rcases haligns.kept_or_inserted hk with hins | hkept
    · obtain ⟨h, hh, hin⟩ := hinserted k hins
      exact absurd hin (hout h hh)
    · exact hkept
  · rintro h hh line hstart hline
    obtain ⟨r, hr, rfl⟩ := List.mem_map.mp hh
    obtain ⟨-, hle, hend⟩ := hall r hr
    rw [newRunHunk_start] at hstart
    rw [newRunHunk_end hle hend] at hline
    split at hline
    · next hlt =>
      rw [junction] at hstart
      exact .inl ⟨line - 1, by omega, hinsert r hr (line - 1) (by omega) (by omega)⟩
    · exact .inr ⟨r.1, by omega, hdelete r hr (by omega)⟩

/-- For every two texts within the cell budget one script from the old lines to the new ones, which
keeps as many as any can, tells what the hunks mark: they are in order and within the new text, every
line outside of them is matched to an equal old one, every inserted line lies in one, every deletion
is marked at its junction, and nothing else is marked. -/
theorem lineHunks_marks (oldText newText : List Char)
    (h :
      let a := splitDiffLines oldText
      let b := splitDiffLines newText
      let p := trimPrefix a b
      let s := trimSuffix a b p
      (middle a p s).length * (middle b p s).length ≤ maxHunkCells) :
    ∃ script, GutterMarks (splitDiffLines oldText) (splitDiffLines newText) script
      (lineHunks oldText newText) := by
  obtain ⟨script, haligns, hlongest, hfirst, heq⟩ := lineHunks_eq oldText newText h
  rw [heq]
  exact ⟨script, gutterMarks_runs haligns hlongest hfirst⟩

theorem lineHunks_marks_call :
    ∃ script, GutterMarks (splitDiffLines "a\nb\nc".toList) (splitDiffLines "b\nx".toList) script
      (lineHunks "a\nb\nc".toList "b\nx".toList) :=
  lineHunks_marks "a\nb\nc".toList "b\nx".toList (by decide +kernel)

/-- The two hunks around a last line that is all that is left of its text are one line. -/
theorem lineHunks_meet :
    lineHunks "a\nx\nb".toList "x".toList =
        [{ startLine := 1, endLine := 1 }, { startLine := 1, endLine := 1 }] ∧
      ¬ (lineHunks "a\nx\nb".toList "x".toList).Pairwise fun h h' => h.endLine < h'.startLine := by
  decide +kernel

end Marotte.Diff.Server
