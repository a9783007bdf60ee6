import Marotte.Library.Segments
import Marotte.Residency.Grown

/-! # Runs and the edges of a slice

A slice snaps to whole prose runs where its edges stand on their members. An edge on an entry that
draws nothing may stand inside a run all the same, and then the run is cut.
-/
namespace Marotte.Residency
open Rail Segments

variable {t : Turn} {lane : String} {firstPlan : Option ℕ}

/-- Whether a place ends a run: something other than prose is drawn there. -/
def breaksRun (t : Turn) (lane : String) (firstPlan : Option ℕ) (seq : ℕ) : Bool :=
  draws t lane firstPlan seq && !inProseRun t lane firstPlan seq

theorem breaksRun_of_inProseRun (i : ℕ) (h : inProseRun t lane firstPlan i) :
    breaksRun t lane firstPlan i = false := by
  rw [breaksRun, h]
  simp

theorem entryAt_of_lt {i : ℕ} (hpos : 0 < i) (hlt : i < turnSpan t) :
    ∃ e, entryAt t i = some e := by
  obtain ⟨j, rfl⟩ := Nat.exists_eq_succ_of_ne_zero hpos.ne'
  rw [turnSpan, Nat.succ_lt_succ_iff] at hlt
  exact ⟨t.body[j], List.getElem?_eq_getElem hlt⟩

theorem lt_turnSpan_of_inProseRun {i : ℕ} (h : inProseRun t lane firstPlan i) :
    0 < i ∧ i < turnSpan t := by
  rw [inProseRun] at h
  cases i with
  | zero => simp [entryAt] at h
  | succ j =>
    refine ⟨Nat.succ_pos j, ?_⟩
    by_contra hge
    rw [turnSpan, Nat.succ_lt_succ_iff, not_lt] at hge
    simp [entryAt, List.getElem?_eq_none hge] at h

/-- The walk down finds the first member of the run, whatever it has found before. -/
theorem starts_runStartFrom {seq first i : ℕ} (hseq : seq < turnSpan t) (hlt : i < first)
    (hle : first ≤ seq) (hmember : inProseRun t lane firstPlan first)
    (hclear : Clear (breaksRun t lane firstPlan) i seq)
    (hbetween : ∀ p, i < p → p < first → inProseRun t lane firstPlan p = false) :
    Starts (inProseRun t lane firstPlan) (breaksRun t lane firstPlan) seq
      (runStartFrom t lane firstPlan i first) := by
  induction i generalizing first with
  | zero =>
    rw [runStartFrom]
    refine ⟨hle, hmember, hclear.narrow (Nat.zero_le _) le_rfl, ?_⟩
    intro p hp hm _
    by_contra hlow
    have hpos := (lt_turnSpan_of_inProseRun hm).1
    rw [hbetween p hpos (not_le.mp hlow)] at hm
    cases hm
  | succ i ih =>
    obtain ⟨e, he⟩ := entryAt_of_lt (t := t) (Nat.succ_pos i) (by omega)
    rw [runStartFrom]
    simp only [he]
    by_cases hprose : inProseRun t lane firstPlan (i + 1) = true
    · rw [if_pos hprose]
      apply ih (Nat.lt_succ_self i) (by omega) hprose
      · intro j hj hij
        rcases Nat.lt_or_eq_of_le (Nat.succ_le_of_lt hij) with hgt | rfl
        · exact hclear j hj hgt
        · exact breaksRun_of_inProseRun _ hprose
      · intro p hp hlow
        omega
    · rw [if_neg hprose]
      by_cases hdraws : entryRenders e lane firstPlan = true
      · rw [if_pos hdraws]
        refine ⟨hle, hmember, hclear.narrow hlt.le le_rfl, ?_⟩
        intro p hp hm hpclear
        by_contra hlow
        have hbreak : breaksRun t lane firstPlan (i + 1) = true := by
          simp [breaksRun, draws, he, hdraws, hprose]
        rcases lt_trichotomy p (i + 1) with hpi | rfl | hip
        · rw [hpclear (i + 1) (by omega) hpi] at hbreak
          cases hbreak
        · exact hprose hm
        · rw [hbetween p hip (not_le.mp hlow)] at hm
          cases hm
      · rw [if_neg hdraws]
        apply ih (by omega) hle hmember
        · intro j hj hij
          rcases Nat.lt_or_eq_of_le (Nat.succ_le_of_lt hij) with hgt | rfl
          · exact hclear j hj hgt
          · simp [breaksRun, draws, he, hdraws]
        · intro p hp hlow
          rcases Nat.lt_or_eq_of_le (Nat.succ_le_of_lt hp) with hgt | rfl
          · exact hbetween p hgt hlow
          · simpa using hprose

theorem starts_runStart {seq : ℕ} (h : inProseRun t lane firstPlan seq) :
    Starts (inProseRun t lane firstPlan) (breaksRun t lane firstPlan) seq
      (runStart t lane firstPlan seq) := by
  obtain ⟨hpos, hlt⟩ := lt_turnSpan_of_inProseRun h
  rw [runStart, if_pos h]
  apply starts_runStartFrom hlt (by omega) le_rfl h
  · intro j hj hlow
    omega
  · intro p hp hlow
    omega

/-- The walk up finds the last member of the run. -/
theorem ends_runEndFrom {seq last n i : ℕ} (hspan : i + n = turnSpan t) (hpos : 0 < i)
    (hlt : last < i) (hle : seq ≤ last) (hmember : inProseRun t lane firstPlan last)
    (hclear : Clear (breaksRun t lane firstPlan) seq i)
    (hbetween : ∀ p, last < p → p < i → inProseRun t lane firstPlan p = false) :
    Ends (inProseRun t lane firstPlan) (breaksRun t lane firstPlan) seq
      (runEndFrom t lane firstPlan n i last) := by
  induction n generalizing i last with
  | zero =>
    rw [runEndFrom]
    refine ⟨hle, hmember, hclear.narrow le_rfl hlt.le, ?_⟩
    intro p hp hm _
    by_contra hhigh
    have hbound := (lt_turnSpan_of_inProseRun hm).2
    rw [hbetween p (not_le.mp hhigh) (by omega)] at hm
    cases hm
  | succ n ih =>
    obtain ⟨e, he⟩ := entryAt_of_lt (t := t) hpos (by omega)
    rw [runEndFrom]
    simp only [he]
    by_cases hprose : inProseRun t lane firstPlan i = true
    · rw [if_pos hprose]
      apply ih (by omega) (Nat.succ_pos i) (Nat.lt_succ_self i) (by omega) hprose
      · intro j hj hlow
        rcases Nat.lt_or_eq_of_le (Nat.le_of_lt_succ hj) with hlt' | rfl
        · exact hclear j hlt' hlow
        · exact breaksRun_of_inProseRun _ hprose
      · intro p hp hlow
        omega
    · rw [if_neg hprose]
      by_cases hdraws : entryRenders e lane firstPlan = true
      · rw [if_pos hdraws]
        refine ⟨hle, hmember, hclear.narrow le_rfl hlt.le, ?_⟩
        intro p hp hm hpclear
        by_contra hhigh
        have hbreak : breaksRun t lane firstPlan i = true := by
          simp [breaksRun, draws, he, hdraws, hprose]
        rcases lt_trichotomy p i with hpi | rfl | hip
        · rw [hbetween p (not_le.mp hhigh) hpi] at hm
          cases hm
        · exact hprose hm
        · rw [hpclear i hip (by omega)] at hbreak
          cases hbreak
      · rw [if_neg hdraws]
        apply ih (by omega) (Nat.succ_pos i) (by omega) hle hmember
        · intro j hj hlow
          rcases Nat.lt_or_eq_of_le (Nat.le_of_lt_succ hj) with hlt' | rfl
          · exact hclear j hlt' hlow
          · simp [breaksRun, draws, he, hdraws]
        · intro p hp hlow
          rcases Nat.lt_or_eq_of_le (Nat.le_of_lt_succ hlow) with hlt' | rfl
          · exact hbetween p hp hlt'
          · simpa using hprose

theorem ends_runEnd {seq : ℕ} (h : inProseRun t lane firstPlan seq) :
    Ends (inProseRun t lane firstPlan) (breaksRun t lane firstPlan) seq
      (runEnd t lane firstPlan seq) := by
  obtain ⟨hpos, hlt⟩ := lt_turnSpan_of_inProseRun h
  rw [runEnd, if_pos h]
  apply ends_runEndFrom (by omega) (Nat.succ_pos seq) (Nat.lt_succ_self seq) le_rfl h
  · intro j hj hlow
    omega
  · intro p hp hlow
    omega

theorem runStart_of_not {seq : ℕ} (h : ¬inProseRun t lane firstPlan seq = true) :
    runStart t lane firstPlan seq = seq := if_neg h

theorem runEnd_of_not {seq : ℕ} (h : ¬inProseRun t lane firstPlan seq = true) :
    runEnd t lane firstPlan seq = seq := if_neg h

theorem runStart_le (seq : ℕ) : runStart t lane firstPlan seq ≤ seq := by
  by_cases h : inProseRun t lane firstPlan seq = true
  · exact (starts_runStart h).le
  · exact (runStart_of_not h).le

theorem le_runEnd (seq : ℕ) : seq ≤ runEnd t lane firstPlan seq := by
  by_cases h : inProseRun t lane firstPlan seq = true
  · exact (ends_runEnd h).le
  · exact (runEnd_of_not h).ge

theorem runEnd_lt {seq : ℕ} (hlt : seq < turnSpan t) : runEnd t lane firstPlan seq < turnSpan t := by
  by_cases h : inProseRun t lane firstPlan seq = true
  · exact (lt_turnSpan_of_inProseRun (ends_runEnd h).isMember).2
  · rwa [runEnd_of_not h]

theorem runStart_runStart (seq : ℕ) :
    runStart t lane firstPlan (runStart t lane firstPlan seq) = runStart t lane firstPlan seq := by
  by_cases h : inProseRun t lane firstPlan seq = true
  · have hstart := starts_runStart h
    have hagain := starts_runStart hstart.isMember
    exact hagain.eq_of_clear breaksRun_of_inProseRun
      (hstart.self breaksRun_of_inProseRun) le_rfl hstart.isMember
      (fun _ hj hlt => absurd hj hlt.asymm)
  · rw [runStart_of_not h, runStart_of_not h]

theorem runEnd_runEnd (seq : ℕ) :
    runEnd t lane firstPlan (runEnd t lane firstPlan seq) = runEnd t lane firstPlan seq := by
  by_cases h : inProseRun t lane firstPlan seq = true
  · have hend := ends_runEnd h
    have hagain := ends_runEnd hend.isMember
    exact hagain.eq_of_clear breaksRun_of_inProseRun
      (hend.self breaksRun_of_inProseRun) le_rfl hend.isMember
      (fun _ hj hlt => absurd hj hlt.asymm)
  · rw [runEnd_of_not h, runEnd_of_not h]

/-- A slice sliced again is the same. -/
theorem sliceTurn_sliceTurn (range : EntryRange) :
    sliceTurn t lane firstPlan (sliceTurn t lane firstPlan range) =
      sliceTurn t lane firstPlan range := by
  rw [sliceTurn.eq_def t lane firstPlan range]
  simp only
  split
  · next hempty =>
    have hstart : min (min range.start (turnSpan t)) (turnSpan t) = min range.start (turnSpan t) := by
      omega
    have hstop : min (max (min (max range.stop (min range.start (turnSpan t))) (turnSpan t))
        (min range.start (turnSpan t))) (turnSpan t) =
          min (max range.stop (min range.start (turnSpan t))) (turnSpan t) := by omega
    rw [sliceTurn]
    simp only [hstart, hstop]
    rw [if_pos hempty]
  · next hsome =>
    generalize hs : min range.start (turnSpan t) = start at hsome
    generalize he : min (max range.stop start) (turnSpan t) = stop at hsome
    have hlast : stop - 1 < turnSpan t := by omega
    have hlow : runStart t lane firstPlan start ≤ start := runStart_le start
    have hhigh : stop - 1 ≤ runEnd t lane firstPlan (stop - 1) := le_runEnd (stop - 1)
    have hbound : runEnd t lane firstPlan (stop - 1) < turnSpan t := runEnd_lt hlast
    have hstart : min (runStart t lane firstPlan start) (turnSpan t) =
        runStart t lane firstPlan start := by omega
    have hstop : min (max (runEnd t lane firstPlan (stop - 1) + 1) (runStart t lane firstPlan start))
        (turnSpan t) = runEnd t lane firstPlan (stop - 1) + 1 := by omega
    rw [sliceTurn]
    simp only [hstart, hstop]
    rw [if_neg (by omega), runStart_runStart, Nat.add_sub_cancel, runEnd_runEnd]

/-- A place inside a prose run that is not one of its members. -/
def Severs (t : Turn) (lane : String) (firstPlan : Option ℕ) (seq : ℕ) : Prop :=
  inProseRun t lane firstPlan seq = false ∧ ∃ p < seq, ∃ q < turnSpan t, seq < q ∧
    inProseRun t lane firstPlan p = true ∧ inProseRun t lane firstPlan q = true ∧
      Clear (breaksRun t lane firstPlan) p q

instance (seq : ℕ) : Decidable (Severs t lane firstPlan seq) :=
  inferInstanceAs (Decidable (_ ∧ ∃ p < seq, ∃ q < turnSpan t, _))

/-- Every prose run lies inside a slice or outside of it. -/
def KeepsRuns (t : Turn) (lane : String) (firstPlan : Option ℕ) (slice : EntryRange) : Prop :=
  ∀ seq run, proseRunAt t lane firstPlan seq = some run →
    slice.start ≤ run.start ∧ run.stop ≤ slice.stop ∨
      run.stop ≤ slice.start ∨ slice.stop ≤ run.start

theorem proseRunAt_eq {seq : ℕ} (h : inProseRun t lane firstPlan seq = true) :
    proseRunAt t lane firstPlan seq =
      some ⟨runStart t lane firstPlan seq, runEnd t lane firstPlan seq + 1⟩ := if_pos h

/-- A run around a place that is no member of it goes past the place on both sides. -/
theorem Severs.run {seq : ℕ} (h : Severs t lane firstPlan seq) :
    ∃ p, inProseRun t lane firstPlan p = true ∧ runStart t lane firstPlan p < seq ∧
      seq < runEnd t lane firstPlan p := by
  obtain ⟨-, p, hp, q, -, hq, hpm, hqm, hclear⟩ := h
  refine ⟨p, hpm, (runStart_le p).trans_lt hp, ?_⟩
  exact hq.trans_le ((ends_runEnd hpm).greatest q (by omega) hqm hclear)

theorem severs_of_run {p seq : ℕ} (hp : inProseRun t lane firstPlan p = true)
    (hnot : ¬inProseRun t lane firstPlan seq = true) (hlow : runStart t lane firstPlan p ≤ seq)
    (hhigh : seq ≤ runEnd t lane firstPlan p) : Severs t lane firstPlan seq := by
  have hstart := starts_runStart hp
  have hend := ends_runEnd hp
  have hclear := hstart.clear.join hend.clear (breaksRun_of_inProseRun p hp)
  have hlow' : runStart t lane firstPlan p ≠ seq := by
    rintro rfl
    exact hnot hstart.isMember
  have hhigh' : seq ≠ runEnd t lane firstPlan p := by
    rintro rfl
    exact hnot hend.isMember
  exact ⟨by simpa using hnot, _, by omega, _, (lt_turnSpan_of_inProseRun hend.isMember).2,
    by omega, hstart.isMember, hend.isMember, hclear⟩

/-- Past the first place of a slice there is no start of a run that reaches into it. -/
theorem runStart_le_runStart {seq s : ℕ} (hseq : inProseRun t lane firstPlan seq = true)
    (hsevers : ¬Severs t lane firstPlan s)
    (hreach : runStart t lane firstPlan s ≤ runEnd t lane firstPlan seq) :
    runStart t lane firstPlan s ≤ runStart t lane firstPlan seq := by
  by_contra hlow
  rw [not_le] at hlow
  by_cases hs : inProseRun t lane firstPlan s = true
  · have hstart := starts_runStart hseq
    have hend := ends_runEnd hseq
    have hs' := starts_runStart hs
    have hclear := hstart.clear.join hend.clear (breaksRun_of_inProseRun seq hseq)
    have heq := (hstart.self breaksRun_of_inProseRun).eq_of_clear breaksRun_of_inProseRun
      (hs'.self breaksRun_of_inProseRun) hlow.le hstart.isMember (hclear.narrow le_rfl hreach)
    omega
  · rw [runStart_of_not hs] at hlow hreach
    exact hsevers (severs_of_run hseq hs hlow.le hreach)

theorem runEnd_le_runEnd {seq e : ℕ} (hseq : inProseRun t lane firstPlan seq = true)
    (hsevers : ¬Severs t lane firstPlan e)
    (hreach : runStart t lane firstPlan seq ≤ runEnd t lane firstPlan e) :
    runEnd t lane firstPlan seq ≤ runEnd t lane firstPlan e := by
  by_contra hlow
  rw [not_le] at hlow
  by_cases he : inProseRun t lane firstPlan e = true
  · have hstart := starts_runStart hseq
    have hend := ends_runEnd hseq
    have he' := ends_runEnd he
    have hclear := hstart.clear.join hend.clear (breaksRun_of_inProseRun seq hseq)
    have heq := (he'.self breaksRun_of_inProseRun).eq_of_clear breaksRun_of_inProseRun
      (hend.self breaksRun_of_inProseRun) hlow.le hend.isMember (hclear.narrow hreach le_rfl)
    omega
  · rw [runEnd_of_not he] at hlow hreach
    exact hsevers (severs_of_run hseq he hreach hlow.le)

/-- A slice cuts no run exactly where neither of the places its range ends with is inside one
without being a member. -/
theorem keepsRuns_iff {s e : ℕ} (hle : s ≤ e) :
    KeepsRuns t lane firstPlan ⟨runStart t lane firstPlan s, runEnd t lane firstPlan e + 1⟩ ↔
      ¬Severs t lane firstPlan s ∧ ¬Severs t lane firstPlan e := by
  constructor
  · intro hkeeps
    have hend : e ≤ runEnd t lane firstPlan e := le_runEnd e
    have hstart : runStart t lane firstPlan s ≤ s := runStart_le s
    constructor
    · intro hsevers
      obtain ⟨p, hp, hlow, hhigh⟩ := hsevers.run
      have hs : runStart t lane firstPlan s = s := runStart_of_not (by simp [hsevers.1])
      have := hkeeps p _ (proseRunAt_eq hp)
      simp only [hs] at this
      omega
    · intro hsevers
      obtain ⟨p, hp, hlow, hhigh⟩ := hsevers.run
      have he : runEnd t lane firstPlan e = e := runEnd_of_not (by simp [hsevers.1])
      have := hkeeps p _ (proseRunAt_eq hp)
      simp only [he] at this
      omega
  · rintro ⟨hs, he⟩ seq run hrun
    by_cases hseq : inProseRun t lane firstPlan seq = true
    · rw [proseRunAt_eq hseq, Option.some.injEq] at hrun
      subst hrun
      simp only
      have hlow := runStart_le_runStart (s := s) hseq hs
      have hhigh := runEnd_le_runEnd (e := e) hseq he
      omega
    · rw [proseRunAt, if_neg hseq] at hrun
      cases hrun

/-! ## The planned slices -/

/-- The edges of the window, before it is cut into turns and snapped. -/
def windowEdges (turns : List Turn) (anchor : Option ResidencyAnchor) (lane : String)
    (b : TurnCost) : ℕ × ℕ :=
  if h : (ordinals turns lane).length ≠ 0 then
    ((residencyWindow turns anchor lane b h).lo, (residencyWindow turns anchor lane b h).hi)
  else (0, 0)

theorem find_planResidency {turns pre post : List Turn} {t : Turn} (hturns : turns = pre ++ t :: post)
    (hnodup : (turns.map Turn.id).Nodup) (anchor : Option ResidencyAnchor) (lane : String)
    (b : TurnCost) :
    Keyed.find Prod.fst (planResidency turns anchor lane b) t.id =
      let range := turnRange (windowEdges turns anchor lane b).1 (windowEdges turns anchor lane b).2
        (pre.map turnSpan).sum t
      if range.start < range.stop then
        some (t.id, sliceTurn t lane (firstPlanSeq t lane) range)
      else none := by
  subst hturns
  have hlen : (ordinals (pre ++ t :: post) lane).length ≠ 0 := by
    rw [length_ordinals]
    simp [turnSpan]
  rw [planResidency, windowEdges, dif_pos hlen, dif_pos hlen]
  exact (find_planFrom hnodup rfl).trans (by rw [Nat.zero_add])

/-- The first and the last place planned in a turn stand outside every run they are no member of. -/
def EdgesClear (turns : List Turn) (lane : String) (lo hi : ℕ) : Prop :=
  ∀ pre t post, turns = pre ++ t :: post →
    let range := turnRange lo hi (pre.map turnSpan).sum t
    range.start < range.stop → ¬Severs t lane (firstPlanSeq t lane) range.start ∧
      ¬Severs t lane (firstPlanSeq t lane) (range.stop - 1)

/-- A part of a window lies in its turn, so that its slice is snapped. -/
theorem sliceTurn_turnRange {t : Turn} {lane : String} {lo hi base : ℕ} {firstPlan : Option ℕ}
    (h : (turnRange lo hi base t).start < (turnRange lo hi base t).stop) :
    sliceTurn t lane firstPlan (turnRange lo hi base t) =
      ⟨runStart t lane firstPlan (turnRange lo hi base t).start,
        runEnd t lane firstPlan ((turnRange lo hi base t).stop - 1) + 1⟩ := by
  have hbound : (turnRange lo hi base t).stop ≤ turnSpan t := by
    rw [turnRange]
    simp only
    omega
  have hstart : min (turnRange lo hi base t).start (turnSpan t) = (turnRange lo hi base t).start := by
    omega
  have hstop : min (max (turnRange lo hi base t).stop (turnRange lo hi base t).start) (turnSpan t) =
      (turnRange lo hi base t).stop := by omega
  rw [sliceTurn]
  simp only [hstart, hstop]
  rw [if_neg (by omega)]

/-- No planned slice cuts a prose run exactly where the window's edges are clear of the runs; and
every planned slice sliced again is the same. -/
theorem plan_keepsRuns_iff {turns : List Turn} (hnodup : (turns.map Turn.id).Nodup)
    (anchor : Option ResidencyAnchor) (lane : String) (b : TurnCost) :
    (∀ t ∈ turns, ∀ slice,
        Keyed.find Prod.fst (planResidency turns anchor lane b) t.id = some (t.id, slice) →
          KeepsRuns t lane (firstPlanSeq t lane) slice ∧
            sliceTurn t lane (firstPlanSeq t lane) slice = slice) ↔
      EdgesClear turns lane (windowEdges turns anchor lane b).1
        (windowEdges turns anchor lane b).2 := by
  constructor
  · intro hkeeps pre t post hturns
    simp only
    intro hrange
    have hfind := find_planResidency hturns hnodup anchor lane b
    simp only [if_pos hrange] at hfind
    have hmem : t ∈ turns := by simp [hturns]
    have hslice := (hkeeps t hmem _ hfind).1
    rw [sliceTurn_turnRange hrange] at hslice
    exact (keepsRuns_iff (by omega)).mp hslice
  · intro hclear t ht slice hslice
    obtain ⟨pre, post, hturns⟩ := List.append_of_mem ht
    have hfind := find_planResidency hturns hnodup anchor lane b
    simp only at hfind
    rw [hslice] at hfind
    split at hfind
    · next hrange =>
      obtain rfl := (Prod.mk.inj (Option.some.inj hfind)).2
      refine ⟨?_, sliceTurn_sliceTurn _⟩
      rw [sliceTurn_turnRange hrange]
      exact (keepsRuns_iff (by omega)).mpr (hclear pre t post hturns hrange)
    · cases hfind

/-- A window that holds a whole turn of one entry cuts nothing. -/
theorem plan_keepsRuns_one : ∃ slice,
    Keyed.find Prod.fst (planResidency [oneText] none "" defaultBudget) oneText.id
      = some (oneText.id, slice)
      ∧ KeepsRuns oneText "" (firstPlanSeq oneText "") slice
      ∧ sliceTurn oneText "" (firstPlanSeq oneText "") slice = slice := by
  have hedges : windowEdges [oneText] none "" defaultBudget = (0, 2) := by decide +kernel
  have hnodup : ([oneText].map Turn.id).Nodup := by decide
  have hall := (plan_keepsRuns_iff hnodup none "" defaultBudget).mpr (by
    intro pre t post hturns
    simp only
    intro _
    obtain ⟨rfl, rfl, rfl⟩ : pre = [] ∧ t = oneText ∧ post = [] := by
      cases pre with
      | nil => simpa using hturns.symm
      | cons u pre => simp at hturns
    rw [hedges]
    decide +kernel)
  have hfind := @find_planResidency [oneText] [] [] oneText rfl hnodup none "" defaultBudget
  rw [hedges] at hfind
  have hrange : (turnRange 0 2 0 oneText).start < (turnRange 0 2 0 oneText).stop := by
    decide +kernel
  simp only [List.map_nil, List.sum_nil] at hfind
  rw [if_pos hrange] at hfind
  exact ⟨_, hfind, hall oneText List.mem_cons_self _ hfind⟩

/-- A turn of 322 entries, every one text but the second, which is the turn's binding. -/
def boundTurn : Turn where
  id := "t"
  n := 1
  trigger := none
  body := (List.range 322).map fun i =>
    { id := "e"
      turn := "t"
      seq := i + 1
      payload := if i = 1 then .turnBind ⟨"k", "s"⟩ else .text { text := "hi" } }
  openEntries := []
  ts := 0
  outcome := .completed
  rewindTo := none

/-- The newest 320 texts are one budget, the binding behind them is free, and the run goes on to the
first entry, which is left out. -/
theorem boundTurn_cut :
    planResidency [boundTurn] none "" defaultBudget = [("t", ⟨2, 323⟩)] ∧
      ¬KeepsRuns boundTurn "" (firstPlanSeq boundTurn "") ⟨2, 323⟩ := by
  refine ⟨by decide +kernel, ?_⟩
  intro hkeeps
  have hrun : proseRunAt boundTurn "" (firstPlanSeq boundTurn "") 1 = some ⟨1, 323⟩ := by
    decide +kernel
  have := hkeeps 1 _ hrun
  simp only at this
  omega

end Marotte.Residency
