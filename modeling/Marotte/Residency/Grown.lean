import Marotte.Residency.Window

/-! # What the window holds

Each side takes a place in its turn, so that neither is ahead of the other by more than one while
both go on, and a side that a budget stopped stays stopped.
-/
namespace Marotte.Residency
open Rail

variable {os : List Ordinal} {b : TurnCost} {place : ℕ}

/-! ## Stretches -/

/-- The places from one on and before another. -/
def stretch (os : List Ordinal) (lo hi : ℕ) : List Ordinal := (os.take hi).drop lo

/-- What a stretch draws. -/
def costOf (os : List Ordinal) : TurnCost where
  entries := os.countP (fun o => !o.isFree)
  toolCalls := os.countP Ordinal.isTool

theorem length_stretch (lo : ℕ) {hi : ℕ} (hhi : hi ≤ os.length) :
    (stretch os lo hi).length = hi - lo := by
  rw [stretch, List.length_drop, List.length_take, Nat.min_eq_left hhi]

theorem isFree_eq {i : ℕ} (h : i < os.length) : isFree os i = os[i].isFree := by
  rw [isFree, List.getElem?_eq_getElem h]
  rfl

theorem toolAt_eq {i : ℕ} (h : i < os.length) : toolAt os i = if os[i].isTool then 1 else 0 := by
  rw [toolAt, List.getElem?_eq_getElem h]
  rfl

theorem stretch_pred {lo hi : ℕ} (hlo : 0 < lo) (hlt : lo ≤ hi) (hhi : hi ≤ os.length) :
    stretch os (lo - 1) hi = os[lo - 1] :: stretch os lo hi := by
  have hlen : lo - 1 < (os.take hi).length := by
    rw [List.length_take]
    omega
  rw [stretch, List.drop_eq_getElem_cons hlen, List.getElem_take, Nat.sub_add_cancel hlo]
  rfl

theorem stretch_succ {lo hi : ℕ} (hlt : lo ≤ hi) (hhi : hi < os.length) :
    stretch os lo (hi + 1) = stretch os lo hi ++ [os[hi]] := by
  rw [stretch, List.take_succ_eq_append_getElem hhi, List.drop_append_of_le_length]
  · rfl
  · rw [List.length_take]
    omega

theorem stretch_self {i : ℕ} (h : i < os.length) : stretch os i (i + 1) = [os[i]] := by
  rw [stretch_succ le_rfl h, stretch]
  simp

/-- What one more place costs. -/
def addPlace (os : List Ordinal) (c : TurnCost) (i : ℕ) : TurnCost where
  entries := if isFree os i then c.entries else c.entries + 1
  toolCalls := c.toolCalls + toolAt os i

theorem costOf_pred {lo hi : ℕ} (hlo : 0 < lo) (hlt : lo ≤ hi) (hhi : hi ≤ os.length) :
    costOf (stretch os (lo - 1) hi) = addPlace os (costOf (stretch os lo hi)) (lo - 1) := by
  have hlen : lo - 1 < os.length := by omega
  rw [stretch_pred hlo hlt hhi, costOf, addPlace, isFree_eq hlen, toolAt_eq hlen, List.countP_cons,
    List.countP_cons, costOf]
  cases os[lo - 1].isFree <;> cases os[lo - 1].isTool <;> rfl

theorem costOf_succ {lo hi : ℕ} (hlt : lo ≤ hi) (hhi : hi < os.length) :
    costOf (stretch os lo (hi + 1)) = addPlace os (costOf (stretch os lo hi)) hi := by
  rw [stretch_succ hlt hhi, costOf, addPlace, isFree_eq hhi, toolAt_eq hhi, List.countP_append,
    List.countP_append, costOf, List.countP_singleton, List.countP_singleton]
  cases os[hi].isFree <;> cases os[hi].isTool <;> rfl

theorem costOf_le (os : List Ordinal) (lo : ℕ) {hi : ℕ} (hhi : hi ≤ os.length) :
    (costOf (stretch os lo hi)).entries ≤ hi - lo ∧
      (costOf (stretch os lo hi)).toolCalls ≤ hi - lo := by
  rw [← length_stretch lo hhi]
  exact ⟨List.countP_le_length, List.countP_le_length⟩

/-! ## The loop -/

/-- A place that would take the entries or the tool calls past a budget. -/
def Exceeds (os : List Ordinal) (b c : TurnCost) (i : ℕ) : Prop :=
  isFree os i = false ∧
    (b.entries < (addPlace os c i).entries ∨ b.toolCalls < (addPlace os c i).toolCalls)

/-- A place that exceeds the budgets does so beside a greater cost too. -/
theorem Exceeds.mono {c c' : TurnCost} {i : ℕ} (h : Exceeds os b c i)
    (hentries : c.entries ≤ c'.entries) (htools : c.toolCalls ≤ c'.toolCalls) :
    Exceeds os b c' i := by
  obtain ⟨hfree, hover⟩ := h
  refine ⟨hfree, ?_⟩
  simp only [addPlace, hfree, Bool.false_eq_true, if_false] at hover ⊢
  omega

theorem addPlace_le (os : List Ordinal) (c : TurnCost) (i : ℕ) :
    c.entries ≤ (addPlace os c i).entries ∧ c.toolCalls ≤ (addPlace os c i).toolCalls := by
  rw [addPlace]
  cases isFree os i <;> simp

/-- A place that does not exceed the budgets leaves a cost within them, or as it was. -/
theorem addPlace_within {c : TurnCost} {i : ℕ} (h : ¬Exceeds os b c i) {seed seedTools : ℕ}
    (hentries : c.entries ≤ max b.entries seed) (htools : c.toolCalls ≤ max b.toolCalls seedTools)
    (hfree : ∀ o ∈ os, o.isFree = true → o.isTool = false) (hi : i < os.length) :
    (addPlace os c i).entries ≤ max b.entries seed ∧
      (addPlace os c i).toolCalls ≤ max b.toolCalls seedTools := by
  cases hf : isFree os i with
  | true =>
    have htool : toolAt os i = 0 := by
      rw [isFree_eq hi] at hf
      rw [toolAt_eq hi, hfree _ (List.getElem_mem hi) hf]
      rfl
    simp only [addPlace, hf, htool]
    exact ⟨hentries, htools⟩
  | false =>
    have hfits : (addPlace os c i).entries ≤ b.entries ∧
        (addPlace os c i).toolCalls ≤ b.toolCalls := by
      rw [Exceeds, not_and_or, not_or] at h
      have := h.resolve_left (not_not_intro hf)
      omega
    omega

namespace Cursors

variable {w : Cursors os.length}

def cost (w : Cursors os.length) : TurnCost := ⟨w.entries, w.toolCalls⟩

theorem refuses_iff {i : ℕ} : w.refuses b i = true ↔ Exceeds os b w.cost i := by
  rw [refuses, Exceeds, addPlace]
  cases isFree os i <;> simp [cost]

end Cursors

/-- The loop's invariant. Both sides go on in turn, so that the places behind a side that stops are
as many as it took, or one more; the budget it found spent is no greater than these. -/
structure Grown (os : List Ordinal) (b : TurnCost) (place : ℕ) (w : Cursors os.length) : Prop where
  lo_le : w.lo ≤ place
  lt_hi : place < w.hi
  cost : w.cost = costOf (stretch os w.lo w.hi)
  entries_le : w.entries ≤ max b.entries (if isFree os place then 0 else 1)
  toolCalls_le : w.toolCalls ≤ max b.toolCalls (toolAt os place)
  head_stopped : w.headLatched = true → w.lo = 0 ∨
    Exceeds os b w.cost (w.lo - 1) ∧ min b.entries b.toolCalls < 2 * (place - w.lo) + 2
  tail_stopped : w.tailLatched = true → w.hi = os.length ∨
    Exceeds os b w.cost w.hi ∧ min b.entries b.toolCalls < 2 * (w.hi - (place + 1)) + 3
  head_even : w.headLatched = false → w.hi - (place + 1) + (!w.head).toNat ≤ place - w.lo
  tail_even : w.tailLatched = false → place - w.lo ≤ w.hi - (place + 1) + (!w.head).toNat

namespace Grown

variable {w : Cursors os.length}

theorem seeded (h : place < os.length) : Grown os b place (Cursors.seeded os place h) where
  lo_le := le_rfl
  lt_hi := Nat.lt_succ_self place
  cost := by
    rw [Cursors.seeded, stretch_self h, Cursors.cost, costOf, isFree_eq h, toolAt_eq h,
      List.countP_singleton, List.countP_singleton]
    cases os[place].isFree <;> cases os[place].isTool <;> rfl
  entries_le := le_max_right _ _
  toolCalls_le := le_max_right _ _
  head_stopped := by
    intro hlatched
    exact .inl (of_decide_eq_true hlatched)
  tail_stopped := by
    intro hlatched
    exact .inl (of_decide_eq_true hlatched)
  head_even := by
    intro _
    simp [Cursors.seeded]
  tail_even := by
    intro _
    simp [Cursors.seeded]

/-- A refused place exceeds a budget that the places taken already fill. -/
theorem spent (h : Grown os b place w) {i : ℕ} (hexceeds : Exceeds os b w.cost i) :
    min b.entries b.toolCalls < w.hi - w.lo + 1 := by
  obtain ⟨hfree, hover⟩ := hexceeds
  obtain ⟨hentries, htools⟩ := costOf_le os w.lo w.hi_le
  have htool : toolAt os i ≤ 1 := by
    rw [toolAt]
    split <;> omega
  rw [h.cost] at hover
  simp only [addPlace, hfree, Bool.false_eq_true, if_false] at hover
  omega

section Step

variable (h : Grown os b place w)
include h

theorem refuseHead (hhead : w.head = true) (hopen : w.headLatched = false)
    (hrefuses : w.refuses b (w.lo - 1) = true) :
    Grown os b place { w with headLatched := true, lo_pos := by simp, head := false } := by
  have hexceeds := Cursors.refuses_iff.mp hrefuses
  have hspent := h.spent hexceeds
  have heven := h.head_even hopen
  have hlo := h.lo_le
  have hhi := h.lt_hi
  constructor
  · exact h.lo_le
  · exact h.lt_hi
  · exact h.cost
  · exact h.entries_le
  · exact h.toolCalls_le
  · intro _
    refine .inr ⟨hexceeds, ?_⟩
    simp only [hhead, Bool.not_true, Bool.toNat_false] at heven
    show _ < 2 * (place - w.lo) + 2
    omega
  · exact h.tail_stopped
  · intro hlatched
    cases hlatched
  · intro htail
    have := h.tail_even htail
    simp only [hhead, Bool.not_true, Bool.toNat_false] at this
    show place - w.lo ≤ w.hi - (place + 1) + 1
    omega

theorem refuseTail (hhead : w.head = false) (hopen : w.tailLatched = false)
    (hrefuses : w.refuses b w.hi = true) :
    Grown os b place { w with tailLatched := true, hi_lt := by simp, head := true } := by
  have hexceeds := Cursors.refuses_iff.mp hrefuses
  have hspent := h.spent hexceeds
  have heven := h.tail_even hopen
  have hlo := h.lo_le
  have hhi := h.lt_hi
  constructor
  · exact h.lo_le
  · exact h.lt_hi
  · exact h.cost
  · exact h.entries_le
  · exact h.toolCalls_le
  · exact h.head_stopped
  · intro _
    refine .inr ⟨hexceeds, ?_⟩
    simp only [hhead, Bool.not_false, Bool.toNat_true] at heven
    show _ < 2 * (w.hi - (place + 1)) + 3
    omega
  · intro hlatched
    have := h.head_even hlatched
    simp only [hhead, Bool.not_false, Bool.toNat_true] at this
    show w.hi - (place + 1) + 0 ≤ place - w.lo
    omega
  · intro hlatched
    cases hlatched

variable (hfree : ∀ o ∈ os, o.isFree = true → o.isTool = false)
include hfree

theorem takeHead (hhead : w.head = true) (hopen : w.headLatched = false)
    (hrefuses : ¬w.refuses b (w.lo - 1) = true) : Grown os b place (w.step b) := by
  rw [Cursors.step, if_pos hhead, dif_pos hopen, if_neg hrefuses]
  have hpos := w.lo_pos hopen
  have hlo := h.lo_le
  have hhi := h.lt_hi
  have hle := w.hi_le
  have heven := h.head_even hopen
  simp only [hhead, Bool.not_true, Bool.toNat_false] at heven
  have hgrows := addPlace_le os w.cost (w.lo - 1)
  have hwithin := addPlace_within (fun hexceeds => hrefuses (Cursors.refuses_iff.mpr hexceeds))
    h.entries_le h.toolCalls_le hfree (show w.lo - 1 < os.length by omega)
  constructor
  · show w.lo - 1 ≤ place
    omega
  · exact hhi
  · show addPlace os w.cost (w.lo - 1) = costOf (stretch os (w.lo - 1) w.hi)
    rw [costOf_pred hpos (by omega) hle, h.cost]
  · exact hwithin.1
  · exact hwithin.2
  · intro hlatched
    exact .inl (of_decide_eq_true hlatched)
  · intro htail
    rcases h.tail_stopped htail with hend | ⟨hexceeds, hmin⟩
    · exact .inl hend
    · exact .inr ⟨hexceeds.mono hgrows.1 hgrows.2, hmin⟩
  · intro _
    show w.hi - (place + 1) + 1 ≤ place - (w.lo - 1)
    omega
  · intro htail
    have := h.tail_even htail
    simp only [hhead, Bool.not_true, Bool.toNat_false] at this
    show place - (w.lo - 1) ≤ w.hi - (place + 1) + 1
    omega

theorem takeTail (hhead : w.head = false) (hopen : w.tailLatched = false)
    (hrefuses : ¬w.refuses b w.hi = true) : Grown os b place (w.step b) := by
  rw [Cursors.step, if_neg (by simp [hhead]), dif_pos hopen, if_neg hrefuses]
  have hlt := w.hi_lt hopen
  have hlo := h.lo_le
  have hhi := h.lt_hi
  have heven := h.tail_even hopen
  simp only [hhead, Bool.not_false, Bool.toNat_true] at heven
  have hgrows := addPlace_le os w.cost w.hi
  have hwithin := addPlace_within (fun hexceeds => hrefuses (Cursors.refuses_iff.mpr hexceeds))
    h.entries_le h.toolCalls_le hfree hlt
  constructor
  · exact hlo
  · show place < w.hi + 1
    omega
  · show addPlace os w.cost w.hi = costOf (stretch os w.lo (w.hi + 1))
    rw [costOf_succ (by omega) hlt, h.cost]
  · exact hwithin.1
  · exact hwithin.2
  · intro hlatched
    rcases h.head_stopped hlatched with hend | ⟨hexceeds, hmin⟩
    · exact .inl hend
    · exact .inr ⟨hexceeds.mono hgrows.1 hgrows.2, hmin⟩
  · intro hlatched
    exact .inl (of_decide_eq_true hlatched)
  · intro hlatched
    have := h.head_even hlatched
    simp only [hhead, Bool.not_false, Bool.toNat_true] at this
    show w.hi + 1 - (place + 1) + 0 ≤ place - w.lo
    omega
  · intro _
    show place - w.lo ≤ w.hi + 1 - (place + 1) + 0
    omega

theorem step : Grown os b place (w.step b) := by
  by_cases hhead : w.head = true
  · by_cases hopen : w.headLatched = false
    · by_cases hrefuses : w.refuses b (w.lo - 1) = true
      · rw [Cursors.step, if_pos hhead, dif_pos hopen, if_pos hrefuses]
        exact h.refuseHead hhead hopen hrefuses
      · exact h.takeHead hfree hhead hopen hrefuses
    · rw [Cursors.step, if_pos hhead, dif_neg hopen]
      refine ⟨h.lo_le, h.lt_hi, h.cost, h.entries_le, h.toolCalls_le, h.head_stopped,
        h.tail_stopped, fun hlatched => absurd hlatched hopen, fun htail => ?_⟩
      have := h.tail_even htail
      simp only [hhead, Bool.not_true, Bool.toNat_false] at this
      exact Nat.le_succ_of_le this
  · have hhead' : w.head = false := by simpa using hhead
    by_cases hopen : w.tailLatched = false
    · by_cases hrefuses : w.refuses b w.hi = true
      · rw [Cursors.step, if_neg hhead, dif_pos hopen, if_pos hrefuses]
        exact h.refuseTail hhead' hopen hrefuses
      · exact h.takeTail hfree hhead' hopen hrefuses
    · rw [Cursors.step, if_neg hhead, dif_neg hopen]
      refine ⟨h.lo_le, h.lt_hi, h.cost, h.entries_le, h.toolCalls_le, h.head_stopped,
        h.tail_stopped, fun hlatched => ?_, fun htail => absurd htail hopen⟩
      have := h.head_even hlatched
      simp only [hhead', Bool.not_false, Bool.toNat_true] at this
      exact Nat.le_of_succ_le this

/-- The loop ends with both sides latched. -/
theorem grow : Grown os b place (w.grow b) ∧ (w.grow b).headLatched = true ∧
    (w.grow b).tailLatched = true := by
  induction w using Cursors.grow.induct b with
  | case1 w hlatched =>
    rw [Cursors.grow, dif_pos hlatched]
    rw [Bool.and_eq_true] at hlatched
    exact ⟨h, hlatched⟩
  | case2 w hlatched ih =>
    rw [Cursors.grow, dif_neg hlatched]
    exact ih (h.step hfree)

end Step

end Grown

/-! ## The sequence's places -/

/-- A free place holds no tool call. -/
theorem tool_of_isFree {turns : List Turn} {lane : String} :
    ∀ o ∈ ordinals turns lane, o.isFree = true → o.isTool = false := by
  intro o ho hfree
  obtain ⟨t, -, ht⟩ := List.mem_flatMap.mp ho
  obtain ⟨seq, -, rfl⟩ := List.mem_map.mp ht
  cases hentry : entryAt t seq with
  | none => rfl
  | some e =>
    simp only [hentry] at hfree ⊢
    simp [hfree]

theorem find_planFrom_of_notMem {lane : String} {lo hi base : ℕ} {turns : List Turn}
    {plan : List (String × EntryRange)} {id : String} (h : id ∉ turns.map Turn.id) :
    Keyed.find Prod.fst (planFrom lane lo hi base turns plan) id = Keyed.find Prod.fst plan id := by
  induction turns generalizing base plan with
  | nil => rfl
  | cons t ts ih =>
    rw [List.map_cons, List.mem_cons, not_or] at h
    rw [planFrom, ih h.2]
    split
    · exact Keyed.find_set_of_ne h.1
    · rfl

/-- Every turn gets the slice of its part of the window, where the window touches it. -/
theorem find_planFrom {lane : String} {lo hi : ℕ} {pre post : List Turn} {t : Turn} {base : ℕ}
    {plan : List (String × EntryRange)} (hnodup : ((pre ++ t :: post).map Turn.id).Nodup)
    (hplan : Keyed.find Prod.fst plan t.id = none) :
    Keyed.find Prod.fst (planFrom lane lo hi base (pre ++ t :: post) plan) t.id =
      let range := turnRange lo hi (base + (pre.map turnSpan).sum) t
      if range.start < range.stop then
        some (t.id, sliceTurn t lane (firstPlanSeq t lane) range)
      else none := by
  induction pre generalizing base plan with
  | nil =>
    rw [List.nil_append, List.map_cons, List.nodup_cons] at hnodup
    rw [List.nil_append, planFrom, find_planFrom_of_notMem hnodup.1]
    simp only [List.map_nil, List.sum_nil, Nat.add_zero]
    split
    · exact Keyed.find_set_key
    · exact hplan
  | cons u pre ih =>
    rw [List.cons_append, List.map_cons, List.nodup_cons] at hnodup
    have hne : t.id ≠ u.id := by
      intro heq
      apply hnodup.1
      rw [← heq]
      simp
    rw [List.cons_append, planFrom, ih hnodup.2]
    · simp only [List.map_cons, List.sum_cons, Nat.add_assoc]
    · split
      · refine Eq.trans (Keyed.find_set_of_ne ?_) hplan
        exact hne
      · exact hplan

/-! ## The verdict -/

/-- A stretch around a place: within the budgets, the place's own entry apart, and as far as they
go. -/
structure SoundWindow (os : List Ordinal) (b : TurnCost) (place lo hi : ℕ) : Prop where
  lo_le : lo ≤ place
  lt_hi : place < hi
  hi_le : hi ≤ os.length
  entries : (costOf (stretch os lo hi)).entries ≤
    max b.entries (costOf (stretch os place (place + 1))).entries
  toolCalls : (costOf (stretch os lo hi)).toolCalls ≤
    max b.toolCalls (costOf (stretch os place (place + 1))).toolCalls
  maximal_head : 0 < lo → b.entries < (costOf (stretch os (lo - 1) hi)).entries ∨
    b.toolCalls < (costOf (stretch os (lo - 1) hi)).toolCalls
  maximal_tail : hi < os.length → b.entries < (costOf (stretch os lo (hi + 1))).entries ∨
    b.toolCalls < (costOf (stretch os lo (hi + 1))).toolCalls
  overscan : b = defaultBudget → (lo = 0 ∨ overscanEntries ≤ place - lo) ∧
    (hi = os.length ∨ overscanEntries ≤ hi - (place + 1))

theorem Grown.sound {w : Cursors os.length} (h : Grown os b place w)
    (hhead : w.headLatched = true) (htail : w.tailLatched = true) :
    SoundWindow os b place w.lo w.hi := by
  have hlo := h.lo_le
  have hhi := h.lt_hi
  have hle := w.hi_le
  have hseed : costOf (stretch os place (place + 1)) =
      ⟨if isFree os place then 0 else 1, toolAt os place⟩ := by
    have hlt : place < os.length := by omega
    rw [stretch_self hlt, costOf, isFree_eq hlt, toolAt_eq hlt, List.countP_singleton,
      List.countP_singleton]
    cases os[place].isFree <;> cases os[place].isTool <;> rfl
  constructor
  · exact hlo
  · exact hhi
  · exact hle
  · rw [hseed, ← h.cost]
    exact h.entries_le
  · rw [hseed, ← h.cost]
    exact h.toolCalls_le
  · intro hpos
    rw [costOf_pred hpos (by omega) hle, ← h.cost]
    rcases h.head_stopped hhead with hend | ⟨hexceeds, -⟩
    · omega
    · exact hexceeds.2
  · intro hlt
    rw [costOf_succ (by omega) hlt, ← h.cost]
    rcases h.tail_stopped htail with hend | ⟨hexceeds, -⟩
    · omega
    · exact hexceeds.2
  · rintro rfl
    have hmin : min defaultBudget.entries defaultBudget.toolCalls = 96 := rfl
    have hdepth : overscanEntries = 24 := rfl
    have hstart := h.head_stopped hhead
    have hend := h.tail_stopped htail
    omega

/-- The plan of a window: each turn's part of it, snapped outward. -/
def PlansWindow (turns : List Turn) (lane : String) (lo hi : ℕ)
    (plan : List (String × EntryRange)) : Prop :=
  ∀ pre t post, turns = pre ++ t :: post →
    let range := turnRange lo hi (pre.map turnSpan).sum t
    Keyed.find Prod.fst plan t.id =
      if range.start < range.stop then
        some (t.id, sliceTurn t lane (firstPlanSeq t lane) range)
      else none

/-- The planner answers the slices of one sound window around the anchor's place. -/
theorem planResidency_sound {turns : List Turn} (hne : turns ≠ [])
    (hnodup : (turns.map Turn.id).Nodup) (anchor : Option ResidencyAnchor) (lane : String)
    (b : TurnCost) :
    ∃ lo hi, SoundWindow (ordinals turns lane) b
        (anchorPlace turns anchor (ordinals turns lane).length) lo hi ∧
      PlansWindow turns lane lo hi (planResidency turns anchor lane b) := by
  have hlen : (ordinals turns lane).length ≠ 0 := by
    rw [length_ordinals]
    cases turns with
    | nil => exact absurd rfl hne
    | cons t ts => simp [turnSpan]
  obtain ⟨hgrown, hhead, htail⟩ := (Grown.seeded (b := b)
    (anchorPlace_lt lane anchor hlen)).grow tool_of_isFree
  refine ⟨_, _, hgrown.sound hhead htail, ?_⟩
  rintro pre t post rfl
  rw [planResidency, dif_pos hlen]
  exact (find_planFrom hnodup rfl).trans (by rw [Nat.zero_add]; rfl)

/-- A settled turn of one text entry. -/
def oneText : Turn where
  id := "t"
  n := 1
  trigger := none
  body := [{ id := "e", turn := "t", seq := 1, payload := .text { text := "hi" } }]
  openEntries := []
  ts := 0
  outcome := .completed
  rewindTo := none

theorem planResidency_sound_one :
    ∃ lo hi, SoundWindow (ordinals [oneText] "") defaultBudget
        (anchorPlace [oneText] none (ordinals [oneText] "").length) lo hi ∧
      PlansWindow [oneText] "" lo hi (planResidency [oneText] none "" defaultBudget) :=
  planResidency_sound (List.cons_ne_nil _ _) (by decide) none "" defaultBudget

/-- A budget of nothing does not hold the anchor's own entry, which is planned all the same. -/
theorem emptyBudget_exceeded :
    planResidency [oneText] none "" ⟨0, 0⟩ = [("t", ⟨0, 2⟩)] ∧
      costOf (ordinals [oneText] "") = ⟨1, 0⟩ := by
  decide +kernel

end Marotte.Residency
