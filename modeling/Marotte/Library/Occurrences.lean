import Mathlib.Data.List.Basic
import Mathlib.Tactic.Linarith

/-! # Occurrences of a needle

The matches a repeated leftmost search takes are characterised by three facts, and a search over
the units of a self-synchronising code finds the symbols a search over the symbols finds.
-/
namespace Marotte

section Search

variable {α : Type*} [DecidableEq α]

/-- The least place `needle` stands at in a text. -/
def indexOf (needle : List α) : List α → Option ℕ
  | [] => if needle.isPrefixOf [] then some 0 else none
  | a :: hay => if needle.isPrefixOf (a :: hay) then some 0 else (indexOf needle hay).map (· + 1)

variable {needle hay : List α} {i k : ℕ}

theorem indexOf_front (h : needle <+: hay) : indexOf needle hay = some 0 := by
  cases hay <;> simp only [indexOf, List.isPrefixOf_iff_prefix, h, if_true]

theorem indexOf_cons {a : α} (h : ¬ needle <+: a :: hay) :
    indexOf needle (a :: hay) = (indexOf needle hay).map (· + 1) := by
  simp only [indexOf, List.isPrefixOf_iff_prefix, h, if_false]

theorem indexOf_nil (h : needle ≠ []) : indexOf needle [] = none := by
  simp [indexOf, h]

/-- Places with no match are passed over. -/
theorem indexOf_skip (h : ∀ j < k, ¬ needle <+: hay.drop j) (hk : k ≤ hay.length) :
    indexOf needle hay = (indexOf needle (hay.drop k)).map (· + k) := by
  induction k generalizing hay with
  | zero => simp
  | succ k ih =>
    cases hay with
    | nil => simp at hk
    | cons a hay =>
      have hrest : indexOf needle hay = (indexOf needle (hay.drop k)).map (· + k) :=
        ih (fun j hj => h (j + 1) (by omega)) (by simpa using hk)
      rw [indexOf_cons (h 0 (by omega)), hrest, Option.map_map]
      congr 1

/-- What the search answers: the first match, or that there is none. -/
theorem indexOf_spec (needle hay : List α) :
    match indexOf needle hay with
    | some i => needle <+: hay.drop i ∧ ∀ j < i, ¬ needle <+: hay.drop j
    | none => ∀ j, ¬ needle <+: hay.drop j := by
  induction hay with
  | nil =>
    by_cases h : needle = []
    · simp [indexOf, h]
    · simp [indexOf, h]
  | cons a hay ih =>
    by_cases h : needle <+: a :: hay
    · simpa [indexOf_front h] using h
    · rw [indexOf_cons h]
      cases hfound : indexOf needle hay with
      | none =>
        rw [hfound] at ih
        intro j
        cases j with
        | zero => exact h
        | succ j => exact ih j
      | some i =>
        rw [hfound] at ih
        constructor
        · exact ih.1
        · intro j hj
          cases j with
          | zero => exact h
          | succ j => exact ih.2 j (by simpa using hj)

theorem indexOf_some (h : indexOf needle hay = some i) :
    needle <+: hay.drop i ∧ ∀ j < i, ¬ needle <+: hay.drop j := by
  have hspec := indexOf_spec needle hay
  rwa [h] at hspec

theorem indexOf_none (h : indexOf needle hay = none) (j : ℕ) : ¬ needle <+: hay.drop j := by
  have hspec := indexOf_spec needle hay
  rw [h] at hspec
  exact hspec j

theorem indexOf_le (hn : needle ≠ []) (h : indexOf needle hay = some i) :
    i + needle.length ≤ hay.length := by
  have hfit := (indexOf_some h).1.length_le
  have hpos := List.length_pos_iff.2 hn
  rw [List.length_drop] at hfit
  omega

/-- The places of a repeated leftmost search, each on behind the match before it. -/
def leftmostFrom (needle hay : List α) (hn : needle ≠ []) (start : ℕ) : List ℕ :=
  match _found : indexOf needle (hay.drop start) with
  | none => []
  | some i => (start + i) :: leftmostFrom needle hay hn (start + i + needle.length)
termination_by hay.length - start
decreasing_by
  have hfit := indexOf_le hn _found
  have hpos := List.length_pos_iff.2 hn
  rw [List.length_drop] at hfit
  omega

variable {hn : needle ≠ []} {start : ℕ}

theorem leftmostFrom_none (h : indexOf needle (hay.drop start) = none) :
    leftmostFrom needle hay hn start = [] := by
  rw [leftmostFrom]
  split
  · rfl
  · simp_all

theorem leftmostFrom_some (h : indexOf needle (hay.drop start) = some i) :
    leftmostFrom needle hay hn start
      = (start + i) :: leftmostFrom needle hay hn (start + i + needle.length) := by
  rw [leftmostFrom]
  split
  · simp_all
  · simp_all

/-- The greedy leftmost matches that do not overlap: each is a match, each begins behind the one
before it, and every match of the text begins within one of them. -/
structure Greedy (needle hay : List α) (places : List ℕ) : Prop where
  matched : ∀ p ∈ places, needle <+: hay.drop p
  apart : places.Pairwise fun p q => p + needle.length ≤ q
  covers : ∀ q, needle <+: hay.drop q → ∃ p ∈ places, p ≤ q ∧ q < p + needle.length

/-- From a place on, the repeated search takes the greedy matches. -/
theorem leftmostFrom_spec (hay : List α) (hn : needle ≠ []) (start : ℕ) :
    (∀ p ∈ leftmostFrom needle hay hn start, start ≤ p ∧ needle <+: hay.drop p)
      ∧ (leftmostFrom needle hay hn start).Pairwise (fun p q => p + needle.length ≤ q)
      ∧ ∀ q, start ≤ q → needle <+: hay.drop q →
          ∃ p ∈ leftmostFrom needle hay hn start, p ≤ q ∧ q < p + needle.length := by
  induction start using leftmostFrom.induct needle hay hn with
  | case1 start h =>
    rw [leftmostFrom_none h]
    refine ⟨by simp, by simp, ?_⟩
    intro q hq hmatch
    have hnone := indexOf_none h (q - start)
    rw [List.drop_drop] at hnone
    rw [show start + (q - start) = q by omega] at hnone
    exact absurd hmatch hnone
  | case2 start i h ih =>
    rw [leftmostFrom_some h]
    obtain ⟨hin, hapart, hcovers⟩ := ih
    obtain ⟨hmatch, hfirst⟩ := indexOf_some h
    rw [List.drop_drop] at hmatch
    refine ⟨?_, ?_, ?_⟩
    · intro p hp
      rcases List.mem_cons.1 hp with rfl | hp
      · exact ⟨by omega, hmatch⟩
      · have := hin p hp
        exact ⟨by omega, this.2⟩
    · apply List.pairwise_cons.2
      constructor
      · intro q hq
        exact (hin q hq).1
      · exact hapart
    · intro q hq hat
      by_cases hbehind : start + i + needle.length ≤ q
      · obtain ⟨p, hp, hle⟩ := hcovers q hbehind hat
        exact ⟨p, List.mem_cons_of_mem _ hp, hle⟩
      · have hlow : start + i ≤ q := by
          by_contra hlt
          have hno := hfirst (q - start) (by omega)
          rw [List.drop_drop, show start + (q - start) = q by omega] at hno
          exact hno hat
        exact ⟨start + i, List.mem_cons_self, hlow, by omega⟩

theorem leftmostFrom_greedy (hay : List α) (hn : needle ≠ []) :
    Greedy needle hay (leftmostFrom needle hay hn 0) := by
  obtain ⟨hin, hapart, hcovers⟩ := leftmostFrom_spec hay hn 0
  exact ⟨fun p hp => (hin p hp).2, hapart, fun q => hcovers q (Nat.zero_le q)⟩

theorem indexOf_map {β : Type*} [DecidableEq β] {f : α → β} (hf : Function.Injective f) :
    indexOf (needle.map f) (hay.map f) = indexOf needle hay := by
  induction hay with
  | nil =>
    cases needle <;> simp [indexOf]
  | cons a hay ih =>
    have hiff : needle.map f <+: (a :: hay).map f ↔ needle <+: a :: hay :=
      List.prefix_map_iff_of_injective hf
    by_cases h : needle <+: a :: hay
    · rw [indexOf_front h, indexOf_front (hiff.2 h)]
    · rw [indexOf_cons h, List.map_cons, indexOf_cons (mt hiff.1 h), ih]

/-- The search does not mind a renaming of the letters. -/
theorem leftmostFrom_map {β : Type*} [DecidableEq β] {f : α → β} (hf : Function.Injective f)
    (hn : needle ≠ []) (hmap : needle.map f ≠ []) (start : ℕ) :
    leftmostFrom (needle.map f) (hay.map f) hmap start = leftmostFrom needle hay hn start := by
  induction start using leftmostFrom.induct needle hay hn with
  | case1 start h =>
    rw [leftmostFrom_none h, leftmostFrom_none]
    rw [← List.map_drop, indexOf_map hf, h]
  | case2 start i h ih =>
    rw [leftmostFrom_some h, leftmostFrom_some (i := i), List.length_map, ih]
    rw [← List.map_drop, indexOf_map hf, h]

end Search

/-- Symbols written as units, read back from the front. The `Whole` symbols are read wherever they
are written, and the unit one begins with stands nowhere within a symbol. -/
structure SyncCode (σ β : Type*) where
  units : σ → List β
  split : List β → List σ
  Whole : σ → Prop
  flatMap_split : ∀ us, (split us).flatMap units = us
  split_cons : ∀ {us s ss}, split us = s :: ss → units s ≠ [] ∧ ∃ rest, ss = split rest
  split_whole : ∀ {s}, Whole s → ∀ rest, split (units s ++ rest) = s :: split rest
  aligned : ∀ {s us t ts}, Whole s → split us = t :: ts → ∀ u ∈ (units s).head?, u ∉ (units t).tail

namespace SyncCode

variable {σ β : Type*} (c : SyncCode σ β) {needle ss : List σ} {k : ℕ}

def flat (ss : List σ) : List β :=
  ss.flatMap c.units

@[simp] theorem flat_nil : c.flat [] = [] := rfl

@[simp] theorem flat_cons (s : σ) (ss : List σ) : c.flat (s :: ss) = c.units s ++ c.flat ss := by
  simp [flat]

@[simp] theorem flat_append (ss ts : List σ) : c.flat (ss ++ ts) = c.flat ss ++ c.flat ts := by
  simp [flat]

@[simp] theorem flat_split (us : List β) : c.flat (c.split us) = us :=
  c.flatMap_split us

/-- Where a symbol of the text begins among its units. -/
def offset (ss : List σ) (k : ℕ) : ℕ :=
  (c.flat (ss.take k)).length

@[simp] theorem offset_zero (ss : List σ) : c.offset ss 0 = 0 := by
  simp [offset]

theorem offset_succ (s : σ) (ss : List σ) (k : ℕ) :
    c.offset (s :: ss) (k + 1) = (c.units s).length + c.offset ss k := by
  simp [offset]

theorem drop_offset (ss : List σ) (k : ℕ) :
    (c.flat ss).drop (c.offset ss k) = c.flat (ss.drop k) := by
  have hparts : c.flat ss = c.flat (ss.take k) ++ c.flat (ss.drop k) := by
    rw [← flat_append, List.take_append_drop]
  rw [hparts, offset, List.drop_left]

theorem offset_add (ss : List σ) (k i : ℕ) :
    c.offset ss (k + i) = c.offset ss k + c.offset (ss.drop k) i := by
  rw [offset, List.take_add, flat_append, List.length_append]
  rfl

theorem offset_front (h : needle <+: ss) : c.offset ss needle.length = (c.flat needle).length := by
  rw [offset, ← List.prefix_iff_eq_take.1 h]

theorem units_ne_nil {s : σ} (h : c.Whole s) : c.units s ≠ [] :=
  (c.split_cons (c.split_whole h [])).1

theorem flat_ne_nil (h : needle ≠ []) (hwhole : ∀ s ∈ needle, c.Whole s) : c.flat needle ≠ [] := by
  cases needle with
  | nil => exact absurd rfl h
  | cons s ss => simp [c.units_ne_nil (hwhole s List.mem_cons_self)]

/-- The symbols of a text behind a symbol are those its units there are read as. -/
theorem split_drop (h : c.split (c.flat ss) = ss) (k : ℕ) :
    c.split (c.flat (ss.drop k)) = ss.drop k := by
  induction k generalizing ss with
  | zero => simpa using h
  | succ k ih =>
    cases ss with
    | nil => simpa using h
    | cons s ss =>
      obtain ⟨_, rest, hrest⟩ := c.split_cons h
      have hself : c.split (c.flat ss) = ss := by
        rw [hrest, flat_split]
      exact ih hself

theorem split_flat_append (h : ∀ s ∈ needle, c.Whole s) (rest : List β) :
    c.split (c.flat needle ++ rest) = needle ++ c.split rest := by
  induction needle with
  | nil => rfl
  | cons s ss ih =>
    rw [flat_cons, List.append_assoc, c.split_whole (h s List.mem_cons_self)]
    rw [ih (fun t ht => h t (List.mem_cons_of_mem _ ht)), List.cons_append]

/-- Whole symbols stand at the front of the units exactly where they stand at the front of the
symbols. -/
theorem flat_prefix_iff (hwhole : ∀ s ∈ needle, c.Whole s) (h : c.split (c.flat ss) = ss) :
    c.flat needle <+: c.flat ss ↔ needle <+: ss := by
  constructor
  · rintro ⟨rest, hrest⟩
    have hread := c.split_flat_append hwhole rest
    rw [hrest, h] at hread
    exact ⟨c.split rest, hread.symm⟩
  · rintro ⟨rest, rfl⟩
    exact ⟨c.flat rest, by simp⟩

/-- No match begins within a symbol. -/
theorem not_within (hn : needle ≠ []) (hwhole : ∀ s ∈ needle, c.Whole s) {s : σ}
    {us rest : List β} (hread : c.split us = s :: ss) {j : ℕ} (hpos : 0 < j)
    (hj : j < (c.units s).length) :
    ¬ c.flat needle <+: (c.units s ++ rest).drop j := by
  intro hmatch
  cases needle with
  | nil => exact hn rfl
  | cons t ts =>
    obtain ⟨u, us, hu⟩ := List.exists_cons_of_ne_nil
      (c.units_ne_nil (hwhole t List.mem_cons_self))
    have haligned := c.aligned (hwhole t List.mem_cons_self) hread u (by simp [hu])
    rw [flat_cons, hu, List.drop_append_of_le_length hj.le] at hmatch
    rw [List.drop_eq_getElem_cons hj] at hmatch
    have hsame : u = (c.units s)[j] := by
      simp only [List.cons_append, List.cons_prefix_cons] at hmatch
      exact hmatch.1
    apply haligned
    rw [hsame, List.mem_iff_getElem]
    refine ⟨j - 1, by simp; omega, ?_⟩
    rw [List.getElem_tail]
    congr 1
    omega

variable [DecidableEq σ] [DecidableEq β]

theorem indexOf_flat (hn : needle ≠ []) (hwhole : ∀ s ∈ needle, c.Whole s)
    (h : c.split (c.flat ss) = ss) :
    indexOf (c.flat needle) (c.flat ss) = (indexOf needle ss).map (c.offset ss) := by
  induction ss with
  | nil => rw [flat_nil, indexOf_nil (c.flat_ne_nil hn hwhole), indexOf_nil hn, Option.map_none]
  | cons s ss ih =>
    by_cases hmatch : needle <+: s :: ss
    · rw [indexOf_front hmatch, indexOf_front ((c.flat_prefix_iff hwhole h).2 hmatch)]
      simp
    · have hskip : ∀ j < (c.units s).length, ¬ c.flat needle <+: (c.flat (s :: ss)).drop j := by
        intro j hj
        rcases Nat.eq_zero_or_pos j with rfl | hpos
        · rw [List.drop_zero, c.flat_prefix_iff hwhole h]
          exact hmatch
        · rw [flat_cons]
          exact c.not_within hn hwhole h hpos hj
      rw [indexOf_skip hskip (by simp), indexOf_cons hmatch, flat_cons, List.drop_left]
      rw [ih (c.split_drop h 1), Option.map_map, Option.map_map]
      congr 1
      funext k
      simp only [Function.comp_apply, offset_succ]
      omega

/-- The search over the units finds the symbols that the search over the symbols finds. -/
theorem leftmostFrom_flat (hn : needle ≠ []) (hflat : c.flat needle ≠ [])
    (hwhole : ∀ s ∈ needle, c.Whole s) (h : c.split (c.flat ss) = ss) (k : ℕ) :
    leftmostFrom (c.flat needle) (c.flat ss) hflat (c.offset ss k)
      = (leftmostFrom needle ss hn k).map (c.offset ss) := by
  induction k using leftmostFrom.induct needle ss hn with
  | case1 k hnone =>
    rw [leftmostFrom_none hnone, leftmostFrom_none, List.map_nil]
    rw [drop_offset, c.indexOf_flat hn hwhole (c.split_drop h k), hnone, Option.map_none]
  | case2 k i hsome ih =>
    have hunits : indexOf (c.flat needle) ((c.flat ss).drop (c.offset ss k))
        = some (c.offset (ss.drop k) i) := by
      rw [drop_offset, c.indexOf_flat hn hwhole (c.split_drop h k), hsome, Option.map_some]
    have hmatch : needle <+: ss.drop (k + i) := by
      rw [← List.drop_drop]
      exact (indexOf_some hsome).1
    have hbehind : c.offset ss (k + i) + (c.flat needle).length
        = c.offset ss (k + i + needle.length) := by
      rw [c.offset_add ss (k + i), c.offset_front hmatch]
    rw [leftmostFrom_some hsome, leftmostFrom_some hunits, List.map_cons, ← offset_add, hbehind, ih]

end SyncCode

end Marotte
