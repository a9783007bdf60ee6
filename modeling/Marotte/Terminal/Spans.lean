import Marotte.Terminal.Styled
import Mathlib.Data.Nat.Basic

/-! # What spans state

The style spans give each UTF-16 unit of a text, and the spans that show characters of given styles.
-/
namespace Marotte.Terminal

open Runes

variable {lo mid hi offset k : ℕ} {spans spans' : List Span} {out out' : List (Char × Style)}
  {st : Style}

/-- The style spans give a unit: that of the span it lies in. -/
def styleAt (spans : List Span) (k : ℕ) : Style :=
  ((spans.find? fun s => s.start ≤ k ∧ k < s.stop).map Span.style).getD .default

/-- Spans of a range in ascending order, each behind the one before it, none empty and none of the
default style. -/
def Within (lo hi : ℕ) : List Span → Prop
  | [] => lo ≤ hi
  | s :: spans => lo ≤ s.start ∧ s.start < s.stop ∧ s.style ≠ .default ∧ Within s.stop hi spans

theorem Within.le (h : Within lo hi spans) : lo ≤ hi := by
  induction spans generalizing lo with
  | nil => exact h
  | cons s spans ih =>
    have := ih h.2.2.2
    have := h.1
    have := h.2.1
    omega

theorem Within.append (h : Within lo mid spans) (h' : Within mid hi spans') :
    Within lo hi (spans ++ spans') := by
  induction spans generalizing lo with
  | nil =>
    rw [List.nil_append]
    have hle : lo ≤ mid := h
    cases spans' with
    | nil => exact hle.trans h'
    | cons s spans' => exact ⟨hle.trans h'.1, h'.2⟩
  | cons s spans ih => exact ⟨h.1, h.2.1, h.2.2.1, ih h.2.2.2⟩

theorem styleAt_cons (s : Span) (spans : List Span) (k : ℕ) :
    styleAt (s :: spans) k
      = if s.start ≤ k ∧ k < s.stop then s.style else styleAt spans k := by
  by_cases h : s.start ≤ k ∧ k < s.stop
  · rw [styleAt, List.find?_cons_of_pos (by simpa using h), if_pos h]
    rfl
  · rw [styleAt, List.find?_cons_of_neg (by simpa using h), if_neg h]
    rfl

/-- Spans of a range give the units outside of it the default style. -/
theorem styleAt_outside (h : Within lo hi spans) (hk : k < lo ∨ hi ≤ k) :
    styleAt spans k = .default := by
  induction spans generalizing lo with
  | nil => rfl
  | cons s spans ih =>
    have hle := Within.le h.2.2.2
    have := h.1
    have := h.2.1
    rw [styleAt_cons, if_neg (by omega)]
    exact ih h.2.2.2 (by omega)

theorem Within.le_start (h : Within lo hi spans) {span : Span} (hspan : span ∈ spans) :
    lo ≤ span.start := by
  induction spans generalizing lo with
  | nil => exact absurd hspan List.not_mem_nil
  | cons s spans ih =>
    rcases List.mem_cons.1 hspan with rfl | hspan
    · exact h.1
    · have := ih h.2.2.2 hspan
      have := h.1
      have := h.2.1
      omega

/-- A span states its style at its first unit. -/
theorem styleAt_start (h : Within lo hi spans) {span : Span} (hspan : span ∈ spans) :
    styleAt spans span.start = span.style ∧ span.style ≠ .default := by
  induction spans generalizing lo with
  | nil => exact absurd hspan List.not_mem_nil
  | cons s spans ih =>
    rcases List.mem_cons.1 hspan with rfl | hspan
    · rw [styleAt_cons, if_pos ⟨Nat.le_refl _, h.2.1⟩]
      exact ⟨rfl, h.2.2.1⟩
    · have hle := Within.le_start h.2.2.2 hspan
      rw [styleAt_cons, if_neg (by omega)]
      exact ih h.2.2.2 hspan

theorem styleAt_append (h : Within lo mid spans) (h' : Within mid hi spans') (k : ℕ) :
    styleAt (spans ++ spans') k = if k < mid then styleAt spans k else styleAt spans' k := by
  induction spans generalizing lo with
  | nil =>
    rw [List.nil_append]
    split
    · rw [styleAt_outside h' (by omega)]
      rfl
    · rfl
  | cons s spans ih =>
    rw [List.cons_append, styleAt_cons, ih h.2.2.2, styleAt_cons]
    have hle := Within.le h.2.2.2
    split <;> split <;> first | rfl | omega

/-! ## Styles of units -/

/-- The styles of the UTF-16 units of characters. -/
def unitStyles (out : List (Char × Style)) : List Style :=
  out.flatMap fun p => List.replicate (units p.1) p.2

def width (out : List (Char × Style)) : ℕ :=
  (unitStyles out).length

@[simp] theorem width_nil : width [] = 0 :=
  rfl

theorem unitStyles_append (out out' : List (Char × Style)) :
    unitStyles (out ++ out') = unitStyles out ++ unitStyles out' := by
  rw [unitStyles, List.flatMap_append, unitStyles, unitStyles]

@[simp] theorem width_append (out out' : List (Char × Style)) :
    width (out ++ out') = width out + width out' := by
  rw [width, unitStyles_append, List.length_append, width, width]

/-- Spans show characters from an offset on: within their units, each of its style. -/
structure Shows (offset : ℕ) (out : List (Char × Style)) (spans : List Span) : Prop where
  within : Within offset (offset + width out) spans
  style : ∀ k, styleAt spans (offset + k) = ((unitStyles out)[k]?).getD .default

theorem shows_nil (offset : ℕ) : Shows offset [] [] where
  within := Nat.le_refl offset
  style := fun _ => rfl

theorem Shows.append (h : Shows offset out spans) (h' : Shows (offset + width out) out' spans') :
    Shows offset (out ++ out') (spans ++ spans') where
  within := by
    rw [width_append, ← Nat.add_assoc]
    exact h.within.append h'.within
  style := fun k => by
    rw [styleAt_append h.within h'.within, unitStyles_append]
    split
    · next hk =>
      have hlt : k < (unitStyles out).length := by
        rw [width] at hk
        omega
      rw [h.style, List.getElem?_append_left hlt]
    · next hk =>
      have hle : (unitStyles out).length ≤ k := by
        rw [width] at hk
        omega
      have hsub : offset + k = offset + width out + (k - (unitStyles out).length) := by
        rw [width]
        omega
      rw [hsub, h'.style, List.getElem?_append_right hle]

/-- Characters of one style are shown by one span, or by none where there is nothing to show. -/
theorem shows_run (offset : ℕ) (hst : ∀ p ∈ out, p.2 = st) :
    Shows offset out
      (if offset < offset + width out ∧ st ≠ .default then [⟨offset, offset + width out, st⟩]
        else []) := by
  have hunits : unitStyles out = List.replicate (width out) st := by
    rw [List.eq_replicate_iff]
    refine ⟨rfl, fun s hs => ?_⟩
    obtain ⟨p, hp, hmem⟩ := List.mem_flatMap.1 hs
    rw [List.eq_of_mem_replicate hmem, hst p hp]
  constructor
  · split
    · next h => exact ⟨Nat.le_refl _, h.1, h.2, Nat.le_refl _⟩
    · exact Nat.le_add_right _ _
  · intro k
    rw [hunits, List.getElem?_replicate]
    split
    · next h =>
      rw [styleAt_cons]
      simp only
      by_cases hk : k < width out
      · rw [if_pos (by omega), if_pos hk, Option.getD_some]
      · rw [if_neg (by omega), if_neg hk]
        rfl
    · next h =>
      split
      · next hk =>
        have hdefault : st = .default := Classical.byContradiction fun hne => h ⟨by omega, hne⟩
        rw [hdefault]
        rfl
      · rfl

end Marotte.Terminal
