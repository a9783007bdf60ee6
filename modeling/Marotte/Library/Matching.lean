import Mathlib.Data.List.Basic

/-! # Leftmost matches, found in pieces

A matcher reads one match at the front of a text and is settled by the stretch it matched. The
matches of a text, leftmost first and apart, are those of a front and those of the rest wherever
no match lies across.
-/
namespace Marotte

/-- A reader of one match at the front of a text. -/
structure Matcher (α β : Type*) where
  read : List α → Option β
  width : β → ℕ
  width_pos : ∀ {s b}, read s = some b → 0 < width b
  width_le : ∀ {s b}, read s = some b → width b ≤ s.length
  settled : ∀ {s b}, read s = some b → ∀ t, read (s.take (width b) ++ t) = some b

namespace Matcher

variable {α β : Type*} (m : Matcher α β) {s t : List α} {b : β} {pos skip last : ℕ}

theorem read_append (h : m.read s = some b) (t : List α) : m.read (s ++ t) = some b := by
  have hsettled := m.settled h (s.drop (m.width b) ++ t)
  rwa [← List.append_assoc, List.take_append_drop] at hsettled

theorem read_front (h : m.read (s ++ t) = some b) (hw : m.width b ≤ s.length) :
    m.read s = some b := by
  have hsettled := m.settled h (s.drop (m.width b))
  rwa [List.take_append_of_le_length hw, List.take_append_drop] at hsettled

/-- The matches of a text, each with its position, reading on behind every match. The first `skip`
places are passed over. -/
def findAll (pos skip : ℕ) : List α → List (ℕ × β)
  | [] => []
  | a :: s =>
    match skip with
    | skip + 1 => findAll (pos + 1) skip s
    | 0 =>
      match m.read (a :: s) with
      | some b => (pos, b) :: findAll (pos + 1) (m.width b - 1) s
      | none => findAll (pos + 1) 0 s

@[simp] theorem findAll_nil (pos skip : ℕ) : m.findAll pos skip [] = [] := rfl

@[simp] theorem findAll_skip (pos skip : ℕ) (a : α) (s : List α) :
    m.findAll pos (skip + 1) (a :: s) = m.findAll (pos + 1) skip s := rfl

theorem findAll_found {a : α} (h : m.read (a :: s) = some b) :
    m.findAll pos 0 (a :: s) = (pos, b) :: m.findAll (pos + 1) (m.width b - 1) s := by
  rw [findAll, h]

theorem findAll_none {a : α} (h : m.read (a :: s) = none) :
    m.findAll pos 0 (a :: s) = m.findAll (pos + 1) 0 s := by
  rw [findAll, h]

/-- A match found is one read where it stands. -/
theorem mem_findAll {x : ℕ × β} (hx : x ∈ m.findAll pos skip s) :
    ∃ i, x.1 = pos + i ∧ skip ≤ i ∧ i < s.length ∧ m.read (s.drop i) = some x.2 := by
  induction s generalizing pos skip with
  | nil => cases hx
  | cons a s ih =>
    cases skip with
    | succ skip =>
      obtain ⟨i, hpos, hskip, hlt, hread⟩ := ih hx
      exact ⟨i + 1, by omega, by omega, by simpa using hlt, hread⟩
    | zero =>
      cases hb : m.read (a :: s) with
      | none =>
        rw [m.findAll_none hb] at hx
        obtain ⟨i, hpos, -, hlt, hread⟩ := ih hx
        exact ⟨i + 1, by omega, by omega, by simpa using hlt, hread⟩
      | some b =>
        rw [m.findAll_found hb] at hx
        rcases List.mem_cons.mp hx with rfl | hx
        · exact ⟨0, rfl, Nat.le_refl 0, by simp, hb⟩
        · obtain ⟨i, hpos, -, hlt, hread⟩ := ih hx
          exact ⟨i + 1, by omega, by omega, by simpa using hlt, hread⟩

theorem findAll_le {x : ℕ × β} (hx : x ∈ m.findAll pos skip s) :
    x.1 + m.width x.2 ≤ pos + s.length := by
  obtain ⟨i, hpos, -, hlt, hread⟩ := m.mem_findAll hx
  have hle := m.width_le hread
  rw [List.length_drop] at hle
  omega

/-- Matches lie apart, in the order they are found. -/
theorem findAll_pairwise (pos skip : ℕ) (s : List α) :
    (m.findAll pos skip s).Pairwise (fun x y => x.1 + m.width x.2 ≤ y.1) := by
  induction s generalizing pos skip with
  | nil => exact .nil
  | cons a s ih =>
    cases skip with
    | succ skip => exact ih _ _
    | zero =>
      cases hb : m.read (a :: s) with
      | none =>
        rw [m.findAll_none hb]
        exact ih _ _
      | some b =>
        rw [m.findAll_found hb]
        refine .cons (fun y hy => ?_) (ih _ _)
        obtain ⟨i, hpos, hskip, -, -⟩ := m.mem_findAll hy
        have hwidth := m.width_pos hb
        simp only
        omega

/-- A match moved by `d` places. -/
def moved (d : ℕ) (x : ℕ × β) : ℕ × β := (d + x.1, x.2)

theorem findAll_moved (d pos skip : ℕ) (s : List α) :
    m.findAll (d + pos) skip s = (m.findAll pos skip s).map (moved d) := by
  induction s generalizing pos skip with
  | nil => rfl
  | cons a s ih =>
    cases skip with
    | succ skip =>
      rw [findAll_skip, findAll_skip, ← ih]
      rfl
    | zero =>
      cases hb : m.read (a :: s) with
      | none =>
        rw [m.findAll_none hb, m.findAll_none hb, ← ih]
        rfl
      | some b =>
        rw [m.findAll_found hb, m.findAll_found hb, List.map_cons, ← ih]
        rfl

/-- The matches of a text read on at a place no match lies across: those of the front that end by
that place, then those behind it. -/
theorem findAll_append {h : ℕ} (hh : h ≤ s.length) (hskip : skip ≤ h)
    (hfront : ∀ x ∈ m.findAll pos skip s, x.1 + m.width x.2 ≤ pos + h)
    (hwhole : ∀ x ∈ m.findAll pos skip (s ++ t), x.1 < pos + h →
      x.1 + m.width x.2 ≤ pos + s.length) :
    m.findAll pos skip (s ++ t) =
      m.findAll pos skip s ++ m.findAll (pos + h) 0 ((s ++ t).drop h) := by
  induction s generalizing pos skip h with
  | nil =>
    obtain rfl : h = 0 := by simpa using hh
    obtain rfl : skip = 0 := by omega
    rfl
  | cons a s ih =>
    rw [List.length_cons] at hh
    cases h with
    | zero =>
      obtain rfl : skip = 0 := by omega
      have hnone : m.findAll pos 0 (a :: s) = [] := by
        rw [List.eq_nil_iff_forall_not_mem]
        intro x hx
        obtain ⟨i, hpos, -, -, hread⟩ := m.mem_findAll hx
        have hwidth := m.width_pos hread
        have hend := hfront x hx
        omega
      rw [hnone]
      rfl
    | succ h =>
      have hdrop : (a :: s ++ t).drop (h + 1) = (s ++ t).drop h := rfl
      rw [hdrop, show pos + (h + 1) = pos + 1 + h by omega]
      cases skip with
      | succ skip =>
        apply ih (by omega) (by omega)
        · intro x hx
          have hend := hfront x hx
          omega
        · intro x hx hlt
          have hend := hwhole x hx (by omega)
          rw [List.length_cons] at hend
          omega
      | zero =>
        rw [List.cons_append] at hwhole ⊢
        cases hb : m.read (a :: s) with
        | some b =>
          have hb' : m.read (a :: (s ++ t)) = some b := m.read_append hb t
          rw [m.findAll_found hb] at hfront ⊢
          rw [m.findAll_found hb'] at hwhole ⊢
          have hwidth := hfront (pos, b) List.mem_cons_self
          simp only at hwidth
          rw [List.cons_append]
          congr 1
          apply ih (by omega) (by omega)
          · intro x hx
            have hend := hfront x (List.mem_cons_of_mem _ hx)
            omega
          · intro x hx hlt
            have hend := hwhole x (List.mem_cons_of_mem _ hx) (by omega)
            rw [List.length_cons] at hend
            omega
        | none =>
          rw [m.findAll_none hb] at hfront ⊢
          cases hb' : m.read (a :: (s ++ t)) with
          | some b =>
            -- A match of the whole text that the front is long enough for is one of the front.
            rw [m.findAll_found hb'] at hwhole
            have hend := hwhole (pos, b) List.mem_cons_self (by simp)
            have hread := m.read_front (s := a :: s) hb' (by simpa using hend)
            rw [hb] at hread
            cases hread
          | none =>
            rw [m.findAll_none hb'] at hwhole ⊢
            apply ih (by omega) (by omega)
            · intro x hx
              have hend := hfront x hx
              omega
            · intro x hx hlt
              have hend := hwhole x hx (by omega)
              rw [List.length_cons] at hend
              omega

/-! ## What lies outside the matches -/

/-- The text from `last` on, without the matches given. -/
def outside (last : ℕ) (s : List α) : List (ℕ × β) → List α
  | [] => s.drop last
  | (p, b) :: found => (s.drop last).take (p - last) ++ outside (p + m.width b) s found

theorem outside_moved (s t : List α) (last : ℕ) (found : List (ℕ × β)) :
    m.outside (s.length + last) (s ++ t) (found.map (moved s.length)) = m.outside last t found := by
  induction found generalizing last with
  | nil => simp [outside, List.drop_append]
  | cons x found ih =>
    have hnext := ih (x.1 + m.width x.2)
    rw [← Nat.add_assoc] at hnext
    simp only [List.map_cons, moved, outside]
    rw [hnext, List.drop_length_add_append, Nat.add_sub_add_left]

/-- The matches of a front and of the rest, taken out of the whole. -/
theorem outside_append (found found' : List (ℕ × β)) (hlast : last ≤ s.length)
    (hfound : ∀ x ∈ found, x.1 + m.width x.2 ≤ s.length) :
    m.outside last (s ++ t) (found ++ found'.map (moved s.length)) =
      m.outside last s found ++ m.outside 0 t found' := by
  induction found generalizing last with
  | nil =>
    cases found' with
    | nil => simp [outside, List.drop_append_of_le_length hlast]
    | cons x found' =>
      have hnext := m.outside_moved s t (x.1 + m.width x.2) found'
      rw [← Nat.add_assoc] at hnext
      simp only [List.nil_append, List.map_cons, moved, outside, List.drop_zero, Nat.sub_zero]
      rw [hnext, List.drop_append_of_le_length hlast, ← List.append_assoc,
        show s.length + x.1 - last = (s.drop last).length + x.1 by rw [List.length_drop]; omega,
        List.take_length_add_append]
  | cons x found ih =>
    have hend := hfound x List.mem_cons_self
    have hrest := ih hend fun y hy => hfound y (List.mem_cons_of_mem _ hy)
    simp only [List.cons_append, outside]
    rw [hrest, List.drop_append_of_le_length hlast, List.append_assoc,
      List.take_append_of_le_length (by rw [List.length_drop]; omega)]

end Matcher

end Marotte
