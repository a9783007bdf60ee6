import Marotte.Library.Along
import Marotte.Schedule.Next
import Marotte.Schedule.Runner

/-! # What a sweep does to one schedule

A sweep handles each stored schedule once and on its own, so that its effect on one schedule is a
function of that schedule and of the clock.
-/
namespace Marotte.Schedule

/-- The anchor that a sweep leaves one schedule with, and the launch it asked for. -/
def swept (loc : Location) (launch : Launcher) (now : ℤ) (e : Entry) : Entry × Option Fire :=
  if e.enabled = false then (e, none)
  else
    match nextRunFrom loc e.spec e.anchor zeroTime with
    | .error _ => (e, none)
    | .ok due =>
      if now < due then (e, none)
      else if missGrace < now - due then ({ e with anchor := now }, none)
      else
        let bound := State.slotAt loc e.spec due
        let result := match launch e.source e.id bound with
          | none => "started"
          | some err => "failed: " ++ err
        ({ e with anchor := due, lastRunAt := due, lastResult := result },
          some { id := e.id, source := e.source, due, firedAt := now, slotAt := bound })

/-- Which of its three cases a sweep of one schedule meets. -/
theorem swept_cases (loc : Location) (launch : Launcher) (now : ℤ) (e : Entry) :
    (swept loc launch now e = (e, none) ∧
      (e.enabled = true → ∀ due, nextRunFrom loc e.spec e.anchor zeroTime = .ok due → now < due)) ∨
    (swept loc launch now e = ({ e with anchor := now }, none) ∧ e.enabled = true ∧
      ∃ due, nextRunFrom loc e.spec e.anchor zeroTime = .ok due ∧ due + missGrace < now) ∨
    (∃ due result, nextRunFrom loc e.spec e.anchor zeroTime = .ok due ∧ e.enabled = true ∧
      due ≤ now ∧ now ≤ due + missGrace ∧
      swept loc launch now e =
        ({ e with anchor := due, lastRunAt := due, lastResult := result },
          some { id := e.id, source := e.source, due, firedAt := now,
                 slotAt := State.slotAt loc e.spec due })) := by
  rw [swept]
  split
  · next hoff =>
    left
    refine ⟨rfl, fun hon => ?_⟩
    rw [hoff] at hon
    cases hon
  · next hon =>
    rw [Bool.not_eq_false] at hon
    split
    · next herror =>
      left
      refine ⟨rfl, fun _ due hdue => ?_⟩
      rw [herror] at hdue
      cases hdue
    · next due hdue =>
      split
      · next hearly =>
        left
        refine ⟨rfl, fun _ due' hdue' => ?_⟩
        rw [hdue] at hdue'
        cases hdue'
        exact hearly
      · split
        · next hlate => exact .inr (.inl ⟨rfl, hon, due, hdue, by omega⟩)
        · next hlate => exact .inr (.inr ⟨due, _, hdue, hon, by omega, by omega, rfl⟩)

theorem swept_spec {loc : Location} {launch : Launcher} (e : Entry) (now : ℤ) :
    (swept loc launch now e).1.spec = e.spec ∧ (swept loc launch now e).1.enabled = e.enabled := by
  rcases swept_cases loc launch now e with ⟨heq, -⟩ | ⟨heq, -⟩ | ⟨due, result, -, -, -, -, heq⟩
  · rw [heq]
    exact ⟨rfl, rfl⟩
  · rw [heq]
    exact ⟨rfl, rfl⟩
  · rw [heq]
    exact ⟨rfl, rfl⟩

theorem swept_fire_id {loc : Location} {launch : Launcher} {now : ℤ} {e : Entry} {f : Fire}
    (h : (swept loc launch now e).2 = some f) : f.id = e.id := by
  rcases swept_cases loc launch now e with ⟨heq, -⟩ | ⟨heq, -⟩ | ⟨due, result, -, -, -, -, heq⟩
  · rw [heq] at h
    cases h
  · rw [heq] at h
    cases h
  · rw [heq] at h
    cases h
    rfl

namespace State

variable {s : State} {loc : Location} {launch : Launcher}

/-- Ids are the keys of the store. -/
def Keyed (s : State) : Prop := (s.entries.map Entry.id).Nodup

theorem find_id {id : String} {e : Entry} (h : s.find id = some e) : e.id = id :=
  Keyed.key_of_find h

/-! ## Rewriting one entry -/

theorem rewrite_find {id : String} {f : Entry → Entry} (hf : ∀ e, (f e).id = e.id) (k : String) :
    (s.rewrite id f).find k = if k = id then (s.find id).map f else s.find k := by
  cases he : s.find id with
  | none =>
    have hsame : s.rewrite id f = s := by rw [rewrite, he]
    rw [hsame]
    by_cases hk : k = id
    · rw [if_pos hk, hk, he, Option.map_none]
    · rw [if_neg hk]
  | some e =>
    have hid : (f e).id = id := (hf e).trans (find_id he)
    have hset : s.rewrite id f = { s with entries := Keyed.set Entry.id s.entries (f e) } := by
      rw [rewrite, he]
    rw [hset]
    by_cases hk : k = id
    · rw [if_pos hk, hk, ← hid]
      exact Keyed.find_set_key
    · rw [if_neg hk]
      apply Keyed.find_set_of_ne
      rw [hid]
      exact hk

theorem skipTo_find (id : String) (now : ℤ) (k : String) :
    (s.skipTo id now).find k =
      if k = id then (s.find id).map (fun e => { e with anchor := now }) else s.find k := by
  rw [skipTo]
  apply rewrite_find
  exact fun _ => rfl

theorem recordFire_find (id : String) (due : ℤ) (result k : String) :
    (s.recordFire id due result).find k =
      if k = id then
        (s.find id).map fun e => { e with anchor := due, lastRunAt := due, lastResult := result }
      else s.find k := by
  rw [recordFire]
  apply rewrite_find
  exact fun _ => rfl

theorem rewrite_keyed (h : s.Keyed) (id : String) (f : Entry → Entry) : (s.rewrite id f).Keyed := by
  rw [rewrite]
  split
  · exact Keyed.nodup_set h
  · exact h

@[simp] theorem rewrite_fires (id : String) (f : Entry → Entry) :
    (s.rewrite id f).fires = s.fires := by
  rw [rewrite]
  split <;> rfl

@[simp] theorem rewrite_clock (id : String) (f : Entry → Entry) :
    (s.rewrite id f).clock = s.clock := by
  rw [rewrite]
  split <;> rfl

/-! ## One entry of a sweep -/

/-- A stored entry becomes what `swept` makes of it, and its launch is appended. -/
theorem sweepEntry_spec {e : Entry} (h : s.find e.id = some e) :
    (∀ k, (s.sweepEntry loc launch e).find k =
      if k = e.id then some (swept loc launch s.clock e).1 else s.find k) ∧
    (s.sweepEntry loc launch e).fires = s.fires ++ (swept loc launch s.clock e).2.toList ∧
    (s.sweepEntry loc launch e).clock = s.clock ∧
    (s.Keyed → (s.sweepEntry loc launch e).Keyed) := by
  have hsame : ∀ k, s.find k = if k = e.id then some e else s.find k := by
    intro k
    split
    · next hk => rw [hk, h]
    · rfl
  by_cases hoff : e.enabled = false
  · simp only [sweepEntry, swept, if_pos hoff]
    exact ⟨hsame, (List.append_nil _).symm, trivial, id⟩
  · cases hnext : nextRunFrom loc e.spec e.anchor zeroTime with
    | error err =>
      simp only [sweepEntry, swept, if_neg hoff, hnext]
      exact ⟨hsame, (List.append_nil _).symm, trivial, id⟩
    | ok due =>
      by_cases hearly : s.clock < due
      · simp only [sweepEntry, swept, if_neg hoff, hnext, if_pos hearly]
        exact ⟨hsame, (List.append_nil _).symm, trivial, id⟩
      · by_cases hlate : missGrace < s.clock - due
        · simp only [sweepEntry, swept, if_neg hoff, hnext, if_neg hearly, if_pos hlate]
          refine ⟨fun k => ?_, ?_, rewrite_clock .., fun hk => rewrite_keyed hk ..⟩
          · rw [skipTo_find, h]
            rfl
          · rw [skipTo, rewrite_fires]
            exact (List.append_nil _).symm
        · simp only [sweepEntry, swept, if_neg hoff, hnext, if_neg hearly, if_neg hlate]
          refine ⟨fun k => ?_, ?_, rewrite_clock .., fun hk => ?_⟩
          · rw [fire, recordFire_find]
            simp only [find] at h ⊢
            rw [h]
            rfl
          · rw [fire, recordFire, rewrite_fires]
            rfl
          · rw [fire, recordFire]
            apply rewrite_keyed
            exact hk

/-! ## The whole sweep -/

theorem sweepList_spec {l : List Entry} :
    ∀ {s : State}, (l.map Entry.id).Nodup → (∀ e ∈ l, s.find e.id = some e) →
      (∀ k, (l.foldl (fun s e => s.sweepEntry loc launch e) s).find k =
        match Keyed.find Entry.id l k with
        | some e => some (swept loc launch s.clock e).1
        | none => s.find k) ∧
      (l.foldl (fun s e => s.sweepEntry loc launch e) s).fires =
        s.fires ++ l.filterMap (fun e => (swept loc launch s.clock e).2) ∧
      (l.foldl (fun s e => s.sweepEntry loc launch e) s).clock = s.clock ∧
      (s.Keyed → (l.foldl (fun s e => s.sweepEntry loc launch e) s).Keyed) := by
  induction l with
  | nil => exact fun _ _ => ⟨fun _ => rfl, (List.append_nil _).symm, rfl, id⟩
  | cons e l ih =>
    intro s hnodup hstored
    rw [List.map_cons, List.nodup_cons] at hnodup
    obtain ⟨hfind, hfires, hclock, hkeyed⟩ :=
      @sweepEntry_spec s loc launch e (hstored e List.mem_cons_self)
    have hne : ∀ e' ∈ l, e'.id ≠ e.id := by
      intro e' he' heq
      exact hnodup.1 (heq ▸ List.mem_map_of_mem he')
    have hrest : ∀ e' ∈ l, (s.sweepEntry loc launch e).find e'.id = some e' := by
      intro e' he'
      rw [hfind, if_neg (hne e' he')]
      exact hstored e' (List.mem_cons_of_mem e he')
    obtain ⟨hfind', hfires', hclock', hkeyed'⟩ := ih hnodup.2 hrest
    rw [List.foldl_cons]
    refine ⟨fun k => ?_, ?_, hclock'.trans hclock, fun hk => hkeyed' (hkeyed hk)⟩
    · rw [hfind', hclock, hfind, Keyed.find, Keyed.find, List.find?_cons]
      by_cases hk : e.id = k
      · subst hk
        have hnone : l.find? (Entry.id · = e.id) = none := by
          rw [List.find?_eq_none]
          intro e' he'
          rw [decide_eq_true_iff]
          exact hne e' he'
        simp only [hnone, if_pos, decide_true]
      · simp only [hk, decide_false, if_neg (Ne.symm hk)]
    · rw [hfires', hfires, hclock, Keyed.filterMap_cons_toList, List.append_assoc]

theorem list_perm (s : State) : s.list.Perm s.entries := List.perm_insertionSort ..

theorem list_find (h : s.Keyed) (k : String) : Keyed.find Entry.id s.list k = s.find k := by
  have hlist : (s.list.map Entry.id).Nodup := ((list_perm s).map _).nodup_iff.mpr h
  cases hs : s.find k with
  | none =>
    rw [Keyed.find_eq_none]
    intro hmem
    exact Keyed.find_eq_none.mp hs (((list_perm s).map _).mem_iff.mp hmem)
  | some e =>
    have hid := find_id hs
    rw [← hid]
    exact Keyed.find_of_mem hlist ((list_perm s).mem_iff.mpr (Keyed.mem_of_find hs))

/-- A sweep handles each stored schedule once, whatever their order. -/
theorem sweep_spec (h : s.Keyed) :
    (∀ k, (s.sweep loc launch).find k =
      (s.find k).map fun e => (swept loc launch s.clock e).1) ∧
    (s.sweep loc launch).fires =
      s.fires ++ s.list.filterMap (fun e => (swept loc launch s.clock e).2) ∧
    (s.sweep loc launch).clock = s.clock ∧ (s.sweep loc launch).Keyed := by
  have hlist : (s.list.map Entry.id).Nodup := ((list_perm s).map _).nodup_iff.mpr h
  have hstored : ∀ e ∈ s.list, s.find e.id = some e := by
    intro e he
    rw [← list_find h]
    exact Keyed.find_of_mem hlist he
  obtain ⟨hfind, hfires, hclock, hkeyed⟩ := @sweepList_spec loc launch s.list s hlist hstored
  refine ⟨fun k => ?_, hfires, hclock, hkeyed h⟩
  rw [sweep, hfind, list_find h]
  cases hs : s.find k with
  | none => rfl
  | some e => rfl

end State
end Marotte.Schedule
