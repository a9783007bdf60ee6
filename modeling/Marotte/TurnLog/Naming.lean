import Marotte.TurnLog.Conserved
import Mathlib.Data.List.Nodup
import Mathlib.Data.List.Pairwise

/-! # How entries come by their ids

A streamed entry is named by its say the first time a lane turns to it, by a segment of the say
after that, and by a minted id without one. Other entries state the id of what they record, or take
a minted one.
-/
namespace Marotte

theorem stripSegment_digits {ds : List Char} (hds : ∀ d ∈ ds, d.isDigit = true) (c : Char)
    (cs : List Char) (digits : Bool) (hsome : ds ≠ [] ∨ digits = true) :
    stripSegment (ds ++ c :: cs) digits = stripSegment (c :: cs) true := by
  induction ds generalizing digits with
  | nil =>
    obtain rfl : digits = true := hsome.resolve_left fun h => h rfl
    rfl
  | cons d ds ih =>
    have hdigit := hds d List.mem_cons_self
    have hne : d ≠ '#' := by
      rintro rfl
      revert hdigit
      decide
    rw [List.cons_append, stripSegment, if_neg hne, if_pos hdigit]
    exact ih (fun e he => hds e (List.mem_cons_of_mem _ he)) true (.inr rfl)

theorem toList_toString_isDigit (n : ℕ) : ∀ d ∈ (toString n).toList, d.isDigit = true := by
  intro d hd
  rw [Nat.toString_eq_ofList_toDigits, String.toList_ofList] at hd
  exact Nat.isDigit_of_mem_toDigits (by decide) (by decide) hd

theorem toList_toString_ne_nil (n : ℕ) : (toString n).toList ≠ [] := by
  rw [Nat.toString_eq_ofList_toDigits, String.toList_ofList]
  exact Nat.toDigits_ne_nil

theorem toString_injective : Function.Injective (toString : ℕ → String) := by
  intro m n h
  rw [Nat.toString_eq_ofList_toDigits, Nat.toString_eq_ofList_toDigits] at h
  have hdigits := congrArg (fun s => Nat.ofDigitChars 10 s.toList 0) h
  simpa [Nat.ofDigitChars_ten_toDigits] using hdigits

/-- A segment belongs to the say it is a segment of. -/
@[simp] theorem sayIDOf_saySegmentID (say : String) (k : ℕ) :
    sayIDOf (saySegmentID say k) = say := by
  have hstrip : stripSegment (saySegmentID say k).toList.reverse false =
      some say.toList.reverse := by
    have hform : (saySegmentID say k).toList.reverse =
        (toString k).toList.reverse ++ '#' :: say.toList.reverse := by
      simp [saySegmentID]
    rw [hform, stripSegment_digits _ _ _ _ (.inl (by simp [toList_toString_ne_nil]))]
    · rfl
    · intro d hd
      exact toList_toString_isDigit k d (List.mem_reverse.mp hd)
  rw [sayIDOf, hstrip]
  simp

theorem saySegmentID_inj {say say' : String} {k k' : ℕ} :
    saySegmentID say k = saySegmentID say' k' ↔ say = say' ∧ k = k' := by
  constructor
  · intro h
    have hsay : say = say' := by
      have hof := congrArg sayIDOf h
      rwa [sayIDOf_saySegmentID, sayIDOf_saySegmentID] at hof
    subst hsay
    rw [saySegmentID, saySegmentID, String.append_right_inj] at h
    exact ⟨rfl, toString_injective h⟩
  · rintro ⟨rfl, rfl⟩
    rfl

namespace TurnLog

theorem mintedID_inj {turn : String} {m n : ℕ} : mintedID turn m = mintedID turn n ↔ m = n := by
  constructor
  · intro h
    rw [mintedID, mintedID, String.append_right_inj] at h
    exact toString_injective h
  · rintro rfl
    rfl

/-- A minted id is no segment of a say. -/
theorem saySegmentID_ne_mintedID (say turn : String) (k n : ℕ) :
    saySegmentID say k ≠ mintedID turn n := by
  have hminted : stripSegment (mintedID turn n).toList.reverse false = none := by
    have hform : (mintedID turn n).toList.reverse =
        (toString n).toList.reverse ++ 'e' :: ':' :: turn.toList.reverse := by
      simp [mintedID]
    rw [hform, stripSegment_digits _ _ _ _ (.inl (by simp [toList_toString_ne_nil]))]
    · rfl
    · intro d hd
      exact toList_toString_isDigit n d (List.mem_reverse.mp hd)
  intro h
  have hof : sayIDOf (mintedID turn n) = mintedID turn n := by
    rw [sayIDOf, hminted]
  rw [← h, sayIDOf_saySegmentID] at hof
  have hlength := congrArg (fun s => s.toList.length) hof
  simp [saySegmentID] at hlength

/-- How an entry came by its id: by the first turn of a lane to a say, by what it records, by a
later segment of the lane's say, or by the mint. -/
inductive Naming where
  | said (say : String)
  | stated (id : String)
  | segment (say : String) (k : ℕ)
  | minted (n : ℕ)
  deriving DecidableEq, Repr

namespace Naming

def id (turn : String) : Naming → String
  | said say => say
  | stated id => id
  | segment say k => saySegmentID say k
  | minted n => mintedID turn n

/-- The id, where the agent chose it. -/
def byAgent : Naming → Option String
  | said say => some say
  | stated id => some id
  | _ => none

/-- The id, where the turn made it. -/
def byTurn (turn : String) : Naming → Option String
  | segment say k => some (saySegmentID say k)
  | minted n => some (mintedID turn n)
  | _ => none

theorem id_of_byAgent (turn : String) {x : String} {n : Naming} (h : n.byAgent = some x) : n.id turn = x := by
  cases n with
  | said say => exact Option.some.inj h
  | stated id => exact Option.some.inj h
  | segment say k => cases h
  | minted n => cases h

theorem id_of_byTurn {turn x : String} {n : Naming} (h : n.byTurn turn = some x) :
    n.id turn = x := by
  cases n with
  | said say => cases h
  | stated id => cases h
  | segment say k => exact Option.some.inj h
  | minted n => exact Option.some.inj h

end Naming

/-- The ids the agent chose are distinct, and none is one the turn made. -/
structure Distinct (turn : String) (names : List Naming) : Prop where
  nodup : (names.filterMap Naming.byAgent).Nodup
  apart : ∀ x ∈ names.filterMap Naming.byAgent, x ∉ names.filterMap (Naming.byTurn turn)

/-- Ids are distinct exactly if those the agent chose are distinct and none of the turn's making,
where no segment and no minted id was given twice. -/
theorem nodup_ids_iff {turn : String} {names : List Naming}
    (hsegments : (names.filterMap Naming.byAgent).Nodup → ∀ say k,
      names.count (.segment say k) ≤ 1) (hminted : ∀ n, names.count (.minted n) ≤ 1) :
    (names.map (Naming.id turn)).Nodup ↔ Distinct turn names := by
  constructor
  · intro h
    have hpairs := h
    rw [List.Nodup, List.pairwise_map] at hpairs
    constructor
    · rw [List.Nodup, List.pairwise_filterMap]
      refine hpairs.imp fun hne x hx y hy heq => hne ?_
      rw [Naming.id_of_byAgent turn hx, Naming.id_of_byAgent turn hy, heq]
    · intro x hx hx'
      obtain ⟨a, ha, hax⟩ := List.mem_filterMap.mp hx
      obtain ⟨b, hb, hbx⟩ := List.mem_filterMap.mp hx'
      have hne : a ≠ b := by
        rintro rfl
        cases a <;> simp [Naming.byAgent, Naming.byTurn] at hax hbx
      have hid : a.id turn ≠ b.id turn := fun heq => hne (List.inj_on_of_nodup_map h ha hb heq)
      exact hid ((Naming.id_of_byAgent turn hax).trans (Naming.id_of_byTurn hbx).symm)
  · rintro ⟨hnodup, hapart⟩
    have hagent := hnodup
    rw [List.Nodup, List.pairwise_filterMap] at hagent
    have hsymm : Std.Symm (fun a b : Naming => ∀ x, a.byAgent = some x →
        ∀ y, b.byAgent = some y → x ≠ y) := ⟨fun _ _ h x hx y hy heq => h y hy x hx heq.symm⟩
    have hagents : ∀ a ∈ names, ∀ b ∈ names, a ≠ b → ∀ x, a.byAgent = some x →
        b.byAgent ≠ some x := by
      intro a ha b hb hne x hax hbx
      exact hagent.forall ha hb hne x hax x hbx rfl
    have honce : names.Nodup := by
      rw [List.nodup_iff_count_le_one]
      intro a
      cases hax : a.byAgent with
      | some x =>
        have hcount := List.nodup_iff_count_le_one.mp hnodup x
        have hle : names.count a ≤ (names.filterMap Naming.byAgent).count x := by
          rw [List.count_filterMap]
          refine List.countP_mono_left fun b _ hb => ?_
          have heq : b = a := by simpa using hb
          simp [heq, hax]
        exact Nat.le_trans hle hcount
      | none =>
        cases a with
        | said say => cases hax
        | stated id => cases hax
        | segment say k => exact hsegments hnodup say k
        | minted n => exact hminted n
    refine honce.map_on fun a ha b hb heq => ?_
    by_contra hne
    have hclash : ∀ a ∈ names, ∀ b ∈ names, a.id turn = b.id turn → ∀ x, a.byAgent = some x →
        b.byTurn turn = none := by
      intro a ha b hb heq x hax
      by_contra hmade
      obtain ⟨y, hby⟩ := Option.ne_none_iff_exists'.mp hmade
      have hxy : x = y := by
        rw [← Naming.id_of_byAgent turn hax, heq, Naming.id_of_byTurn hby]
      exact hapart x (List.mem_filterMap.mpr ⟨a, ha, hax⟩)
        (List.mem_filterMap.mpr ⟨b, hb, hxy ▸ hby⟩)
    cases hax : a.byAgent with
    | some x =>
      cases hbx : b.byAgent with
      | some y =>
        have hxy : x = y := by
          rw [← Naming.id_of_byAgent turn hax, heq, Naming.id_of_byAgent turn hbx]
        exact hagents a ha b hb hne x hax (hxy ▸ hbx)
      | none =>
        have hmade := hclash a ha b hb heq x hax
        cases b <;> simp [Naming.byAgent, Naming.byTurn] at hbx hmade
    | none =>
      cases hbx : b.byAgent with
      | some y =>
        have hmade := hclash b hb a ha heq.symm y hbx
        cases a <;> simp [Naming.byAgent, Naming.byTurn] at hax hmade
      | none =>
        cases a with
        | said say => cases hax
        | stated id => cases hax
        | segment say k =>
          cases b with
          | said say => cases hbx
          | stated id => cases hbx
          | segment say' k' =>
            obtain ⟨rfl, rfl⟩ := saySegmentID_inj.mp heq
            exact hne rfl
          | minted n => exact saySegmentID_ne_mintedID _ _ _ _ heq
        | minted n =>
          cases b with
          | said say => cases hbx
          | stated id => cases hbx
          | segment say' k' => exact saySegmentID_ne_mintedID _ _ _ _ heq.symm
          | minted n' => exact hne (congrArg _ (mintedID_inj.mp heq))

end TurnLog

end Marotte
