import Mathlib.Order.Basic
import Mathlib.Data.Nat.Basic

/-! # Runs of a sequence

Places of a sequence are members, or break a run, or neither. Two members are of one run where no
place between them breaks it, and a run reaches from its first member to its last.
-/
namespace Marotte.Segments

variable {member breaks : ℕ → Bool} {p q r s : ℕ}

/-- No place strictly between the two breaks a run. -/
def Clear (breaks : ℕ → Bool) (p q : ℕ) : Prop := ∀ j < q, p < j → breaks j = false

instance : Decidable (Clear breaks p q) := inferInstanceAs (Decidable (∀ j < q, p < j → _))

theorem Clear.narrow (h : Clear breaks p q) (hr : p ≤ r) (hs : s ≤ q) : Clear breaks r s :=
  fun j hj hlt => h j (hj.trans_le hs) (hr.trans_lt hlt)

theorem Clear.join (h : Clear breaks p q) (h' : Clear breaks q r) (hq : breaks q = false) :
    Clear breaks p r := by
  intro j hj hlt
  rcases lt_trichotomy j q with hjq | rfl | hqj
  · exact h j hjq hlt
  · exact hq
  · exact h' j hj hqj

/-- The first member of the run that a place ends. -/
structure Starts (member breaks : ℕ → Bool) (seq r : ℕ) : Prop where
  le : r ≤ seq
  isMember : member r
  clear : Clear breaks r seq
  least : ∀ p ≤ seq, member p → Clear breaks p seq → r ≤ p

/-- The last member of the run that a place begins. -/
structure Ends (member breaks : ℕ → Bool) (seq r : ℕ) : Prop where
  le : seq ≤ r
  isMember : member r
  clear : Clear breaks seq r
  greatest : ∀ p, seq ≤ p → member p → Clear breaks seq p → p ≤ r

variable (hmember : ∀ i, member i → breaks i = false)
include hmember

/-- Two members of one run have one first member. -/
theorem Starts.eq_of_clear (hp : Starts member breaks p r) (hq : Starts member breaks q s)
    (hpq : p ≤ q) (hm : member p) (hclear : Clear breaks p q) : r = s := by
  apply le_antisymm
  · have hsp : s ≤ p := hq.least p hpq hm hclear
    exact hp.least s hsp hq.isMember (hq.clear.narrow le_rfl hpq)
  · exact hq.least r (hp.le.trans hpq) hp.isMember (hp.clear.join hclear (hmember p hm))

theorem Ends.eq_of_clear (hp : Ends member breaks p r) (hq : Ends member breaks q s)
    (hpq : p ≤ q) (hm : member q) (hclear : Clear breaks p q) : r = s := by
  apply le_antisymm
  · have hqr : q ≤ r := hp.greatest q hpq hm hclear
    exact hq.greatest r hqr hp.isMember (hp.clear.narrow hpq le_rfl)
  · exact hp.greatest s (hpq.trans hq.le) hq.isMember (hclear.join hq.clear (hmember q hm))

/-- The first member of a run starts at itself. -/
theorem Starts.self (h : Starts member breaks p r) : Starts member breaks r r where
  le := le_rfl
  isMember := h.isMember
  clear := fun _ hj hlt => absurd hj hlt.asymm
  least := fun s hs hm hclear =>
    h.least s (hs.trans h.le) hm (hclear.join h.clear (hmember r h.isMember))

theorem Ends.self (h : Ends member breaks p r) : Ends member breaks r r where
  le := le_rfl
  isMember := h.isMember
  clear := fun _ hj hlt => absurd hj hlt.asymm
  greatest := fun s hs hm hclear =>
    h.greatest s (h.le.trans hs) hm (h.clear.join hclear (hmember r h.isMember))

end Marotte.Segments
