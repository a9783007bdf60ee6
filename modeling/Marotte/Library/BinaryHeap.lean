import Mathlib.Data.Nat.Basic
import Mathlib.Logic.Equiv.Basic
import Mathlib.Order.Lattice

/-! # Binary heaps by exchanges

A heap of places with keys that is changed only by exchanging two of them: the two sifts, what they
make of the order, and the rule that what every exchange keeps they keep.
-/
namespace Marotte.BinaryHeap

/-- A state with keys at its places and an exchange of two of them. -/
structure Interface (σ κ : Type*) where
  len : σ → ℕ
  key : σ → ℕ → κ
  swap : σ → ℕ → ℕ → σ
  len_swap : ∀ s i j, len (swap s i j) = len s
  key_swap : ∀ s i j, i < len s → j < len s → ∀ k, key (swap s i j) k = key s (Equiv.swap i j k)

def parent (j : ℕ) : ℕ := (j - 1) / 2

theorem parent_lt {j : ℕ} (h : 0 < j) : parent j < j := by
  rw [parent]
  omega

theorem parent_eq_iff {i k : ℕ} (h : 0 < k) : parent k = i ↔ k = 2 * i + 1 ∨ k = 2 * i + 2 := by
  rw [parent]
  omega

variable {σ κ : Type*} [LinearOrder κ] (I : Interface σ κ)

/-! ## The sifts -/

def up (s : σ) (j : ℕ) : σ :=
  if parent j ≠ j ∧ I.key s j < I.key s (parent j) then up (I.swap s (parent j) j) (parent j) else s
termination_by j
decreasing_by
  have h := ‹parent j ≠ j ∧ _›.1
  rw [parent] at h ⊢
  omega

/-- The smaller of the children below `n` of a place that has one. -/
def child (s : σ) (i n : ℕ) : ℕ :=
  if 2 * i + 2 < n ∧ I.key s (2 * i + 2) < I.key s (2 * i + 1) then 2 * i + 2 else 2 * i + 1

theorem child_gt (s : σ) (i n : ℕ) : i < child I s i n := by
  rw [child]
  split <;> omega

theorem child_lt {s : σ} {i n : ℕ} (h : 2 * i + 1 < n) : child I s i n < n := by
  rw [child]
  split <;> omega

theorem parent_child (s : σ) (i n : ℕ) : parent (child I s i n) = i := by
  rw [child, parent]
  split <;> omega

/-- The state and the place where the sift ends. -/
def down (s : σ) (i n : ℕ) : σ × ℕ :=
  if 2 * i + 1 < n ∧ I.key s (child I s i n) < I.key s i then
    down (I.swap s i (child I s i n)) (child I s i n) n
  else (s, i)
termination_by n - i
decreasing_by
  have := child_gt I s i n
  omega

/-- The order after the key at a place has changed. -/
def fix (s : σ) (i : ℕ) : σ :=
  let r := down I s i (I.len s)
  if i < r.2 then r.1 else up I r.1 i

/-- The least key is last and the other places are a heap. -/
def popped (s : σ) : σ :=
  (down I (I.swap s 0 (I.len s - 1)) 0 (I.len s - 1)).1

theorem le_down (s : σ) (i n : ℕ) : i ≤ (down I s i n).2 := by
  induction hm : n - i using Nat.strong_induction_on generalizing s i with
  | _ m ih =>
    rw [down]
    split
    · have hgt := child_gt I s i n
      exact hgt.le.trans (ih (n - child I s i n) (by omega) _ _ rfl)
    · exact le_rfl

/-! ## What every exchange keeps -/

variable {I} {s : σ} {i j k n : ℕ}

theorem up_invariant {Q : σ → Prop}
    (hswap : ∀ s i j, i < I.len s → j < I.len s → Q s → Q (I.swap s i j)) (h : Q s)
    (hj : j < I.len s) : Q (up I s j) := by
  induction j using Nat.strong_induction_on generalizing s with
  | _ j ih =>
    rw [up]
    split
    · next hup =>
      have hlt : parent j < j := by
        have := hup.1
        rw [parent] at this ⊢
        omega
      refine ih _ hlt (hswap s _ j (hlt.trans hj) hj h) ?_
      rw [I.len_swap]
      exact hlt.trans hj
    · exact h

theorem down_invariant {Q : σ → Prop}
    (hswap : ∀ s i j, n ≤ I.len s → i < n → j < n → Q s → Q (I.swap s i j)) (h : Q s)
    (hn : n ≤ I.len s) (i : ℕ) : Q (down I s i n).1 := by
  induction hm : n - i using Nat.strong_induction_on generalizing s i with
  | _ m ih =>
    rw [down]
    split
    · next hdown =>
      have hgt := child_gt I s i n
      have hlt := child_lt I (s := s) hdown.1
      refine ih (n - child I s i n) (by omega) (hswap s i _ hn (hgt.trans hlt) hlt h) ?_ _ rfl
      rwa [I.len_swap]
    · exact h

theorem len_down (hn : n ≤ I.len s) (i : ℕ) : I.len (down I s i n).1 = I.len s :=
  down_invariant (Q := fun s' => I.len s' = I.len s)
    (fun s' i j _ _ _ h => (I.len_swap s' i j).trans h) rfl hn i

/-- The places from `n` on keep their keys. -/
theorem key_down_of_le (hn : n ≤ I.len s) (i : ℕ) (hk : n ≤ k) :
    I.key (down I s i n).1 k = I.key s k := by
  refine down_invariant (Q := fun s' => I.key s' k = I.key s k) ?_ rfl hn i
  intro s' i j hn' hi hj h
  rw [I.key_swap s' i j (by omega) (by omega), Equiv.swap_apply_of_ne_of_ne (by omega) (by omega), h]

theorem fix_invariant {Q : σ → Prop}
    (hswap : ∀ s i j, i < I.len s → j < I.len s → Q s → Q (I.swap s i j)) (h : Q s)
    (hi : i < I.len s) : Q (fix I s i) := by
  have hdown : Q (down I s i (I.len s)).1 :=
    down_invariant (fun s' i j hn hi hj => hswap s' i j (by omega) (by omega)) h le_rfl i
  rw [fix]
  split
  · exact hdown
  · exact up_invariant hswap hdown (by rwa [len_down le_rfl])

theorem popped_invariant {Q : σ → Prop}
    (hswap : ∀ s i j, i < I.len s → j < I.len s → Q s → Q (I.swap s i j)) (h : Q s)
    (hlen : 0 < I.len s) : Q (popped I s) := by
  refine down_invariant (fun s' i j hn hi hj => hswap s' i j (by omega) (by omega)) ?_ ?_ 0
  · exact hswap s _ _ hlen (by omega) h
  · rw [I.len_swap]
    omega

/-! ## The order -/

/-- No place below `n` has a smaller key than its parent. -/
def Ordered (I : Interface σ κ) (s : σ) (n : ℕ) : Prop :=
  ∀ k, 0 < k → k < n → I.key s (parent k) ≤ I.key s k

/-- The first place has the least key. -/
theorem Ordered.le (h : Ordered I s n) (hk : k < n) : I.key s 0 ≤ I.key s k := by
  induction k using Nat.strong_induction_on with
  | _ k ih =>
    rcases Nat.eq_zero_or_pos k with rfl | hpos
    · exact le_rfl
    · have hlt := parent_lt hpos
      exact (ih _ hlt (hlt.trans hk)).trans (h k hpos hk)

/-- The order but at one place and its parent, where the children of the place are not below its
parent. -/
structure UpOrder (I : Interface σ κ) (s : σ) (n j : ℕ) : Prop where
  except : ∀ k, 0 < k → k < n → k ≠ j → I.key s (parent k) ≤ I.key s k
  grand : 0 < j → ∀ k, 0 < k → k < n → parent k = j → I.key s (parent j) ≤ I.key s k

/-- The order but at one place, its parent and its children. -/
structure DownOrder (I : Interface σ κ) (s : σ) (n i : ℕ) : Prop where
  except : ∀ k, 0 < k → k < n → k ≠ i → parent k ≠ i → I.key s (parent k) ≤ I.key s k
  grand : 0 < i → ∀ k, 0 < k → k < n → parent k = i → I.key s (parent i) ≤ I.key s k

theorem UpOrder.swap (h : UpOrder I s n j) (hlen : n ≤ I.len s) (hj : j < n) (hpos : 0 < j)
    (hlt : I.key s j < I.key s (parent j)) :
    UpOrder I (I.swap s (parent j) j) n (parent j) := by
  have hparent := parent_lt hpos
  have hkey := I.key_swap s (parent j) j (by omega) (by omega)
  have hj' : I.key (I.swap s (parent j) j) j = I.key s (parent j) := by
    rw [hkey, Equiv.swap_apply_right]
  have hi' : I.key (I.swap s (parent j) j) (parent j) = I.key s j := by
    rw [hkey, Equiv.swap_apply_left]
  have hother : ∀ k, k ≠ j → k ≠ parent j → I.key (I.swap s (parent j) j) k = I.key s k :=
    fun k hk hk' => by rw [hkey, Equiv.swap_apply_of_ne_of_ne hk' hk]
  constructor
  · intro k hk hkn hne
    by_cases hkj : k = j
    · subst hkj
      rw [hj', hi']
      exact hlt.le
    · rw [hother k hkj hne]
      by_cases hpj : parent k = j
      · rw [hpj, hj']
        exact h.grand hpos k hk hkn hpj
      · by_cases hpi : parent k = parent j
        · rw [hpi, hi']
          exact hlt.le.trans (hpi ▸ h.except k hk hkn hkj)
        · rw [hother _ hpj hpi]
          exact h.except k hk hkn hkj
  · intro hi k hk hkn hpk
    have hgrand := parent_lt hi
    have hle := h.except (parent j) hi (by omega) (by omega)
    rw [hother (parent (parent j)) (by omega) (by omega)]
    by_cases hkj : k = j
    · subst hkj
      rwa [hj']
    · have hkp : k ≠ parent j := by
        have := parent_lt hk
        omega
      rw [hother k hkj hkp]
      exact hle.trans (hpk ▸ h.except k hk hkn hkj)

theorem UpOrder.ordered (h : UpOrder I s n j) (hlen : n ≤ I.len s) (hj : j < n) :
    Ordered I (up I s j) n := by
  induction j using Nat.strong_induction_on generalizing s with
  | _ j ih =>
    rw [up]
    split
    · next hup =>
      have hpos : 0 < j := by
        have := hup.1
        rw [parent] at this
        omega
      have hparent := parent_lt hpos
      exact ih _ hparent (h.swap hlen hj hpos hup.2) (by rwa [I.len_swap]) (by omega)
    · next hup =>
      intro k hk hkn
      by_cases hkj : k = j
      · subst hkj
        exact not_lt.1 fun hlt => hup ⟨(parent_lt hk).ne, hlt⟩
      · exact h.except k hk hkn hkj

/-- The smaller child is at most as large as any. -/
theorem child_le (hk : 0 < k) (hkn : k < n) (hp : parent k = i) :
    I.key s (child I s i n) ≤ I.key s k := by
  rw [child]
  rcases (parent_eq_iff hk).1 hp with rfl | rfl
  · split
    · next h => exact h.2.le
    · exact le_rfl
  · split
    · exact le_rfl
    · next h => exact not_lt.1 fun hlt => h ⟨hkn, hlt⟩

theorem DownOrder.swap (h : DownOrder I s n i) (hlen : n ≤ I.len s) (hchild : 2 * i + 1 < n)
    (hlt : I.key s (child I s i n) < I.key s i) :
    DownOrder I (I.swap s i (child I s i n)) n (child I s i n)
      ∧ I.key (I.swap s i (child I s i n)) i ≤ I.key (I.swap s i (child I s i n)) (child I s i n) := by
  have hgt := child_gt I s i n
  have hlt' := child_lt I (s := s) hchild
  have hparent := parent_child I s i n
  have hle : ∀ k, 0 < k → k < n → parent k = i → I.key s (child I s i n) ≤ I.key s k :=
    fun k hk hkn hp => child_le hk hkn hp
  generalize child I s i n = j at *
  have hkey := I.key_swap s i j (by omega) (by omega)
  have hj' : I.key (I.swap s i j) j = I.key s i := by rw [hkey, Equiv.swap_apply_right]
  have hi' : I.key (I.swap s i j) i = I.key s j := by rw [hkey, Equiv.swap_apply_left]
  have hother : ∀ k, k ≠ i → k ≠ j → I.key (I.swap s i j) k = I.key s k :=
    fun k hk hk' => by rw [hkey, Equiv.swap_apply_of_ne_of_ne hk hk']
  refine ⟨⟨?_, ?_⟩, ?_⟩
  · intro k hk hkn hne hpne
    by_cases hki : k = i
    · subst hki
      have hpk := parent_lt hk
      rw [hi', hother _ hpk.ne hpne]
      exact h.grand hk j (by omega) hlt' hparent
    · rw [hother k hki hne]
      by_cases hpi : parent k = i
      · rw [hpi, hi']
        exact hle k hk hkn hpi
      · rw [hother _ hpi hpne]
        exact h.except k hk hkn hki hpi
  · intro hj k hk hkn hpk
    have hpk' := parent_lt hk
    rw [hparent, hi', hother k (by omega) (by omega)]
    exact hpk ▸ h.except k hk hkn (by omega) (by omega)
  · rw [hi', hj']
    exact hlt.le

/-- A sift down that moves leaves a heap. One that does not leaves the children in order. -/
theorem DownOrder.down (h : DownOrder I s n i) (hlen : n ≤ I.len s) :
    (i < (down I s i n).2 → Ordered I (down I s i n).1 n)
      ∧ (¬ i < (down I s i n).2 → (down I s i n).1 = s
        ∧ ∀ k, 0 < k → k < n → parent k = i → I.key s i ≤ I.key s k) := by
  induction hm : n - i using Nat.strong_induction_on generalizing s i with
  | _ m ih =>
    rw [BinaryHeap.down]
    split
    · next hdown =>
      have hgt := child_gt I s i n
      obtain ⟨horder, hpair⟩ := h.swap hlen hdown.1 hdown.2
      have hparent := parent_child I s i n
      obtain ⟨hmoved, hstayed⟩ := ih (n - child I s i n) (by omega) horder
        (by rwa [I.len_swap]) rfl
      generalize child I s i n = j at *
      by_cases hfinal : j < (BinaryHeap.down I (I.swap s i j) j n).2
      · exact ⟨fun _ => hmoved hfinal, fun hnot => absurd (hgt.trans hfinal) hnot⟩
      · obtain ⟨hsame, hchildren⟩ := hstayed hfinal
        have hordered : Ordered I (BinaryHeap.down I (I.swap s i j) j n).1 n := by
          rw [hsame]
          intro k hk hkn
          by_cases hkj : k = j
          · subst hkj
            rwa [hparent]
          · by_cases hpj : parent k = j
            · rw [hpj]
              exact hchildren k hk hkn hpj
            · exact horder.except k hk hkn hkj hpj
        exact ⟨fun _ => hordered, fun hnot => absurd (hgt.trans_le (le_down I _ j n)) hnot⟩
    · next hdown =>
      refine ⟨fun hlt => absurd hlt (lt_irrefl _), fun _ => ⟨rfl, fun k hk hkn hp => ?_⟩⟩
      have hfirst : 2 * i + 1 < n := by
        have := (parent_eq_iff hk).1 hp
        omega
      exact (not_lt.1 fun hlt => hdown ⟨hfirst, hlt⟩).trans (child_le hk hkn hp)

/-! ## The operations -/

/-- After a key has been added last. -/
theorem ordered_up (h : Ordered I s n) (hlen : n + 1 ≤ I.len s) : Ordered I (up I s n) (n + 1) := by
  refine UpOrder.ordered ⟨fun k hk hkn hne => h k hk (by omega), ?_⟩ hlen (by omega)
  intro _ k hk hkn hp
  have := parent_lt hk
  omega

/-- After the key of one place has changed to any other. -/
theorem ordered_fix {s₀ : σ} (h : Ordered I s₀ (I.len s)) (hi : i < I.len s)
    (hkey : ∀ k, k < I.len s → k ≠ i → I.key s k = I.key s₀ k) : Ordered I (fix I s i) (I.len s) := by
  have hdown : DownOrder I s (I.len s) i := by
    constructor
    · intro k hk hkn hki hpi
      rw [hkey k hkn hki, hkey _ ((parent_lt hk).trans hkn) hpi]
      exact h k hk hkn
    · intro hpos k hk hkn hp
      have hparent := parent_lt hpos
      have hlt := parent_lt hk
      rw [hkey _ (hparent.trans hi) hparent.ne, hkey k hkn (by omega)]
      exact (h i hpos hi).trans (hp ▸ h k hk hkn)
  obtain ⟨hmoved, hstayed⟩ := hdown.down le_rfl
  rw [fix]
  split
  · next hlt => exact hmoved hlt
  · next hnot =>
    obtain ⟨hsame, hchildren⟩ := hstayed hnot
    rw [hsame]
    refine UpOrder.ordered ⟨fun k hk hkn hne => ?_, hdown.grand⟩ le_rfl hi
    by_cases hp : parent k = i
    · rw [hp]
      exact hchildren k hk hkn hp
    · exact hdown.except k hk hkn hne hp

/-- The places but the last are a heap, and the last has the least key. -/
theorem ordered_popped (h : Ordered I s (I.len s)) (hlen : 0 < I.len s) :
    Ordered I (popped I s) (I.len s - 1)
      ∧ I.key (popped I s) (I.len s - 1) = I.key s 0 := by
  have hkey := I.key_swap s 0 (I.len s - 1) hlen (by omega)
  have hn : I.len s - 1 ≤ I.len (I.swap s 0 (I.len s - 1)) := by
    rw [I.len_swap]
    omega
  have hdown : DownOrder I (I.swap s 0 (I.len s - 1)) (I.len s - 1) 0 := by
    constructor
    · intro k hk hkn hk0 hp0
      have := parent_lt hk
      rw [hkey, hkey, Equiv.swap_apply_of_ne_of_ne hp0 (by omega),
        Equiv.swap_apply_of_ne_of_ne hk0 (by omega)]
      exact h k hk (by omega)
    · intro hpos
      exact absurd hpos (lt_irrefl _)
  obtain ⟨hmoved, hstayed⟩ := hdown.down hn
  refine ⟨?_, ?_⟩
  · rw [popped]
    by_cases hlt : 0 < (down I (I.swap s 0 (I.len s - 1)) 0 (I.len s - 1)).2
    · exact hmoved hlt
    · obtain ⟨hsame, hchildren⟩ := hstayed hlt
      rw [hsame]
      intro k hk hkn
      by_cases hp : parent k = 0
      · rw [hp]
        exact hchildren k hk hkn hp
      · exact hdown.except k hk hkn hk.ne' hp
  · rw [popped, key_down_of_le hn 0 le_rfl, hkey, Equiv.swap_apply_right]

end Marotte.BinaryHeap
