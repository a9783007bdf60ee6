import Mathlib.Data.Nat.Log
import Mathlib.Tactic.Linarith

/-! # Whole numbers as doubles

What `parseInt` makes of a run of digits and what `String` writes of the number: the nearest
double, and the shortest digits that read back as it.
-/
namespace Marotte.Route

/-! ## Rounding -/

/-- `n` rounded to a multiple of `2 ^ e`, half way to the even one. -/
def roundAt (e n : ℕ) : ℕ :=
  let q := n / 2 ^ e
  let r := n % 2 ^ e
  if 2 ^ e < 2 * r ∨ 2 * r = 2 ^ e ∧ q % 2 = 1 then (q + 1) * 2 ^ e else q * 2 ^ e

/-- The double nearest to a whole number: 53 binary digits. -/
def toDouble (n : ℕ) : ℕ :=
  roundAt (Nat.log 2 n - 52) n

variable {e m n x : ℕ}

theorem roundAt_of_dvd (h : 2 ^ e ∣ n) : roundAt e n = n := by
  obtain ⟨k, rfl⟩ := h
  have hpos : 0 < 2 ^ e := by positivity
  simp only [roundAt, Nat.mul_mod_right, Nat.mul_div_cancel_left k hpos]
  rw [if_neg (by omega), Nat.mul_comm]

theorem dvd_roundAt (e n : ℕ) : 2 ^ e ∣ roundAt e n := by
  simp only [roundAt]
  split
  · exact Nat.dvd_mul_left ..
  · exact Nat.dvd_mul_left ..

theorem roundAt_mono (h : m ≤ n) : roundAt e m ≤ roundAt e n := by
  have hdiv : m / 2 ^ e ≤ n / 2 ^ e := Nat.div_le_div_right h
  have hm := Nat.div_add_mod m (2 ^ e)
  have hn := Nat.div_add_mod n (2 ^ e)
  simp only [roundAt]
  rcases Nat.lt_or_eq_of_le hdiv with hlt | heq
  · split <;> split <;> apply Nat.mul_le_mul_right <;> omega
  · rw [← heq] at hn ⊢
    have hmod : m % 2 ^ e ≤ n % 2 ^ e := by omega
    split <;> split <;> apply Nat.mul_le_mul_right <;> omega

theorem toDouble_mono (h : m ≤ n) : toDouble m ≤ toDouble n := by
  rw [toDouble, toDouble]
  by_cases hlog : Nat.log 2 m = Nat.log 2 n
  · rw [hlog]
    exact roundAt_mono h
  · have hle : Nat.log 2 m < Nat.log 2 n := lt_of_le_of_ne (Nat.log_mono_right h) hlog
    have hn : n ≠ 0 := by
      rintro rfl
      simp at hle
    have hlow : 2 ^ Nat.log 2 n ≤ n := Nat.pow_log_le_self 2 hn
    have hhigh : m ≤ 2 ^ Nat.log 2 n := by
      have hlt := Nat.lt_pow_succ_log_self (b := 2) (by decide) m
      exact hlt.le.trans (Nat.pow_le_pow_right (by decide) hle)
    calc roundAt (Nat.log 2 m - 52) m ≤ roundAt (Nat.log 2 m - 52) (2 ^ Nat.log 2 n) :=
          roundAt_mono hhigh
      _ = 2 ^ Nat.log 2 n := roundAt_of_dvd (Nat.pow_dvd_pow 2 (by omega))
      _ = roundAt (Nat.log 2 n - 52) (2 ^ Nat.log 2 n) :=
          (roundAt_of_dvd (Nat.pow_dvd_pow 2 (by omega))).symm
      _ ≤ roundAt (Nat.log 2 n - 52) n := roundAt_mono hlow

theorem toDouble_of_dvd (h : 2 ^ (Nat.log 2 n - 52) ∣ n) : toDouble n = n :=
  roundAt_of_dvd h

theorem toDouble_of_lt (h : n < 2 ^ 53) : toDouble n = n := by
  apply toDouble_of_dvd
  have hlog : Nat.log 2 n < 53 := Nat.log_lt_of_lt_pow' (by decide) h
  rw [show Nat.log 2 n - 52 = 0 by omega, pow_zero]
  exact one_dvd n

theorem toDouble_pow (k : ℕ) : toDouble (2 ^ k) = 2 ^ k := by
  apply toDouble_of_dvd
  rw [Nat.log_pow (by decide)]
  exact Nat.pow_dvd_pow 2 (by omega)

/-- A rounded number is a double. -/
theorem toDouble_toDouble (n : ℕ) : toDouble (toDouble n) = toDouble n := by
  by_cases hsmall : n < 2 ^ 53
  · rw [toDouble_of_lt hsmall, toDouble_of_lt hsmall]
  · have hn : n ≠ 0 := by
      rintro rfl
      simp at hsmall
    have hhigh : toDouble n ≤ 2 ^ (Nat.log 2 n + 1) := by
      rw [← toDouble_pow]
      exact toDouble_mono (Nat.lt_pow_succ_log_self (by decide) n).le
    rcases Nat.lt_or_eq_of_le hhigh with hlt | heq
    · apply toDouble_of_dvd
      have hlog : Nat.log 2 (toDouble n) < Nat.log 2 n + 1 := Nat.log_lt_of_lt_pow' (by omega) hlt
      exact (Nat.pow_dvd_pow 2 (by omega)).trans (dvd_roundAt (Nat.log 2 n - 52) n)
    · rw [heq, toDouble_pow]

/-- From here on a whole number rounds to infinity. -/
@[irreducible] def infinity : ℕ :=
  2 ^ 1024

/-- A finite double that is a whole number. -/
structure WholeNumber where
  val : ℕ
  exact : toDouble val = val
  finite : val < infinity
  deriving DecidableEq

/-- `parseInt`, or none for infinity. -/
def parseInt (digits : List Char) : Option WholeNumber :=
  let n := toDouble (Nat.ofDigitChars 10 digits 0)
  if h : n < infinity then some ⟨n, toDouble_toDouble _, h⟩ else none

theorem parseInt_val {digits : List Char} {x : WholeNumber} (h : parseInt digits = some x) :
    x.val = toDouble (Nat.ofDigitChars 10 digits 0) := by
  simp only [parseInt] at h
  split at h
  · injection h with h
    rw [← h]
  · contradiction

/-! ## Digits -/

/-- The multiple of `10 ^ e` that rounds to `x`, the closer of the two around it. -/
def candidate (x e : ℕ) : Option ℕ :=
  let s := x / 10 ^ e
  let low := 0 < s ∧ toDouble (s * 10 ^ e) = x
  let high := toDouble ((s + 1) * 10 ^ e) = x
  let gap := x - s * 10 ^ e
  let rest := (s + 1) * 10 ^ e - x
  if low ∧ high then
    if gap < rest ∨ gap = rest ∧ s % 2 = 0 then some s else some (s + 1)
  else if low then some s
  else if high then some (s + 1)
  else none

/-- The fewest digits that read back as `x`, and the zeros behind them. -/
def shortest (x : ℕ) : ℕ → ℕ × ℕ
  | 0 => (x, 0)
  | e + 1 =>
    match candidate x (e + 1) with
    | some s => (s, e + 1)
    | none => shortest x e

def WholeNumber.shortest (x : WholeNumber) : ℕ × ℕ :=
  Route.shortest x.val (Nat.toDigits 10 x.val).length

/-- `String` of a whole number: its digits up to 21 places, and an exponent beyond. -/
def WholeNumber.toString (x : WholeNumber) : List Char :=
  let digits := Nat.toDigits 10 x.shortest.1
  let n := digits.length + x.shortest.2
  if n ≤ 21 then digits ++ List.replicate x.shortest.2 '0'
  else
    match digits with
    | [] => []
    | [d] => d :: 'e' :: '+' :: Nat.toDigits 10 (n - 1)
    | d :: rest => d :: '.' :: rest ++ 'e' :: '+' :: Nat.toDigits 10 (n - 1)

theorem candidate_spec {s : ℕ} (h : candidate x e = some s) :
    0 < s ∧ toDouble (s * 10 ^ e) = x := by
  simp only [candidate] at h
  split at h
  · next hboth =>
    split at h
    · injection h with h
      rw [← h]
      exact hboth.1
    · injection h with h
      rw [← h]
      exact ⟨Nat.succ_pos _, hboth.2⟩
  · split at h
    · next hlow =>
      injection h with h
      rw [← h]
      exact hlow
    · split at h
      · next hhigh =>
        injection h with h
        rw [← h]
        exact ⟨Nat.succ_pos _, hhigh⟩
      · contradiction

theorem shortest_spec (hx : 0 < x) (hexact : toDouble x = x) (e : ℕ) :
    0 < (shortest x e).1 ∧ toDouble ((shortest x e).1 * 10 ^ (shortest x e).2) = x := by
  induction e with
  | zero => simpa [shortest] using ⟨hx, hexact⟩
  | succ e ih =>
    rw [shortest]
    split
    · next s h => exact candidate_spec h
    · exact ih

theorem toDouble_limit : toDouble (10 ^ 21) = 10 ^ 21 := by
  have hlog : Nat.log 2 (10 ^ 21) = 69 := by
    apply Nat.log_eq_of_pow_le_of_lt_pow <;> omega
  rw [toDouble, hlog]
  apply roundAt_of_dvd
  omega

/-- The digits of a number take more than 21 places exactly from `10 ^ 21` on. -/
theorem places_le_iff {x : WholeNumber} (hx : 0 < x.val) :
    (Nat.toDigits 10 x.shortest.1).length + x.shortest.2 ≤ 21 ↔ x.val < 10 ^ 21 := by
  obtain ⟨hpos, hround⟩ := shortest_spec hx x.exact (Nat.toDigits 10 x.val).length
  change 0 < x.shortest.1 at hpos
  change toDouble (x.shortest.1 * 10 ^ x.shortest.2) = x.val at hround
  have hplaces : (Nat.toDigits 10 x.shortest.1).length + x.shortest.2 ≤ 21
      ↔ x.shortest.1 * 10 ^ x.shortest.2 < 10 ^ 21 := by
    have hlength : 0 < (Nat.toDigits 10 x.shortest.1).length := Nat.length_toDigits_pos
    by_cases he : x.shortest.2 < 21
    · have hdigits := Nat.length_toDigits_le_iff (n := x.shortest.1) (b := 10)
        (k := 21 - x.shortest.2)
        (by decide) (by omega)
      have hpow : (10 : ℕ) ^ 21 = 10 ^ (21 - x.shortest.2) * 10 ^ x.shortest.2 := by
        rw [← pow_add]
        congr 1
        omega
      rw [hpow, Nat.mul_lt_mul_right (by positivity), ← hdigits]
      omega
    · have hbig : 10 ^ 21 ≤ x.shortest.1 * 10 ^ x.shortest.2 := by
        calc (10 : ℕ) ^ 21 ≤ 10 ^ x.shortest.2 := Nat.pow_le_pow_right (by decide) (by omega)
          _ ≤ x.shortest.1 * 10 ^ x.shortest.2 := Nat.le_mul_of_pos_left _ hpos
      omega
  rw [hplaces]
  constructor
  · intro hlt
    have hle : x.val ≤ 10 ^ 21 := by
      rw [← hround, ← toDouble_limit]
      exact toDouble_mono hlt.le
    by_contra hnot
    have heq : x.val = 10 ^ 21 := by omega
    have hshort : x.shortest = (1, 21) := by
      rw [WholeNumber.shortest, heq]
      decide +kernel
    simp [hshort] at hlt
  · intro hlt
    by_contra hnot
    have hge : toDouble (10 ^ 21) ≤ x.val := by
      rw [← hround]
      exact toDouble_mono (by omega)
    rw [toDouble_limit] at hge
    omega

/-! ## Round trip -/

theorem isDigit_toString {x : WholeNumber} (hx : 0 < x.val) (h : x.val < 10 ^ 21) :
    ∀ c ∈ x.toString, c.isDigit = true := by
  simp only [WholeNumber.toString]
  rw [if_pos ((places_le_iff hx).2 h)]
  intro c hc
  rcases List.mem_append.1 hc with hc | hc
  · exact Nat.isDigit_of_mem_toDigits (by decide) (by decide) hc
  · rw [(List.mem_replicate.1 hc).2]
    decide

/-- A number of at most 21 places is read back. -/
theorem parseInt_toString {x : WholeNumber} (hx : 0 < x.val) (h : x.val < 10 ^ 21) :
    parseInt x.toString = some x := by
  have hround := (shortest_spec hx x.exact (Nat.toDigits 10 x.val).length).2
  change toDouble (x.shortest.1 * 10 ^ x.shortest.2) = x.val at hround
  have hvalue : toDouble (Nat.ofDigitChars 10 x.toString 0) = x.val := by
    simp only [WholeNumber.toString]
    rw [if_pos ((places_le_iff hx).2 h), Nat.ofDigitChars_append, Nat.ofDigitChars_ten_toDigits,
      Nat.ofDigitChars_replicate_zero, Nat.mul_comm, hround]
  have hfinite := x.finite
  simp only [parseInt, hvalue, dif_pos hfinite]

/-- From `10 ^ 21` on, a digit stands alone before a point or an exponent. -/
theorem toString_exponent {x : WholeNumber} (h : 10 ^ 21 ≤ x.val) :
    ∃ d c rest, x.toString = d :: c :: rest ∧ d.isDigit = true ∧ c.isDigit = false := by
  have hplaces : ¬ (Nat.toDigits 10 x.shortest.1).length + x.shortest.2 ≤ 21 := by
    rw [places_le_iff (by omega)]
    omega
  simp only [WholeNumber.toString]
  rw [if_neg hplaces]
  have hdigits : ∀ c ∈ Nat.toDigits 10 x.shortest.1, c.isDigit = true := by
    intro c hc
    exact Nat.isDigit_of_mem_toDigits (by decide) (by decide) hc
  have hne : Nat.toDigits 10 x.shortest.1 ≠ [] := Nat.toDigits_ne_nil
  generalize Nat.toDigits 10 x.shortest.1 = digits at *
  rcases digits with _ | ⟨d, _ | ⟨c, rest⟩⟩
  · exact absurd rfl hne
  · exact ⟨d, 'e', _, rfl, hdigits d List.mem_cons_self, by decide⟩
  · exact ⟨d, '.', _, rfl, hdigits d List.mem_cons_self, by decide⟩

end Marotte.Route
