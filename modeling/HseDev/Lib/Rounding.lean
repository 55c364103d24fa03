import Mathlib.Algebra.Order.Floor.Ring
import Mathlib.Algebra.Ring.Int.Parity
import Mathlib.Tactic.Linarith
import Mathlib.Tactic.Ring
import Mathlib.Tactic.FieldSimp

/-!
# Rounding to the nearest integer, ties to even

* **`NearestEven`** — what the rounded value has to be; it is unique.
* **`roundEven`** — the rounded value, from the floor and the fractional part;
  `roundEven_eq_iff` says that it is the one that `NearestEven` describes.
* **`nearestEven_div_iff`** — the condition for a quotient, in integers.
* **`nearestEven_trunc_iff`** — when truncation already rounds a quotient.
* **`nearestEven_add_half`** — the rounded quotient is a truncated one: add half the divisor,
  less one if the quotient is even.
-/

namespace Rounding

variable {K : Type*} [Field K] [LinearOrder K] [IsStrictOrderedRing K] {x : K} {y z : ℤ}

/-- `z` is as near to `x` as an integer can be, and even if it is not the only one. -/
structure NearestEven (x : K) (z : ℤ) : Prop where
  near : |x - z| ≤ 1 / 2
  tie : |x - z| = 1 / 2 → Even z

/-- `x`, rounded to the nearest integer, ties to even. -/
def roundEven [FloorRing K] (x : K) : ℤ :=
  if Int.fract x < 1 / 2 then ⌊x⌋
  else if 1 / 2 < Int.fract x then ⌊x⌋ + 1
  else if Even ⌊x⌋ then ⌊x⌋
  else ⌊x⌋ + 1

/-- Of two nearest values neither can lie behind the other. The case of a tie is the one that
evenness decides. -/
theorem NearestEven.le_of_lt (hy : NearestEven x y) (hz : NearestEven x z) : y ≤ z := by
  by_contra hlt
  have hy' := abs_le.mp hy.near
  have hz' := abs_le.mp hz.near
  have hstep : (z : K) + 1 ≤ y := by exact_mod_cast not_le.mp hlt
  -- both are half a unit away, on either side
  have hx : x - z = 1 / 2 := by linarith
  have hx' : x - y = -(1 / 2) := by linarith
  have hsucc : y = z + 1 := by
    have hcast : (y : K) = ((z + 1 : ℤ) : K) := by
      push_cast
      linarith
    exact_mod_cast hcast
  have hevenz : Even z := hz.tie (by rw [hx, abs_of_pos (by norm_num)])
  have heveny : Even y := hy.tie (by rw [hx', abs_neg, abs_of_pos (by norm_num)])
  rw [hsucc, Int.even_add_one] at heveny
  exact heveny hevenz

/-- So the nearest value is unique, and rounding is a function. -/
theorem NearestEven.unique (hy : NearestEven x y) (hz : NearestEven x z) : y = z :=
  le_antisymm (hy.le_of_lt hz) (hz.le_of_lt hy)

/-! ## Quotients

For a quotient the distance is a remainder, and the comparison with one half is one of integers. -/

/-- The nearest value of a quotient, with the denominator multiplied out. -/
theorem nearestEven_div_iff {t d : ℕ} (hd : 0 < d) :
    NearestEven ((t : K) / d) z
      ↔ 2 * |(t : ℤ) - z * d| ≤ d ∧ (2 * |(t : ℤ) - z * d| = d → Even z) := by
  have hpos : (0 : K) < d := by exact_mod_cast hd
  have habs : |(t : K) / d - z| = ((|(t : ℤ) - z * d| : ℤ) : K) / d := by
    have hsub : (t : K) / d - z = ((t : ℤ) - z * d : ℤ) / d := by
      push_cast
      field_simp
    rw [hsub, abs_div, abs_of_pos hpos, Int.cast_abs]
  have hle : |(t : K) / d - z| ≤ 1 / 2 ↔ 2 * |(t : ℤ) - z * d| ≤ d := by
    rw [habs, div_le_div_iff₀ hpos two_pos, one_mul, mul_comm]
    exact_mod_cast Iff.rfl
  have heq : |(t : K) / d - z| = 1 / 2 ↔ 2 * |(t : ℤ) - z * d| = d := by
    rw [habs, div_eq_div_iff hpos.ne' two_ne_zero, one_mul, mul_comm]
    exact_mod_cast Iff.rfl
  constructor
  · intro h
    exact ⟨hle.mp h.near, fun htie => h.tie (heq.mpr htie)⟩
  · intro h
    exact ⟨hle.mpr h.1, fun htie => h.2 (heq.mp htie)⟩

/-- The error of a quotient or of the next integer. -/
theorem sub_div_mul (t d c : ℕ) : (t : ℤ) - ((t / d + c : ℕ) : ℤ) * d = (t % d : ℕ) - c * d := by
  have hdiv : ((t / d : ℕ) : ℤ) * d + (t % d : ℕ) = t := by
    exact_mod_cast Nat.div_add_mod' t d
  push_cast at hdiv ⊢
  linarith

/-- Truncation is rounding exactly if the remainder is below one half, or is one half and the
quotient even. -/
theorem nearestEven_trunc_iff {t d : ℕ} (hd : 0 < d) :
    NearestEven ((t : K) / d) ((t / d : ℕ) : ℤ)
      ↔ 2 * (t % d) < d ∨ (2 * (t % d) = d ∧ (t / d) % 2 = 0) := by
  have herror := sub_div_mul t d 0
  rw [nearestEven_div_iff hd, Int.even_iff]
  simp only [add_zero, Nat.cast_zero, zero_mul, sub_zero] at herror
  rw [herror, abs_of_nonneg (by omega)]
  omega

/-- **Rounding by truncation.** At a tie the constant is enough to carry exactly if the quotient
is odd. -/
theorem nearestEven_add_half {t half : ℕ} (hpos : 0 < half) :
    NearestEven ((t : K) / (2 * half : ℕ))
      (((t + (half - (1 - t / (2 * half) % 2))) / (2 * half) : ℕ) : ℤ) := by
  have hd : 0 < 2 * half := by omega
  have hmod := Nat.mod_lt t hd
  have hdiv := Nat.div_add_mod t (2 * half)
  have hcarry : (t + (half - (1 - t / (2 * half) % 2))) / (2 * half)
      = t / (2 * half) + (t % (2 * half) + (half - (1 - t / (2 * half) % 2))) / (2 * half) := by
    nth_rewrite 1 [← hdiv]
    rw [add_assoc, Nat.mul_add_div hd]
  rw [nearestEven_div_iff hd, hcarry, Int.even_iff]
  by_cases hup : 2 * half ≤ t % (2 * half) + (half - (1 - t / (2 * half) % 2))
  · have hone : (t % (2 * half) + (half - (1 - t / (2 * half) % 2))) / (2 * half) = 1 := by
      rw [Nat.div_eq_iff hd]
      omega
    rw [hone, sub_div_mul, abs_of_neg (by omega)]
    omega
  · have hzero : (t % (2 * half) + (half - (1 - t / (2 * half) % 2))) / (2 * half) = 0 :=
      Nat.div_eq_of_lt (by omega)
    rw [hzero, sub_div_mul, abs_of_nonneg (by omega)]
    omega

/-! ## The rounded value

For every value there is a nearest one, which is computed from the floor. -/

variable [FloorRing K]

/-- The computed value is a nearest one. -/
theorem nearestEven_roundEven (x : K) : NearestEven x (roundEven x) := by
  have hfloor : x - ⌊x⌋ = Int.fract x := Int.self_sub_floor x
  have hceil : x - ((⌊x⌋ + 1 : ℤ) : K) = Int.fract x - 1 := by
    push_cast
    linarith
  have hlo := Int.fract_nonneg x
  have hhi := Int.fract_lt_one x
  unfold roundEven
  split
  · next hbelow =>
    have habs : |x - ⌊x⌋| < 1 / 2 := by rwa [hfloor, abs_of_nonneg hlo]
    exact ⟨habs.le, fun htie => absurd htie habs.ne⟩
  · next hnotBelow =>
    have hup : |x - ((⌊x⌋ + 1 : ℤ) : K)| = 1 - Int.fract x := by
      rw [hceil, abs_of_neg (by linarith)]
      ring
    split
    · next habove =>
      have habs : |x - ((⌊x⌋ + 1 : ℤ) : K)| < 1 / 2 := by linarith
      exact ⟨habs.le, fun htie => absurd htie habs.ne⟩
    · next hnotAbove =>
      have hhalf : Int.fract x = 1 / 2 := le_antisymm (not_lt.mp hnotAbove) (not_lt.mp hnotBelow)
      split
      · next heven =>
        refine ⟨?_, fun _ => heven⟩
        rw [hfloor, abs_of_nonneg hlo, hhalf]
      · next hodd =>
        refine ⟨?_, fun _ => Int.even_add_one.mpr hodd⟩
        rw [hup, hhalf]
        norm_num

/-- **The rounded value is the nearest one, even at a tie.** The characterisation by distance and
parity determines the value, so a program that meets it computes the rounding. -/
theorem roundEven_eq_iff : roundEven x = z ↔ NearestEven x z := by
  constructor
  · intro h
    rw [← h]
    exact nearestEven_roundEven x
  · exact (nearestEven_roundEven x).unique

end Rounding
