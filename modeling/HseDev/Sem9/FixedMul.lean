import HseDev.Lib.CInt
import HseDev.Lib.Rounding
import Mathlib.Data.Rat.Floor

/-!
# HseDev — `fixed_mul` of `sem9/main.c`

The product of two fixed-point numbers, scaled back by `n` bits. For `n = 32` the bits that fall
out are dropped; for the other `n` a constant is added before the shift, which rounds to the
nearest, and what does not fit in 32 bits saturates.

* **`fixedMulWith`** — the body, over the operators of `uint64_t`; **`fixedMul`** takes the ones
  that wrap.
* **`fixedMulWith_eq`** — its value for `n` from 1 to 31, with any operators that are right where
  nothing wraps.
* **`fixed_mul_rounds`** — it is the rounded quotient, saturated, and nothing wraps.
* **`fixed_mul_full_iff`** — when the path of `n = 32` agrees with it.
-/

namespace HseDev.Sem9

open CInt Rounding

def uint32Max : UInt64 := 4294967295

/-- The body of `fixed_mul`; its last `return` is not reached. -/
def fixedMulWith (u : U64) (a b : UInt32) (n : Int32) : Option UInt32 :=
  if n = 32 then do
    let product ← u.mul a.toUInt64 b.toUInt64
    let high ← shr product 32
    some high.toUInt32
  else do
    let t ← u.mul a.toUInt64 b.toUInt64
    let half ← shl 1 (← sub n 1)
    -- one less if the bit above the fraction is clear
    let r ← u.sub (toUInt64 half) (((← shr t n) &&& 1) ^^^ 1)
    let ans ← shr (← u.add t r) n
    some (if ans > uint32Max then uint32Max.toUInt32 else ans.toUInt32)

/-- `fixed_mul` -/
def fixedMul (a b : UInt32) (n : Int32) : Option UInt32 :=
  fixedMulWith U64.wrapping a b n

/-- The exact quotient. -/
def quotient (a b : UInt32) (n : Int32) : ℚ :=
  (a.toNat * b.toNat : ℕ) / (2 ^ n.toInt.toNat : ℕ)

variable {u : U64} {a b : UInt32} {n : Int32}

/-! ## The product

The product of two 32-bit numbers fits into 64 bits, so the multiplication is exact. -/

theorem product_le (a b : UInt32) : a.toNat * b.toNat ≤ 4294967295 * 4294967295 := by
  have ha := a.toNat_lt
  have hb := b.toNat_lt
  exact Nat.mul_le_mul (by omega) (by omega)

/-- The multiplication of the source never wraps, in either arithmetic. -/
theorem mul_eq (hu : u.Right) (a b : UInt32) :
    ∃ t, u.mul a.toUInt64 b.toUInt64 = some t ∧ t.toNat = a.toNat * b.toNat := by
  have hle := product_le a b
  have hsize : a.toUInt64.toNat * b.toUInt64.toNat < 2 ^ 64 := by
    rw [UInt32.toNat_toUInt64, UInt32.toNat_toUInt64]
    omega
  refine ⟨_, hu.mul hsize, ?_⟩
  rw [UInt64.toNat_mul, Nat.mod_eq_of_lt hsize, UInt32.toNat_toUInt64, UInt32.toNat_toUInt64]

/-! ## The general path

The path for `n` from 1 to 31, expression by expression. Each is shown to have no undefined shift or
subtraction and to have the value of the corresponding one on natural numbers. -/

theorem toNat_low_flip (q : UInt64) : ((q &&& 1) ^^^ 1).toNat = 1 - q.toNat % 2 := by
  rw [UInt64.toNat_xor, UInt64.toNat_and]
  show (q.toNat &&& 1) ^^^ 1 = _
  rw [Nat.and_one_is_mod]
  rcases Nat.mod_two_eq_zero_or_one q.toNat with h | h <;> rw [h] <;> rfl

/-- The constant that is added before the shift. -/
theorem rounding_constant (hu : u.Right) (hlo : 1 ≤ n.toInt) (hhi : n.toInt ≤ 31) (q : UInt64) :
    ∃ k half r, sub n 1 = some k ∧ shl 1 k = some half
      ∧ u.sub (toUInt64 half) ((q &&& 1) ^^^ 1) = some r
      ∧ r.toNat = 2 ^ (n.toInt.toNat - 1) - (1 - q.toNat % 2) := by
  obtain ⟨k, hk, hkval⟩ := sub_one hlo
  obtain ⟨half, hhalf, hhalfval⟩ := shl_one (k := k) (by omega) (by omega)
  have hnat : (toUInt64 half).toNat = 2 ^ (n.toInt.toNat - 1) := by
    rw [toNat_toUInt64 (by rw [hhalfval]; positivity), hhalfval, hkval]
    rw [show (n.toInt - 1).toNat = n.toInt.toNat - 1 from by omega]
    exact Int.toNat_pow_of_nonneg (by decide) _
  have hpos : 0 < 2 ^ (n.toInt.toNat - 1) := Nat.two_pow_pos _
  have hle : ((q &&& 1) ^^^ 1).toNat ≤ (toUInt64 half).toNat := by
    rw [toNat_low_flip, hnat]
    omega
  refine ⟨k, half, _, hk, hhalf, hu.sub hle, ?_⟩
  rw [UInt64.toNat_sub_of_le _ _ (UInt64.le_iff_toNat_le.mpr hle), toNat_low_flip, hnat]

/-- What is shifted, for `n` bits: truncation then rounds. -/
def rounded (a b : UInt32) (n : Int32) : Nat :=
  let half := 2 ^ (n.toInt.toNat - 1)
  let t := a.toNat * b.toNat
  (t + (half - (1 - t / (2 * half) % 2))) / (2 * half)

theorem toNat_saturated (x : Nat) : (UInt32.ofNat (min x 4294967295)).toNat = min x 4294967295 :=
  UInt32.toNat_ofNat_of_lt' (lt_of_le_of_lt (Nat.min_le_right _ _) (by decide))

/-- The last step of the general path. -/
theorem saturate (ans : UInt64) :
    (if ans > uint32Max then uint32Max.toUInt32 else ans.toUInt32)
      = UInt32.ofNat (min ans.toNat 4294967295) := by
  apply UInt32.toNat_inj.mp
  rw [toNat_saturated]
  split
  · next hgt =>
    have hlt : 4294967295 < ans.toNat := UInt64.lt_iff_toNat_lt.mp hgt
    rw [Nat.min_eq_right (by omega)]
    rfl
  · next hle =>
    have hle' : ans.toNat ≤ 4294967295 := not_lt.mp fun h => hle (UInt64.lt_iff_toNat_lt.mpr h)
    rw [Nat.min_eq_left hle', UInt64.toNat_toUInt32]
    exact Nat.mod_eq_of_lt (by omega)

/-- **The general path**: no operation wraps, and the result saturates after rounding. In the
wrapping arithmetic of the source and in one that is undefined where the source would wrap, the
result is the same. -/
theorem fixedMulWith_eq (hu : u.Right) (hlo : 1 ≤ n.toInt) (hhi : n.toInt ≤ 31) :
    fixedMulWith u a b n = some (UInt32.ofNat (min (rounded a b n) 4294967295)) := by
  obtain ⟨t, hmul, ht⟩ := mul_eq hu a b
  obtain ⟨q, hq, hqval⟩ := shr_eq (k := n) (t := t) (by omega) (by omega)
  obtain ⟨k, half, r, hk, hhalf, hr, hrval⟩ := rounding_constant hu hlo hhi q
  have hpow : 2 ^ n.toInt.toNat = 2 * 2 ^ (n.toInt.toNat - 1) := by
    rw [← pow_succ', Nat.sub_add_cancel (by omega)]
  have hsmall : 2 ^ (n.toInt.toNat - 1) ≤ 2 ^ 30 :=
    Nat.pow_le_pow_right two_pos (by omega)
  -- the largest product leaves more room than the constant needs
  have hsum : t.toNat + r.toNat < 2 ^ 64 := by
    have hle := product_le a b
    omega
  obtain ⟨ans, hans, hansval⟩ := shr_eq (k := n) (t := t + r) (by omega) (by omega)
  have hval : ans.toNat = rounded a b n := by
    rw [hansval, UInt64.toNat_add, Nat.mod_eq_of_lt hsum, hrval, hqval, ht, hpow]
    rfl
  have hne : n ≠ 32 := by
    intro h
    rw [h] at hhi
    exact absurd hhi (by decide)
  unfold fixedMulWith
  rw [if_neg hne]
  simp only [hmul, hk, hhalf, hq, hr, hu.add hsum, hans, Option.bind_eq_bind, Option.bind_some]
  rw [← hval, saturate]

/-! ## The rounded quotient

The source rounds by adding a constant before it shifts, one less if the quotient is even. This is
rounding to the nearest integer with ties to even, by the general fact about that method. -/

/-- The exact quotient over an even divisor, in the form of the rounding library. -/
theorem quotient_eq (hlo : 1 ≤ n.toInt) :
    quotient a b n = (a.toNat * b.toNat : ℕ) / (2 * 2 ^ (n.toInt.toNat - 1) : ℕ) := by
  unfold quotient
  rw [← pow_succ', Nat.sub_add_cancel (by omega)]

/-- What the general path computes is the rounded quotient. -/
theorem rounded_eq (hlo : 1 ≤ n.toInt) : (rounded a b n : ℤ) = roundEven (quotient a b n) := by
  rw [eq_comm, roundEven_eq_iff, quotient_eq hlo]
  exact nearestEven_add_half (Nat.two_pow_pos _)

/-- **`fixed_mul` rounds.** For `n` from 1 to 31 the result is the exact quotient, rounded to the
nearest integer with ties to even, or the largest value if that does not fit. No operation of
`int` is undefined, and none of `uint64_t` wraps. -/
theorem fixed_mul_rounds (a b : UInt32) (n : Int32) (hlo : 1 ≤ n.toInt) (hhi : n.toInt ≤ 31) :
    ∃ m, fixedMul a b n = some m ∧ fixedMulWith U64.exact a b n = some m
      ∧ (m.toNat : ℤ) = min (roundEven (quotient a b n)) (2 ^ 32 - 1) := by
  refine ⟨_, fixedMulWith_eq U64.wrapping_right hlo hhi, fixedMulWith_eq U64.exact_right hlo hhi,
    ?_⟩
  rw [toNat_saturated, ← rounded_eq hlo]
  exact Nat.cast_min _ _

/-- The largest product saturates. -/
theorem fixed_mul_rounds_largest : ∃ m, fixedMul 4294967295 4294967295 1 = some m
    ∧ fixedMulWith U64.exact 4294967295 4294967295 1 = some m
    ∧ (m.toNat : ℤ) = min (roundEven (quotient 4294967295 4294967295 1)) (2 ^ 32 - 1) :=
  fixed_mul_rounds 4294967295 4294967295 1 (by decide) (by decide)

/-! ## All 32 bits

For `n = 32` the source has a path of its own, which shifts and does not round. -/

/-- The result of this path: the upper half of the product, whatever the lower is. -/
theorem fixedMul_full (a b : UInt32) :
    fixedMul a b 32 = some (UInt32.ofNat (a.toNat * b.toNat / 2 ^ 32)) := by
  obtain ⟨t, hmul, ht⟩ := mul_eq U64.wrapping_right a b
  obtain ⟨q, hq, hqval⟩ := shr_eq (k := 32) (t := t) (by decide) (by decide)
  unfold fixedMul fixedMulWith
  rw [if_pos rfl]
  simp only [hmul, hq, Option.bind_eq_bind, Option.bind_some]
  have hval : q.toNat = a.toNat * b.toNat / 2 ^ 32 := by
    rw [hqval, ht]
    rfl
  rw [← hval]
  congr 1

/-- **The path of `n = 32`** drops the fraction: it agrees with the rule of the others exactly if
that rounds down. -/
theorem fixed_mul_full_iff (a b : UInt32) :
    (∃ m, fixedMul a b 32 = some m ∧ (m.toNat : ℤ) = roundEven (quotient a b 32))
      ↔ a.toNat * b.toNat % 2 ^ 32 < 2 ^ 31 ∨ a.toNat * b.toNat % 2 ^ 33 = 2 ^ 31 := by
  have hle := product_le a b
  have htrunc : roundEven (quotient a b 32) = ((a.toNat * b.toNat / 2 ^ 32 : ℕ) : ℤ)
      ↔ 2 * (a.toNat * b.toNat % 2 ^ 32) < 2 ^ 32
        ∨ (2 * (a.toNat * b.toNat % 2 ^ 32) = 2 ^ 32 ∧ a.toNat * b.toNat / 2 ^ 32 % 2 = 0) := by
    rw [roundEven_eq_iff]
    exact nearestEven_trunc_iff (by decide)
  have hval : (UInt32.ofNat (a.toNat * b.toNat / 2 ^ 32)).toNat = a.toNat * b.toNat / 2 ^ 32 :=
    UInt32.toNat_ofNat_of_lt' (by
      show _ < 4294967296
      omega)
  constructor
  · intro ⟨m, hm, hround⟩
    cases (fixedMul_full a b).symm.trans hm
    rw [hval, eq_comm, htrunc] at hround
    omega
  · intro hcond
    refine ⟨_, fixedMul_full a b, ?_⟩
    rw [hval, eq_comm, htrunc]
    omega

/-- The product `2^32 - 1` is truncated to zero and rounds to one. -/
theorem fixed_mul_full_truncates : fixedMul 4294967295 1 32 = some 0
    ∧ roundEven (quotient 4294967295 1 32) = 1 := by
  constructor
  · exact fixedMul_full 4294967295 1
  · rw [roundEven_eq_iff]
    exact (nearestEven_div_iff (by decide)).mpr (by decide)

end HseDev.Sem9
