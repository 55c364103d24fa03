import Mathlib.Data.Nat.Prime.Basic
import Mathlib.Data.Nat.Sqrt
import Mathlib.Tactic.NormNum.Prime

/-!
# HseDev — `is_prime` of `sem23/task22_2.c`

Trial division by the odd numbers from `3` on, in 64-bit arithmetic that wraps around.

* **`isPrimeLoop_finds`** — a divisor that the loop meets before the test `i * i <= x` can
  fail ends it with `0`: a composite `x` has one below `2 ^ 32`, where nothing wraps.
* **`isPrimeLoop_passes`** — an `i` that fails the test ends it with `1` if no earlier one
  divides `x`. Up to `(2 ^ 32 - 1) ^ 2` that is the number after the root of `x`
  (`exit_of_small`); above, `i * i` wraps around, and what ends the loop for a prime is a
  square root of `-7` modulo `2 ^ 64` (`exit_of_large`), smaller than any such `x`.
* **`isPrime_eq`** — so the answer is right for all `x`.
-/

namespace HseDev.Sem23

/-- `for (uint64_t i = 3; i * i <= x; i += 2)` from `i` on; `none` when the fuel runs out. -/
def isPrimeLoop : Nat → UInt64 → UInt64 → Option Int32
  | 0, _, _ => none
  | fuel + 1, x, i =>
    if i * i ≤ x then
      if x % i = 0 then some 0 else isPrimeLoop fuel x (i + 2)
    else some 1

/-- The loop variable has come back to its start after this many rounds. -/
def isPrimeFuel : Nat := 2 ^ 64

def isPrime (x : UInt64) : Option Int32 :=
  if x < 2 then some 0
  else if x % 2 = 0 ∧ x ≠ 2 then some 0
  else isPrimeLoop isPrimeFuel x 3

/-! ## The tests of the loop, on numbers

The three expressions of the loop as statements about natural numbers, with the wrap-around of the
multiplication left visible. -/

/-- The loop condition compares the square modulo `2 ^ 64`, which need not be the square. -/
theorem square_le_iff {x i : UInt64} :
    i * i ≤ x ↔ i.toNat * i.toNat % 2 ^ 64 ≤ x.toNat := by
  rw [UInt64.le_iff_toNat_le, UInt64.toNat_mul]

theorem mod_eq_zero_iff {x i : UInt64} : x % i = 0 ↔ x.toNat % i.toNat = 0 := by
  rw [← UInt64.toNat_inj, UInt64.toNat_mod]
  rfl

theorem toNat_add_two {i : UInt64} (h : i.toNat + 2 < 2 ^ 64) : (i + 2).toNat = i.toNat + 2 := by
  rw [UInt64.toNat_add]
  exact Nat.mod_eq_of_lt h

/-! ## Two ways out of the loop

Both by induction on the number of rounds up to the way out. The first needs that no earlier test of
the condition fails, the second only that no earlier number divides; a wrapped square that fails the
test earlier gives the same answer. -/

/-- A divisor whose square is not above `x` is found. Induction on the rounds up to it. -/
theorem isPrimeLoop_finds {x : UInt64} {d : Nat} (hd : d * d ≤ x.toNat)
    (hdvd : x.toNat % d = 0) (k : Nat) :
    ∀ (i : UInt64) (fuel : Nat), i.toNat + 2 * k = d → k < fuel →
      (∀ j, i.toNat ≤ j → j < d → x.toNat % j ≠ 0) → isPrimeLoop fuel x i = some 0 := by
  have hx : x.toNat < 2 ^ 64 := x.toNat_lt
  induction k with
  | zero =>
    intro i fuel hi hfuel hfirst
    obtain ⟨fuel, rfl⟩ : ∃ n, fuel = n + 1 := ⟨fuel - 1, by omega⟩
    have hid : i.toNat = d := by omega
    have htest : i * i ≤ x := by
      rw [square_le_iff, hid, Nat.mod_eq_of_lt (by omega)]
      exact hd
    have hzero : x % i = 0 := by
      rw [mod_eq_zero_iff, hid]
      exact hdvd
    rw [isPrimeLoop, if_pos htest, if_pos hzero]
  | succ k ih =>
    intro i fuel hi hfuel hfirst
    obtain ⟨fuel, rfl⟩ : ∃ n, fuel = n + 1 := ⟨fuel - 1, by omega⟩
    have hlt : i.toNat < d := by omega
    have hsquare : i.toNat * i.toNat ≤ d * d := Nat.mul_le_mul hlt.le hlt.le
    have hdx : d < 2 ^ 64 := by
      have hself : d ≤ d * d := Nat.le_mul_self d
      omega
    have htest : i * i ≤ x := by
      rw [square_le_iff, Nat.mod_eq_of_lt (by omega)]
      omega
    have hnot : x % i ≠ 0 := by
      rw [ne_eq, mod_eq_zero_iff]
      exact hfirst i.toNat (Nat.le_refl _) hlt
    -- below `d`, whose square is at most `x`, neither `i * i` nor `i + 2` wraps
    have hnext : (i + 2).toNat = i.toNat + 2 := toNat_add_two (by omega)
    rw [isPrimeLoop, if_pos htest, if_neg hnot]
    refine ih (i + 2) fuel (by omega) (by omega) fun j hij hjd => hfirst j (by omega) hjd

/-- Without a divisor before it, a number that fails the test ends the loop with `1`. -/
theorem isPrimeLoop_passes {x : UInt64} {e : Nat} (he : e < 2 ^ 64)
    (hexit : x.toNat < e * e % 2 ^ 64) (k : Nat) :
    ∀ (i : UInt64) (fuel : Nat), i.toNat + 2 * k = e → k < fuel →
      (∀ j, i.toNat ≤ j → j < e → x.toNat % j ≠ 0) → isPrimeLoop fuel x i = some 1 := by
  induction k with
  | zero =>
    intro i fuel hi hfuel _
    obtain ⟨fuel, rfl⟩ : ∃ n, fuel = n + 1 := ⟨fuel - 1, by omega⟩
    have hie : i.toNat = e := by omega
    have htest : ¬ i * i ≤ x := by
      rw [square_le_iff, hie]
      omega
    rw [isPrimeLoop, if_neg htest]
  | succ k ih =>
    intro i fuel hi hfuel hnone
    obtain ⟨fuel, rfl⟩ : ∃ n, fuel = n + 1 := ⟨fuel - 1, by omega⟩
    by_cases htest : i * i ≤ x
    · have hnot : x % i ≠ 0 := by
        rw [ne_eq, mod_eq_zero_iff]
        exact hnone i.toNat (Nat.le_refl _) (by omega)
      have hnext : (i + 2).toNat = i.toNat + 2 := toNat_add_two (by omega)
      rw [isPrimeLoop, if_pos htest, if_neg hnot]
      exact ih (i + 2) fuel (by omega) (by omega) fun j hij hje => hnone j (by omega) hje
    · -- the square has wrapped around to a value above `x` before that
      rw [isPrimeLoop, if_neg htest]

/-! ## Where a prime leaves the loop

For a prime the answer is right as soon as some test of the condition fails before `i` reaches `x`
itself. Below `(2 ^ 32 - 1) ^ 2` the first number above the root does this. Above it the square of
such a number may wrap around to something small, and a number has to be named whose square,
wrapped, is above every prime of 64 bits. -/

/-- An odd `e` at which the loop leaves for `n`, not above `n`. -/
structure Exit (n e : Nat) : Prop where
  odd : e % 2 = 1
  three_le : 3 ≤ e
  fails : n < e * e % 2 ^ 64
  le : e ≤ n

/-- Without wrap-around the loop leaves just after the square root. -/
theorem exit_of_small {n : Nat} (hn : 3 ≤ n) (hsmall : n < (2 ^ 32 - 1) * (2 ^ 32 - 1)) :
    ∃ e, Exit n e := by
  obtain ⟨r, hr⟩ : ∃ r, r = Nat.sqrt n := ⟨_, rfl⟩
  have hroot : r * r ≤ n := by
    rw [hr]
    exact Nat.sqrt_le n
  have hnext : n < (r + 1) * (r + 1) := by
    rw [hr]
    exact Nat.lt_succ_sqrt n
  have hone : 1 ≤ r := by
    by_contra h0
    have hzero : r = 0 := by omega
    subst hzero
    omega
  have hbound : r < 2 ^ 32 - 1 := by
    by_contra hge
    have hsquare := Nat.mul_le_mul (Nat.le_of_not_lt hge) (Nat.le_of_not_lt hge)
    omega
  have hle : r + 2 ≤ n ∨ r = 1 := by
    by_cases h1 : r = 1
    · exact Or.inr h1
    · have htwo : 2 * r ≤ r * r := Nat.mul_le_mul_right r (by omega)
      exact Or.inl (by omega)
  -- the first odd number above the root is `e`
  obtain ⟨e, hodd, hre, her, heven⟩ : ∃ e, e % 2 = 1 ∧ r + 1 ≤ e ∧ e ≤ r + 2 ∧ e < 2 ^ 32 := by
    by_cases hpar : r % 2 = 0
    · exact ⟨r + 1, by omega, by omega, by omega, by omega⟩
    · exact ⟨r + 2, by omega, by omega, by omega, by omega⟩
  have hlarge : (r + 1) * (r + 1) ≤ e * e := Nat.mul_le_mul hre hre
  have hnowrap : e * e ≤ (2 ^ 32 - 1) * (2 ^ 32 - 1) :=
    Nat.mul_le_mul (by omega) (by omega)
  refine ⟨e, hodd, by omega, ?_, by omega⟩
  rw [Nat.mod_eq_of_lt (by omega)]
  omega

/-- A square root of `-7` modulo `2 ^ 64`. -/
def sqrtNegSeven : Nat := 1852311383259529397

/-- Where squares wrap around, the loop leaves at the latest at the root of `-7`. -/
theorem exit_of_large {n : Nat} (hlarge : (2 ^ 32 - 1) * (2 ^ 32 - 1) ≤ n)
    (hn : n < 2 ^ 64 - 7) : Exit n sqrtNegSeven where
  odd := by decide
  three_le := by decide
  fails := by
    have hsquare : sqrtNegSeven * sqrtNegSeven % 2 ^ 64 = 2 ^ 64 - 7 := by decide
    omega
  le := by
    have hroot : sqrtNegSeven ≤ (2 ^ 32 - 1) * (2 ^ 32 - 1) := by decide
    omega

/-- The four odd numbers from `2 ^ 64 - 7` on have small divisors. -/
theorem top_not_prime {n : Nat} (hodd : n % 2 = 1) (hn : 2 ^ 64 - 7 ≤ n) (hlt : n < 2 ^ 64) :
    ¬ n.Prime := by
  have hdvd : ∃ d, 2 ≤ d ∧ d < n ∧ d ∣ n := by
    have hcases : n = 2 ^ 64 - 7 ∨ n = 2 ^ 64 - 5 ∨ n = 2 ^ 64 - 3 ∨ n = 2 ^ 64 - 1 := by omega
    rcases hcases with rfl | rfl | rfl | rfl
    · exact ⟨3, by decide, by decide, by decide⟩
    · exact ⟨11, by decide, by decide, by decide⟩
    · exact ⟨13, by decide, by decide, by decide⟩
    · exact ⟨3, by decide, by decide, by decide⟩
  obtain ⟨d, htwo, hdn, hd⟩ := hdvd
  intro hprime
  rcases hprime.eq_one_or_self_of_dvd d hd with h | h <;> omega

/-- For every odd prime there is a way out, by the size of the prime. -/
theorem exists_exit {n : Nat} (hprime : n.Prime) (hn : 3 ≤ n) (hlt : n < 2 ^ 64) :
    ∃ e, Exit n e := by
  have hodd : n % 2 = 1 := by
    rcases hprime.eq_two_or_odd with h | h <;> omega
  by_cases hsmall : n < (2 ^ 32 - 1) * (2 ^ 32 - 1)
  · exact exit_of_small hn hsmall
  · refine ⟨_, exit_of_large (by omega) ?_⟩
    by_contra htop
    exact top_not_prime hodd (by omega) hlt hprime

/-! ## The answer

The tests before the loop handle `0`, `1` and the even numbers; 2 passes them and leaves the loop at
once. -/

/-- Past the two tests before it, the answer is that of the loop. -/
theorem isPrime_eq_loop {x : UInt64} (h : x.toNat = 2 ∨ (3 ≤ x.toNat ∧ x.toNat % 2 = 1)) :
    isPrime x = isPrimeLoop isPrimeFuel x 3 := by
  have hlow : ¬ x < 2 := by
    rw [UInt64.lt_iff_toNat_lt]
    show ¬ x.toNat < 2
    omega
  have heven : ¬ (x % 2 = 0 ∧ x ≠ 2) := by
    rintro ⟨hzero, hne⟩
    have hmod : x.toNat % 2 = 0 := mod_eq_zero_iff.mp hzero
    rcases h with htwo | hodd
    · exact hne (UInt64.toNat_inj.mp htwo)
    · omega
  rw [isPrime, if_neg hlow, if_neg heven]

/-- A prime has no divisor for the loop to find, so it leaves by the condition. -/
theorem isPrime_of_prime {x : UInt64} (hprime : x.toNat.Prime) : isPrime x = some 1 := by
  have hx : x.toNat < 2 ^ 64 := x.toNat_lt
  have htwo : 2 ≤ x.toNat := hprime.two_le
  by_cases hsmall : x.toNat = 2
  · rw [isPrime_eq_loop (Or.inl hsmall)]
    exact isPrimeLoop_passes (e := 3) (by decide) (by rw [hsmall]; decide) 0 3 isPrimeFuel rfl
      (by decide) fun j hj hje => absurd hje (Nat.not_lt.mpr hj)
  · have hodd : x.toNat % 2 = 1 := by
      rcases hprime.eq_two_or_odd with h | h <;> omega
    rw [isPrime_eq_loop (Or.inr ⟨by omega, hodd⟩)]
    obtain ⟨e, hexit⟩ := exists_exit hprime (by omega) hx
    have hthree := hexit.three_le
    have heodd := hexit.odd
    have hle := hexit.le
    have hstart : (3 : UInt64).toNat = 3 := rfl
    refine isPrimeLoop_passes (by omega) hexit.fails ((e - 3) / 2) 3 isPrimeFuel
      (by rw [hstart]; omega) (by rw [isPrimeFuel]; omega) fun j hj hje hzero => ?_
    rw [hstart] at hj
    rcases hprime.eq_one_or_self_of_dvd j (Nat.dvd_of_mod_eq_zero hzero) with h | h <;> omega

/-- A composite odd number has a least divisor, which is odd, and whose square is not above the
number; the loop meets it before anything wraps. -/
theorem isPrime_of_not_prime {x : UInt64} (hcomposite : ¬ x.toNat.Prime) :
    isPrime x = some 0 := by
  have hx : x.toNat < 2 ^ 64 := x.toNat_lt
  by_cases hlow : x < 2
  · rw [isPrime, if_pos hlow]
  by_cases heven : x % 2 = 0 ∧ x ≠ 2
  · rw [isPrime, if_neg hlow, if_pos heven]
  have htwo : 2 ≤ x.toNat := by
    rw [UInt64.lt_iff_toNat_lt] at hlow
    exact Nat.le_of_not_lt hlow
  have hne : x.toNat ≠ 2 := by
    intro h
    rw [h] at hcomposite
    exact hcomposite Nat.prime_two
  have hodd : x.toNat % 2 = 1 := by
    by_contra hpar
    refine heven ⟨mod_eq_zero_iff.mpr (show x.toNat % 2 = 0 by omega), fun h => hne ?_⟩
    rw [h]
    rfl
  rw [isPrime_eq_loop (Or.inr ⟨by omega, hodd⟩)]
  -- the least divisor is the one the loop finds
  obtain ⟨d, hd⟩ : ∃ d, d = x.toNat.minFac := ⟨_, rfl⟩
  have hdvd : d ∣ x.toNat := by
    rw [hd]
    exact Nat.minFac_dvd _
  have hdprime : d.Prime := by
    rw [hd]
    exact Nat.minFac_prime (by omega)
  have hdodd : d % 2 = 1 := by
    rcases hdprime.eq_two_or_odd with h | h
    · rw [h] at hdvd
      omega
    · exact h
  have hdtwo := hdprime.two_le
  have hsquare : d * d ≤ x.toNat := by
    rw [hd, ← Nat.pow_two]
    exact Nat.minFac_sq_le_self (by omega) hcomposite
  have hself : d ≤ d * d := Nat.le_mul_self d
  have hstart : (3 : UInt64).toNat = 3 := rfl
  refine isPrimeLoop_finds hsquare (Nat.mod_eq_zero_of_dvd hdvd) ((d - 3) / 2) 3 isPrimeFuel
    (by rw [hstart]; omega) (by rw [isPrimeFuel]; omega) fun j hj hjd hzero => ?_
  rw [hstart] at hj
  have hle := Nat.minFac_le_of_dvd (by omega) (Nat.dvd_of_mod_eq_zero hzero)
  omega

/-- **Trial division decides primality, wrap-around included.** For every 64-bit number the loop
comes to an end, also where the square of `i` has been reduced modulo `2 ^ 64` in the condition. -/
theorem isPrime_eq (x : UInt64) : isPrime x = some (if x.toNat.Prime then 1 else 0) := by
  by_cases hprime : x.toNat.Prime
  · rw [if_pos hprime, isPrime_of_prime hprime]
  · rw [if_neg hprime, isPrime_of_not_prime hprime]

/-- **`is_prime` returns**, and it returns `1` exactly for the primes. -/
theorem isPrime_one_iff (x : UInt64) : ∃ r, isPrime x = some r ∧ (r = 1 ↔ x.toNat.Prime) := by
  refine ⟨_, isPrime_eq x, ?_⟩
  by_cases hprime : x.toNat.Prime
  · rw [if_pos hprime]
    exact iff_of_true rfl hprime
  · rw [if_neg hprime]
    exact iff_of_false (by decide) hprime

end HseDev.Sem23
