import Mathlib.Algebra.Order.Monoid.Unbundled.Pow
import Mathlib.Data.Int.Basic
import Mathlib.Tactic.Positivity

/-!
# Arithmetic on `int`

The operators of C on a signed 32-bit `int` and on `uint64_t`. An overflow of `int` and a shift
out of range are undefined: the result is `none`.

* **`ofInt?`** — a result, if `int` can represent it.
* **`mul`** / **`sub`** / **`shl`** — the operators; `shl_one` computes a power of two.
* **`shr`** — the shift of a `uint64_t`.
* **`U64`** — the other operators of `uint64_t`, which wrap (`U64.wrapping`) or stop where they
  would (`U64.exact`); **`U64.Right`** — what both have in common.
-/

namespace CInt

/-- An exact result, as an `int`. -/
def ofInt? (x : Int) : Option Int32 :=
  if -2 ^ 31 ≤ x ∧ x < 2 ^ 31 then some (Int32.ofInt x) else none

def mul (a b : Int32) : Option Int32 :=
  ofInt? (a.toInt * b.toInt)

def sub (a b : Int32) : Option Int32 :=
  ofInt? (a.toInt - b.toInt)

/-- `a << k` -/
def shl (a k : Int32) : Option Int32 :=
  if 0 ≤ a.toInt ∧ 0 ≤ k.toInt ∧ k.toInt < 32 then ofInt? (a.toInt * 2 ^ k.toInt.toNat) else none

/-- `x >> k` of a `uint64_t` -/
def shr (x : UInt64) (k : Int32) : Option UInt64 :=
  if 0 ≤ k.toInt ∧ k.toInt < 64 then some (x >>> UInt64.ofNat k.toInt.toNat) else none

/-- An `int` that is converted to `uint64_t`. -/
def toUInt64 (a : Int32) : UInt64 :=
  UInt64.ofInt a.toInt

/-- The operators of `uint64_t`. -/
structure U64 where
  add : UInt64 → UInt64 → Option UInt64
  sub : UInt64 → UInt64 → Option UInt64
  mul : UInt64 → UInt64 → Option UInt64

def U64.wrapping : U64 where
  add x y := some (x + y)
  sub x y := some (x - y)
  mul x y := some (x * y)

/-- No result for an operation that wraps. -/
def U64.exact : U64 where
  add x y := if x.toNat + y.toNat < 2 ^ 64 then some (x + y) else none
  sub x y := if y.toNat ≤ x.toNat then some (x - y) else none
  mul x y := if x.toNat * y.toNat < 2 ^ 64 then some (x * y) else none

/-- The result of an operation that does not wrap. -/
structure U64.Right (u : U64) : Prop where
  add {x y : UInt64} (h : x.toNat + y.toNat < 2 ^ 64) : u.add x y = some (x + y)
  sub {x y : UInt64} (h : y.toNat ≤ x.toNat) : u.sub x y = some (x - y)
  mul {x y : UInt64} (h : x.toNat * y.toNat < 2 ^ 64) : u.mul x y = some (x * y)

/-- The operations of the machine are right wherever the exact ones have a value. -/
theorem U64.wrapping_right : U64.wrapping.Right :=
  ⟨fun _ => rfl, fun _ => rfl, fun _ => rfl⟩

/-- The exact operations are right by definition: they have no other values. -/
theorem U64.exact_right : U64.exact.Right :=
  ⟨fun h => if_pos h, fun h => if_pos h, fun h => if_pos h⟩

variable {a b c k : Int32} {x : Int}

/-- An exact result is the `int` that has this value, if there is one. -/
theorem ofInt?_eq_some : ofInt? x = some c ↔ x = c.toInt := by
  have hlo := c.le_toInt
  have hhi := c.toInt_lt
  unfold ofInt?
  constructor
  · intro h
    split at h <;> cases h
    next hrange => exact (Int32.toInt_ofInt_of_le hrange.1 hrange.2).symm
  · intro h
    rw [h, if_pos ⟨hlo, hhi⟩, Int32.ofInt_toInt]

/-- Inside the bounds of an `int` there is a result. -/
theorem ofInt?_isSome (hlo : -2 ^ 31 ≤ x) (hhi : x < 2 ^ 31) :
    ∃ c, ofInt? x = some c ∧ c.toInt = x := by
  refine ⟨Int32.ofInt x, if_pos ⟨hlo, hhi⟩, ?_⟩
  exact Int32.toInt_ofInt_of_le hlo hhi

/-- A conversion to an unsigned type keeps a number that is not negative. -/
theorem toNat_toUInt64 (h : 0 ≤ a.toInt) : (toUInt64 a).toNat = a.toInt.toNat := by
  have hhi := a.toInt_lt
  show (UInt64.ofNat (a.toInt % 2 ^ 64).toNat).toNat = _
  rw [Int.emod_eq_of_lt h (by omega)]
  have hsize : a.toInt.toNat < UInt64.size := by
    show _ < 18446744073709551616
    omega
  exact UInt64.toNat_ofNat_of_lt' hsize

theorem shr_eq {t : UInt64} (hlo : 0 ≤ k.toInt) (hhi : k.toInt < 64) :
    ∃ r, shr t k = some r ∧ r.toNat = t.toNat / 2 ^ k.toInt.toNat := by
  refine ⟨_, if_pos ⟨hlo, hhi⟩, ?_⟩
  have hk : k.toInt.toNat < UInt64.size := by
    show _ < 18446744073709551616
    omega
  rw [UInt64.toNat_shiftRight, UInt64.toNat_ofNat_of_lt' hk, Nat.mod_eq_of_lt (by omega),
    Nat.shiftRight_eq_div_pow]

theorem shl_one (hlo : 0 ≤ k.toInt) (hhi : k.toInt ≤ 30) :
    ∃ r, shl 1 k = some r ∧ r.toInt = 2 ^ k.toInt.toNat := by
  have hpow : (2 : Int) ^ k.toInt.toNat ≤ 2 ^ 30 :=
    pow_le_pow_right₀ one_le_two (by omega)
  have hpos : (0 : Int) < 2 ^ k.toInt.toNat := by positivity
  unfold shl
  rw [if_pos ⟨by decide, hlo, by omega⟩, show (1 : Int32).toInt = 1 from rfl, one_mul]
  exact ofInt?_isSome (by omega) (by omega)

/-- Counting down from a positive number does not overflow. -/
theorem sub_one (hlo : 1 ≤ k.toInt) : ∃ r, sub k 1 = some r ∧ r.toInt = k.toInt - 1 := by
  have hhi := k.toInt_lt
  apply ofInt?_isSome
  · show -2 ^ 31 ≤ k.toInt - 1
    omega
  · show k.toInt - 1 < 2 ^ 31
    omega

end CInt
