import Mathlib.Algebra.BigOperators.Group.Multiset.Basic
import Mathlib.Algebra.Order.BigOperators.Group.Multiset
import Mathlib.Algebra.Order.Group.Int

/-!
# Sums of `int`s

C leaves the overflow of an `int` undefined; what a compiler makes of `+` is the addition of the
machine, modulo `2 ^ 32`. It commutes, so sums of `int`s are sums over multisets, and they are
the sums of the integers as long as these are small enough.

* **`exact`** — the sum of the integers; **`magnitude`** — the sum of their absolute values.
* **`Fits`** — no part of the integers leaves `int`; **`toInt_sum`** — then the machine adds
  them exactly, in whatever order.
-/

namespace CInt

instance instAddCommMonoid : AddCommMonoid Int32 where
  add_assoc := Int32.add_assoc
  zero_add := Int32.zero_add
  add_zero := Int32.add_zero
  add_comm := Int32.add_comm
  nsmul := nsmulRec

/-- The sum of the integers that the `int`s stand for. -/
def exact (S : Multiset Int32) : Int :=
  (S.map Int32.toInt).sum

/-- The sum of the absolute values. -/
def magnitude (S : Multiset Int32) : Nat :=
  (S.map fun x => x.toInt.natAbs).sum

/-- No sum of some of the integers leaves `int`. -/
def Fits (S : Multiset Int32) : Prop :=
  magnitude S < 2 ^ 31

instance (S : Multiset Int32) : Decidable (Fits S) :=
  inferInstanceAs (Decidable (_ < _))

variable {S T : Multiset Int32} {a b : Int32}

theorem exact_add (S T : Multiset Int32) : exact (S + T) = exact S + exact T := by
  rw [exact, Multiset.map_add, Multiset.sum_add]
  rfl

/-- The exact sum is no farther from zero than all magnitudes together. -/
theorem natAbs_exact_le (S : Multiset Int32) : (exact S).natAbs ≤ magnitude S := by
  induction S using Multiset.induction with
  | empty => exact le_rfl
  | cons x S ih =>
    unfold exact magnitude at *
    rw [Multiset.map_cons, Multiset.sum_cons, Multiset.map_cons, Multiset.sum_cons]
    exact (Int.natAbs_add_le _ _).trans (Nat.add_le_add_left ih _)

/-- A part has no more magnitude than the whole. -/
theorem magnitude_mono (h : S ≤ T) : magnitude S ≤ magnitude T := by
  obtain ⟨U, rfl⟩ := Multiset.le_iff_exists_add.mp h
  unfold magnitude
  rw [Multiset.map_add, Multiset.sum_add]
  exact Nat.le_add_right _ _

/-- If the whole fits, so does every part: no order of the additions overflows. -/
theorem Fits.mono (hT : Fits T) (h : S ≤ T) : Fits S :=
  (magnitude_mono h).trans_lt hT

/-- A sum that fits is one of `int`. -/
theorem Fits.exact_bounds (h : Fits S) : -2 ^ 31 < exact S ∧ exact S < 2 ^ 31 := by
  have hle := (natAbs_exact_le S).trans_lt h
  omega

theorem toInt_add (hlo : -2 ^ 31 ≤ a.toInt + b.toInt) (hhi : a.toInt + b.toInt < 2 ^ 31) :
    (a + b).toInt = a.toInt + b.toInt := by
  rw [Int32.toInt_add]
  exact Int.bmod_eq_of_le (by omega) (by omega)

/-- **Sums that fit are exact.** If the absolute values together stay below `2 ^ 31` then no
addition overflows, in whatever order and grouping they are made. -/
theorem toInt_sum (h : Fits S) : S.sum.toInt = exact S := by
  induction S using Multiset.induction with
  | empty => rfl
  | cons x S ih =>
    have hrest : S.sum.toInt = exact S := ih (h.mono (Multiset.le_cons_self S x))
    have hcons : exact (x ::ₘ S) = x.toInt + exact S := by
      rw [exact, Multiset.map_cons, Multiset.sum_cons]
      rfl
    obtain ⟨hlo, hhi⟩ := h.exact_bounds
    rw [hcons, ← hrest] at hlo hhi
    rw [Multiset.sum_cons, toInt_add hlo.le hhi, hcons, hrest]

end CInt
