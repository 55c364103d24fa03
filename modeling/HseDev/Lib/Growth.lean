import HseDev.Lib.Transition
import Mathlib.Algebra.BigOperators.Group.List.Basic
import Mathlib.Algebra.Order.Ring.Nat

/-!
# Geometric growth

A growable array by its sizes: how much it holds, how much it has room for, and the growths
so far. When an append does not fit, the new capacity is a fixed multiple of what the append
needs. What the elements are, and where they are kept, plays no part.

* **`Geometric`** — the invariant: no growth so far has moved more, in sum, than the present
  capacity, which is no larger than the factor times what is held.
* **`Geometric.append`** — an append keeps it, for every factor from 2 on.
* **`Geometric.moved_le`** — all growths together have moved at most the factor times what the
  array holds now, so an append costs a constant on average.
-/

namespace Growth

open Transition

/-- One growth: what was held, and the capacity before and after. -/
structure Resize where
  used : Nat
  before : Nat
  after : Nat

/-- A growable array by its sizes. -/
structure Sizes where
  used : Nat
  capacity : Nat
  growths : List Resize

def Sizes.empty : Sizes := { used := 0, capacity := 0, growths := [] }

/-- What all the growths together had to move. -/
def moved (growths : List Resize) : Nat :=
  (growths.map (·.used)).sum

@[simp] theorem moved_snoc (growths : List Resize) (r : Resize) :
    moved (growths ++ [r]) = moved growths + r.used := by
  simp [moved]

/-- Append `n` elements; an array that is too small gets `k` times what it needs. -/
def Sizes.append (k : Nat) (v : Sizes) (n : Nat) : Sizes :=
  if v.capacity < v.used + n then
    { used := v.used + n
      capacity := k * (v.used + n)
      growths := v.growths ++ [⟨v.used, v.capacity, k * (v.used + n)⟩] }
  else { v with used := v.used + n }

/-- An append that fits changes no capacity. -/
theorem Sizes.append_of_le {k n : Nat} {v : Sizes} (h : v.used + n ≤ v.capacity) :
    v.append k n = { v with used := v.used + n } :=
  if_neg (Nat.not_lt.mpr h)

/-- An append that does not fit gets `k` times what it needs, and everything held is moved. -/
theorem Sizes.append_of_lt {k n : Nat} {v : Sizes} (h : v.capacity < v.used + n) :
    v.append k n
      = { used := v.used + n
          capacity := k * (v.used + n)
          growths := v.growths ++ [⟨v.used, v.capacity, k * (v.used + n)⟩] } :=
  if_pos h

/-- Appends of any numbers of elements. -/
def system (k : Nat) : System Sizes Nat where
  init v := v = .empty
  step v n v' := v' = v.append k n

/-! ## The invariant

All growths so far have moved no more than the present capacity, and that is at most `k` times what
is held. The factor `k ≥ 2` makes room for the next growth in that budget. -/

structure Geometric (k : Nat) (v : Sizes) : Prop where
  fits : v.used ≤ v.capacity
  tight : v.capacity ≤ k * v.used
  paid : moved v.growths ≤ v.capacity
  grows : ∀ r ∈ v.growths, k * r.before < r.after

theorem geometric_empty (k : Nat) : Geometric k .empty where
  fits := Nat.le_refl 0
  tight := Nat.zero_le _
  paid := Nat.le_refl 0
  grows _ hr := absurd hr List.not_mem_nil

/-- **An append.** A growth moves what is held, and what is held and what was moved before
are each less than what is needed now. -/
theorem Geometric.append {k : Nat} {v : Sizes} (hk : 2 ≤ k) (h : Geometric k v) (n : Nat) :
    Geometric k (v.append k n) := by
  have hfits := h.fits
  have htight := h.tight
  have hpaid := h.paid
  by_cases hgrow : v.capacity < v.used + n
  · have hdouble : 2 * (v.used + n) ≤ k * (v.used + n) := Nat.mul_le_mul_right _ hk
    rw [Sizes.append_of_lt hgrow]
    refine ⟨?_, Nat.le_refl _, ?_, ?_⟩
    · simp only
      omega
    · simp only [moved_snoc]
      omega
    · intro r hr
      rcases List.mem_append.mp hr with hold | hnew
      · exact h.grows r hold
      · rw [List.mem_singleton.mp hnew]
        exact Nat.mul_lt_mul_of_pos_left hgrow (by omega)
  · have hle := Nat.le_of_not_lt hgrow
    have hmul : k * v.used ≤ k * (v.used + n) := Nat.mul_le_mul_left k (Nat.le_add_right _ n)
    rw [Sizes.append_of_le hle]
    exact ⟨hle, Nat.le_trans htight hmul, hpaid, h.grows⟩

/-- The invariant holds after every run of appends, whatever their lengths. -/
theorem geometric_of_exec {k : Nat} {ns : List Nat} {v : Sizes} (hk : 2 ≤ k)
    (hrun : (system k).Exec ns v) : Geometric k v := by
  refine System.invariant (P := Geometric k) ?_ ?_ hrun.reachable
  · rintro v rfl
    exact geometric_empty k
  · rintro v n v' h rfl
    exact h.append hk n

/-- **What growing costs.** All the bytes that have ever been moved are at most a fixed multiple of
the bytes in use, so that an append is paid for in constant time on the average. -/
theorem Geometric.moved_le {k : Nat} {v : Sizes} (h : Geometric k v) :
    moved v.growths ≤ k * v.used :=
  Nat.le_trans h.paid h.tight

end Growth
