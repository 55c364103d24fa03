import Mathlib.Algebra.BigOperators.Group.Finset.Basic
import Mathlib.Algebra.Order.BigOperators.Group.Finset

/-!
# Tallies over numbered components

A system with the components `0, …, n - 1` counts something: how many of them are in a
phase, or what they still cost. `tally n weight g` adds the weights; the lemmas say what
happens to it when one component changes, and what a full or an empty count means.
-/

namespace Tally

variable {α : Type*} {n t : Nat} {weight : α → Nat} {g : Nat → α}

/-- The weights of the components below `n`. -/
def tally (n : Nat) (weight : α → Nat) (g : Nat → α) : Nat :=
  ∑ u ∈ Finset.range n, weight (g u)

/-- **One component changes.** The old weight of the component is exchanged for the new one.
Without subtraction, for `omega`. -/
theorem tally_update (weight : α → Nat) (g : Nat → α) (ht : t < n) (x : α) :
    tally n weight (Function.update g t x) + weight (g t) = tally n weight g + weight x := by
  have hmem : t ∈ Finset.range n := Finset.mem_range.mpr ht
  have hrest : ∑ u ∈ (Finset.range n).erase t, weight (Function.update g t x u)
      = ∑ u ∈ (Finset.range n).erase t, weight (g u) := by
    refine Finset.sum_congr rfl fun u hu => ?_
    rw [Function.update_of_ne (Finset.ne_of_mem_erase hu)]
  have hnew := Finset.sum_erase_add _ (fun u => weight (Function.update g t x u)) hmem
  have hold := Finset.sum_erase_add _ (fun u => weight (g u)) hmem
  simp only [hrest, Function.update_self] at hnew
  unfold tally
  omega

/-- A thread that gets lighter makes the tally no heavier. -/
theorem tally_update_le (weight : α → Nat) (g : Nat → α) (t : Nat) {x : α}
    (hx : weight x ≤ weight (g t)) : tally n weight (Function.update g t x) ≤ tally n weight g := by
  refine Finset.sum_le_sum fun u _ => ?_
  by_cases hut : u = t
  · rw [hut, Function.update_self]
    exact hx
  · rw [Function.update_of_ne hut]

theorem le_tally (weight : α → Nat) (g : Nat → α) (ht : t < n) : weight (g t) ≤ tally n weight g :=
  Finset.single_le_sum (f := fun u => weight (g u)) (fun _ _ => Nat.zero_le _)
    (Finset.mem_range.mpr ht)

/-- If nobody weighs anything the tally is zero. -/
theorem tally_eq_zero (h : ∀ u < n, weight (g u) = 0) : tally n weight g = 0 :=
  Finset.sum_eq_zero fun u hu => h u (Finset.mem_range.mp hu)

/-! ## Counting

With weights of zero and one the tally is a count, and it is full exactly if everybody counts. -/

/-- If each component counts for at most one, no more than `n` of them do. -/
theorem tally_le (h : ∀ x, weight x ≤ 1) : tally n weight g ≤ n := by
  have hle := Finset.sum_le_card_nsmul (Finset.range n) (fun u => weight (g u)) 1 fun u _ => h (g u)
  simpa [tally] using hle

/-- **A full count**: every component counts. With weights of at most one, a sum equal to the number
of components leaves no room for a zero. -/
theorem full_of_tally (h : ∀ x, weight x ≤ 1) (hfull : tally n weight g = n) :
    ∀ u < n, weight (g u) = 1 := by
  intro u hu
  by_contra hne
  have hzero : weight (g u) = 0 := by
    have hle := h (g u)
    omega
  -- the others alone cannot make up for `u`
  have hrest : ∑ v ∈ (Finset.range n).erase u, weight (g v) ≤ n - 1 := by
    have hle := Finset.sum_le_card_nsmul ((Finset.range n).erase u) (fun v => weight (g v)) 1
      fun v _ => h (g v)
    simpa [Finset.card_erase_of_mem (Finset.mem_range.mpr hu)] using hle
  have hsum := Finset.sum_erase_add _ (fun v => weight (g v)) (Finset.mem_range.mpr hu)
  unfold tally at hfull
  omega

/-- If everybody counts the tally is the number of threads. -/
theorem tally_of_full (h : ∀ u < n, weight (g u) = 1) : tally n weight g = n := by
  have hsum : tally n weight g = ∑ _u ∈ Finset.range n, 1 :=
    Finset.sum_congr rfl fun u hu => h u (Finset.mem_range.mp hu)
  simpa using hsum

end Tally
