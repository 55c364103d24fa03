import Mathlib.Logic.Function.Basic

/-!
# The eventfd counter

An `eventfd` descriptor as its users see it: a write adds to the counter, a read of a
positive counter returns it and resets it to `0`, a read of `0` blocks. A descriptor that
is not open is neither read nor changed; programs that ignore the result of the write
simply go on.
-/

namespace Eventfd

/-- A descriptor over its life time. -/
inductive Fd where
  | absent
  | opened (count : Nat)
  | closed
  deriving DecidableEq, Repr

/-- A descriptor as `eventfd(0, 0)` returns it. -/
def Fd.fresh : Fd := .opened 0

/-- `eventfd_read`: the value read and the descriptor afterwards, `none` while it blocks. -/
def Fd.read : Fd → Option (Nat × Fd)
  | .opened count => if count = 0 then none else some (count, .opened 0)
  | _ => none

/-- `eventfd_write`. -/
def Fd.write (fd : Fd) (value : Nat) : Fd :=
  match fd with
  | .opened count => .opened (count + value)
  | fd => fd

/-- A read of a counter that is zero has nothing to return: the reader waits. -/
@[simp] theorem Fd.read_zero : (Fd.opened 0).read = none := rfl

/-- A write adds to the counter, so that two writes before a read are seen as one. -/
@[simp] theorem Fd.write_opened (count value : Nat) :
    (Fd.opened count).write value = .opened (count + value) := rfl

/-- A read that returns found a positive counter. -/
theorem Fd.read_eq_some {fd fd' : Fd} {value : Nat} (h : fd.read = some (value, fd')) :
    fd = .opened value ∧ value ≠ 0 ∧ fd' = .opened 0 := by
  cases fd with
  | absent => cases h
  | closed => cases h
  | opened count =>
    by_cases hzero : count = 0
    · simp [Fd.read, hzero] at h
    · simp only [Fd.read, if_neg hzero, Option.some.injEq, Prod.mk.injEq] at h
      obtain ⟨rfl, rfl⟩ := h
      exact ⟨rfl, hzero, rfl⟩

end Eventfd
