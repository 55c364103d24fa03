import Mathlib.Logic.Function.Basic
import Mathlib.Data.List.Basic

/-!
# Descriptor tables

The descriptor table of a process: which open file a descriptor number refers to. The
numbers may be of any type, so that a program may keep `-1` in a descriptor variable;
what a file is stays open too. A `fork` copies a table, so two processes with the same
past have equal tables and go on with one each.

* **`install`** / **`close`** / **`dup2`** — what opening, closing and duplicating do.
* **`closeAll`** — closing one descriptor after the other; **`closeAll_eq`**: descriptors
  that were free in a table and are the only ones another table differs in close back to it.
* **`FdCall`** / **`runCalls`** — the calls a program makes on its table, one after the other;
  **`runCalls_move`** and **`runCalls_move_eq_some`**: a file moved to another number.
* **`LowestFree`** — the number that a call which opens something is given.
-/

namespace Descriptors

variable {ι ρ : Type*} [DecidableEq ι]

/-- The open file of each descriptor; `none` where none is open. -/
abbrev Table (ι ρ : Type*) := ι → Option ρ

def Table.install (t : Table ι ρ) (fd : ι) (file : ρ) : Table ι ρ :=
  Function.update t fd (some file)

def Table.close (t : Table ι ρ) (fd : ι) : Table ι ρ :=
  Function.update t fd none

/-- `dup2(old, new)`; nothing happens if `old` is not open. -/
def Table.dup2 (t : Table ι ρ) (old new : ι) : Table ι ρ :=
  match t old with
  | some file => t.install new file
  | none => t

/-- `close` of each descriptor of a list. -/
def Table.closeAll (t : Table ι ρ) (fds : List ι) : Table ι ρ :=
  fds.foldl Table.close t

variable {t t₀ : Table ι ρ} {fd fd' : ι} {file : ρ}

@[simp] theorem install_self : t.install fd file fd = some file := by
  simp [Table.install]

theorem install_ne (h : fd' ≠ fd) : t.install fd file fd' = t fd' := by
  simp [Table.install, h]

@[simp] theorem close_self : t.close fd fd = none := by
  simp [Table.close]

theorem close_ne (h : fd' ≠ fd) : t.close fd fd' = t fd' := by
  simp [Table.close, h]

/-- What is still open after a `close` was open before, under another number. -/
theorem close_eq_some : t.close fd fd' = some file ↔ fd' ≠ fd ∧ t fd' = some file := by
  by_cases h : fd' = fd
  · simp [h]
  · simp [h, close_ne h]

theorem close_install (h : t fd = none) : (t.install fd file).close fd = t := by
  unfold Table.close Table.install
  rw [Function.update_idem, ← h, Function.update_eq_self]

/-- A `dup2` of an open descriptor installs its file, in place of what was there. -/
theorem dup2_of_open {old : ι} (h : t old = some file) (new : ι) :
    t.dup2 old new = t.install new file := by
  simp [Table.dup2, h]

/-! ## Closing what was opened

An error path closes what has been opened so far. If all of it was new, the table is the one that
the caller had. -/

/-- After a series of `close` calls the named numbers are closed and the others are as before. -/
theorem closeAll_apply (t : Table ι ρ) (fds : List ι) (fd : ι) :
    t.closeAll fds fd = if fd ∈ fds then none else t fd := by
  induction fds generalizing t with
  | nil => simp [Table.closeAll]
  | cons x fds ih =>
    show (t.close x).closeAll fds fd = _
    rw [ih]
    by_cases hmem : fd ∈ fds
    · simp [hmem]
    · by_cases hx : fd = x
      · simp [hx]
      · simp [hmem, hx, close_ne hx]

/-- **Closing restores a table.** If the numbers were free before, and nothing else has changed
since, then closing them leads back to the table there was. -/
theorem closeAll_eq {fds : List ι} (hfree : ∀ fd ∈ fds, t₀ fd = none)
    (hsame : ∀ fd, fd ∉ fds → t fd = t₀ fd) : t.closeAll fds = t₀ := by
  funext fd
  rw [closeAll_apply]
  by_cases hmem : fd ∈ fds
  · rw [if_pos hmem, hfree fd hmem]
  · rw [if_neg hmem, hsame fd hmem]

/-! ## Sequences of calls

A child that is to run another program sets up its descriptors by a fixed sequence of calls. What
such a sequence leaves is computed here. -/

/-- A call that changes the table without opening anything new. -/
inductive FdCall (ι : Type*) where
  | dup2 (old new : ι)
  | close (fd : ι)
  deriving DecidableEq, Repr

def Table.call (t : Table ι ρ) : FdCall ι → Table ι ρ
  | .dup2 old new => t.dup2 old new
  | .close fd => t.close fd

def Table.runCalls (t : Table ι ρ) (calls : List (FdCall ι)) : Table ι ρ :=
  calls.foldl Table.call t

@[simp] theorem runCalls_nil : t.runCalls [] = t := rfl

theorem runCalls_cons (call : FdCall ι) (calls : List (FdCall ι)) :
    t.runCalls (call :: calls) = (t.call call).runCalls calls := rfl

/-- A sequence in two parts is the second one in the table that the first one leaves. -/
theorem runCalls_append (calls calls' : List (FdCall ι)) :
    t.runCalls (calls ++ calls') = (t.runCalls calls).runCalls calls' :=
  List.foldl_append

/-- A sequence of `close` calls closes all its numbers. -/
theorem runCalls_close (fds : List ι) : t.runCalls (fds.map .close) = t.closeAll fds :=
  List.foldl_map

/-- **A moved file**: `dup2` to another number and `close` of the old one. The file is the same,
only its number is another one, and no other number is touched. -/
theorem runCalls_move {old new : ι} (hopen : t old = some file) (fd : ι) :
    t.runCalls [.dup2 old new, .close old] fd
      = if fd = old then none else if fd = new then some file else t fd := by
  show ((t.dup2 old new).close old) fd = _
  rw [dup2_of_open hopen]
  by_cases hold : fd = old
  · rw [if_pos hold, hold, close_self]
  · rw [if_neg hold, close_ne hold]
    by_cases hnew : fd = new
    · rw [if_pos hnew, hnew, install_self]
    · rw [if_neg hnew, install_ne hnew]

/-- Where a file is found after the move. -/
theorem runCalls_move_eq_some {old new : ι} {file' : ρ} (hopen : t old = some file) (fd : ι) :
    t.runCalls [.dup2 old new, .close old] fd = some file'
      ↔ fd ≠ old ∧ ((fd = new ∧ file = file') ∨ (fd ≠ new ∧ t fd = some file')) := by
  rw [runCalls_move hopen]
  split
  · next hold => simp [hold]
  · next hold =>
    split
    · next hnew =>
      subst hnew
      simp [hold]
    · next hnew => simp [hold, hnew]

/-! ## The lowest free number

POSIX gives every new descriptor the lowest number that is free. That is why a descriptor is new,
and why it can be one of the standard ones if those are closed. -/

structure LowestFree (t : Table Int ρ) (fd : Int) : Prop where
  nonneg : 0 ≤ fd
  free : t fd = none
  below : ∀ n, 0 ≤ n → n < fd → t n ≠ none

section LowestFree

variable {t : Table Int ρ} {fd n : Int}

/-- A number that is given as a natural number; on a concrete table both premises are decided. -/
theorem lowestFree_natCast (n : Nat) (hfree : t n = none) (hbelow : ∀ i : Nat, i < n → t i ≠ none) :
    LowestFree t n := by
  refine ⟨Int.natCast_nonneg n, hfree, fun fd hfd hlt => ?_⟩
  obtain ⟨i, rfl⟩ := Int.eq_ofNat_of_zero_le hfd
  exact hbelow i (Int.ofNat_lt.mp hlt)

/-- Every free number is at least as large. -/
theorem LowestFree.le (h : LowestFree t fd) (hn : 0 ≤ n) (hfree : t n = none) : fd ≤ n := by
  by_contra hlt
  exact h.below n hn (Int.not_le.mp hlt) hfree

/-- A new descriptor is none of the open ones. -/
theorem LowestFree.ne_of_open (h : LowestFree t fd) (hopen : t n ≠ none) : fd ≠ n := by
  intro heq
  exact hopen (heq ▸ h.free)

/-- Of two numbers handed out one after the other the second is larger. -/
theorem LowestFree.lt_next {file : ρ} {next : Int} (h : LowestFree t fd)
    (hnext : LowestFree (t.install fd file) next) : fd < next ∧ t next = none := by
  have hne : next ≠ fd := by
    intro heq
    have hfree := hnext.free
    rw [heq, install_self] at hfree
    cases hfree
  have hfree : t next = none := (install_ne hne).symm.trans hnext.free
  have hle : fd ≤ next := h.le hnext.nonneg hfree
  exact ⟨by omega, hfree⟩

end LowestFree

end Descriptors
