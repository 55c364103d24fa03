import HseDev.Lib.Locked
import Mathlib.Algebra.BigOperators.Intervals
import Mathlib.Algebra.BigOperators.Ring.Finset
import Mathlib.Algebra.Order.BigOperators.Group.Finset
import Mathlib.Algebra.Order.Group.Int.Sum
import Mathlib.Tactic.Ring
import Mathlib.Tactic.NormNum

/-!
# HseDev — `mutex_simple.c` and `spinlock_simple.c` of `sem23`

Ten threads add `tmp % magic` for `tmp = 0, 1, …` to one `value`, each under the lock. The two
programs differ only in what a thread does that finds the lock taken, so they are one
definition with that as a parameter. `ctx->value += …` is a load and a store.

* **`locked_sum`** — in every reachable state at most one thread is between its lock and its
  unlock, a free lock means that `value` is the sum of what the threads have added so far,
  `value` fits in `int64_t`, and what `main` prints is ten times the sum of one thread.
* **`locked_terminates`** — no deadlock, and a bound on the steps that are not a spin.
* **`sum_tmod`** — the sum of one thread in closed form.
-/

namespace HseDev.Sem23.LockedSums

open Transition System ForkJoin Locked

def threadsCount : Nat := 10
def threadIterations : Nat := 1000000

/-- A `magic` that `%` is defined for. With zero the first `%` of a thread is undefined and the
program has no run to follow. -/
abbrev Magic := { m : Int // m ≠ 0 }

/-- `argc > 1 ? atoi(argv[1]) : 17`, if the threads can compute with it. -/
def magicOf (arg : Option Int32) : Option Magic :=
  if h : (arg.getD 17).toInt ≠ 0 then some ⟨_, h⟩ else none

/-- The local `tmp` and the register that `value` is loaded into. -/
structure Regs where
  tmp : Int
  loaded : Int
  deriving DecidableEq, Repr

def load : Regs × Int → Regs × Int
  | (r, value) => ({ r with loaded := value }, value)

def store (magic : Magic) : Regs × Int → Regs × Int
  | (r, _) => (r, r.loaded + r.tmp.tmod magic.1)

/-- `thread_func`: one section for each `i`, entered with `tmp = (int)i`. -/
def threadFunc (magic : Magic) : Sections Int Regs where
  count _ := threadIterations
  entry _ i := ⟨i, 0⟩
  accesses _ _ := [load, store magic]

/-- `main`: nothing between the joins, then the line it prints. -/
def main : Main (Guarded Int) (List Int) where
  threads := threadsCount
  start := []
  onJoin _ _ out := out
  onEnd ctx out := out ++ [ctx.data]

def program (kind : Kind) (magic : Magic) : System (State (Guarded Int) (Pc Regs) (List Int))
    (ForkJoin.Event Act) :=
  system (body (threadFunc magic) kind) main ⟨0, none⟩

/-! ## The sum

A section adds one remainder, so what the threads have added is a double sum, independent of their
order. The bounds are generous: a million times a million for each thread is far below `2 ^ 63`. -/

/-- What a thread has added after `i` sections. -/
def added (magic : Magic) (i : Nat) : Int :=
  ∑ j ∈ Finset.range i, (j : Int).tmod magic.1

/-- What all threads have added. -/
def total (magic : Magic) (c : Nat → Nat) : Int :=
  ∑ t ∈ Finset.range threadsCount, added magic (c t)

/-- A whole section, load and store, adds the remainder of its index. -/
theorem effect_threadFunc (magic : Magic) (t i : Nat) (value : Int) :
    effect (threadFunc magic) t i value = value + (i : Int).tmod magic.1 := rfl

/-- The double sum is what the rules of the lock ask for: it starts at 0 and grows by the effect of
a section. -/
theorem isTotal_total (magic : Magic) :
    IsTotal (threadFunc magic) threadsCount 0 (total magic) := by
  have h : IsTotal (threadFunc magic) threadsCount 0 fun c => 0 + total magic c :=
    isTotal_sum (effect_threadFunc magic)
  simp only [zero_add] at h
  exact h

/-- The remainder has the sign of the index and is no larger, whatever the sign of `magic`. -/
theorem natAbs_tmod_le (i : Nat) (magic : Magic) : ((i : Int).tmod magic.1).natAbs ≤ i := by
  rw [Int.natAbs_tmod, Int.natAbs_natCast]
  exact Nat.mod_le i magic.1.natAbs

/-- Each of at most a million summands is below a million. -/
theorem natAbs_added_le (magic : Magic) {i : Nat} (hi : i ≤ threadIterations) :
    (added magic i).natAbs ≤ threadIterations * threadIterations := by
  have hsum : (added magic i).natAbs ≤ ∑ j ∈ Finset.range i, ((j : Int).tmod magic.1).natAbs :=
    Int.natAbs_sum_le _ _
  have hle : ∑ j ∈ Finset.range i, ((j : Int).tmod magic.1).natAbs ≤ i * threadIterations := by
    have h := Finset.sum_le_card_nsmul (Finset.range i)
      (fun j => ((j : Int).tmod magic.1).natAbs) threadIterations (fun j hj =>
        (natAbs_tmod_le j magic).trans ((Finset.mem_range.mp hj).le.trans hi))
    simpa using h
  exact (hsum.trans hle).trans (Nat.mul_le_mul_right _ hi)

/-- Ten threads of at most a million sections. -/
theorem natAbs_total_le (magic : Magic) {c : Nat → Nat} (hc : ∀ t, c t ≤ threadIterations) :
    (total magic c).natAbs ≤ threadsCount * (threadIterations * threadIterations) := by
  have hsum : (total magic c).natAbs
      ≤ ∑ t ∈ Finset.range threadsCount, (added magic (c t)).natAbs :=
    Int.natAbs_sum_le _ _
  have h := Finset.sum_le_card_nsmul (Finset.range threadsCount)
    (fun t => (added magic (c t)).natAbs) (threadIterations * threadIterations)
    (fun t _ => natAbs_added_le magic (hc t))
  exact hsum.trans (by simpa using h)

/-- The remainders of `q` whole rounds and a part of another. -/
theorem sum_mod_block (m q r : Nat) (hr : r ≤ m) :
    ∑ j ∈ Finset.range (q * m + r), j % m
      = q * ∑ j ∈ Finset.range m, j + ∑ j ∈ Finset.range r, j := by
  induction q generalizing r with
  | zero =>
    rw [Nat.zero_mul, Nat.zero_add, Nat.zero_mul, Nat.zero_add]
    refine Finset.sum_congr rfl fun j hj => ?_
    exact Nat.mod_eq_of_lt ((Finset.mem_range.mp hj).trans_le hr)
  | succ q ih =>
    -- the last round starts over at remainder 0
    have hlast : ∑ j ∈ Finset.range r, (q * m + m + j) % m = ∑ j ∈ Finset.range r, j := by
      refine Finset.sum_congr rfl fun j hj => ?_
      rw [← Nat.succ_mul, Nat.mul_comm, Nat.mul_add_mod]
      exact Nat.mod_eq_of_lt ((Finset.mem_range.mp hj).trans_le hr)
    rw [Nat.succ_mul, Finset.sum_range_add, hlast, ih m le_rfl]
    ring

/-- **The sum of one thread.** Remainders repeat with the absolute value of `magic`, so the sum is
that of the whole periods and of a part of one. The sign of `magic` plays no part. -/
theorem sum_tmod (magic : Magic) (n : Nat) :
    added magic n = (n / magic.1.natAbs * ∑ j ∈ Finset.range magic.1.natAbs, j
      + ∑ j ∈ Finset.range (n % magic.1.natAbs), j : Nat) := by
  have hterm : ∀ j : Nat, (j : Int).tmod magic.1 = ((j % magic.1.natAbs : Nat) : Int) := by
    intro j
    rw [Int.tmod_eq_emod_of_nonneg (Int.natCast_nonneg j), Int.natCast_mod, Int.natCast_natAbs,
      Int.emod_abs]
  rcases Nat.eq_zero_or_pos magic.1.natAbs with hzero | hpos
  · rw [hzero, Nat.mod_zero, Finset.range_zero, Finset.sum_empty, Nat.mul_zero, Nat.zero_add,
      added, Nat.cast_sum]
    refine Finset.sum_congr rfl fun j _ => ?_
    rw [hterm, hzero, Nat.mod_zero]
  · rw [← sum_mod_block _ _ _ (Nat.mod_lt n hpos).le, Nat.div_add_mod', added, Nat.cast_sum]
    exact Finset.sum_congr rfl fun j _ => hterm j

/-! ## Runs

The rules of the lock say what `value` is while the lock is free and what it is inside a section.
What is added here are the bounds and the end, at which all sections are complete. -/

variable {kind : Kind} {magic : Magic} {s : State (Guarded Int) (Pc Regs) (List Int)}

theorem completed_le (h : (program kind magic).Reachable s) (t : Nat) :
    completed s.thread t ≤ threadIterations :=
  (completed_le_of_reachable h t).1

/-- Inside a section `value` is the total or already the next one. -/
theorem natAbs_value_le (h : (program kind magic).Reachable s) :
    s.shared.data.natAbs
      ≤ threadsCount * (threadIterations * threadIterations) + threadIterations := by
  have hsummary := summary_of_reachable (isTotal_total magic) h
  have hle := natAbs_total_le magic (completed_le h)
  cases howner : s.shared.owner with
  | none =>
    rw [hsummary.free howner]
    exact hle.trans (Nat.le_add_right _ _)
  | some t =>
    obtain ⟨i, k, r, hin⟩ := (hsummary.exclusive t).mpr howner
    obtain ⟨hi, hk, hrun⟩ := hsummary.inside t i k r hin
    have hvalue : s.shared.data = (runTo (threadFunc magic) t i k _).2 := congrArg Prod.snd hrun
    rw [hvalue]
    match k, hk with
    | 0, _ | 1, _ => exact hle.trans (Nat.le_add_right _ _)
    | 2, _ =>
      have hadd := Int.natAbs_add_le (total magic (completed s.thread)) ((i : Int).tmod magic.1)
      have hrem := natAbs_tmod_le i magic
      have hlt : i < threadIterations := hi
      exact hadd.trans (Nat.add_le_add hle (hrem.trans hlt.le))

/-- When `main` prints, every thread has gone round a million times. -/
theorem total_of_ended (h : (program kind magic).Reachable s) (hended : s.ended = true) :
    total magic (completed s.thread) = threadsCount * added magic threadIterations := by
  have hall : ∀ t ∈ Finset.range threadsCount,
      added magic (completed s.thread t) = added magic threadIterations := by
    intro t ht
    exact congrArg (added magic) (completed_of_ended h hended (Finset.mem_range.mp ht))
  rw [total, Finset.sum_congr rfl hall, Finset.sum_const, Finset.card_range, nsmul_eq_mul]

/-- **The locked sum.** At most one thread is inside; a free lock means the exact sum; the value
never leaves `int64_t`; and what is printed at the end is ten times the sum of one thread. For both
kinds of lock and any `magic` but zero. -/
theorem locked_sum (h : (program kind magic).Reachable s) :
    (∀ t u, (s.thread t).Inside → (s.thread u).Inside → t = u) ∧
    (s.shared.owner = none → s.shared.data
      = ∑ t ∈ Finset.range threadsCount, ∑ i ∈ Finset.range (completed s.thread t),
          (i : Int).tmod magic.1) ∧
    (-2 ^ 63 ≤ s.shared.data ∧ s.shared.data < 2 ^ 63) ∧
    s.main = if s.ended then
      [threadsCount * ∑ i ∈ Finset.range threadIterations, (i : Int).tmod magic.1] else [] := by
  have hsummary := summary_of_reachable (isTotal_total magic) h
  refine ⟨?_, hsummary.free, ?_, ?_⟩
  · intro t u ht hu
    have heq := (hsummary.exclusive t).mp ht
    rw [(hsummary.exclusive u).mp hu] at heq
    exact (Option.some.inj heq).symm
  · have hle := natAbs_value_le h
    norm_num [threadsCount, threadIterations] at hle
    omega
  · rw [main_of_ended stuck (fun _ _ _ => rfl) h]
    cases hended : s.ended with
    | false =>
      rw [if_neg Bool.false_ne_true, if_neg Bool.false_ne_true]
      rfl
    | true =>
      -- everybody has returned, so the lock is free and the total is complete
      have hbounds := Bounds.of_reachable stuck h
      have hfree := free_of_ended hsummary.exclusive hbounds hended
      have hdata : s.shared.data = threadsCount * added magic threadIterations := by
        rw [hsummary.free hfree, total_of_ended h hended]
      rw [if_pos rfl, if_pos rfl, ← added, ← hdata]
      rfl

/-! ## The end

Progress and termination. A spinning thread may go on for ever while another is not scheduled, so
what is bounded is the number of steps that are not a spin. -/

/-- A program that has not ended can go on with a step that is not a spin. -/
theorem ended_or_busy (h : (program kind magic).Reachable s) :
    s.ended = true ∨ ∃ a u, a.busy Act.busy = true ∧ (program kind magic).step s a u := by
  have hsummary := summary_of_reachable (isTotal_total magic) h
  have hbounds := Bounds.of_reachable stuck h
  refine ended_or_step hbounds (live hsummary.exclusive hbounds ?_)
  intro t i k r hin
  exact (hsummary.inside t i k r hin).2.1

/-- A section of a thread is four steps, and the others are those of `main` and a last one of
each thread. -/
theorem countP_busy_le {as : List (ForkJoin.Event Act)} (h : (program kind magic).Exec as s) :
    as.countP (ForkJoin.Event.busy Act.busy) ≤ threadsCount * (threadIterations * 4) + 21 := by
  have hle := busy_add_rank_le (w := work (threadFunc magic) 2) stuck
    (work_step (fun _ _ => rfl)) h
  have hrank : rank main (work (threadFunc magic) 2)
      (initial (body (threadFunc magic) kind) main ⟨0, none⟩)
        = threadsCount * (threadIterations * 4) + 21 := by
    simp [rank, initial, body, work, threadFunc, main, threadsCount]
  omega

/-- Whatever the lock does while it is taken, there is a run to the end. -/
theorem exists_ended (kind : Kind) (magic : Magic) :
    ∃ s, (program kind magic).Reachable s ∧ s.ended = true :=
  exists_done ⟨_, rfl⟩ (fun _ h => ended_or_busy h) fun _ _ h => countP_busy_le h

/-- Without an argument the spinning program comes to its end and prints 79999640. -/
theorem locked_sum_default : ∃ magic s, magicOf none = some magic ∧
    (program .spin magic).Reachable s ∧ s.ended = true ∧
    (∀ t u, (s.thread t).Inside → (s.thread u).Inside → t = u) ∧
    (s.shared.owner = none → s.shared.data
      = ∑ t ∈ Finset.range threadsCount, ∑ i ∈ Finset.range (completed s.thread t),
          (i : Int).tmod magic.1) ∧
    (-2 ^ 63 ≤ s.shared.data ∧ s.shared.data < 2 ^ 63) ∧ s.main = [79999640] := by
  obtain ⟨s, hs, hended⟩ := exists_ended .spin ⟨17, by decide⟩
  obtain ⟨hexclusive, hfree, hbounds, hmain⟩ := locked_sum hs
  refine ⟨_, s, rfl, hs, hended, hexclusive, hfree, hbounds, ?_⟩
  have hvalue : threadsCount * added ⟨17, by decide⟩ threadIterations = 79999640 := by
    rw [sum_tmod]
    decide
  rw [hmain, if_pos hended, ← hvalue]
  rfl

/-- **Every run comes to its end**: `main` has printed or there is a step that is not a spin,
and there are never more of those than forty million and twenty-one. -/
theorem locked_terminates {as : List (ForkJoin.Event Act)} (h : (program kind magic).Exec as s) :
    (s.ended = true ∨
      ∃ a u, a.busy Act.busy = true ∧ (program kind magic).step s a u) ∧
    as.countP (ForkJoin.Event.busy Act.busy) ≤ threadsCount * (threadIterations * 4) + 21 :=
  ⟨ended_or_busy h.reachable, countP_busy_le h⟩

theorem first_section : ∃ s, (program .spin ⟨17, by decide⟩).Exec
    [.create, .run 0 .lock, .run 0 .access, .run 0 .access, .run 0 .unlock] s := by
  exact ⟨_, _, rfl, Run.cons (.create (by decide)) <|
    Run.cons (.run Nat.zero_lt_one (.lock (by decide))) <|
    Run.cons (.run Nat.zero_lt_one (.access rfl)) <|
    Run.cons (.run Nat.zero_lt_one (.access rfl)) <|
    Run.single (.run Nat.zero_lt_one .unlock)⟩

/-- One section of one thread is five steps, with the creation of the thread. -/
theorem locked_terminates_first_section : ∃ as s, (program .spin ⟨17, by decide⟩).Exec as s ∧
    as.length = 5 ∧
    (s.ended = true ∨ ∃ a u, a.busy Act.busy = true ∧
      (program .spin ⟨17, by decide⟩).step s a u) ∧
    as.countP (ForkJoin.Event.busy Act.busy) ≤ threadsCount * (threadIterations * 4) + 21 := by
  obtain ⟨s, hexec⟩ := first_section
  exact ⟨_, s, hexec, rfl, locked_terminates hexec⟩

end HseDev.Sem23.LockedSums
