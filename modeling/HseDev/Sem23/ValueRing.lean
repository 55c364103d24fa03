import HseDev.Lib.Locked
import Mathlib.Algebra.Group.Pi.Basic
import Mathlib.Tactic.IntervalCases

/-!
# HseDev — `sem23/task22_1.c`

Three threads share an array of three values. Under the mutex each adds `x` to its own value and
takes `x + 1` from its neighbour's, a million times. The values are `double`, but every number
that occurs is an integer below `2 ^ 53` in absolute value, so the arithmetic is that of `Int`.

* **`ring_values`** — in every reachable state: what each value is while the mutex is free, from
  how often the threads have come round; that their sum has gone down by one for each round;
  that all of them stay exact; and what `main` prints.
-/

namespace HseDev.Sem23.ValueRing

open Transition System ForkJoin Locked

def threadsCount : Nat := 3
def threadIterations : Nat := 1000000

/-- The local `x` and the register that a value is loaded into. -/
structure Regs where
  x : Int
  loaded : Int
  deriving DecidableEq, Repr

def load (j : Nat) : Regs × (Nat → Int) → Regs × (Nat → Int)
  | (r, values) => ({ r with loaded := values j }, values)

/-- `values[j] += x` -/
def add (j : Nat) : Regs × (Nat → Int) → Regs × (Nat → Int)
  | (r, values) => (r, Function.update values j (r.loaded + r.x))

/-- `values[j] -= x + 1` -/
def sub (j : Nat) : Regs × (Nat → Int) → Regs × (Nat → Int)
  | (r, values) => (r, Function.update values j (r.loaded - (r.x + 1)))

def next (threadId : Nat) : Nat :=
  (threadId + 1) % threadsCount

def x (threadId : Nat) : Int :=
  (threadId + 1) * 100

def threadFunc : Sections (Nat → Int) Regs where
  count _ := threadIterations
  entry t _ := ⟨x t, 0⟩
  accesses t _ := [load t, add t, load (next t), sub (next t)]

/-- `main` prints the three values. -/
def main : Main (Guarded (Nat → Int)) (List Int) where
  threads := threadsCount
  start := []
  onJoin _ _ out := out
  onEnd s out := out ++ (List.range threadsCount).map s.data

def program : System (State (Guarded (Nat → Int)) (Pc Regs) (List Int)) (ForkJoin.Event Act) :=
  system (body threadFunc .mutex) main ⟨fun _ => 0, none⟩

/-! ## What a round adds

A section changes two of the three values and, as the next thread is another one, independently of
each other. So a round is the addition of a fixed vector, and the rounds of the threads commute. -/

def delta (t : Nat) : Nat → Int :=
  fun j => (if j = t then x t else 0) - (if j = next t then x t + 1 else 0)

/-- The neighbour is another thread. -/
theorem next_ne (t : Nat) : next t ≠ t := by
  unfold next threadsCount
  omega

theorem effect_threadFunc (t i : Nat) (values : Nat → Int) :
    effect threadFunc t i values = values + delta t := by
  funext j
  have hother : Function.update values t (values t + x t) (next t) = values (next t) :=
    Function.update_of_ne (next_ne t) _ _
  show Function.update (Function.update values t (values t + x t)) (next t)
    (Function.update values t (values t + x t) (next t) - (x t + 1)) j = values j + delta t j
  rw [hother, delta]
  rcases eq_or_ne j (next t) with rfl | hnext
  · rw [Function.update_self, if_neg (next_ne t), if_pos rfl]
    omega
  · rw [Function.update_of_ne hnext, if_neg hnext]
    rcases eq_or_ne j t with rfl | hself
    · rw [Function.update_self, if_pos rfl, Int.sub_zero]
    · rw [Function.update_of_ne hself, if_neg hself, Int.sub_zero, Int.add_zero]

/-- The values, from how often each thread has come round. -/
def total (c : Nat → Nat) : Nat → Int :=
  ∑ t ∈ Finset.range threadsCount, ∑ _i ∈ Finset.range (c t), delta t

/-- The sum of the vectors is the total the rules of the lock ask for. -/
theorem isTotal_total : IsTotal threadFunc threadsCount (fun _ => 0) total := by
  have h : IsTotal threadFunc threadsCount 0 fun c => 0 + total c :=
    isTotal_sum effect_threadFunc
  simp only [zero_add] at h
  exact h

theorem total_apply (c : Nat → Nat) (j : Nat) :
    total c j = c 0 * delta 0 j + c 1 * delta 1 j + c 2 * delta 2 j := by
  simp [total, threadsCount, Finset.sum_range_succ]

/-- The thread whose neighbour has the value. -/
def prev (j : Nat) : Nat :=
  (j + 2) % threadsCount

/-- In closed form: a value depends on its own thread and on the one before it, and on nobody else.
-/
theorem total_eq (c : Nat → Nat) {j : Nat} (hj : j < threadsCount) :
    total c j = c j * x j - c (prev j) * (x (prev j) + 1) := by
  rw [total_apply]
  unfold threadsCount at hj
  interval_cases j <;> simp [delta, next, prev, x, threadsCount] <;> omega

/-! ## Runs

Every number that occurs is bounded by a few hundred millions, a long way from `2 ^ 53`. This is the
reason why the values may be integers in the model, so it has to hold in every state, inside the
sections too. -/

variable {s : State (Guarded (Nat → Int)) (Pc Regs) (List Int)}

theorem completed_le (h : program.Reachable s) (t : Nat) :
    completed s.thread t ≤ threadIterations :=
  (completed_le_of_reachable h t).1

/-- The bound while the mutex is free. -/
theorem natAbs_total_le {c : Nat → Nat} (hc : ∀ t, c t ≤ threadIterations) {j : Nat}
    (hj : j < threadsCount) : (total c j).natAbs ≤ 301 * threadIterations := by
  have h0 := hc 0
  have h1 := hc 1
  have h2 := hc 2
  rw [total_eq c hj]
  unfold threadsCount at hj
  interval_cases j <;> simp [prev, x, threadsCount] <;> omega

/-- What a section has made of one value is within a round of the total. -/
theorem natAbs_runTo_le {t i k j : Nat} (ht : t < threadsCount) (hk : k ≤ 4)
    (values : Nat → Int) :
    ((runTo threadFunc t i k values).2 j - values j).natAbs ≤ 301 := by
  have hx : 0 ≤ x t ∧ x t ≤ 300 := by
    unfold x
    unfold threadsCount at ht
    omega
  have hadd : (Function.update values t (values t + x t) j - values j).natAbs ≤ 300 := by
    rcases eq_or_ne j t with rfl | hself
    · rw [Function.update_self]
      omega
    · rw [Function.update_of_ne hself]
      omega
  match k, hk with
  | 0, _ | 1, _ =>
    show (values j - values j).natAbs ≤ 301
    omega
  | 2, _ | 3, _ => exact hadd.trans (by omega)
  | 4, _ =>
    have heffect := congrFun (effect_threadFunc t i values) j
    have hlast : (runTo threadFunc t i 4 values).2 j = values j + delta t j := heffect
    rw [hlast, delta]
    split <;> split <;> omega

/-- The bound in every state: inside a section at most one more round has been made in part. -/
theorem natAbs_data_le (h : program.Reachable s) {j : Nat} (hj : j < threadsCount) :
    (s.shared.data j).natAbs ≤ 301 * threadIterations + 301 := by
  have hsummary := summary_of_reachable isTotal_total h
  have hle := natAbs_total_le (completed_le h) hj
  cases howner : s.shared.owner with
  | none =>
    rw [hsummary.free howner]
    exact hle.trans (Nat.le_add_right _ _)
  | some t =>
    obtain ⟨i, k, r, hin⟩ := (hsummary.exclusive t).mpr howner
    obtain ⟨_, hk, hrun⟩ := hsummary.inside t i k r hin
    have ht : t < threadsCount := by
      have hbounds := Bounds.of_reachable stuck h
      by_contra hge
      rw [hbounds.entry t (hbounds.created_le.trans (Nat.not_lt.mp hge))] at hin
      cases hin
    have hdiff := natAbs_runTo_le (j := j) ht hk (total (completed s.thread)) (i := i)
    rw [← hrun] at hdiff
    simp only at hdiff
    omega

/-- **The ring of values.** While the mutex is free each value is known from the rounds of two
threads; the sum of the values has gone down by the number of rounds; no value reaches `2 ^ 53` at
any time; and the printed numbers are those of a million rounds each. -/
theorem ring_values (h : program.Reachable s) :
    (s.shared.owner = none → ∀ j < threadsCount, s.shared.data j
      = completed s.thread j * x j - completed s.thread (prev j) * (x (prev j) + 1)) ∧
    (s.shared.owner = none → ∑ j ∈ Finset.range threadsCount, s.shared.data j
      = - ∑ t ∈ Finset.range threadsCount, (completed s.thread t : Int)) ∧
    (∀ j < threadsCount, (s.shared.data j).natAbs < 2 ^ 53) ∧
    s.main = if s.ended then [-201000000, 99000000, 99000000] else [] := by
  have hsummary := summary_of_reachable isTotal_total h
  have hvalues : s.shared.owner = none → ∀ j < threadsCount, s.shared.data j
      = completed s.thread j * x j - completed s.thread (prev j) * (x (prev j) + 1) := by
    intro hfree j hj
    rw [hsummary.free hfree]
    exact total_eq _ hj
  refine ⟨hvalues, ?_, ?_, ?_⟩
  · intro hfree
    -- with the three values written out the sum is linear arithmetic
    have h0 : s.shared.data 0 = completed s.thread 0 * 100 - completed s.thread 2 * 301 :=
      hvalues hfree 0 (by decide)
    have h1 : s.shared.data 1 = completed s.thread 1 * 200 - completed s.thread 0 * 101 :=
      hvalues hfree 1 (by decide)
    have h2 : s.shared.data 2 = completed s.thread 2 * 300 - completed s.thread 1 * 201 :=
      hvalues hfree 2 (by decide)
    simp only [threadsCount, Finset.sum_range_succ, Finset.sum_range_zero]
    omega
  · intro j hj
    have hle := natAbs_data_le h hj
    unfold threadIterations at hle
    omega
  · rw [main_of_ended stuck (fun _ _ _ => rfl) h]
    cases hended : s.ended with
    | false =>
      rw [if_neg Bool.false_ne_true, if_neg Bool.false_ne_true]
      rfl
    | true =>
      -- at the end every thread has made its million rounds
      have hbounds := Bounds.of_reachable stuck h
      have hfree := free_of_ended hsummary.exclusive hbounds hended
      have hdone : ∀ t < threadsCount, (completed s.thread t : Int) = 1000000 := by
        intro t ht
        rw [completed_of_ended h hended ht]
        rfl
      have hlast : ∀ j < threadsCount, s.shared.data j
          = 1000000 * x j - 1000000 * (x (prev j) + 1) := by
        intro j hj
        have hprev : prev j < threadsCount := Nat.mod_lt _ (by decide)
        rw [hvalues hfree j hj, hdone j hj, hdone _ hprev]
      rw [if_pos rfl, if_pos rfl]
      show [] ++ [s.shared.data 0, s.shared.data 1, s.shared.data 2] = _
      rw [hlast 0 (by decide), hlast 1 (by decide), hlast 2 (by decide)]
      rfl

/-- Half a section: the own value has been written and the one of the neighbour has not. -/
theorem ring_values_first_round : ∃ s, program.Reachable s ∧
    ∀ j < threadsCount, (s.shared.data j).natAbs < 2 ^ 53 := by
  have hexec : ∃ s, program.Exec [.create, .run 0 .lock, .run 0 .access, .run 0 .access] s :=
    ⟨_, _, rfl, Run.cons (.create (by decide)) <|
      Run.cons (.run Nat.zero_lt_one (.lock (by decide))) <|
      Run.cons (.run Nat.zero_lt_one (.access rfl)) <|
      Run.single (.run Nat.zero_lt_one (.access rfl))⟩
  obtain ⟨s, hexec⟩ := hexec
  exact ⟨s, hexec.reachable, (ring_values hexec.reachable).2.2.1⟩

end HseDev.Sem23.ValueRing
