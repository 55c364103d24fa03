import HseDev.Lib.Locked
import Mathlib.Tactic.Ring

/-!
# HseDev — the two threads of `sem23/main.c`

Each thread takes the spin lock once and calls `mutate` ten million times before it gives the
lock back. An increment of `x` is a load and a store.

* **`spin_counter`** — in every reachable state no increment of one thread falls between those
  of the other, none is lost, and what `main` prints is twice the number of iterations.
-/

namespace HseDev.Sem23.SpinMain

open Transition System ForkJoin Locked

def iterations : Nat := 10000000

/-- `(*x)++` on a `size_t` -/
def mutate (x : Nat) : Nat :=
  (x + 1) % 2 ^ 64

def load : Nat × Nat → Nat × Nat
  | (_, x) => (x, x)

def store : Nat × Nat → Nat × Nat
  | (r, _) => (r, mutate r)

/-- `thread_func`: the loop is inside the one section. -/
def threadFunc : Sections Nat Nat where
  count _ := 1
  entry _ _ := 0
  accesses _ _ := (List.replicate iterations [load, store]).flatten

/-- `main` prints `(int)s.x` -/
def main : Main (Guarded Nat) (List Int) where
  threads := 2
  start := []
  onJoin _ _ out := out
  onEnd s out := out ++ [(BitVec.ofNat 32 s.data).toInt]

def program : System (State (Guarded Nat) (Pc Nat) (List Int)) (ForkJoin.Event Act) :=
  system (body threadFunc .spin) main ⟨0, none⟩

/-! ## The loop

The ten million calls of `mutate` as one section of twenty million accesses, a load and a store in
turn. What the data is after any number of them is needed, as the lock may be held at any point of
the loop. -/

theorem length_accesses (n : Nat) :
    ((List.replicate n [load, store]).flatten).length = 2 * n := by
  induction n with
  | zero => rfl
  | succ n ih =>
    rw [List.replicate_succ, List.flatten_cons, List.length_append, ih]
    simp only [List.length_cons, List.length_nil]
    omega

theorem accesses_getElem? {n k : Nat} (hk : k < 2 * n) :
    ((List.replicate n [load, store]).flatten)[k]? =
      some (if k % 2 = 0 then load else store) := by
  induction n generalizing k with
  | zero => exact absurd hk (Nat.not_lt_zero k)
  | succ n ih =>
    rw [List.replicate_succ, List.flatten_cons]
    match k with
    | 0 | 1 => rfl
    | k + 2 =>
      have hrest := ih (k := k) (by omega)
      rw [Nat.add_mod_right]
      exact hrest

/-- After `k` accesses the data has grown by `k / 2`, and before a store the register holds it. -/
theorem runTo_threadFunc (t i : Nat) {k x : Nat} (hk : k ≤ 2 * iterations) (hx : x < 2 ^ 64) :
    (runTo threadFunc t i k x).2 = (x + k / 2) % 2 ^ 64 ∧
      (k % 2 = 1 → (runTo threadFunc t i k x).1 = (x + k / 2) % 2 ^ 64) := by
  induction k with
  | zero =>
    rw [runTo_zero]
    exact ⟨(Nat.mod_eq_of_lt hx).symm, fun h => absurd h (by decide)⟩
  | succ k ih =>
    obtain ⟨hdata, hreg⟩ := ih (Nat.le_of_succ_le hk)
    have hget : (threadFunc.accesses t i)[k]? = _ := accesses_getElem? hk
    rw [runTo_succ hget]
    rcases Nat.mod_two_eq_zero_or_one k with heven | hodd
    · -- a load
      have hhalf : (k + 1) / 2 = k / 2 := by omega
      rw [if_pos heven, hhalf]
      exact ⟨hdata, fun _ => hdata⟩
    · -- a store of the register
      have hhalf : (k + 1) / 2 = k / 2 + 1 := by omega
      rw [if_neg (by omega), hhalf]
      refine ⟨?_, fun h => absurd h (by omega)⟩
      show mutate (runTo threadFunc t i k x).1 = _
      rw [hreg hodd, mutate, Nat.mod_add_mod, Nat.add_assoc]

theorem effect_threadFunc (t i : Nat) {x : Nat} (hx : x < 2 ^ 64) :
    effect threadFunc t i x = (x + iterations) % 2 ^ 64 := by
  have hlen : (threadFunc.accesses t i).length = 2 * iterations := length_accesses iterations
  have hdata := (runTo_threadFunc t i (k := 2 * iterations) le_rfl hx).1
  rw [effect, hlen, hdata, Nat.mul_div_cancel_left _ Nat.zero_lt_two]

/-- The counter, from how often each thread has come to its end. -/
def total (c : Nat → Nat) : Nat :=
  (iterations * (c 0 + c 1)) % 2 ^ 64

/-- The total grows by the section of whichever thread comes to its end. -/
theorem isTotal_total : IsTotal threadFunc 2 0 total := by
  refine ⟨rfl, ?_⟩
  intro c t ht _
  have hlt : total c < 2 ^ 64 := Nat.mod_lt _ (Nat.two_pow_pos 64)
  rw [effect_threadFunc _ _ hlt, total, total, Nat.mod_add_mod]
  match t, ht with
  | 0, _ =>
    rw [Function.update_self, Function.update_of_ne (by decide)]
    ring_nf
  | 1, _ =>
    rw [Function.update_self, Function.update_of_ne (by decide)]
    ring_nf

/-! ## Runs

The counter stays far below `2 ^ 31`, so neither the `size_t` nor the `(int)` of the output wraps.
-/

variable {s : State (Guarded Nat) (Pc Nat) (List Int)}

/-- With two threads of one section each the total is far from the wrap-around. -/
theorem total_eq (h : program.Reachable s) :
    total (completed s.thread)
      = iterations * (completed s.thread 0 + completed s.thread 1) := by
  have h0 : completed s.thread 0 ≤ 1 := (completed_le_of_reachable h 0).1
  have h1 : completed s.thread 1 ≤ 1 := (completed_le_of_reachable h 1).1
  refine Nat.mod_eq_of_lt ?_
  unfold iterations
  omega

/-- Inside its loop a thread is alone: `x` is what it found and what it has added. -/
theorem data_inside (h : program.Reachable s) {t i k r : Nat}
    (hin : s.thread t = .inside i k r) :
    s.shared.data = iterations * (completed s.thread 0 + completed s.thread 1) + k / 2 := by
  obtain ⟨_, hk, hrun⟩ := (summary_of_reachable isTotal_total h).inside t i k r hin
  have hlen : (threadFunc.accesses t i).length = 2 * iterations := length_accesses iterations
  rw [hlen] at hk
  rw [total_eq h] at hrun
  have h0 : completed s.thread 0 ≤ 1 := (completed_le_of_reachable h 0).1
  have h1 : completed s.thread 1 ≤ 1 := (completed_le_of_reachable h 1).1
  have hfits : iterations * (completed s.thread 0 + completed s.thread 1) + k / 2 < 2 ^ 64 := by
    unfold iterations at hk ⊢
    omega
  have hvalue : s.shared.data = (runTo threadFunc t i k _).2 := congrArg Prod.snd hrun
  rw [hvalue, (runTo_threadFunc t i hk ((Nat.le_add_right _ _).trans_lt hfits)).1,
    Nat.mod_eq_of_lt hfits]

/-- **No increment is lost.** A free lock means that the counter is a multiple of the iterations;
inside the section it also counts those made so far, which nobody else can see; and the printed
number is twenty millions. -/
theorem spin_counter (h : program.Reachable s) :
    (s.shared.owner = none →
      s.shared.data = iterations * (completed s.thread 0 + completed s.thread 1)) ∧
    (∀ t i k r, s.thread t = .inside i k r →
      s.shared.data = iterations * (completed s.thread 0 + completed s.thread 1) + k / 2) ∧
    s.main = if s.ended then [20000000] else [] := by
  have hsummary := summary_of_reachable isTotal_total h
  have hfree : s.shared.owner = none → _ := fun h0 => (hsummary.free h0).trans (total_eq h)
  refine ⟨hfree, fun t i k r hin => data_inside h hin, ?_⟩
  rw [main_of_ended stuck (fun _ _ _ => rfl) h]
  cases hended : s.ended with
  | false =>
    rw [if_neg Bool.false_ne_true, if_neg Bool.false_ne_true]
    rfl
  | true =>
    have hbounds := Bounds.of_reachable stuck h
    have hdata := hfree (free_of_ended hsummary.exclusive hbounds hended)
    have h0 : completed s.thread 0 = 1 := completed_of_ended h hended (by decide)
    have h1 : completed s.thread 1 = 1 := completed_of_ended h hended (by decide)
    rw [h0, h1] at hdata
    rw [if_pos rfl, if_pos rfl]
    show [] ++ [(BitVec.ofNat 32 s.shared.data).toInt] = _
    rw [hdata]
    decide

/-- One thread is in its section and the other finds the lock taken. -/
theorem spin_counter_locked : ∃ s, program.Reachable s ∧
    ∀ t i k r, s.thread t = .inside i k r →
      s.shared.data = iterations * (completed s.thread 0 + completed s.thread 1) + k / 2 := by
  have hexec : ∃ s, program.Exec [.create, .create, .run 1 .lock, .run 0 .spin] s :=
    ⟨_, _, rfl, Run.cons (.create (by decide)) <| Run.cons (.create (by decide)) <|
      Run.cons (.run Nat.one_lt_two (.lock (by decide))) <|
      Run.single (.run Nat.zero_lt_two (.spin (by decide) rfl))⟩
  obtain ⟨s, hexec⟩ := hexec
  exact ⟨s, hexec.reachable, (spin_counter hexec.reachable).2.1⟩

end HseDev.Sem23.SpinMain
