import HseDev.Sem22.InputSums
import Mathlib.Data.Multiset.AddSub

/-!
# HseDev — `sem22/race_condition.c`

All threads add what they read to the one `res` of `main`, without a lock.

* **`race_result`** — what every interleaving guarantees: `res` is always a sum of integers
  that have been read, each at most once; not all of them are lost; and a single thread loses
  none. The sums are those of the machine, and exact if the input fits into `int`.
* **`race_loses`** — from two threads on, every block of the input that has an integer before
  it can be lost.
-/

namespace HseDev.Sem22.RaceCondition

open Transition System ForkJoin InputSums CInt

/-- `main` prints `res`. -/
def main (threadCount : Nat) : Main Shared (List Int32) where
  threads := threadCount
  start := []
  onJoin _ _ out := out
  onEnd d out := out ++ [d.res 0]

/-- Every thread is given `&res`. -/
def program (threadCount : Nat) (input : List Int32) :
    System (State Shared Pc (List Int32)) (ForkJoin.Event Act) :=
  system (threadFunc fun _ => 0) (main threadCount) ⟨input, fun _ => 0⟩

variable {n : Nat} {input : List Int32} {s : State Shared Pc (List Int32)}
  {as : List (ForkJoin.Event Act)}

/-! ## What can be in `res`

`*res += x` is a load and a store, and other threads may store in between. A store then puts back an
old value with `x` added: what was stored meanwhile is lost, but what is written is again a sum of
integers that have been read, each once. That is all the invariant says. -/

/-- What the threads have read and not yet stored. -/
def pending (n : Nat) (th : Nat → Pc) : Multiset Int32 :=
  ∑ t ∈ Finset.range n, ((th t).pending : Multiset Int32)

/-- A step of one thread changes what is pending by the pending integer of that thread alone. -/
theorem pending_update {t : Nat} (ht : t < n) (th : Nat → Pc) (l : Pc) :
    pending n (Function.update th t l) + ((th t).pending : Multiset Int32)
      = pending n th + (l.pending : Multiset Int32) :=
  sum_update (w := fun _ l => (l.pending : Multiset Int32)) ht l

/-- What is in `res`, and in the registers of the threads between their load and their store:
sums of integers that were `read`, none of them still `pend`ing. -/
structure Counted (read pend : Multiset Int32) (res : Int32) (th : Nat → Pc) : Prop where
  stored : ∃ S : Multiset Int32, res = S.sum ∧ S + pend ≤ read ∧ (S = 0 → read = pend)
  loaded : ∀ t x r, th t = .store x r → ∃ S : Multiset Int32, r = S.sum ∧ S + pend ≤ read

/-- The registers of the other threads stay. -/
theorem Counted.loaded_update {read pend read' pend' : Multiset Int32} {res : Int32} {th : Nat → Pc}
    (h : Counted read pend res th) (hle : ∀ S, S + pend ≤ read → S + pend' ≤ read') {t : Nat}
    {l : Pc} (hl : ∀ x r, l = .store x r → ∃ S : Multiset Int32, r = S.sum ∧ S + pend' ≤ read') :
    ∀ v x r, Function.update th t l v = .store x r →
      ∃ S : Multiset Int32, r = S.sum ∧ S + pend' ≤ read' := by
  intro v x r hv
  rcases eq_or_ne v t with rfl | hne
  · rw [Function.update_self] at hv
    exact hl x r hv
  · rw [Function.update_of_ne hne] at hv
    obtain ⟨S, hsum, hS⟩ := h.loaded v x r hv
    exact ⟨S, hsum, hle S hS⟩

/-- The step lemma, by cases of the thread's event. The store is the interesting one: the set of
integers behind `res` becomes the one behind the loaded value, with the stored integer in it, so it
is not empty. -/
theorem counted_step {t : Nat} {a : Act} {d d' : Shared} {th : Nat → Pc} {l' : Pc} (ht : t < n)
    (h : Counted (readAll as) (pending n th) (d.res 0) th) (hstep : Step 0 d (th t) a d' l') :
    Counted (readAll (as ++ [.run t a])) (pending n (Function.update th t l')) (d'.res 0)
      (Function.update th t l') := by
  have hpending := pending_update ht th l'
  obtain ⟨S, hsum, hle, hzero⟩ := h.stored
  generalize hl : th t = l at hstep hpending
  cases hstep with
  | @scan x rest hinput =>
    -- the integer is read and pending at once
    have hpend : pending n (Function.update th t (.load x)) = pending n th + {x} := by
      simpa [Pc.pending] using hpending
    have hread : (readAll (as ++ [.run t (.scan x)]) : Multiset Int32)
        = (readAll as : Multiset Int32) + {x} := by
      rw [readAll_scan, ← Multiset.coe_add]
      rfl
    have hkeep : ∀ T, T + pending n th ≤ (readAll as : Multiset Int32) →
        T + pending n (Function.update th t (.load x))
          ≤ (readAll (as ++ [.run t (.scan x)]) : Multiset Int32) := by
      intro T hT
      rw [hread, hpend, ← add_assoc]
      exact add_le_add_left hT {x}
    refine ⟨⟨S, hsum, hkeep S hle, fun hS => ?_⟩, h.loaded_update hkeep ?_⟩
    · rw [hread, hpend, hzero hS]
    · intro y r hl'
      cases hl'
  | stop hinput =>
    have hpend : pending n (Function.update th t .returned) = pending n th := by
      simpa [Pc.pending] using hpending
    rw [readAll_of_ne as (by simp), hpend]
    refine ⟨⟨S, hsum, hle, hzero⟩, h.loaded_update (fun _ hT => hT) ?_⟩
    intro y r hl'
    cases hl'
  | @load x =>
    have hpend : pending n (Function.update th t (.store x (d.res 0))) = pending n th := by
      simpa [Pc.pending] using hpending
    rw [readAll_of_ne as (by simp), hpend]
    refine ⟨⟨S, hsum, hle, hzero⟩, h.loaded_update (fun _ hT => hT) ?_⟩
    intro y r hl'
    cases hl'
    exact ⟨S, hsum, hle⟩
  | @store x r =>
    -- what was in `res` is gone; what was loaded takes its place, and `x` with it
    have hpend : pending n (Function.update th t .scan) + {x} = pending n th := by
      simpa [Pc.pending] using hpending
    obtain ⟨T, hT, hTle⟩ := h.loaded t x r hl
    have hkeep : ∀ U, U + pending n th ≤ (readAll as : Multiset Int32) →
        U + pending n (Function.update th t .scan) ≤ (readAll as : Multiset Int32) := by
      intro U hU
      rw [← hpend, ← add_assoc] at hU
      exact (Multiset.le_add_right _ _).trans hU
    rw [readAll_of_ne as (by simp)]
    refine ⟨⟨T + {x}, ?_, ?_, ?_⟩, h.loaded_update hkeep ?_⟩
    · simp [hT]
    · rw [add_assoc, add_comm ({x} : Multiset Int32), hpend]
      exact hTle
    · intro hnil
      have hmem : x ∈ T + {x} := Multiset.mem_add.mpr (.inr (Multiset.mem_singleton_self x))
      rw [hnil] at hmem
      exact absurd hmem (Multiset.notMem_zero x)
    · intro y q hl'
      cases hl'

/-- The run lemma: in every state `res` and all loaded values are sums of integers that have been
read. -/
theorem counted (h : (program n input).Exec as s) :
    Counted (readAll as) (pending n s.thread) (s.shared.res 0) s.thread := by
  refine exec_induction (P := fun as s =>
    Counted (readAll as) (pending n s.thread) (s.shared.res 0) s.thread) ?_ ?_ h
  · rintro s rfl
    refine ⟨⟨0, rfl, ?_, fun _ => ?_⟩, ?_⟩
    · simp [pending, initial, threadFunc, Pc.pending, Multiset.zero_le]
    · simp [pending, initial, threadFunc, Pc.pending, readAll, InputSums.read]
    · intro t x r hst
      cases hst
  · intro as s a u hexec hs hst
    have hle := created_le_of_reachable hexec.reachable
    cases hst with
    | create _ | join _ _ _ | finish _ _ _ =>
      rw [readAll_of_ne as (by simp)]
      exact hs
    | run ht hrun => exact counted_step (ht.trans_le hle) hs hrun

/-! ## What `main` prints

`main` prints once, after it has joined every thread. At that time nothing is pending, and if there
was a thread at all it has seen the end of the input. -/

/-- All threads have returned when `main` has, so nothing read is still to be stored. -/
theorem pending_of_ended (hbounds : Bounds (threadFunc fun _ => 0) (main n) s)
    (hended : s.ended = true) : pending n s.thread = 0 := by
  refine Finset.sum_eq_zero fun t ht => ?_
  rw [show s.thread t = .returned from
    returned_of_ended hbounds hended (Finset.mem_range.mp ht)]
  rfl

/-- The one line of `main` is `res` as it is at the end. -/
theorem main_eq (h : (program n input).Exec as s) (hended : s.ended = true) :
    s.main = [s.shared.res 0] := by
  rw [main_of_ended (stuck _) (fun _ _ _ => rfl) h.reachable, if_pos hended]
  rfl

/-- Everything has been read when `main` prints, if there was a thread. -/
theorem readAll_of_ended (h : (program n input).Exec as s) (hended : s.ended = true)
    (hn : 0 < n) : readAll as = input := by
  have hbounds : Bounds (threadFunc fun _ => 0) (main n) s :=
    Bounds.of_reachable (stuck _) h.reachable
  obtain ⟨hinput, hret⟩ := input_eq h
  rw [hret 0 (returned_of_ended hbounds hended hn), List.append_nil] at hinput
  exact hinput.symm

/-- **What every interleaving guarantees.** What `res` holds is always a sum of integers that have
been read, each used once. At the end, from one thread on, the printed value is such a sum, of some
integers if there were any; and a thread alone prints the sum of all. -/
theorem race_result (h : (program n input).Exec as s) :
    (∃ S : Multiset Int32, S ≤ (readAll as : Multiset Int32) ∧ s.shared.res 0 = S.sum) ∧
    (s.ended = true → 0 < n → ∃ S : Multiset Int32, S ≤ (input : Multiset Int32) ∧
      (S = 0 → input = []) ∧ s.main = [S.sum] ∧
      (Fits (input : Multiset Int32) → S.sum.toInt = exact S)) ∧
    (s.ended = true → n = 1 → s.main = [input.sum]) := by
  obtain ⟨S, hsum, hle, hzero⟩ := (counted h).stored
  have hread : S ≤ (readAll as : Multiset Int32) := (Multiset.le_add_right _ _).trans hle
  refine ⟨⟨S, hread, hsum⟩, fun hended hn => ?_, fun hended hn => ?_⟩
  · have hbounds : Bounds (threadFunc fun _ => 0) (main n) s :=
      Bounds.of_reachable (stuck _) h.reachable
    have hall := readAll_of_ended h hended hn
    rw [hall] at hread hzero
    refine ⟨S, hread, fun hS => ?_, ?_, fun hfits => toInt_sum (hfits.mono hread)⟩
    · have hnil := hzero hS
      rw [pending_of_ended hbounds hended] at hnil
      exact Multiset.coe_eq_zero _ |>.mp hnil
    · rw [main_eq h hended, hsum]
  · -- alone, a thread has the variable for itself
    subst hn
    have hbounds : Bounds (threadFunc fun _ => 0) (main 1) s :=
      Bounds.of_reachable (stuck _) h.reachable
    have hadding := adding_of_exec (M := main 1) (fun t u ht hu _ => by
      have ht' : t < 1 := ht
      have hu' : u < 1 := hu
      omega) (fun _ => rfl) h 0 Nat.one_pos
    have hret : s.thread 0 = .returned := returned_of_ended hbounds hended Nat.one_pos
    have hres := hadding.sum (by rw [hret]; rfl)
    have hreads : readBy 0 as = readAll as := by
      rw [← readOf_threads h, readBy]
      have heq : (fun t => t == 0) = fun t => decide (t < (main 1).threads) := by
        funext t
        rw [Bool.eq_iff_iff]
        simp [main]
      rw [heq]
    rw [main_eq h hended, hres, hreads, readAll_of_ended h hended Nat.one_pos]

/-! ## What can be lost

The other direction: schedules in which an update is in fact lost. They are put together from runs
of one thread at a time, from a state in which all threads are before their `scanf`. -/

/-- All threads have been created, `main` waits for the first, and `res` is `value`. -/
def waiting (n : Nat) (input : List Int32) (value : Int32) (th : Nat → Pc) :
    State Shared Pc (List Int32) where
  shared := ⟨input, fun a => if a = 0 then value else 0⟩
  thread := th
  created := n
  joined := 0
  ended := false
  main := []

section Schedules

variable {t : Nat} {th : Nat → Pc} {value x loaded : Int32} {rest : List Int32}

/-- A thread at its `scanf` takes the next integer, in one step. -/
theorem run_scan (ht : t < n) (hscan : th t = .scan) :
    (program n input).Run (waiting n (x :: rest) value th) [.run t (.scan x)]
      (waiting n rest value (Function.update th t (.load x))) := by
  have hstep : Step 0 (waiting n (x :: rest) value th).shared .scan (.scan x)
      (waiting n rest value th).shared (.load x) := .scan rfl
  rw [← hscan] at hstep
  exact Run.single (.run ht hstep)

/-- The first half of `*res += x`: the thread has seen `value`, whatever happens next. -/
theorem run_load (ht : t < n) (hload : th t = .load x) :
    (program n input).Run (waiting n rest value th) [.run t .load]
      (waiting n rest value (Function.update th t (.store x value))) := by
  have hstep : Step 0 (waiting n rest value th).shared (.load x) .load
      (waiting n rest value th).shared (.store x value) := .load
  rw [← hload] at hstep
  exact Run.single (.run ht hstep)

/-- The second half: `res` becomes the value seen before and the integer, and what it was meanwhile
plays no part. -/
theorem run_store (ht : t < n) (hstore : th t = .store x loaded) :
    (program n input).Run (waiting n rest value th) [.run t .store]
      (waiting n rest (loaded + x) (Function.update th t .scan)) := by
  have hres : Function.update (fun a => if a = 0 then value else (0 : Int32)) 0 (loaded + x)
      = fun a => if a = 0 then loaded + x else 0 := by
    funext a
    rcases eq_or_ne a 0 with rfl | hne
    · rw [Function.update_self, if_pos rfl]
    · rw [Function.update_of_ne hne, if_neg hne, if_neg hne]
  have hstep : Step 0 (waiting n rest value th).shared (.store x loaded) .store
      (waiting n rest (loaded + x) th).shared .scan := by
    have h : Step 0 (waiting n rest value th).shared (.store x loaded) .store _ .scan := .store
    simp only [waiting, hres] at h
    exact h
  rw [← hstore] at hstep
  exact Run.single (.run ht hstep)

/-- A thread adds a block of the input with nobody in between. -/
theorem run_adds (ht : t < n) (hscan : th t = .scan) (ys : List Int32) :
    ∃ as, (program n input).Run (waiting n (ys ++ rest) value th) as
      (waiting n rest (value + ys.sum) th) := by
  induction ys generalizing value with
  | nil =>
    rw [List.sum_nil, Int32.add_zero]
    exact ⟨[], .refl⟩
  | cons y ys ih =>
    obtain ⟨as, hrest⟩ := ih
    have hscans : (program n input).Run (waiting n (y :: (ys ++ rest)) value th)
        [.run t (.scan y)] (waiting n (ys ++ rest) value _) := run_scan ht hscan
    have hloads := hscans.trans (run_load ht (Function.update_self t _ _))
    have hall := hloads.trans (run_store ht (Function.update_self t _ _))
    simp only [Function.update_idem] at hall
    rw [← hscan, Function.update_eq_self] at hall
    rw [List.sum_cons, ← Int32.add_assoc]
    exact ⟨_, hall.trans hrest⟩

/-- What the second thread adds between the load and the store of the first is lost. -/
theorem run_loses (hn : 2 ≤ n) (hscan : ∀ t, th t = .scan) (lost : List Int32) :
    ∃ as, (program n input).Run (waiting n (x :: lost ++ rest) value th) as
      (waiting n rest (value + x) th) := by
  have h0 : 0 < n := Nat.lt_of_lt_of_le Nat.zero_lt_two hn
  have hscans : (program n input).Run (waiting n (x :: (lost ++ rest)) value th)
      [.run 0 (.scan x)] (waiting n (lost ++ rest) value _) := run_scan h0 (hscan 0)
  have hopen := hscans.trans (run_load h0 (Function.update_self 0 _ _))
  simp only [Function.update_idem] at hopen
  have hother : Function.update th 0 (.store x value) 1 = .scan := by
    rw [Function.update_of_ne Nat.one_ne_zero]
    exact hscan 1
  obtain ⟨as, hadds⟩ : ∃ as, (program n input).Run
      (waiting n (lost ++ rest) value (Function.update th 0 (.store x value))) as
      (waiting n rest (value + lost.sum) _) := run_adds hn hother lost
  have hclose : (program n input).Run
      (waiting n rest (value + lost.sum) (Function.update th 0 (.store x value))) [.run 0 .store]
      (waiting n rest (value + x) _) := run_store h0 (Function.update_self 0 _ th)
  rw [Function.update_idem, ← hscan 0, Function.update_eq_self] at hclose
  exact ⟨_, (hopen.trans hadds).trans hclose⟩

/-- The threads return one after the other. -/
theorem run_stops (hscan : ∀ t, th t = .scan) {k : Nat} (hk : k ≤ n) :
    ∃ as, (program n input).Run (waiting n [] value th) as
      (waiting n [] value fun t => if t < k then .returned else .scan) := by
  induction k with
  | zero =>
    refine ⟨[], ?_⟩
    rw [show (fun t => if t < 0 then Pc.returned else .scan) = th from ?_]
    · exact .refl
    · funext t
      exact (hscan t).symm
  | succ k ih =>
    obtain ⟨as, hrun⟩ := ih (Nat.le_of_succ_le hk)
    have hstep : Step 0 (waiting n [] value th).shared .scan .stop
        (waiting n [] value th).shared .returned := .stop rfl
    have hscan' : (fun t => if t < k then Pc.returned else .scan) k = .scan :=
      if_neg (Nat.lt_irrefl k)
    rw [← hscan'] at hstep
    have hlast : Function.update (fun t => if t < k then Pc.returned else .scan) k .returned
        = fun t => if t < k + 1 then .returned else .scan := by
      funext t
      rcases eq_or_ne t k with rfl | hne
      · rw [Function.update_self, if_pos (Nat.lt_succ_self t)]
      · have hiff : t < k + 1 ↔ t < k := by omega
        rw [Function.update_of_ne hne]
        simp only [hiff]
    refine ⟨_, hrun.snoc (u := waiting n [] value _) (a := .run k .stop) ?_⟩
    rw [← hlast]
    exact ForkJoin.Step.run hk hstep

theorem run_ends (hret : ∀ t < n, th t = .returned) :
    ∃ as s, (program n input).Run (waiting n [] value th) as s ∧ s.ended = true ∧
      s.main = [value] := by
  have hjoins : ∀ k ≤ n, ∃ as, (program n input).Run (waiting n [] value th) as
      { waiting n [] value th with joined := k } := by
    intro k hk
    induction k with
    | zero => exact ⟨[], .refl⟩
    | succ k ih =>
      obtain ⟨as, hrun⟩ := ih (Nat.le_of_succ_le hk)
      exact ⟨_, hrun.snoc (.join rfl hk (hret k hk))⟩
  obtain ⟨as, hrun⟩ := hjoins n le_rfl
  exact ⟨_, _, hrun.snoc (.finish rfl rfl rfl), rfl, rfl⟩

/-- `main` creates the threads first; none of them has to start before the last has been created. -/
theorem run_creates (input : List Int32) {k : Nat} (hk : k ≤ n) :
    ∃ as, (program n input).Exec as { waiting n input 0 (fun _ => .scan) with created := k } := by
  induction k with
  | zero =>
    refine ⟨[], _, rfl, ?_⟩
    rw [show (initial (threadFunc fun _ => 0) (main n) ⟨input, fun _ => 0⟩)
      = { waiting n input 0 (fun _ => .scan) with created := 0 } from ?_]
    · exact .refl
    · simp [initial, waiting, threadFunc, main]
  | succ k ih =>
    obtain ⟨as, s₀, hinit, hrun⟩ := ih (Nat.le_of_succ_le hk)
    exact ⟨_, s₀, hinit, hrun.snoc (.create hk)⟩

/-- One block is lost, all the rest is added. -/
theorem run_loses_block (hn : 2 ≤ n) (before lost kept : List Int32) :
    ∃ as s, (program n input).Run
      (waiting n (before ++ (x :: lost ++ kept)) 0 fun _ => .scan) as s ∧ s.ended = true ∧
      s.main = [(before ++ x :: kept).sum] := by
  have h0 : 0 < n := Nat.lt_of_lt_of_le Nat.zero_lt_two hn
  obtain ⟨as₁, hbefore⟩ : ∃ as, (program n input).Run
      (waiting n (before ++ (x :: lost ++ kept)) 0 fun _ => .scan) as
      (waiting n (x :: lost ++ kept) (0 + before.sum) fun _ => .scan) := run_adds h0 rfl before
  obtain ⟨as₂, hlost⟩ : ∃ as, (program n input).Run
      (waiting n (x :: lost ++ kept) (0 + before.sum) fun _ => .scan) as
      (waiting n (kept ++ []) (0 + before.sum + x) fun _ => .scan) := by
    rw [List.append_nil]
    exact run_loses hn (fun _ => rfl) lost
  obtain ⟨as₃, hkept⟩ : ∃ as, (program n input).Run
      (waiting n (kept ++ []) (0 + before.sum + x) fun _ => .scan) as
      (waiting n [] (0 + before.sum + x + kept.sum) fun _ => .scan) := run_adds h0 rfl kept
  obtain ⟨as₄, hstops⟩ : ∃ as, (program n input).Run
      (waiting n [] (0 + before.sum + x + kept.sum) fun _ => .scan) as
      (waiting n [] _ fun t => if t < n then .returned else .scan) :=
    run_stops (fun _ => rfl) le_rfl
  obtain ⟨as₅, s, hend, hended, hmain⟩ : ∃ as s, (program n input).Run
      (waiting n [] (0 + before.sum + x + kept.sum) _) as s ∧ s.ended = true ∧
      s.main = [0 + before.sum + x + kept.sum] := run_ends fun t ht => if_pos ht
  refine ⟨_, s, (((hbefore.trans hlost).trans hkept).trans hstops).trans hend, hended, ?_⟩
  rw [hmain, List.sum_append, List.sum_cons, Int32.zero_add, Int32.add_assoc]

end Schedules

/-- **What can be lost**: any block of the input with an integer before it. While one thread is
between its load and its store another one adds the whole block, and the store overwrites the
result. For two threads or more, and any input. -/
theorem race_loses (hn : 2 ≤ n) (before : List Int32) (x : Int32) (lost kept : List Int32) :
    ∃ as s, (program n (before ++ (x :: lost ++ kept))).Exec as s ∧ s.ended = true ∧
      s.main = [(before ++ x :: kept).sum] ∧
      (Fits (before ++ x :: kept : Multiset Int32) →
        (before ++ x :: kept).sum.toInt = exact (before ++ x :: kept : Multiset Int32)) := by
  obtain ⟨as, hcreate⟩ := run_creates (before ++ (x :: lost ++ kept)) (le_refl n)
  obtain ⟨bs, s, hrun, hended, hmain⟩ := run_loses_block hn before lost kept
  exact ⟨_, s, hcreate.extend hrun, hended, hmain, toInt_sum⟩

/-- Of 1, 2, 3 the 2 is lost, and 4 is printed. -/
theorem race_loses_three : ∃ as s, (program 2 [1, 2, 3]).Exec as s ∧ s.ended = true ∧
    s.main = [4] := by
  obtain ⟨as, s, hexec, hended, hmain, -⟩ := race_loses le_rfl [] 1 [2] [3]
  exact ⟨as, s, hexec, hended, hmain⟩

/-- Two threads read three integers, and the second thread's addition is overwritten. -/
theorem race_result_three : ∃ as s, (program 2 [1, 2, 3]).Exec as s ∧ s.ended = true ∧
    readAll as = [1, 2, 3] ∧ ∃ S : Multiset Int32, S ≤ (readAll as : Multiset Int32) ∧
      s.main = [S.sum] ∧ S.sum.toInt = exact S := by
  obtain ⟨as, hcreate⟩ := run_creates [1, 2, 3] (le_refl 2)
  obtain ⟨bs, s, hrun, hended, -⟩ := run_loses_block (x := 1) le_rfl [] [2] [3]
  have hexec : (program 2 [1, 2, 3]).Exec (as ++ bs) s := hcreate.extend hrun
  have hread := readAll_of_ended hexec hended Nat.zero_lt_two
  obtain ⟨S, hle, -, hmain, hexact⟩ := (race_result hexec).2.1 hended Nat.zero_lt_two
  refine ⟨as ++ bs, s, hexec, hended, hread, S, ?_, hmain, hexact (by decide)⟩
  rw [hread]
  exact hle

end HseDev.Sem22.RaceCondition
