import HseDev.Lib.Transition
import Mathlib.Algebra.BigOperators.Group.Finset.Basic
import Mathlib.Logic.Function.Basic

/-!
# Fork and join

A main thread creates the threads `0, …, n - 1` in this order, joins them in this order and
ends. A thread runs from its creation on, interleaved with the others and with the main
thread, until it has returned.

* **`Body`**, **`Main`** — the code of the threads and what the main thread keeps of its joins.
* **`system`** — the transition system of both.
* **`reachable_of_threads`** — the invariant rule for properties of the threads alone.
* **`Bounds.of_reachable`**, **`returned_of_ended`** — how far the main thread is, and that
  nobody runs any more when it has ended.
* **`main_of_ended`** — what it is left with, if the joins themselves leave nothing.
* **`ended_or_step`** — no deadlock, if some thread that has not returned can go on.
* **`busy_add_rank_le`** — the busy steps of a run are bounded, if they use up the threads.
-/

namespace ForkJoin

open Transition

variable {σ L α ρ : Type*}

/-- The code of the threads: where each one starts, its steps on the shared state, and when
it has returned. -/
structure Body (σ L α : Type*) where
  entry : Nat → L
  step : Nat → σ → L → α → σ → L → Prop
  returned : Nat → L → Prop

/-- The code of the main thread: what it starts with, what a join and its end make of that. -/
structure Main (σ ρ : Type*) where
  threads : Nat
  start : ρ
  onJoin : Nat → σ → ρ → ρ
  onEnd : σ → ρ → ρ

structure State (σ L ρ : Type*) where
  shared : σ
  thread : Nat → L
  created : Nat
  joined : Nat
  ended : Bool
  main : ρ

inductive Event (α : Type*) where
  | create
  | run (t : Nat) (a : α)
  | join
  | finish
  deriving DecidableEq, Repr

section System

variable (B : Body σ L α) (M : Main σ ρ)

/-- One step of a thread or of the main thread. -/
inductive Step : State σ L ρ → Event α → State σ L ρ → Prop where
  | create {s : State σ L ρ} (hlt : s.created < M.threads) :
      Step s .create { s with created := s.created + 1 }
  | run {s : State σ L ρ} {t : Nat} {a : α} {d : σ} {l : L} (ht : t < s.created)
      (hstep : B.step t s.shared (s.thread t) a d l) :
      Step s (.run t a) { s with shared := d, thread := Function.update s.thread t l }
  | join {s : State σ L ρ} (hall : s.created = M.threads) (hlt : s.joined < M.threads)
      (hret : B.returned s.joined (s.thread s.joined)) :
      Step s .join { s with joined := s.joined + 1, main := M.onJoin s.joined s.shared s.main }
  | finish {s : State σ L ρ} (hall : s.created = M.threads) (hjoined : s.joined = M.threads)
      (hended : s.ended = false) :
      Step s .finish { s with ended := true, main := M.onEnd s.shared s.main }

/-- Before the first thread is created. -/
def initial (d : σ) : State σ L ρ where
  shared := d
  thread := B.entry
  created := 0
  joined := 0
  ended := false
  main := M.start

def system (d : σ) : System (State σ L ρ) (Event α) where
  init s := s = initial B M d
  step := Step B M

end System

variable {B : Body σ L α} {M : Main σ ρ} {d₀ : σ} {s : State σ L ρ}

/-! ## Invariants

The main thread creates its threads in order, joins them in order and ends. What holds of a thread
from its start is an invariant of the threads; where the main thread is bounds how many there are.
-/

/-- There are never more threads than `main` means to create. -/
theorem created_le_of_reachable (h : (system B M d₀).Reachable s) : s.created ≤ M.threads := by
  refine System.invariant (P := fun s => s.created ≤ M.threads) ?_ ?_ h
  · rintro s rfl
    exact Nat.zero_le _
  · intro s a u hs hst
    cases hst with
    | create hlt => exact hlt
    | run _ _ | join _ _ _ | finish _ _ _ => exact hs

/-- **The invariant rule for the threads.** A property of the shared data and the threads only has
to be kept by the steps of the threads; creating and joining them, and the end of the main thread,
change neither. -/
theorem reachable_of_threads {P : σ → (Nat → L) → Prop} (hinit : P d₀ B.entry)
    (hstep : ∀ t d th a d' l', t < M.threads → P d th → B.step t d (th t) a d' l' →
      P d' (Function.update th t l'))
    (h : (system B M d₀).Reachable s) : P s.shared s.thread := by
  obtain ⟨as, hexec⟩ := h
  refine System.exec_induction (P := fun _ s => P s.shared s.thread) ?_ ?_ hexec
  · rintro s rfl
    exact hinit
  · intro as s a u hexec hs hst
    cases hst with
    | create _ | join _ _ _ | finish _ _ _ => exact hs
    | run ht hrun =>
      have hlt := Nat.lt_of_lt_of_le ht (created_le_of_reachable hexec.reachable)
      exact hstep _ _ _ _ _ _ hlt hs hrun

/-- How far the main thread is. -/
structure Bounds (B : Body σ L α) (M : Main σ ρ) (s : State σ L ρ) : Prop where
  created_le : s.created ≤ M.threads
  joined_le : s.joined ≤ M.threads
  returned : ∀ t < s.joined, B.returned t (s.thread t)
  entry : ∀ t, s.created ≤ t → s.thread t = B.entry t
  joined_of_ended : s.ended = true → s.joined = M.threads
  all_of_joined : 0 < s.joined → s.created = M.threads

/-- A thread that has been joined has returned, provided that a returned thread does not move again.
-/
theorem Bounds.of_reachable
    (hstuck : ∀ t l d a d' l', B.returned t l → ¬ B.step t d l a d' l')
    (h : (system B M d₀).Reachable s) : Bounds B M s := by
  refine System.invariant (P := Bounds B M) ?_ ?_ h
  · rintro s rfl
    exact ⟨Nat.zero_le _, Nat.zero_le _, fun t ht => absurd ht (Nat.not_lt_zero t),
      fun t _ => rfl, fun h => Bool.noConfusion h, fun h => absurd h (Nat.lt_irrefl 0)⟩
  · intro s a u hs hst
    cases hst with
    | create hlt =>
      refine { hs with created_le := hlt, entry := ?_, all_of_joined := ?_ }
      · intro t ht
        exact hs.entry t (Nat.le_of_succ_le ht)
      · intro hpos
        have hall := hs.all_of_joined hpos
        omega
    | @run t a d l ht hrun =>
      refine { hs with returned := ?_, entry := ?_ }
      · intro v hv
        -- a thread that has been joined takes no step
        have hne : v ≠ t := by
          rintro rfl
          exact hstuck v _ _ _ _ _ (hs.returned v hv) hrun
        show B.returned v (Function.update s.thread t l v)
        rw [Function.update_of_ne hne]
        exact hs.returned v hv
      · intro v hv
        have hne : v ≠ t := by
          intro hvt
          have hle : s.created ≤ v := hv
          omega
        show Function.update s.thread t l v = B.entry v
        rw [Function.update_of_ne hne]
        exact hs.entry v hv
    | join hall hlt hret =>
      refine ⟨hs.created_le, hlt, ?_, hs.entry, ?_, fun _ => hall⟩
      · intro v hv
        rcases Nat.lt_succ_iff_lt_or_eq.mp hv with hlt' | rfl
        · exact hs.returned v hlt'
        · exact hret
      · intro hended
        have hj := hs.joined_of_ended hended
        omega
    | finish hall hjoined hended =>
      exact { hs with joined_of_ended := fun _ => hjoined }

/-- **When the main thread has ended, so has every thread.** It joins them all before it ends, and
a thread that has returned takes no further step. -/
theorem returned_of_ended (h : Bounds B M s) (hended : s.ended = true) {t : Nat}
    (ht : t < M.threads) : B.returned t (s.thread t) := by
  refine h.returned t ?_
  rw [h.joined_of_ended hended]
  exact ht

/-- **What the main thread is left with**, if a join leaves nothing. Then its result is computed
once, from the shared data as it is at the end, and before that it is what it was at the start. -/
theorem main_of_ended (hstuck : ∀ t l d a d' l', B.returned t l → ¬ B.step t d l a d' l')
    (hjoin : ∀ k d r, M.onJoin k d r = r) (h : (system B M d₀).Reachable s) :
    s.main = if s.ended then M.onEnd s.shared M.start else M.start := by
  obtain ⟨as, hexec⟩ := h
  refine System.exec_induction
    (P := fun _ s => s.main = if s.ended then M.onEnd s.shared M.start else M.start) ?_ ?_ hexec
  · rintro s rfl
    rfl
  · intro as s a u hs hmain hst
    have hbounds := Bounds.of_reachable hstuck hs.reachable
    cases hst with
    | create _ => exact hmain
    | @run t a d l ht hrun =>
      -- nobody runs after the end, so what it read is still there
      have hnot : s.ended = false := by
        by_contra hended
        have hret := returned_of_ended hbounds (by simpa using hended)
          (Nat.lt_of_lt_of_le ht hbounds.created_le)
        exact hstuck t _ _ _ _ _ hret hrun
      simp only [hnot] at hmain ⊢
      exact hmain
    | join _ _ _ => exact (hjoin _ _ _).trans hmain
    | finish _ _ hended =>
      rw [hended] at hmain
      exact congrArg (M.onEnd s.shared) hmain

/-! ## Progress

If some thread that has not returned can always move, the whole program can, until it has ended. -/

/-- The steps of the main thread and those of the threads that use something up. -/
def Event.busy (busy : α → Bool) : Event α → Bool
  | .run _ a => busy a
  | .create | .join | .finish => true

/-- **No deadlock.** If among threads that have not all returned there is always one with a busy
step, then the program can go on until the main thread has ended. -/
theorem ended_or_step {busy : α → Bool} (h : Bounds B M s)
    (hlive : ∀ t < s.created, ¬ B.returned t (s.thread t) →
      ∃ u < s.created, ∃ a d l, busy a = true ∧ B.step u s.shared (s.thread u) a d l) :
    s.ended = true ∨ ∃ a u, a.busy busy = true ∧ Step B M s a u := by
  rcases Nat.lt_or_ge s.created M.threads with hlt | hge
  · exact Or.inr ⟨_, _, rfl, .create hlt⟩
  have hall : s.created = M.threads := Nat.le_antisymm h.created_le hge
  rcases Nat.lt_or_ge s.joined M.threads with hjoin | hjoin
  · by_cases hret : B.returned s.joined (s.thread s.joined)
    · exact Or.inr ⟨_, _, rfl, .join hall hjoin hret⟩
    · obtain ⟨u, hu, a, d, l, hbusy, hstep⟩ := hlive s.joined (hall ▸ hjoin) hret
      exact Or.inr ⟨.run u a, _, hbusy, .run hu hstep⟩
  · cases hended : s.ended with
    | true => exact Or.inl rfl
    | false =>
      exact Or.inr ⟨_, _, rfl, .finish hall (Nat.le_antisymm h.joined_le hjoin) hended⟩

/-! ## Termination

Every busy step lowers a rank, the sum of what the threads and `main` still have to do. A step that
is not busy, such as a spin, leaves the rank as it is. -/

/-- What is left to do, from what is left to do for each thread. -/
def rank (M : Main σ ρ) (w : Nat → L → Nat) (s : State σ L ρ) : Nat :=
  ∑ t ∈ Finset.range M.threads, w t (s.thread t)
    + (M.threads - s.created) + (M.threads - s.joined) + (if s.ended then 0 else 1)

/-- The sum over all threads changes by what changes for one. -/
theorem sum_update {A : Type*} [AddCommMonoid A] {w : Nat → L → A} {th : Nat → L} {n t : Nat}
    (ht : t < n) (l : L) :
    ∑ u ∈ Finset.range n, w u (Function.update th t l u) + w t (th t)
      = ∑ u ∈ Finset.range n, w u (th u) + w t l := by
  have hmem : t ∈ Finset.range n := Finset.mem_range.mpr ht
  have hrest : ∑ u ∈ (Finset.range n).erase t, w u (Function.update th t l u)
      = ∑ u ∈ (Finset.range n).erase t, w u (th u) := by
    refine Finset.sum_congr rfl fun u hu => ?_
    rw [Function.update_of_ne (Finset.ne_of_mem_erase hu)]
  rw [← Finset.sum_erase_add _ _ hmem, ← Finset.sum_erase_add _ _ hmem, hrest,
    Function.update_self, add_right_comm]

/-- A step of a thread counts if it is a busy one. -/
theorem countP_run (busy : α → Bool) (t : Nat) (a : α) :
    [Event.run t a].countP (Event.busy busy) = if busy a then 1 else 0 := by
  cases hbusy : busy a with
  | true | false => simp [Event.busy, hbusy]

/-- **The busy steps of a run are bounded.** A busy step lowers the work of its thread and no other
step raises it, so their number and the work that is left never exceed the work there was at the
start. -/
theorem busy_add_rank_le {w : Nat → L → Nat} {busy : α → Bool}
    (hstuck : ∀ t l d a d' l', B.returned t l → ¬ B.step t d l a d' l')
    (hdown : ∀ t d l a d' l', B.step t d l a d' l' → w t l' + (if busy a then 1 else 0) ≤ w t l)
    {as : List (Event α)} (h : (system B M d₀).Exec as s) :
    as.countP (Event.busy busy) + rank M w s ≤ rank M w (initial B M d₀) := by
  refine System.exec_induction (P := fun as s =>
    as.countP (Event.busy busy) + rank M w s ≤ rank M w (initial B M d₀)) ?_ ?_ h
  · rintro s rfl
    simp
  · intro as s a u hs hle hst
    have hbounds := Bounds.of_reachable hstuck hs.reachable
    rw [List.countP_append]
    cases hst with
    | create hlt =>
      have hone : [(Event.create : Event α)].countP (Event.busy busy) = 1 := rfl
      rw [hone]
      unfold rank at hle ⊢
      simp only at hle ⊢
      omega
    | @run t a d l ht hrun =>
      have hw := hdown _ _ _ _ _ _ hrun
      have hsum : ∑ u ∈ Finset.range M.threads, w u (Function.update s.thread t l u)
          + w t (s.thread t) = ∑ u ∈ Finset.range M.threads, w u (s.thread u) + w t l :=
        sum_update (Nat.lt_of_lt_of_le ht hbounds.created_le) l
      rw [countP_run]
      unfold rank at hle ⊢
      simp only at hle ⊢
      omega
    | join hall hlt hret =>
      have hone : [(Event.join : Event α)].countP (Event.busy busy) = 1 := rfl
      rw [hone]
      unfold rank at hle ⊢
      simp only at hle ⊢
      omega
    | finish hall hjoined hended =>
      have hone : [(Event.finish : Event α)].countP (Event.busy busy) = 1 := rfl
      rw [hone]
      unfold rank at hle ⊢
      simp only [hended, if_true, Bool.false_eq_true, if_false] at hle ⊢
      omega

end ForkJoin
