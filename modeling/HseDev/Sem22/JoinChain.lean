import HseDev.Lib.Transition
import Mathlib.Logic.Function.Basic
import Mathlib.Order.Basic
import Mathlib.Order.Nat

/-!
# HseDev — `sem22/task21_1.c`

`main` creates its threads one after the other, and each of them joins the one before it before
it prints its number. `main` itself joins only the last.

* **`Chain`** — what carries the induction: who has printed, and whom a thread waits for.
* **`prints_in_order`** — in every interleaving the numbers come out in order, nothing deadlocks
  and `main` returns only after all of them.
-/

namespace HseDev.Sem22.JoinChain

open Transition System

def threadNums : Nat := 10

/-- `thread_context_t`; `none` is the `-1` of the first thread. -/
structure Context where
  prevThread : Option Nat
  threadId : Nat
  deriving DecidableEq, Repr

/-- Where a thread is: not created, before the join, before the line, returned. -/
inductive Pc where
  | absent
  | start
  | print
  | returned
  deriving DecidableEq, Repr

/-- The contexts, the threads and `main`, which is about to create thread `created`. -/
structure State where
  contexts : Nat → Context
  thread : Nat → Pc
  lastThread : Option Nat
  created : Nat
  ended : Bool
  output : List Nat

inductive Event where
  | create
  | skip (t : Nat)
  | join (t : Nat)
  | print (t : Nat)
  | finish
  deriving DecidableEq, Repr

def State.goto (s : State) (t : Nat) (pc : Pc) : State :=
  { s with thread := Function.update s.thread t pc }

/-- One round of the loop of `main`. -/
def State.create (s : State) : State :=
  { s with
    contexts := Function.update s.contexts s.created ⟨s.lastThread, s.created⟩
    thread := Function.update s.thread s.created .start
    lastThread := some s.created
    created := s.created + 1 }

/-- One step of a thread or of `main`, which has `n` threads to create. A join returns when the
thread has. -/
inductive Step (n : Nat) : State → Event → State → Prop where
  | create {s : State} (hlt : s.created < n) : Step n s .create s.create
  | skip {s : State} {t : Nat} (hpc : s.thread t = .start)
      (hprev : (s.contexts t).prevThread = none) : Step n s (.skip t) (s.goto t .print)
  | join {s : State} {t u : Nat} (hpc : s.thread t = .start)
      (hprev : (s.contexts t).prevThread = some u) (hret : s.thread u = .returned) :
      Step n s (.join t) (s.goto t .print)
  | print {s : State} {t : Nat} (hpc : s.thread t = .print) :
      Step n s (.print t)
        { s.goto t .returned with output := s.output ++ [(s.contexts t).threadId] }
  | finish {s : State} (hall : s.created = n) (hended : s.ended = false)
      (hret : ∀ u, s.lastThread = some u → s.thread u = .returned) :
      Step n s .finish { s with ended := true }

def initial : State where
  contexts _ := ⟨none, 0⟩
  thread _ := .absent
  lastThread := none
  created := 0
  ended := false
  output := []

def system (n : Nat) : System State Event where
  init s := s = initial
  step := Step n

/-- The thread before, as `main` remembers it. -/
def before : Nat → Option Nat
  | 0 => none
  | t + 1 => some t

/-- The first `k` threads have printed, and only the next one can be at its line. -/
structure Chain (n k : Nat) (s : State) : Prop where
  output : s.output = List.range k
  printed_le : k ≤ s.created
  created_le : s.created ≤ n
  last : s.lastThread = before s.created
  context : ∀ t < s.created, s.contexts t = ⟨before t, t⟩
  returned : ∀ t, s.thread t = .returned ↔ t < k
  print : ∀ t, s.thread t = .print → t = k
  absent : ∀ t, s.thread t = .absent ↔ s.created ≤ t
  ended : s.ended = true → k = n

variable {n k : Nat} {s u : State} {a : Event}

/-- Nobody has printed before the first `pthread_create`. -/
theorem chain_initial (n : Nat) : Chain n 0 initial where
  output := rfl
  printed_le := le_rfl
  created_le := Nat.zero_le n
  last := rfl
  context t ht := absurd ht (Nat.not_lt_zero t)
  returned t := iff_of_false (fun h => by cases h) (Nat.not_lt_zero t)
  print t h := by cases h
  absent t := iff_of_true rfl (Nat.zero_le t)
  ended h := by cases h

/-- A thread that is not absent has its context. -/
theorem Chain.context_of_ne (h : Chain n k s) {t : Nat} (ht : s.thread t ≠ .absent) :
    s.contexts t = ⟨before t, t⟩ := by
  refine h.context t ?_
  by_contra hge
  exact ht ((h.absent t).mpr (Nat.not_lt.mp hge))

/-- A new thread waits for the one created before it, whose number `main` has just stored in its
context, and changes nothing for the others. -/
theorem Chain.create (h : Chain n k s) (hlt : s.created < n) : Chain n k s.create where
  output := h.output
  printed_le := Nat.le_succ_of_le h.printed_le
  created_le := hlt
  last := rfl
  context t ht := by
    show Function.update s.contexts s.created _ t = _
    rcases Nat.lt_succ_iff_lt_or_eq.mp ht with hlt' | rfl
    · rw [Function.update_of_ne hlt'.ne]
      exact h.context t hlt'
    · rw [Function.update_self, h.last]
  returned t := by
    show Function.update s.thread s.created .start t = _ ↔ _
    rcases eq_or_ne t s.created with rfl | hne
    · rw [Function.update_self]
      exact iff_of_false (fun h => by cases h) (Nat.not_lt.mpr h.printed_le)
    · rw [Function.update_of_ne hne]
      exact h.returned t
  print t ht := by
    change Function.update s.thread s.created .start t = _ at ht
    rcases eq_or_ne t s.created with rfl | hne
    · rw [Function.update_self] at ht
      cases ht
    · rw [Function.update_of_ne hne] at ht
      exact h.print t ht
  absent t := by
    show Function.update s.thread s.created .start t = _ ↔ s.created + 1 ≤ t
    rcases eq_or_ne t s.created with rfl | hne
    · rw [Function.update_self]
      exact iff_of_false (fun h => by cases h) (Nat.not_succ_le_self _)
    · rw [Function.update_of_ne hne, h.absent t]
      omega
  ended hended := h.ended hended

/-- The only thread that gets past its join is the next one to print. -/
theorem Chain.goto_print (h : Chain n k s) {t : Nat} (hpc : s.thread t = .start) (ht : t = k) :
    Chain n k (s.goto t .print) where
  output := h.output
  printed_le := h.printed_le
  created_le := h.created_le
  last := h.last
  context := h.context
  returned v := by
    show Function.update s.thread t .print v = _ ↔ _
    rcases eq_or_ne v t with rfl | hne
    · rw [Function.update_self]
      exact iff_of_false (fun h => by cases h) (by omega)
    · rw [Function.update_of_ne hne]
      exact h.returned v
  print v hv := by
    change Function.update s.thread t .print v = _ at hv
    rcases eq_or_ne v t with rfl | hne
    · exact ht
    · rw [Function.update_of_ne hne] at hv
      exact h.print v hv
  absent v := by
    show Function.update s.thread t .print v = _ ↔ _
    rcases eq_or_ne v t with rfl | hne
    · rw [Function.update_self]
      refine iff_of_false (fun h => by cases h) fun hle => ?_
      have habsent := (h.absent v).mpr hle
      rw [hpc] at habsent
      cases habsent
    · rw [Function.update_of_ne hne]
      exact h.absent v
  ended := h.ended

/-- The line that comes out is that of thread `k`, and it comes out at position `k`: the thread is
at its line, so it is the next one, and its context still says who it is. -/
theorem Chain.print_line (h : Chain n k s) {t : Nat} (hpc : s.thread t = .print) :
    Chain n (k + 1)
      { s.goto t .returned with output := s.output ++ [(s.contexts t).threadId] } := by
  have htk : t = k := h.print t hpc
  have hcontext : s.contexts t = ⟨before t, t⟩ := h.context_of_ne (by rw [hpc]; decide)
  have hcreated : t < s.created := by
    by_contra hge
    have habsent := (h.absent t).mpr (Nat.not_lt.mp hge)
    rw [hpc] at habsent
    cases habsent
  subst htk
  refine ⟨?_, hcreated, h.created_le, h.last, h.context, ?_, ?_, ?_, ?_⟩
  · show s.output ++ [_] = _
    rw [h.output, hcontext, List.range_succ]
  · intro v
    show Function.update s.thread t .returned v = _ ↔ _
    rcases eq_or_ne v t with rfl | hne
    · rw [Function.update_self]
      exact iff_of_true rfl (Nat.lt_succ_self v)
    · rw [Function.update_of_ne hne, h.returned v]
      omega
  · intro v hv
    change Function.update s.thread t .returned v = _ at hv
    rcases eq_or_ne v t with rfl | hne
    · rw [Function.update_self] at hv
      cases hv
    · rw [Function.update_of_ne hne] at hv
      exact absurd (h.print v hv) hne
  · intro v
    show Function.update s.thread t .returned v = _ ↔ _
    rcases eq_or_ne v t with rfl | hne
    · rw [Function.update_self]
      exact iff_of_false (fun h => by cases h) (Nat.not_le.mpr hcreated)
    · rw [Function.update_of_ne hne]
      exact h.absent v
  · intro hended
    -- `main` cannot have returned: this thread had not printed
    have hk := h.ended hended
    have hle := h.created_le
    omega

/-- The step lemma, by cases of the event. Only a line moves the chain on; a join that returns is
that of thread `k`, as the one it waited for has printed and it has not. -/
theorem chain_step (h : Chain n k s) (hstep : Step n s a u) : ∃ k', Chain n k' u := by
  cases hstep with
  | create hlt => exact ⟨k, h.create hlt⟩
  | @skip t hpc hprev =>
    -- only the first thread has nobody before it
    rw [h.context_of_ne (by rw [hpc]; decide)] at hprev
    have hzero : t = 0 := by
      cases t with
      | zero => rfl
      | succ t => cases hprev
    have hk : k = 0 := by
      by_contra hne
      have hret := (h.returned t).mpr (by omega)
      rw [hpc] at hret
      cases hret
    exact ⟨k, h.goto_print hpc (by omega)⟩
  | @join t v hpc hprev hret =>
    rw [h.context_of_ne (by rw [hpc]; decide)] at hprev
    have hsucc : t = v + 1 := by
      cases t with
      | zero => cases hprev
      | succ t => exact congrArg (· + 1) (Option.some.inj hprev)
    have hv : v < k := (h.returned v).mp hret
    have hk : ¬ t < k := by
      intro hlt
      have hret' := (h.returned t).mpr hlt
      rw [hpc] at hret'
      cases hret'
    exact ⟨k, h.goto_print hpc (by omega)⟩
  | print hpc => exact ⟨k + 1, h.print_line hpc⟩
  | finish hall hended hret =>
    refine ⟨k, { h with ended := fun _ => ?_ }⟩
    -- the last thread has returned, so all have
    cases hn : n with
    | zero =>
      have hle := h.printed_le
      omega
    | succ m =>
      have hlast : s.lastThread = some m := by
        rw [h.last, hall, hn]
        rfl
      have hk := (h.returned m).mp (hret m hlast)
      have hle := h.printed_le
      omega

/-- The chain holds in every state that a run of `task21_1.c` reaches. -/
theorem chain_of_reachable (h : (system n).Reachable s) : ∃ k, Chain n k s := by
  refine invariant (P := fun s => ∃ k, Chain n k s) ?_ ?_ h
  · rintro s rfl
    exact ⟨0, chain_initial n⟩
  · intro s a u hs hst
    obtain ⟨k, hk⟩ := hs
    exact chain_step hk hst

/-- The next thread to print, or `main`, can go on. -/
theorem Chain.ended_or_step (h : Chain n k s) : s.ended = true ∨ ∃ a u, Step n s a u := by
  rcases Nat.lt_or_ge s.created n with hlt | hge
  · exact Or.inr ⟨_, _, .create hlt⟩
  have hall : s.created = n := le_antisymm h.created_le hge
  rcases Nat.lt_or_ge k n with hk | hk
  · cases hpc : s.thread k with
    | absent =>
      have hle := (h.absent k).mp hpc
      omega
    | returned => exact absurd ((h.returned k).mp hpc) (Nat.lt_irrefl k)
    | print => exact Or.inr ⟨_, _, .print hpc⟩
    | start =>
      have hprev : (s.contexts k).prevThread = before k := by
        rw [h.context k (by omega)]
      cases k with
      | zero => exact Or.inr ⟨_, _, .skip hpc hprev⟩
      | succ m => exact Or.inr ⟨_, _, .join hpc hprev ((h.returned m).mpr (Nat.lt_succ_self m))⟩
  · cases hended : s.ended with
    | true => exact Or.inl rfl
    | false =>
      refine Or.inr ⟨_, _, .finish hall hended fun v hv => (h.returned v).mpr ?_⟩
      rw [h.last, hall] at hv
      cases n with
      | zero => cases hv
      | succ m =>
        cases hv
        omega

/-- **The numbers come out in order.** What is printed is an initial part of 0, 1, 2, …; there is a
next step until `main` has returned, and `main` returns only when everything has been printed. -/
theorem prints_in_order (h : (system n).Reachable s) :
    s.output = List.range s.output.length ∧ s.output.length ≤ n ∧
    (s.ended = true → s.output = List.range n) ∧
    (s.ended = true ∨ ∃ a u, (system n).step s a u) := by
  obtain ⟨k, hk⟩ := chain_of_reachable h
  have hlen : s.output.length = k := by
    rw [hk.output, List.length_range]
  refine ⟨?_, ?_, fun hended => ?_, hk.ended_or_step⟩
  · rw [hlen]
    exact hk.output
  · rw [hlen]
    exact hk.printed_le.trans hk.created_le
  · rw [← hk.ended hended]
    exact hk.output

theorem prints_in_order_first : ∃ s, (system threadNums).Reachable s ∧ s.output = [0] ∧
    s.output.length ≤ threadNums := by
  have hexec : ∃ s, (system threadNums).Exec [.create, .create, .skip 0, .print 0] s ∧
      s.output = [0] :=
    ⟨_, ⟨_, rfl, Run.cons (.create (by decide)) <| Run.cons (.create (by decide)) <|
      Run.cons (.skip rfl rfl) <| Run.single (.print rfl)⟩, rfl⟩
  obtain ⟨s, hexec, hout⟩ := hexec
  exact ⟨s, hexec.reachable, hout, (prints_in_order hexec.reachable).2.1⟩

end HseDev.Sem22.JoinChain
