import HseDev.Lib.Eventfd
import HseDev.Lib.Transition

/-!
# HseDev — the token-routing program `sem22/task21_4.c`

`N` threads share the standard input. Each one sleeps on its own `eventfd`; the one that
is activated reads a number, prints it and activates the thread the number selects; the
one that meets the end of the input tells every thread, itself included, to exit.

A `State` holds the program counter of `main` and of every thread, the descriptors, the
rest of the input and the printed lines. `step` moves one actor by one statement that
another actor can observe; `none` means that the actor is blocked or has ended. The
thread count is a C `int` and an input an `int32_t`, so the `int64_t` arithmetic of the
routing is exact and is done in `Int`.

`route` is the specification: which thread prints which value.
-/

namespace HseDev.Sem22

open Eventfd Transition

def STATUS_ACTIVATE : Nat := 1
def STATUS_EXIT : Nat := 2

/-- Where a thread is in `thread_func`; `absent` before `pthread_create`. -/
inductive ThreadPc where
  | absent
  | read
  | test (value : Nat)
  | scan
  | print (inputValue : Int32)
  | write (next : Nat)
  | yield
  | broadcast (i : Nat)
  | exited
  deriving DecidableEq, Repr

/-- Where `main` is; the argument is the loop variable. -/
inductive MainPc where
  | eventfd (i : Nat)
  | create (i : Nat)
  | activate
  | join (i : Nat)
  | close (i : Nat)
  | returned
  deriving DecidableEq, Repr

structure State where
  main : MainPc
  thread : Nat → ThreadPc
  fd : Nat → Fd
  input : List Int32
  out : List (Nat × Int32)

inductive Actor where
  | main
  | thread (t : Nat)
  deriving DecidableEq, Repr

def State.setThread (s : State) (t : Nat) (pc : ThreadPc) : State :=
  { s with thread := Function.update s.thread t pc }

def State.setFd (s : State) (t : Nat) (fd : Fd) : State :=
  { s with fd := Function.update s.fd t fd }

/-- `eventfd_write(ctx->begin[t].event_fd, value)`. -/
def State.writeFd (s : State) (t value : Nat) : State :=
  s.setFd t ((s.fd t).write value)

/-- The thread an input activates: the C remainder, made non-negative. -/
def nextThread (threadsCount : Nat) (inputValue : Int32) : Nat :=
  let x := inputValue.toInt.tmod threadsCount
  let x := if x < 0 then x + threadsCount else x
  x.toNat

/-- One statement of `thread_func`. -/
def threadFunc (threadsCount : Nat) (s : State) (t : Nat) : Option State :=
  match s.thread t with
  | .absent => none
  | .read =>
    match (s.fd t).read with
    | none => none
    | some (value, fd) => some ((s.setFd t fd).setThread t (.test value))
  | .test value => some (s.setThread t (if value = STATUS_EXIT then .exited else .scan))
  | .scan =>
    match s.input with
    | v :: rest => some ({ s with input := rest }.setThread t (.print v))
    | [] =>
      -- the exit broadcast; without threads its loop would be over at once
      some (s.setThread t (if 0 < threadsCount then .broadcast 0 else .read))
  | .print v =>
    some ({ s with out := s.out ++ [(t, v)] }.setThread t (.write (nextThread threadsCount v)))
  | .write next =>
    some ((s.writeFd next STATUS_ACTIVATE).setThread t (if next ≠ t then .yield else .read))
  | .yield => some (s.setThread t .read)
  | .broadcast i =>
    some ((s.writeFd i STATUS_EXIT).setThread t
      (if i + 1 < threadsCount then .broadcast (i + 1) else .read))
  | .exited => none

/-- One statement of `main`. -/
def mainStep (threadCount : Nat) (s : State) : Option State :=
  match s.main with
  | .eventfd i => some { s.setFd i .fresh with main := .create i }
  | .create i =>
    some { s.setThread i .read with
      main := if i + 1 < threadCount then .eventfd (i + 1) else .activate }
  | .activate =>
    some { s.writeFd 0 STATUS_ACTIVATE with
      main := if 0 < threadCount then .join 0 else .returned }
  | .join i => if s.thread i = .exited then some { s with main := .close i } else none
  | .close i =>
    some { s.setFd i .closed with
      main := if i + 1 < threadCount then .join (i + 1) else .returned }
  | .returned => none

def step (threadCount : Nat) (s : State) : Actor → Option State
  | .main => mainStep threadCount s
  | .thread t => threadFunc threadCount s t

/-- The program before its first statement. -/
def start (threadCount : Nat) (input : List Int32) : State where
  main := if 0 < threadCount then .eventfd 0 else .activate
  thread := fun _ => .absent
  fd := fun _ => .absent
  input := input
  out := []

/-- All schedules of the program on an input. -/
def program (threadCount : Nat) (input : List Int32) : System State Actor :=
  .ofFun (· = start threadCount input) (step threadCount)

/-! ## Its law

The purpose of the program, stated without threads: a line for each integer, printed by the thread
that the integer before it names. The states of the model are compared with this function and with
no other description of the output. -/

/-- **The specification of the output**: from thread `t`, the first value is printed by
`t` and the rest is routed from the thread of the value's residue. -/
def route (threadCount : Nat) : Nat → List Int32 → List (Nat × Int32)
  | _, [] => []
  | t, v :: vs => (t, v) :: route threadCount (v.toInt % threadCount).toNat vs

/-- A thread between a read that returned `STATUS_ACTIVATE` and its last write. -/
def HasToken : ThreadPc → Prop
  | .test value => value = STATUS_ACTIVATE
  | .scan => True
  | .print _ => True
  | .write _ => True
  | .broadcast _ => True
  | _ => False

/-- The descriptor an actor's next statement writes to. -/
def writesTo (s : State) : Actor → Option Nat
  | .main => if s.main = .activate then some 0 else none
  | .thread t =>
    match s.thread t with
    | .write next => some next
    | .broadcast i => some i
    | _ => none

/-- The C remainder made non-negative is the residue. -/
theorem nextThread_eq (threadsCount : Nat) (v : Int32) (hpos : 0 < threadsCount) :
    nextThread threadsCount v = (v.toInt % threadsCount).toNat := by
  have hn : (0 : Int) < threadsCount := by exact_mod_cast hpos
  have hnonneg := Int.emod_nonneg v.toInt (Int.ne_of_gt hn)
  have hlt := Int.emod_lt_of_pos v.toInt hn
  unfold nextThread
  simp only [Int.tmod_eq_emod]
  by_cases hsign : 0 ≤ v.toInt ∨ (threadsCount : Int) ∣ v.toInt
  · rw [if_pos hsign, if_neg (by omega)]
    simp
  · rw [if_neg hsign, if_pos (by omega)]
    congr 1
    omega

/-- The remainder made non-negative names one of the threads, also for a negative integer. -/
theorem nextThread_lt (threadsCount : Nat) (v : Int32) (hpos : 0 < threadsCount) :
    nextThread threadsCount v < threadsCount := by
  rw [nextThread_eq threadsCount v hpos]
  have hn : (0 : Int) < threadsCount := by exact_mod_cast hpos
  have hnonneg := Int.emod_nonneg v.toInt (Int.ne_of_gt hn)
  have hlt := Int.emod_lt_of_pos v.toInt hn
  omega

end HseDev.Sem22
