import HseDev.Lib.Transition
import Mathlib.Logic.Function.Basic

/-!
# HseDev — `ping_pong` of `sem17/task17_4.c`

Two children that are to pass the numbers `1, 2, …, max_n` to each other over two pipes, each
printing what it reads. A child leaves its loop when `fscanf` *has* read a number, and goes on
at end of file: the test is the wrong way round.

* **`advance`** — one step of the parent or of a child. A process that ends closes its pipe ends;
  a read from an empty pipe blocks while a write end is open somewhere, and a write to a pipe
  without a read end kills (`SIGPIPE`).
* **`Law`** — what the program is for; `PingPongRuns` shows that it never does it.
-/

namespace HseDev.Sem17.PingPong

open Transition

/-! ## Pipes and processes

Two children with a pipe in each direction, and the parent that has made both. Each process has its
own copies of the four ends until it closes them. -/

inductive Child where
  | child1
  | child2
  deriving DecidableEq, Repr

inductive Proc where
  | parent
  | child (c : Child)
  deriving DecidableEq, Repr

inductive Pipe where
  | pipe1to2
  | pipe2to1
  deriving DecidableEq, Repr

/-- `pipe[0]` and `pipe[1]`. -/
inductive Side where
  | read
  | write
  deriving DecidableEq, Repr

structure End where
  pipe : Pipe
  side : Side
  deriving DecidableEq, Repr

/-- The arguments of `ping_pong` in each child. -/
def Child.pipeMe : Child → Pipe
  | .child1 => .pipe1to2
  | .child2 => .pipe2to1

def Child.pipeOther : Child → Pipe
  | .child1 => .pipe2to1
  | .child2 => .pipe1to2

/-- A line `child_no n`. -/
structure Line where
  child : Child
  n : Int32
  deriving DecidableEq, Repr

/-- The closes of `main`, in the order of its loop. -/
def closing : List End :=
  [.read, .write].flatMap fun side => [⟨.pipe1to2, side⟩, ⟨.pipe2to1, side⟩]

inductive ParentPc where
  | fork1
  | fork2
  | close (i : Nat)
  | wait2
  | wait1
  | returned
  deriving DecidableEq, Repr

/-- Where a child is in `ping_pong`, with its `n`. -/
inductive ChildPc where
  | absent
  | close1
  | close2
  | first
  | scan
  | print (n : Int32)
  | test (n : Int32)
  | send (n : Int32)
  | exited
  | killed
  deriving DecidableEq, Repr

def ChildPc.Over : ChildPc → Bool
  | .exited | .killed => true
  | _ => false

/-- `opened p e`: process `p` has a descriptor of the pipe end `e`. A pipe holds the numbers
written and not yet read. `scanned` is what the calls of `fscanf` have returned, `none` for the
end of file. -/
structure State where
  parent : ParentPc
  child : Child → ChildPc
  opened : Proc → End → Bool
  queue : Pipe → List Int32
  printed : List Line
  scanned : Child → List (Option Int32)

/-- Who takes a step. A `fscanf` at end of file assigns nothing: `garbage` is what it leaves in
the uninitialised `n`. -/
inductive Act where
  | parent
  | child (c : Child) (garbage : Int32)
  deriving DecidableEq, Repr

/-! ## Steps

A step is one call of one process. A `read` from an empty pipe waits as long as somebody holds its
write end, and a `write` to a pipe that nobody reads from kills the writer. -/

def State.isOpen (s : State) (e : End) : Bool :=
  s.opened .parent e || s.opened (.child .child1) e || s.opened (.child .child2) e

def State.gotoParent (s : State) (pc : ParentPc) : State :=
  { s with parent := pc }

def State.goto (s : State) (c : Child) (pc : ChildPc) : State :=
  { s with child := Function.update s.child c pc }

def State.setOpened (s : State) (p : Proc) (ends : End → Bool) : State :=
  { s with opened := Function.update s.opened p ends }

def State.close (s : State) (p : Proc) (e : End) : State :=
  s.setOpened p (Function.update (s.opened p) e false)

/-- The child begins with the parent's descriptors. -/
def State.fork (s : State) (c : Child) : State :=
  (s.setOpened (.child c) (s.opened .parent)).goto c .close1

/-- The end of a child, by `exit` or by a signal. -/
def State.finish (s : State) (c : Child) (pc : ChildPc) : State :=
  (s.setOpened (.child c) fun _ => false).goto c pc

def State.setQueue (s : State) (pipe : Pipe) (ns : List Int32) : State :=
  { s with queue := Function.update s.queue pipe ns }

def State.scans (s : State) (c : Child) (n : Option Int32) : State :=
  { s with scanned := Function.update s.scanned c (s.scanned c ++ [n]) }

def State.printLine (s : State) (c : Child) (n : Int32) : State :=
  { s with printed := s.printed ++ [⟨c, n⟩] }

/-- `fprintf(out_file, "%d\n", n)` and `fflush`. -/
def State.send (s : State) (c : Child) (n : Int32) : State :=
  if s.isOpen ⟨c.pipeMe, .read⟩ then
    (s.setQueue c.pipeMe (s.queue c.pipeMe ++ [n])).goto c .scan
  else s.finish c .killed

def parentStep (s : State) : Option State :=
  match s.parent with
  | .fork1 => some ((s.fork .child1).gotoParent .fork2)
  | .fork2 => some ((s.fork .child2).gotoParent (.close 0))
  | .close i =>
    match closing[i]? with
    | some e => some ((s.close .parent e).gotoParent (.close (i + 1)))
    | none => some (s.gotoParent .wait2)
  | .wait2 => if (s.child .child2).Over then some (s.gotoParent .wait1) else none
  | .wait1 => if (s.child .child1).Over then some (s.gotoParent .returned) else none
  | .returned => none

def childStep (maxN : Int32) (s : State) (c : Child) (garbage : Int32) : Option State :=
  match s.child c with
  | .absent => none
  | .close1 => some ((s.close (.child c) ⟨c.pipeOther, .write⟩).goto c .close2)
  | .close2 => some ((s.close (.child c) ⟨c.pipeMe, .read⟩).goto c .first)
  | .first => some (if c = .child2 then s.send c 1 else s.goto c .scan)
  | .scan =>
    match s.queue c.pipeOther with
    -- `fscanf` returned `1`
    | n :: ns => some (((s.setQueue c.pipeOther ns).scans c (some n)).finish c .exited)
    | [] =>
      if s.isOpen ⟨c.pipeOther, .write⟩ then none
      else some ((s.scans c none).goto c (.print garbage))
  | .print n => some ((s.printLine c n).goto c (.test n))
  | .test n => some (if n = maxN then s.finish c .exited else s.goto c (.send n))
  | .send n => some (s.send c (n + 1))
  | .exited => none
  | .killed => none

def advance (maxN : Int32) (s : State) : Act → Option State
  | .parent => parentStep s
  | .child c garbage => childStep maxN s c garbage

/-- `main` after its `pipe` calls and the `atoi`. -/
def start (maxN : Int32) : State where
  parent := if maxN < 1 then .returned else .fork1
  child _ := .absent
  opened
    | .parent => fun _ => true
    | .child _ => fun _ => false
  queue _ := []
  printed := []
  scanned _ := []

def program (maxN : Int32) : System State Act :=
  .ofFun (fun s => s = start maxN) (advance maxN)

/-! ## What the program is for

The two children print the numbers up to `max_n` in turn. -/

/-- Both children have ended. -/
def State.Over (s : State) : Prop :=
  ∀ c, (s.child c).Over = true

/-- The number `k + 1` is the child's whose turn it is. -/
def expectedLine (k : Nat) : Line :=
  ⟨if k % 2 = 0 then .child1 else .child2, Int32.ofNat (k + 1)⟩

def expected (maxN : Int32) : List Line :=
  (List.range maxN.toInt.toNat).map expectedLine

/-- The numbers go up to `max_n`, the children take turns, and nobody leaves without a reason. -/
structure Law (maxN : Int32) (s : State) : Prop where
  complete : s.Over → s.printed = expected maxN
  ordered : s.printed <+: expected maxN
  read : ∀ l ∈ s.printed, some l.n ∈ s.scanned l.child
  exits : ∀ c, s.child c = .exited → ⟨c, maxN⟩ ∈ s.printed ∨ none ∈ s.scanned c

end HseDev.Sem17.PingPong
