import HseDev.Lib.Transition
import Mathlib.Data.List.Basic

/-!
# HseDev — `run` of `sem21/task20_5.c`

`run` starts a command, feeds it its input through a pipe and waits for it with a timeout.
It is a state machine over the results of its system calls, which are its events; a child
that exits is an event of its own, at any moment.

* **`Process`** / **`waitpid`** — the children of the calling process, those it had before
  included, and what `waitpid(pid, &status, WNOHANG)` does to them.
* **`Pc`** — the call `run` makes next. The child's branch ends in `execlp` or `exit`, so
  it is only seen through the exit of the child.
* **`step`** — one call with its result. After a failed `fork` the parent's branch runs with
  `pid = -1`, for which `waitpid` means any child and its error value is `pid`.
* **`Turn`** / **`step_turn`** — everything that a step can do; the properties of the runs are
  proved from it.
-/

namespace HseDev.Sem21

open Transition

/-! ## Processes

The children of the process with their exit statuses, and `waitpid` as a function of them. -/

inductive ExitStatus where
  | exited (code : Nat)
  | signaled (signal : Nat)
  deriving DecidableEq, Repr

/-- A child of the calling process; `none` while it runs. -/
structure Process where
  pid : Nat
  status : Option ExitStatus
  deriving DecidableEq, Repr

/-- `waitpid(pid, &status, WNOHANG)` for a pid or `-1`: the return value, the status it
stores and the children left. -/
def waitpid (children : List Process) (pid : Int) : Int × Option ExitStatus × List Process :=
  let candidates := children.filter fun c => pid = -1 ∨ (c.pid : Int) = pid
  match candidates.find? (·.status.isSome) with
  | some c => (c.pid, c.status, children.erase c)
  | none => (if candidates = [] then -1 else 0, none, children)

/-! ## The calls of `run`

The events of a run are its calls with their answers, and the exits of children. -/

/-- The calls before `fork`, in their order. -/
inductive SetupCall where
  | epollCreate
  | timerfdCreate
  | timerfdSettime
  | pipe2
  | fcntlGetfl
  | fcntlSetfl
  | epollAddInput
  | epollAddTimeout
  deriving DecidableEq, Repr

inductive Handler where
  | input
  | timeout
  deriving DecidableEq, Repr

inductive WriteResult where
  | wrote (n : Nat)
  | again
  | error
  deriving DecidableEq, Repr

inductive Event where
  /-- the calls up to `fork`, with the first one that failed -/
  | setup (failed : Option SetupCall)
  /-- `fork` in the parent; `none` is its `-1` -/
  | fork (pid : Option Nat)
  /-- `epoll_wait`; `none` if it did not return `1` -/
  | epollWait (ready : Option Handler)
  /-- the `write` of `run_input_writer_handler`, if it makes one -/
  | inputWriter (res : WriteResult)
  /-- the `read` of `run_timeout_handler`; `none` if it did not return 8 bytes -/
  | timeoutRead (x : Option UInt64)
  /-- `waitpid`, with what `child_status` holds afterwards -/
  | waitpid (result : Int) (childStatus : ExitStatus)
  | kill (pid : Int)
  /-- a child of the calling process ends -/
  | childExits (pid : Nat) (status : ExitStatus)
  deriving DecidableEq, Repr

/-- The next call. -/
inductive Pc where
  | setup
  | fork
  | epollWait
  | callback (handler : Handler)
  | waitpid
  | kill
  | returned (code : Int)
  deriving DecidableEq, Repr

/-- The variables of `run`, the fields of `run_ctx_t`, the bytes in the pipe and the
children. -/
structure State where
  pc : Pc
  pid : Int
  isFinished : Bool
  returnCode : Int
  input : List UInt8
  writeEnd : Bool
  pipe : List UInt8
  children : List Process

/-- The test of the loop. -/
def State.loopTest (s : State) : State :=
  { s with pc := if s.isFinished then .kill else .epollWait }

def runInputWriterHandler (s : State) (res : WriteResult) : Option State :=
  if s.input = [] then some { s with writeEnd := false }
  else
    match res with
    | .wrote n =>
      if n ≤ s.input.length then
        some { s with input := s.input.drop n, pipe := s.pipe ++ s.input.take n }
      else none
    | .again => some s
    | .error => some { s with writeEnd := false }

def runTimeoutHandler (s : State) (x : Option UInt64) : State :=
  match x with
  | some x => if x ≠ 0 then { s with returnCode := -2, isFinished := true } else s
  | none => s

/-- What `run` concludes from a `waitpid` that returned its pid. -/
def returnCodeOf : ExitStatus → Int
  | .exited code => code
  | .signaled _ => -3

def step (s : State) (e : Event) : Option State :=
  match s.pc, e with
  | .setup, .setup none => some { s with pc := .fork }
  | .setup, .setup (some _) => some { s with pc := .returned (-1) }
  | .fork, .fork none => some { s with pid := -1 }.loopTest
  | .fork, .fork (some p) =>
    if 0 < p ∧ ∀ c ∈ s.children, c.pid ≠ p then
      some { s with pid := p, children := ⟨p, none⟩ :: s.children }.loopTest
    else none
  | .epollWait, .epollWait none => some s.loopTest
  | .epollWait, .epollWait (some .input) =>
    -- a closed descriptor is no longer registered
    if s.writeEnd then some { s with pc := .callback .input } else none
  | .epollWait, .epollWait (some .timeout) => some { s with pc := .callback .timeout }
  | .callback .input, .inputWriter res =>
    match runInputWriterHandler s res with
    | some s' => some { s' with pc := .waitpid }
    | none => none
  | .callback .timeout, .timeoutRead x => some { runTimeoutHandler s x with pc := .waitpid }
  | .waitpid, .waitpid result childStatus =>
    match HseDev.Sem21.waitpid s.children s.pid with
    | (r, reported, children) =>
      -- without a report `child_status` keeps the value it happened to have
      if result = r ∧ (reported = none ∨ reported = some childStatus) then
        if result = s.pid then
          some { s with children := children, returnCode := returnCodeOf childStatus,
                        isFinished := true }.loopTest
        else some { s with children := children }.loopTest
      else none
  | .kill, .kill pid => if pid = s.pid then some { s with pc := .returned s.returnCode } else none
  | _, .childExits p status =>
    if ⟨p, none⟩ ∈ s.children then
      some { s with children := s.children.map fun c => if c.pid = p then ⟨p, some status⟩ else c }
    else none
  | _, _ => none

/-- A call of `run` by a process with some children. -/
def start (input : List UInt8) (children : List Process) : State where
  pc := .setup
  pid := 0
  isFinished := false
  returnCode := 0
  input := input
  writeEnd := true
  pipe := []
  children := children

def program (input : List UInt8) (children : List Process) : System State Event :=
  .ofFun (· = start input children) step

/-! ## Steps

A step of `run` is decided by where it is and by the answer it gets. `Turn` is the inversion of the
step function, which all invariants are proved from. -/

/-- Everything that a step can do. -/
inductive Turn (s : State) : Event → State → Prop where
  | setup (hpc : s.pc = .setup) : Turn s (.setup none) { s with pc := .fork }
  | setupFails (call : SetupCall) (hpc : s.pc = .setup) :
      Turn s (.setup (some call)) { s with pc := .returned (-1) }
  | forkFails (hpc : s.pc = .fork) : Turn s (.fork none) { s with pid := -1 }.loopTest
  | fork (p : Nat) (hpc : s.pc = .fork) (hpos : 0 < p) (hnew : ∀ c ∈ s.children, c.pid ≠ p) :
      Turn s (.fork (some p)) { s with pid := p, children := ⟨p, none⟩ :: s.children }.loopTest
  | notReady (hpc : s.pc = .epollWait) : Turn s (.epollWait none) s.loopTest
  | ready (handler : Handler) (hpc : s.pc = .epollWait) :
      Turn s (.epollWait (some handler)) { s with pc := .callback handler }
  | input (res : WriteResult) (s₁ : State) (hpc : s.pc = .callback .input)
      (hhandler : runInputWriterHandler s res = some s₁) :
      Turn s (.inputWriter res) { s₁ with pc := .waitpid }
  | timeout (x : Option UInt64) (hpc : s.pc = .callback .timeout) :
      Turn s (.timeoutRead x) { runTimeoutHandler s x with pc := .waitpid }
  | waitpid (result : Int) (childStatus : ExitStatus) (reported : Option ExitStatus)
      (children : List Process) (hpc : s.pc = .waitpid)
      (hwait : waitpid s.children s.pid = (result, reported, children))
      (hreported : reported = none ∨ reported = some childStatus) :
      Turn s (.waitpid result childStatus)
        (if result = s.pid then
          { s with children := children, returnCode := returnCodeOf childStatus,
                   isFinished := true }.loopTest
        else { s with children := children }.loopTest)
  | kill (hpc : s.pc = .kill) : Turn s (.kill s.pid) { s with pc := .returned s.returnCode }
  | exits (q : Nat) (status : ExitStatus) (hq : ⟨q, none⟩ ∈ s.children) :
      Turn s (.childExits q status)
        { s with children := s.children.map fun c =>
          if c.pid = q then ⟨q, some status⟩ else c }

/-- Every step is one of the turns. -/
theorem step_turn {s s' : State} {e : Event} (hstep : step s e = some s') : Turn s e s' := by
  unfold step at hstep
  split at hstep
  · next hpc =>
    cases hstep
    exact .setup hpc
  · next call hpc =>
    cases hstep
    exact .setupFails call hpc
  · next hpc =>
    cases hstep
    exact .forkFails hpc
  · next p hpc =>
    split at hstep <;> cases hstep
    next hnew => exact .fork p hpc hnew.1 hnew.2
  · next hpc =>
    cases hstep
    exact .notReady hpc
  · next hpc =>
    split at hstep <;> cases hstep
    exact .ready .input hpc
  · next hpc =>
    cases hstep
    exact .ready .timeout hpc
  · next res hpc =>
    split at hstep <;> cases hstep
    next s₁ hhandler => exact .input res s₁ hpc hhandler
  · next x hpc =>
    cases hstep
    exact .timeout x hpc
  · next result childStatus hpc =>
    simp only at hstep
    split at hstep
    · next hguard =>
      have hwait : waitpid s.children s.pid
          = (result, (waitpid s.children s.pid).2.1, (waitpid s.children s.pid).2.2) := by
        rw [hguard.1]
      have hturn := Turn.waitpid result childStatus _ _ hpc hwait hguard.2
      -- the loop goes on or ends
      split at hstep <;> cases hstep
      · next hpid => rwa [if_pos hpid] at hturn
      · next hpid => rwa [if_neg hpid] at hturn
    · cases hstep
  · next pid hpc =>
    split at hstep <;> cases hstep
    next hpid =>
    rw [hpid]
    exact .kill hpc
  · split at hstep <;> cases hstep
    next hq => exact .exits _ _ hq
  · cases hstep

/-- The handler of the input only writes what belongs to it. -/
theorem runInputWriterHandler_frame {s s' : State} {res : WriteResult}
    (h : runInputWriterHandler s res = some s') : s'.pid = s.pid
      ∧ s'.isFinished = s.isFinished ∧ s'.children = s.children := by
  unfold runInputWriterHandler at h
  split at h
  · cases h
    exact ⟨rfl, rfl, rfl⟩
  · split at h
    · split at h <;> cases h
      exact ⟨rfl, rfl, rfl⟩
    · cases h
      exact ⟨rfl, rfl, rfl⟩
    · cases h
      exact ⟨rfl, rfl, rfl⟩

/-- The handler of the timer only writes the result. -/
theorem runTimeoutHandler_frame (s : State) (x : Option UInt64) :
    ∃ isFinished returnCode, runTimeoutHandler s x
      = { s with isFinished := isFinished, returnCode := returnCode } := by
  unfold runTimeoutHandler
  split
  · split
    · exact ⟨true, -2, rfl⟩
    · exact ⟨_, _, rfl⟩
  · exact ⟨_, _, rfl⟩

/-- A loop that has been told to end goes on to the `kill`. -/
theorem loopTest_finished {s : State} (h : s.isFinished = true) :
    s.loopTest = { s with pc := .kill } := by
  unfold State.loopTest
  rw [if_pos h]

/-- One that has not goes on to its next `epoll_wait`. -/
theorem loopTest_running {s : State} (h : s.isFinished = false) :
    s.loopTest = { s with pc := .epollWait } := by
  unfold State.loopTest
  rw [if_neg (by simp [h])]

/-- There is nowhere else to go on to. -/
theorem loopTest_pc (s : State) : s.loopTest.pc = .kill ∨ s.loopTest.pc = .epollWait := by
  cases h : s.isFinished with
  | true => exact Or.inl (congrArg State.pc (loopTest_finished h))
  | false => exact Or.inr (congrArg State.pc (loopTest_running h))

end HseDev.Sem21
