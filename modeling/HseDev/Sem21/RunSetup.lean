import HseDev.Lib.Descriptors
import HseDev.Sem21.RunProcess
import Mathlib.Data.List.Count
import Mathlib.Data.List.Nodup

/-!
# HseDev — the set-up of `run` in `sem21/task20_5.c`

What `RunProcess` takes as one event: the calls of `run` before `fork`, with the descriptor
table, `errno` and the error path that closes what was opened.

* **`SetupKernel`** — the answers of the calls: which ones would fail, with which `errno`, and
  the descriptors handed out. `Fits` says that these were free.
* **`andChain`** — the `&&` of C: the calls up to the first one that fails.
* **`runSetup`** — the two chains, the error path and `fork`.
* **`runSetup_failed`** — where the first failure leaves the variables; **`errorPath_spec`** —
  what closing them does. Together they make `setup_atomic`.
* **`runSetup_refines`** — the set-up event of `step` is this function.
-/

namespace HseDev.Sem21

open Descriptors

/-! ## The calls

The eight calls of the set-up, in their order, joined by `&&` in one condition. -/

/-- What a descriptor of the process refers to. -/
inductive File where
  | other (id : Nat)
  | epoll
  | timer
  | pipeReadEnd
  | pipeWriteEnd
  deriving DecidableEq, Repr

abbrev Errno := Int

/-- The calls that open, close or fork, as they happen. -/
inductive SysCall where
  | opened (fd : Int)
  | closed (fd : Int)
  | forked
  deriving DecidableEq, Repr

/-- The answers to the calls of the set-up: `fails call` is the `errno` of a call that returns
`-1`; `closeErrno fd` what a failing `close(fd)` sets. -/
structure SetupKernel where
  fails : SetupCall → Option Errno
  epollFd : Int
  timerFd : Int
  pipeReadFd : Int
  pipeWriteFd : Int
  closeErrno : Int → Option Errno

/-- The variables of `run`, the descriptor table and `errno`. -/
structure SetupState where
  table : Table Int File
  errno : Errno
  log : List SysCall := []
  efd : Int := -1
  timeoutFd : Int := -1
  inPipe0 : Int := -1
  inPipe1 : Int := -1

/-- A call: its effect if it succeeds, `errno` if it fails; the `Bool` is the test `!= -1`. -/
def SetupKernel.call (k : SetupKernel) (c : SetupCall) (effect : SetupState → SetupState)
    (s : SetupState) : Bool × SetupState :=
  match k.fails c with
  | some e => (false, { s with errno := e })
  | none => (true, effect s)

def SetupState.opens (s : SetupState) (fd : Int) (file : File) : SetupState :=
  { s with table := s.table.install fd file, log := s.log ++ [.opened fd] }

def SetupKernel.gotEpoll (k : SetupKernel) (s : SetupState) : SetupState :=
  { s.opens k.epollFd .epoll with efd := k.epollFd }

def SetupKernel.gotTimer (k : SetupKernel) (s : SetupState) : SetupState :=
  { s.opens k.timerFd .timer with timeoutFd := k.timerFd }

def SetupKernel.gotPipe (k : SetupKernel) (s : SetupState) : SetupState :=
  { (s.opens k.pipeReadFd .pipeReadEnd).opens k.pipeWriteFd .pipeWriteEnd with
    inPipe0 := k.pipeReadFd, inPipe1 := k.pipeWriteFd }

/-- `c1 && c2 && …` -/
def andChain : List (SetupState → Bool × SetupState) → SetupState → Bool × SetupState
  | [], s => (true, s)
  | c :: cs, s =>
    match c s with
    | (true, s') => andChain cs s'
    | (false, s') => (false, s')

def runUnblock (k : SetupKernel) : SetupState → Bool × SetupState :=
  andChain [k.call .fcntlGetfl id, k.call .fcntlSetfl id]

def runEpollAdd (k : SetupKernel) (call : SetupCall) : SetupState → Bool × SetupState :=
  k.call call id

/-- `if (fd != -1) close(fd);` A descriptor is gone whatever `close` returns. -/
def closeIfOpen (k : SetupKernel) (s : SetupState) (fd : Int) : SetupState :=
  if fd ≠ -1 then
    { s with table := s.table.close fd, log := s.log ++ [.closed fd],
             errno := (k.closeErrno fd).getD s.errno }
  else s

def errorPath (k : SetupKernel) (s : SetupState) : SetupState :=
  let errCode := s.errno
  let s := [s.efd, s.inPipe0, s.inPipe1, s.timeoutFd].foldl (closeIfOpen k) s
  { s with errno := errCode }

/-- How the set-up ends: with the `return` of the error path, or with the call of `fork`. -/
inductive SetupResult where
  | returned (code : Int) (s : SetupState)
  | forks (s : SetupState)

def runSetup (k : SetupKernel) (table : Table Int File) (errno : Errno) : SetupResult :=
  let s : SetupState := { table, errno }
  let (ok, s) := andChain [k.call .epollCreate k.gotEpoll, k.call .timerfdCreate k.gotTimer,
    k.call .timerfdSettime id, k.call .pipe2 k.gotPipe, runUnblock k] s
  let (ok, s) := if ok then
      andChain [runEpollAdd k .epollAddInput, runEpollAdd k .epollAddTimeout] s
    else (ok, s)
  if ¬ ok then .returned (-1) (errorPath k s)
  else .forks { s with log := s.log ++ [.forked] }

/-! ## The kernel

The kernel decides which call fails, with what `errno`, and what numbers the descriptors get. -/

/-- The calls in their order. -/
def SetupCall.inOrder : List SetupCall :=
  [.epollCreate, .timerfdCreate, .timerfdSettime, .pipe2, .fcntlGetfl, .fcntlSetfl,
    .epollAddInput, .epollAddTimeout]

/-- The first call that fails, with its `errno`. -/
def SetupKernel.firstFailure (k : SetupKernel) : Option (SetupCall × Errno) :=
  SetupCall.inOrder.findSome? fun c => (k.fails c).map (c, ·)

/-- The descriptors the successful calls return. -/
def SetupKernel.granted (k : SetupKernel) : List Int :=
  (if k.fails .epollCreate = none then [k.epollFd] else [])
    ++ (if k.fails .timerfdCreate = none then [k.timerFd] else [])
    ++ if k.fails .pipe2 = none then [k.pipeReadFd, k.pipeWriteFd] else []

/-- New descriptors are not negative, not in use and different. -/
structure SetupKernel.Fits (k : SetupKernel) (table : Table Int File) : Prop where
  nodup : k.granted.Nodup
  free : ∀ fd ∈ k.granted, 0 ≤ fd ∧ table fd = none

/-! ## Where a failure leaves the variables

The variables are `-1` until their call has succeeded, so the error path knows what to close. -/

/-- The state in which a call is made, if all calls before it have succeeded. -/
def SetupKernel.before (k : SetupKernel) (s : SetupState) : SetupCall → SetupState
  | .epollCreate => s
  | .timerfdCreate => k.gotEpoll s
  | .timerfdSettime | .pipe2 => k.gotTimer (k.gotEpoll s)
  | _ => k.gotPipe (k.gotTimer (k.gotEpoll s))

/-- The calls before the first failure succeed. -/
theorem firstFailure_eq_some {k : SetupKernel} {c : SetupCall} {e : Errno}
    (h : k.firstFailure = some (c, e)) :
    k.fails c = some e ∧ ∀ d ∈ SetupCall.inOrder.takeWhile (· ≠ c), k.fails d = none := by
  unfold SetupKernel.firstFailure at h
  obtain ⟨pre, d, post, hsplit, hd, hpre⟩ := List.findSome?_eq_some_iff.mp h
  cases hfails : k.fails d with
  | none => simp [hfails] at hd
  | some e' =>
    simp only [hfails, Option.map_some, Option.some.injEq, Prod.mk.injEq] at hd
    obtain ⟨rfl, rfl⟩ := hd
    have hnodup : SetupCall.inOrder.Nodup := by decide
    rw [hsplit] at hnodup ⊢
    have hpassed : ∀ x ∈ pre, decide (x ≠ d) = true := by
      intro x hx
      have hne := (List.nodup_append.mp hnodup).2.2 x hx d (List.mem_cons_self ..)
      simpa using hne
    refine ⟨hfails, fun x hx => ?_⟩
    rw [List.takeWhile_append_of_pos hpassed, List.takeWhile_cons_of_neg (by simp),
      List.append_nil] at hx
    simpa using hpre x hx

section Calls

variable {k : SetupKernel} {c : SetupCall} {effect : SetupState → SetupState} {s : SetupState}
variable {cs : List (SetupState → Bool × SetupState)}

@[simp] theorem andChain_nil : andChain [] s = (true, s) := rfl

/-- A call that succeeds goes on with the next one. -/
theorem andChain_succeeds (h : k.fails c = none) :
    andChain (k.call c effect :: cs) s = andChain cs (effect s) := by
  simp [andChain, SetupKernel.call, h]

/-- A call that fails ends the chain and sets `errno`. -/
theorem andChain_fails {e : Errno} (h : k.fails c = some e) :
    andChain (k.call c effect :: cs) s = (false, { s with errno := e }) := by
  simp [andChain, SetupKernel.call, h]

/-- The two calls of `run_unblock` succeed together. -/
theorem andChain_unblock (hget : k.fails .fcntlGetfl = none) (hset : k.fails .fcntlSetfl = none) :
    andChain (runUnblock k :: cs) s = andChain cs s := by
  simp [andChain, runUnblock, SetupKernel.call, hget, hset]

/-- If either fails the chain ends with its `errno`. -/
theorem andChain_unblock_fails {e : Errno}
    (h : k.fails .fcntlGetfl = some e ∨ k.fails .fcntlGetfl = none ∧ k.fails .fcntlSetfl = some e) :
    andChain (runUnblock k :: cs) s = (false, { s with errno := e }) := by
  rcases h with h | ⟨hget, hset⟩
  · simp [andChain, runUnblock, SetupKernel.call, h]
  · simp [andChain, runUnblock, SetupKernel.call, hget, hset]

end Calls

/-- A failed set-up returns `-1` behind the error path, with the state that the failing call has
found. -/
theorem runSetup_failed {k : SetupKernel} {table : Table Int File} {errno e : Errno}
    {c : SetupCall} (h : k.firstFailure = some (c, e)) :
    runSetup k table errno
      = .returned (-1) (errorPath k { k.before { table, errno } c with errno := e }) := by
  obtain ⟨hfail, hbefore⟩ := firstFailure_eq_some h
  unfold runSetup runEpollAdd
  -- up to the call that fails the chains only go on
  cases c <;> simp [SetupCall.inOrder] at hbefore
  case fcntlGetfl =>
    simp [andChain_succeeds, andChain_unblock_fails (Or.inl hfail), hbefore, SetupKernel.before]
  case fcntlSetfl =>
    simp [andChain_succeeds, andChain_unblock_fails (Or.inr ⟨hbefore.2.2.2.2, hfail⟩), hbefore,
      SetupKernel.before]
  all_goals
    simp [andChain_succeeds, andChain_unblock, andChain_fails hfail, hbefore, SetupKernel.before]

/-- The state at `fork`. -/
def SetupKernel.atFork (k : SetupKernel) (table : Table Int File) (errno : Errno) : SetupState :=
  let s := k.gotPipe (k.gotTimer (k.gotEpoll { table, errno }))
  { s with log := s.log ++ [.forked] }

/-- If no call fails, `run` goes on to `fork`. -/
theorem runSetup_forks {k : SetupKernel} (table : Table Int File) (err : Errno)
    (h : k.firstFailure = none) : runSetup k table err = .forks (k.atFork table err) := by
  have hall : ∀ c ∈ SetupCall.inOrder, k.fails c = none := by
    intro c hc
    have hnone := List.findSome?_eq_none_iff.mp h c hc
    simpa using hnone
  simp [SetupCall.inOrder] at hall
  unfold runSetup runEpollAdd
  simp [andChain_succeeds, andChain_unblock, hall]
  rfl

/-- **The set-up event of `step`.** What `step` does on `.setup failed` is what the set-up does
with a kernel whose first failure is `failed`. -/
theorem runSetup_refines (k : SetupKernel) (table : Table Int File) (err : Errno)
    (input : List UInt8) (children : List Process) :
    ∃ s', step (start input children) (.setup (k.firstFailure.map (·.1))) = some s' ∧
      match runSetup k table err with
      | .returned code _ => s'.pc = .returned code
      | .forks _ => s'.pc = .fork := by
  cases hfirst : k.firstFailure with
  | none =>
    exact ⟨_, rfl, by rw [runSetup_forks table err hfirst]⟩
  | some failure =>
    refine ⟨_, rfl, ?_⟩
    rw [runSetup_failed hfirst]

/-! ## The error path

The descriptors that have been opened are closed again, and `errno` is put back to what the failing
call has set. -/

/-- The descriptors in the variables, in the order the error path closes them. -/
def SetupState.fds (s : SetupState) : List Int :=
  [s.efd, s.inPipe0, s.inPipe1, s.timeoutFd].filter (· ≠ -1)

/-- **The variables hold what was opened**: descriptors that were free in the table at the
start; the rest of the table is as it was. -/
structure Opening (table : Table Int File) (s : SetupState) : Prop where
  nodup : s.fds.Nodup
  free : ∀ fd ∈ s.fds, table fd = none
  same : ∀ fd, fd ∉ s.fds → s.table fd = table fd
  log : s.log.Perm (s.fds.map .opened)

/-- A series of conditional closes: what is `-1` is skipped. Induction on the numbers. -/
theorem closes_spec (k : SetupKernel) (fds : List Int) (s : SetupState) :
    (fds.foldl (closeIfOpen k) s).table = s.table.closeAll (fds.filter (· ≠ -1))
      ∧ (fds.foldl (closeIfOpen k) s).log = s.log ++ (fds.filter (· ≠ -1)).map .closed := by
  induction fds generalizing s with
  | nil => simp [Table.closeAll]
  | cons fd fds ih =>
    obtain ⟨htable, hlog⟩ := ih (closeIfOpen k s fd)
    rw [List.foldl_cons, htable, hlog]
    by_cases hfd : fd = -1
    · simp [closeIfOpen, hfd]
    · simp [closeIfOpen, hfd, Table.closeAll]

/-- **The error path undoes the set-up.** It closes exactly what is open, so the table is again
that of the caller, and `errno` is still the one of the call that has failed. -/
theorem errorPath_spec {k : SetupKernel} {table : Table Int File} {s : SetupState}
    (h : Opening table s) :
    (errorPath k s).table = table ∧ (errorPath k s).errno = s.errno
      ∧ (errorPath k s).log = s.log ++ s.fds.map SysCall.closed := by
  obtain ⟨htable, hlog⟩ := closes_spec k [s.efd, s.inPipe0, s.inPipe1, s.timeoutFd] s
  refine ⟨?_, rfl, hlog⟩
  show ([s.efd, s.inPipe0, s.inPipe1, s.timeoutFd].foldl (closeIfOpen k) s).table = table
  rw [htable]
  exact closeAll_eq h.free h.same

section Opened

variable {k : SetupKernel} {table : Table Int File} {e : Errno} {s : SetupState} {c : SetupCall}

/-- The variables hold the descriptors `opened`, the first of those handed out. -/
theorem opening_of {opened : List Int} (hfits : k.Fits table) (hgranted : opened <+: k.granted)
    (hfds : s.fds.Perm opened) (htable : ∀ fd, fd ∉ opened → s.table fd = table fd)
    (hlog : s.log = opened.map .opened) : Opening table s where
  nodup := hfds.nodup_iff.mpr (hfits.nodup.sublist hgranted.sublist)
  free fd hfd := (hfits.free fd (hgranted.subset (hfds.mem_iff.mp hfd))).2
  same fd hfd := htable fd (fun h => hfd (hfds.mem_iff.mpr h))
  log := by
    rw [hlog]
    exact (hfds.map _).symm

/-- The kernel never hands out `-1`. -/
theorem granted_ne {fd : Int} (hfits : k.Fits table) (h : fd ∈ k.granted) : fd ≠ -1 := by
  have hpos := (hfits.free fd h).1
  omega

/-- Behind the first call the `epoll` descriptor is open and new. -/
theorem opening_epoll (hfits : k.Fits table) (hepoll : k.fails .epollCreate = none) :
    Opening table (k.gotEpoll { table, errno := e }) := by
  have he : k.epollFd ≠ -1 := granted_ne hfits (by simp [SetupKernel.granted, hepoll])
  have hgranted : [k.epollFd] <+: k.granted := by simp [SetupKernel.granted, hepoll]
  refine opening_of hfits hgranted ?_ (fun fd hfd => ?_) rfl
  · simp [SetupState.fds, SetupKernel.gotEpoll, SetupState.opens, he]
  · exact install_ne (by simpa using hfd)

/-- Behind the second the timer is, too. -/
theorem opening_timer (hfits : k.Fits table) (hepoll : k.fails .epollCreate = none)
    (htimer : k.fails .timerfdCreate = none) :
    Opening table (k.gotTimer (k.gotEpoll { table, errno := e })) := by
  have he : k.epollFd ≠ -1 := granted_ne hfits (by simp [SetupKernel.granted, hepoll])
  have ht : k.timerFd ≠ -1 := granted_ne hfits (by simp [SetupKernel.granted, htimer])
  have hgranted : [k.epollFd, k.timerFd] <+: k.granted := by
    simp [SetupKernel.granted, hepoll, htimer]
  refine opening_of hfits hgranted ?_ (fun fd hfd => ?_) rfl
  · simp [SetupState.fds, SetupKernel.gotEpoll, SetupKernel.gotTimer, SetupState.opens, he, ht]
  · obtain ⟨hfe, hft⟩ : fd ≠ k.epollFd ∧ fd ≠ k.timerFd := by simpa using hfd
    exact (install_ne hft).trans (install_ne hfe)

/-- Behind the third both ends of the pipe are. -/
theorem opening_pipe (hfits : k.Fits table) (hepoll : k.fails .epollCreate = none)
    (htimer : k.fails .timerfdCreate = none) (hpipe : k.fails .pipe2 = none) :
    Opening table (k.gotPipe (k.gotTimer (k.gotEpoll { table, errno := e }))) := by
  have he : k.epollFd ≠ -1 := granted_ne hfits (by simp [SetupKernel.granted, hepoll])
  have ht : k.timerFd ≠ -1 := granted_ne hfits (by simp [SetupKernel.granted, htimer])
  have hr : k.pipeReadFd ≠ -1 := granted_ne hfits (by simp [SetupKernel.granted, hpipe])
  have hw : k.pipeWriteFd ≠ -1 := granted_ne hfits (by simp [SetupKernel.granted, hpipe])
  have hgranted : [k.epollFd, k.timerFd, k.pipeReadFd, k.pipeWriteFd] <+: k.granted := by
    simp [SetupKernel.granted, hepoll, htimer, hpipe]
  refine opening_of hfits hgranted ?_ (fun fd hfd => ?_) rfl
  · -- `timeout_fd` was opened second and is closed last
    have hfds : (k.gotPipe (k.gotTimer (k.gotEpoll { table, errno := e }))).fds
        = [k.epollFd, k.pipeReadFd, k.pipeWriteFd, k.timerFd] := by
      simp [SetupState.fds, SetupKernel.gotEpoll, SetupKernel.gotTimer, SetupKernel.gotPipe,
        SetupState.opens, he, ht, hr, hw]
    rw [hfds]
    have hlast : ([k.pipeReadFd, k.pipeWriteFd] ++ [k.timerFd]).Perm
        (k.timerFd :: [k.pipeReadFd, k.pipeWriteFd]) := List.perm_append_singleton _ _
    exact hlast.cons _
  · obtain ⟨hfe, hft, hfr, hfw⟩ : fd ≠ k.epollFd ∧ fd ≠ k.timerFd ∧ fd ≠ k.pipeReadFd
        ∧ fd ≠ k.pipeWriteFd := by simpa using hfd
    exact (install_ne hfw).trans ((install_ne hfr).trans ((install_ne hft).trans (install_ne hfe)))

/-- **Up to the first failure the variables hold what was opened.** They hold `-1` where nothing
has been opened yet, and this is how the error path knows what to close. -/
theorem opening_before (hfits : k.Fits table)
    (hbefore : ∀ d ∈ SetupCall.inOrder.takeWhile (· ≠ c), k.fails d = none) :
    Opening table (k.before { table, errno := e } c) := by
  cases c <;> simp [SetupCall.inOrder] at hbefore
  case epollCreate =>
    exact opening_of hfits List.nil_prefix (by simp [SetupState.fds, SetupKernel.before])
      (fun _ _ => rfl) rfl
  case timerfdCreate => exact opening_epoll hfits hbefore
  case timerfdSettime => exact opening_timer hfits hbefore.1 hbefore.2
  case pipe2 => exact opening_timer hfits hbefore.1 hbefore.2.1
  case fcntlGetfl => exact opening_pipe hfits hbefore.1 hbefore.2.1 hbefore.2.2.2
  all_goals exact opening_pipe hfits hbefore.1 hbefore.2.1 hbefore.2.2.2.1

end Opened

/-! ## Atomicity

After a failure the table is the caller's, as if nothing had been called. -/

/-- The log of the set-up and its error path: each descriptor opened, then closed. -/
theorem Opening.log_closed {table : Table Int File} {s : SetupState} (h : Opening table s) :
    .forked ∉ s.log ++ s.fds.map SysCall.closed ∧ ∀ fd,
      (.opened fd ∈ s.log ++ s.fds.map SysCall.closed ↔ fd ∈ s.fds)
        ∧ (s.log ++ s.fds.map SysCall.closed).count (.closed fd) = s.fds.count fd := by
  have hmem : ∀ call, call ∈ s.log ↔ ∃ fd ∈ s.fds, .opened fd = call := by
    intro call
    rw [h.log.mem_iff, List.mem_map]
  refine ⟨by simp [hmem], fun fd => ⟨by simp [hmem], ?_⟩⟩
  have hnone : s.log.count (.closed fd) = 0 := by
    refine List.count_eq_zero.mpr ?_
    simp [hmem]
  rw [List.count_append, hnone, Nat.zero_add]
  exact List.count_map_of_injective _ _ (fun _ _ => SysCall.closed.inj) _

/-- **The set-up is atomic.** Whichever call fails first, `run` returns `-1` without a fork;
each descriptor it opened it closed once, and no other; the descriptor table is the initial
one, and `errno` is that of the call that failed. -/
theorem setup_atomic (k : SetupKernel) (table : Table Int File) (err : Errno) {c : SetupCall}
    {e : Errno} (hfits : k.Fits table) (hfail : k.firstFailure = some (c, e)) :
    ∃ s, runSetup k table err = .returned (-1) s ∧ .forked ∉ s.log
      ∧ (∀ fd, .opened fd ∈ s.log → s.log.count (.closed fd) = 1)
      ∧ (∀ fd, .closed fd ∈ s.log → .opened fd ∈ s.log)
      ∧ s.table = table ∧ s.errno = e := by
  obtain ⟨_, hbefore⟩ := firstFailure_eq_some hfail
  have hopening := opening_before (e := err) hfits hbefore
  set s₀ := k.before { table, errno := err } c
  have hopening' : Opening table { s₀ with errno := e } :=
    ⟨hopening.nodup, hopening.free, hopening.same, hopening.log⟩
  obtain ⟨htable, herrno, hlog⟩ := errorPath_spec (k := k) hopening'
  obtain ⟨hforked, hclosed⟩ := hopening'.log_closed
  rw [← hlog] at hforked hclosed
  refine ⟨_, runSetup_failed hfail, hforked, fun fd hopened => ?_, fun fd hmem => ?_, htable,
    herrno⟩
  · obtain ⟨hiff, hcount⟩ := hclosed fd
    rw [hcount]
    exact List.count_eq_one_of_mem hopening'.nodup (hiff.mp hopened)
  · obtain ⟨hiff, hcount⟩ := hclosed fd
    have hpos := List.count_pos_iff.mpr hmem
    rw [hcount] at hpos
    exact hiff.mpr (List.count_pos_iff.mp hpos)

/-- `epoll_ctl` fails for the pipe, and the closes overwrite `errno`. -/
theorem setup_atomic_epollAdd :
    ∃ k : SetupKernel, k.closeErrno 3 = some 9 ∧
      ∃ s, runSetup k (fun _ => none) 0 = .returned (-1) s
      ∧ s.errno = 28 ∧ s.table = fun _ => none := by
  let k : SetupKernel :=
    { fails := fun c => if c = .epollAddInput then some 28 else none
      epollFd := 3, timerFd := 4, pipeReadFd := 5, pipeWriteFd := 6
      closeErrno := fun _ => some 9 }
  have hfits : k.Fits fun _ => none := by
    refine ⟨by decide, fun fd hfd => ⟨?_, rfl⟩⟩
    have hgranted : k.granted = [3, 4, 5, 6] := by decide
    rw [hgranted] at hfd
    simp at hfd
    omega
  obtain ⟨s, hret, _, _, _, htable, herrno⟩ :=
    setup_atomic k (fun _ => none) 0 hfits
      (show k.firstFailure = some (.epollAddInput, 28) by decide)
  exact ⟨k, rfl, s, hret, herrno, htable⟩

end HseDev.Sem21
