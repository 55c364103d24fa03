import HseDev.Lib.LittleEndian
import HseDev.Lib.Transition
import Mathlib.Logic.Function.Iterate

/-!
# HseDev — the edge-triggered loop of `sem20/samples.c`

`run_epoll` registers the read end of a non-blocking pipe, edge-triggered, puts four numbers
into the pipe and loops: while `has_data` is set it reads eight bytes at a time and prints
them, until the pipe is empty; otherwise it waits for an event. After a wait without an event
it writes an `int` to the pipe itself.

Two things in it do not fit together. The user data of the registration is the number `1234`,
and the loop takes it for the descriptor to read from. And the `int` has four bytes, while a
read of fewer than eight bytes is printed like any other.

* **`step`** — one system call of the program, with what the kernel answers, or the arrival
  of bytes from another writer.
* **`Sound`** — what an edge-triggered loop must do over a whole run.
* **`step_sound`** — one step keeps it, if the read end is descriptor `1234` and a read finds
  the pipe empty or with eight bytes; **`run_sound`** is the run form.
* **`spins`** — with any other read end and no descriptor `1234`, a failing read is repeated
  for ever.
-/

namespace HseDev.Sem20

open LittleEndian Transition

/-! ## The program

The demonstration registers the read end of a pipe, edge-triggered, and reads whenever it has been
told that there is data. What it reads from is the number that the source names. -/

inductive Errno where
  | EAGAIN
  | EBADF
  | other (code : Nat)
  deriving DecidableEq, Repr

/-- What `read` returns: a positive number of bytes, `0`, or `-1`. -/
inductive ReadResult where
  | bytes (b : List UInt8)
  | closed
  | error (e : Errno)
  deriving DecidableEq, Repr

/-- A line the program prints. -/
inductive Line where
  | step
  | value (x : UInt64)
  | closed
  | error (e : Errno)
  | evres (res : Int32)
  | flags (r w e : Bool)
  deriving DecidableEq, Repr

/-- Where the program is: with `k` of the four initial writes left, at the head of the loop,
before the `write` after a wait without an event, behind an `exit(-1)` or behind the loop. -/
inductive Pc where
  | fill (k : Nat)
  | head
  | timeout
  | exited
  | finished
  deriving DecidableEq, Repr

/-- The number of the pipe's read end, and which other descriptors are open. -/
structure Config where
  readEnd : Int32
  isOpen : Int32 → Bool

/-- `written` collects all bytes that were put into the pipe. -/
structure State where
  pc : Pc
  hasData : Bool
  pipe : List UInt8
  stdout : List Line
  written : List UInt8
  deriving DecidableEq, Repr

/-- One system call, with the kernel's answer. `stale` is what the uninitialised `x` holds. -/
inductive Act where
  | fill (err : Option Errno)
  | read (fd : Int32) (r : ReadResult) (stale : UInt64)
  | wait (res : Int32) (events : UInt32)
  | write (err : Option Errno)
  | arrive (b : List UInt8)
  deriving DecidableEq, Repr

/-- `ev.data.u32 = 1234`: the user data, which `epoll_wait` hands back. -/
def userData : UInt32 := 1234

/-- `ev.data.fd`, the same member of the union as an `int`. -/
def dataFd : Int32 := userData.toInt32

def EPOLLIN : UInt32 := 1
def EPOLLOUT : UInt32 := 4
def EPOLLERR : UInt32 := 8

/-- A non-blocking read of eight bytes; the program holds the write end, so there is no end
of file. -/
def pipeRead (pipe : List UInt8) : ReadResult :=
  if pipe = [] then .error .EAGAIN else .bytes (pipe.take 8)

/-- What a read of a descriptor can return. -/
def Returns (c : Config) (pipe : List UInt8) (fd : Int32) (r : ReadResult) : Prop :=
  if fd = c.readEnd then r = pipeRead pipe
  else if c.isOpen fd then ∀ b, r = .bytes b → 0 < b.length ∧ b.length ≤ 8
  else r = .error .EBADF

def State.print (s : State) (l : Line) : State :=
  { s with stdout := s.stdout ++ [l] }

/-- Bytes put into the pipe. -/
def State.put (s : State) (b : List UInt8) : State :=
  { s with pipe := s.pipe ++ b, written := s.written ++ b }

/-- `x` after a read: bytes that were not read are still there. -/
def assemble (b : List UInt8) (stale : UInt64) : UInt64 :=
  word64 (b ++ (bytes64 stale).drop b.length)

/-- The body of `if (has_data)`, by what `read` returned. -/
def afterRead (s : State) (r : ReadResult) (stale : UInt64) : State :=
  match r with
  | .error .EAGAIN => { s with hasData := false }
  | .error e => s.print (.error e)
  | .closed => { s.print .closed with pc := .finished }
  | .bytes b => s.print (.value (assemble b stale))

/-- What is left in the pipe. -/
def consume (c : Config) (fd : Int32) (r : ReadResult) (pipe : List UInt8) : List UInt8 :=
  match r with
  | .bytes b => if fd = c.readEnd then pipe.drop b.length else pipe
  | _ => pipe

/-- Behind `epoll_wait`. -/
def afterWait (s : State) (res : Int32) (events : UInt32) : State :=
  if res ≤ 0 then { s.print (.evres res) with pc := .timeout }
  else
    let s := s.print (.flags (events &&& EPOLLIN ≠ 0) (events &&& EPOLLOUT ≠ 0)
      (events &&& EPOLLERR ≠ 0))
    if events &&& EPOLLIN ≠ 0 then { s with hasData := true } else s

/-- A `write`, and where the program goes when it succeeds. -/
def afterWrite (s : State) (b : List UInt8) (err : Option Errno) (next : Pc) : State :=
  match err with
  | none => { s.put b with pc := next }
  | some e => { s.print (.error e) with pc := .exited }

/-- One step from a state; the program is sequential, so only the calls it is at are steps. -/
inductive Step (c : Config) (s : State) : Act → State → Prop where
  | fill (k : Nat) (err : Option Errno) (hpc : s.pc = .fill (k + 1)) :
      Step c s (.fill err)
        (afterWrite s (digits 8 123) err (if k = 0 then .head else .fill k))
  | read (r : ReadResult) (stale : UInt64) (hpc : s.pc = .head) (hdata : s.hasData = true)
      (hr : Returns c s.pipe dataFd r) :
      Step c s (.read dataFd r stale)
        (afterRead { s.print .step with pipe := consume c dataFd r s.pipe } r stale)
  | wait (res : Int32) (events : UInt32) (hpc : s.pc = .head) (hdata : s.hasData = false) :
      Step c s (.wait res events) (afterWait (s.print .step) res events)
  | write (err : Option Errno) (hpc : s.pc = .timeout) :
      Step c s (.write err) (afterWrite s (digits 4 456) err .head)
  | arrive (b : List UInt8) : Step c s (.arrive b) (s.put b)

/-- Behind `epoll_ctl`, which registered the read end. -/
def start : State :=
  { pc := .fill 4, hasData := false, pipe := [], stdout := [], written := [] }

def program (c : Config) : System State Act where
  init s := s = start
  step := Step c

/-! ## What an edge-triggered loop must do

An edge is reported once. After it the reader has to read until the pipe is empty, or it may wait
for ever with bytes in the pipe. -/

/-- Whether an `EPOLLIN` event has been returned and no read of the pipe has returned `EAGAIN`
since. -/
def owes (c : Config) (owing : Bool) : Act → Bool
  | .wait res events => owing || (0 < res && events &&& EPOLLIN ≠ 0)
  | .read fd (.error .EAGAIN) _ => if fd = c.readEnd then false else owing
  | _ => owing

def owing (c : Config) (trace : List Act) : Bool :=
  trace.foldl (owes c) false

/-- Some bytes arrive, or none, and then a read fails. -/
def FailsAgain (c : Config) (s t : State) : Prop :=
  ∃ b e stale, Step c (s.put b) (.read dataFd (.error e) stale) t

/-- The values printed. -/
def values (lines : List Line) : List UInt64 :=
  lines.filterMap fun
    | .value x => some x
    | _ => none

/-- The values printed are the bytes written, in order, up to what is still in the pipe. -/
def InOrder (s : State) : Prop :=
  (values s.stdout).flatMap bytes64 ++ s.pipe = s.written

/-- **What the loop promises.** Every read is of the registered read end; there is no wait
before the pipe was read empty; every value is made of eight bytes, and they are the bytes
written, in order. -/
structure Kept (c : Config) (trace : List Act) (s : State) : Prop where
  readEnd : ∀ fd r stale, .read fd r stale ∈ trace → fd = c.readEnd
  drained : Throughout (fun pre a => (∃ res events, a = .wait res events) → owing c pre = false)
    trace
  whole : ∀ fd b stale, .read fd (.bytes b) stale ∈ trace → b.length = 8
  inOrder : InOrder s

/-- And no failing read is repeated for ever. -/
structure Sound (c : Config) (trace : List Act) (s : State) : Prop extends Kept c trace s where
  noSpin : ¬ ∃ run : ℕ → State, run 0 = s ∧ ∀ n, FailsAgain c (run n) (run (n + 1))

/-- **The invariant.** The program is set to read exactly while it owes a read that returns
`EAGAIN`. -/
structure Inv (c : Config) (trace : List Act) (s : State) : Prop extends Kept c trace s where
  owed : owing c trace = s.hasData

/-- A read finds the pipe empty or with at least eight bytes. -/
def WholeReads (s : State) (a : Act) : Prop :=
  ∀ fd r stale, a = .read fd r stale → s.pipe = [] ∨ 8 ≤ s.pipe.length

/-! ## The parts of a step

What the printing, the reads and the writes do to the values and to the flag, each by itself. -/

section Parts

variable {c : Config} {s : State}

theorem values_append (l l' : List Line) : values (l ++ l') = values l ++ values l' :=
  List.filterMap_append

/-- What is owed after one more event. -/
theorem owing_snoc (c : Config) (trace : List Act) (a : Act) :
    owing c (trace ++ [a]) = owes c (owing c trace) a :=
  List.foldl_concat ..

/-- Bytes that are written are written and in the pipe. -/
theorem InOrder.put (h : InOrder s) (b : List UInt8) : InOrder (s.put b) := by
  show (values s.stdout).flatMap bytes64 ++ (s.pipe ++ b) = s.written ++ b
  rw [← List.append_assoc, h]

theorem InOrder.print (h : InOrder s) {l : Line} (hl : values [l] = []) :
    InOrder (s.print l) := by
  show (values (s.stdout ++ [l])).flatMap bytes64 ++ s.pipe = s.written
  rw [values_append, hl, List.append_nil]
  exact h

/-- A write, failed or not, keeps the order. -/
theorem InOrder.afterWrite (h : InOrder s) (b : List UInt8) (err : Option Errno) (next : Pc) :
    InOrder (afterWrite s b err next) := by
  cases err with
  | none => exact h.put b
  | some e => exact h.print rfl

@[simp] theorem afterWrite_hasData (b : List UInt8) (err : Option Errno) (next : Pc) :
    (afterWrite s b err next).hasData = s.hasData := by
  cases err <;> rfl

/-- A wait prints lines, but no values. -/
theorem InOrder.afterWait (h : InOrder s) (res : Int32) (events : UInt32) :
    InOrder (afterWait s res events) := by
  unfold HseDev.Sem20.afterWait
  split
  · exact h.print rfl
  · simp only
    split
    · exact h.print rfl
    · exact h.print rfl

/-- It sets the flag exactly for an `EPOLLIN` event. -/
theorem afterWait_hasData (res : Int32) (events : UInt32) :
    (afterWait s res events).hasData = (s.hasData || (0 < res && events &&& EPOLLIN ≠ 0)) := by
  unfold afterWait
  split
  · next hle => simp [State.print, Int32.not_lt.mpr hle]
  · next hle =>
    simp only
    split
    · next hin => simp [Int32.not_le.mp hle, hin]
    · next hin => simp [State.print, not_not.mp hin]

/-- **A read of the pipe.** It finds the pipe empty, or takes the next eight bytes. -/
theorem returns_cases {r : ReadResult} (hend : c.readEnd = dataFd)
    (hr : Returns c s.pipe dataFd r) (hwhole : s.pipe = [] ∨ 8 ≤ s.pipe.length) :
    (s.pipe = [] ∧ r = .error .EAGAIN)
    ∨ ∃ b, b.length = 8 ∧ s.pipe = b ++ s.pipe.drop 8 ∧ r = .bytes b := by
  rw [Returns, if_pos hend.symm] at hr
  rcases hwhole with hnil | hlen
  · left
    rw [hr, pipeRead, if_pos hnil]
    exact ⟨hnil, rfl⟩
  · right
    have hne : s.pipe ≠ [] := List.ne_nil_of_length_pos (by omega)
    refine ⟨s.pipe.take 8, ?_, (List.take_append_drop 8 s.pipe).symm, ?_⟩
    · rw [List.length_take]
      omega
    · rw [hr, pipeRead, if_neg hne]

/-- Eight bytes leave nothing of what `x` held. -/
theorem assemble_whole {b : List UInt8} (hb : b.length = 8) (stale : UInt64) :
    bytes64 (assemble b stale) = b := by
  have hdrop : (bytes64 stale).drop b.length = [] := by
    rw [hb]
    exact List.drop_eq_nil_of_le (Nat.le_of_eq (length_digits 8 _))
  rw [assemble, hdrop, List.append_nil, bytes64_word64 hb]

end Parts

/-! ## One step

A step keeps the promise, if the read is of the registered end and finds whole values. -/

section OneStep

variable {c : Config} {s t : State} {trace : List Act} {a : Act}

theorem Kept.snoc (h : Kept c trace s) (hend : ∀ fd r stale, a = .read fd r stale → fd = c.readEnd)
    (hdrained : (∃ res events, a = .wait res events) → owing c trace = false)
    (hwhole : ∀ fd b stale, a = .read fd (.bytes b) stale → b.length = 8) (hin : InOrder t) :
    Kept c (trace ++ [a]) t := by
  refine ⟨?_, throughout_snoc.mpr ⟨h.drained, hdrained⟩, ?_, hin⟩
  · intro fd r stale hmem
    rcases List.mem_append.mp hmem with hold | hnew
    · exact h.readEnd fd r stale hold
    · exact hend fd r stale (List.mem_singleton.mp hnew).symm
  · intro fd b stale hmem
    rcases List.mem_append.mp hmem with hold | hnew
    · exact h.whole fd b stale hold
    · exact hwhole fd b stale (List.mem_singleton.mp hnew).symm

/-- A call that is no read and no wait. -/
theorem Inv.snoc_other (h : Inv c trace s) (hread : ∀ fd r stale, a ≠ .read fd r stale)
    (hwait : ∀ res events, a ≠ .wait res events) (howes : owes c (owing c trace) a = owing c trace)
    (hin : InOrder t) (hdata : t.hasData = s.hasData) : Inv c (trace ++ [a]) t := by
  refine ⟨h.toKept.snoc ?_ ?_ ?_ hin, ?_⟩
  · exact fun fd r stale ha => absurd ha (hread fd r stale)
  · exact fun ⟨res, events, ha⟩ => absurd ha (hwait res events)
  · exact fun fd b stale ha => absurd ha (hread fd _ stale)
  · rw [owing_snoc, howes, hdata, h.owed]

/-- **One step.** By cases of the call. Only a `read` adds to what has been read and only a line
adds to what has been printed, and between the two the value is in the variable. -/
theorem step_inv (hend : c.readEnd = dataFd) (h : Inv c trace s) (hwhole : WholeReads s a)
    (hstep : Step c s a t) : Inv c (trace ++ [a]) t := by
  cases hstep with
  -- what is written goes to the pipe and is in order behind the rest
  | fill k err hpc =>
    exact h.snoc_other (by simp) (by simp) rfl (h.inOrder.afterWrite _ _ _) (by simp)
  | write err hpc =>
    exact h.snoc_other (by simp) (by simp) rfl (h.inOrder.afterWrite _ _ _) (by simp)
  | arrive b => exact h.snoc_other (by simp) (by simp) rfl (h.inOrder.put b) rfl
  -- an event leaves a read owing, and the loop only waits when none is
  | wait res events hpc hdata =>
    have hstepped : InOrder (s.print .step) := h.inOrder.print rfl
    refine ⟨h.toKept.snoc (by simp) (fun _ => ?_) (by simp) (hstepped.afterWait res events), ?_⟩
    · rw [h.owed, hdata]
    · rw [owing_snoc, afterWait_hasData]
      show (owing c trace || _) = (s.hasData || _)
      rw [h.owed]
  | read r stale hpc hdata hr =>
    have hends : ∀ fd r' stale', Act.read dataFd r stale = .read fd r' stale' → fd = c.readEnd := by
      rintro fd r' stale' ⟨⟩
      exact hend.symm
    rcases returns_cases hend hr (hwhole _ _ _ rfl) with ⟨hnil, rfl⟩ | ⟨b, hb, hpipe, rfl⟩
    · -- the pipe is empty: back to waiting, with nothing owed
      have hin : InOrder (s.print .step) := h.inOrder.print rfl
      refine ⟨h.toKept.snoc hends (by simp) (by simp) hin, ?_⟩
      rw [owing_snoc, owes, if_pos hend.symm]
      rfl
    · -- the next eight bytes are printed
      refine ⟨h.toKept.snoc hends (by simp) ?_ ?_, ?_⟩
      · rintro fd b' stale' ⟨⟩
        exact hb
      · have hconsume : consume c dataFd (.bytes b) s.pipe = s.pipe.drop 8 := by
          rw [consume, if_pos hend.symm, hb]
        show (values (s.stdout ++ [.step] ++ [.value (assemble b stale)])).flatMap bytes64
          ++ consume c dataFd (.bytes b) s.pipe = s.written
        rw [hconsume, values_append, values_append]
        show (values s.stdout ++ [] ++ [assemble b stale]).flatMap bytes64 ++ s.pipe.drop 8 = _
        rw [List.append_nil, List.flatMap_append, List.flatMap_singleton, assemble_whole hb,
          List.append_assoc, ← hpipe]
        exact h.inOrder
      · rw [owing_snoc]
        exact h.owed

end OneStep

/-! ## Runs

In a run whose steps are all of that kind the promise is kept in every state. -/

/-- The runs in which every read finds the pipe empty or with eight bytes. -/
def wholeReads (c : Config) : System State Act where
  init := (program c).init
  step s a t := (program c).step s a t ∧ WholeReads s a

/-- **The invariant over runs.** Induction on the run, `step_inv` at each step. -/
theorem run_inv {c : Config} (hend : c.readEnd = dataFd) {trace : List Act} {s : State}
    (hrun : (wholeReads c).Exec trace s) : Inv c trace s := by
  apply System.exec_induction (P := Inv c) ?_ ?_ hrun
  · rintro s rfl
    refine ⟨⟨by simp, fun pre a post h => ?_, by simp, rfl⟩, rfl⟩
    exact absurd h.symm (List.append_ne_nil_of_right_ne_nil pre (List.cons_ne_nil a post))
  · intro trace s a t _ h ⟨hstep, hwhole⟩
    exact step_inv hend h hwhole hstep

/-- Only a program that has been told of data can fail at a read again. -/
theorem FailsAgain.hasData {c : Config} {s t : State} (h : FailsAgain c s t) :
    s.hasData = true := by
  obtain ⟨b, e, stale, hstep⟩ := h
  cases hstep with
  | read r stale hpc hdata hr => exact hdata

/-- After a failing read of the pipe the program does not read again. -/
theorem FailsAgain.drained {c : Config} {s t : State} (hend : c.readEnd = dataFd)
    (h : FailsAgain c s t) : t.hasData = false := by
  obtain ⟨b, e, stale, hstep⟩ := h
  cases hstep with
  | read r stale hpc hdata hr =>
    rw [Returns, if_pos hend.symm, pipeRead] at hr
    split at hr
    · cases hr
      rfl
    · cases hr

/-- **The edge-triggered loop over runs of any length.** If the read end of the pipe is
descriptor `1234`, every run in which each read finds the pipe empty or with at least eight
bytes reads the registered read end only, waits only after it has read the pipe empty,
repeats no failing read for ever, and prints the bytes written as consecutive words. -/
theorem epoll_sound {c : Config} (hend : c.readEnd = dataFd) {trace : List Act} {s : State}
    (hrun : (wholeReads c).Exec trace s) : Sound c trace s := by
  refine ⟨(run_inv hend hrun).toKept, ?_⟩
  rintro ⟨run, -, hfails⟩
  have hdrained := (hfails 0).drained hend
  have hagain := (hfails 1).hasData
  rw [hdrained] at hagain
  cases hagain

/-- The states of a program that reads a descriptor which is not open. -/
def spin (s : State) : State :=
  (s.print .step).print (.error .EBADF)

/-- **A failing read that is repeated for ever.** With any other read end, and no descriptor
`1234`, every state that is set to read stays so. -/
theorem spins {c : Config} (hend : c.readEnd ≠ dataFd) (hclosed : c.isOpen dataFd = false)
    {s : State} (hpc : s.pc = .head) (hdata : s.hasData = true) :
    ∃ run : ℕ → State, run 0 = s ∧ ∀ n, FailsAgain c (run n) (run (n + 1)) := by
  refine ⟨fun n => spin^[n] s, rfl, fun n => ⟨[], .EBADF, 0, ?_⟩⟩
  have hkeeps : (spin^[n] s).pc = .head ∧ (spin^[n] s).hasData = true := by
    induction n with
    | zero => exact ⟨hpc, hdata⟩
    | succ n ih =>
      rw [Function.iterate_succ_apply']
      exact ih
  have hput : (spin^[n] s).put [] = spin^[n] s := by simp [State.put]
  have hr : Returns c (spin^[n] s).pipe dataFd (.error .EBADF) := by
    rw [Returns, if_neg hend.symm, hclosed]
    rfl
  show Step c ((spin^[n] s).put []) _ (spin^[n + 1] s)
  rw [hput, Function.iterate_succ_apply']
  exact .read (.error .EBADF) 0 hkeeps.1 hkeeps.2 hr

/-! ## The first event

The smallest run that gets to a read: the pipe is filled, an event is returned, and the read goes to
another descriptor. -/

/-- After `j` of the initial writes. -/
def filled (j : ℕ) (pc : Pc) : State :=
  { pc, hasData := false, pipe := (List.replicate j (digits 8 123)).flatten, stdout := [],
    written := (List.replicate j (digits 8 123)).flatten }

/-- One of the writes before the loop. -/
theorem step_filled (c : Config) (j k : ℕ) :
    (wholeReads c).step (filled j (.fill (k + 1))) (.fill none)
      (filled (j + 1) (if k = 0 then .head else .fill k)) := by
  refine ⟨?_, by rintro _ _ _ ⟨⟩⟩
  show Step c _ _ _
  have hstep := Step.fill (c := c) (s := filled j (.fill (k + 1))) k none rfl
  have hflat : (List.replicate (j + 1) (digits 8 123)).flatten
      = (List.replicate j (digits 8 123)).flatten ++ digits 8 123 := by
    rw [List.replicate_succ', List.flatten_concat]
  simpa only [filled, hflat, afterWrite, State.put] using hstep

/-- The initial writes and the event they raise. -/
def beginning : List Act :=
  [.fill none, .fill none, .fill none, .fill none, .wait 1 EPOLLIN]

/-- The program behind that event. -/
def ready : State :=
  afterWait ((filled 4 .head).print .step) 1 EPOLLIN

/-- The writes, and a wait that returns an event. -/
theorem exec_beginning (c : Config) : (wholeReads c).Exec beginning ready := by
  have hwait : (wholeReads c).step (filled 4 .head) (.wait 1 EPOLLIN) ready :=
    ⟨.wait 1 EPOLLIN rfl rfl, by rintro _ _ _ ⟨⟩⟩
  exact ⟨start, rfl, .cons (step_filled c 0 3) (.cons (step_filled c 1 2)
    (.cons (step_filled c 2 1) (.cons (step_filled c 3 0) (.single hwait))))⟩

theorem Run.program {c : Config} {s t : State} {as : List Act} (h : (wholeReads c).Run s as t) :
    (program c).Run s as t := by
  induction h with
  | refl => exact .refl
  | snoc _ hstep ih => exact ih.snoc hstep.1

/-- The first read, of a read end that is descriptor `1234`. -/
theorem epoll_sound_first_read :
    ∃ s, (wholeReads ⟨dataFd, fun _ => false⟩).Exec
        (beginning ++ [.read dataFd (.bytes (digits 8 123)) 0]) s
      ∧ Sound ⟨dataFd, fun _ => false⟩
        (beginning ++ [.read dataFd (.bytes (digits 8 123)) 0]) s := by
  have hr : Returns ⟨dataFd, fun _ => false⟩ ready.pipe dataFd (.bytes (digits 8 123)) := by
    rw [Returns, if_pos rfl]
    rfl
  have hread : (wholeReads ⟨dataFd, fun _ => false⟩).step ready
      (.read dataFd (.bytes (digits 8 123)) 0) _ :=
    ⟨.read (.bytes (digits 8 123)) 0 rfl rfl hr, fun _ _ _ _ => .inr (by decide)⟩
  have hrun := (exec_beginning _).extend (System.Run.single hread)
  exact ⟨_, hrun, epoll_sound rfl hrun⟩

/-- The first read of a process with the three standard streams: the pipe has the descriptors
`3` and `4`, and descriptor `1234` is read. -/
theorem epoll_reads_wrong_descriptor :
    ¬ ∀ c trace s, (program c).Exec trace s → Sound c trace s := by
  intro h
  have hr : Returns ⟨3, fun fd => 0 ≤ fd ∧ fd ≤ 5⟩ ready.pipe dataFd (.error .EBADF) := by
    rw [Returns, if_neg (by decide), if_neg (by decide)]
  have hread : (program ⟨3, fun fd => 0 ≤ fd ∧ fd ≤ 5⟩).step ready
      (.read dataFd (.error .EBADF) 0) _ :=
    .read (.error .EBADF) 0 rfl rfl hr
  obtain ⟨s₀, hinit, hrun⟩ := exec_beginning ⟨3, fun fd => 0 ≤ fd ∧ fd ≤ 5⟩
  have hsound := h _ _ _ ⟨s₀, hinit, (Run.program hrun).snoc hread⟩
  exact absurd (hsound.readEnd dataFd _ _ (List.mem_append_right _ List.mem_cons_self)) (by decide)

end HseDev.Sem20
