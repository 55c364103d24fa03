import HseDev.Lib.Transition
import Mathlib.Algebra.Ring.Nat
import Mathlib.Data.List.Basic

/-!
# HseDev — the copy program of `sem11/task11_2.c`

`main` installs a handler for `SIGUSR1` and copies descriptor `0` to descriptor `1`. An
interrupted call is repeated, but first it is reported, with `printf`; the handler prints too.
Both lines end up in descriptor `1`, among the copied bytes.

* **`Step`** — reads and writes that transfer less than asked for, are interrupted or fail;
  deliveries of the signal between them; lines that pass through the buffer of `stdout`.
* **`stray`** — the bytes of the lines a run owes to signals and interrupted calls.
* **`Copying`** — every byte of the input has been written, waits to be written or to be read;
  the stray bytes come on top.
* **`copyFile_iff`** — the output is the input exactly in the runs without a disturbance.
-/

namespace HseDev.Sem11.CopyFile

open Transition

/-- ASCII text. -/
def bytes (text : String) : List UInt8 :=
  text.toList.map fun c => UInt8.ofNat c.toNat

def sigusr1 : Nat := 10

/-- The line of `some_signal_handler`. -/
def receiveSignal (sig : Nat) : List UInt8 :=
  bytes ("receive signal: " ++ toString sig ++ "\n")

def intr : List UInt8 :=
  bytes "intr\n"

/-- `sizeof(buffer)` -/
def bufferSize : Nat := 4096

/-- Where the process is. `current` are the bytes of the buffer still to be written; `returned`
keeps what `copy_file` returned. -/
inductive Pc where
  | sigaction
  | read
  | intrRead
  | write (current : List UInt8)
  | intrWrite (current : List UInt8)
  | returned (res : Int64)
  | exited
  | killed
  deriving DecidableEq, Repr

/-- `stdio` is the buffer of `stdout`, `out` what has reached descriptor `1`; `complained` says
that `perror` has written to descriptor `2`. -/
structure State where
  pc : Pc
  input : List UInt8
  totalRead : UInt64
  stdio : List UInt8
  out : List UInt8
  complained : Bool
  deriving DecidableEq, Repr

/-- What happens next. A `printf` empties the buffer of `stdout` as far as it likes: `flushed`
bytes reach the descriptor. `error` is a failed call other than an interrupted one. -/
inductive Event where
  | sigaction
  | signal (flushed : Nat)
  | read (n : Nat)
  | write (n : Nat)
  | interrupted
  | printIntr (flushed : Nat)
  | error
  | exit
  deriving DecidableEq, Repr

def State.goto (s : State) (pc : Pc) : State :=
  { s with pc := pc }

def State.printf (s : State) (text : List UInt8) (flushed : Nat) : State :=
  { s with out := s.out ++ (s.stdio ++ text).take flushed
           stdio := (s.stdio ++ text).drop flushed }

/-- The handler is in place and the process has not ended. -/
def Pc.Handles : Pc → Bool
  | .sigaction | .exited | .killed => false
  | _ => true

/-- `while (to_write)` -/
def Pc.writeOrRead (current : List UInt8) : Pc :=
  if current = [] then .read else .write current

inductive Step : State → Event → State → Prop where
  | sigaction {s : State} (hpc : s.pc = .sigaction) : Step s .sigaction (s.goto .read)
  /-- The default action of `SIGUSR1`. -/
  | kill {s : State} {flushed : Nat} (hpc : s.pc = .sigaction) :
      Step s (.signal flushed) (s.goto .killed)
  | handler {s : State} {flushed : Nat} (hpc : s.pc.Handles = true) :
      Step s (.signal flushed) (s.printf (receiveSignal sigusr1) flushed)
  | read {s : State} {n : Nat} (hpc : s.pc = .read) (hpos : 0 < n) (hsize : n ≤ bufferSize)
      (hinput : n ≤ s.input.length) :
      Step s (.read n)
        { s with pc := .write (s.input.take n), input := s.input.drop n,
                 totalRead := s.totalRead + UInt64.ofNat n }
  | eof {s : State} (hpc : s.pc = .read) (hinput : s.input = []) :
      Step s (.read 0) (s.goto (.returned s.totalRead.toInt64))
  | interruptRead {s : State} (hpc : s.pc = .read) : Step s .interrupted (s.goto .intrRead)
  | printRead {s : State} {flushed : Nat} (hpc : s.pc = .intrRead) :
      Step s (.printIntr flushed) ((s.printf intr flushed).goto .read)
  | failRead {s : State} (hpc : s.pc = .read) : Step s .error (s.goto (.returned (-1)))
  | write {s : State} {current : List UInt8} {n : Nat} (hpc : s.pc = .write current)
      (hn : n ≤ current.length) :
      Step s (.write n)
        { s with pc := .writeOrRead (current.drop n), out := s.out ++ current.take n }
  | interruptWrite {s : State} {current : List UInt8} (hpc : s.pc = .write current) :
      Step s .interrupted (s.goto (.intrWrite current))
  | printWrite {s : State} {current : List UInt8} {flushed : Nat}
      (hpc : s.pc = .intrWrite current) :
      Step s (.printIntr flushed) ((s.printf intr flushed).goto (.write current))
  | failWrite {s : State} {current : List UInt8} (hpc : s.pc = .write current) :
      Step s .error (s.goto (.returned (-1)))
  /-- `perror` if the copy failed; the exit flushes `stdout`. -/
  | exit {s : State} {res : Int64} (hpc : s.pc = .returned res) :
      Step s .exit
        { s with pc := .exited, out := s.out ++ s.stdio, stdio := [], complained := res == -1 }

def start (stdin : List UInt8) : State where
  pc := .sigaction
  input := stdin
  totalRead := 0
  stdio := []
  out := []
  complained := false

def program (stdin : List UInt8) : System State Event where
  init s := s = start stdin
  step := Step

/-! ## Disturbances

A copy is disturbed by signals: the handler prints a line, and so does the loop when the signal has
interrupted its call. Both lines go to the output of the copy. -/

/-- The stray bytes that follow from an event. -/
def Event.stray : Event → Nat
  | .signal _ => (receiveSignal sigusr1).length
  | .interrupted => intr.length
  | _ => 0

def stray (as : List Event) : Nat :=
  (as.map Event.stray).sum

/-- A signal or an interrupted call. -/
def Event.Disturbs : Event → Bool
  | .signal _ | .interrupted => true
  | _ => false

def Event.Fails : Event → Bool
  | .error => true
  | _ => false

/-- The stray bytes of two parts of a run are added. -/
theorem stray_append (as : List Event) (a : Event) : stray (as ++ [a]) = stray as + a.stray := by
  simp [stray]

/-- An event leaves no stray bytes exactly if it does not disturb the copy. -/
theorem Event.stray_eq_zero (a : Event) : a.stray = 0 ↔ a.Disturbs = false := by
  cases a with
  | signal =>
    have hne : (receiveSignal sigusr1).length ≠ 0 := by decide
    exact iff_of_false hne nofun
  | interrupted => exact iff_of_false (by decide) (by decide)
  | sigaction | read | write | printIntr | error | exit => exact iff_of_true rfl rfl

/-- A run leaves none exactly if no event of it does. -/
theorem stray_eq_zero (as : List Event) : stray as = 0 ↔ ∀ a ∈ as, a.Disturbs = false := by
  induction as with
  | nil => simp [stray]
  | cons a as ih =>
    rw [List.forall_mem_cons, ← ih, ← a.stray_eq_zero, stray, List.map_cons, List.sum_cons,
      Nat.add_eq_zero_iff]
    rfl

/-! ## What becomes of the input

At every moment the input is in three parts: written, on its way in `buffer`, and unread. The
invariant `Copying` keeps the three together, with the stray bytes counted apart. -/

/-- The bytes that have been read and not written. -/
def Pc.pending : Pc → List UInt8
  | .write current | .intrWrite current => current
  | _ => []

/-- The bytes of a line about to be printed. -/
def Pc.owed : Pc → Nat
  | .intrRead | .intrWrite _ => intr.length
  | _ => 0

/-- Between the `sigaction` and the end. -/
def Pc.Running : Pc → Bool
  | .sigaction | .exited | .killed => false
  | _ => true

def Pc.Finished : Pc → Bool
  | .returned _ | .exited => true
  | _ => false

/-- **The invariant** of the runs that have survived their start. -/
structure Copying (stdin : List UInt8) (as : List Event) (s : State) : Prop where
  fresh : s.pc = .sigaction → as = [] ∧ s.out = []
  begun : s.pc ≠ .sigaction → as.head? = some .sigaction
  alive : s.pc ≠ .killed
  flushed : s.pc = .exited → s.stdio = []
  length : s.out.length + s.stdio.length + s.pc.pending.length + s.pc.owed + s.input.length
    = stdin.length + stray as
  clean : stray as = 0 → s.stdio = [] ∧ s.out ++ s.pc.pending ++ s.input = stdin
  finished : s.pc.Finished = true → s.input = []

/-- The runs in which the signal came first. -/
structure Killed (as : List Event) (s : State) : Prop where
  first : ∃ flushed, as.head? = some (.signal flushed)
  pc : s.pc = .killed
  out : s.out = []

section Copying

variable {stdin : List UInt8} {as : List Event} {s s' : State} {a : Event}

/-- The loop head has what is left of the buffer on its way. -/
theorem writeOrRead_pending (current : List UInt8) :
    (Pc.writeOrRead current).pending = current := by
  unfold Pc.writeOrRead
  split
  · next h => rw [h]; rfl
  · rfl

/-- There it owes no line of its own. -/
theorem writeOrRead_owed (current : List UInt8) : (Pc.writeOrRead current).owed = 0 := by
  unfold Pc.writeOrRead
  split <;> rfl

theorem writeOrRead_finished (current : List UInt8) :
    (Pc.writeOrRead current).Finished = false := by
  unfold Pc.writeOrRead
  split <;> rfl

/-- A `printf` moves its text to the output or keeps it in the buffer of stdio; none of it gets
lost. -/
theorem length_printf (text : List UInt8) (flushed : Nat) :
    (s.printf text flushed).out.length + (s.printf text flushed).stdio.length
      = s.out.length + s.stdio.length + text.length := by
  simp only [State.printf, List.length_append, List.length_take, List.length_drop]
  omega

/-- Inside the loop the process has its handler, and it has not ended. -/
theorem Pc.Running.ne {pc : Pc} (h : pc.Running = true) :
    pc ≠ .sigaction ∧ pc ≠ .exited ∧ pc ≠ .killed := by
  refine ⟨?_, ?_, ?_⟩
  · rintro rfl
    cases h
  · rintro rfl
    cases h
  · rintro rfl
    cases h

/-- The run goes on after its first event. -/
theorem Copying.head (h : Copying stdin as s) (hpc : s.pc ≠ .sigaction) :
    (as ++ [a]).head? = some .sigaction := by
  have hhead := h.begun hpc
  cases as with
  | nil => cases hhead
  | cons b bs => exact hhead

/-- The line of an interrupted call is owed only after an interrupted call. -/
theorem Copying.stray_ne_zero (h : Copying stdin as s) (howed : s.pc.owed ≠ 0) : stray as ≠ 0 := by
  intro hzero
  -- then the bytes written, pending and left are the whole input, and there is no room for a line
  obtain ⟨hstdio, hclean⟩ := h.clean hzero
  have hlength := congrArg List.length hclean
  have htotal := h.length
  simp only [List.length_append] at hlength
  omega

theorem Copying.goto (h : Copying stdin as s) {pc : Pc} (hpc : s.pc ≠ .sigaction)
    (hstray : pc.owed = s.pc.owed + a.stray) (hpending : pc.pending = s.pc.pending)
    (hrunning : pc.Running = true) (hfinished : pc.Finished = true → s.input = []) :
    Copying stdin (as ++ [a]) (s.goto pc) where
  fresh hnew := absurd hnew (Pc.Running.ne hrunning).1
  begun _ := h.head hpc
  alive := (Pc.Running.ne hrunning).2.2
  flushed hnew := absurd hnew (Pc.Running.ne hrunning).2.1
  length := by
    have htotal := h.length
    rw [stray_append]
    show s.out.length + s.stdio.length + pc.pending.length + pc.owed + s.input.length = _
    rw [hpending, hstray]
    omega
  clean hzero := by
    rw [stray_append] at hzero
    show s.stdio = [] ∧ s.out ++ pc.pending ++ s.input = stdin
    rw [hpending]
    exact h.clean (by omega)
  finished := hfinished

/-- A line goes to the buffer of `stdout`; it was owed, or is the handler's. -/
theorem Copying.printf (h : Copying stdin as s) {pc : Pc} {text : List UInt8} {flushed : Nat}
    (hpc : s.pc ≠ .sigaction) (hstray : pc.owed + text.length = s.pc.owed + a.stray)
    (hpending : pc.pending = s.pc.pending) (hrunning : pc.Running = true)
    (hfinished : pc.Finished = s.pc.Finished) (hdirty : stray (as ++ [a]) ≠ 0) :
    Copying stdin (as ++ [a]) ((s.printf text flushed).goto pc) where
  fresh hnew := absurd hnew (Pc.Running.ne hrunning).1
  begun _ := h.head hpc
  alive := (Pc.Running.ne hrunning).2.2
  flushed hnew := absurd hnew (Pc.Running.ne hrunning).2.1
  length := by
    have htotal := h.length
    have hprintf := length_printf (s := s) text flushed
    rw [stray_append]
    show (s.printf text flushed).out.length + (s.printf text flushed).stdio.length
      + pc.pending.length + pc.owed + s.input.length = _
    rw [hprintf, hpending]
    omega
  clean hzero := absurd hzero hdirty
  finished hpc := h.finished (hfinished ▸ hpc)

/-- Setting the handler begins the copy with everything unread. -/
theorem Copying.begin (h : Copying stdin as s) (hpc : s.pc = .sigaction) :
    Copying stdin (as ++ [.sigaction]) (s.goto .read) := by
  obtain ⟨rfl, _⟩ := h.fresh hpc
  have htotal := h.length
  have hclean := h.clean rfl
  rw [hpc] at htotal hclean
  exact ⟨nofun, fun _ => rfl, nofun, nofun, htotal, fun _ => hclean, nofun⟩

/-- A `read` moves bytes from the input to the buffer. -/
theorem Copying.read (h : Copying stdin as s) {n : Nat} (hpc : s.pc = .read)
    (hinput : n ≤ s.input.length) :
    Copying stdin (as ++ [.read n])
      { s with pc := .write (s.input.take n), input := s.input.drop n,
               totalRead := s.totalRead + UInt64.ofNat n } where
  fresh := nofun
  begun _ := h.head (by rw [hpc]; nofun)
  alive := nofun
  flushed := nofun
  length := by
    have htotal := h.length
    rw [hpc] at htotal
    rw [stray_append]
    simp only [Pc.pending, Pc.owed, Event.stray, List.length_take, List.length_drop,
      List.length_nil] at htotal ⊢
    omega
  clean hzero := by
    rw [stray_append] at hzero
    obtain ⟨hstdio, hclean⟩ := h.clean (by omega)
    rw [hpc] at hclean
    refine ⟨hstdio, ?_⟩
    show s.out ++ s.input.take n ++ s.input.drop n = stdin
    rw [List.append_assoc, List.take_append_drop]
    simpa [Pc.pending] using hclean
  finished := nofun

/-- A `write`, short or not, moves bytes from the buffer to the output. -/
theorem Copying.write (h : Copying stdin as s) {current : List UInt8} {n : Nat}
    (hpc : s.pc = .write current) (hn : n ≤ current.length) :
    Copying stdin (as ++ [.write n])
      { s with pc := .writeOrRead (current.drop n), out := s.out ++ current.take n } where
  fresh := by
    intro hnew
    unfold Pc.writeOrRead at hnew
    split at hnew <;> cases hnew
  begun _ := h.head (by rw [hpc]; nofun)
  alive := by
    unfold Pc.writeOrRead
    split <;> nofun
  flushed := by
    intro hnew
    unfold Pc.writeOrRead at hnew
    split at hnew <;> cases hnew
  -- what has been written was pending before
  length := by
    have htotal := h.length
    rw [hpc] at htotal
    rw [stray_append, writeOrRead_pending, writeOrRead_owed]
    simp only [Pc.pending, Pc.owed, Event.stray, List.length_append, List.length_take,
      List.length_drop] at htotal ⊢
    omega
  clean hzero := by
    rw [stray_append] at hzero
    obtain ⟨hstdio, hclean⟩ := h.clean (by omega)
    rw [hpc] at hclean
    refine ⟨hstdio, ?_⟩
    rw [writeOrRead_pending, List.append_assoc s.out, List.take_append_drop]
    exact hclean
  finished hfinished := by
    rw [writeOrRead_finished] at hfinished
    cases hfinished

/-- The end of the process flushes what `printf` has kept. -/
theorem Copying.exit (h : Copying stdin as s) {res : Int64} (hpc : s.pc = .returned res) :
    Copying stdin (as ++ [.exit])
      { s with pc := .exited, out := s.out ++ s.stdio, stdio := [],
               complained := res == -1 } where
  fresh := nofun
  begun _ := h.head (by rw [hpc]; nofun)
  alive := nofun
  flushed _ := rfl
  length := by
    have htotal := h.length
    rw [hpc] at htotal
    rw [stray_append]
    simp only [Pc.pending, Pc.owed, Event.stray, List.length_append, List.length_nil] at htotal ⊢
    omega
  clean hzero := by
    rw [stray_append] at hzero
    obtain ⟨hstdio, hclean⟩ := h.clean (by omega)
    rw [hpc] at hclean
    refine ⟨rfl, ?_⟩
    rw [hstdio, List.append_nil]
    exact hclean
  finished _ := h.finished (by rw [hpc]; rfl)

/-- Every step of a run without an error. -/
theorem Copying.step (h : Copying stdin as s) (hfails : a.Fails = false) (hstep : Step s a s') :
    Copying stdin (as ++ [a]) s' ∨ Killed (as ++ [a]) s' := by
  cases hstep with
  | sigaction hpc => exact Or.inl (h.begin hpc)
  | kill hpc =>
    -- before `sigaction` the signal has its default action
    obtain ⟨rfl, hout⟩ := h.fresh hpc
    exact Or.inr ⟨⟨_, rfl⟩, rfl, hout⟩
  | @handler flushed hpc =>
    -- the handler runs between two calls and leaves them alone
    left
    have hne : s.pc ≠ .sigaction := by
      intro heq
      rw [heq] at hpc
      cases hpc
    have hdirty : stray (as ++ [.signal flushed]) ≠ 0 := by
      have hpos : 0 < (Event.signal flushed).stray := by
        show 0 < (receiveSignal sigusr1).length
        decide
      rw [stray_append]
      omega
    have hrunning : s.pc.Running = true := by
      cases hs : s.pc <;> rw [hs] at hpc <;> first | rfl | cases hpc
    exact h.printf hne rfl rfl hrunning rfl hdirty
  | read hpc _ _ hinput => exact Or.inl (h.read hpc hinput)
  | eof hpc hinput =>
    refine Or.inl (h.goto ?_ ?_ ?_ rfl fun _ => hinput) <;> rw [hpc]
    · nofun
    · rfl
    · rfl
  | interruptRead hpc | interruptWrite hpc =>
    refine Or.inl (h.goto ?_ ?_ ?_ rfl nofun) <;> rw [hpc]
    · nofun
    · rfl
    · rfl
  | printRead hpc | printWrite hpc =>
    -- the line was owed since the call was interrupted
    left
    have hdirty : stray as ≠ 0 := by
      apply h.stray_ne_zero
      rw [hpc]
      show intr.length ≠ 0
      decide
    refine h.printf ?_ ?_ ?_ rfl ?_ ?_
    · rw [hpc]
      nofun
    · rw [hpc]
      rfl
    · rw [hpc]
      rfl
    · rw [hpc]
      rfl
    · rw [stray_append]
      exact hdirty
  | write hpc hn => exact Or.inl (h.write hpc hn)
  | failRead | failWrite => cases hfails
  | exit hpc => exact Or.inl (h.exit hpc)

/-- A process that has been killed does nothing more. -/
theorem Killed.no_step (h : Killed as s) : ¬ Step s a s' := by
  intro hstep
  have hkilled := h.pc
  cases hstep with
  | handler hpc =>
    rw [hkilled] at hpc
    cases hpc
  | sigaction hpc | kill hpc | read hpc | eof hpc | interruptRead hpc | printRead hpc
  | failRead hpc | write hpc | interruptWrite hpc | printWrite hpc | failWrite hpc | exit hpc =>
    rw [hkilled] at hpc
    cases hpc

/-- Before its first call the process has copied nothing. -/
theorem start_copying (stdin : List UInt8) : Copying stdin [] (start stdin) where
  fresh _ := ⟨rfl, rfl⟩
  begun hne := absurd rfl hne
  alive := nofun
  flushed := nofun
  length := by simp [start, Pc.pending, Pc.owed, stray]
  clean _ := ⟨rfl, rfl⟩
  finished := nofun

/-- The invariant holds after every run, unless a signal has ended the process before the handler
was set. -/
theorem exec_copying (hexec : (program stdin).Exec as s) (hfails : ∀ a ∈ as, a.Fails = false) :
    Copying stdin as s ∨ Killed as s := by
  revert hfails
  refine System.exec_induction
    (P := fun as s => (∀ a ∈ as, a.Fails = false) → Copying stdin as s ∨ Killed as s) ?_ ?_ hexec
  · rintro s rfl _
    exact Or.inl (start_copying stdin)
  · intro as s a s' _ ih hstep hfails
    have hbefore : ∀ b ∈ as, b.Fails = false :=
      fun b hb => hfails b (List.mem_append_left [a] hb)
    rcases ih hbefore with hcopying | hkilled
    · exact hcopying.step (hfails a (by simp)) hstep
    · exact absurd hstep hkilled.no_step

/-! ## The output

What has reached the output when the process has ended: the input exactly if nothing stray is in it,
or if the input is empty and the process was killed before it did anything. -/

def State.Ended (s : State) : Prop :=
  s.pc = .exited ∨ s.pc = .killed

/-- The output is longer than the input by the stray bytes. -/
theorem Copying.out_eq_iff (h : Copying stdin as s) (hended : s.pc = .exited) :
    s.out = stdin ↔ stray as = 0 := by
  have hflushed : s.stdio = [] := h.flushed hended
  have hinput : s.input = [] := h.finished (by rw [hended]; rfl)
  have htotal := h.length
  have hclean := h.clean
  rw [hended, hinput, hflushed] at htotal
  rw [hended, hinput] at hclean
  constructor
  · intro hout
    rw [hout] at htotal
    simp only [Pc.pending, Pc.owed, List.length_nil] at htotal
    omega
  · intro hzero
    simpa [Pc.pending] using (hclean hzero).2

/-- **A clean output.** In a run without an error that has ended, descriptor `1` has received
the input exactly if there was no disturbance, or the signal came before the `sigaction` and
there was nothing to copy. -/
theorem copyFile_iff (hexec : (program stdin).Exec as s) (hfails : ∀ a ∈ as, a.Fails = false)
    (hended : s.Ended) :
    s.out = stdin ↔ (∀ a ∈ as, a.Disturbs = false)
      ∨ (stdin = [] ∧ ∃ flushed, as.head? = some (.signal flushed)) := by
  rcases exec_copying hexec hfails with h | h
  · have hexited : s.pc = .exited := hended.resolve_right h.alive
    have hhead : as.head? = some .sigaction := h.begun (by rw [hexited]; nofun)
    rw [h.out_eq_iff hexited, stray_eq_zero, hhead]
    exact (or_iff_left (fun ⟨_, _, heq⟩ => nomatch heq)).symm
  · obtain ⟨flushed, hhead⟩ := h.first
    have hmem : Event.signal flushed ∈ as := List.mem_of_mem_head? hhead
    have hdisturbed : ¬ ∀ a ∈ as, a.Disturbs = false := fun hquiet => nomatch hquiet _ hmem
    rw [h.out, or_iff_right hdisturbed]
    constructor
    · intro hempty
      exact ⟨hempty.symm, flushed, hhead⟩
    · intro hempty
      exact hempty.1.symm

end Copying

/-- A signal in the middle of the copy of `hi`. -/
def disturbedRun : List Event :=
  [.sigaction, .read 2, .write 1, .signal 19, .write 1, .read 0, .exit]

/-- A run in which a signal arrives between two writes. -/
theorem exec_disturbedRun :
    ∃ s, (program (bytes "hi")).Exec disturbedRun s ∧ s.pc = .exited
      ∧ s.out = bytes "hreceive signal: 10\ni" := by
  have h₀ : (program (bytes "hi")).Run _ [] (start (bytes "hi")) := .refl
  have h₁ := h₀.snoc (.sigaction rfl)
  have h₂ := h₁.snoc (.read (n := 2) rfl (by decide) (by decide) (by decide))
  have h₃ := h₂.snoc (.write (n := 1) rfl (by decide))
  have h₄ := h₃.snoc (@Step.handler _ 19 rfl)
  have h₅ := h₄.snoc (.write (n := 1) rfl (by decide))
  have h₆ := h₅.snoc (.eof rfl rfl)
  have h₇ := h₆.snoc (.exit rfl)
  exact ⟨_, ⟨_, rfl, h₇⟩, rfl, rfl⟩

/-- In that run the line of the handler stands in the middle of the copy. -/
theorem copyFile_iff_hi :
    ∃ s, (program (bytes "hi")).Exec disturbedRun s ∧ s.Ended
      ∧ (s.out = bytes "hi" ↔ (∀ a ∈ disturbedRun, a.Disturbs = false)
        ∨ (bytes "hi" = [] ∧ ∃ flushed, disturbedRun.head? = some (.signal flushed))) := by
  obtain ⟨s, hexec, hexited, _⟩ := exec_disturbedRun
  have hended : s.Ended := Or.inl hexited
  exact ⟨s, hexec, hended, copyFile_iff hexec (by decide) hended⟩

/-- The handler's line lands between the two bytes. -/
theorem not_clean_hi :
    ∃ as s, (program (bytes "hi")).Exec as s ∧ (∀ a ∈ as, a.Fails = false) ∧ s.Ended
      ∧ s.out = bytes "hreceive signal: 10\ni" ∧ s.out ≠ bytes "hi" := by
  obtain ⟨s, hexec, hexited, hout⟩ := exec_disturbedRun
  refine ⟨disturbedRun, s, hexec, by decide, Or.inl hexited, hout, ?_⟩
  rw [hout]
  decide

end HseDev.Sem11.CopyFile
