import HseDev.Sem21.RunChild

/-!
# HseDev — how `run` of `sem21/task20_5.c` delivers the input

`run_input_writer_handler` sends on what the pipe takes, and closes the write end when nothing
is left or the `write` fails. `step` of `RunProcess` takes for granted that a closed write end
gets no further callback; here the descriptor table and the interest list of the epoll
instance are part of the state, and that is proved. `SIGPIPE` is ignored, so a `write` to a pipe
that nobody reads is one that fails.

* **`LoopState`** — the variables of `run`, with `ctx.input` as a position in the input, and
  what the pipe has accepted. A descriptor that has been closed may be opened again by another
  thread of the caller.
* **`loopStep`** — `epoll_wait` and the input handler over this state; every other call is the
  one of `step`.
* **`Delivering`** — the invariant: a prefix has been accepted, and either the write end is open
  and registered or it is closed and its registration is gone.
* **`loop_refines`** — without the descriptors a run is one of `program`.
* **`input_delivery`** — the law of any run.
-/

namespace HseDev.Sem21

open Transition Descriptors

/-! ## The event loop with its descriptors

The loop of `run` once more, now with its descriptor table, what is registered with `epoll`, and how
much of the input has been written. -/

/-- An entry of the interest list: a descriptor, the file it referred to, and `ev.data.ptr`. -/
structure Registration where
  fd : Int
  file : File
  handler : Handler
  deriving DecidableEq, Repr

/-- `inPos` is the position of `ctx.input` in `input`; `closed` are the descriptors that
`run_close_fd` has closed. -/
structure LoopState where
  pc : Pc
  pid : Int
  isFinished : Bool
  returnCode : Int
  children : List Process
  input : List UInt8
  inPos : Nat
  inPipe1 : Int
  table : Table Int File
  interest : List Registration
  accepted : List UInt8
  closed : List Int

inductive LoopEvent where
  /-- a call of `run`, or a child that exits -/
  | run (e : Event)
  /-- another thread opens a file -/
  | opened (fd : Int) (id : Nat)
  deriving DecidableEq, Repr

/-- The string at `ctx.input`. -/
def LoopState.rest (s : LoopState) : List UInt8 :=
  s.input.drop s.inPos

/-- `run_close_fd`: `EPOLL_CTL_DEL` for what the descriptor refers to, then `close`. The child
may still have the file open, so `close` alone would leave it in the interest list. -/
def LoopState.runCloseFd (s : LoopState) (fd : Int) : LoopState :=
  { s with
    interest := s.interest.filter fun r => ¬ (r.fd = fd ∧ s.table fd = some r.file)
    table := s.table.close fd
    closed := s.closed ++ [fd] }

/-- `write(state->fd, ctx->input, str_len)` that transfers `n` bytes, to whatever file the
descriptor refers to, and `ctx->input += res`. -/
def LoopState.write (s : LoopState) (n : Nat) : Option LoopState :=
  if n ≤ s.rest.length then
    match s.table s.inPipe1 with
    | some .pipeWriteEnd =>
      some { s with inPos := s.inPos + n, accepted := s.accepted ++ s.rest.take n }
    | some _ => some { s with inPos := s.inPos + n }
    | none => none
  else none

/-- `run_input_writer_handler`; there is no `write` if nothing is left. -/
def LoopState.inputWriter (s : LoopState) (res : WriteResult) : Option LoopState :=
  if s.rest.length = 0 then some (s.runCloseFd s.inPipe1)
  else
    match res with
    | .wrote n => s.write n
    | .again => some s
    | .error => some (s.runCloseFd s.inPipe1)

/-- What `step` knows of the state. -/
def LoopState.abs (s : LoopState) : State where
  pc := s.pc
  pid := s.pid
  isFinished := s.isFinished
  returnCode := s.returnCode
  input := s.rest
  writeEnd := s.table s.inPipe1 = some .pipeWriteEnd
  pipe := s.accepted
  children := s.children

/-- The fields that the other calls change. -/
def LoopState.update (s : LoopState) (b : State) : LoopState :=
  { s with pc := b.pc, pid := b.pid, isFinished := b.isFinished, returnCode := b.returnCode,
           children := b.children }

def loopStep (s : LoopState) : LoopEvent → Option LoopState
  | .run (.epollWait (some handler)) =>
    -- the event is about a file in the interest list
    if s.pc = .epollWait ∧ ∃ r ∈ s.interest, r.handler = handler then
      some { s with pc := .callback handler }
    else none
  | .run (.inputWriter res) =>
    if s.pc = .callback .input then
      match s.inputWriter res with
      | some s' => some { s' with pc := .waitpid }
      | none => none
    else none
  | .run e =>
    match step s.abs e with
    | some b => some (s.update b)
    | none => none
  | .opened fd id =>
    if 0 ≤ fd ∧ s.table fd = none then some { s with table := s.table.install fd (.other id) }
    else none

/-- At `fork`, after the set-up. -/
def loopStart (s : SetupState) (input : List UInt8) (children : List Process) : LoopState where
  pc := .fork
  pid := 0
  isFinished := false
  returnCode := 0
  children := children
  input := input
  inPos := 0
  inPipe1 := s.inPipe1
  table := s.table
  interest := [⟨s.inPipe1, .pipeWriteEnd, .input⟩, ⟨s.timeoutFd, .timer, .timeout⟩]
  accepted := []
  closed := []

def loopProgram (s : SetupState) (input : List UInt8) (children : List Process) :
    System LoopState LoopEvent :=
  .ofFun (· = loopStart s input children) loopStep

/-! ## Steps

A step of the input writer is followed with its descriptors; every other event is a step of the loop
without them. -/

/-- The two events that `loopStep` takes over. -/
def Event.Delivers : Event → Prop
  | .epollWait (some _) => True
  | .inputWriter _ => True
  | _ => False

/-- Everything that a step can do. -/
inductive LoopMove (s : LoopState) : LoopEvent → LoopState → Prop where
  | waits (handler : Handler) (hpc : s.pc = .epollWait)
      (hreg : ∃ r ∈ s.interest, r.handler = handler) :
      LoopMove s (.run (.epollWait (some handler))) { s with pc := .callback handler }
  | closes (res : WriteResult) (hpc : s.pc = .callback .input)
      (hlast : s.rest = [] ∨ res = .error) :
      LoopMove s (.run (.inputWriter res)) { s.runCloseFd s.inPipe1 with pc := .waitpid }
  | again (hpc : s.pc = .callback .input) (hrest : s.rest ≠ []) :
      LoopMove s (.run (.inputWriter .again)) { s with pc := .waitpid }
  | writes (n : Nat) (s₁ : LoopState) (hpc : s.pc = .callback .input) (hrest : s.rest ≠ [])
      (hwrite : s.write n = some s₁) :
      LoopMove s (.run (.inputWriter (.wrote n))) { s₁ with pc := .waitpid }
  | other (e : Event) (b : State) (he : ¬ e.Delivers) (hstep : step s.abs e = some b) :
      LoopMove s (.run e) (s.update b)
  | opened (fd : Int) (id : Nat) (hfree : s.table fd = none) :
      LoopMove s (.opened fd id) { s with table := s.table.install fd (.other id) }

variable {s s' : LoopState} {e : LoopEvent}

/-- A call of the input writer writes, waits, or closes the pipe. -/
theorem inputWriter_move {res : WriteResult} {s₁ : LoopState} (hpc : s.pc = .callback .input)
    (h : s.inputWriter res = some s₁) :
    LoopMove s (.run (.inputWriter res)) { s₁ with pc := .waitpid } := by
  unfold LoopState.inputWriter at h
  by_cases hrest : s.rest.length = 0
  · rw [if_pos hrest] at h
    cases h
    exact .closes res hpc (Or.inl (List.length_eq_zero_iff.mp hrest))
  · rw [if_neg hrest] at h
    have hne : s.rest ≠ [] := fun hnil => hrest (List.length_eq_zero_iff.mpr hnil)
    cases res with
    | wrote n => exact .writes n s₁ hpc hne h
    | again =>
      cases h
      exact .again hpc hne
    | error =>
      cases h
      exact .closes .error hpc (Or.inr rfl)

/-- An event that is not about the input is a step of the smaller loop. -/
theorem loopStep_other {e : Event} (he : ¬ e.Delivers) :
    loopStep s (.run e) = (step s.abs e).map s.update := by
  have hmap : ∀ o : Option State, (match o with | some b => some (s.update b) | none => none)
      = o.map s.update := by
    intro o
    cases o <;> rfl
  cases e with
  | epollWait ready =>
    cases ready with
    | none => exact hmap _
    | some handler => exact absurd trivial he
  | inputWriter res => exact absurd trivial he
  | _ => exact hmap _

/-- Every step is one of the moves. -/
theorem loopStep_move (hstep : loopStep s e = some s') : LoopMove s e s' := by
  cases e with
  | opened fd id =>
    simp only [loopStep] at hstep
    split at hstep <;> cases hstep
    next hfree => exact .opened fd id hfree.2
  | run e =>
    by_cases he : e.Delivers
    · cases e with
      | epollWait ready =>
        cases ready with
        | none => exact he.elim
        | some handler =>
          simp only [loopStep] at hstep
          split at hstep <;> cases hstep
          next h => exact .waits handler h.1 h.2
      | inputWriter res =>
        simp only [loopStep] at hstep
        split at hstep
        · next hpc =>
          split at hstep <;> cases hstep
          next h => exact inputWriter_move hpc h
        · cases hstep
      | _ => exact he.elim
    · rw [loopStep_other he] at hstep
      obtain ⟨b, hb, hs'⟩ := Option.map_eq_some_iff.mp hstep
      cases hs'
      exact .other e b he hb

/-- The other calls do not touch the input, and lead into no callback. -/
theorem step_frame {t t' : State} {e : Event} (he : ¬ e.Delivers) (hstep : step t e = some t') :
    (t'.input = t.input ∧ t'.writeEnd = t.writeEnd ∧ t'.pipe = t.pipe)
      ∧ (t'.pc = .callback .input → t.pc = .callback .input) := by
  have hloop : ∀ u : State, u.loopTest.pc ≠ .callback .input := by
    intro u
    rcases loopTest_pc u with h | h <;> rw [h] <;> exact nofun
  cases step_turn hstep with
  | ready | input => exact absurd trivial he
  | setup | setupFails | kill => exact ⟨⟨rfl, rfl, rfl⟩, nofun⟩
  | forkFails | fork | notReady => exact ⟨⟨rfl, rfl, rfl⟩, fun h => absurd h (hloop _)⟩
  | timeout x _ =>
    obtain ⟨_, _, hframe⟩ := runTimeoutHandler_frame t x
    rw [hframe]
    exact ⟨⟨rfl, rfl, rfl⟩, nofun⟩
  | waitpid =>
    split
    · exact ⟨⟨rfl, rfl, rfl⟩, fun h => absurd h (hloop _)⟩
    · exact ⟨⟨rfl, rfl, rfl⟩, fun h => absurd h (hloop _)⟩
  | exits => exact ⟨⟨rfl, rfl, rfl⟩, id⟩

/-! ## The invariant

The bytes that the pipe has accepted are the first of the input, and its write end is open and
registered until it is closed. -/

/-- The write end is open and its handler registered, or it is closed for good. -/
inductive WriteEnd (s : LoopState) : Prop where
  | isOpen (hclosed : s.closed = []) (htable : s.table s.inPipe1 = some .pipeWriteEnd)
  | isClosed (hclosed : s.closed = [s.inPipe1]) (htable : s.table s.inPipe1 ≠ some .pipeWriteEnd)
      (hreg : ∀ r ∈ s.interest, r.handler ≠ .input) (hpc : s.pc ≠ .callback .input)

/-- **The invariant of the loop.** -/
structure Delivering (input : List UInt8) (fd : Int) (s : LoopState) : Prop where
  sameInput : s.input = input
  inPipe1 : s.inPipe1 = fd
  accepted : s.accepted = input.take s.inPos
  inPos_le : s.inPos ≤ input.length
  registered : ∀ r ∈ s.interest, r.handler = .input → r.fd = s.inPipe1 ∧ r.file = .pipeWriteEnd
  writeEnd : WriteEnd s

variable {input : List UInt8} {fd : Int} {s₀ : SetupState} {children : List Process}

/-- Only the handler of an open write end is called. -/
theorem Delivering.open_of_callback (h : Delivering input fd s) (hpc : s.pc = .callback .input) :
    s.closed = [] ∧ s.table s.inPipe1 = some .pipeWriteEnd := by
  cases h.writeEnd with
  | isOpen hclosed htable => exact ⟨hclosed, htable⟩
  | isClosed _ _ _ hnot => exact absurd hpc hnot

/-- While the handler is registered the write end is open. -/
theorem Delivering.open_of_registered (h : Delivering input fd s)
    (hreg : ∃ r ∈ s.interest, r.handler = .input) : s.table s.inPipe1 = some .pipeWriteEnd := by
  obtain ⟨r, hr, hhandler⟩ := hreg
  cases h.writeEnd with
  | isOpen _ htable => exact htable
  | isClosed _ _ hnone _ => exact absurd hhandler (hnone r hr)

/-- `EPOLL_CTL_DEL` finds the registration, because the descriptor still refers to the pipe. -/
theorem Delivering.runCloseFd (h : Delivering input fd s) (hpc : s.pc = .callback .input) :
    Delivering input fd { s.runCloseFd s.inPipe1 with pc := .waitpid } := by
  obtain ⟨hclosed, htable⟩ := h.open_of_callback hpc
  refine ⟨h.sameInput, h.inPipe1, h.accepted, h.inPos_le, ?_, .isClosed ?_ ?_ ?_ nofun⟩
  · intro r hr
    exact h.registered r (List.mem_filter.mp hr).1
  · show s.closed ++ [s.inPipe1] = [s.inPipe1]
    rw [hclosed, List.nil_append]
  · show s.table.close s.inPipe1 s.inPipe1 ≠ _
    rw [close_self]
    exact nofun
  · intro r hr hhandler
    obtain ⟨hmem, hkept⟩ := List.mem_filter.mp hr
    obtain ⟨hfd, hfile⟩ := h.registered r hmem hhandler
    simp [hfd, hfile, htable] at hkept

/-- A `write` to the open pipe accepts the next bytes of the input. -/
theorem write_eq {n : Nat} {s₁ : LoopState} (htable : s.table s.inPipe1 = some .pipeWriteEnd)
    (hwrite : s.write n = some s₁) : n ≤ s.rest.length
      ∧ s₁ = { s with inPos := s.inPos + n, accepted := s.accepted ++ s.rest.take n } := by
  unfold LoopState.write at hwrite
  split at hwrite
  · next hle =>
    rw [htable] at hwrite
    cases hwrite
    exact ⟨hle, rfl⟩
  · cases hwrite

/-- What the pipe takes comes off the rest. -/
theorem Delivering.writes {n : Nat} {s₁ : LoopState} (h : Delivering input fd s)
    (hpc : s.pc = .callback .input) (hwrite : s.write n = some s₁) :
    Delivering input fd { s₁ with pc := .waitpid } := by
  obtain ⟨hclosed, htable⟩ := h.open_of_callback hpc
  obtain ⟨hle, hs₁⟩ := write_eq htable hwrite
  have hpos := h.inPos_le
  have hrest : s.rest = input.drop s.inPos := by
    rw [← h.sameInput]
    rfl
  rw [hrest, List.length_drop] at hle
  subst hs₁
  refine ⟨h.sameInput, h.inPipe1, ?_, ?_, h.registered, .isOpen hclosed htable⟩
  · show s.accepted ++ s.rest.take n = input.take (s.inPos + n)
    rw [h.accepted, hrest, List.take_add]
  · show s.inPos + n ≤ input.length
    omega

theorem Delivering.step (h : Delivering input fd s) (hstep : loopStep s e = some s') :
    Delivering input fd s' := by
  cases loopStep_move hstep with
  | waits handler hpc hreg =>
    refine ⟨h.sameInput, h.inPipe1, h.accepted, h.inPos_le, h.registered, ?_⟩
    cases h.writeEnd with
    | isOpen hclosed htable => exact .isOpen hclosed htable
    | isClosed hclosed htable hnone _ =>
      -- the event is not one of the input handler: it is not registered any more
      refine .isClosed hclosed htable hnone fun hcallback => ?_
      obtain ⟨r, hr, hhandler⟩ := hreg
      cases hcallback
      exact hnone r hr hhandler
  | closes _ hpc _ => exact h.runCloseFd hpc
  | again hpc _ =>
    obtain ⟨hclosed, htable⟩ := h.open_of_callback hpc
    exact ⟨h.sameInput, h.inPipe1, h.accepted, h.inPos_le, h.registered, .isOpen hclosed htable⟩
  | writes n s₁ hpc _ hwrite => exact h.writes hpc hwrite
  | other e b he hb =>
    refine ⟨h.sameInput, h.inPipe1, h.accepted, h.inPos_le, h.registered, ?_⟩
    cases h.writeEnd with
    | isOpen hclosed htable => exact .isOpen hclosed htable
    | isClosed hclosed htable hnone hpc =>
      exact .isClosed hclosed htable hnone fun hcallback => hpc ((step_frame he hb).2 hcallback)
  | opened fd' id hfree =>
    refine ⟨h.sameInput, h.inPipe1, h.accepted, h.inPos_le, h.registered, ?_⟩
    by_cases hsame : s.inPipe1 = fd'
    · -- the number of the closed write end is used again, for another file
      subst hsame
      cases h.writeEnd with
      | isOpen _ htable => exact absurd (htable.symm.trans hfree) nofun
      | isClosed hclosed _ hnone hpc =>
        refine .isClosed hclosed ?_ hnone hpc
        show s.table.install s.inPipe1 _ s.inPipe1 ≠ _
        rw [install_self]
        exact nofun
    · have htable' : s.table.install fd' (.other id) s.inPipe1 = s.table s.inPipe1 :=
        install_ne hsame
      cases h.writeEnd with
      | isOpen hclosed htable => exact .isOpen hclosed (htable'.trans htable)
      | isClosed hclosed htable hnone hpc =>
        exact .isClosed hclosed (fun heq => htable (htable'.symm.trans heq)) hnone hpc

/-- A set-up that gets to `fork` has the write end of its pipe open. -/
theorem forks_writeEnd {k : SetupKernel} {t : Table Int File} {err : Errno}
    (hforks : runSetup k t err = .forks s₀) : s₀.table s₀.inPipe1 = some .pipeWriteEnd := by
  rw [forks_atFork hforks]
  exact install_self

/-- So the loop begins with nothing accepted and everything registered. -/
theorem loopStart_delivering {k : SetupKernel} {t : Table Int File} {err : Errno}
    (hforks : runSetup k t err = .forks s₀) :
    Delivering input s₀.inPipe1 (loopStart s₀ input children) := by
  refine ⟨rfl, rfl, rfl, Nat.zero_le _, ?_, .isOpen rfl (forks_writeEnd hforks)⟩
  intro r hr hhandler
  rcases List.mem_cons.mp hr with rfl | hr
  · exact ⟨rfl, rfl⟩
  · rw [List.mem_singleton.mp hr] at hhandler
    cases hhandler

/-- The invariant is kept along a run. -/
theorem Delivering.run {t : LoopState} {as : List LoopEvent} (h : Delivering input fd t)
    (hrun : (loopProgram s₀ input children).Run t as s) : Delivering input fd s := by
  induction hrun with
  | refl => exact h
  | snoc _ hstep ih => exact ih.step hstep

/-- It holds in every run of the loop behind a set-up that succeeds. -/
theorem exec_delivering {k : SetupKernel} {t : Table Int File} {err : Errno}
    {as : List LoopEvent} (hforks : runSetup k t err = .forks s₀)
    (h : (loopProgram s₀ input children).Exec as s) : Delivering input s₀.inPipe1 s := by
  obtain ⟨_, rfl, hrun⟩ := h
  exact (loopStart_delivering hforks).run hrun

/-! ## The runs of `program`

Without its descriptors the loop is the one that the other properties of `run` are proved of. -/

/-- The event of `step`; another thread is not part of it. -/
def LoopEvent.call : LoopEvent → Option Event
  | .run e => some e
  | .opened _ _ => none

/-- Closing the descriptor is the end of the input there. -/
theorem abs_runCloseFd (s : LoopState) (pc : Pc) :
    LoopState.abs { s.runCloseFd s.inPipe1 with pc := pc }
      = { s.abs with pc := pc, writeEnd := false } := by
  simp [LoopState.abs, LoopState.runCloseFd, LoopState.rest]

/-- A step that is not about the input commutes with the projection. -/
theorem abs_update {b : State} {e : Event} (he : ¬ e.Delivers) (hb : step s.abs e = some b) :
    (s.update b).abs = b := by
  have hframe := (step_frame he hb).1
  cases b
  simp only at hframe
  obtain ⟨rfl, rfl, rfl⟩ := hframe
  rfl

/-- One call of the loop is one call of `step`: the write end that a callback is about is open. -/
theorem LoopMove.abs_step {e : Event} (h : Delivering input fd s) (hmove : LoopMove s (.run e) s') :
    step s.abs e = some s'.abs := by
  cases hmove with
  | waits handler hpc hreg =>
    cases handler with
    | timeout => simp [step, LoopState.abs, LoopState.rest, hpc]
    | input =>
      have htable := h.open_of_registered hreg
      simp [step, LoopState.abs, LoopState.rest, hpc, htable]
  | closes res hpc hlast =>
    -- `step` closes the write end for either reason, too
    rw [abs_runCloseFd]
    have hwriter : runInputWriterHandler s.abs res = some { s.abs with writeEnd := false } := by
      unfold runInputWriterHandler
      show (if s.rest = [] then _ else _) = _
      split
      · rfl
      · next hrest =>
        rw [hlast.resolve_left hrest]
    simp only [step, show s.abs.pc = .callback .input from hpc, hwriter]
  | again hpc hrest =>
    have hwriter : runInputWriterHandler s.abs .again = some s.abs := by
      unfold runInputWriterHandler
      exact if_neg hrest
    simp only [step, show s.abs.pc = .callback .input from hpc, hwriter]
    rfl
  | writes n s₁ hpc hrest hwrite =>
    obtain ⟨hle, rfl⟩ := write_eq (h.open_of_callback hpc).2 hwrite
    have hwriter : runInputWriterHandler s.abs (.wrote n)
        = some { s.abs with input := s.rest.drop n, pipe := s.accepted ++ s.rest.take n } := by
      unfold runInputWriterHandler
      show (if s.rest = [] then _ else if n ≤ s.rest.length then _ else _) = _
      rw [if_neg hrest, if_pos hle]
      rfl
    simp only [step, show s.abs.pc = .callback .input from hpc, hwriter]
    simp only [LoopState.abs, LoopState.rest, List.drop_drop]
  | other e b he hb => rw [abs_update he hb, hb]

theorem abs_opened {fd' : Int} {id : Nat} (hfree : s.table fd' = none) :
    LoopState.abs { s with table := s.table.install fd' (.other id) } = s.abs := by
  have hpipe : (s.table.install fd' (.other id) s.inPipe1 = some .pipeWriteEnd)
      ↔ (s.table s.inPipe1 = some .pipeWriteEnd) := by
    by_cases hsame : s.inPipe1 = fd'
    · rw [hsame, install_self, hfree]
      exact ⟨nofun, nofun⟩
    · rw [install_ne hsame]
  simp only [LoopState.abs, LoopState.rest, hpipe]

/-- **Without its descriptors a run is one of `program`**, which therefore leaves out nothing
that the loop can do. -/
theorem loop_refines {k : SetupKernel} {t : Table Int File} {err : Errno} {as : List LoopEvent}
    (hforks : runSetup k t err = .forks s₀) (h : (loopProgram s₀ input children).Exec as s) :
    (program input children).Exec (.setup none :: as.filterMap LoopEvent.call) s.abs := by
  obtain ⟨_, rfl, hrun⟩ := h
  have hstart : Delivering input s₀.inPipe1 (loopStart s₀ input children) :=
    loopStart_delivering hforks
  have hsetup : (program input children).step (start input children) (.setup none)
      (loopStart s₀ input children).abs := by
    show step _ _ = _
    simp [step, start, loopStart, LoopState.abs, LoopState.rest, forks_writeEnd hforks]
  refine ⟨start input children, rfl, .cons hsetup ?_⟩
  refine (System.Run.filterMap (T := program input children) (fun _ _ _ hs hlast => hs.step hlast)
    ?_ ?_ hstart hrun).2
  · intro u a v b hu hlast hcall
    cases a with
    | opened _ _ => cases hcall
    | run e =>
      cases hcall
      exact (loopStep_move hlast).abs_step hu
  · intro u a v hu hlast hcall
    cases a with
    | run e => cases hcall
    | opened fd' id =>
      cases loopStep_move hlast with
      | opened _ _ hfree => exact abs_opened hfree

/-! ## The law of a run

The pipe is closed at most once, after the last byte or after an error, and its handler is not
called again. -/

/-- A call of the input handler, or a step of it. -/
inductive LoopEvent.Invokes : LoopEvent → Prop where
  | called : Invokes (.run (.epollWait (some .input)))
  | inputWriter (res : WriteResult) : Invokes (.run (.inputWriter res))

/-- The callback finds the input exhausted, or its `write` fails with an error that is not
`EAGAIN`. -/
def LoopState.Closing (s : LoopState) (res : WriteResult) : Prop :=
  s.rest = [] ∨ res = .error

/-- Only the input writer closes the pipe. -/
theorem closed_of_not_inputWriter (hstep : loopStep s e = some s')
    (he : ∀ res, e ≠ .run (.inputWriter res)) : s'.closed = s.closed := by
  cases loopStep_move hstep with
  | closes res _ _ => exact absurd rfl (he res)
  | again _ _ => rfl
  | writes n _ _ _ _ => exact absurd rfl (he (.wrote n))
  | _ => rfl

/-- **One callback**: the descriptor has not been closed before, and is exactly if the input is
exhausted or the `write` fails. -/
theorem closed_of_inputWriter {res : WriteResult} (h : Delivering input fd s)
    (hstep : loopStep s (.run (.inputWriter res)) = some s') :
    s.closed = [] ∧ (s.Closing res → s'.closed = [fd]) ∧ (¬ s.Closing res → s'.closed = []) := by
  have hcloses : ∀ hpc : s.pc = .callback .input, (s.closed ++ [s.inPipe1]) = [fd] := by
    intro hpc
    rw [(h.open_of_callback hpc).1, h.inPipe1, List.nil_append]
  cases loopStep_move hstep with
  | closes _ hpc hlast =>
    exact ⟨(h.open_of_callback hpc).1, fun _ => hcloses hpc, fun hnot => absurd hlast hnot⟩
  | again hpc hrest =>
    have hnot : ¬ s.Closing .again := fun hc => hc.elim hrest nofun
    have hclosed := (h.open_of_callback hpc).1
    exact ⟨hclosed, fun hc => absurd hc hnot, fun _ => hclosed⟩
  | writes n s₁ hpc hrest hwrite =>
    obtain ⟨hclosed, htable⟩ := h.open_of_callback hpc
    obtain ⟨_, rfl⟩ := write_eq htable hwrite
    have hnot : ¬ s.Closing (.wrote n) := fun hc => hc.elim hrest nofun
    exact ⟨hclosed, fun hc => absurd hc hnot, fun _ => hclosed⟩
  | other _ _ he _ => exact absurd trivial he

/-- After the close the handler is not called, and nothing else is closed. -/
theorem closed_step (h : Delivering input fd s) (hclosed : s.closed ≠ [])
    (hstep : loopStep s e = some s') : ¬ e.Invokes ∧ s'.closed = s.closed := by
  have hinvokes : ¬ e.Invokes := by
    intro hinv
    cases h.writeEnd with
    | isOpen hnil _ => exact hclosed hnil
    | isClosed _ _ hnone hpc =>
      -- the handler is not running, and nothing registered leads to it
      cases hinv with
      | inputWriter res => exact hclosed (closed_of_inputWriter h hstep).1
      | called =>
        cases loopStep_move hstep with
        | waits _ _ hreg =>
          obtain ⟨r, hr, hhandler⟩ := hreg
          exact hnone r hr hhandler
        | other _ _ he _ => exact he trivial
  refine ⟨hinvokes, closed_of_not_inputWriter hstep ?_⟩
  rintro res rfl
  exact hinvokes (.inputWriter res)

/-- Once the pipe is closed no event is about the input. Induction on the run. -/
theorem closed_run {t : LoopState} {as : List LoopEvent} (h : Delivering input fd t)
    (hclosed : t.closed ≠ []) (hrun : (loopProgram s₀ input children).Run t as s) :
    ∀ e ∈ as, ¬ e.Invokes := by
  have hall : (∀ e ∈ as, ¬ e.Invokes) ∧ s.closed = t.closed := by
    induction hrun with
    | refl => exact ⟨by simp, rfl⟩
    | snoc run hlast ih =>
      obtain ⟨hbefore, heq⟩ := ih
      obtain ⟨hnow, hsame⟩ := closed_step (h.run run) (heq ▸ hclosed) hlast
      refine ⟨fun e he => ?_, hsame.trans heq⟩
      rcases List.mem_append.mp he with he | he
      · exact hbefore e he
      · rw [List.mem_singleton.mp he]
        exact hnow
  exact hall.1

/-- A closed write end has been closed by a callback of the run. -/
theorem exists_closing {k : SetupKernel} {t : Table Int File} {err : Errno} {as : List LoopEvent}
    (hforks : runSetup k t err = .forks s₀) (h : (loopProgram s₀ input children).Exec as s) :
    s.closed ≠ [] → ∃ pre res post u, as = pre ++ .run (.inputWriter res) :: post
      ∧ (loopProgram s₀ input children).Exec pre u ∧ u.Closing res := by
  refine System.exec_induction (P := fun as s => s.closed ≠ [] → ∃ pre res post u,
    as = pre ++ .run (.inputWriter res) :: post
      ∧ (loopProgram s₀ input children).Exec pre u ∧ u.Closing res) ?_ ?_ h
  · rintro _ rfl hclosed
    exact absurd rfl hclosed
  · intro as u e v hexec ih hlast hclosed
    have hdelivering := exec_delivering hforks hexec
    by_cases hwriter : ∃ res, e = .run (.inputWriter res)
    · obtain ⟨res, rfl⟩ := hwriter
      refine ⟨as, res, [], u, rfl, hexec, ?_⟩
      by_contra hnot
      exact hclosed ((closed_of_inputWriter hdelivering hlast).2.2 hnot)
    · have hsame : v.closed = u.closed :=
        closed_of_not_inputWriter hlast fun res heq => hwriter ⟨res, heq⟩
      obtain ⟨pre, res, post, w, rfl, hpre, hclosing⟩ := ih (hsame ▸ hclosed)
      exact ⟨pre, res, post ++ [e], w, by simp, hpre, hclosing⟩

/-- **The delivery of the input.** In every run the pipe has got the bytes before `ctx.input`,
and the write end is closed at most once: by the first callback that finds the input exhausted
or whose `write` fails with an error that is not `EAGAIN`, after which the handler is never
called. -/
theorem input_delivery (k : SetupKernel) (t : Table Int File) (err : Errno) (s₀ : SetupState)
    (hforks : runSetup k t err = .forks s₀) (input : List UInt8) (children : List Process)
    (as : List LoopEvent) (s : LoopState)
    (h : (loopProgram s₀ input children).Exec as s) :
    (s.accepted = input.take s.inPos ∧ s.rest = input.drop s.inPos ∧ s.inPos ≤ input.length)
      ∧ (s.closed = [] ∨ s.closed = [s₀.inPipe1])
      ∧ (s.closed ≠ [] → ∃ pre res post u, as = pre ++ .run (.inputWriter res) :: post
          ∧ (loopProgram s₀ input children).Exec pre u ∧ u.Closing res)
      ∧ ∀ pre res post, as = pre ++ .run (.inputWriter res) :: post →
          ∃ u u', (loopProgram s₀ input children).Exec pre u
            ∧ loopStep u (.run (.inputWriter res)) = some u'
            ∧ (loopProgram s₀ input children).Run u' post s
            ∧ u.closed = []
            ∧ (u.Closing res → u'.closed = [s₀.inPipe1] ∧ ∀ e ∈ post, ¬ e.Invokes)
            ∧ (¬ u.Closing res → u'.closed = []) := by
  have hinv := exec_delivering hforks h
  have hrest : s.rest = input.drop s.inPos := by
    rw [← hinv.sameInput]
    rfl
  have honce : s.closed = [] ∨ s.closed = [s₀.inPipe1] := by
    cases hinv.writeEnd with
    | isOpen hclosed _ => exact Or.inl hclosed
    | isClosed hclosed _ _ _ => exact Or.inr (hinv.inPipe1 ▸ hclosed)
  refine ⟨⟨hinv.accepted, hrest, hinv.inPos_le⟩, honce, exists_closing hforks h, ?_⟩
  rintro pre res post rfl
  -- the call in question, with the run before and behind it
  obtain ⟨u, u', hpre, hstep, hpost⟩ := h.split_at post
  obtain ⟨hbefore, hcloses, hkeeps⟩ := closed_of_inputWriter (exec_delivering hforks hpre) hstep
  refine ⟨u, u', hpre, hstep, hpost, hbefore, fun hclosing => ?_, hkeeps⟩
  have hclosed : u'.closed ≠ [] := by
    rw [hcloses hclosing]
    exact nofun
  -- once it is closed the descriptor stays so, and there is no further call
  have hinv' := exec_delivering hforks (hpre.extend (.single hstep))
  exact ⟨hcloses hclosing, closed_run hinv' hclosed hpost⟩

/-- Two bytes go out one by one; the timer expires in between, and the closed number is used
again. -/
theorem input_delivery_two : ∃ as s,
    (loopProgram (SetupKernel.atFork ⟨fun _ => none, 0, 1, 3, 4, fun _ => none⟩ (fun _ => none) 0)
      [104, 105] []).Exec as s
      ∧ s.table 4 = some (.other 9) ∧ s.inPos = 2 ∧ s.accepted = [104, 105].take s.inPos
      ∧ ∃ pre res post, as = pre ++ .run (.inputWriter res) :: post := by
  obtain ⟨as, s, hexec, htable, hpos, hclosed⟩ : ∃ as s,
      (loopProgram (SetupKernel.atFork ⟨fun _ => none, 0, 1, 3, 4, fun _ => none⟩
        (fun _ => none) 0) [104, 105] []).Exec as s
        ∧ s.table 4 = some (.other 9) ∧ s.inPos = 2 ∧ s.closed = [4] :=
    ⟨[.run (.fork (some 7)), .run (.epollWait (some .input)), .run (.inputWriter (.wrote 1)),
      .run (.waitpid 0 (.exited 0)), .run (.epollWait (some .timeout)),
      .run (.timeoutRead none), .run (.waitpid 0 (.exited 0)),
      .run (.epollWait (some .input)), .run (.inputWriter (.wrote 1)),
      .run (.waitpid 0 (.exited 0)), .run (.epollWait (some .input)),
      .run (.inputWriter .again), .opened 4 9], _, ⟨_, rfl, System.run_ofFun_iff.mpr rfl⟩,
      rfl, rfl, rfl⟩
  have h := input_delivery _ _ _ _ (runSetup_forks _ _ (by decide)) [104, 105] [] as s hexec
  obtain ⟨pre, res, post, _, hsplit, _⟩ := h.2.2.1 (by simp [hclosed])
  exact ⟨as, s, hexec, htable, hpos, h.1.1, pre, res, post, hsplit⟩

end HseDev.Sem21
