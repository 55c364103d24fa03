import HseDev.Sem11.CopyFile

/-!
# HseDev — the loops of `copy_file` in `sem11/task11_2.c`

`copy_file` alone, with its variables: the buffer, the pointer into it, what is left to write
and the total. It takes its calls one by one; a short count makes it write the rest, `EINTR`
makes it repeat the call.

* **`copyFile`** — one `read` or `write` with its result.
* **`Copied`** — what holds while the input goes through the buffer.
* **`copy_exact`** — what has been accepted is the beginning of the input, a total is returned
  only for all of it, and `-1` only for the first failure.
* **`copyFile_refines`** — with the signals left out, these are the steps of the process.
-/

namespace HseDev.Sem11.CopySchedule

open Transition

/-- What a call returns: a count, or `-1` with `EINTR` or another value of `errno`. -/
inductive Result where
  | count (n : Nat)
  | eintr
  | error
  deriving DecidableEq, Repr

inductive Call where
  | read (tmp : Result)
  | write (wRes : Result)
  deriving DecidableEq, Repr

/-- The outer loop, the inner loop, or after the `return`. -/
inductive Pc where
  | read
  | write
  | returned (res : Int64)
  deriving DecidableEq, Repr

/-- `input` is what `in_fd` still delivers, `accepted` what `out_fd` has taken and `printed` what
has been given to `printf`. -/
structure State where
  pc : Pc
  input : List UInt8
  buffer : List UInt8
  totalRead : UInt64
  current : Nat
  toWrite : UInt64
  accepted : List UInt8
  printed : List UInt8
  deriving DecidableEq, Repr

/-- `while (to_write)` -/
def State.whileToWrite (s : State) : State :=
  { s with pc := if s.toWrite = 0 then .read else .write }

/-- A `read` that returns `tmp` bytes, up to the test of the inner loop. -/
def State.readBytes (s : State) (tmp : Nat) : State :=
  { s with
    input := s.input.drop tmp
    buffer := s.input.take tmp ++ s.buffer.drop tmp
    totalRead := s.totalRead + UInt64.ofNat tmp
    current := 0
    toWrite := UInt64.ofNat tmp }

/-- A `write` that accepts `wRes` bytes. -/
def State.writeBytes (s : State) (wRes : Nat) : State :=
  { s with
    accepted := s.accepted ++ (s.buffer.drop s.current).take wRes
    current := s.current + wRes
    toWrite := s.toWrite - UInt64.ofNat wRes }

/-- `printf("intr\n")` -/
def State.printIntr (s : State) : State :=
  { s with printed := s.printed ++ CopyFile.intr }

/-- One call of `copy_file`, if its result is one that the call can have. -/
def copyFile (s : State) (call : Call) : Option State :=
  match s.pc, call with
  | .read, .read .eintr => some s.printIntr
  | .read, .read .error => some { s with pc := .returned (-1) }
  | .read, .read (.count tmp) =>
    if tmp = 0 then
      if s.input = [] then some { s with pc := .returned s.totalRead.toInt64 } else none
    else if tmp ≤ CopyFile.bufferSize ∧ tmp ≤ s.input.length then
      some (s.readBytes tmp).whileToWrite
    else none
  | .write, .write .eintr => some s.printIntr
  | .write, .write .error => some { s with pc := .returned (-1) }
  | .write, .write (.count wRes) =>
    if wRes ≤ s.toWrite.toNat then some (s.writeBytes wRes).whileToWrite else none
  | _, _ => none

/-- The buffer is not initialized, and nothing has been printed. -/
def start (input buffer : List UInt8) : State where
  pc := .read
  input := input
  buffer := buffer
  totalRead := 0
  current := 0
  toWrite := 0
  accepted := []
  printed := []

def program (input buffer : List UInt8) : System State Call :=
  .ofFun (· = start input buffer) copyFile

/-- A call that has failed, other than by an interruption. -/
def Call.Fails : Call → Prop
  | .read .error | .write .error => True
  | _ => False

/-! ## Steps

The state machine of `copy_file` with one system call a step, so that a signal can arrive between
any two of them. `Turn` is what each call does; every other proof splits on it. -/

/-- Everything that a call can do. -/
inductive Turn (s : State) : Call → State → Prop where
  | intrRead (hpc : s.pc = .read) : Turn s (.read .eintr) s.printIntr
  | failRead (hpc : s.pc = .read) : Turn s (.read .error) { s with pc := .returned (-1) }
  | eof (hpc : s.pc = .read) (hinput : s.input = []) :
      Turn s (.read (.count 0)) { s with pc := .returned s.totalRead.toInt64 }
  | read (tmp : Nat) (hpc : s.pc = .read) (hpos : tmp ≠ 0) (hsize : tmp ≤ CopyFile.bufferSize)
      (hinput : tmp ≤ s.input.length) :
      Turn s (.read (.count tmp)) { s.readBytes tmp with pc := .write }
  | intrWrite (hpc : s.pc = .write) : Turn s (.write .eintr) s.printIntr
  | failWrite (hpc : s.pc = .write) : Turn s (.write .error) { s with pc := .returned (-1) }
  | write (wRes : Nat) (hpc : s.pc = .write) (hwRes : wRes ≤ s.toWrite.toNat) :
      Turn s (.write (.count wRes)) (s.writeBytes wRes).whileToWrite

variable {s s' : State} {call : Call}

/-- What a `read` returns is what there is to write then, and it is not zero. -/
theorem readBytes_toWrite {tmp : Nat} (hpos : tmp ≠ 0) (hsize : tmp ≤ CopyFile.bufferSize) :
    (s.readBytes tmp).toWrite.toNat = tmp ∧ (s.readBytes tmp).toWrite ≠ 0 := by
  have hbound : tmp < UInt64.size := Nat.lt_of_le_of_lt hsize (by decide)
  have hnat : (s.readBytes tmp).toWrite.toNat = tmp := UInt64.toNat_ofNat_of_lt' hbound
  refine ⟨hnat, fun hzero => hpos ?_⟩
  rw [hzero] at hnat
  exact hnat.symm

/-- A step of the function is one of the turns. -/
theorem copyFile_turn (h : copyFile s call = some s') : Turn s call s' := by
  unfold copyFile at h
  split at h
  · next hpc =>
    cases h
    exact .intrRead hpc
  · next hpc =>
    cases h
    exact .failRead hpc
  · next tmp hpc =>
    split at h
    · next hzero =>
      split at h <;> cases h
      next hinput =>
      rw [hzero]
      exact .eof hpc hinput
    · next hpos =>
      split at h <;> cases h
      next hfits =>
      have hturn := Turn.read tmp hpc hpos hfits.1 hfits.2
      unfold State.whileToWrite
      rwa [if_neg (readBytes_toWrite hpos hfits.1).2]
  · next hpc =>
    cases h
    exact .intrWrite hpc
  · next hpc =>
    cases h
    exact .failWrite hpc
  · next wRes hpc =>
    split at h <;> cases h
    next hwRes => exact .write wRes hpc hwRes
  · cases h

/-! ## The bytes on their way

The pending bytes are the part of the buffer between the two offsets; `Copied` says that with the
written and the unread ones they are the input. -/

/-- The bytes of the buffer that are still to be written. -/
def State.pending (s : State) : List UInt8 :=
  (s.buffer.drop s.current).take s.toWrite.toNat

/-- **The invariant**: every byte of the input has been accepted, waits in the buffer or is still
to be read, in this order. -/
structure Copied (stdin : List UInt8) (s : State) : Prop where
  all : s.accepted ++ s.pending ++ s.input = stdin
  inside : s.current + s.toWrite.toNat ≤ s.buffer.length
  total : s.totalRead.toNat + s.input.length = stdin.length
  reading : s.pc = .read → s.toWrite = 0

variable {stdin buffer : List UInt8} {as : List Call}

/-- With nothing to write nothing is on its way. -/
theorem pending_nil (h : s.toWrite = 0) : s.pending = [] := by
  unfold State.pending
  rw [h]
  rfl

/-- A call that leaves the variables alone. -/
theorem Copied.same (h : Copied stdin s) {pc : Pc} {printed : List UInt8}
    (hreading : pc = .read → s.toWrite = 0) :
    Copied stdin { s with pc := pc, printed := printed } :=
  ⟨h.all, h.inside, h.total, hreading⟩

/-- A `read` puts the next bytes of the input into the buffer. -/
theorem Copied.readBytes {tmp : Nat} (h : Copied stdin s) (hlen : stdin.length < 2 ^ 63)
    (hpc : s.pc = .read) (hpos : tmp ≠ 0) (hsize : tmp ≤ CopyFile.bufferSize)
    (hinput : tmp ≤ s.input.length) : Copied stdin { s.readBytes tmp with pc := .write } := by
  have hnat : (UInt64.ofNat tmp).toNat = tmp := (readBytes_toWrite (s := s) hpos hsize).1
  have htake : (s.input.take tmp).length = tmp := List.length_take_of_le hinput
  refine ⟨?_, ?_, ?_, nofun⟩
  · -- what has been read is now pending, and nothing was before
    have hall := h.all
    rw [pending_nil (h.reading hpc), List.append_nil] at hall
    show s.accepted ++ (List.drop 0 (s.input.take tmp ++ s.buffer.drop tmp)).take
      (UInt64.ofNat tmp).toNat ++ s.input.drop tmp = stdin
    rw [hnat, List.drop_zero, List.take_left' htake, List.append_assoc, List.take_append_drop]
    exact hall
  · show 0 + (UInt64.ofNat tmp).toNat ≤ (s.input.take tmp ++ s.buffer.drop tmp).length
    rw [hnat, List.length_append, htake]
    omega
  · have htotal := h.total
    show (s.totalRead + UInt64.ofNat tmp).toNat + (s.input.drop tmp).length = stdin.length
    rw [UInt64.toNat_add, hnat, Nat.mod_eq_of_lt (by omega), List.length_drop]
    omega

/-- The accepted bytes are the first of those that were pending. -/
theorem writeBytes_pending {wRes : Nat} (hwRes : wRes ≤ s.toWrite.toNat) :
    (s.writeBytes wRes).toWrite.toNat = s.toWrite.toNat - wRes
      ∧ (s.writeBytes wRes).pending = s.pending.drop wRes
      ∧ (s.buffer.drop s.current).take wRes = s.pending.take wRes := by
  have hbound : wRes < UInt64.size := Nat.lt_of_le_of_lt hwRes s.toWrite.toNat_lt
  have hnat : (UInt64.ofNat wRes).toNat = wRes := UInt64.toNat_ofNat_of_lt' hbound
  have hle : UInt64.ofNat wRes ≤ s.toWrite :=
    UInt64.le_iff_toNat_le.mpr (Nat.le_trans (Nat.le_of_eq hnat) hwRes)
  have hleft : (s.writeBytes wRes).toWrite.toNat = s.toWrite.toNat - wRes := by
    show (s.toWrite - UInt64.ofNat wRes).toNat = _
    rw [UInt64.toNat_sub_of_le _ _ hle, hnat]
  refine ⟨hleft, ?_, ?_⟩
  · show (s.buffer.drop (s.current + wRes)).take (s.writeBytes wRes).toWrite.toNat = _
    unfold State.pending
    rw [hleft, List.drop_take, List.drop_drop]
  · unfold State.pending
    rw [List.take_take, Nat.min_eq_left hwRes]

/-- A `write` of any length takes bytes from the front of what is pending, and the loop goes on. -/
theorem Copied.writeBytes {wRes : Nat} (h : Copied stdin s) (hwRes : wRes ≤ s.toWrite.toNat) :
    Copied stdin (s.writeBytes wRes).whileToWrite := by
  obtain ⟨hleft, hpending, haccepted⟩ := writeBytes_pending hwRes
  have hinside := h.inside
  refine ⟨?_, ?_, h.total, ?_⟩
  · show s.accepted ++ (s.buffer.drop s.current).take wRes ++ (s.writeBytes wRes).pending
      ++ s.input = stdin
    rw [hpending, haccepted, List.append_assoc s.accepted, List.take_append_drop]
    exact h.all
  · show s.current + wRes + (s.writeBytes wRes).toWrite.toNat ≤ s.buffer.length
    omega
  · intro hpc
    by_contra hne
    have hwrite : (s.writeBytes wRes).whileToWrite.pc = .write := if_neg hne
    rw [hwrite] at hpc
    cases hpc

/-- Every turn keeps the invariant; a failed or an interrupted call moves no bytes at all. -/
theorem Copied.step (h : Copied stdin s) (hlen : stdin.length < 2 ^ 63) (hturn : Turn s call s') :
    Copied stdin s' := by
  cases hturn with
  | intrRead _ => exact h.same h.reading
  | failRead _ => exact h.same nofun
  | eof _ _ => exact h.same nofun
  | read tmp hpc hpos hsize hinput => exact h.readBytes hlen hpc hpos hsize hinput
  | intrWrite _ => exact h.same h.reading
  | failWrite _ => exact h.same nofun
  | write wRes _ hwRes => exact h.writeBytes hwRes

/-! ## The end of a run

A run goes on copying, or it has returned the total, or its last call has failed: the function
returns at the first failure, so there is none before it. -/

/-- How far a run has come. -/
inductive Progress (as : List Call) (s : State) : Prop where
  | copying (hpc : s.pc = .read ∨ s.pc = .write) (has : ∀ call ∈ as, ¬ call.Fails)
  | done (hpc : s.pc = .returned s.totalRead.toInt64) (hinput : s.input = [])
      (hwritten : s.toWrite = 0) (has : ∀ call ∈ as, ¬ call.Fails)
  | failed (pre : List Call) (call : Call) (hpc : s.pc = .returned (-1)) (has : as = pre ++ [call])
      (hpre : ∀ call ∈ pre, ¬ call.Fails) (hcall : call.Fails)

/-- A run without a failure goes on without one, if the next call does not fail. -/
theorem no_failure_snoc (has : ∀ call ∈ as, ¬ call.Fails) (hcall : ¬ call.Fails) :
    ∀ c ∈ as ++ [call], ¬ c.Fails := by
  intro c hc
  rcases List.mem_append.mp hc with hold | hnew
  · exact has c hold
  · rw [List.mem_singleton.mp hnew]
    exact hcall

/-- The inner loop goes on with a `write` if bytes are left, and back to the `read` if not. -/
theorem whileToWrite_pc (s : State) : s.whileToWrite.pc = .read ∨ s.whileToWrite.pc = .write := by
  unfold State.whileToWrite
  split
  · exact Or.inl rfl
  · exact Or.inr rfl

/-- Every turn goes on copying or returns, and behind a return there is no turn. -/
theorem Progress.step (h : Progress as s) (hcopied : Copied stdin s) (hturn : Turn s call s') :
    Progress (as ++ [call]) s' := by
  cases h with
  | done hat | failed _ _ hat =>
    -- there is no call after the `return`
    cases hturn with
    | intrRead hpc | failRead hpc | eof hpc | read _ hpc | intrWrite hpc | failWrite hpc
    | write _ hpc =>
      rw [hat] at hpc
      cases hpc
  | copying hat has =>
    cases hturn with
    | intrRead hpc => exact .copying (Or.inl hpc) (no_failure_snoc has id)
    | failRead _ => exact .failed as _ rfl rfl has trivial
    | eof hpc hinput =>
      exact .done rfl hinput (hcopied.reading hpc) (no_failure_snoc has id)
    | read _ _ _ _ _ => exact .copying (Or.inr rfl) (no_failure_snoc has id)
    | intrWrite hpc => exact .copying (Or.inr hpc) (no_failure_snoc has id)
    | failWrite _ => exact .failed as _ rfl rfl has trivial
    | write _ _ _ => exact .copying (whileToWrite_pc _) (no_failure_snoc has id)

/-- Both invariants hold after every run, for an input of less than `2 ^ 63` bytes. -/
theorem exec_copied (hlen : stdin.length < 2 ^ 63) (h : (program stdin buffer).Exec as s) :
    Copied stdin s ∧ Progress as s := by
  refine System.exec_induction (P := fun as s => Copied stdin s ∧ Progress as s) ?_ ?_ h
  · intro s hinit
    cases hinit
    have hzero : (0 : UInt64).toNat = 0 := rfl
    refine ⟨⟨rfl, Nat.zero_le _, ?_, fun _ => rfl⟩, .copying (Or.inl rfl) (by simp)⟩
    exact Nat.zero_add _
  · intro as s call s' _ ⟨hcopied, hprogress⟩ hstep
    have hturn := copyFile_turn hstep
    exact ⟨hcopied.step hlen hturn, hprogress.step hcopied hturn⟩

/-! ## What is returned

The function returns the total as a signed number, and `-1` for an error. The two do not meet,
because the total is the length of the input at most. -/

theorem toInt_total {total : UInt64} (h : total.toNat < 2 ^ 63) :
    total.toInt64.toInt = total.toNat := by
  show total.toBitVec.toInt = _
  rw [BitVec.toInt_eq_toNat_of_lt (by show 2 * total.toNat < 2 ^ 64; omega)]
  rfl

/-- A total below `2 ^ 63` is not taken for the error. -/
theorem total_ne_error {total : UInt64} (h : total.toNat < 2 ^ 63) : total.toInt64 ≠ -1 := by
  intro heq
  have hint := toInt_total h
  rw [heq, show (-1 : Int64).toInt = -1 from rfl] at hint
  omega

/-- **`copy_file` is exact under any schedule.** What its calls have had accepted is the beginning
of the input; a total is returned only when all of the input has been accepted, and is its
length; `-1` is returned exactly after a failure other than an interruption, the first one. -/
theorem copy_exact (stdin buffer : List UInt8) (hlen : stdin.length < 2 ^ 63) (as : List Call)
    (s : State) (h : (program stdin buffer).Exec as s) :
    s.accepted <+: stdin
    ∧ (∀ res, s.pc = .returned res → res ≠ -1 →
        res.toInt = stdin.length ∧ s.accepted = stdin)
    ∧ (s.pc = .returned (-1) ↔
        ∃ pre call, as = pre ++ [call] ∧ (∀ c ∈ pre, ¬ c.Fails) ∧ call.Fails) := by
  obtain ⟨hcopied, hprogress⟩ := exec_copied hlen h
  have hall := hcopied.all
  have htotal := hcopied.total
  have hnoFailure : (∀ c ∈ as, ¬ c.Fails) →
      ¬ ∃ pre call, as = pre ++ [call] ∧ (∀ c ∈ pre, ¬ c.Fails) ∧ call.Fails := by
    intro has ⟨pre, call, hsplit, _, hfails⟩
    exact has call (by rw [hsplit]; simp) hfails
  refine ⟨⟨s.pending ++ s.input, by rw [← hall, List.append_assoc]⟩, ?_, ?_⟩
  · -- it has returned a number: by the end of the input, with nothing pending
    intro res hpc hres
    cases hprogress with
    | copying hat => simp [hpc] at hat
    | failed _ _ hat =>
      rw [hpc] at hat
      cases hat
      exact absurd rfl hres
    | done hat hinput hwritten =>
      rw [hpc] at hat
      cases hat
      rw [hinput, List.length_nil, Nat.add_zero] at htotal
      rw [pending_nil hwritten, hinput, List.append_nil, List.append_nil] at hall
      exact ⟨by rw [toInt_total (by omega), htotal], hall⟩
  · -- `-1` is returned after a failed call only, as the number of bytes is never `-1`
    cases hprogress with
    | copying hat has =>
      refine iff_of_false (fun hpc => ?_) (hnoFailure has)
      simp [hpc] at hat
    | done hat _ _ has =>
      refine iff_of_false (fun hpc => ?_) (hnoFailure has)
      rw [hat] at hpc
      exact total_ne_error (by omega) (Pc.returned.inj hpc)
    | failed pre call hat has hpre hcall => exact iff_of_true hat ⟨pre, call, has, hpre, hcall⟩

/-- Three bytes, an interruption and a short write. -/
theorem copy_exact_three : ∃ as s, (program [1, 2, 3] []).Exec as s ∧ s.pc = .returned 3
    ∧ s.accepted = [1, 2, 3] := by
  obtain ⟨as, s, hexec, hpc⟩ : ∃ as s, (program [1, 2, 3] []).Exec as s ∧ s.pc = .returned 3 :=
    ⟨[.read .eintr, .read (.count 3), .write (.count 1), .write .eintr, .write (.count 2),
      .read (.count 0)], _, ⟨_, rfl, System.run_ofFun_iff.mpr rfl⟩, rfl⟩
  have hexact := copy_exact [1, 2, 3] [] (by decide) as s hexec
  exact ⟨as, s, hexec, hpc, (hexact.2.1 3 hpc (by decide)).2⟩

/-! ## The process

The same copy, seen as the process with its signals: the machine with one call a step simulates the
one of `CopyFile` without disturbances. -/

def Pc.abs (pending : List UInt8) : Pc → CopyFile.Pc
  | .read => .read
  | .write => .write pending
  | .returned res => .returned res

/-- The process around `copy_file`, with nothing flushed out of the buffer of `stdout` yet. -/
def State.abs (s : State) : CopyFile.State where
  pc := s.pc.abs s.pending
  input := s.input
  totalRead := s.totalRead
  stdio := s.printed
  out := s.accepted
  complained := false

def Call.events : Call → List CopyFile.Event
  | .read (.count n) => [.read n]
  | .write (.count n) => [.write n]
  | .read .eintr | .write .eintr => [.interrupted, .printIntr 0]
  | .read .error | .write .error => [.error]

/-- An interrupted call, as the process reports it. -/
theorem printf_intr (s : State) (pc : CopyFile.Pc) :
    ((s.abs.goto pc).printf CopyFile.intr 0).goto s.abs.pc = s.printIntr.abs := by
  unfold CopyFile.State.printf CopyFile.State.goto
  rw [List.take_zero, List.append_nil, List.drop_zero]
  rfl

theorem abs_read {tmp : Nat} (hpos : tmp ≠ 0) (hsize : tmp ≤ CopyFile.bufferSize)
    (hinput : tmp ≤ s.input.length) :
    ({ s.readBytes tmp with pc := .write } : State).abs
      = { s.abs with pc := .write (s.input.take tmp), input := s.input.drop tmp,
                     totalRead := s.totalRead + UInt64.ofNat tmp } := by
  have hnat : (UInt64.ofNat tmp).toNat = tmp := (readBytes_toWrite (s := s) hpos hsize).1
  have hpending : ({ s.readBytes tmp with pc := .write } : State).pending = s.input.take tmp := by
    show (List.drop 0 (s.input.take tmp ++ s.buffer.drop tmp)).take (UInt64.ofNat tmp).toNat = _
    rw [hnat, List.drop_zero, List.take_left' (List.length_take_of_le hinput)]
  unfold State.abs
  rw [hpending]
  rfl

/-- As many bytes are pending as there are to write. -/
theorem Copied.pending_length (h : Copied stdin s) : s.pending.length = s.toWrite.toNat := by
  have hinside := h.inside
  unfold State.pending
  rw [List.length_take_of_le (by rw [List.length_drop]; omega)]

theorem abs_write {wRes : Nat} (h : Copied stdin s) (hwRes : wRes ≤ s.toWrite.toNat) :
    (s.writeBytes wRes).whileToWrite.abs
      = { s.abs with pc := .writeOrRead (s.pending.drop wRes),
                     out := s.accepted ++ s.pending.take wRes } := by
  obtain ⟨_, hpending, haccepted⟩ := writeBytes_pending hwRes
  have hpc : (s.writeBytes wRes).whileToWrite.abs.pc = .writeOrRead (s.pending.drop wRes) := by
    have hlength := (h.writeBytes hwRes).pending_length
    rw [show (s.writeBytes wRes).whileToWrite.pending = (s.writeBytes wRes).pending from rfl,
      hpending] at hlength
    unfold CopyFile.Pc.writeOrRead
    rw [← hpending] at hlength ⊢
    show (if (s.writeBytes wRes).toWrite = 0 then Pc.read else .write).abs _ = _
    split
    · next hzero => rw [if_pos (pending_nil hzero)]; rfl
    · next hne =>
      have hlong : (s.writeBytes wRes).pending ≠ [] := by
        intro hnil
        rw [hnil] at hlength
        exact hne (UInt64.toNat_inj.mp hlength.symm)
      rw [if_neg hlong]
      rfl
  unfold State.abs at hpc ⊢
  rw [← hpc, ← haccepted]
  rfl

/-- **A call of `copy_file` is a step of the process**, or two if it has to be reported. -/
theorem copyFile_refines (h : Copied stdin s) (hturn : Turn s call s') :
    (CopyFile.program stdin).Run s.abs call.events s'.abs := by
  have hat {pc : Pc} (hpc : s.pc = pc) : s.abs.pc = pc.abs s.pending :=
    congrArg (Pc.abs s.pending) hpc
  cases hturn with
  | intrRead hpc =>
    have hprint := printf_intr s .intrRead
    rw [hat hpc] at hprint
    rw [← hprint]
    exact .cons (.interruptRead (hat hpc)) (.single (.printRead rfl))
  | intrWrite hpc =>
    have hprint := printf_intr s (.intrWrite s.pending)
    rw [hat hpc] at hprint
    rw [← hprint]
    exact .cons (.interruptWrite (hat hpc)) (.single (.printWrite rfl))
  | failRead hpc => exact .single (.failRead (hat hpc))
  | failWrite hpc => exact .single (.failWrite (hat hpc))
  | eof hpc hinput => exact .single (.eof (hat hpc) hinput)
  | read tmp hpc hpos hsize hinput =>
    rw [abs_read hpos hsize hinput]
    exact .single (.read (hat hpc) (Nat.pos_of_ne_zero hpos) hsize hinput)
  | write wRes hpc hwRes =>
    rw [abs_write h hwRes]
    exact .single (.write (hat hpc) (by rw [h.pending_length]; exact hwRes))

/-- The runs of `copy_file` are runs of the process in which no signal is delivered. -/
theorem copy_refines (hlen : stdin.length < 2 ^ 63) (h : (program stdin buffer).Exec as s) :
    (CopyFile.program stdin).Exec (.sigaction :: as.flatMap Call.events) s.abs := by
  refine System.exec_induction (S := program stdin buffer)
    (P := fun as s => (CopyFile.program stdin).Exec (.sigaction :: as.flatMap Call.events) s.abs)
    ?_ ?_ h
  · intro s hinit
    cases hinit
    exact ⟨_, rfl, .single (.sigaction rfl)⟩
  · intro as s call s' hexec habs hstep
    have hrun := copyFile_refines (exec_copied hlen hexec).1 (copyFile_turn hstep)
    rw [List.flatMap_append, List.flatMap_singleton, ← List.cons_append]
    exact habs.extend hrun

end HseDev.Sem11.CopySchedule
