import HseDev.Lib.Descriptors
import HseDev.Lib.Transition

/-!
# HseDev — the pipeline of `sem17/task17_1.c`

`main` starts two commands with a pipe between them. Each child gets a copy of the parent's
descriptor table and moves its pipe end to its standard input or output; the parent closes the
write end between the two forks, and the read end after them.

* **`advance`** — one call of the parent or of a child.
* **`Hygiene`** — each pipe end is open in one place only.
* **`Tables`** — what a process still has to call leads its table to where it ends; the
  invariant of every run.
* **`settled_tables`** — the tables at the end: the first child keeps the parent's descriptor of
  the read end, which it got with the fork and never closes. So **`pipeline_never`**.
-/

namespace HseDev.Sem17.Pipeline

open Transition Descriptors

inductive Child where
  | child1
  | child2
  deriving DecidableEq, Repr

inductive Proc where
  | parent
  | child (c : Child)
  deriving DecidableEq, Repr

/-- What a descriptor refers to: an end of the pipe, or a file open before. -/
inductive File (ρ : Type*) where
  | initial (file : ρ)
  | readEnd
  | writeEnd
  deriving DecidableEq, Repr

/-- `pipe_fd`. -/
structure PipeFd where
  fd0 : Int
  fd1 : Int
  deriving DecidableEq, Repr

/-- `move_fd`, as the calls it makes. -/
def moveFd (fromFd toFd : Int) : List (FdCall Int) :=
  if fromFd ≠ toFd then [.dup2 fromFd toFd, .close fromFd] else []

/-- The child of `exec_wrapper`, up to its `execlp`. -/
def execWrapper (inFile outFile : Int) : List (FdCall Int) :=
  moveFd inFile 0 ++ moveFd outFile 1

/-- The arguments of `exec_wrapper` for the two commands. -/
def childCalls (pipeFd : PipeFd) : Child → List (FdCall Int)
  | .child1 => execWrapper 0 pipeFd.fd1
  | .child2 => execWrapper pipeFd.fd0 1

inductive ParentPc where
  | fork1
  | close1
  | fork2
  | close0
  | waiting
  deriving DecidableEq, Repr

/-- A child that has been forked is what it has still to call before `execlp`. -/
structure State (ρ : Type*) where
  parent : ParentPc
  child : Child → Option (List (FdCall Int))
  table : Proc → Table Int (File ρ)

/-- Who takes a step; a `fork` may fail, and `main` goes on. -/
inductive Act where
  | parent (forks : Bool)
  | child (c : Child)
  deriving DecidableEq, Repr

variable {ρ : Type*}

def State.goto (s : State ρ) (pc : ParentPc) : State ρ :=
  { s with parent := pc }

/-- Process `p` makes a call. -/
def State.call (s : State ρ) (p : Proc) (call : FdCall Int) : State ρ :=
  { s with table := Function.update s.table p ((s.table p).call call) }

/-- The child begins with the parent's table. -/
def State.fork (s : State ρ) (c : Child) (calls : List (FdCall Int)) : State ρ :=
  { s with
    child := Function.update s.child c (some calls)
    table := Function.update s.table (.child c) (s.table .parent) }

def State.setCalls (s : State ρ) (c : Child) (calls : List (FdCall Int)) : State ρ :=
  { s with child := Function.update s.child c (some calls) }

def parentStep (pipeFd : PipeFd) (s : State ρ) (forks : Bool) : Option (State ρ) :=
  match s.parent with
  | .fork1 =>
    some ((if forks then s.fork .child1 (childCalls pipeFd .child1) else s).goto .close1)
  | .close1 => some ((s.call .parent (.close pipeFd.fd1)).goto .fork2)
  | .fork2 =>
    some ((if forks then s.fork .child2 (childCalls pipeFd .child2) else s).goto .close0)
  | .close0 => some ((s.call .parent (.close pipeFd.fd0)).goto .waiting)
  -- `waitpid`
  | .waiting => none

def childStep (s : State ρ) (c : Child) : Option (State ρ) :=
  match s.child c with
  | some (call :: calls) => some ((s.call (.child c) call).setCalls c calls)
  -- not forked, or at `execlp`
  | _ => none

def advance (pipeFd : PipeFd) (s : State ρ) : Act → Option (State ρ)
  | .parent forks => parentStep pipeFd s forks
  | .child c => childStep s c

/-- The table after `pipe`. -/
def pipeTable (initial : Table Int ρ) (pipeFd : PipeFd) : Table Int (File ρ) :=
  Table.install (Table.install (fun fd => (initial fd).map .initial) pipeFd.fd0 .readEnd)
    pipeFd.fd1 .writeEnd

def start (initial : Table Int ρ) (pipeFd : PipeFd) : State ρ where
  parent := .fork1
  child _ := none
  table
    | .parent => pipeTable initial pipeFd
    | .child _ => fun _ => none

def program (initial : Table Int ρ) (pipeFd : PipeFd) : System (State ρ) Act :=
  .ofFun (fun s => s = start initial pipeFd) (advance pipeFd)

/-- `0`, `1` and `2` are open, and `pipe` hands out two numbers that are free. -/
structure Fits (initial : Table Int ρ) (pipeFd : PipeFd) : Prop where
  std : ∀ fd, fd = 0 ∨ fd = 1 ∨ fd = 2 → initial fd ≠ none
  fd0 : initial pipeFd.fd0 = none
  fd1 : initial pipeFd.fd1 = none
  ne : pipeFd.fd0 ≠ pipeFd.fd1

/-- Both children have reached `execlp` and the parent has made its two closes. -/
def State.Settled (s : State ρ) : Prop :=
  s.parent = .waiting ∧ ∀ c, s.child c = some []

/-- The write end is descriptor `1` of the first child and the read end descriptor `0` of the
second, and nothing else is. -/
structure Hygiene (s : State ρ) : Prop where
  writeEnd : ∀ p fd, s.table p fd = some .writeEnd ↔ p = .child .child1 ∧ fd = 1
  readEnd : ∀ p fd, s.table p fd = some .readEnd ↔ p = .child .child2 ∧ fd = 0

/-! ## The tables in every run

The table of a process follows from how far it has come: the calls of a child are known when it is
forked, and what is left of them leads to the table of its `execlp`. -/

section Tables

variable {initial : Table Int ρ} {pipeFd : PipeFd} {s s' : State ρ}

/-- The parent's table by where it is. -/
def parentTable (initial : Table Int ρ) (pipeFd : PipeFd) : ParentPc → Table Int (File ρ)
  | .fork1 | .close1 => pipeTable initial pipeFd
  | .fork2 | .close0 => (pipeTable initial pipeFd).close pipeFd.fd1
  | .waiting => ((pipeTable initial pipeFd).close pipeFd.fd1).close pipeFd.fd0

/-- A child's table when it reaches `execlp`. -/
def execTable (initial : Table Int ρ) (pipeFd : PipeFd) : Child → Table Int (File ρ)
  | .child1 => (pipeTable initial pipeFd).runCalls (childCalls pipeFd .child1)
  | .child2 =>
    ((pipeTable initial pipeFd).close pipeFd.fd1).runCalls (childCalls pipeFd .child2)

structure Tables (initial : Table Int ρ) (pipeFd : PipeFd) (s : State ρ) : Prop where
  parent : s.table .parent = parentTable initial pipeFd s.parent
  child : ∀ c calls, s.child c = some calls →
    (s.table (.child c)).runCalls calls = execTable initial pipeFd c

theorem Tables.goto (h : Tables initial pipeFd s) {pc : ParentPc} {t : Table Int (File ρ)}
    (ht : t = parentTable initial pipeFd pc) :
    Tables initial pipeFd { s with table := Function.update s.table .parent t, parent := pc } := by
  refine ⟨?_, fun c calls hcalls => ?_⟩
  · show Function.update s.table .parent t .parent = _
    rw [Function.update_self]
    exact ht
  · have hne : Proc.child c ≠ .parent := nofun
    show (Function.update s.table .parent t (.child c)).runCalls calls = _
    rw [Function.update_of_ne hne]
    exact h.child c calls hcalls

/-- A child that has made a call has one less to make, and ends up with the same table. -/
theorem Tables.setChild (h : Tables initial pipeFd s) {c : Child} {calls : List (FdCall Int)}
    {t : Table Int (File ρ)} (ht : t.runCalls calls = execTable initial pipeFd c) :
    Tables initial pipeFd
      { s with
        child := Function.update s.child c (some calls)
        table := Function.update s.table (.child c) t } := by
  refine ⟨?_, fun d calls' hcalls => ?_⟩
  · have hne : Proc.parent ≠ .child c := nofun
    show Function.update s.table (.child c) t .parent = _
    rw [Function.update_of_ne hne]
    exact h.parent
  · show (Function.update s.table (.child c) t (.child d)).runCalls calls' = _
    have hcalls : Function.update s.child c (some calls) d = some calls' := hcalls
    by_cases hdc : d = c
    · subst hdc
      rw [Function.update_self] at hcalls ⊢
      cases hcalls
      exact ht
    · have hne : Proc.child d ≠ .child c := fun heq => hdc (Proc.child.inj heq)
      rw [Function.update_of_ne hdc] at hcalls
      rw [Function.update_of_ne hne]
      exact h.child d calls' hcalls

/-- A new child has all its calls still to make, in the table of the parent. -/
theorem Tables.fork (h : Tables initial pipeFd s) {c : Child} {calls : List (FdCall Int)}
    (ht : (s.table .parent).runCalls calls = execTable initial pipeFd c) :
    Tables initial pipeFd (s.fork c calls) :=
  h.setChild ht

/-- The parent moves on without a call. -/
theorem Tables.gotoSame (h : Tables initial pipeFd s) {pc : ParentPc}
    (hpc : parentTable initial pipeFd pc = parentTable initial pipeFd s.parent) :
    Tables initial pipeFd (s.goto pc) :=
  ⟨h.parent.trans hpc.symm, h.child⟩

/-- Every step of the parent keeps the invariant. -/
theorem Tables.parentStep {forks : Bool} (h : Tables initial pipeFd s)
    (hstep : parentStep pipeFd s forks = some s') : Tables initial pipeFd s' := by
  have hparent := h.parent
  unfold Pipeline.parentStep at hstep
  cases hpc : s.parent with
  | fork1 | fork2 =>
    rw [hpc] at hstep hparent
    cases hstep
    cases forks with
    | false => exact h.gotoSame (by rw [hpc]; rfl)
    | true =>
      refine (h.fork ?_).gotoSame (show _ = parentTable initial pipeFd s.parent by rw [hpc]; rfl)
      rw [hparent]
      rfl
  | close1 | close0 =>
    rw [hpc] at hstep hparent
    cases hstep
    refine h.goto ?_
    rw [hparent]
    rfl
  | waiting =>
    rw [hpc] at hstep
    cases hstep

/-- So does every step of a child. -/
theorem Tables.childStep {c : Child} (h : Tables initial pipeFd s)
    (hstep : childStep s c = some s') : Tables initial pipeFd s' := by
  unfold Pipeline.childStep at hstep
  split at hstep
  · next call calls hcalls =>
    cases hstep
    have hrest := h.child c (call :: calls) hcalls
    rw [runCalls_cons] at hrest
    exact h.setChild hrest
  · cases hstep

/-- The invariant holds of every reachable state. -/
theorem reachable_tables (hs : (program initial pipeFd).Reachable s) : Tables initial pipeFd s := by
  refine System.invariant (P := Tables initial pipeFd) ?_ ?_ hs
  · rintro s rfl
    exact ⟨rfl, nofun⟩
  · intro s a s' htables hstep
    cases a with
    | parent forks => exact htables.parentStep hstep
    | child c => exact htables.childStep hstep

end Tables

/-! ## The tables at the end

When both children have reached `execlp`, the tables of all three processes are known, and so is who
has which end of the pipe. -/

section Settled

variable {initial : Table Int ρ} {pipeFd : PipeFd} {s s' : State ρ} {fd : Int}

/-- The pipe gets none of the standard numbers, since these are open. -/
theorem Fits.ne_std (h : Fits initial pipeFd) (hfd : fd = 0 ∨ fd = 1 ∨ fd = 2) :
    pipeFd.fd0 ≠ fd ∧ pipeFd.fd1 ≠ fd := by
  have hopen : initial fd ≠ none := h.std fd hfd
  exact ⟨fun heq => hopen (heq ▸ h.fd0), fun heq => hopen (heq ▸ h.fd1)⟩

theorem pipeTable_fd0 (h : Fits initial pipeFd) :
    pipeTable initial pipeFd pipeFd.fd0 = some .readEnd := by
  rw [pipeTable, install_ne h.ne, install_self]

theorem pipeTable_fd1 : pipeTable initial pipeFd pipeFd.fd1 = some .writeEnd := by
  rw [pipeTable, install_self]

/-- All other numbers are as they were before the pipe. -/
theorem pipeTable_ne (h0 : fd ≠ pipeFd.fd0) (h1 : fd ≠ pipeFd.fd1) :
    pipeTable initial pipeFd fd = (initial fd).map .initial := by
  rw [pipeTable, install_ne h1, install_ne h0]

/-- The first child: the write end has moved, **the read end is still there**. -/
theorem execTable_child1 (h : Fits initial pipeFd) {file : File ρ} :
    execTable initial pipeFd .child1 fd = some file
      ↔ fd ≠ pipeFd.fd1 ∧ ((fd = 1 ∧ .writeEnd = file)
        ∨ (fd ≠ 1 ∧ pipeTable initial pipeFd fd = some file)) := by
  have hne : pipeFd.fd1 ≠ 1 := (h.ne_std (by simp)).2
  have hcalls : childCalls pipeFd .child1 = [.dup2 pipeFd.fd1 1, .close pipeFd.fd1] := by
    simp [childCalls, execWrapper, moveFd, hne]
  rw [execTable, hcalls]
  exact runCalls_move_eq_some pipeTable_fd1 fd

/-- What the second child has open: the read end as its standard input, and what was open before but
for the two ends. -/
theorem execTable_child2 (h : Fits initial pipeFd) {file : File ρ} :
    execTable initial pipeFd .child2 fd = some file
      ↔ fd ≠ pipeFd.fd0 ∧ ((fd = 0 ∧ .readEnd = file)
        ∨ (fd ≠ 0 ∧ fd ≠ pipeFd.fd1 ∧ pipeTable initial pipeFd fd = some file)) := by
  have hne : pipeFd.fd0 ≠ 0 := (h.ne_std (by simp)).1
  have hcalls : childCalls pipeFd .child2 = [.dup2 pipeFd.fd0 0, .close pipeFd.fd0] := by
    simp [childCalls, execWrapper, moveFd, hne]
  have hopen : (pipeTable initial pipeFd).close pipeFd.fd1 pipeFd.fd0 = some .readEnd := by
    rw [close_ne h.ne, pipeTable_fd0 h]
  rw [execTable, hcalls, runCalls_move_eq_some hopen, close_eq_some]

/-- A settled child has the table of its `execlp`. -/
theorem settled_table (hs : (program initial pipeFd).Reachable s) (hsettled : s.Settled)
    (c : Child) : s.table (.child c) = execTable initial pipeFd c := by
  have hdone := (reachable_tables hs).child c [] (hsettled.2 c)
  rwa [runCalls_nil] at hdone

theorem settled_parent (hs : (program initial pipeFd).Reachable s) (hsettled : s.Settled) :
    s.table .parent = ((pipeTable initial pipeFd).close pipeFd.fd1).close pipeFd.fd0 := by
  rw [(reachable_tables hs).parent, hsettled.1]
  rfl

/-- Right after `pipe` only one number is the read end. -/
theorem pipeTable_eq_readEnd (h : Fits initial pipeFd) :
    pipeTable initial pipeFd fd = some .readEnd ↔ fd = pipeFd.fd0 := by
  by_cases h0 : fd = pipeFd.fd0
  · rw [h0, pipeTable_fd0 h]
    simp
  · by_cases h1 : fd = pipeFd.fd1
    · rw [h1, pipeTable_fd1]
      simpa using h.ne.symm
    · rw [pipeTable_ne h0 h1]
      simp [h0]

/-- And only one is the write end. -/
theorem pipeTable_eq_writeEnd (h : Fits initial pipeFd) :
    pipeTable initial pipeFd fd = some .writeEnd ↔ fd = pipeFd.fd1 := by
  by_cases h1 : fd = pipeFd.fd1
  · rw [h1, pipeTable_fd1]
    simp
  · by_cases h0 : fd = pipeFd.fd0
    · rw [h0, pipeTable_fd0 h]
      simpa using h.ne
    · rw [pipeTable_ne h0 h1]
      simp [h1]

/-- The write end is where it should be. -/
theorem settled_writeEnd (h : Fits initial pipeFd) (hs : (program initial pipeFd).Reachable s)
    (hsettled : s.Settled) (p : Proc) (fd : Int) :
    s.table p fd = some .writeEnd ↔ p = .child .child1 ∧ fd = 1 := by
  have hne : pipeFd.fd1 ≠ 1 := (h.ne_std (by simp)).2
  cases p with
  | parent =>
    rw [settled_parent hs hsettled, close_eq_some, close_eq_some, pipeTable_eq_writeEnd h]
    exact iff_of_false (fun hfd => hfd.2.1 hfd.2.2) (by simp)
  | child c =>
    rw [settled_table hs hsettled]
    cases c with
    | child1 =>
      rw [execTable_child1 h, pipeTable_eq_writeEnd h]
      simp only [and_true, true_and]
      omega
    | child2 =>
      rw [execTable_child2 h, pipeTable_eq_writeEnd h]
      simp

/-- **The leak.** The read end is open in the first child too, under the parent's number. -/
theorem settled_readEnd (h : Fits initial pipeFd) (hs : (program initial pipeFd).Reachable s)
    (hsettled : s.Settled) (p : Proc) (fd : Int) :
    s.table p fd = some .readEnd
      ↔ (p = .child .child2 ∧ fd = 0) ∨ (p = .child .child1 ∧ fd = pipeFd.fd0) := by
  have hne0 : pipeFd.fd0 ≠ 0 := (h.ne_std (by simp)).1
  have hne1 : pipeFd.fd0 ≠ 1 := (h.ne_std (by simp)).1
  have hne := h.ne
  cases p with
  | parent =>
    rw [settled_parent hs hsettled, close_eq_some, close_eq_some, pipeTable_eq_readEnd h]
    exact iff_of_false (fun hfd => hfd.1 hfd.2.2) (by simp)
  | child c =>
    rw [settled_table hs hsettled]
    cases c with
    | child1 =>
      rw [execTable_child1 h, pipeTable_eq_readEnd h]
      simp only [reduceCtorEq, and_false, false_or, true_and, Proc.child.injEq, false_and]
      omega
    | child2 =>
      rw [execTable_child2 h, pipeTable_eq_readEnd h]
      simp only [and_true, true_and, reduceCtorEq, Proc.child.injEq, false_and, or_false]
      omega

/-- The first child has kept the read end, so a settled program is never clean. -/
theorem not_hygiene (h : Fits initial pipeFd) (hs : (program initial pipeFd).Reachable s)
    (hsettled : s.Settled) : ¬ Hygiene s := by
  intro hhygiene
  have hleak : s.table (.child .child1) pipeFd.fd0 = some .readEnd :=
    (settled_readEnd h hs hsettled _ _).mpr (Or.inr ⟨rfl, rfl⟩)
  obtain ⟨heq, _⟩ := (hhygiene.readEnd _ _).mp hleak
  cases heq

theorem run_child {c : Child} {calls : List (FdCall Int)} (hcalls : s.child c = some calls) :
    ∃ as s', (program initial pipeFd).Run s as s' ∧ s'.parent = s.parent
      ∧ s'.child = Function.update s.child c (some []) := by
  induction calls generalizing s with
  | nil =>
    refine ⟨[], s, .refl, rfl, ?_⟩
    rw [← hcalls, Function.update_eq_self]
  | cons call calls ih =>
    have hstep : (program initial pipeFd).step s (.child c)
        ((s.call (.child c) call).setCalls c calls) := by
      simp [program, advance, childStep, hcalls]
    have hnext : ((s.call (.child c) call).setCalls c calls).child
        = Function.update s.child c (some calls) := rfl
    obtain ⟨as, s', hrun, hparent, hchild⟩ := ih (by rw [hnext, Function.update_self])
    rw [hnext, Function.update_idem] at hchild
    exact ⟨_, s', .cons hstep hrun, hparent, hchild⟩

/-- There is a run in which both children are forked and reach `execlp`. -/
theorem exists_settled (initial : Table Int ρ) (pipeFd : PipeFd) :
    ∃ s, (program initial pipeFd).Reachable s ∧ s.Settled := by
  have hparent : ∃ s, (List.replicate 4 (.parent true)).foldlM (advance pipeFd)
      (start initial pipeFd) = some s ∧ s.parent = .waiting
      ∧ s.child .child1 = some (childCalls pipeFd .child1)
      ∧ s.child .child2 = some (childCalls pipeFd .child2) := ⟨_, rfl, rfl, rfl, rfl⟩
  obtain ⟨s, hfold, hwaiting, h1, h2⟩ := hparent
  have hs : (program initial pipeFd).Reachable s := ⟨_, _, rfl, System.run_ofFun_iff.mpr hfold⟩
  obtain ⟨_, s₁, hrun₁, hparent₁, hchild₁⟩ := run_child (s := s) h1
  have h2' : s₁.child .child2 = some (childCalls pipeFd .child2) := by
    rw [hchild₁]
    exact h2
  obtain ⟨_, s₂, hrun₂, hparent₂, hchild₂⟩ := run_child (s := s₁) h2'
  refine ⟨s₂, (hs.extend hrun₁).extend hrun₂, ?_, fun c => ?_⟩
  · rw [hparent₂, hparent₁, hwaiting]
  · rw [hchild₂, hchild₁]
    cases c <;> rfl

/-- **Never.** From every table both children get to their commands, and whenever they have, a
second descriptor of the read end is open. -/
theorem pipeline_never (h : Fits initial pipeFd) :
    (∃ s, (program initial pipeFd).Reachable s ∧ s.Settled)
      ∧ ∀ s, (program initial pipeFd).Reachable s → s.Settled → ¬ Hygiene s :=
  ⟨exists_settled initial pipeFd, fun _ hs hsettled => not_hygiene h hs hsettled⟩

end Settled

/-- A process with nothing but `0`, `1` and `2`. -/
def stdTable : Table Int Nat :=
  fun fd => if fd = 0 ∨ fd = 1 ∨ fd = 2 then some fd.toNat else none

/-- The usual table with the three standard descriptors fits. -/
theorem fits_stdTable : Fits stdTable ⟨3, 4⟩ where
  std fd hfd := by
    rw [stdTable, if_pos hfd]
    nofun
  fd0 := rfl
  fd1 := rfl
  ne := by decide

/-- With that table the program does settle, and never cleanly. -/
theorem pipeline_never_std :
    (∃ s, (program stdTable ⟨3, 4⟩).Reachable s ∧ s.Settled)
      ∧ ∀ s, (program stdTable ⟨3, 4⟩).Reachable s → s.Settled → ¬ Hygiene s :=
  pipeline_never fits_stdTable

/-- Descriptor `3` of the first command is the read end of its own output. -/
theorem not_hygiene_std :
    ∃ s, (program stdTable ⟨3, 4⟩).Reachable s ∧ s.Settled
      ∧ s.table (.child .child1) 3 = some .readEnd ∧ ¬ Hygiene s := by
  obtain ⟨s, hs, hsettled⟩ := exists_settled stdTable ⟨3, 4⟩
  have hleak : s.table (.child .child1) 3 = some .readEnd :=
    (settled_readEnd fits_stdTable hs hsettled _ _).mpr (Or.inr ⟨rfl, rfl⟩)
  exact ⟨s, hs, hsettled, hleak, not_hygiene fits_stdTable hs hsettled⟩

end HseDev.Sem17.Pipeline
