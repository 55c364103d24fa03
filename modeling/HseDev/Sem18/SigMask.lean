import HseDev.Lib.Signals
import Mathlib.Data.Finset.Insert
import Mathlib.Data.List.Infix

/-!
# HseDev — `sig_mask_tests` of `sem18/main.c`

The process blocks every signal, asks once a second whether `SIGUSR1` is pending, opens the mask
for a moment when it is, closes it again and waits for one more `SIGUSR1` in `sigsuspend`.
Signals arrive from outside at any time; those other than `SIGUSR1` have their default action.

* **`Phase`** — where the process is, with its mask, its handler and what it has printed.
* **`mask_test`** — in every run: no handler runs while the mask is closed; what is printed is a
  beginning of the one form there is; `finish` comes only after the handler has run twice since
  the answer was 1; and only another signal ends the process before.
-/

namespace HseDev.Sem18.SigMask

open Transition System Signals

/-- `SIGUSR1` and the signals that end the process. -/
inductive Sig where
  | usr1
  | fatal
  deriving DecidableEq, Repr

/-- `sigfillset` -/
def full : Finset Sig := {.usr1, .fatal}

inductive Place where
  | fill
  | poll
  | zero
  | one
  | unmask
  | remask
  | wait
  | finish
  | ended
  | received
  | leave
  deriving DecidableEq, Repr

inductive Line where
  | isMember (b : Bool)
  | received
  | finish
  deriving DecidableEq, Repr

def code : Place → Instr Sig Place Line
  | .fill => .setMask full .poll
  | .poll => .ifPending .usr1 .one .zero
  | .zero => .print (.isMember false) .poll
  | .one => .print (.isMember true) .unmask
  | .unmask => .setMask ∅ .remask
  | .remask => .setMask full .wait
  | .wait => .suspend (full.erase .usr1) .finish
  | .finish => .print .finish .ended
  | .ended => .ret
  | .received => .print .received .leave
  | .leave => .ret

/-- `sig_mask_tests` after its first `sigaction`. -/
def maskTests : Program Sig Place Line where
  code := code
  action
    | .usr1 => some ⟨.received, ∅, false⟩
    | .fatal => none
  main := .fill

/-- The handler has run `i` times, then the answer was `j` times 0. -/
def polled (i j : Nat) : List Line :=
  List.replicate i .received ++ List.replicate j (.isMember false)

/-- Then it was 1, and the handler has run `a` times since. -/
def opened (i j a : Nat) : List Line :=
  polled i j ++ .isMember true :: List.replicate a .received

/-- The place outside the handler, the mask, what `sigsuspend` brings back, the handler and the
output of a process with `pending` signals. -/
inductive Phase (pending : Finset Sig) : Place → Finset Sig → Option (Finset Sig) →
    List (Frame Sig Place) → List Line → Prop where
  | start (i : Nat) : Phase pending .fill ∅ none [] (polled i 0)
  | startIn (i : Nat) : Phase pending .fill {.usr1} none [⟨.usr1, ∅, .received⟩] (polled i 0)
  | startOut (i : Nat) : Phase pending .fill {.usr1} none [⟨.usr1, ∅, .leave⟩] (polled i 0)
  | poll (i j : Nat) : Phase pending .poll full none [] (polled i j)
  | zero (i j : Nat) : Phase pending .zero full none [] (polled i j)
  | one (i j : Nat) (hdue : .usr1 ∈ pending) : Phase pending .one full none [] (polled i j)
  | unmask (i j : Nat) (hdue : .usr1 ∈ pending) : Phase pending .unmask full none [] (opened i j 0)
  | remask (i j a : Nat) (hdue : 0 < a ∨ .usr1 ∈ pending) :
      Phase pending .remask ∅ none [] (opened i j a)
  | remaskIn (i j a : Nat) :
      Phase pending .remask {.usr1} none [⟨.usr1, ∅, .received⟩] (opened i j a)
  | remaskOut (i j a : Nat) :
      Phase pending .remask {.usr1} none [⟨.usr1, ∅, .leave⟩] (opened i j (a + 1))
  | wait (i j a : Nat) : Phase pending .wait full none [] (opened i j (a + 1))
  | waiting (i j a : Nat) :
      Phase pending .finish (full.erase .usr1) (some full) [] (opened i j (a + 1))
  | wokenIn (i j a : Nat) :
      Phase pending .finish full none [⟨.usr1, full, .received⟩] (opened i j (a + 1))
  | wokenOut (i j a : Nat) :
      Phase pending .finish full none [⟨.usr1, full, .leave⟩] (opened i j (a + 2))
  | woken (i j a : Nat) : Phase pending .finish full none [] (opened i j (a + 2))
  | ended (i j a : Nat) :
      Phase pending .ended full none [] (opened i j (a + 2) ++ [.finish])

variable {s : State Sig Place Line}

structure Phased (s : State Sig Place Line) : Prop where
  phase : Phase s.pending s.base s.blocked s.suspended s.frames s.output
  stopped : s.stopped = true → .fatal ∈ s.pending ∨ s.base = .ended

/-- A further pending signal changes no phase. -/
theorem Phase.mono {pending pending' blocked : Finset Sig} {base : Place}
    {suspended : Option (Finset Sig)} {frames : List (Frame Sig Place)} {output : List Line}
    (h : Phase pending base blocked suspended frames output) (hsub : pending ⊆ pending') :
    Phase pending' base blocked suspended frames output := by
  cases h with
  | one i j hdue => exact .one i j (hsub hdue)
  | unmask i j hdue => exact .unmask i j (hsub hdue)
  | remask i j a hdue => exact .remask i j a (hdue.imp id fun h => hsub h)
  | _ => constructor

/-! ## Steps

In each phase one place is next, and a signal can be delivered only where it is not blocked: before
the first mask, between the mask that opens and the one behind it, and inside `sigsuspend`. -/

theorem polled_received (i : Nat) : polled i 0 ++ [.received] = polled (i + 1) 0 := by
  simp [polled, List.replicate_succ']

theorem polled_zero (i j : Nat) : polled i j ++ [.isMember false] = polled i (j + 1) := by
  simp [polled, List.replicate_succ']

theorem opened_received (i j a : Nat) : opened i j a ++ [.received] = opened i j (a + 1) := by
  simp [opened, List.replicate_succ']

/-- A delivered signal runs the handler where the phase lets it, or ends the process. -/
theorem phased_take {sig : Sig} (h : Phased s) (hpending : sig ∈ s.pending)
    (hopen : sig ∉ s.blocked) : Phased (deliver sig (maskTests.action sig) s) := by
  cases sig with
  | fatal => exact ⟨h.phase, fun _ => Or.inl hpending⟩
  | usr1 =>
    obtain ⟨hphase, hover⟩ := h
    have hdeliver : deliver .usr1 (maskTests.action .usr1) s =
        { s with
          pending := s.pending.erase .usr1
          blocked := s.blocked ∪ {.usr1}
          suspended := none
          frames := ⟨.usr1, s.suspended.getD s.blocked, .received⟩ :: s.frames } := by
      simp [deliver, maskTests, Action.blocks]
    rw [hdeliver]
    refine ⟨?_, fun hend => (hover hend).imp (fun hf => Finset.mem_erase.mpr ⟨by decide, hf⟩) id⟩
    show Phase (s.pending.erase .usr1) s.base (s.blocked ∪ {.usr1}) none
      (⟨.usr1, s.suspended.getD s.blocked, .received⟩ :: s.frames) s.output
    generalize s.pending.erase .usr1 = pending
    generalize s.base = base at hphase ⊢
    generalize s.blocked = blocked at hphase hopen ⊢
    generalize s.suspended = suspended at hphase ⊢
    generalize s.frames = frames at hphase ⊢
    generalize s.output = output at hphase ⊢
    cases hphase with
    | start i => exact .startIn i
    | remask i j a hdue => exact .remaskIn i j a
    | waiting i j a =>
      rw [show full.erase .usr1 ∪ {Sig.usr1} = full from by decide]
      exact .wokenIn i j a
    -- everywhere else the signal is blocked
    | _ => exact absurd (by decide) hopen

/-- The running code goes from phase to phase. -/
theorem phased_run (h : Phased s) (hlive : s.stopped = false) (hawake : s.suspended = none)
    (hquiet : s.pending ⊆ s.blocked) : Phased (exec (maskTests.code s.place) s) := by
  obtain ⟨hphase, hover⟩ := h
  obtain ⟨pending, blocked, suspended, frames, base, stopped, output⟩ := s
  simp only at hphase hover hlive hawake hquiet
  subst hlive
  have hnot : ∀ p : Prop, false = true → p := fun p hend => by cases hend
  cases hphase with
  | start i => exact ⟨.poll i 0, hnot _⟩
  | startIn i =>
    refine ⟨?_, hnot _⟩
    show Phase pending .fill {.usr1} none [⟨.usr1, ∅, .leave⟩] (polled i 0 ++ [.received])
    rw [polled_received]
    exact .startOut (i + 1)
  | startOut i => exact ⟨.start i, hnot _⟩
  | poll i j =>
    by_cases hdue : .usr1 ∈ pending
    · have hexec : (exec (maskTests.code .poll)
          ⟨pending, full, none, [], .poll, false, polled i j⟩)
          = ⟨pending, full, none, [], .one, false, polled i j⟩ := by
        simp [exec, maskTests, code, State.goto, hdue]
      exact hexec ▸ ⟨.one i j hdue, hnot _⟩
    · have hexec : (exec (maskTests.code .poll)
          ⟨pending, full, none, [], .poll, false, polled i j⟩)
          = ⟨pending, full, none, [], .zero, false, polled i j⟩ := by
        simp [exec, maskTests, code, State.goto, hdue]
      exact hexec ▸ ⟨.zero i j, hnot _⟩
  | zero i j =>
    refine ⟨?_, hnot _⟩
    show Phase pending .poll full none [] (polled i j ++ [.isMember false])
    rw [polled_zero]
    exact .poll i (j + 1)
  | one i j hdue => exact ⟨.unmask i j hdue, hnot _⟩
  | unmask i j hdue => exact ⟨.remask i j 0 (Or.inr hdue), hnot _⟩
  | remask i j a hdue =>
    -- nothing is pending any more, so the handler has run
    rcases hdue with hpos | hdue
    · obtain ⟨b, rfl⟩ := Nat.exists_eq_succ_of_ne_zero hpos.ne'
      exact ⟨.wait i j b, hnot _⟩
    · exact absurd (hquiet hdue) (Finset.notMem_empty _)
  | remaskIn i j a =>
    refine ⟨?_, hnot _⟩
    show Phase pending .remask {.usr1} none [⟨.usr1, ∅, .leave⟩] (opened i j a ++ [.received])
    rw [opened_received]
    exact .remaskOut i j a
  | remaskOut i j a => exact ⟨.remask i j (a + 1) (Or.inl (Nat.succ_pos a)), hnot _⟩
  | wait i j a => exact ⟨.waiting i j a, hnot _⟩
  | waiting i j a => cases hawake
  | wokenIn i j a =>
    refine ⟨?_, hnot _⟩
    show Phase pending .finish full none [⟨.usr1, full, .leave⟩]
      (opened i j (a + 1) ++ [.received])
    rw [opened_received]
    exact .wokenOut i j a
  | wokenOut i j a => exact ⟨.woken i j a, hnot _⟩
  | woken i j a => exact ⟨.ended i j a, hnot _⟩
  | ended i j a => exact ⟨.ended i j a, fun _ => Or.inr rfl⟩

/-- Every reachable state is in one of the phases. -/
theorem phased_of_reachable (h : (system maskTests).Reachable s) : Phased s := by
  refine invariant (P := Phased) ?_ ?_ h
  · rintro s rfl
    exact ⟨.start 0, fun hend => by cases hend⟩
  · intro s a u hs hst
    cases hst with
    | arrive _ =>
      exact ⟨hs.phase.mono (Finset.subset_insert _ _),
        fun hend => (hs.stopped hend).imp (fun hf => Finset.mem_insert_of_mem hf) id⟩
    | take _ hpending hopen => exact phased_take hs hpending hopen
    | run hlive hawake hquiet => exact phased_run hs hlive hawake hquiet

/-! ## The output

What is printed has one form: received signals, zeros, a one, received signals, the last line. The
output of an unfinished process is the beginning of such a text. -/

/-- What is printed before the one is a beginning of the whole. -/
theorem polled_prefix (i j : Nat) : polled i j <+: opened i j 2 ++ [.finish] := by
  rw [opened, List.append_assoc]
  exact List.prefix_append _ _

/-- So is what is printed behind it. -/
theorem opened_prefix (i j a : Nat) : opened i j a <+: opened i j (a + 2) ++ [.finish] := by
  have hsplit : opened i j (a + 2) = opened i j a ++ [.received, .received] := by
    rw [← opened_received, ← opened_received, List.append_assoc]
    rfl
  rw [hsplit, List.append_assoc]
  exact List.prefix_append _ _

/-- The last line is not printed before the one. -/
theorem finish_notMem_polled (i j : Nat) : .finish ∉ polled i j := by
  simp [polled]

theorem finish_notMem_opened (i j a : Nat) : .finish ∉ opened i j a := by
  simp [opened, finish_notMem_polled]

/-- In every phase the output is the beginning of a text of that form, and the whole of it once the
last line is there. -/
theorem Phase.output_form {pending blocked : Finset Sig} {base : Place}
    {suspended : Option (Finset Sig)} {frames : List (Frame Sig Place)} {output : List Line}
    (h : Phase pending base blocked suspended frames output) :
    ∃ i j a, output <+: opened i j (a + 2) ++ [.finish] ∧
      (.finish ∈ output → output = opened i j (a + 2) ++ [.finish]) := by
  have hpolled : ∀ i j, ∃ i' j' a, polled i j <+: opened i' j' (a + 2) ++ [.finish] ∧
      (.finish ∈ polled i j → polled i j = opened i' j' (a + 2) ++ [.finish]) := fun i j =>
    ⟨i, j, 0, polled_prefix i j, fun hmem => absurd hmem (finish_notMem_polled i j)⟩
  have hopened : ∀ i j a, ∃ i' j' a', opened i j a <+: opened i' j' (a' + 2) ++ [.finish] ∧
      (.finish ∈ opened i j a → opened i j a = opened i' j' (a' + 2) ++ [.finish]) :=
    fun i j a => ⟨i, j, a, opened_prefix i j a, fun hmem =>
      absurd hmem (finish_notMem_opened i j a)⟩
  cases h with
  | start i | startIn i | startOut i => exact hpolled i 0
  | poll i j | zero i j | one i j _ => exact hpolled i j
  | unmask i j _ => exact hopened i j 0
  | remask i j a _ | remaskIn i j a => exact hopened i j a
  | remaskOut i j a | wait i j a | waiting i j a | wokenIn i j a => exact hopened i j (a + 1)
  | wokenOut i j a | woken i j a => exact hopened i j (a + 2)
  | ended i j a => exact ⟨i, j, a, List.prefix_refl _, fun _ => rfl⟩

/-- **The run of `sig_mask_tests`.** While the signals are blocked no handler runs; what is printed
has a fixed form, with one part for each opening of the mask; and the program stops early only by a
fatal signal. -/
theorem mask_test (h : (system maskTests).Reachable s) :
    (s.base ∈ [Place.poll, .zero, .one, .unmask, .wait] → s.frames = []) ∧
    (∃ i j a, s.output <+: opened i j (a + 2) ++ [.finish] ∧
      (.finish ∈ s.output → s.output = opened i j (a + 2) ++ [.finish])) ∧
    (s.stopped = true → .fatal ∈ s.pending ∨ .finish ∈ s.output) := by
  obtain ⟨hphase, hover⟩ := phased_of_reachable h
  refine ⟨?_, hphase.output_form, fun hend => (hover hend).imp id ?_⟩
  · generalize s.base = base at hphase ⊢
    generalize s.blocked = blocked at hphase
    generalize s.suspended = suspended at hphase
    generalize s.frames = frames at hphase ⊢
    generalize s.output = output at hphase
    intro hmem
    cases hphase with
    | startIn | startOut | remaskIn | remaskOut | wokenIn | wokenOut =>
      exact absurd hmem (by decide)
    | _ => rfl
  · intro hended
    rw [hended] at hphase
    generalize s.blocked = blocked at hphase
    generalize s.suspended = suspended at hphase
    generalize s.frames = frames at hphase
    generalize s.output = output at hphase ⊢
    cases hphase with
    | ended i j a => exact List.mem_append_right _ (List.mem_singleton_self _)

/-- A process that has seen its signal pending and is about to open the mask. -/
theorem mask_test_polls : ∃ s, (system maskTests).Reachable s ∧ s.base = .unmask ∧
    (s.base ∈ [Place.poll, .zero, .one, .unmask, .wait] → s.frames = []) := by
  have hexec : ∃ s, (system maskTests).Exec [.run, .run, .run, .arrive .usr1, .run, .run] s ∧
      s.base = .unmask :=
    ⟨_, ⟨_, rfl, Run.cons (.run rfl rfl (by decide)) <| Run.cons (.run rfl rfl (by decide)) <|
      Run.cons (.run rfl rfl (by decide)) <| Run.cons (.arrive rfl) <|
      Run.cons (.run rfl rfl (by decide)) <| Run.single (.run rfl rfl (by decide))⟩, rfl⟩
  obtain ⟨s, hexec, hbase⟩ := hexec
  exact ⟨s, hexec.reachable, hbase, (mask_test hexec.reachable).1⟩

end HseDev.Sem18.SigMask
