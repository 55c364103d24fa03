import HseDev.Lib.Signals
import Mathlib.Data.Finset.Insert

/-!
# HseDev — `signal_recursion_test` and `sa_recursive_test` of `sem18/main.c`

Handlers that raise signals themselves. `sigusr1_handler` is set for two signals with `signal`
and raises the other one; `recursive_handler` is set with `SA_NODEFER`, but with its own signal
in `sa_mask`. Both tests are followed from the moment their handlers are set; signals also arrive
from outside at any time.

* **`recursion_test`** — the two handlers of the first test never run more than one inside the
  other, and the loop of the test never comes to its `sleep`: whenever no handler runs, one is due.
* **`recursive_test`** — the handler of the second test never runs inside itself, the `raise` of
  the test returns only to take the signal again, and only another signal ends the process.
-/

namespace HseDev.Sem18.SignalRecursion

open Transition System Signals

/-- The two signals that `signal_recursion_test` handles. -/
inductive Sig where
  | usr1
  | usr2
  deriving DecidableEq, Repr

instance : Fintype Sig where
  elems := {.usr1, .usr2}
  complete sig := by cases sig <;> decide

/-- The signal that `sigusr1_handler` raises. -/
def Sig.other : Sig → Sig
  | .usr2 => .usr1
  | .usr1 => .usr2

/-- There are only two signals, so one that is not this one is the other. -/
theorem eq_or_eq_other (a b : Sig) : a = b ∨ a = b.other := by
  cases a <;> cases b <;> simp [Sig.other]

theorem other_other (a : Sig) : a.other.other = a := by
  cases a <;> rfl

/-! ## `signal_recursion_test`

Each handler raises the signal of the other and blocks its own while it runs. So the handler of
the other signal runs inside it, and what that one raises stays pending until it has returned:
the two keep each other due, and `main` is never given back the processor. -/

/-- Places in the loop of the test and in `sigusr1_handler`. -/
inductive Place where
  | loop
  | sleep
  | received (sig : Sig)
  | raise (sig : Sig)
  | post (sig : Sig)
  | leave (sig : Sig)
  deriving DecidableEq, Repr

inductive Line where
  | received (sig : Sig)
  | post
  deriving DecidableEq, Repr

def code : Place → Instr Sig Place Line
  | .loop => .raise .usr1 .sleep
  | .sleep => .skip .loop
  | .received sig => .print (.received sig) (.raise sig)
  | .raise sig => .raise sig.other (.post sig)
  | .post sig => .print .post (.leave sig)
  | .leave _ => .ret

/-- `signal` blocks the handled signal and nothing else. -/
def recursionTest : Program Sig Place Line where
  code := code
  action sig := some ⟨.received sig, ∅, false⟩
  main := .loop

/-- In the handler of `sig`, before its `raise` has been taken. -/
def Before (sig : Sig) (p : Place) : Prop :=
  p = .received sig ∨ p = .raise sig

/-- In the handler of `sig`, after its `raise`. -/
def After (sig : Sig) (p : Place) : Prop :=
  p = .post sig ∨ p = .leave sig

/-- The handlers that run, with what their return leaves behind. -/
inductive Handling (pending : Finset Sig) (base : Place) :
    Finset Sig → List (Frame Sig Place) → Prop where
  | none (hbase : base = .loop ∨ pending.Nonempty) : Handling pending base ∅ []
  | one {sig : Sig} {p : Place}
      (hplace : Before sig p ∨ After sig p ∧ pending.Nonempty) :
      Handling pending base {sig} [⟨sig, ∅, p⟩]
  | two {sig : Sig} {p q : Place}
      (hplace : Before sig.other p ∨ After sig.other p ∧ sig ∈ pending)
      (hbelow : Before sig q ∨ After sig q) :
      Handling pending base {sig, sig.other} [⟨sig.other, {sig}, p⟩, ⟨sig, ∅, q⟩]

variable {s u : State Sig Place Line} {a : Signals.Event Sig}

/-- What holds of the first test in every state: nothing ends it, and nothing is waited for. -/
structure Handled (s : State Sig Place Line) : Prop where
  handling : Handling s.pending s.base s.blocked s.frames
  base : s.base = .loop ∨ s.base = .sleep
  live : s.stopped = false
  awake : s.suspended = Option.none

/-- One more pending signal is one more handler that is due. -/
theorem Handling.mono {pending pending' blocked : Finset Sig} {base : Place}
    {frames : List (Frame Sig Place)} (h : Handling pending base blocked frames)
    (hsub : pending ⊆ pending') : Handling pending' base blocked frames := by
  cases h with
  | none hbase => exact .none (hbase.imp id fun hne => hne.mono hsub)
  | one hplace => exact .one (hplace.imp id fun hafter => ⟨hafter.1, hafter.2.mono hsub⟩)
  | two hplace hbelow =>
    exact .two (hplace.imp id fun hafter => ⟨hafter.1, hsub hafter.2⟩) hbelow

/-- A signal that is taken is not blocked, so its handler is not one of those that run: from none
it is the first, and from one it is the second, the other one. -/
theorem handled_take {sig : Sig} (h : Handled s) (hopen : sig ∉ s.blocked) :
    Handled (deliver sig (recursionTest.action sig) s) := by
  obtain ⟨hhandling, hbase, hlive, hawake⟩ := h
  have hdeliver : deliver sig (recursionTest.action sig) s =
      { s with
        pending := s.pending.erase sig
        blocked := s.blocked ∪ {sig}
        suspended := Option.none
        frames := ⟨sig, s.blocked, .received sig⟩ :: s.frames } := by
    simp [deliver, recursionTest, Action.blocks, hawake]
  rw [hdeliver]
  refine ⟨?_, hbase, hlive, rfl⟩
  show Handling (s.pending.erase sig) s.base (s.blocked ∪ {sig})
    (⟨sig, s.blocked, .received sig⟩ :: s.frames)
  generalize s.blocked = blocked at hhandling hopen ⊢
  generalize s.frames = frames at hhandling ⊢
  cases hhandling with
  | none _ =>
    have hone : Handling (s.pending.erase sig) s.base {sig} [⟨sig, ∅, .received sig⟩] :=
      .one (Or.inl (Or.inl rfl))
    simpa using hone
  | @one below p hplace =>
    -- the signal is not the one below, so it is the other
    have hother : sig = below.other := by
      rcases eq_or_eq_other sig below with rfl | heq
      · exact absurd (Finset.mem_singleton_self _) hopen
      · exact heq
    subst hother
    exact .two (Or.inl (Or.inl rfl)) (hplace.imp id And.left)
  | @two below p q hplace hbelow =>
    -- both are blocked
    rcases eq_or_eq_other sig below with rfl | rfl
    · simp at hopen
    · simp at hopen

/-- Every instruction keeps it so. The two that matter are the `raise` of a handler, which makes
the other one due, and the return of the inner handler, behind which the outer one still finds
its own signal pending. -/
theorem handled_run (h : Handled s) (hquiet : s.pending ⊆ s.blocked) :
    Handled (exec (recursionTest.code s.place) s) := by
  obtain ⟨hhandling, hbase, hlive, hawake⟩ := h
  obtain ⟨pending, blocked, suspended, frames, base, stopped, output⟩ := s
  simp only at hhandling hbase hlive hawake hquiet
  cases hhandling with
  | none hdue =>
    -- nothing is pending, so the loop is at its `raise`
    have hloop : base = .loop := by
      rcases hdue with hloop | ⟨sig, hsig⟩
      · exact hloop
      · exact absurd (hquiet hsig) (Finset.notMem_empty sig)
    subst hloop
    exact ⟨.none (Or.inr (Finset.insert_nonempty _ _)), Or.inr rfl, hlive, hawake⟩
  | @one sig p hplace =>
    rcases hplace with (rfl | rfl) | ⟨rfl | rfl, hdue⟩
    · exact ⟨.one (Or.inl (Or.inr rfl)), hbase, hlive, hawake⟩
    · exact ⟨.one (Or.inr ⟨Or.inl rfl, Finset.insert_nonempty _ _⟩), hbase, hlive, hawake⟩
    · exact ⟨.one (Or.inr ⟨Or.inr rfl, hdue⟩), hbase, hlive, hawake⟩
    · exact ⟨.none (Or.inr hdue), hbase, hlive, hawake⟩
  | @two sig p q hplace hbelow =>
    rcases hplace with (rfl | rfl) | ⟨rfl | rfl, hdue⟩
    · exact ⟨.two (Or.inl (Or.inr rfl)) hbelow, hbase, hlive, hawake⟩
    · -- the inner handler raises the signal of the outer one, which stays pending
      refine ⟨.two (Or.inr ⟨Or.inl rfl, ?_⟩) hbelow, hbase, hlive, hawake⟩
      show sig ∈ insert sig.other.other pending
      rw [other_other]
      exact Finset.mem_insert_self _ _
    · exact ⟨.two (Or.inr ⟨Or.inr rfl, hdue⟩) hbelow, hbase, hlive, hawake⟩
    · exact ⟨.one (hbelow.imp id fun hafter => ⟨hafter, sig, hdue⟩), hbase, hlive, hawake⟩

/-- Arrivals only add to what is due. -/
theorem handled_of_reachable (h : (system recursionTest).Reachable s) : Handled s := by
  refine invariant (P := Handled) ?_ ?_ h
  · rintro s rfl
    exact ⟨.none (Or.inl rfl), Or.inl rfl, rfl, rfl⟩
  · intro s a u hs hst
    cases hst with
    | arrive _ =>
      exact ⟨hs.handling.mono (Finset.subset_insert _ _), hs.base, hs.live, hs.awake⟩
    | take _ _ hopen => exact handled_take hs hopen
    | run _ _ hquiet => exact handled_run hs hquiet

/-- The places of the handler. -/
def InHandler (p : Place) : Prop :=
  ∃ sig, Before sig p ∨ After sig p

/-- `sigusr1_handler` prints and raises, and leaves the mask alone. -/
theorem quiet_recursionTest : Quiet recursionTest InHandler := by
  have hnext : ∀ p, InHandler p → ∃ sig, p = .received sig ∨ p = .raise sig ∨ p = .post sig ∨
      p = .leave sig := by
    rintro p ⟨sig, (rfl | rfl) | (rfl | rfl)⟩
    · exact ⟨sig, Or.inl rfl⟩
    · exact ⟨sig, Or.inr (Or.inl rfl)⟩
    · exact ⟨sig, Or.inr (Or.inr (Or.inl rfl))⟩
    · exact ⟨sig, Or.inr (Or.inr (Or.inr rfl))⟩
  refine ⟨?_, ?_, ?_, ?_, ?_, ?_, ?_⟩
  · intro sig act hact
    cases hact
    exact ⟨⟨sig, Or.inl (Or.inl rfl)⟩, Finset.mem_insert_self _ _⟩
  · intro p next hp hcode
    obtain ⟨sig, rfl | rfl | rfl | rfl⟩ := hnext p hp <;> cases hcode
  · intro p o next hp hcode
    obtain ⟨sig, rfl | rfl | rfl | rfl⟩ := hnext p hp <;> cases hcode
    · exact ⟨sig, Or.inl (Or.inr rfl)⟩
    · exact ⟨sig, Or.inr (Or.inr rfl)⟩
  · intro p sig' next hp hcode
    obtain ⟨sig, rfl | rfl | rfl | rfl⟩ := hnext p hp <;> cases hcode
    exact ⟨sig, Or.inr (Or.inl rfl)⟩
  · intro p sig' yes no hp hcode
    obtain ⟨sig, rfl | rfl | rfl | rfl⟩ := hnext p hp <;> cases hcode
  · intro p mask next hp hcode
    obtain ⟨sig, rfl | rfl | rfl | rfl⟩ := hnext p hp <;> cases hcode
  · intro p mask next hp hcode
    obtain ⟨sig, rfl | rfl | rfl | rfl⟩ := hnext p hp <;> cases hcode

/-- **The first test.** At most two handlers are active; once the loop has raised its signal it
does not get on, because whenever no handler runs one is due; and the process always can. -/
theorem recursion_test (h : (system recursionTest).Reachable s) :
    s.frames.length ≤ 2 ∧
    (s.base = .sleep → s.frames = [] →
      (∃ sig, sig ∈ s.pending ∧ sig ∉ s.blocked) ∧ ¬ ∃ u, (system recursionTest).step s .run u) ∧
    ∃ a u, (∀ sig, a ≠ .arrive sig) ∧ (system recursionTest).step s a u := by
  have hhandled := handled_of_reachable h
  refine ⟨depth_le quiet_recursionTest h, ?_, ?_⟩
  · intro hsleep hnil
    have hdue : ∃ sig, sig ∈ s.pending ∧ sig ∉ s.blocked := by
      have hhandling := hhandled.handling
      rw [hnil] at hhandling
      generalize s.blocked = blocked at hhandling ⊢
      cases hhandling with
      | none hbase =>
        rcases hbase with hloop | ⟨sig, hsig⟩
        · rw [hsleep] at hloop
          cases hloop
        · exact ⟨sig, hsig, Finset.notMem_empty sig⟩
    refine ⟨hdue, ?_⟩
    rintro ⟨u, hrun⟩
    obtain ⟨sig, hpending, hopen⟩ := hdue
    cases hrun with
    | run _ _ hquiet => exact hopen (hquiet hpending)
  · by_cases hquiet : s.pending ⊆ s.blocked
    · exact ⟨.run, _, by simp, .run hhandled.live hhandled.awake hquiet⟩
    · obtain ⟨sig, hpending, hopen⟩ := Finset.not_subset.mp hquiet
      exact ⟨.take sig, _, by simp, .take hhandled.live hpending hopen⟩

/-- The handler of `SIGUSR2` inside that of `SIGUSR1`, with one more `SIGUSR1` from outside. -/
theorem recursion_test_nested : ∃ s, (system recursionTest).Reachable s ∧
    s.frames = [⟨.usr2, {.usr1}, .received .usr2⟩, ⟨.usr1, ∅, .post .usr1⟩] ∧
    s.pending = {.usr1} ∧ s.frames.length ≤ 2 := by
  have hexec : ∃ s, (system recursionTest).Exec
      [.run, .take .usr1, .run, .run, .take .usr2, .arrive .usr1] s ∧
      s.frames = [⟨.usr2, {.usr1}, .received .usr2⟩, ⟨.usr1, ∅, .post .usr1⟩] ∧
      s.pending = {.usr1} :=
    ⟨_, ⟨_, rfl, Run.cons (.run rfl rfl (by decide)) <|
      Run.cons (.take rfl (by decide) (by decide)) <| Run.cons (.run rfl rfl (by decide)) <|
      Run.cons (.run rfl rfl (by decide)) <| Run.cons (.take rfl (by decide) (by decide)) <|
      Run.single (.arrive rfl)⟩, by decide, by decide⟩
  obtain ⟨s, hexec, hframes, hpending⟩ := hexec
  exact ⟨s, hexec.reachable, hframes, hpending, (recursion_test hexec.reachable).1⟩

/-! ## `sa_recursive_test`

`SA_NODEFER` leaves the signal of a handler open while it runs, and `sa_mask` blocks it all the
same. Other signals keep their default, which ends the process. -/

section Recursive

/-- `SIGUSR1` and the signals that end the process, `SIGUSR2` among them. -/
inductive Signal where
  | usr1
  | fatal
  deriving DecidableEq, Repr

/-- Places in the test and in `recursive_handler`. -/
inductive Spot where
  | call
  | ended
  | received
  | raise
  | leave
  deriving DecidableEq, Repr

def recursiveCode : Spot → Instr Signal Spot Signal
  | .call => .raise .usr1 .ended
  | .ended => .ret
  | .received => .print .usr1 .raise
  | .raise => .raise .usr1 .leave
  | .leave => .ret

/-- `SA_NODEFER`, with the signal added to `sa_mask`; the other signals keep their default. -/
def recursiveTest : Program Signal Spot Signal where
  code := recursiveCode
  action
    | .usr1 => some ⟨.received, {.usr1}, true⟩
    | .fatal => none
  main := .call

/-- The handler that runs, if any. -/
inductive Running (pending : Finset Signal) (base : Spot) :
    Finset Signal → List (Frame Signal Spot) → Prop where
  | none (hbase : base = .call ∨ base = .ended ∧ .usr1 ∈ pending) : Running pending base ∅ []
  | one {p : Spot} (hbase : base = .call ∨ base = .ended)
      (hplace : p = .received ∨ p = .raise ∨ p = .leave ∧ .usr1 ∈ pending) :
      Running pending base {.usr1} [⟨.usr1, ∅, p⟩]

variable {s : State Signal Spot Signal}

/-- What holds of the second test in every state. -/
structure Recursing (s : State Signal Spot Signal) : Prop where
  running : Running s.pending s.base s.blocked s.frames
  awake : s.suspended = Option.none
  stopped : s.stopped = true → .fatal ∈ s.pending

/-- Signals that arrive keep what is due. -/
theorem Running.mono {pending pending' blocked : Finset Signal} {base : Spot}
    {frames : List (Frame Signal Spot)} (h : Running pending base blocked frames)
    (hsub : pending ⊆ pending') : Running pending' base blocked frames := by
  cases h with
  | none hbase => exact .none (hbase.imp id fun hended => ⟨hended.1, hsub hended.2⟩)
  | one hbase hplace =>
    exact .one hbase (hplace.imp id (Or.imp id fun hleave => ⟨hleave.1, hsub hleave.2⟩))

/-- `SIGUSR1` is open only outside its handler, so what is taken is its first activation, or a
signal that ends the process and stays pending. -/
theorem recursing_take {sig : Signal} (h : Recursing s) (hpending : sig ∈ s.pending)
    (hopen : sig ∉ s.blocked) : Recursing (deliver sig (recursiveTest.action sig) s) := by
  cases sig with
  | fatal => exact ⟨h.running, h.awake, fun _ => hpending⟩
  | usr1 =>
    obtain ⟨hrunning, hawake, hover⟩ := h
    have hdeliver : deliver .usr1 (recursiveTest.action .usr1) s =
        { s with
          pending := s.pending.erase .usr1
          blocked := s.blocked ∪ {.usr1}
          suspended := Option.none
          frames := ⟨.usr1, s.blocked, .received⟩ :: s.frames } := by
      simp [deliver, recursiveTest, Action.blocks, hawake]
    rw [hdeliver]
    refine ⟨?_, rfl, fun hend => Finset.mem_erase.mpr ⟨by decide, hover hend⟩⟩
    show Running (s.pending.erase .usr1) s.base (s.blocked ∪ {.usr1})
      (⟨.usr1, s.blocked, .received⟩ :: s.frames)
    generalize s.blocked = blocked at hrunning hopen ⊢
    generalize s.frames = frames at hrunning ⊢
    cases hrunning with
    | none hbase => exact .one (hbase.imp id And.left) (Or.inl rfl)
    | one _ _ => exact absurd (Finset.mem_singleton_self _) hopen

/-- The handler raises its own signal before it returns, so that its return leaves the signal
pending and open. -/
theorem recursing_run (h : Recursing s) (hlive : s.stopped = false)
    (hquiet : s.pending ⊆ s.blocked) : Recursing (exec (recursiveTest.code s.place) s) := by
  obtain ⟨hrunning, hawake, hover⟩ := h
  obtain ⟨pending, blocked, suspended, frames, base, stopped, output⟩ := s
  simp only at hrunning hawake hover hlive hquiet
  have hnot : stopped = true → .fatal ∈ pending := hover
  cases hrunning with
  | none hbase =>
    rcases hbase with rfl | ⟨_, hdue⟩
    · exact ⟨.none (Or.inr ⟨rfl, Finset.mem_insert_self _ _⟩), hawake,
        fun hend => Finset.mem_insert_of_mem (hnot hend)⟩
    · exact absurd (hquiet hdue) (Finset.notMem_empty _)
  | one hbase hplace =>
    rcases hplace with rfl | rfl | ⟨rfl, hdue⟩
    · exact ⟨.one hbase (Or.inr (Or.inl rfl)), hawake, hnot⟩
    · exact ⟨.one hbase (Or.inr (Or.inr ⟨rfl, Finset.mem_insert_self _ _⟩)), hawake,
        fun hend => Finset.mem_insert_of_mem (hnot hend)⟩
    · exact ⟨.none (hbase.imp id fun hended => ⟨hended, hdue⟩), hawake, hnot⟩

/-- In every reachable state the handlers on the stack are as the invariant says. -/
theorem recursing_of_reachable (h : (system recursiveTest).Reachable s) : Recursing s := by
  refine invariant (P := Recursing) ?_ ?_ h
  · rintro s rfl
    exact ⟨.none (Or.inl rfl), rfl, fun hend => by cases hend⟩
  · intro s a u hs hst
    cases hst with
    | arrive _ =>
      exact ⟨hs.running.mono (Finset.subset_insert _ _), hs.awake,
        fun hend => Finset.mem_insert_of_mem (hs.stopped hend)⟩
    | take _ hpending hopen => exact recursing_take hs hpending hopen
    | run hlive _ hquiet => exact recursing_run hs hlive hquiet

/-- **The second test.** The handler does not run inside itself; behind the `raise` of the test it
is due whenever it does not run; and the process ends only by another signal. -/
theorem recursive_test (h : (system recursiveTest).Reachable s) :
    s.frames.length ≤ 1 ∧
    (s.base = .ended → s.frames = [] → .usr1 ∈ s.pending ∧ .usr1 ∉ s.blocked) ∧
    (s.stopped = true → .fatal ∈ s.pending) := by
  obtain ⟨hrunning, _, hover⟩ := recursing_of_reachable h
  refine ⟨?_, ?_, hover⟩
  · generalize s.blocked = blocked at hrunning
    generalize s.frames = frames at hrunning ⊢
    cases hrunning with
    | none _ => exact Nat.zero_le 1
    | one _ _ => exact le_rfl
  · intro hended hnil
    rw [hnil] at hrunning
    generalize s.blocked = blocked at hrunning ⊢
    cases hrunning with
    | none hbase =>
      rcases hbase with hcall | ⟨_, hdue⟩
      · rw [hended] at hcall
        cases hcall
      · exact ⟨hdue, Finset.notMem_empty _⟩

/-- The handler has run and returned, and runs again. -/
theorem recursive_test_twice : ∃ s, (system recursiveTest).Reachable s ∧ s.base = .ended ∧
    s.frames = [⟨.usr1, ∅, .received⟩] ∧ s.output = [.usr1] ∧ s.frames.length ≤ 1 := by
  have hexec : ∃ s, (system recursiveTest).Exec
      [.run, .take .usr1, .run, .run, .run, .take .usr1] s ∧ s.base = .ended ∧
      s.frames = [⟨.usr1, ∅, .received⟩] ∧ s.output = [.usr1] :=
    ⟨_, ⟨_, rfl, Run.cons (.run rfl rfl (by decide)) <|
      Run.cons (.take rfl (by decide) (by decide)) <| Run.cons (.run rfl rfl (by decide)) <|
      Run.cons (.run rfl rfl (by decide)) <| Run.cons (.run rfl rfl (by decide)) <|
      Run.single (.take rfl (by decide) (by decide))⟩, rfl, rfl, rfl⟩
  obtain ⟨s, hexec, hbase, hframes, houtput⟩ := hexec
  exact ⟨s, hexec.reachable, hbase, hframes, houtput, (recursive_test hexec.reachable).1⟩

end Recursive

end HseDev.Sem18.SignalRecursion
