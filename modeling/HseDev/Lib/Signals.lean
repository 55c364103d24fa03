import HseDev.Lib.Transition
import Mathlib.Data.Finset.Basic
import Mathlib.Data.Fintype.Card

/-!
# Signals

A process with one thread, its signal mask and its handlers. Standard signals do not queue: a
signal is pending or not. While a pending signal is not blocked, the only thing the process does
is to take such a signal, so a `raise` of a signal that is not blocked runs the handler before it
returns.

* **`Program`** — the code as a graph of `Instr`, and what `sigaction` has set for each signal.
* **`Step`** — a signal arrives, is taken, or the process executes one instruction.
* **`Quiet`** — the places of handlers that leave the mask alone.
* **`nested_of_reachable`** — handlers that block their own signal nest at most once for each
  signal; **`depth_le`** is the bound on the stack.
-/

namespace Signals

open Transition

variable {Sig P O : Type*}

/-- `struct sigaction` -/
structure Action (Sig P : Type*) where
  entry : P
  mask : Finset Sig
  nodefer : Bool

/-- What the code at a place does with signals, and where it goes on. -/
inductive Instr (Sig P O : Type*) where
  | skip (next : P)
  | print (o : O) (next : P)
  | raise (sig : Sig) (next : P)
  | setMask (mask : Finset Sig) (next : P)
  | suspend (mask : Finset Sig) (next : P)
  | ifPending (sig : Sig) (yes no : P)
  | ret

/-- The code, the disposition of each signal (`none` is the default one, which ends the process),
and where `main` starts. -/
structure Program (Sig P O : Type*) where
  code : P → Instr Sig P O
  action : Sig → Option (Action Sig P)
  main : P

/-- A handler that runs: its signal, the mask that its return brings back, and where it is. -/
structure Frame (Sig P : Type*) where
  sig : Sig
  saved : Finset Sig
  place : P
  deriving DecidableEq

/-- `base` is where the code outside the handlers is; `suspended` is the mask that the end of a
`sigsuspend` brings back. -/
structure State (Sig P O : Type*) where
  pending : Finset Sig
  blocked : Finset Sig
  suspended : Option (Finset Sig)
  frames : List (Frame Sig P)
  base : P
  stopped : Bool
  output : List O

inductive Event (Sig : Type*) where
  | arrive (sig : Sig)
  | take (sig : Sig)
  | run
  deriving DecidableEq, Repr

def State.place (s : State Sig P O) : P :=
  match s.frames with
  | [] => s.base
  | f :: _ => f.place

def State.goto (s : State Sig P O) (p : P) : State Sig P O :=
  match s.frames with
  | [] => { s with base := p }
  | f :: fs => { s with frames := { f with place := p } :: fs }

variable [DecidableEq Sig]

/-- The signals that a handler adds to the mask. -/
def Action.blocks (act : Action Sig P) (sig : Sig) : Finset Sig :=
  if act.nodefer then act.mask else insert sig act.mask

def exec : Instr Sig P O → State Sig P O → State Sig P O
  | .skip next, s => s.goto next
  | .print o next, s => { s.goto next with output := s.output ++ [o] }
  | .raise sig next, s => { s.goto next with pending := insert sig s.pending }
  | .setMask mask next, s => { s.goto next with blocked := mask }
  | .suspend mask next, s => { s.goto next with blocked := mask, suspended := some s.blocked }
  | .ifPending sig yes no, s => s.goto (if sig ∈ s.pending then yes else no)
  | .ret, s =>
    match s.frames with
    | [] => { s with stopped := true }
    | f :: fs => { s with frames := fs, blocked := f.saved }

/-- What happens to a signal that is taken. -/
def deliver (sig : Sig) : Option (Action Sig P) → State Sig P O → State Sig P O
  | none, s => { s with stopped := true }
  | some act, s =>
    { s with
      pending := s.pending.erase sig
      blocked := s.blocked ∪ act.blocks sig
      suspended := none
      frames := ⟨sig, s.suspended.getD s.blocked, act.entry⟩ :: s.frames }

inductive Step (C : Program Sig P O) : State Sig P O → Event Sig → State Sig P O → Prop where
  | arrive {s : State Sig P O} {sig : Sig} (hlive : s.stopped = false) :
      Step C s (.arrive sig) { s with pending := insert sig s.pending }
  | take {s : State Sig P O} {sig : Sig} (hlive : s.stopped = false) (hpending : sig ∈ s.pending)
      (hopen : sig ∉ s.blocked) : Step C s (.take sig) (deliver sig (C.action sig) s)
  | run {s : State Sig P O} (hlive : s.stopped = false) (hawake : s.suspended = none)
      (hquiet : s.pending ⊆ s.blocked) : Step C s .run (exec (C.code s.place) s)

/-- `main` starts with nothing pending and nothing blocked. -/
def initial (C : Program Sig P O) : State Sig P O where
  pending := ∅
  blocked := ∅
  suspended := none
  frames := []
  base := C.main
  stopped := false
  output := []

def system (C : Program Sig P O) : System (State Sig P O) (Event Sig) where
  init s := s = initial C
  step := Step C

/-! ## Nesting

A signal that is not blocked interrupts the handler that runs. Because a handler blocks its own
signal, the handlers on the stack are for different signals, and there are only so many. -/

/-- Handler code with places in `Q` leaves the mask alone, and every handler starts there and
blocks its own signal. -/
structure Quiet (C : Program Sig P O) (Q : P → Prop) : Prop where
  entry : ∀ sig act, C.action sig = some act → Q act.entry ∧ sig ∈ act.blocks sig
  skip : ∀ p next, Q p → C.code p = .skip next → Q next
  print : ∀ p o next, Q p → C.code p = .print o next → Q next
  raise : ∀ p sig next, Q p → C.code p = .raise sig next → Q next
  ifPending : ∀ p sig yes no, Q p → C.code p = .ifPending sig yes no → Q yes ∧ Q no
  setMask : ∀ p mask next, Q p → C.code p ≠ .setMask mask next
  suspend : ∀ p mask next, Q p → C.code p ≠ .suspend mask next

/-- The signals of all running handlers are blocked and differ, and a return keeps it so. -/
def Nested (Q : P → Prop) : Finset Sig → List (Frame Sig P) → Prop
  | _, [] => True
  | blocked, f :: fs =>
    Q f.place ∧ (∀ g ∈ f :: fs, g.sig ∈ blocked) ∧ (∀ g ∈ fs, g.sig ≠ f.sig) ∧ Nested Q f.saved fs

variable {C : Program Sig P O} {Q : P → Prop} {s u : State Sig P O} {a : Event Sig}

omit [DecidableEq Sig] in
/-- A handler that goes on to another place changes nothing about the nesting. -/
theorem Nested.goto {f : Frame Sig P} {fs : List (Frame Sig P)} {blocked : Finset Sig} {p : P}
    (h : Nested Q blocked (f :: fs)) (hp : Q p) :
    Nested Q blocked ({ f with place := p } :: fs) := by
  obtain ⟨_, hblocked, hne, hsaved⟩ := h
  refine ⟨hp, ?_, hne, hsaved⟩
  intro g hg
  rcases List.mem_cons.mp hg with rfl | hmem
  · exact hblocked f List.mem_cons_self
  · exact hblocked g (List.mem_cons_of_mem f hmem)

/-- A step of the running code keeps the nesting: a return gives back the mask of the frame below
it. -/
theorem nested_run (hquiet : Quiet C Q)
    (h : Nested Q s.blocked s.frames ∧ (s.suspended ≠ none → s.frames = [])) :
    Nested Q (exec (C.code s.place) s).blocked (exec (C.code s.place) s).frames ∧
      ((exec (C.code s.place) s).suspended ≠ none → (exec (C.code s.place) s).frames = []) := by
  obtain ⟨hnested, hsuspended⟩ := h
  cases hframes : s.frames with
  | nil =>
    -- outside the handlers the mask is of no concern
    have hnil : (exec (C.code s.place) s).frames = [] := by
      cases C.code s.place <;> simp [exec, State.goto, hframes]
    rw [hnil]
    exact ⟨trivial, fun _ => rfl⟩
  | cons f fs =>
    rw [hframes] at hnested
    have hawake : s.suspended = none := by
      by_contra hne
      rw [hframes] at hsuspended
      cases hsuspended hne
    have hplace : s.place = f.place := by
      rw [State.place, hframes]
    have hgoto : ∀ p, s.goto p = { s with frames := { f with place := p } :: fs } := by
      intro p
      rw [State.goto, hframes]
    have hQ : Q f.place := hnested.1
    rw [hplace]
    cases hcode : C.code f.place with
    | skip next =>
      simp only [exec, hgoto]
      exact ⟨hnested.goto (hquiet.skip _ _ hQ hcode), fun hne => absurd hawake hne⟩
    | print o next =>
      simp only [exec, hgoto]
      exact ⟨hnested.goto (hquiet.print _ _ _ hQ hcode), fun hne => absurd hawake hne⟩
    | raise sig next =>
      simp only [exec, hgoto]
      exact ⟨hnested.goto (hquiet.raise _ _ _ hQ hcode), fun hne => absurd hawake hne⟩
    | setMask mask next => exact absurd hcode (hquiet.setMask _ _ _ hQ)
    | suspend mask next => exact absurd hcode (hquiet.suspend _ _ _ hQ)
    | ifPending sig yes no =>
      obtain ⟨hyes, hno⟩ := hquiet.ifPending _ _ _ _ hQ hcode
      simp only [exec, hgoto]
      refine ⟨hnested.goto ?_, fun hne => absurd hawake hne⟩
      split
      · exact hyes
      · exact hno
    | ret =>
      simp only [exec, hframes]
      exact ⟨hnested.2.2.2, fun hne => absurd hawake hne⟩

/-- A delivered signal puts one more frame on the stack, whose mask blocks that signal. -/
theorem nested_deliver (hquiet : Quiet C Q) {sig : Sig} (hopen : sig ∉ s.blocked)
    (h : Nested Q s.blocked s.frames ∧ (s.suspended ≠ none → s.frames = [])) :
    Nested Q (deliver sig (C.action sig) s).blocked (deliver sig (C.action sig) s).frames ∧
      ((deliver sig (C.action sig) s).suspended ≠ none →
        (deliver sig (C.action sig) s).frames = []) := by
  obtain ⟨hnested, hsuspended⟩ := h
  cases hact : C.action sig with
  | none => exact ⟨hnested, hsuspended⟩
  | some act =>
    obtain ⟨hentry, hblocks⟩ := hquiet.entry sig act hact
    have hbelow : ∀ g ∈ s.frames, g.sig ∈ s.blocked := by
      cases hframes : s.frames with
      | nil => exact fun g hg => absurd hg List.not_mem_nil
      | cons f fs =>
        rw [hframes] at hnested
        exact hnested.2.1
    refine ⟨⟨hentry, ?_, ?_, ?_⟩, fun hne => absurd rfl hne⟩
    · intro g hg
      show g.sig ∈ s.blocked ∪ act.blocks sig
      rcases List.mem_cons.mp hg with rfl | hmem
      · exact Finset.mem_union_right _ hblocks
      · exact Finset.mem_union_left _ (hbelow g hmem)
    · intro g hg heq
      refine hopen ?_
      rw [← show g.sig = sig from heq]
      exact hbelow g hg
    · cases hsus : s.suspended with
      | none => exact hnested
      | some mask =>
        rw [hsuspended (by rw [hsus]; exact Option.some_ne_none mask)]
        trivial

/-- **Handlers that block their own signal do not run inside themselves.** The stack of handlers
then has every signal at most once, in every reachable state and under any arrival of signals. -/
theorem nested_of_reachable (hquiet : Quiet C Q) (h : (system C).Reachable s) :
    Nested Q s.blocked s.frames := by
  refine (System.invariant (P := fun s => Nested Q s.blocked s.frames ∧
    (s.suspended ≠ none → s.frames = [])) ?_ ?_ h).1
  · rintro s rfl
    exact ⟨trivial, fun _ => rfl⟩
  · intro s a u hs hst
    cases hst with
    | arrive _ => exact hs
    | take _ _ hopen => exact nested_deliver hquiet hopen hs
    | run _ _ _ => exact nested_run hquiet hs

omit [DecidableEq Sig] in
/-- No two frames are for the same signal: the lower one blocks it. -/
theorem Nested.nodup {blocked : Finset Sig} {frames : List (Frame Sig P)}
    (h : Nested Q blocked frames) : (frames.map Frame.sig).Nodup := by
  induction frames generalizing blocked with
  | nil => exact List.nodup_nil
  | cons f fs ih =>
    rw [List.map_cons, List.nodup_cons]
    refine ⟨fun hmem => ?_, ih h.2.2.2⟩
    obtain ⟨g, hg, heq⟩ := List.mem_map.mp hmem
    exact h.2.2.1 g hg heq

/-- **The bound on the stack**: one frame for each signal. A signal that has a frame is blocked
until the frame is left, so there is never a second one of it. -/
theorem depth_le [Fintype Sig] (hquiet : Quiet C Q) (h : (system C).Reachable s) :
    s.frames.length ≤ Fintype.card Sig := by
  have hnodup := (nested_of_reachable hquiet h).nodup
  have hle := hnodup.length_le_card
  rwa [List.length_map] at hle

end Signals
