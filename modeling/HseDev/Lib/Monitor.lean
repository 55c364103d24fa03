import HseDev.Lib.Transition
import Mathlib.Data.List.Induction
import Mathlib.Logic.Function.Basic

/-!
# Monitors: a mutex and one condition variable

Threads that work on a shared object through operations of the shape *lock; while the
guard fails, wait; change the object; perhaps signal; unlock*. A critical section, from the
lock or from the return of a wait up to the next wait or the unlock, is one step. Which
waiter a signal wakes is left open, and a waiter may wake without a signal.

* **`enter`**, a parameter throughout, is the object: `none` where the guard fails, else the
  new object, what the operation returns and whether it signals (`Done`).
* **`Client`** — what the threads do between their operations.
* **`system`** — the transition system; its events name the completed operations.
* **`atomic_induction`** — to its clients the monitor looks as if each operation were called
  and completed at once; **`completed_induction`** is the case of a law of the object alone.
* **`reachable_sleepersBlocked`** — when no wakeup is lost; **`run_standstill`** — how one is
  lost where two kinds of threads share the condition variable.
-/

namespace Monitor

open Transition

variable {T σ L O R : Type*}

/-- What a critical section that found its guard true leaves behind. -/
structure Done (σ R : Type*) where
  state : σ
  result : R
  signals : Bool

/-- A thread between its operations, asleep inside one, or woken and about to retry it. -/
inductive Status (L O : Type*) where
  | running (l : L)
  | waiting (l : L) (op : O)
  | woken (l : L) (op : O)

/-- A thread's local state; it keeps it while it waits. -/
def Status.local : Status L O → L
  | .running l => l
  | .waiting l _ => l
  | .woken l _ => l

/-- The threads' own code: their local states, what they do alone, which operations they
call and how they go on. -/
structure Client (T L O R : Type*) where
  entry : T → L
  silent : T → L → L → Prop
  calls : T → L → O → Prop
  returns : T → L → O → R → L

structure State (T σ L O : Type*) where
  shared : σ
  thread : T → Status L O

inductive Event (T O R : Type*) where
  | silent (t : T)
  | wait (t : T) (op : O)
  | complete (t : T) (op : O) (result : R)
  | spurious (t : T)

/-- Thread `t` enters the critical section of `op`: a new call, or a retry after a wait. -/
def Attempts (C : Client T L O R) (s : State T σ L O) (t : T) (l : L) (op : O) : Prop :=
  (s.thread t = .running l ∧ C.calls t l op) ∨ s.thread t = .woken l op

def IsWaiting (s : State T σ L O) (t : T) : Prop :=
  ∃ l op, s.thread t = .waiting l op

/-- Whom a signal can wake: some waiter, and nobody only if nobody waits. -/
def Wakes (s : State T σ L O) : Option T → Prop
  | none => ∀ t, ¬ IsWaiting s t
  | some t => IsWaiting s t

def Status.wake : Status L O → Status L O
  | .waiting l op => .woken l op
  | status => status

/-- The operations a run completed, with what they returned, in their order. -/
def completed (as : List (Event T O R)) : List (O × R) :=
  as.filterMap fun
    | .complete _ op result => some (op, result)
    | _ => none

/-- The operations completed in two parts of a run, one after the other. -/
theorem completed_append (as bs : List (Event T O R)) :
    completed (as ++ bs) = completed as ++ completed bs :=
  List.filterMap_append

/-! ## Who waits

A thread that calls an operation attempts it, waits for its guard, or has been woken to test the
guard again. Which operation it calls stays the same all the while. -/

section Waiting

variable {C : Client T L O R} {s : State T σ L O} {t u : T}

/-- A thread that attempts an operation has the lock or wants it: it is not asleep. -/
theorem Attempts.not_waiting {l : L} {op : O} (h : Attempts C s t l op) : ¬ IsWaiting s t := by
  rintro ⟨l', op', hwait⟩
  rcases h with ⟨hrun, _⟩ | hwoken
  · rw [hrun] at hwait
    cases hwait
  · rw [hwoken] at hwait
    cases hwait

/-- It has the local state that it called the operation with. -/
theorem Attempts.local_eq {l : L} {op : O} (h : Attempts C s t l op) : (s.thread t).local = l := by
  rcases h with ⟨hrun, _⟩ | hwoken
  · rw [hrun]
    rfl
  · rw [hwoken]
    rfl

/-- Who still sleeps after a signal shared it with somebody else. -/
theorem other_waiter {w : Option T} (hwakes : Wakes s w) (hu : IsWaiting s u)
    (hne : w ≠ some u) : ∃ v, v ≠ u ∧ IsWaiting s v := by
  cases w with
  | none => exact absurd hu (hwakes u)
  | some v => exact ⟨v, fun h => hne (by rw [h]), hwakes⟩

/-- A sleeping or woken thread is inside an operation it called. -/
def Called (C : Client T L O R) (s : State T σ L O) : Prop :=
  ∀ t l op, s.thread t = .waiting l op ∨ s.thread t = .woken l op → C.calls t l op

/-- It calls an operation that its client allows, whether it comes from its own code or from a wait.
-/
theorem Attempts.calls {l : L} {op : O} (h : Attempts C s t l op) (hcalled : Called C s) :
    C.calls t l op := by
  rcases h with ⟨_, hcalls⟩ | hwoken
  · exact hcalls
  · exact hcalled t l op (Or.inr hwoken)

end Waiting

/-! ## Steps

One step is a step of a client, a wait, an operation that goes through, or a wake-up that nobody has
signalled. -/

section System

variable [DecidableEq T]

def State.set (s : State T σ L O) (t : T) (status : Status L O) : State T σ L O :=
  { s with thread := Function.update s.thread t status }

def State.wake (s : State T σ L O) : Option T → State T σ L O
  | none => s
  | some t => s.set t (s.thread t).wake

/-- One step of one thread. -/
inductive Step (enter : O → σ → Option (Done σ R)) (C : Client T L O R) :
    State T σ L O → Event T O R → State T σ L O → Prop where
  | silent {s : State T σ L O} {t : T} {l l' : L} (hrun : s.thread t = .running l)
      (hsilent : C.silent t l l') : Step enter C s (.silent t) (s.set t (.running l'))
  | wait {s : State T σ L O} {t : T} {l : L} {op : O} (hattempt : Attempts C s t l op)
      (hguard : enter op s.shared = none) : Step enter C s (.wait t op) (s.set t (.waiting l op))
  | complete {s : State T σ L O} {t : T} {l : L} {op : O} {d : Done σ R} {w : Option T}
      (hattempt : Attempts C s t l op) (hdone : enter op s.shared = some d)
      (hwakes : if d.signals then Wakes s w else w = none) :
      Step enter C s (.complete t op d.result)
        ({ s.wake w with shared := d.state }.set t (.running (C.returns t l op d.result)))
  | spurious {s : State T σ L O} {t : T} {l : L} {op : O} (hwait : s.thread t = .waiting l op) :
      Step enter C s (.spurious t) (s.set t (.woken l op))

/-- The monitor with its clients, all of them at their entry. -/
def system (enter : O → σ → Option (Done σ R)) (start : σ) (C : Client T L O R) :
    System (State T σ L O) (Event T O R) where
  init s := s = { shared := start, thread := fun t => .running (C.entry t) }
  step := Step enter C

variable {enter : O → σ → Option (Done σ R)} {start : σ} {C : Client T L O R}
variable {s s' : State T σ L O} {t u : T}

@[simp] theorem system_step {a : Event T O R} :
    (system enter start C).step s a s' ↔ Step enter C s a s' := Iff.rfl

@[simp] theorem set_thread_self (status : Status L O) : (s.set t status).thread t = status := by
  simp [State.set]

theorem set_thread_ne (status : Status L O) (h : u ≠ t) :
    (s.set t status).thread u = s.thread u := by
  simp [State.set, h]

/-! ## Waiting after a step

Only a wait puts a thread to sleep, and a signal wakes at most one. These are the facts that an
invariant about sleepers is proved from. -/

/-- A wakeup leaves the others as they are. -/
theorem wake_thread (w : Option T) (u : T) :
    (s.wake w).thread u = if w = some u then (s.thread u).wake else s.thread u := by
  cases w with
  | none => rfl
  | some v =>
    by_cases huv : u = v
    · subst huv
      rw [if_pos rfl]
      exact set_thread_self _
    · rw [if_neg (by simpa using Ne.symm huv)]
      exact set_thread_ne _ huv

/-- Whoever still waits after a wake-up has waited before and is not the one that was woken. -/
theorem isWaiting_wake {w : Option T} (h : IsWaiting (s.wake w) u) :
    IsWaiting s u ∧ w ≠ some u := by
  obtain ⟨l, op, hwait⟩ := h
  rw [wake_thread] at hwait
  by_cases hw : w = some u
  · rw [if_pos hw] at hwait
    cases hu : s.thread u <;> rw [hu] at hwait <;> cases hwait
  · rw [if_neg hw] at hwait
    exact ⟨⟨l, op, hwait⟩, hw⟩

/-- A step of one thread keeps the record of who called what, if that thread calls what it may. -/
theorem Called.set {status : Status L O} (h : Called C s)
    (hstatus : ∀ l op, status = .waiting l op ∨ status = .woken l op → C.calls t l op) :
    Called C (s.set t status) := by
  intro u l op hu
  by_cases hut : u = t
  · subst hut
    rw [set_thread_self] at hu
    exact hstatus l op hu
  · rw [set_thread_ne _ hut] at hu
    exact h u l op hu

/-- A wake-up changes no call. -/
theorem Called.wake (h : Called C s) (w : Option T) : Called C (s.wake w) := by
  cases w with
  | none => exact h
  | some t =>
    refine h.set fun l op hu => ?_
    cases ht : s.thread t with
    | running l' => simp [ht, Status.wake] at hu
    | waiting l' op' | woken l' op' =>
      simp only [ht, Status.wake, reduceCtorEq, false_or, Status.woken.injEq] at hu
      obtain ⟨rfl, rfl⟩ := hu
      exact h t _ _ (by simp [ht])

/-- **Who sleeps.** What holds of an operation whose caller falls asleep, holds of the
operations of all sleeping and woken threads. -/
theorem sleepers_induction {Q : T → L → O → Prop}
    (hwait : ∀ t l op q, C.calls t l op ∨ Q t l op → enter op q = none → Q t l op)
    (hs : (system enter start C).Reachable s) : Called { C with calls := Q } s := by
  refine System.invariant (P := Called { C with calls := Q }) ?_ ?_ hs
  · rintro s rfl t l op (h | h) <;> cases h
  · intro s a s' hcalled hstep
    cases hstep with
    | silent => exact hcalled.set (by simp)
    | wait hattempt hguard =>
      refine hcalled.set fun l op h => ?_
      simp only [Status.waiting.injEq, reduceCtorEq, or_false] at h
      obtain ⟨rfl, rfl⟩ := h
      refine hwait _ _ _ _ ?_ hguard
      rcases hattempt with ⟨_, hcalls⟩ | hwoken
      · exact Or.inl hcalls
      · exact Or.inr (hcalled _ _ _ (Or.inr hwoken))
    | complete =>
      refine Called.set ?_ (by simp)
      exact hcalled.wake _
    | spurious hwait =>
      refine hcalled.set fun l op h => ?_
      simp only [Status.woken.injEq, reduceCtorEq, false_or] at h
      obtain ⟨rfl, rfl⟩ := h
      exact hcalled _ _ _ (Or.inl hwait)

/-- In every reachable state a sleeping thread sleeps in an operation that its client calls. -/
theorem reachable_called (hs : (system enter start C).Reachable s) : Called C s :=
  sleepers_induction (Q := C.calls) (fun _ _ _ _ h _ => h.elim id id) hs

/-! ## Operations are atomic

With the lock held nothing comes between the guard and the effect. Seen without the sleepers, a run
is a sequence of complete operations. -/

/-- The local states of the threads. -/
def State.locals (s : State T σ L O) : T → L :=
  fun t => (s.thread t).local

/-- A step of one thread changes its local state alone. -/
theorem locals_set (status : Status L O) :
    (s.set t status).locals = Function.update s.locals t status.local := by
  funext u
  by_cases hut : u = t
  · subst hut
    simp [State.locals]
  · rw [Function.update_of_ne hut]
    exact congrArg Status.local (set_thread_ne _ hut)

/-- A thread that goes to sleep or wakes up keeps its local state. -/
theorem locals_set_same {status : Status L O} (h : status.local = (s.thread t).local) :
    (s.set t status).locals = s.locals := by
  rw [locals_set, h]
  exact Function.update_eq_self t s.locals

/-- So does a thread that is woken by another one. -/
theorem locals_wake (w : Option T) : (s.wake w).locals = s.locals := by
  cases w with
  | none => rfl
  | some t =>
    refine locals_set_same ?_
    cases s.thread t <;> rfl

/-- **Waiting is invisible.** A relation between the history of completed operations, the
object and the threads' local states holds after every run if it holds at the start and is
kept by the silent steps and by whole operations, called and completed at once. -/
theorem atomic_induction {P : List (O × R) → σ → (T → L) → Prop} (hstart : P [] start C.entry)
    (hsilent : ∀ log q f t l, P log q f → C.silent t (f t) l → P log q (Function.update f t l))
    (hop : ∀ log q f t op d, P log q f → C.calls t (f t) op → enter op q = some d →
      P (log ++ [(op, d.result)]) d.state
        (Function.update f t (C.returns t (f t) op d.result)))
    {as : List (Event T O R)} (hrun : (system enter start C).Exec as s) :
    P (completed as) s.shared s.locals := by
  refine System.exec_induction (P := fun as s => P (completed as) s.shared s.locals) ?_ ?_ hrun
  · rintro s rfl
    exact hstart
  · intro as s a s' hexec hP hstep
    rw [completed_append]
    cases hstep with
    | @silent t l l' hrun hl =>
      rw [locals_set, show completed [Event.silent (O := O) (R := R) t] = [] from rfl,
        List.append_nil]
      refine hsilent _ _ _ _ _ hP ?_
      rw [show s.locals t = l by rw [State.locals, hrun]; rfl]
      exact hl
    -- falling asleep and waking up change neither the log, nor the data, nor a local state
    | @wait t l op hattempt =>
      have hsame : (Status.waiting l op).local = (s.thread t).local := hattempt.local_eq.symm
      rw [locals_set_same hsame, show completed [Event.wait (R := R) t op] = [] from rfl,
        List.append_nil]
      exact hP
    | @spurious t l op hwait =>
      have hsame : (Status.woken l op).local = (s.thread t).local := by
        rw [hwait]
        rfl
      rw [locals_set_same hsame, show completed [Event.spurious (O := O) (R := R) t] = []
        from rfl, List.append_nil]
      exact hP
    -- the one step that counts, and its operation has run from the guard to the end
    | @complete t l op d w hattempt hdone =>
      have hcalls := hattempt.calls (reachable_called hexec.reachable)
      have hlocal : s.locals t = l := hattempt.local_eq
      have hlocals : State.locals { s.wake w with shared := d.state } = s.locals := locals_wake w
      subst hlocal
      rw [locals_set, hlocals]
      exact hop _ _ _ _ _ _ hP hcalls hdone

/-- **A monitor is sequential.** A law of the object's sequential runs holds of the history
of completed operations, whatever the threads and the schedule. -/
theorem completed_induction {P : List (O × R) → σ → Prop} (hstart : P [] start)
    (hop : ∀ log q op d, P log q → enter op q = some d → P (log ++ [(op, d.result)]) d.state)
    {as : List (Event T O R)} (hrun : (system enter start C).Exec as s) :
    P (completed as) s.shared :=
  atomic_induction (P := fun log q _ => P log q) hstart (fun _ _ _ _ _ hP _ => hP)
    (fun _ _ _ _ _ _ hP _ hdone => hop _ _ _ _ hP hdone) hrun

/-! ## Sleepers whose guards are false

If each operation wakes a thread that it has let in, nobody sleeps while it could go on. This is the
invariant that a single condition variable may fail to keep. -/

/-- Nobody sleeps on a guard that is true. -/
def SleepersBlocked (enter : O → σ → Option (Done σ R)) (s : State T σ L O) : Prop :=
  ∀ t l op, s.thread t = .waiting l op → enter op s.shared = none

/-- A completed operation leaves the guards of the sleepers false, or it signals while there
is only one sleeper. -/
def WakesWhomItServes (enter : O → σ → Option (Done σ R)) (C : Client T L O R)
    (s : State T σ L O) : Prop :=
  ∀ t l op d u l' op', Attempts C s t l op → enter op s.shared = some d →
    s.thread u = .waiting l' op' →
      enter op' d.state = none ∨ (d.signals = true ∧ ∀ v, IsWaiting s v → v = u)

/-- Every step keeps it: a wait begins with a false guard, and an operation that opens a guard wakes
whom it opens it for. -/
theorem SleepersBlocked.step {a : Event T O R} (h : SleepersBlocked enter s)
    (hsafe : WakesWhomItServes enter C s) (hstep : Step enter C s a s') :
    SleepersBlocked enter s' := by
  intro u l' op' hu
  cases hstep with
  | @silent t | @spurious t =>
    by_cases hut : u = t
    · subst hut
      rw [set_thread_self] at hu
      cases hu
    · rw [set_thread_ne _ hut] at hu
      exact h u l' op' hu
  -- it falls asleep on a guard that is false
  | @wait t l op hattempt hguard =>
    by_cases hut : u = t
    · subst hut
      rw [set_thread_self] at hu
      cases hu
      exact hguard
    · rw [set_thread_ne _ hut] at hu
      exact h u l' op' hu
  | @complete t l op d w hattempt hdone hwakes =>
    by_cases hut : u = t
    · subst hut
      rw [set_thread_self] at hu
      cases hu
    · rw [set_thread_ne _ hut] at hu
      have hwaits : IsWaiting (s.wake w) u := ⟨l', op', hu⟩
      obtain ⟨⟨l₀, op₀, hwait⟩, hne⟩ := isWaiting_wake hwaits
      rw [wake_thread, if_neg hne, hwait] at hu
      cases hu
      rcases hsafe t l op d u l' op' hattempt hdone hwait with hfalse | ⟨hsignals, honly⟩
      · exact hfalse
      · -- the only sleeper is the one the signal has woken
        rw [if_pos hsignals] at hwakes
        obtain ⟨v, hvu, hv⟩ := other_waiter hwakes ⟨l', op', hwait⟩ hne
        exact absurd (honly v hv) hvu

/-- **No lost wakeup.** If in every state whoever completes wakes the sleeper it serves, then no
thread sleeps while its own operation could go through. -/
theorem reachable_sleepersBlocked (hsafe : ∀ s, Called C s → WakesWhomItServes enter C s)
    (hs : (system enter start C).Reachable s) : SleepersBlocked enter s := by
  obtain ⟨as, hexec⟩ := hs
  refine System.exec_induction (P := fun _ s => SleepersBlocked enter s) ?_ ?_ hexec
  · rintro s rfl t l op hwait
    cases hwait
  · intro as s a s' hexec hblocked hstep
    exact hblocked.step (hsafe s (reachable_called hexec.reachable)) hstep

/-! ## Putting threads to sleep

The schedule that loses a wake-up begins with as many sleepers as the argument needs. -/

variable (enter start) in
/-- Threads whose guards are false can be put to sleep one after the other. Induction on their list.
-/
theorem run_blockAll {l : T → L} {op : T → O} (ts : List T) (hnodup : ts.Nodup)
    (hattempt : ∀ t ∈ ts, Attempts C s t (l t) (op t))
    (hguard : ∀ t ∈ ts, enter (op t) s.shared = none) :
    ∃ as s', (system enter start C).Run s as s' ∧ s'.shared = s.shared
      ∧ ∀ t, s'.thread t = if t ∈ ts then .waiting (l t) (op t) else s.thread t := by
  induction ts using List.reverseRecOn with
  | nil => exact ⟨[], s, .refl, rfl, fun t => by simp⟩
  | append_singleton ts t ih =>
    have hnot : t ∉ ts := by
      intro hmem
      exact (List.nodup_append.mp hnodup).2.2 t hmem t (List.mem_singleton.mpr rfl) rfl
    have hmem : t ∈ ts ++ [t] := List.mem_append_right _ (List.mem_singleton.mpr rfl)
    obtain ⟨as, s', hrun, hshared, hthread⟩ := ih (List.nodup_append.mp hnodup).1
      (fun u hu => hattempt u (List.mem_append_left _ hu))
      (fun u hu => hguard u (List.mem_append_left _ hu))
    -- `t` is still where it was: only the threads of `ts` have moved
    have htry : Attempts C s' t (l t) (op t) := by
      unfold Attempts
      rw [hthread, if_neg hnot]
      exact hattempt t hmem
    have hlast : Step enter C s' (.wait t (op t)) (s'.set t (.waiting (l t) (op t))) :=
      .wait htry (hshared ▸ hguard t hmem)
    refine ⟨as ++ [.wait t (op t)], s'.set t (.waiting (l t) (op t)),
      hrun.snoc (system_step.mpr hlast), hshared, fun u => ?_⟩
    by_cases hut : u = t
    · subst hut
      rw [set_thread_self, if_pos hmem]
    · rw [set_thread_ne _ hut, hthread]
      simp [hut]

/-! ## How a signal can be lost

Two kinds of threads share the one condition variable. A thread `a` of the first kind makes
the guard of the second kind true and wakes `b`; before `b` retries, the rest of the first
kind falls asleep; `b` is served, wakes `b'` of its own kind, for which the guard is false
again, and everybody sleeps.
-/

variable (enter) in
/-- A completed operation of `t` while nobody waits. -/
theorem step_complete_quiet {l : L} {op : O} {d : Done σ R} (hattempt : Attempts C s t l op)
    (hdone : enter op s.shared = some d) (hquiet : ∀ u, ¬ IsWaiting s u) :
    ∃ s', Step enter C s (.complete t op d.result) s' ∧ s'.shared = d.state
      ∧ ∀ w, s'.thread w = if w = t then .running (C.returns t l op d.result) else s.thread w := by
  refine ⟨_, .complete (w := none) hattempt hdone ?_, rfl, fun w => ?_⟩
  · split
    · exact hquiet
    · rfl
  · by_cases hwt : w = t
    · subst hwt
      simp
    · rw [set_thread_ne _ hwt, if_neg hwt]
      rfl

variable (enter) in
/-- A completed operation of `t` that wakes `u`. -/
theorem step_complete_wake {l : L} {op : O} {d : Done σ R} (hattempt : Attempts C s t l op)
    (hdone : enter op s.shared = some d) (hsignals : d.signals = true) (hwait : IsWaiting s u) :
    ∃ s', Step enter C s (.complete t op d.result) s' ∧ s'.shared = d.state
      ∧ ∀ w, s'.thread w = if w = t then .running (C.returns t l op d.result)
          else if w = u then (s.thread u).wake else s.thread w := by
  refine ⟨_, .complete (w := some u) hattempt hdone (by rw [if_pos hsignals]; exact hwait), rfl,
    fun w => ?_⟩
  by_cases hwt : w = t
  · subst hwt
    simp
  · rw [set_thread_ne _ hwt, if_neg hwt]
    show (s.set u (s.thread u).wake).thread w = _
    by_cases hwu : w = u
    · subst hwu
      simp
    · rw [set_thread_ne _ hwu, if_neg hwu]

variable (enter start) in
/-- **The standstill.** `A` and `B` are the two kinds. One of the first completes while all of the
second sleep, its signal wakes one of them, the rest of the first falls asleep, and the signal of
the woken thread goes to its own kind. -/
theorem run_standstill (l : T → L) (op : T → O) {A B : List T} (a b b' : T) {d d' : Done σ R}
    (hA : A.Nodup) (hB : B.Nodup) (hall : ∀ t, t ∈ B ↔ t ∉ A) (ha : a ∈ A) (hb : b ∈ B)
    (hb' : b' ∈ B) (hne : b' ≠ b) (hrunning : ∀ t, s.thread t = .running (l t))
    (hcalls : ∀ t, C.calls t (l t) (op t)) (hreturns : ∀ t r, C.returns t (l t) (op t) r = l t)
    (hfalseB : ∀ t ∈ B, enter (op t) s.shared = none)
    (hdone : enter (op a) s.shared = some d) (hsignals : d.signals = true)
    (hfalseA : ∀ t ∈ A, enter (op t) d.state = none)
    (hdone' : enter (op b) d.state = some d') (hsignals' : d'.signals = true)
    (hfalseB' : ∀ t ∈ B, enter (op t) d'.state = none) :
    ∃ as s', (system enter start C).Run s as s' ∧ (∀ t, IsWaiting s' t) ∧ s'.shared = d'.state := by
  have haB : a ∉ B := fun h => (hall a).mp h ha
  have hbA : b ∉ A := (hall b).mp hb
  have hba : b ≠ a := fun h => haB (h ▸ hb)
  -- the second kind falls asleep
  obtain ⟨as₁, s₁, hrun₁, hshared₁, hthread₁⟩ := run_blockAll enter start (C := C) B hB
    (fun t _ => Or.inl ⟨hrunning t, hcalls t⟩) hfalseB
  -- `a` wakes `b`
  have hsleeps : s₁.thread b = .waiting (l b) (op b) := by rw [hthread₁, if_pos hb]
  have hawake : s₁.thread a = .running (l a) := by rw [hthread₁, if_neg haB, hrunning]
  obtain ⟨s₂, hstep₂, hshared₂, hthread₂⟩ := step_complete_wake enter
    (Or.inl ⟨hawake, hcalls a⟩) (hshared₁ ▸ hdone) hsignals ⟨_, _, hsleeps⟩
  have hothers₂ : ∀ t ∈ A, s₂.thread t = .running (l t) := by
    intro t ht
    have htB : t ∉ B := fun h => (hall t).mp h ht
    have htb : t ≠ b := fun h => htB (h ▸ hb)
    rw [hthread₂]
    by_cases hta : t = a
    · rw [if_pos hta, hreturns, hta]
    · rw [if_neg hta, if_neg htb, hthread₁, if_neg htB, hrunning]
  -- the first kind falls asleep
  obtain ⟨as₃, s₃, hrun₃, hshared₃, hthread₃⟩ := run_blockAll enter start (C := C) (s := s₂)
    A hA (fun t ht => Or.inl ⟨hothers₂ t ht, hcalls t⟩) (by rw [hshared₂]; exact hfalseA)
  have hwoken₃ : s₃.thread b = .woken (l b) (op b) := by
    rw [hthread₃, if_neg hbA, hthread₂, if_neg hba, if_pos rfl, hsleeps]
    rfl
  have hasleep₃ : ∀ t, t ≠ b → s₃.thread t = .waiting (l t) (op t) := by
    intro t htb
    rw [hthread₃]
    by_cases htA : t ∈ A
    · rw [if_pos htA]
    · have hta : t ≠ a := fun h => htA (h ▸ ha)
      rw [if_neg htA, hthread₂, if_neg hta, if_neg htb, hthread₁, if_pos ((hall t).mpr htA)]
  -- `b` wakes `b'`, and both fall asleep
  obtain ⟨s₄, hstep₄, hshared₄, hthread₄⟩ := step_complete_wake enter (C := C)
    (Or.inr hwoken₃) (by rw [hshared₃, hshared₂]; exact hdone') hsignals'
    ⟨_, _, hasleep₃ b' hne⟩
  have hserved₄ : s₄.thread b = .running (l b) := by rw [hthread₄, if_pos rfl, hreturns]
  have hwoken₄ : s₄.thread b' = .woken (l b') (op b') := by
    rw [hthread₄, if_neg hne, if_pos rfl, hasleep₃ b' hne]
    rfl
  have hlast : ∀ t ∈ [b', b], Attempts C s₄ t (l t) (op t) := by
    intro t ht
    rcases List.mem_pair.mp ht with rfl | rfl
    · exact Or.inr hwoken₄
    · exact Or.inl ⟨hserved₄, hcalls _⟩
  have hfalse₄ : ∀ t ∈ [b', b], enter (op t) s₄.shared = none := by
    intro t ht
    rw [hshared₄]
    rcases List.mem_pair.mp ht with rfl | rfl
    · exact hfalseB' _ hb'
    · exact hfalseB' _ hb
  obtain ⟨as₅, s₅, hrun₅, hshared₅, hthread₅⟩ := run_blockAll enter start (C := C) (s := s₄)
    [b', b] (List.nodup_cons.mpr ⟨by simpa using hne, by simp⟩) hlast hfalse₄
  refine ⟨_, s₅, (((hrun₁.snoc hstep₂).trans hrun₃).snoc hstep₄).trans hrun₅, fun t => ?_,
    hshared₅.trans hshared₄⟩
  refine ⟨l t, op t, ?_⟩
  rw [hthread₅]
  by_cases ht : t ∈ [b', b]
  · rw [if_pos ht]
  · have htb : t ≠ b := fun h => ht (by simp [h])
    have htb' : t ≠ b' := fun h => ht (by simp [h])
    rw [if_neg ht, hthread₄, if_neg htb, if_neg htb']
    exact hasleep₃ t htb

end System

end Monitor
