import HseDev.Sem22.TokenRouting

/-!
# HseDev — the single-token invariant of `task21_4.c`

At every moment exactly one of five things is going on (`Phase`): `main` is still setting
up; the token lies in one descriptor; one thread holds it; one thread is in the middle of
its exit broadcast; or every thread has been told to exit. In each phase every other
thread is `Waiting` (in its loop, its descriptor empty) or `Notified` (on its way out), so
two values never meet in one counter.

* **`Waiting`** / **`Notified`** / **`Holding`** — what one thread and its descriptor look
  like; the first two only read their own thread and descriptor (`congr`), so a step of
  anybody else keeps them.
* **`waiting_step`**, **`notified_step`**, **`joining_step`** — what a step of such an
  actor does; nothing else can move in their phases but the thread with the token.
-/

namespace HseDev.Sem22

open Eventfd Transition

variable {N : Nat} {vs : List Int32} {s s' : State} {t u : Nat}

/-! ## Reading a state after an update

The simp set of the development: what an update of one thread or one descriptor leaves at the
others. Later modules never unfold `setThread` and `setFd`. -/

@[simp] theorem setThread_self (pc : ThreadPc) : (s.setThread t pc).thread t = pc := by
  simp [State.setThread]

theorem setThread_ne (pc : ThreadPc) (h : u ≠ t) : (s.setThread t pc).thread u = s.thread u := by
  simp [State.setThread, h]

@[simp] theorem setThread_fd (pc : ThreadPc) : (s.setThread t pc).fd = s.fd := rfl
@[simp] theorem setThread_main (pc : ThreadPc) : (s.setThread t pc).main = s.main := rfl
@[simp] theorem setThread_input (pc : ThreadPc) : (s.setThread t pc).input = s.input := rfl

@[simp] theorem setFd_self (fd : Fd) : (s.setFd t fd).fd t = fd := by
  simp [State.setFd]

theorem setFd_ne (fd : Fd) (h : u ≠ t) : (s.setFd t fd).fd u = s.fd u := by
  simp [State.setFd, h]

@[simp] theorem setFd_thread (fd : Fd) : (s.setFd t fd).thread = s.thread := rfl
@[simp] theorem setFd_main (fd : Fd) : (s.setFd t fd).main = s.main := rfl
@[simp] theorem setFd_input (fd : Fd) : (s.setFd t fd).input = s.input := rfl

@[simp] theorem writeFd_thread (value : Nat) : (s.writeFd t value).thread = s.thread := rfl
@[simp] theorem writeFd_main (value : Nat) : (s.writeFd t value).main = s.main := rfl

/-! ## What one thread looks like

`Waiting` and `Notified` read nothing but the thread and its descriptor, so a step of anybody else
keeps them; this is what makes an invariant over any number of threads one lemma for each kind of
actor. -/

/-- In its loop, before the read or about to return to it. -/
def Idle (s : State) (t : Nat) : Prop :=
  s.thread t = .read ∨ s.thread t = .yield

/-- Asleep: nothing has been written to its descriptor. -/
structure Waiting (s : State) (t : Nat) : Prop where
  idle : Idle s t
  empty : s.fd t = .opened 0

/-- Told to exit, from the write to its descriptor up to its end. -/
inductive Notified (s : State) (t : Nat) : Prop where
  | pending (idle : Idle s t) (fd : s.fd t = .opened STATUS_EXIT)
  | leaving (pc : s.thread t = .test STATUS_EXIT) (fd : s.fd t = .opened 0)
  | gone (pc : s.thread t = .exited) (fd : s.fd t = .opened 0 ∨ s.fd t = .closed)

/-- Holding the token, with what is printed and what is still to be printed. -/
inductive Holding (N : Nat) (vs : List Int32) (s : State) (t : Nat) : Prop where
  | awake (pc : s.thread t = .test STATUS_ACTIVATE ∨ s.thread t = .scan)
      (lines : route N 0 vs = s.out ++ route N t s.input)
  | printing (v : Int32) (pc : s.thread t = .print v)
      (lines : route N 0 vs = s.out ++ (t, v) :: route N (nextThread N v) s.input)
  | passing (next : Nat) (hnext : next < N) (pc : s.thread t = .write next)
      (lines : route N 0 vs = s.out ++ route N next s.input)

/-- `s'` has the thread and the descriptor of `s` at `u`. -/
structure Same (s s' : State) (u : Nat) : Prop where
  thread : s'.thread u = s.thread u
  fd : s'.fd u = s.fd u

/-- Frame lemma: who has its thread and its descriptor as before still waits. -/
theorem Waiting.congr (h : Waiting s u) (hsame : Same s s' u) : Waiting s' u := by
  obtain ⟨hidle, hfd⟩ := h
  unfold Idle at hidle
  rw [← hsame.thread] at hidle
  rw [← hsame.fd] at hfd
  exact ⟨hidle, hfd⟩

/-- Frame lemma: likewise for a thread that was told to exit. -/
theorem Notified.congr (h : Notified s u) (hsame : Same s s' u) : Notified s' u := by
  cases h with
  | pending hidle hfd =>
    have hw : Idle s' u := by
      unfold Idle at hidle ⊢
      rwa [hsame.thread]
    exact .pending hw (hsame.fd.trans hfd)
  | leaving hpc hfd => exact .leaving (hsame.thread.trans hpc) (hsame.fd.trans hfd)
  | gone hpc hfd =>
    rw [← hsame.fd] at hfd
    exact .gone (hsame.thread.trans hpc) hfd

theorem Waiting.ne_exited (h : Waiting s u) : s.thread u ≠ .exited := by
  rcases h.idle with hpc | hpc <;> rw [hpc] <;> decide

theorem Holding.ne_exited (h : Holding N vs s u) : s.thread u ≠ .exited := by
  cases h with
  | awake hpc => rcases hpc with hpc | hpc <;> rw [hpc] <;> decide
  | printing v hpc =>
    rw [hpc]
    exact ThreadPc.noConfusion
  | passing next _ hpc =>
    rw [hpc]
    exact ThreadPc.noConfusion

/-! ## The phases of a run

The five phases, in the order in which a run goes through them. `setup` counts the threads created
so far, `flying` and `held` alternate once for each integer of the input, `exiting` counts the
descriptors that have got the exit value. -/

/-- `main` is in its first loop, or has just left it: the threads below `i` exist. -/
inductive Setup (N : Nat) (s : State) (i : Nat) : Prop where
  | eventfd (hi : i < N) (pc : s.main = .eventfd i)
  | create (hi : i < N) (pc : s.main = .create i) (fd : s.fd i = .opened 0)
  | activate (hi : i = N) (pc : s.main = .activate)

/-- How many descriptors `main` has closed. -/
def MainPc.joined (N : Nat) : MainPc → Nat
  | .join i => i
  | .close i => i
  | .returned => N
  | _ => 0

/-- `main` is in its second loop or past it: it has closed the descriptors of the exited
threads it joined, and no other. -/
structure Joining (N : Nat) (s : State) : Prop where
  pc : (∃ i < N, s.main = .join i) ∨ (∃ i < N, s.main = .close i ∧ s.thread i = .exited)
    ∨ s.main = .returned
  closed : ∀ u < N, s.fd u = .closed ↔ u < s.main.joined N
  exited : ∀ u < s.main.joined N, s.thread u = .exited

/-- **The phases.** -/
inductive Phase (N : Nat) (vs : List Int32) (s : State) : Prop where
  | setup (i : Nat) (hmain : Setup N s i) (hcreated : ∀ u < i, Waiting s u)
      (habsent : ∀ u, i ≤ u → s.thread u = .absent) (hinput : s.input = vs) (hout : s.out = [])
  | flying (t : Nat) (ht : t < N) (hmain : s.main = .join 0) (hidle : Idle s t)
      (hfd : s.fd t = .opened STATUS_ACTIVATE) (hothers : ∀ u < N, u ≠ t → Waiting s u)
      (hlines : route N 0 vs = s.out ++ route N t s.input)
  | held (t : Nat) (ht : t < N) (hmain : s.main = .join 0) (hfd : s.fd t = .opened 0)
      (hothers : ∀ u < N, u ≠ t → Waiting s u) (hold : Holding N vs s t)
  | exiting (t k : Nat) (ht : t < N) (hk : k < N) (hjoin : Joining N s)
      (hpc : s.thread t = .broadcast k)
      (hfd : s.fd t = .opened (if t < k then STATUS_EXIT else 0))
      (hbefore : ∀ u < k, u ≠ t → Notified s u)
      (hafter : ∀ u < N, k ≤ u → u ≠ t → Waiting s u)
      (hinput : s.input = []) (hout : s.out = route N 0 vs)
  | drained (hjoin : Joining N s) (hall : ∀ u < N, Notified s u)
      (hinput : s.input = []) (hout : s.out = route N 0 vs)

/-- **The invariant**: a phase, and no thread beyond the thread count. -/
structure Inv (N : Nat) (vs : List Int32) (s : State) : Prop where
  phase : Phase N vs s
  beyond : ∀ u, N ≤ u → s.thread u = .absent

/-! ## Steps of the threads without the token

What such a thread does touches its own thread and descriptor only (`Local`), and leaves it in the
same of the two kinds. The thread with the token is left to the phases themselves. -/

/-- Only `u`'s thread and descriptor differ. -/
structure Local (u : Nat) (s s' : State) : Prop where
  same : ∀ w, w ≠ u → Same s s' w
  main : s'.main = s.main
  input : s'.input = s.input
  out : s'.out = s.out

/-- A step of one waiting thread leaves everybody waiting who was; likewise below. -/
theorem Local.waiting {w : Nat} (h : Local u s s') (hu : Waiting s' u) (hw : Waiting s w) :
    Waiting s' w := by
  by_cases hwu : w = u
  · rw [hwu]
    exact hu
  · exact hw.congr (h.same w hwu)

/-- A thread that steps towards its exit leaves the others on their way out as they are. -/
theorem Local.notified {w : Nat} (h : Local u s s') (hu : Notified s' u) (hw : Notified s w) :
    Notified s' w := by
  by_cases hwu : w = u
  · rw [hwu]
    exact hu
  · exact hw.congr (h.same w hwu)

theorem local_setThread (pc : ThreadPc) : Local u s (s.setThread u pc) :=
  ⟨fun _ hw => ⟨setThread_ne pc hw, rfl⟩, rfl, rfl, rfl⟩

/-- A read of the thread's own descriptor, with a new program counter, is a change at that thread
alone. -/
theorem local_setFd_setThread (fd : Fd) (pc : ThreadPc) :
    Local u s ((s.setFd u fd).setThread u pc) :=
  ⟨fun _ hw => ⟨setThread_ne pc hw, setFd_ne fd hw⟩, rfl, rfl, rfl⟩

/-- A thread that is idle on an empty descriptor can only come back to its read. -/
theorem waiting_step (h : Waiting s u) (hstep : threadFunc N s u = some s') :
    Local u s s' ∧ Waiting s' u := by
  obtain ⟨hidle, hfd⟩ := h
  unfold threadFunc at hstep
  rcases hidle with hpc | hpc
  · simp [hpc, hfd] at hstep
  · rw [hpc] at hstep
    cases hstep
    exact ⟨local_setThread _, Or.inl (setThread_self _), hfd⟩

/-- A thread that was told to exit stays on its way out. -/
theorem notified_step (h : Notified s u) (hstep : threadFunc N s u = some s') :
    Local u s s' ∧ Notified s' u ∧ s.fd u ≠ .closed ∧ s'.fd u ≠ .closed
      ∧ s.thread u ≠ .exited := by
  unfold threadFunc at hstep
  cases h with
  | pending hidle hfd =>
    rcases hidle with hpc | hpc
    · have hread : (s.fd u).read = some (STATUS_EXIT, .opened 0) := by
        rw [hfd]
        rfl
      simp only [hpc, hread, Option.some.injEq] at hstep
      subst hstep
      refine ⟨local_setFd_setThread _ _, .leaving (setThread_self _) (setFd_self _), ?_, ?_, ?_⟩
      · simp [hfd]
      · simp
      · simp [hpc]
    · rw [hpc] at hstep
      cases hstep
      refine ⟨local_setThread _, .pending (Or.inl (setThread_self _)) hfd, ?_, ?_, ?_⟩
      · simp [hfd]
      · simp [hfd]
      · simp [hpc]
  | leaving hpc hfd =>
    simp only [hpc, if_true, Option.some.injEq] at hstep
    subst hstep
    refine ⟨local_setThread _, .gone (setThread_self _) (Or.inl hfd), ?_, ?_, ?_⟩
    · simp [hfd]
    · simp [hfd]
    · simp [hpc]
  | gone hpc _ =>
    rw [hpc] at hstep
    cases hstep

/-- A thread beyond the thread count never moves. -/
theorem absent_step (h : s.thread u = .absent) : threadFunc N s u = none := by
  simp [threadFunc, h]

/-- A thread changes nobody else's program counter. -/
theorem threadFunc_other {w : Nat} (hne : w ≠ u) (hstep : threadFunc N s u = some s') :
    s'.thread w = s.thread w := by
  unfold threadFunc at hstep
  cases hpc : s.thread u <;> simp only [hpc] at hstep
  case absent => cases hstep
  case exited => cases hstep
  case read =>
    split at hstep
    · cases hstep
    · cases hstep
      exact setThread_ne _ hne
  case scan =>
    split at hstep <;> cases hstep <;> exact setThread_ne _ hne
  all_goals
    cases hstep
    exact setThread_ne _ hne

/-- The holder's place reads its program counter, the input and the output, so a step that changes
none of them keeps it. -/
theorem Holding.congr (h : Holding N vs s t) (hthread : s'.thread t = s.thread t)
    (hinput : s'.input = s.input) (hout : s'.out = s.out) : Holding N vs s' t := by
  cases h with
  | awake hpc hlines =>
    rw [← hthread] at hpc
    exact .awake hpc (by rw [hout, hinput]; exact hlines)
  | printing v hpc hlines =>
    exact .printing v (hthread.trans hpc) (by rw [hout, hinput]; exact hlines)
  | passing next hnext hpc hlines =>
    exact .passing next hnext (hthread.trans hpc) (by rw [hout, hinput]; exact hlines)

/-- In the first loop the invariant reads `main` and the one descriptor it has just opened. -/
theorem Setup.congr {i : Nat} (h : Setup N s i) (hmain : s'.main = s.main)
    (hfd : s'.fd i = s.fd i) : Setup N s' i := by
  cases h with
  | eventfd hi hpc => exact .eventfd hi (hmain.trans hpc)
  | create hi hpc hopen => exact .create hi (hmain.trans hpc) (hfd.trans hopen)
  | activate hi hpc => exact .activate hi (hmain.trans hpc)

/-- In the second loop it reads who has exited and which descriptors are closed, and nothing else of
the threads. -/
theorem Joining.congr (h : Joining N s) (hmain : s'.main = s.main)
    (hexited : ∀ w, s.thread w = .exited → s'.thread w = .exited)
    (hclosed : ∀ w < N, s'.fd w = .closed ↔ s.fd w = .closed) : Joining N s' := by
  refine ⟨?_, fun w hw => ?_, fun w hw => ?_⟩
  · rw [hmain]
    rcases h.pc with hpc | ⟨i, hi, hpc, hex⟩ | hpc
    · exact Or.inl hpc
    · exact Or.inr (Or.inl ⟨i, hi, hpc, hexited i hex⟩)
    · exact Or.inr (Or.inr hpc)
  · rw [hclosed w hw, hmain]
    exact h.closed w hw
  · rw [hmain] at hw
    exact hexited w (h.exited w hw)

/-- A step of one live thread that neither opens nor closes its descriptor is no business
of `main`'s. -/
theorem Joining.of_local (h : Joining N s) (hlocal : Local u s s')
    (hne : s.thread u ≠ .exited) (hfd : s.fd u ≠ .closed) (hfd' : s'.fd u ≠ .closed) :
    Joining N s' := by
  refine h.congr hlocal.main (fun w hw => ?_) (fun w _ => ?_)
  · have hwu : w ≠ u := by
      rintro rfl
      exact hne hw
    exact (hlocal.same w hwu).thread.trans hw
  · by_cases hwu : w = u
    · subst hwu
      exact ⟨fun h => absurd h hfd', fun h => absurd h hfd⟩
    · rw [(hlocal.same w hwu).fd]

/-! ## Steps of `main` while it joins

The second loop of `main` overlaps with the end of the other threads, so its steps have to be
harmless in the phases `exiting` and `drained` alike: it closes only descriptors of threads that
have exited. -/

/-- What a step of `main` in its second loop does to one thread. -/
inductive Joined (s s' : State) (w : Nat) : Prop where
  | same (hsame : Same s s' w)
  | closed (hexited : s.thread w = .exited) (hpc : s'.thread w = .exited)
      (hfd : s'.fd w = .closed)

/-- A thread that was told to exit stays so while `main` joins, its descriptor open or closed. -/
theorem Notified.of_joined (h : Notified s u) (hj : Joined s s' u) : Notified s' u := by
  cases hj with
  | same hsame => exact h.congr hsame
  | closed _ hpc hfd => exact .gone hpc (Or.inr hfd)

/-- To a thread that still runs a step of `main` does nothing. -/
theorem Joined.same_of_live (hj : Joined s s' u) (hlive : s.thread u ≠ .exited) :
    Same s s' u := by
  cases hj with
  | same hsame => exact hsame
  | closed hexited => exact absurd hexited hlive

/-- `main` waits for one exited thread after the other and closes its descriptor. -/
theorem joining_step (h : Joining N s) (hstep : mainStep N s = some s') :
    Joining N s' ∧ (∀ w, Joined s s' w) ∧ s'.thread = s.thread ∧ s'.input = s.input
      ∧ s'.out = s.out := by
  unfold mainStep at hstep
  rcases h.pc with ⟨i, hi, hpc⟩ | ⟨i, hi, hpc, hex⟩ | hpc
  · -- `pthread_join` returns once the thread has exited
    simp only [hpc] at hstep
    split at hstep
    · next hex =>
      cases hstep
      refine ⟨⟨Or.inr (Or.inl ⟨i, hi, rfl, hex⟩), ?_, ?_⟩, fun w => .same ⟨rfl, rfl⟩,
        rfl, rfl, rfl⟩
      · simpa [hpc, MainPc.joined] using h.closed
      · simpa [hpc, MainPc.joined] using h.exited
    · cases hstep
  · simp only [hpc, Option.some.injEq] at hstep
    subst hstep
    have hjoined : (if i + 1 < N then MainPc.join (i + 1) else .returned).joined N = i + 1 := by
      by_cases hlast : i + 1 < N
      · rw [if_pos hlast]
        rfl
      · rw [if_neg hlast]
        show N = i + 1
        omega
    have hbelow : s.main.joined N = i := by rw [hpc]; rfl
    refine ⟨⟨?_, fun w hw => ?_, fun w hw => ?_⟩, fun w => ?_, rfl, rfl, rfl⟩
    · by_cases hlast : i + 1 < N
      · exact Or.inl ⟨i + 1, hlast, by simp only [if_pos hlast]⟩
      · exact Or.inr (Or.inr (by simp only [if_neg hlast]))
    · simp only [hjoined]
      by_cases hwi : w = i
      · subst hwi
        simp
      · have hold := h.closed w hw
        rw [hbelow] at hold
        rw [setFd_ne _ hwi, hold]
        omega
    · simp only [hjoined] at hw
      by_cases hwi : w = i
      · rw [hwi]
        exact hex
      · exact h.exited w (by omega)
    · by_cases hwi : w = i
      · subst hwi
        exact .closed hex hex (setFd_self _)
      · exact .same ⟨rfl, setFd_ne _ hwi⟩
  · simp only [hpc] at hstep
    cases hstep

end HseDev.Sem22
