import HseDev.Sem22.TokenRuns

/-!
# HseDev — what `task21_4.c` guarantees

The properties of the program in one state of the invariant, each read off the phases:

* **`one_token`** — two threads with the token are one thread;
* **`counter_value`** — a thread only ever reads `STATUS_ACTIVATE` or `STATUS_EXIT`;
* **`write_target`** — every write goes to an open descriptor whose counter is `0`;
* **`lines_prefix`** / **`lines_complete`** — the printed lines are the routed lines so
  far, and all of them once the threads have exited;
* **`progress`** — while a thread or `main` has not ended, some actor can move;
* **`no_write_after_close`** — a descriptor that `main` has closed is never written to.
-/

namespace HseDev.Sem22

open Eventfd Transition

variable {N : Nat} {vs : List Int32} {s s' : State} {t u : Nat}

/-! ## One state

In every phase but one no thread other than the named one has the token, and in `setup` nobody has
it. All that follows is read off the phase, without a further induction. -/

theorem HasToken.ne_absent {pc : ThreadPc} (h : HasToken pc) : pc ≠ .absent := by
  rintro rfl
  exact h

/-- A waiting thread is before its read, so it cannot have the token. -/
theorem Waiting.no_token (h : Waiting s u) : ¬ HasToken (s.thread u) := by
  rcases h.idle with hpc | hpc <;> rw [hpc] <;> exact id

/-- Nor can a thread that was told to exit: what it reads is `STATUS_EXIT`. -/
theorem Notified.no_token (h : Notified s u) : ¬ HasToken (s.thread u) := by
  cases h with
  | pending hidle => rcases hidle with hpc | hpc <;> rw [hpc] <;> exact id
  | leaving hpc =>
    rw [hpc]
    show ¬ STATUS_EXIT = STATUS_ACTIVATE
    decide
  | gone hpc =>
    rw [hpc]
    exact id

/-- Some thread `t` is the only one that may hold the token. -/
theorem Inv.token_unique (hinv : Inv N vs s) :
    ∃ t, ∀ u, HasToken (s.thread u) → u = t := by
  have hbound : ∀ u, HasToken (s.thread u) → u < N := fun u hu => hinv.lt hu.ne_absent
  cases hinv.phase with
  | setup i _ hcreated habsent =>
    refine ⟨0, fun u hu => ?_⟩
    by_cases hui : u < i
    · exact absurd hu (hcreated u hui).no_token
    · rw [habsent u (by omega)] at hu
      exact absurd hu id
  | flying t _ _ _ _ hothers | held t _ _ _ hothers =>
    refine ⟨t, fun u hu => ?_⟩
    by_contra hne
    exact (hothers u (hbound u hu) hne).no_token hu
  | exiting t k _ _ _ _ _ hbefore hafter =>
    refine ⟨t, fun u hu => ?_⟩
    by_contra hne
    by_cases huk : u < k
    · exact (hbefore u huk hne).no_token hu
    · exact (hafter u (hbound u hu) (by omega) hne).no_token hu
  | drained _ hall =>
    exact ⟨0, fun u hu => absurd hu (hall u (hbound u hu)).no_token⟩

/-- At most one thread has the token, in the form in which `TokenRouted` states it. -/
theorem one_token (hinv : Inv N vs s) (ht : HasToken (s.thread t))
    (hu : HasToken (s.thread u)) : t = u := by
  obtain ⟨w, hw⟩ := hinv.token_unique
  rw [hw t ht, hw u hu]

/-- The two values a thread can have read. -/
theorem counter_value (hinv : Inv N vs s) {value : Nat} (hpc : s.thread u = .test value) :
    value = STATUS_ACTIVATE ∨ value = STATUS_EXIT := by
  have hwaiting : ¬ Waiting s u := by
    rintro ⟨hidle, _⟩
    rcases hidle with h | h <;> rw [h] at hpc <;> cases hpc
  have hnotified : Notified s u → value = STATUS_EXIT := by
    intro h
    cases h with
    | pending hidle => rcases hidle with h | h <;> rw [h] at hpc <;> cases hpc
    | leaving hpc' =>
      rw [hpc] at hpc'
      exact ThreadPc.test.inj hpc'
    | gone hpc' => rw [hpc'] at hpc; cases hpc
  have hu : u < N := by
    refine hinv.lt ?_
    rw [hpc]
    exact ThreadPc.noConfusion
  -- who has read a value neither waits nor, but for the exit value, is on its way out
  cases hinv.phase with
  | setup i _ hcreated habsent =>
    by_cases hui : u < i
    · exact absurd (hcreated u hui) hwaiting
    · rw [habsent u (by omega)] at hpc
      cases hpc
  | flying t _ _ hidle _ hothers =>
    by_cases hut : u = t
    · subst hut
      rcases hidle with h | h <;> rw [h] at hpc <;> cases hpc
    · exact absurd (hothers u hu hut) hwaiting
  -- only the thread with the token can have read the activation value
  | held t _ _ _ hothers hold =>
    by_cases hut : u = t
    · subst hut
      cases hold with
      | awake hawake =>
        rcases hawake with h | h <;> rw [h] at hpc
        · exact Or.inl (ThreadPc.test.inj hpc).symm
        · cases hpc
      | printing v h => rw [h] at hpc; cases hpc
      | passing next _ h => rw [h] at hpc; cases hpc
    · exact absurd (hothers u hu hut) hwaiting
  | exiting t k _ _ _ hbc _ hbefore hafter =>
    have hut : u ≠ t := by
      rintro rfl
      rw [hbc] at hpc
      cases hpc
    by_cases huk : u < k
    · exact Or.inr (hnotified (hbefore u huk hut))
    · exact absurd (hafter u hu (by omega) hut) hwaiting
  | drained _ hall => exact Or.inr (hnotified (hall u hu))

/-- **Writes never meet.** Whatever an actor is about to write goes to the open and empty
descriptor of an existing thread. -/
theorem write_target (hpos : 0 < N) (hinv : Inv N vs s) {a : Actor} {i : Nat}
    (hwrite : writesTo s a = some i) : i < N ∧ s.fd i = .opened 0 := by
  cases a with
  | main =>
    simp only [writesTo] at hwrite
    split at hwrite
    · next hpc =>
      cases hwrite
      refine ⟨hpos, ?_⟩
      cases hinv.phase with
      | setup i hmain hcreated =>
        cases hmain with
        | eventfd _ h => rw [h] at hpc; cases hpc
        | create _ h => rw [h] at hpc; cases hpc
        | activate hi _ => exact (hcreated 0 (by omega)).empty
      | flying t _ h | held t _ h => rw [h] at hpc; cases hpc
      | exiting t k _ _ hjoin | drained hjoin =>
        rcases hjoin.pc with ⟨_, _, h⟩ | ⟨_, _, h, _⟩ | h <;> rw [h] at hpc <;> cases hpc
    · cases hwrite
  | thread t =>
    -- only a thread with the token writes
    have htoken : HasToken (s.thread t) := by
      simp only [writesTo] at hwrite
      cases hpc : s.thread t <;> simp only [hpc] at hwrite <;>
        first | exact trivial | cases hwrite
    have ht : t < N := hinv.lt htoken.ne_absent
    cases hinv.phase with
    | setup i _ hcreated habsent =>
      by_cases hti : t < i
      · exact absurd htoken (hcreated t hti).no_token
      · rw [habsent t (by omega)] at htoken
        exact absurd htoken id
    | flying w _ _ hidle _ hothers =>
      by_cases htw : t = w
      · subst htw
        rcases hidle with hpc | hpc <;> rw [hpc] at htoken <;> exact absurd htoken id
      · exact absurd htoken (hothers t ht htw).no_token
    | held w hw _ hfd hothers hold =>
      by_cases htw : t = w
      · subst htw
        cases hold with
        | awake hpc => rcases hpc with hpc | hpc <;> simp [writesTo, hpc] at hwrite
        | printing v hpc => simp [writesTo, hpc] at hwrite
        | passing next hnext hpc =>
          simp only [writesTo, hpc, Option.some.injEq] at hwrite
          subst hwrite
          refine ⟨hnext, ?_⟩
          by_cases hself : next = t
          · rw [hself]
            exact hfd
          · exact (hothers next hnext hself).empty
      · exact absurd htoken (hothers t ht htw).no_token
    | exiting w k _ hk _ hpc hfd hbefore hafter =>
      by_cases htw : t = w
      · subst htw
        simp only [writesTo, hpc, Option.some.injEq] at hwrite
        subst hwrite
        exact ⟨hk, broadcast_target hk hfd hafter⟩
      · by_cases htk : t < k
        · exact absurd htoken (hbefore t htk htw).no_token
        · exact absurd htoken (hafter t ht (by omega) htw).no_token
    | drained _ hall => exact absurd htoken (hall t ht).no_token

/-- The lines printed so far are the first of the routed lines. -/
theorem lines_prefix (hinv : Inv N vs s) : s.out <+: route N 0 vs := by
  cases hinv.phase with
  | setup i _ _ _ _ hout =>
    rw [hout]
    exact List.nil_prefix
  | flying t _ _ _ _ _ hlines => exact ⟨_, hlines.symm⟩
  | held t _ _ _ _ hold =>
    cases hold with
    | awake _ hlines => exact ⟨_, hlines.symm⟩
    | printing v _ hlines => exact ⟨_, hlines.symm⟩
    | passing next _ _ hlines => exact ⟨_, hlines.symm⟩
  | exiting _ _ _ _ _ _ _ _ _ _ hout => exact ⟨[], by rw [hout, List.append_nil]⟩
  | drained _ _ _ hout => exact ⟨[], by rw [hout, List.append_nil]⟩

/-- Once every thread has exited, all lines have been printed. -/
theorem lines_complete (hpos : 0 < N) (hinv : Inv N vs s)
    (hexited : ∀ u < N, s.thread u = .exited) : s.out = route N 0 vs := by
  cases hinv.phase with
  | setup i hmain hcreated habsent =>
    have h0 := hexited 0 hpos
    by_cases hi : 0 < i
    · exact absurd h0 (hcreated 0 hi).ne_exited
    · rw [habsent 0 (by omega)] at h0
      cases h0
  | flying t ht _ hidle =>
    have h := hexited t ht
    rcases hidle with hpc | hpc <;> rw [hpc] at h <;> cases h
  | held t ht _ _ _ hold => exact absurd (hexited t ht) hold.ne_exited
  | exiting t k ht _ _ hpc =>
    have h := hexited t ht
    rw [hpc] at h
    cases h
  | drained _ _ _ hout => exact hout

/-- **No deadlock.** In each phase there is somebody who can go on: `main`, the reader of a
descriptor that holds a value, the thread with the token, or one on its way out. -/
theorem progress (hinv : Inv N vs s)
    (hlive : (∃ u < N, s.thread u ≠ .exited) ∨ s.main ≠ .returned) :
    ∃ a s', step N s a = some s' := by
  suffices h : ∃ a, (step N s a).isSome by
    obtain ⟨a, ha⟩ := h
    exact ⟨a, Option.isSome_iff_exists.mp ha⟩
  cases hinv.phase with
  -- `main` never blocks in its first loop
  | setup i hmain =>
    refine ⟨.main, ?_⟩
    show (mainStep N s).isSome
    cases hmain with
    | eventfd _ hpc | create _ hpc | activate _ hpc =>
      simp only [mainStep, hpc]
      rfl
  -- the owner of the descriptor: its read succeeds, or it is on its way there
  | flying t _ _ hidle hfd =>
    refine ⟨.thread t, ?_⟩
    show (threadFunc N s t).isSome
    rcases hidle with hpc | hpc
    · have hread : (s.fd t).read = some (STATUS_ACTIVATE, .opened 0) := by
        rw [hfd]
        rfl
      simp only [threadFunc, hpc, hread]
      rfl
    · simp only [threadFunc, hpc]
      rfl
  -- the thread with the token only reads the input and writes to an empty descriptor
  | held t _ _ _ _ hold =>
    refine ⟨.thread t, ?_⟩
    show (threadFunc N s t).isSome
    cases hold with
    | awake hpc =>
      rcases hpc with hpc | hpc
      · simp only [threadFunc, hpc]
        rfl
      · cases hin : s.input with
        | nil | cons _ _ =>
          simp only [threadFunc, hpc, hin]
          rfl
    | printing v hpc | passing next _ hpc =>
      simp only [threadFunc, hpc]
      rfl
  | exiting t k _ _ _ hpc =>
    refine ⟨.thread t, ?_⟩
    show (threadFunc N s t).isSome
    simp only [threadFunc, hpc]
    rfl
  | drained hjoin hall =>
    by_cases hexited : ∀ u < N, s.thread u = .exited
    · -- only `main` is left
      refine ⟨.main, ?_⟩
      show (mainStep N s).isSome
      rcases hjoin.pc with ⟨i, hi, hpc⟩ | ⟨i, _, hpc, _⟩ | hpc
      · simp only [mainStep, hpc, if_pos (hexited i hi)]
        rfl
      · simp only [mainStep, hpc]
        rfl
      · rcases hlive with ⟨u, hu, hne⟩ | hmain
        · exact absurd (hexited u hu) hne
        · exact absurd hpc hmain
    · -- somebody is on its way out: a value is waiting for it, or it has read one
      push Not at hexited
      obtain ⟨u, hu, hne⟩ := hexited
      refine ⟨.thread u, ?_⟩
      show (threadFunc N s u).isSome
      cases hall u hu with
      | pending hidle hfd =>
        rcases hidle with hpc | hpc
        · have hread : (s.fd u).read = some (STATUS_EXIT, .opened 0) := by
            rw [hfd]
            rfl
          simp only [threadFunc, hpc, hread]
          rfl
        · simp only [threadFunc, hpc]
          rfl
      | leaving hpc =>
        simp only [threadFunc, hpc]
        rfl
      | gone hpc => exact absurd hpc hne

/-! ## Closed descriptors

That a closed descriptor stays closed is not part of the phases and needs an induction of its own:
`main` opens a descriptor once, in its first loop, and closes none before the second. -/

/-- `main` is in its first loop, or about to activate thread `0`. -/
def MainPc.SettingUp : MainPc → Prop
  | .eventfd _ | .create _ | .activate => True
  | _ => False

/-- Nothing is closed before the second loop of `main`. -/
def ClosedLate (s : State) : Prop :=
  s.main.SettingUp → ∀ u, s.fd u ≠ .closed

/-- A write neither opens nor closes the descriptor it goes to. -/
theorem write_closed_iff {fd : Fd} {value : Nat} :
    fd.write value = .closed ↔ fd = .closed := by
  cases fd <;> simp [Fd.write]

/-- Nor does it open or close another one. -/
theorem writeFd_closed_iff {value : Nat} :
    (s.writeFd t value).fd u = .closed ↔ s.fd u = .closed := by
  by_cases hut : u = t
  · subst hut
    rw [State.writeFd, setFd_self, write_closed_iff]
  · rw [State.writeFd, setFd_ne _ hut]

theorem threadFunc_closed_iff (hstep : threadFunc N s t = some s') :
    s'.main = s.main ∧ (s'.fd u = .closed ↔ s.fd u = .closed) := by
  unfold threadFunc at hstep
  cases hpc : s.thread t <;> simp only [hpc] at hstep
  case absent => cases hstep
  case exited => cases hstep
  case read =>
    split at hstep
    · cases hstep
    · next value fd hread =>
      cases hstep
      obtain ⟨hfd, _, rfl⟩ := Fd.read_eq_some hread
      refine ⟨rfl, ?_⟩
      rw [setThread_fd]
      by_cases hut : u = t
      · subst hut
        simp [hfd]
      · rw [setFd_ne _ hut]
  case scan => split at hstep <;> cases hstep <;> exact ⟨rfl, Iff.rfl⟩
  case write next =>
    cases hstep
    exact ⟨rfl, writeFd_closed_iff⟩
  case broadcast i =>
    cases hstep
    exact ⟨rfl, writeFd_closed_iff⟩
  all_goals
    cases hstep
    exact ⟨rfl, Iff.rfl⟩

/-- A descriptor is closed once, by `main`, and never reopened. -/
theorem closed_step {a : Actor} (hlate : ClosedLate s) (hstep : step N s a = some s') :
    ClosedLate s' ∧ ∀ u, s.fd u = .closed → s'.fd u = .closed := by
  cases a with
  | thread t =>
    refine ⟨fun hsetup u hu => ?_, fun u hu => (threadFunc_closed_iff hstep).2.mpr hu⟩
    obtain ⟨hmain, hiff⟩ := threadFunc_closed_iff (u := u) hstep
    rw [hmain] at hsetup
    exact hlate hsetup u (hiff.mp hu)
  | main =>
    simp only [step, mainStep] at hstep
    unfold ClosedLate at hlate
    cases hpc : s.main with
    | eventfd i =>
      rw [hpc] at hstep hlate
      cases hstep
      -- `eventfd` opens a descriptor; no descriptor is closed yet
      have hnone := hlate trivial
      refine ⟨fun _ u => ?_, fun u hu => absurd hu (hnone u)⟩
      show (s.setFd i .fresh).fd u ≠ .closed
      by_cases hui : u = i
      · rw [hui, setFd_self]
        decide
      · rw [setFd_ne _ hui]
        exact hnone u
    | create i =>
      rw [hpc] at hstep hlate
      cases hstep
      exact ⟨fun _ => hlate trivial, fun u hu => hu⟩
    | activate =>
      rw [hpc] at hstep hlate
      cases hstep
      exact ⟨fun _ u hu => hlate trivial u (writeFd_closed_iff.mp hu),
        fun u hu => writeFd_closed_iff.mpr hu⟩
    | join i =>
      simp only [hpc] at hstep
      split at hstep <;> cases hstep
      exact ⟨False.elim, fun u hu => hu⟩
    | close i =>
      rw [hpc] at hstep
      cases hstep
      refine ⟨fun hsetup => ?_, fun u hu => ?_⟩
      · -- behind the `close` the first loop is over
        by_cases hlast : i + 1 < N
        · rw [if_pos hlast] at hsetup
          exact hsetup.elim
        · rw [if_neg hlast] at hsetup
          exact hsetup.elim
      · show (s.setFd i .closed).fd u = .closed
        by_cases hui : u = i
        · rw [hui, setFd_self]
        · rw [setFd_ne _ hui]
          exact hu
    | returned =>
      rw [hpc] at hstep
      cases hstep

/-- In every reachable state: as long as `main` sets up, no descriptor is closed. So the one that
`eventfd` overwrites was never closed before. -/
theorem reachable_closedLate (hs : (program N vs).Reachable s) : ClosedLate s := by
  refine System.invariant (P := ClosedLate) ?_ ?_ hs
  · rintro s rfl _ u hu
    cases hu
  · intro s a s' hlate hstep
    exact (closed_step hlate hstep).1

/-- From the `close` on, nobody writes to the descriptor. -/
theorem no_write_after_close (hpos : 0 < N) {i : Nat} {as : List Actor}
    (hs : (program N vs).Reachable s) (hclosed : s.fd i = .closed)
    (hrun : (program N vs).Run s as s') (a : Actor) : writesTo s' a ≠ some i := by
  have hstays : (program N vs).Reachable s' ∧ s'.fd i = .closed := by
    induction hrun with
    | refl => exact ⟨hs, hclosed⟩
    | snoc _ hlast ih =>
      obtain ⟨hmid, hfd⟩ := ih
      exact ⟨hmid.step hlast, (closed_step (reachable_closedLate hmid) hlast).2 i hfd⟩
  intro hwrite
  -- what is written to is open
  have hopen := (write_target hpos (reachable_inv hpos hstays.1) hwrite).2
  rw [hstays.2] at hopen
  cases hopen

end HseDev.Sem22
