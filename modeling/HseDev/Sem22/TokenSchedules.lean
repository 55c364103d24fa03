import HseDev.Lib.Tally
import HseDev.Sem22.TokenProgram

/-!
# HseDev — the schedules of `task21_4.c` end

`rank` adds what each thread, each descriptor, the input and `main` can still cost: a
value in a descriptor pays for the read it will cause, an input for the routing of one
line. Every step lowers it, so a schedule is no longer than the rank of the start, and one
that cannot be extended is a complete run. `token_routing` collects what all runs have in
common.
-/

namespace HseDev.Sem22

open Eventfd Tally Transition

variable {N : Nat} {vs : List Int32} {s s' : State} {t u : Nat}

/-! ## The rank

What a state can still cost. A value in a descriptor pays in advance for all that its reader will do
with it, a thread for the rest of its round, `main` for what is left of its two loops and for the
first token. The weights are chosen so that each step is paid for by what it uses up. -/

def pcRank (N : Nat) : ThreadPc → Nat
  | .yield => 1
  | .test value => if value = STATUS_EXIT then 1 else 3 * N + 2
  | .scan => 3 * N + 1
  | .broadcast i => 3 * (N - i)
  | .write _ => 3 * N + 5
  | .print _ => 3 * N + 6
  | _ => 0

def fdRank (N : Nat) : Fd → Nat
  | .opened count => if count = 0 then 0 else if count = STATUS_EXIT then 2 else 3 * N + 3
  | _ => 0

def mainRank (N : Nat) : MainPc → Nat
  | .eventfd i => 5 * N + 6 + (2 * (N - i) + 2)
  | .create i => 5 * N + 6 + (2 * (N - i) + 1)
  | .activate => 5 * N + 6
  | .join i => 2 * (N - i) + 2
  | .close i => 2 * (N - i) + 1
  | .returned => 0

def threadsRank (N : Nat) (thread : Nat → ThreadPc) : Nat :=
  tally N (pcRank N) thread

def fdsRank (N : Nat) (fd : Nat → Fd) : Nat :=
  tally N (fdRank N) fd

/-- An upper bound on the number of steps still to come. -/
def rank (N : Nat) (s : State) : Nat :=
  mainRank N s.main + threadsRank N s.thread + fdsRank N s.fd + 6 * s.input.length

/-- The rank is a sum over the threads, so a new program counter exchanges one summand for another.
Stated without subtraction, for `omega`. -/
theorem rank_setThread (s : State) (ht : t < N) (pc : ThreadPc) :
    rank N (s.setThread t pc) + pcRank N (s.thread t) = rank N s + pcRank N pc := by
  have h : threadsRank N (s.setThread t pc).thread + pcRank N (s.thread t)
      = threadsRank N s.thread + pcRank N pc := tally_update (pcRank N) s.thread ht pc
  unfold rank
  rw [setThread_main, setThread_fd, setThread_input]
  omega

theorem rank_setFd (s : State) (ht : t < N) (fd : Fd) :
    rank N (s.setFd t fd) + fdRank N (s.fd t) = rank N s + fdRank N fd := by
  have h : fdsRank N (s.setFd t fd).fd + fdRank N (s.fd t) = fdsRank N s.fd + fdRank N fd :=
    tally_update (fdRank N) s.fd ht fd
  show mainRank N s.main + threadsRank N s.thread + fdsRank N (s.setFd t fd).fd
    + 6 * s.input.length + _ = mainRank N s.main + threadsRank N s.thread + fdsRank N s.fd
    + 6 * s.input.length + _
  omega

theorem rank_setThread_lt {pc : ThreadPc} (ht : t < N) (h : pcRank N pc < pcRank N (s.thread t)) :
    rank N (s.setThread t pc) < rank N s := by
  have hset := rank_setThread s ht pc
  omega

/-- What a write to an empty descriptor adds. -/
theorem rank_writeFd (ht : t < N) (hfd : s.fd t = .opened 0) (value : Nat) :
    rank N (s.writeFd t value) = rank N s + fdRank N (.opened value) := by
  have h := rank_setFd s ht (.opened value)
  have hzero : fdRank N (.opened 0) = 0 := rfl
  rw [hfd, hzero, Nat.add_zero] at h
  rw [State.writeFd, hfd, Fd.write_opened, Nat.zero_add]
  exact h

/-- Opening, closing or resetting a descriptor costs nothing. -/
theorem rank_setFd_le (s : State) (i : Nat) (fd : Fd) (hfd : fdRank N fd = 0) :
    rank N (s.setFd i fd) ≤ rank N s := by
  have h : fdsRank N (s.setFd i fd).fd ≤ fdsRank N s.fd :=
    tally_update_le (fdRank N) s.fd i (hfd ▸ Nat.zero_le _)
  show mainRank N s.main + threadsRank N s.thread + fdsRank N (s.setFd i fd).fd
    + 6 * s.input.length ≤ mainRank N s.main + threadsRank N s.thread + fdsRank N s.fd
    + 6 * s.input.length
  omega

theorem rank_create_le (s : State) (i : Nat) : rank N (s.setThread i .read) ≤ rank N s := by
  have h : threadsRank N (s.setThread i .read).thread ≤ threadsRank N s.thread :=
    tally_update_le (pcRank N) s.thread i (Nat.zero_le _)
  unfold rank
  rw [setThread_main, setThread_fd, setThread_input]
  omega

theorem rank_main_lt {pc : MainPc} {b : Nat}
    (h : rank N s + mainRank N pc < b + mainRank N s.main) : rank N { s with main := pc } < b := by
  have hmove : rank N { s with main := pc } + mainRank N s.main = rank N s + mainRank N pc := by
    show mainRank N pc + threadsRank N s.thread + fdsRank N s.fd + 6 * s.input.length + _ = _
    unfold rank
    omega
  omega

/-- A thread that read the activation value still has its whole round before it. -/
theorem pcRank_test {value : Nat} (h : value ≠ STATUS_EXIT) :
    pcRank N (.test value) = 3 * N + 2 := if_neg h

/-- The value in the descriptor pays for what the thread does with it. -/
theorem pcRank_test_lt {value : Nat} (h : value ≠ 0) :
    pcRank N (.test value) < fdRank N (.opened value) := by
  by_cases hexit : value = STATUS_EXIT
  · rw [hexit]
    exact Nat.one_lt_two
  · rw [pcRank_test hexit]
    simp only [fdRank, if_neg h, if_neg hexit]
    omega

/-! ## Every step lowers it

By cases of the actor's program counter. Where the step writes, the invariant says that the
descriptor was empty, without which the sum of two values could cost more than the two. -/

/-- Every step of a thread lowers the rank. The two writes are the only cases in which something
else grows: the descriptor of the receiver, by less than the writer has given up. -/
theorem thread_rank_lt (hpos : 0 < N) (hinv : Inv N vs s)
    (hstep : threadFunc N s t = some s') : rank N s' < rank N s := by
  have ht : t < N := by
    refine hinv.lt fun habsent => ?_
    rw [absent_step habsent] at hstep
    cases hstep
  unfold threadFunc at hstep
  cases hpc : s.thread t with
  | absent | exited =>
    rw [hpc] at hstep
    cases hstep
  | read =>
    simp only [hpc] at hstep
    split at hstep
    · cases hstep
    · next value fd hread =>
      cases hstep
      obtain ⟨hfd, hvalue, rfl⟩ := Fd.read_eq_some hread
      have hfds := rank_setFd s ht (.opened 0)
      have hpcs := rank_setThread (s.setFd t (.opened 0)) ht (.test value)
      have hpays := pcRank_test_lt (N := N) hvalue
      have hread0 : pcRank N .read = 0 := rfl
      have hfd0 : fdRank N (.opened 0) = 0 := rfl
      rw [hfd] at hfds
      rw [setFd_thread, hpc] at hpcs
      omega
  | test value =>
    simp only [hpc] at hstep
    cases hstep
    apply rank_setThread_lt ht
    rw [hpc]
    by_cases hexit : value = STATUS_EXIT
    · rw [if_pos hexit, hexit]
      exact Nat.one_pos
    · rw [if_neg hexit, pcRank_test hexit]
      show 3 * N + 1 < 3 * N + 2
      omega
  | scan =>
    simp only [hpc] at hstep
    cases hin : s.input with
    | cons v rest =>
      rw [hin] at hstep
      cases hstep
      -- the value taken from the input pays for the rest of its round
      have hinput : rank N s = rank N { s with input := rest } + 6 := by
        show _ + 6 * s.input.length = _ + 6 * rest.length + 6
        rw [hin]
        rfl
      have hpcs := rank_setThread { s with input := rest } ht (.print v)
      rw [hpc] at hpcs
      simp only [pcRank] at hpcs
      omega
    | nil =>
      rw [hin] at hstep
      simp only [if_pos hpos, Option.some.injEq] at hstep
      subst hstep
      apply rank_setThread_lt ht
      rw [hpc]
      show 3 * (N - 0) < 3 * N + 1
      omega
  | print v =>
    simp only [hpc] at hstep
    cases hstep
    have hpcs := rank_setThread { s with out := s.out ++ [(t, v)] } ht (.write (nextThread N v))
    have hout : rank N { s with out := s.out ++ [(t, v)] } = rank N s := rfl
    rw [hpc] at hpcs
    simp only [pcRank] at hpcs
    omega
  | write next =>
    obtain ⟨hnext, hempty⟩ := write_target (a := .thread t) (i := next) hpos hinv
      (by simp only [writesTo, hpc])
    simp only [hpc] at hstep
    cases hstep
    have hfds := rank_writeFd hnext hempty STATUS_ACTIVATE
    have hact : fdRank N (.opened STATUS_ACTIVATE) = 3 * N + 3 := rfl
    have hpcs := rank_setThread (s.writeFd next STATUS_ACTIVATE) ht
      (if next ≠ t then .yield else .read)
    have hrest : pcRank N (if next ≠ t then .yield else .read) ≤ 1 := by
      split <;> [exact le_rfl; exact Nat.zero_le 1]
    rw [writeFd_thread, hpc] at hpcs
    have hwrite : pcRank N (.write next) = 3 * N + 5 := rfl
    omega
  | yield =>
    simp only [hpc] at hstep
    cases hstep
    apply rank_setThread_lt ht
    rw [hpc]
    exact Nat.one_pos
  | broadcast i =>
    obtain ⟨hi, hempty⟩ := write_target (a := .thread t) (i := i) hpos hinv
      (by simp only [writesTo, hpc])
    simp only [hpc] at hstep
    cases hstep
    have hfds := rank_writeFd hi hempty STATUS_EXIT
    have hexit : fdRank N (.opened STATUS_EXIT) = 2 := rfl
    have hpcs := rank_setThread (s.writeFd i STATUS_EXIT) ht
      (if i + 1 < N then .broadcast (i + 1) else .read)
    have hrest : pcRank N (if i + 1 < N then .broadcast (i + 1) else .read)
        ≤ 3 * (N - (i + 1)) := by
      split <;> [exact le_rfl; exact Nat.zero_le _]
    rw [writeFd_thread, hpc] at hpcs
    have hbroadcast : pcRank N (.broadcast i) = 3 * (N - i) := rfl
    omega

/-- Every step of `main` lowers it too; a join that is blocked is no step. -/
theorem main_rank_lt (hpos : 0 < N) (hinv : Inv N vs s) (hstep : mainStep N s = some s') :
    rank N s' < rank N s := by
  unfold mainStep at hstep
  cases hpc : s.main with
  | eventfd i =>
    rw [hpc] at hstep
    cases hstep
    have hfds := rank_setFd_le (N := N) s i .fresh rfl
    apply rank_main_lt (s := s.setFd i .fresh)
    rw [setFd_main, hpc]
    simp only [mainRank]
    omega
  | create i =>
    rw [hpc] at hstep
    cases hstep
    have hpcs := rank_create_le (N := N) s i
    apply rank_main_lt (s := s.setThread i .read)
    rw [setThread_main, hpc]
    by_cases hlast : i + 1 < N
    · simp only [if_pos hlast, mainRank]
      omega
    · simp only [if_neg hlast, mainRank]
      omega
  | activate =>
    obtain ⟨h0, hempty⟩ := write_target (a := .main) (i := 0) hpos hinv
      (by simp only [writesTo, hpc, if_true])
    rw [hpc] at hstep
    cases hstep
    have hfds := rank_writeFd h0 hempty STATUS_ACTIVATE
    have hact : fdRank N (.opened STATUS_ACTIVATE) = 3 * N + 3 := rfl
    apply rank_main_lt (s := s.writeFd 0 STATUS_ACTIVATE)
    rw [writeFd_main, hpc, if_pos hpos]
    simp only [mainRank]
    omega
  | join i =>
    simp only [hpc] at hstep
    split at hstep <;> cases hstep
    apply rank_main_lt
    rw [hpc]
    simp only [mainRank]
    omega
  | close i =>
    rw [hpc] at hstep
    cases hstep
    have hfds := rank_setFd_le (N := N) s i .closed rfl
    apply rank_main_lt (s := s.setFd i .closed)
    rw [setFd_main, hpc]
    by_cases hlast : i + 1 < N
    · simp only [if_pos hlast, mainRank]
      omega
    · simp only [if_neg hlast, mainRank]
      omega
  | returned =>
    rw [hpc] at hstep
    cases hstep

theorem step_rank_lt {a : Actor} (hpos : 0 < N) (hinv : Inv N vs s)
    (hstep : step N s a = some s') : rank N s' < rank N s := by
  cases a with
  | main => exact main_rank_lt hpos hinv hstep
  | thread t => exact thread_rank_lt hpos hinv hstep

/-- **Every schedule ends.** Its length is at most the rank of the start, which depends on the
number of threads and of integers only. -/
theorem schedule_length_le (hpos : 0 < N) {as : List Actor}
    (hrun : (program N vs).Exec as s) : as.length ≤ rank N (start N vs) := by
  obtain ⟨s₀, rfl, hrun⟩ := hrun
  have hstep : ∀ s a s', Inv N vs s → (program N vs).step s a s' →
      Inv N vs s' ∧ rank N s' < rank N s :=
    fun s a s' hinv h => ⟨step_inv hpos hinv h, step_rank_lt hpos hinv h⟩
  have hle := (System.Run.length_add_rank_le hstep (start_inv hpos) hrun).2
  omega

/-! ## The program

The results of `TokenProgram` and the bound on the schedules in one statement. A schedule that
cannot be extended has therefore printed all the lines. -/

/-- What holds after every schedule of the program, in the words of its purpose. -/
structure TokenRouted (N : Nat) (vs : List Int32) (s : State) : Prop where
  oneToken : ∀ t u, HasToken (s.thread t) → HasToken (s.thread u) → t = u
  linesSoFar : s.out <+: route N 0 vs
  allLines : (∀ t < N, s.thread t = .exited) → s.out = route N 0 vs
  counters : ∀ t value, s.thread t = .test value → value = STATUS_ACTIVATE ∨ value = STATUS_EXIT
  closedLast : ∀ i, s.fd i = .closed →
    ∀ as s', (program N vs).Run s as s' → ∀ a, writesTo s' a ≠ some i
  noDeadlock : (∃ t < N, s.thread t ≠ .exited) → ∃ a s', (program N vs).step s a s'

/-- **Token routing.** After every schedule one thread has the token, the printed lines
are the routed ones up to here, and some actor can move unless all threads have exited;
and no schedule goes on for ever. -/
theorem token_routing (N : Nat) (vs : List Int32) (hpos : 0 < N) :
    (∀ as s, (program N vs).Exec as s → TokenRouted N vs s)
      ∧ ∃ bound, ∀ as s, (program N vs).Exec as s → as.length ≤ bound := by
  refine ⟨fun as s hrun => ?_, rank N (start N vs), fun as s => schedule_length_le hpos⟩
  have hreach : (program N vs).Reachable s := hrun.reachable
  have hinv : Inv N vs s := reachable_inv hpos hreach
  exact
    { oneToken := fun t u => one_token hinv
      linesSoFar := lines_prefix hinv
      allLines := lines_complete hpos hinv
      counters := fun t value => counter_value hinv
      closedLast := fun i hclosed as s' => no_write_after_close hpos hreach hclosed
      noDeadlock := fun hlive => progress hinv (Or.inl hlive) }

/-- Two threads and the inputs `-1, 4`: the lines are `(0, -1)` and `(1, 4)`. -/
theorem token_routing_two :
    (∀ as s, (program 2 [-1, 4]).Exec as s → (∀ t < 2, s.thread t = .exited) →
      s.out = [(0, -1), (1, 4)])
      ∧ ∃ bound, ∀ as s, (program 2 [-1, 4]).Exec as s → as.length ≤ bound := by
  obtain ⟨hrouted, hbound⟩ := token_routing 2 [-1, 4] (by decide)
  have hroute : route 2 0 [-1, 4] = [(0, -1), (1, 4)] := by decide
  refine ⟨fun as s hrun hexited => ?_, hbound⟩
  rw [← hroute]
  exact (hrouted as s hrun).allLines hexited

end HseDev.Sem22
