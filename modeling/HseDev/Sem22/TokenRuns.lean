import HseDev.Sem22.TokenInvariant

/-!
# HseDev — every run of `task21_4.c`

The invariant of `TokenInvariant` is kept by every step (`step_inv`, one lemma per phase),
so it holds in every state of every schedule (`reachable_inv`).
-/

namespace HseDev.Sem22

open Eventfd Transition

variable {N : Nat} {vs : List Int32} {s s' : State} {t u : Nat}

/-! ## One step, phase by phase

One lemma for each phase. It says where the run can go from there: the same phase again, or the next
one. In each of them most actors are blocked or do something local, and the work is with the one
thread that has the token. -/

/-- While `main` sets up, the threads it has created find nothing to read. -/
theorem setup_step {i : Nat} {a : Actor} (hpos : 0 < N) (hmain : Setup N s i)
    (hcreated : ∀ u < i, Waiting s u) (habsent : ∀ u, i ≤ u → s.thread u = .absent)
    (hinput : s.input = vs) (hout : s.out = []) (hstep : step N s a = some s') :
    Phase N vs s' := by
  cases a with
  | thread u =>
    by_cases hu : u < i
    · obtain ⟨hlocal, hw⟩ := waiting_step (hcreated u hu) hstep
      have hi : Setup N s' i := hmain.congr hlocal.main (hlocal.same i (by omega)).fd
      refine .setup i hi (fun w hwi => hlocal.waiting hw (hcreated w hwi)) (fun w hwi => ?_)
        (hlocal.input.trans hinput) (hlocal.out.trans hout)
      rw [(hlocal.same w (by omega)).thread]
      exact habsent w hwi
    · have hnone := absent_step (N := N) (habsent u (by omega))
      rw [step, hnone] at hstep
      cases hstep
  | main =>
    unfold step mainStep at hstep
    cases hmain with
    | eventfd hi hpc =>
      simp only [hpc, Option.some.injEq] at hstep
      subst hstep
      refine .setup i (.create hi rfl (setFd_self _)) (fun w hw => ?_) habsent hinput hout
      exact (hcreated w hw).congr ⟨rfl, setFd_ne _ (by omega)⟩
    | create hi hpc hfd =>
      simp only [hpc, Option.some.injEq] at hstep
      subst hstep
      have hnext : Setup N { s.setThread i .read with
          main := if i + 1 < N then .eventfd (i + 1) else .activate } (i + 1) := by
        by_cases hlast : i + 1 < N
        · exact .eventfd hlast (by simp only [if_pos hlast])
        · exact .activate (by omega) (by simp only [if_neg hlast])
      refine .setup (i + 1) hnext (fun w hw => ?_) (fun w hw => ?_) hinput hout
      · by_cases hwi : w = i
        · subst hwi
          exact ⟨Or.inl (setThread_self _), hfd⟩
        · exact (hcreated w (by omega)).congr ⟨setThread_ne _ hwi, rfl⟩
      · exact (setThread_ne _ (by omega)).trans (habsent w (by omega))
    | activate hi hpc =>
      simp only [hpc, if_pos hpos, Option.some.injEq] at hstep
      subst hstep
      subst hi
      have h0 := hcreated 0 hpos
      refine .flying 0 hpos rfl h0.idle ?_ (fun w hw hne => ?_) ?_
      · show (s.writeFd 0 STATUS_ACTIVATE).fd 0 = _
        rw [State.writeFd, setFd_self, h0.empty]
        rfl
      · exact (hcreated w hw).congr ⟨rfl, setFd_ne _ hne⟩
      · show route i 0 vs = s.out ++ route i 0 s.input
        rw [hout, hinput, List.nil_append]

/-- `main` cannot leave its first join while no thread has exited. -/
theorem join_blocked (hmain : s.main = .join 0) (h0 : s.thread 0 ≠ .exited) :
    mainStep N s = none := by
  simp [mainStep, hmain, h0]

/-- While the token lies in a descriptor, only its owner finds something to read. -/
theorem flying_step {a : Actor} (ht : t < N) (hmain : s.main = .join 0) (hidle : Idle s t)
    (hfd : s.fd t = .opened STATUS_ACTIVATE) (hothers : ∀ u < N, u ≠ t → Waiting s u)
    (hlines : route N 0 vs = s.out ++ route N t s.input)
    (hbeyond : ∀ u, N ≤ u → s.thread u = .absent) (hstep : step N s a = some s') :
    Phase N vs s' := by
  cases a with
  | main =>
    have h0 : s.thread 0 ≠ .exited := by
      by_cases h : 0 = t
      · subst h
        rcases hidle with hpc | hpc <;> rw [hpc] <;> decide
      · exact (hothers 0 (by omega) h).ne_exited
    rw [step, join_blocked hmain h0] at hstep
    cases hstep
  | thread u =>
    by_cases hut : u = t
    · subst hut
      simp only [step, threadFunc] at hstep
      rcases hidle with hpc | hpc
      · have hread : (s.fd u).read = some (STATUS_ACTIVATE, .opened 0) := by
          rw [hfd]
          rfl
        simp only [hpc, hread, Option.some.injEq] at hstep
        subst hstep
        -- the owner reads the token: its descriptor is empty again
        refine .held u ht hmain (setFd_self _) (fun w hw hne => ?_)
          (.awake (Or.inl (setThread_self _)) hlines)
        exact (hothers w hw hne).congr ⟨setThread_ne _ hne, setFd_ne _ hne⟩
      · rw [hpc] at hstep
        cases hstep
        refine .flying u ht hmain (Or.inl (setThread_self _)) hfd (fun w hw hne => ?_) hlines
        exact (hothers w hw hne).congr ⟨setThread_ne _ hne, rfl⟩
    · by_cases hu : u < N
      · obtain ⟨hlocal, hw⟩ := waiting_step (hothers u hu hut) hstep
        have hsame := hlocal.same t (Ne.symm hut)
        have hidle' : Idle s' t := by
          unfold Idle
          rw [hsame.thread]
          exact hidle
        exact .flying t ht (hlocal.main.trans hmain) hidle' (hsame.fd.trans hfd)
          (fun w hwN hne => hlocal.waiting hw (hothers w hwN hne))
          (by rw [hlocal.out, hlocal.input]; exact hlines)
      · rw [step, absent_step (hbeyond u (by omega))] at hstep
        cases hstep

/-- The holder of the token prints the next line and passes the token on, or starts the
exit broadcast. -/
theorem holding_step (ht : t < N) (hmain : s.main = .join 0) (hfd : s.fd t = .opened 0)
    (hothers : ∀ u < N, u ≠ t → Waiting s u) (hold : Holding N vs s t)
    (hstep : threadFunc N s t = some s') : Phase N vs s' := by
  have hpos : 0 < N := by omega
  unfold threadFunc at hstep
  cases hold with
  | awake hpc hlines =>
    rcases hpc with hpc | hpc
    · rw [hpc] at hstep
      cases hstep
      refine .held t ht hmain hfd (fun w hw hne => ?_)
        (.awake (Or.inr (setThread_self _)) hlines)
      exact (hothers w hw hne).congr ⟨setThread_ne _ hne, rfl⟩
    · simp only [hpc] at hstep
      cases hin : s.input with
      | cons v rest =>
        rw [hin] at hstep
        cases hstep
        refine .held t ht hmain hfd (fun w hw hne => ?_)
          (.printing v (setThread_self _) ?_)
        · exact (hothers w hw hne).congr ⟨setThread_ne _ hne, rfl⟩
        · rw [hlines, hin, route, ← nextThread_eq N v hpos]
          rfl
      | nil =>
        rw [hin] at hstep
        simp only [if_pos hpos, Option.some.injEq] at hstep
        subst hstep
        -- end of input: the broadcast starts with every descriptor empty
        have hopen : ∀ w < N, s.fd w = .opened 0 := by
          intro w hw
          by_cases hwt : w = t
          · rw [hwt]
            exact hfd
          · exact (hothers w hw hwt).empty
        have hjoin : Joining N (s.setThread t (.broadcast 0)) := by
          refine ⟨Or.inl ⟨0, hpos, hmain⟩, fun w hw => ?_, fun w hw => ?_⟩
          · simp [hopen w hw, hmain, MainPc.joined]
          · simp [hmain, MainPc.joined] at hw
        refine .exiting t 0 ht hpos hjoin (setThread_self _) hfd (by omega)
          (fun w hw _ hne => ?_) hin ?_
        · exact (hothers w hw hne).congr ⟨setThread_ne _ hne, rfl⟩
        · show s.out = route N 0 vs
          rw [hlines, hin, route, List.append_nil]
  | printing v hpc hlines =>
    rw [hpc] at hstep
    cases hstep
    refine .held t ht hmain hfd (fun w hw hne => ?_)
      (.passing (nextThread N v) (nextThread_lt N v hpos) (setThread_self _) ?_)
    · exact (hothers w hw hne).congr ⟨setThread_ne _ hne, rfl⟩
    · show route N 0 vs = (s.out ++ [(t, v)]) ++ route N (nextThread N v) s.input
      rw [hlines, List.append_assoc, List.singleton_append]
  | passing next hnext hpc hlines =>
    rw [hpc] at hstep
    cases hstep
    by_cases hself : next = t
    · -- the thread activates itself
      subst hself
      refine .flying next ht hmain ?_ ?_ (fun w hw hne => ?_) hlines
      · left
        simp
      · rw [setThread_fd, State.writeFd, setFd_self, hfd]
        rfl
      · exact (hothers w hw hne).congr ⟨setThread_ne _ hne, setFd_ne _ hne⟩
    · -- the next thread is waiting, so the token meets an empty counter
      have hw := hothers next hnext hself
      have hidle : Idle ((s.writeFd next STATUS_ACTIVATE).setThread t
          (if next ≠ t then .yield else .read)) next := by
        unfold Idle
        rw [setThread_ne _ hself]
        exact hw.idle
      refine .flying next hnext hmain hidle ?_ (fun w hwN hne => ?_) hlines
      · rw [setThread_fd, State.writeFd, setFd_self, hw.empty]
        rfl
      · by_cases hwt : w = t
        · subst hwt
          refine ⟨Or.inr ?_, ?_⟩
          · rw [setThread_self, if_pos hself]
          · rw [setThread_fd, State.writeFd, setFd_ne _ hne]
            exact hfd
        · exact (hothers w hwN hwt).congr ⟨setThread_ne _ hwt, setFd_ne _ hne⟩

/-- With the token held, nobody but the holder moves. -/
theorem held_step {a : Actor} (ht : t < N) (hmain : s.main = .join 0)
    (hfd : s.fd t = .opened 0) (hothers : ∀ u < N, u ≠ t → Waiting s u)
    (hold : Holding N vs s t) (hbeyond : ∀ u, N ≤ u → s.thread u = .absent)
    (hstep : step N s a = some s') : Phase N vs s' := by
  cases a with
  | main =>
    have h0 : s.thread 0 ≠ .exited := by
      by_cases h : 0 = t
      · rw [h]
        exact hold.ne_exited
      · exact (hothers 0 (by omega) h).ne_exited
    rw [step, join_blocked hmain h0] at hstep
    cases hstep
  | thread u =>
    by_cases hut : u = t
    · subst hut
      exact holding_step ht hmain hfd hothers hold hstep
    · by_cases hu : u < N
      · obtain ⟨hlocal, hw⟩ := waiting_step (hothers u hu hut) hstep
        have hsame := hlocal.same t (Ne.symm hut)
        exact .held t ht (hlocal.main.trans hmain) (hsame.fd.trans hfd)
          (fun w hwN hne => hlocal.waiting hw (hothers w hwN hne))
          (hold.congr hsame.thread hlocal.input hlocal.out)
      · rw [step, absent_step (hbeyond u (by omega))] at hstep
        cases hstep

/-- The descriptor an exit broadcast writes next is still empty. -/
theorem broadcast_target {k : Nat} (hk : k < N)
    (hfd : s.fd t = .opened (if t < k then STATUS_EXIT else 0))
    (hafter : ∀ u < N, k ≤ u → u ≠ t → Waiting s u) : s.fd k = .opened 0 := by
  by_cases hkt : k = t
  · subst hkt
    simpa using hfd
  · exact (hafter k hk (Nat.le_refl k) hkt).empty

theorem broadcast_step {k : Nat} (ht : t < N) (hk : k < N) (hjoin : Joining N s)
    (hpc : s.thread t = .broadcast k)
    (hfd : s.fd t = .opened (if t < k then STATUS_EXIT else 0))
    (hbefore : ∀ u < k, u ≠ t → Notified s u)
    (hafter : ∀ u < N, k ≤ u → u ≠ t → Waiting s u) (hinput : s.input = [])
    (hout : s.out = route N 0 vs) (hstep : threadFunc N s t = some s') : Phase N vs s' := by
  set pc := if k + 1 < N then ThreadPc.broadcast (k + 1) else .read with hpc'
  have hs' : s' = (s.writeFd k STATUS_EXIT).setThread t pc := by
    simp only [threadFunc, hpc, Option.some.injEq] at hstep
    exact hstep.symm
  subst hs'
  have hempty : s.fd k = .opened 0 := broadcast_target hk hfd hafter
  have hfdk : ((s.writeFd k STATUS_EXIT).setThread t pc).fd k = .opened STATUS_EXIT := by
    rw [setThread_fd, State.writeFd, setFd_self, hempty]
    rfl
  have hsame : ∀ w, w ≠ t → w ≠ k → Same s ((s.writeFd k STATUS_EXIT).setThread t pc) w :=
    fun w hwt hwk => ⟨setThread_ne _ hwt, setFd_ne _ hwk⟩
  have hfdt : ((s.writeFd k STATUS_EXIT).setThread t pc).fd t
      = .opened (if t < k + 1 then STATUS_EXIT else 0) := by
    by_cases htk : t = k
    · subst htk
      rw [hfdk, if_pos (by omega)]
    · rw [setThread_fd, State.writeFd, setFd_ne _ htk, hfd]
      congr 1
      by_cases hlt : t < k
      · rw [if_pos hlt, if_pos (by omega)]
      · rw [if_neg hlt, if_neg (by omega)]
  -- the thread just written to is on its way out, like those before it
  have hnotified : ∀ w < k + 1, w ≠ t →
      Notified ((s.writeFd k STATUS_EXIT).setThread t pc) w := by
    intro w hw hwt
    by_cases hwk : w = k
    · subst hwk
      refine .pending ?_ hfdk
      unfold Idle
      rw [setThread_ne _ hwt]
      exact (hafter w hk (Nat.le_refl w) hwt).idle
    · exact (hbefore w (by omega) hwt).congr (hsame w hwt hwk)
  have hjoin' : Joining N ((s.writeFd k STATUS_EXIT).setThread t pc) := by
    refine hjoin.congr rfl (fun w hw => ?_) (fun w _ => ?_)
    · have hwt : w ≠ t := by
        rintro rfl
        rw [hpc] at hw
        cases hw
      exact (setThread_ne _ hwt).trans hw
    · by_cases hwk : w = k
      · subst hwk
        rw [hfdk, hempty]
        simp
      · rw [setThread_fd, State.writeFd, setFd_ne _ hwk]
  by_cases hlast : k + 1 < N
  · refine .exiting t (k + 1) ht hlast hjoin' ?_ hfdt hnotified (fun w hw hkw hne => ?_)
      hinput hout
    · rw [setThread_self, hpc', if_pos hlast]
    · exact (hafter w hw (by omega) hne).congr (hsame w hne (by omega))
  · -- the last write; the broadcaster has written to its own descriptor on the way
    refine .drained hjoin' (fun w hw => ?_) hinput hout
    by_cases hwt : w = t
    · subst hwt
      refine .pending (Or.inl ?_) ?_
      · rw [setThread_self, hpc', if_neg hlast]
      · rw [hfdt, if_pos (by omega)]
    · exact hnotified w (by omega) hwt

/-- During the broadcast the notified threads leave and `main` joins them. -/
theorem exiting_step {k : Nat} {a : Actor} (ht : t < N) (hk : k < N) (hjoin : Joining N s)
    (hpc : s.thread t = .broadcast k)
    (hfd : s.fd t = .opened (if t < k then STATUS_EXIT else 0))
    (hbefore : ∀ u < k, u ≠ t → Notified s u)
    (hafter : ∀ u < N, k ≤ u → u ≠ t → Waiting s u) (hinput : s.input = [])
    (hout : s.out = route N 0 vs) (hbeyond : ∀ u, N ≤ u → s.thread u = .absent)
    (hstep : step N s a = some s') : Phase N vs s' := by
  have hlive : s.thread t ≠ .exited := by
    rw [hpc]
    exact ThreadPc.noConfusion
  cases a with
  | main =>
    obtain ⟨hjoin', hjoined, _, hin, hlines⟩ := joining_step hjoin hstep
    have hsame := (hjoined t).same_of_live hlive
    refine .exiting t k ht hk hjoin' (hsame.thread.trans hpc) (hsame.fd.trans hfd)
      (fun w hw hne => (hbefore w hw hne).of_joined (hjoined w)) (fun w hw hkw hne => ?_)
      (hin.trans hinput) (hlines.trans hout)
    -- `main` only closes descriptors of exited threads, and a waiting thread is none
    have hw := hafter w hw hkw hne
    exact hw.congr ((hjoined w).same_of_live hw.ne_exited)
  | thread u =>
    -- the broadcaster itself, a thread it has told to exit, or one it has still to tell
    by_cases hut : u = t
    · subst hut
      exact broadcast_step ht hk hjoin hpc hfd hbefore hafter hinput hout hstep
    · by_cases huk : u < k
      · obtain ⟨hlocal, hn, hopen, hopen', hne⟩ := notified_step (hbefore u huk hut) hstep
        have hsame := hlocal.same t (Ne.symm hut)
        exact .exiting t k ht hk (hjoin.of_local hlocal hne hopen hopen')
          (hsame.thread.trans hpc) (hsame.fd.trans hfd)
          (fun w hw hwt => hlocal.notified hn (hbefore w hw hwt))
          (fun w hw hkw hwt => (hafter w hw hkw hwt).congr (hlocal.same w (by omega)))
          (hlocal.input.trans hinput) (hlocal.out.trans hout)
      · by_cases hu : u < N
        · have hwait := hafter u hu (by omega) hut
          obtain ⟨hlocal, hw⟩ := waiting_step hwait hstep
          have hsame := hlocal.same t (Ne.symm hut)
          exact .exiting t k ht hk (hjoin.of_local hlocal hwait.ne_exited
            (by rw [hwait.empty]; decide) (by rw [hw.empty]; decide))
            (hsame.thread.trans hpc) (hsame.fd.trans hfd)
            (fun w hwk hwt => (hbefore w hwk hwt).congr (hlocal.same w (by omega)))
            (fun w hwN hkw hwt => hlocal.waiting hw (hafter w hwN hkw hwt))
            (hlocal.input.trans hinput) (hlocal.out.trans hout)
        · rw [step, absent_step (hbeyond u (by omega))] at hstep
          cases hstep

/-- After the broadcast everybody is on the way out. -/
theorem drained_step {a : Actor} (hjoin : Joining N s) (hall : ∀ u < N, Notified s u)
    (hinput : s.input = []) (hout : s.out = route N 0 vs)
    (hbeyond : ∀ u, N ≤ u → s.thread u = .absent) (hstep : step N s a = some s') :
    Phase N vs s' := by
  cases a with
  | main =>
    obtain ⟨hjoin', hjoined, _, hin, hlines⟩ := joining_step hjoin hstep
    exact .drained hjoin' (fun w hw => (hall w hw).of_joined (hjoined w)) (hin.trans hinput)
      (hlines.trans hout)
  | thread u =>
    by_cases hu : u < N
    · obtain ⟨hlocal, hn, hopen, hopen', hne⟩ := notified_step (hall u hu) hstep
      exact .drained (hjoin.of_local hlocal hne hopen hopen')
        (fun w hw => hlocal.notified hn (hall w hw)) (hlocal.input.trans hinput)
        (hlocal.out.trans hout)
    · rw [step, absent_step (hbeyond u (by omega))] at hstep
      cases hstep

/-! ## The invariant holds

The phases put together. Besides them only one thing has to be kept, that no thread beyond the
thread count comes into being. -/

/-- No step creates a thread beyond the thread count. -/
theorem beyond_step {a : Actor} (hinv : Inv N vs s) (hstep : step N s a = some s') :
    ∀ u, N ≤ u → s'.thread u = .absent := by
  intro u hu
  have habsent := hinv.beyond u hu
  cases a with
  -- an absent thread does not move, and a thread changes nobody else's place
  | thread w =>
    have hwu : u ≠ w := by
      rintro rfl
      rw [step, absent_step habsent] at hstep
      cases hstep
    rw [threadFunc_other hwu hstep, habsent]
  | main =>
    simp only [step, mainStep] at hstep
    cases hinv.phase with
    -- the first loop creates thread `i` only, which is below the count
    | setup i hmain =>
      cases hmain with
      | eventfd hi hpc =>
        rw [hpc] at hstep
        cases hstep
        exact habsent
      | create hi hpc =>
        rw [hpc] at hstep
        cases hstep
        exact (setThread_ne _ (by omega)).trans habsent
      | activate hi hpc =>
        rw [hpc] at hstep
        cases hstep
        exact habsent
    | flying t ht hmain | held t ht hmain =>
      rw [hmain] at hstep
      simp only at hstep
      split at hstep
      · cases hstep
        exact habsent
      · cases hstep
    | exiting t k ht hk hjoin | drained hjoin =>
      rw [(joining_step hjoin hstep).2.2.1]
      exact habsent

/-- Who is not absent is one of the `N` threads. -/
theorem Inv.lt (hinv : Inv N vs s) (hu : s.thread u ≠ .absent) : u < N := by
  by_contra hge
  exact hu (hinv.beyond u (Nat.le_of_not_lt hge))

/-- **Every step keeps the invariant.** By cases of the phase, one lemma for each, and by cases of
the actor inside them. -/
theorem step_inv {a : Actor} (hpos : 0 < N) (hinv : Inv N vs s)
    (hstep : step N s a = some s') : Inv N vs s' := by
  refine ⟨?_, beyond_step hinv hstep⟩
  obtain ⟨hphase, hbeyond⟩ := hinv
  cases hphase with
  | setup i hmain hcreated habsent hinput hout =>
    exact setup_step hpos hmain hcreated habsent hinput hout hstep
  | flying t ht hmain hidle hfd hothers hlines =>
    exact flying_step ht hmain hidle hfd hothers hlines hbeyond hstep
  | held t ht hmain hfd hothers hold =>
    exact held_step ht hmain hfd hothers hold hbeyond hstep
  | exiting t k ht hk hjoin hpc hfd hbefore hafter hinput hout =>
    exact exiting_step ht hk hjoin hpc hfd hbefore hafter hinput hout hbeyond hstep
  | drained hjoin hall hinput hout =>
    exact drained_step hjoin hall hinput hout hbeyond hstep

/-- Before its first step `main` is in its first loop with no thread created. -/
theorem start_inv (hpos : 0 < N) : Inv N vs (start N vs) := by
  refine ⟨.setup 0 (.eventfd hpos ?_) (by omega) (fun _ _ => rfl) rfl rfl, fun _ _ => rfl⟩
  simp [start, hpos]

/-- **The run lemma**: the invariant holds after every schedule, by induction from `step_inv`. -/
theorem reachable_inv (hpos : 0 < N) (hs : (program N vs).Reachable s) : Inv N vs s := by
  refine System.invariant (P := Inv N vs) ?_ ?_ hs
  · rintro s rfl
    exact start_inv hpos
  · intro s a s' hinv hstep
    exact step_inv hpos hinv hstep

end HseDev.Sem22
