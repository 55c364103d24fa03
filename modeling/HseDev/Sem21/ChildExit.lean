import HseDev.Sem21.ResultCode
import HseDev.Sem21.RunTimer
import Mathlib.Data.Fintype.EquivFin

/-!
# HseDev — the loop of `run` in `sem21/task20_5.c` after the exit of the child

The loop of `run` notices the exit of the child by the `waitpid` at the end of an iteration. An
iteration whose `epoll_wait` has delivered nothing goes on before it gets there.

* **`builtItimerspec`** — the timer that the machine code builds: the product of `int`s wraps.
* **`timedStep`** — a step of `run` with its timer: what `timerfd_settime` refuses is not set
  up, and a timer of zero is disarmed, so that it never becomes ready.
* **`Iteration`** — the calls of one iteration; **`EndsFinished`** — every iteration begun after
  the exit ends the loop; **`Notified`** — each of them has got an event.
* **`Stuck`** — nothing but the exits of other children happens any more.
* **`child_exit_iff`** — iterations end the loop exactly with an event, and the loop can get
  stuck exactly with a timeout whose nanoseconds wrap to zero, a multiple of `2 ^ 26`.
-/

namespace HseDev.Sem21

open Transition

/-! ## The timer

`itimerspec` gives no timer if the multiplication overflows. The build multiplies with `imul`,
which keeps the low 32 bits, and goes on with what that leaves: 4300 ms become 5032704 ns, and
`2 ^ 26` ms become none at all. The loop is therefore followed with the wrapped product. -/

/-- `{{0, timeout * 1000000}, {0, timeout * 1000000}}`, with the product that the machine
computes. -/
def builtItimerspec (timeout : Int32) : Itimerspec :=
  ⟨⟨0, (timeout * 1000000).toInt⟩, ⟨0, (timeout * 1000000).toInt⟩⟩

/-- Where the multiplication does not overflow the machine builds the timer of the source. -/
theorem builtItimerspec_eq {timeout : Int32} {timer : Itimerspec}
    (h : itimerspec timeout = some timer) : builtItimerspec timeout = timer := by
  unfold itimerspec at h
  cases hmul : CInt.mul timeout 1000000 with
  | none =>
    rw [hmul] at h
    cases h
  | some ns =>
    rw [hmul] at h
    cases h
    have hns : timeout.toInt * 1000000 = ns.toInt := CInt.ofInt?_eq_some.mp hmul
    have hlo := ns.le_toInt
    have hhi := ns.toInt_lt
    have hwrap : (timeout * 1000000).toInt = ns.toInt := by
      rw [Int32.toInt_mul, show (1000000 : Int32).toInt = 1000000 from rfl, hns]
      exact Int.bmod_eq_of_le (by omega) (by omega)
    unfold builtItimerspec
    rw [hwrap]

/-- A timer whose expiration is zero is disarmed. -/
def Itimerspec.Armed (timer : Itimerspec) : Prop :=
  timer.itValue ≠ ⟨0, 0⟩

instance (timer : Itimerspec) : Decidable timer.Armed :=
  inferInstanceAs (Decidable (_ ≠ _))

/-- `step`, for the timer that `run` builds. -/
def timedStep (timeout : Int32) (s : State) (e : Event) : Option State :=
  match e with
  | .setup none => if (builtItimerspec timeout).Valid then step s e else none
  | .epollWait (some .timeout) => if (builtItimerspec timeout).Armed then step s e else none
  | _ => step s e

def timedProgram (timeout : Int32) (input : List UInt8) (children : List Process) :
    System State Event :=
  .ofFun (· = start input children) (timedStep timeout)

/-! ## The exit of the child

What the loop should do about the exit, and what it is to be stuck. A run is given with the calls of
its iterations, because an iteration that gets no event does not come to its `waitpid`. -/

/-- The child has ended, and nobody has waited for it. -/
def Exited (p : Nat) (s : State) : Prop :=
  ∃ status, ⟨p, some status⟩ ∈ s.children

/-- The calls of one iteration, with the exits of children among them. -/
inductive Iteration : List Event → Prop where
  | notReady : Iteration [.epollWait none]
  | callback (handler : Handler) (mid : List Event) (result : Int) (childStatus : ExitStatus)
      (hmid : ∀ r st, .waitpid r st ∉ mid) :
      Iteration (.epollWait (some handler) :: (mid ++ [.waitpid result childStatus]))

/-- Every iteration that begins after the exit of the child ends the loop. -/
def EndsFinished (timeout : Int32) (input : List UInt8) (children : List Process) (p : Nat)
    (as : List Event) : Prop :=
  ∀ pre calls post t u, as = pre ++ calls ++ post → Iteration calls →
    (timedProgram timeout input children).Exec pre t → Exited p t →
    (timedProgram timeout input children).Exec (pre ++ calls) u → u.isFinished = true

/-- After the exit of the child `epoll_wait` always delivers an event. -/
def Notified (timeout : Int32) (input : List UInt8) (children : List Process) (p : Nat)
    (as : List Event) : Prop :=
  ∀ pre ready post t, as = pre ++ .epollWait ready :: post →
    (timedProgram timeout input children).Exec pre t → Exited p t → ready ≠ none

/-- **The loop is stuck**: the child has ended, its input is handed over, and whatever happens
changes nothing. -/
structure Stuck (timeout : Int32) (p : Nat) (t : State) : Prop where
  exited : Exited p t
  handedOver : t.input = [] ∧ t.writeEnd = false
  head : t.pc = .epollWait
  running : t.isFinished = false
  repeats : ∀ init bs u, (System.ofFun init (timedStep timeout)).Run t bs u →
    u = { t with children := u.children }

variable {timeout : Int32} {input : List UInt8} {children : List Process} {p : Nat}
  {as : List Event} {e : Event} {s t u : State}

/-! ## Steps

The exit of a child changes nothing but the state of the child, until somebody waits for it. -/

/-- The timer only takes steps away. -/
theorem timedStep_step (h : timedStep timeout s e = some t) : step s e = some t := by
  unfold timedStep at h
  split at h
  · split at h <;> [exact h; cases h]
  · split at h <;> [exact h; cases h]
  · exact h

/-- A run with its timer is a run. -/
theorem timed_exec (h : (timedProgram timeout input children).Exec as s) :
    (program input children).Exec as s := by
  obtain ⟨s₀, hinit, hrun⟩ := h
  have hseen : True ∧ (program input children).Run (id s₀) (as.filterMap some) (id s) :=
    System.Run.filterMap (P := fun _ => True) (f := some) (fun _ _ _ _ _ => trivial)
      (fun _ _ _ _ _ hstep heq => Option.some.inj heq ▸ timedStep_step hstep)
      (fun _ _ _ _ _ heq => nomatch heq) trivial hrun
  rw [List.filterMap_some] at hseen
  exact ⟨s₀, hinit, hseen.2⟩

/-- The exit of a child stays until somebody waits for it. -/
theorem exited_step (h : Exited p s) (hturn : Turn s e t) (he : ∀ r st, e ≠ .waitpid r st) :
    Exited p t := by
  obtain ⟨status, hmem⟩ := h
  cases hturn with
  | setup | setupFails | notReady | ready | kill | forkFails => exact ⟨status, hmem⟩
  | fork q _ _ _ => exact ⟨status, List.mem_cons_of_mem _ hmem⟩
  | input res s₁ _ hhandler =>
    obtain ⟨_, _, hchildren⟩ := runInputWriterHandler_frame hhandler
    exact ⟨status, hchildren ▸ hmem⟩
  | timeout x _ =>
    obtain ⟨_, _, hframe⟩ := runTimeoutHandler_frame s x
    rw [hframe]
    exact ⟨status, hmem⟩
  | waitpid _ _ _ _ _ _ _ => exact absurd rfl (he _ _)
  | exits q ended _ =>
    by_cases hpq : p = q
    · refine ⟨ended, List.mem_map.mpr ⟨_, hmem, ?_⟩⟩
      rw [if_pos hpq, hpq]
    · refine ⟨status, List.mem_map.mpr ⟨_, hmem, ?_⟩⟩
      rw [if_neg hpq]

/-- A child that has exited stays so along a run without a `waitpid`. Induction on the run. -/
theorem exited_run {init : State → Prop} {bs : List Event}
    (hrun : (System.ofFun init (timedStep timeout)).Run s bs t) (h : Exited p s)
    (hbs : ∀ r st, .waitpid r st ∉ bs) : Exited p t := by
  induction hrun with
  | refl => exact h
  | snoc _ hstep ih =>
    have hbefore := ih fun r st hmem => hbs r st (List.mem_append_left _ hmem)
    refine exited_step hbefore (step_turn (timedStep_step hstep)) ?_
    rintro r st rfl
    exact hbs r st (List.mem_append_right _ (List.mem_singleton_self _))

/-- A `waitpid` with the result that the children give it. -/
theorem step_waitpid {result : Int} {childStatus : ExitStatus} {reported : Option ExitStatus}
    {left : List Process} (hpc : s.pc = .waitpid)
    (hwait : waitpid s.children s.pid = (result, reported, left))
    (hreported : reported = none ∨ reported = some childStatus) :
    step s (.waitpid result childStatus)
      = some (if result = s.pid then
          { s with children := left, returnCode := returnCodeOf childStatus,
                   isFinished := true }.loopTest
        else { s with children := left }.loopTest) := by
  unfold step
  rw [hpc]
  simp only [hwait]
  rw [if_pos ⟨trivial, hreported⟩]
  split <;> rfl

/-! ## The end of an iteration

Only the `waitpid` at the end of an iteration sees the exit; it finds the child, because nobody else
waits for it. -/

/-- A `waitpid` that finds the child ended ends the loop. -/
theorem waitpid_finishes {result : Int} {childStatus : ExitStatus} (hwatch : Watching p as s)
    (hexited : Exited p s) (hturn : Turn s (.waitpid result childStatus) t) :
    t.isFinished = true := by
  obtain ⟨ended, hmem⟩ := hexited
  obtain ⟨status, hchild⟩ := hwatch.child
  have hpid := hwatch.pid
  cases hchild.mem_iff.mp hmem
  cases hturn with
  | waitpid _ _ _ _ _ hwait _ =>
    rw [hpid, waitpid_child hchild] at hwait
    cases hwait
    rw [if_pos hpid.symm]
    rfl

/-- The state in front of a `waitpid`. -/
theorem watching_of_waitpid {result : Int} {childStatus : ExitStatus}
    (hexec : (program input children).Exec as s) (hfork : .fork (some p) ∈ as)
    (hturn : Turn s (.waitpid result childStatus) t) : Watching p as s := by
  have hpc : s.pc = .waitpid := by
    cases hturn with
    | waitpid _ _ _ _ hpc _ _ => exact hpc
  cases (exec_known hexec).phase p hfork with
  | polling _ _ _ hwatch => exact hwatch
  | looping hat =>
    rw [hpc] at hat
    simp at hat
  | ended _ _ _ _ _ hat =>
    rw [hpc] at hat
    simp at hat

/-- The state in front of an `epoll_wait`. -/
theorem watching_of_head (hexec : (program input children).Exec as s)
    (hfork : .fork (some p) ∈ as) (hpc : s.pc = .epollWait) :
    s.isFinished = false ∧ Watching p as s := by
  cases (exec_known hexec).phase p hfork with
  | looping _ hfin hwatch => exact ⟨hfin, hwatch⟩
  | polling hat =>
    rw [hpc] at hat
    cases hat
  | ended _ _ _ _ _ hat =>
    rw [hpc] at hat
    simp at hat

/-- The events determine the state that they lead to. -/
theorem exec_unique (hs : (timedProgram timeout input children).Exec as s)
    (ht : (timedProgram timeout input children).Exec as t) : s = t := by
  obtain ⟨_, rfl, hs⟩ := hs
  obtain ⟨_, rfl, ht⟩ := ht
  exact Option.some.inj ((System.run_ofFun_iff.mp hs).symm.trans (System.run_ofFun_iff.mp ht))

/-- An iteration with an event that begins after the exit of the child. -/
theorem callback_finishes {pre mid post : List Event} {handler : Handler} {result : Int}
    {childStatus : ExitStatus} (hmid : ∀ r st, .waitpid r st ∉ mid)
    (hexec : (timedProgram timeout input children).Exec
      (pre ++ (.epollWait (some handler) :: (mid ++ [.waitpid result childStatus])) ++ post) s)
    (hfork : .fork (some p) ∈ pre ++ (.epollWait (some handler)
      :: (mid ++ [.waitpid result childStatus])) ++ post)
    (hpre : (timedProgram timeout input children).Exec pre t) (hexited : Exited p t)
    (hcalls : (timedProgram timeout input children).Exec
      (pre ++ .epollWait (some handler) :: (mid ++ [.waitpid result childStatus])) u) :
    u.isFinished = true := by
  have hsplit : pre ++ .epollWait (some handler) :: (mid ++ [.waitpid result childStatus])
      = (pre ++ .epollWait (some handler) :: mid) ++ [.waitpid result childStatus] := by simp
  rw [hsplit] at hcalls hfork hexec
  rw [List.append_assoc, List.singleton_append] at hfork hexec
  obtain ⟨v, w, hbefore, hlast, hend⟩ := hcalls.split_at []
  -- the state in front of the `waitpid` is the one that the iteration itself leads to
  obtain ⟨t', t₁, hpre', hwait, hmid'⟩ := hbefore.split_at mid
  cases exec_unique hpre hpre'
  have hexited' : Exited p v := exited_run (hmid'.cons hwait) hexited
    (by simpa using hmid)
  have hturn := step_turn (timedStep_step hlast)
  have hforked := fork_mem_of_inLoop (e := .waitpid _ _) trivial (timed_exec hexec) hfork
  have hwatch := watching_of_waitpid (timed_exec hbefore) hforked hturn
  cases System.run_ofFun_iff.mp hend
  exact waitpid_finishes hwatch hexited' hturn

/-- **The iterations after the exit of the child** end the loop exactly if they get an event. -/
theorem endsFinished_iff (hexec : (timedProgram timeout input children).Exec as s)
    (hfork : .fork (some p) ∈ as) :
    EndsFinished timeout input children p as ↔ Notified timeout input children p as := by
  constructor
  · intro hends pre ready post t has hpre hexited hready
    rw [hready] at has
    have hsplit : as = pre ++ [.epollWait none] ++ post := by simp [has]
    rw [has] at hexec
    obtain ⟨t', u, hpre', hstep, _⟩ := hexec.split_at post
    have hu := hends pre _ post t u hsplit .notReady hpre hexited
      (hpre'.extend (System.Run.single hstep))
    -- `continue` has left `is_finished` unset
    have hforked :=
      fork_mem_of_inLoop (e := .epollWait none) trivial (timed_exec hexec) (has ▸ hfork)
    cases step_turn (timedStep_step hstep) with
    | notReady hpc =>
      have hfin := (watching_of_head (timed_exec hpre') hforked hpc).1
      rw [loopTest_running hfin] at hu
      exact absurd (hfin.symm.trans hu) Bool.false_ne_true
  · intro hnotified pre calls post t u has hcalls hpre hexited hend
    rw [has] at hexec hfork
    cases hcalls with
    | notReady =>
      have hsplit : as = pre ++ .epollWait none :: post := by simp [has]
      exact absurd rfl (hnotified pre none post t hsplit hpre hexited)
    | callback handler mid result childStatus hmid =>
      exact callback_finishes hmid hexec hfork hpre hexited hend

/-! ## Stuck

With the input handed over, the pipe is not registered any more, and a disarmed timer is never
ready. Then no event is left that `epoll_wait` could return. -/

/-- The loop is about to wait for an event, and the child runs. -/
structure AtHead (p : Nat) (s : State) : Prop where
  pos : 0 < p
  pid : s.pid = p
  pc : s.pc = .epollWait
  running : s.isFinished = false
  child : HasChild s.children p none

/-- A million has six factors of two, and the other factor must have the remaining twenty-six. -/
theorem bmod_million_eq_zero (t : Int) : (t * 1000000).bmod (2 ^ 32) = 0 ↔ t % 2 ^ 26 = 0 := by
  rw [Int.bmod_def]
  omega

/-- The timer is disarmed exactly if the product of nanoseconds wraps to zero. -/
theorem disarmed_iff : ¬ (builtItimerspec timeout).Armed ↔ timeout.toInt % 2 ^ 26 = 0 := by
  have hproduct : (timeout * 1000000).toInt = (timeout.toInt * 1000000).bmod (2 ^ 32) :=
    Int32.toInt_mul timeout 1000000
  have harmed : (builtItimerspec timeout).Armed ↔ (timeout * 1000000).toInt ≠ 0 := by
    unfold Itimerspec.Armed builtItimerspec
    simp
  rw [harmed, not_not, hproduct]
  exact bmod_million_eq_zero timeout.toInt

/-- A disarmed timer is one that `timerfd_settime` accepts. -/
theorem valid_of_disarmed (h : ¬ (builtItimerspec timeout).Armed) :
    (builtItimerspec timeout).Valid := by
  unfold Itimerspec.Armed at h
  rw [not_not] at h
  have hzero : (timeout * 1000000).toInt = 0 := congrArg Timespec.tvNsec h
  unfold builtItimerspec Itimerspec.Valid Timespec.Valid
  simp only [hzero]
  omega

/-- With a disarmed timer only the timer itself is out of the way. -/
theorem timedStep_disarmed (h : ¬ (builtItimerspec timeout).Armed)
    (he : e ≠ .epollWait (some .timeout)) : timedStep timeout s e = step s e := by
  unfold timedStep
  split
  · exact if_pos (valid_of_disarmed h)
  · exact absurd rfl he
  · rfl

/-- An iteration for the pipe, while the child runs. -/
theorem AtHead.deliver (init : State → Prop) {res : WriteResult} {s₁ : State}
    (hdisarmed : ¬ (builtItimerspec timeout).Armed) (h : AtHead p s)
    (hopen : s.writeEnd = true)
    (hhandler : runInputWriterHandler { s with pc := .callback .input } res = some s₁) :
    (System.ofFun init (timedStep timeout)).Run s
        [.epollWait (some .input), .inputWriter res, .waitpid 0 (.exited 0)]
        { s₁ with pc := .epollWait }
      ∧ AtHead p { s₁ with pc := .epollWait } := by
  obtain ⟨hpid, hfin, hchildren⟩ := runInputWriterHandler_frame hhandler
  have hpos := h.pos
  -- one iteration: the pipe is ready, the handler writes, and `waitpid` finds the child running
  have hready : step s (.epollWait (some .input)) = some { s with pc := .callback .input } := by
    unfold step
    rw [h.pc]
    exact if_pos hopen
  have hwrite : step { s with pc := .callback .input } (.inputWriter res)
      = some { s₁ with pc := .waitpid } := by
    unfold step
    simp only [hhandler]
  have hchild : HasChild s₁.children p none := hchildren ▸ h.child
  have hpid' : s₁.pid = p := hpid.trans h.pid
  have hwait : step { s₁ with pc := .waitpid } (.waitpid 0 (.exited 0))
      = some { s₁ with pc := .epollWait } := by
    have hwait := waitpid_child hchild
    rw [← hpid'] at hwait
    have hne : (0 : Int) ≠ s₁.pid := by omega
    rw [step_waitpid (s := { s₁ with pc := .waitpid }) rfl hwait (Or.inl rfl)]
    show some (if (0 : Int) = s₁.pid then _ else s₁.loopTest) = _
    rw [if_neg hne, loopTest_running (hfin.trans h.running)]
  -- with the timer disarmed these are steps of the timed system too
  have hrun := System.Run.cons (S := .ofFun init (timedStep timeout))
    ((timedStep_disarmed hdisarmed (by simp)).trans hready)
    (.cons ((timedStep_disarmed hdisarmed (by simp)).trans hwrite)
      (.single ((timedStep_disarmed hdisarmed (by simp)).trans hwait)))
  exact ⟨hrun, hpos, hpid', rfl, hfin.trans h.running, hchild⟩

/-- The input is handed over, in one piece or because there is none. -/
theorem AtHead.writes (init : State → Prop) (hdisarmed : ¬ (builtItimerspec timeout).Armed)
    (h : AtHead p s) (hopen : s.writeEnd = true) :
    ∃ bs t, (System.ofFun init (timedStep timeout)).Run s bs t ∧ AtHead p t ∧ t.writeEnd = true
      ∧ t.input = [] := by
  by_cases hempty : s.input = []
  · exact ⟨[], s, .refl, h, hopen, hempty⟩
  · have hhandler : runInputWriterHandler { s with pc := .callback .input }
        (.wrote s.input.length) = some { s with
          pc := .callback .input, input := s.input.drop s.input.length,
          pipe := s.pipe ++ s.input.take s.input.length } := by
      unfold runInputWriterHandler
      rw [if_neg hempty]
      exact if_pos le_rfl
    obtain ⟨hrun, hhead⟩ := h.deliver init hdisarmed hopen hhandler
    exact ⟨_, _, hrun, hhead, hopen, List.drop_length⟩

/-- The pipe is closed by the first event after that. -/
theorem AtHead.closes (init : State → Prop) (hdisarmed : ¬ (builtItimerspec timeout).Armed)
    (h : AtHead p s) (hopen : s.writeEnd = true) (hempty : s.input = []) :
    ∃ bs t, (System.ofFun init (timedStep timeout)).Run s bs t ∧ AtHead p t ∧ t.writeEnd = false
      ∧ t.input = [] := by
  have hhandler : runInputWriterHandler { s with pc := .callback .input } .again
      = some { s with pc := .callback .input, writeEnd := false } := by
    unfold runInputWriterHandler
    exact if_pos hempty
  obtain ⟨hrun, hhead⟩ := h.deliver init hdisarmed hopen hhandler
  exact ⟨_, _, hrun, hhead, rfl, hempty⟩

/-- With the pipe closed and the timer disarmed no event is left. -/
theorem idle_step (hdisarmed : ¬ (builtItimerspec timeout).Armed) (hpc : s.pc = .epollWait)
    (hfin : s.isFinished = false) (hclosed : s.writeEnd = false)
    (hstep : timedStep timeout s e = some t) :
    t = { s with children := t.children } := by
  have hturn := step_turn (timedStep_step hstep)
  cases hturn with
  | setup hat | setupFails _ hat | forkFails hat | fork _ hat | input _ _ hat | timeout _ hat
  | waitpid _ _ _ _ hat | kill hat =>
    rw [hpc] at hat
    cases hat
  | notReady _ =>
    rw [loopTest_running hfin, ← hpc]
  | ready handler _ =>
    cases handler with
    | timeout =>
      have hnone : timedStep timeout s (.epollWait (some .timeout)) = none := if_neg hdisarmed
      rw [hnone] at hstep
      cases hstep
    | input =>
      -- the descriptor is no longer registered
      have hnone : step s (.epollWait (some .input)) = none := by
        unfold step
        rw [hpc]
        exact if_neg (by simp [hclosed])
      rw [timedStep_step hstep] at hnone
      cases hnone
  | exits _ _ _ => rfl

/-- Nothing but the exits of other children happens from then on. Induction on the run. -/
theorem idle_run {init : State → Prop} {bs : List Event}
    (hdisarmed : ¬ (builtItimerspec timeout).Armed) (hpc : s.pc = .epollWait)
    (hfin : s.isFinished = false) (hclosed : s.writeEnd = false)
    (hrun : (System.ofFun init (timedStep timeout)).Run s bs t) :
    t = { s with children := t.children } := by
  induction hrun with
  | refl => rfl
  | @snoc u v bs e _ hstep ih =>
    rw [ih] at hstep
    exact idle_step (s := { s with children := u.children }) hdisarmed hpc hfin hclosed hstep

/-- The child exits after its input has been handed over. -/
theorem AtHead.stuck (init : State → Prop) (hdisarmed : ¬ (builtItimerspec timeout).Armed)
    (h : AtHead p s) (hopen : s.writeEnd = true) :
    ∃ bs t, (System.ofFun init (timedStep timeout)).Run s bs t ∧ Stuck timeout p t := by
  obtain ⟨bs, t, hwrites, ht, hopen', hempty⟩ := h.writes init hdisarmed hopen
  obtain ⟨cs, u, hcloses, hu, hclosed, hempty'⟩ := ht.closes init hdisarmed hopen' hempty
  have hmem : (⟨p, none⟩ : Process) ∈ u.children := hu.child.mem_iff.mpr rfl
  have hexit : step u (.childExits p (.exited 0)) = some { u with
      children := u.children.map fun c => if c.pid = p then ⟨p, some (.exited 0)⟩ else c } := by
    unfold step
    rw [hu.pc]
    exact if_pos hmem
  refine ⟨bs ++ cs ++ [.childExits p (.exited 0)], _,
    (hwrites.trans hcloses).snoc ((timedStep_disarmed hdisarmed (by simp)).trans hexit), ?_⟩
  have hexited : (⟨p, some (.exited 0)⟩ : Process) ∈ u.children.map
      fun c => if c.pid = p then ⟨p, some (.exited 0)⟩ else c :=
    List.mem_map.mpr ⟨_, hmem, if_pos rfl⟩
  exact ⟨⟨_, hexited⟩, ⟨hempty', hclosed⟩, hu.pc, hu.running,
    fun _ _ _ hrun => idle_run hdisarmed hu.pc hu.running hclosed hrun⟩

/-- With a disarmed timer the loop can get stuck, whatever the input. -/
theorem exists_stuck (hdisarmed : ¬ (builtItimerspec timeout).Armed) (input : List UInt8)
    (children : List Process) :
    ∃ as t p, (timedProgram timeout input children).Exec as t ∧ .fork (some p) ∈ as
      ∧ Stuck timeout p t := by
  -- a pid that the caller does not use yet
  obtain ⟨p, hp⟩ := Infinite.exists_notMem_finset (insert 0 (children.map Process.pid).toFinset)
  have hpos : 0 < p := by
    rw [Nat.pos_iff_ne_zero]
    rintro rfl
    exact hp (Finset.mem_insert_self ..)
  have hnew : ∀ c ∈ children, c.pid ≠ p := by
    rintro c hc rfl
    exact hp (Finset.mem_insert_of_mem
      (List.mem_toFinset.mpr (List.mem_map_of_mem hc)))
  have hsetup : timedStep timeout (start input children) (.setup none)
      = some { start input children with pc := .fork } := timedStep_disarmed hdisarmed (by simp)
  have hfork : timedStep timeout { start input children with pc := .fork } (.fork (some p))
      = some { start input children with
        pc := .epollWait, pid := p, children := ⟨p, none⟩ :: children } :=
    (timedStep_disarmed hdisarmed (by simp)).trans (if_pos ⟨hpos, hnew⟩)
  have hhead : AtHead p { start input children with
      pc := .epollWait, pid := p, children := ⟨p, none⟩ :: children } :=
    ⟨hpos, rfl, rfl, rfl, hasChild_fork hnew⟩
  obtain ⟨bs, t, hrun, hstuck⟩ := hhead.stuck (· = start input children) hdisarmed rfl
  exact ⟨_, t, p, ⟨_, rfl, .cons hsetup (.cons hfork hrun)⟩, by simp, hstuck⟩

/-- An armed timer can always end the loop. -/
theorem armed_finishes (hexec : (timedProgram timeout input children).Exec as t)
    (hfork : .fork (some p) ∈ as) (hexited : Exited p t) (hpc : t.pc = .epollWait)
    (harmed : (builtItimerspec timeout).Armed) :
    ∃ bs u, (timedProgram timeout input children).Run t bs u ∧ u.isFinished = true := by
  obtain ⟨hfin, hwatch⟩ := watching_of_head (timed_exec hexec) hfork hpc
  obtain ⟨status, hchild⟩ := hwatch.child
  obtain ⟨ended, hmem⟩ := hexited
  cases hchild.mem_iff.mp hmem
  have hready : timedStep timeout t (.epollWait (some .timeout))
      = some { t with pc := .callback .timeout } := by
    refine (if_pos harmed).trans ?_
    unfold step
    rw [hpc]
  have hread : timedStep timeout { t with pc := .callback .timeout } (.timeoutRead none)
      = some { t with pc := .waitpid } := rfl
  have hwait : timedStep timeout { t with pc := .waitpid } (.waitpid p ended) = some
      { t with
        pc := .kill, isFinished := true, returnCode := returnCodeOf ended,
        children := t.children.erase ⟨p, some ended⟩ } := by
    have hreport := waitpid_child hchild
    rw [← hwatch.pid] at hreport ⊢
    unfold timedStep
    dsimp only
    rw [step_waitpid (s := { t with pc := .waitpid }) rfl hreport (Or.inr rfl)]
    show some (if t.pid = t.pid then _ else _) = _
    rw [if_pos rfl]
    rfl
  exact ⟨_, _, .cons hready (.cons hread (.single hwait)), rfl⟩

/-- An armed timer keeps the loop from getting stuck. -/
theorem not_stuck (hexec : (timedProgram timeout input children).Exec as t)
    (hfork : .fork (some p) ∈ as) (harmed : (builtItimerspec timeout).Armed) :
    ¬ Stuck timeout p t := by
  intro hstuck
  obtain ⟨bs, u, hrun, hfin⟩ := armed_finishes hexec hfork hstuck.exited hstuck.head harmed
  rw [hstuck.repeats _ bs u hrun] at hfin
  exact absurd (hstuck.running.symm.trans hfin) Bool.false_ne_true

/-- **The loop after the exit of the child**, for every timeout, input and result of
`epoll_wait`: an iteration that begins after the exit ends the loop exactly if it gets an event,
and the loop can get stuck exactly if the timer is disarmed, which it is if the timeout is a
multiple of `2 ^ 26`, zero among them. -/
theorem child_exit_iff (timeout : Int32) (input : List UInt8) (children : List Process) :
    (∀ as s p, (timedProgram timeout input children).Exec as s → .fork (some p) ∈ as →
      (EndsFinished timeout input children p as ↔ Notified timeout input children p as))
    ∧ ((∃ as t p, (timedProgram timeout input children).Exec as t ∧ .fork (some p) ∈ as
      ∧ Stuck timeout p t) ↔ timeout.toInt % 2 ^ 26 = 0) := by
  constructor
  · intro as s p hexec hfork
    exact endsFinished_iff hexec hfork
  · rw [← disarmed_iff]
    constructor
    · intro ⟨as, t, p, hexec, hfork, hstuck⟩ harmed
      exact not_stuck hexec hfork harmed hstuck
    · intro hdisarmed
      exact exists_stuck hdisarmed input children

/-- With half a second `run` cannot get stuck, and neither can it with 4300 ms, whose
nanoseconds wrap to some five million. -/
theorem child_exit_500 :
    (¬ ∃ as t p, (timedProgram 500 [] []).Exec as t ∧ .fork (some p) ∈ as ∧ Stuck 500 p t)
    ∧ builtItimerspec 4300 = ⟨⟨0, 5032704⟩, ⟨0, 5032704⟩⟩
    ∧ ¬ ∃ as t p, (timedProgram 4300 [] []).Exec as t ∧ .fork (some p) ∈ as ∧ Stuck 4300 p t :=
  ⟨fun hstuck => absurd ((child_exit_iff 500 [] []).2.mp hstuck) (by decide), by decide,
    fun hstuck => absurd ((child_exit_iff 4300 [] []).2.mp hstuck) (by decide)⟩

/-- The pipe is closed, and then the child exits. -/
def childOutlived : List Event :=
  [.setup none, .fork (some 7), .epollWait (some .input), .inputWriter .again,
    .waitpid 0 (.exited 0), .childExits 7 (.exited 0)]

/-- With a timeout of zero the loop goes round for ever. -/
theorem child_outlived : ∃ t, (timedProgram 0 [] []).Exec (childOutlived ++ [.epollWait none]) t
    ∧ Stuck 0 7 t ∧ ¬ EndsFinished 0 [] [] 7 (childOutlived ++ [.epollWait none]) := by
  obtain ⟨t, ht⟩ : ∃ t, t = (⟨.epollWait, 7, false, 0, [], false, [],
    [⟨7, some (.exited 0)⟩]⟩ : State) := ⟨_, rfl⟩
  have hbefore : (timedProgram 0 [] []).Exec childOutlived t := by
    rw [ht]
    exact ⟨_, rfl, System.run_ofFun_iff.mpr rfl⟩
  have hrun : (timedProgram 0 [] []).Exec (childOutlived ++ [.epollWait none]) t := by
    rw [ht]
    exact ⟨_, rfl, System.run_ofFun_iff.mpr rfl⟩
  have hexited : Exited 7 t := by
    rw [ht]
    exact ⟨.exited 0, by simp⟩
  refine ⟨t, hrun, ?_, fun hends => ?_⟩
  · rw [ht] at hexited ⊢
    exact ⟨hexited, ⟨rfl, rfl⟩, rfl, rfl, fun _ _ _ hrun => idle_run (by decide) rfl rfl rfl hrun⟩
  · have hfin := hends _ _ [] t t (by simp) .notReady hbefore hexited hrun
    rw [ht] at hfin
    cases hfin

end HseDev.Sem21
