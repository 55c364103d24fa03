import HseDev.Sem21.RunProcess

/-!
# HseDev — which processes `run` kills and reaps

* **`ChildSafe`** — what a run should do: kill only its own child, and only while nobody has
  waited for it, and leave no child behind.
* **`Move`** / **`step_move`** — a step as far as the pid and the place in `run` matter.
* **`Stage`** — the runs: before `fork`; a set-up that failed; the loop; after the `kill`,
  which is the last call of all.
* **`child_safe_iff`** — a run that returns is safe exactly if its set-up failed: after
  `fork` the `kill` is unconditional and nothing is reaped after it.
-/

namespace HseDev.Sem21

open Transition

/-! ## The property

A `kill` should only name a child of this call that has not been reaped: its pid may belong to
another process afterwards, and `-1` names every process. -/

/-- How often a run has reaped a pid. -/
def reaps (p : Nat) (as : List Event) : Nat :=
  as.countP fun
    | .waitpid result _ => result = p
    | _ => false

/-- Each `kill` names a child this run forked and has not reaped. -/
def KillsOwnChild (as : List Event) : Prop :=
  ∀ pre post (target : Int), as = pre ++ .kill target :: post →
    ∃ p : Nat, target = p ∧ .fork (some p) ∈ pre ∧ reaps p pre = 0

/-- The child has been reaped once. -/
def ReapsChild (as : List Event) : Prop :=
  ∀ p, .fork (some p) ∈ as → reaps p as = 1

def ChildSafe (as : List Event) (s : State) : Prop :=
  KillsOwnChild as ∧ ((∃ code, s.pc = .returned code) → ReapsChild as)

/-! ## Steps

For this property only the place in `run` and its `pid` matter. `Move` is what a step does to them.
-/

/-- The places between `fork` and the return. -/
def Pc.InLoop : Pc → Prop
  | .epollWait => True
  | .callback _ => True
  | .waitpid => True
  | .kill => True
  | _ => False

/-- The calls of the loop. -/
def Event.InLoop : Event → Prop
  | .epollWait _ => True
  | .inputWriter _ => True
  | .timeoutRead _ => True
  | .waitpid _ _ => True
  | _ => False

/-- Something that happens outside of `run`. -/
def Event.Outside : Event → Prop
  | .childExits _ _ => True
  | _ => False

/-- What a step does to the place in `run` and to its `pid`. -/
inductive Move (s s' : State) : Event → Prop where
  | setup (hpc : s.pc = .setup) (hpc' : s'.pc = .fork) : Move s s' (.setup none)
  | setupFails (call : SetupCall) (hpc : s.pc = .setup) (hpc' : s'.pc = .returned (-1)) :
      Move s s' (.setup (some call))
  | forkFails (hpc : s.pc = .fork) (hpid : s'.pid = -1) (hpc' : s'.pc.InLoop) :
      Move s s' (.fork none)
  | fork (p : Nat) (hpc : s.pc = .fork) (hpid : s'.pid = p) (hpc' : s'.pc.InLoop) :
      Move s s' (.fork (some p))
  | loop {e : Event} (he : e.InLoop) (hpc : s.pc.InLoop) (hpid : s'.pid = s.pid)
      (hpc' : s'.pc.InLoop) : Move s s' e
  | kill (hpc : s.pc = .kill) (hpid : s'.pid = s.pid) (hpc' : ∃ code, s'.pc = .returned code) :
      Move s s' (.kill s.pid)
  | outside {e : Event} (he : e.Outside) (hpid : s'.pid = s.pid) (hpc' : s'.pc = s.pc) :
      Move s s' e

variable {s s' : State} {e : Event} {as : List Event}

/-- The test of the loop leads into the loop or to the `kill` behind it. -/
theorem loopTest_inLoop (s : State) : s.loopTest.pc.InLoop := by
  rcases loopTest_pc s with h | h <;> rw [h] <;> trivial

/-- Every step is one of the moves. -/
theorem step_move (hstep : step s e = some s') : Move s s' e := by
  cases step_turn hstep with
  | setup hpc => exact .setup hpc rfl
  | setupFails call hpc => exact .setupFails call hpc rfl
  | forkFails hpc => exact .forkFails hpc rfl (loopTest_inLoop _)
  | fork p hpc _ _ => exact .fork p hpc rfl (loopTest_inLoop _)
  | notReady hpc => exact .loop trivial (by rw [hpc]; trivial) rfl (loopTest_inLoop _)
  | ready _ hpc => exact .loop trivial (by rw [hpc]; trivial) rfl trivial
  | input res s₁ hpc hhandler =>
    have hpid : s₁.pid = s.pid := (runInputWriterHandler_frame hhandler).1
    exact .loop trivial (by rw [hpc]; trivial) hpid trivial
  | timeout x hpc =>
    obtain ⟨_, _, hframe⟩ := runTimeoutHandler_frame s x
    rw [hframe]
    exact .loop trivial (by rw [hpc]; trivial) rfl trivial
  | waitpid _ _ _ _ hpc _ _ =>
    -- either way only `children` and the result have changed
    split
    · exact .loop trivial (by rw [hpc]; trivial) rfl (loopTest_inLoop _)
    · exact .loop trivial (by rw [hpc]; trivial) rfl (loopTest_inLoop _)
  | kill hpc => exact .kill hpc rfl ⟨_, rfl⟩
  | exits _ _ _ => exact .outside trivial rfl rfl

/-! ## The stages of a run

Before `fork` nothing has been killed or reaped, and in the loop nothing has been killed. The `kill`
is the last call of a run that has got past `fork`. -/

/-- No call that reaps, kills or forks. -/
def Quiet (as : List Event) : Prop :=
  ∀ e ∈ as, e.Outside ∨ ∃ failed, e = .setup failed

/-- What `pid` holds after `fork`. -/
def PidForked (pid : Int) (as : List Event) : Prop :=
  pid = -1 ∨ ∃ p : Nat, pid = p ∧ .fork (some p) ∈ as

/-- The set-up has not failed. -/
def SetUp (as : List Event) : Prop :=
  ∀ call, .setup (some call) ∉ as

inductive Stage (as : List Event) (s : State) : Prop where
  | before (hpc : s.pc = .setup ∨ s.pc = .fork) (hquiet : Quiet as) (hsetup : SetUp as)
  | failed (call : SetupCall) (hpc : s.pc = .returned (-1)) (hquiet : Quiet as)
      (hcall : .setup (some call) ∈ as)
  | looping (hpc : s.pc.InLoop) (hsetup : SetUp as) (hpid : PidForked s.pid as)
      (hkill : ∀ target, .kill target ∉ as)
  | done (pre post : List Event) (hpc : ∃ code, s.pc = .returned code) (hsetup : SetUp as)
      (has : as = pre ++ .kill s.pid :: post) (hpid : PidForked s.pid as)
      (hpost : ∀ e ∈ post, e.Outside)

/-- A call that is no failure keeps the set-up good. -/
theorem SetUp.snoc (h : SetUp as) (he : ∀ call, e ≠ .setup (some call)) : SetUp (as ++ [e]) := by
  intro call hmem
  rcases List.mem_append.mp hmem with hold | hnew
  · exact h call hold
  · exact he call (List.mem_singleton.mp hnew).symm

/-- A call of the set-up, or something outside, is quiet. -/
theorem Quiet.snoc (h : Quiet as) (he : e.Outside ∨ ∃ failed, e = .setup failed) :
    Quiet (as ++ [e]) := by
  intro e' hmem
  rcases List.mem_append.mp hmem with hold | hnew
  · exact h e' hold
  · rw [List.mem_singleton.mp hnew]
    exact he

/-- What `pid` holds stays true when more is called. -/
theorem PidForked.snoc {pid : Int} (h : PidForked pid as) : PidForked pid (as ++ [e]) := by
  rcases h with h | ⟨p, hp, hfork⟩
  · exact Or.inl h
  · exact Or.inr ⟨p, hp, List.mem_append_left _ hfork⟩

theorem Quiet.no_kill (h : Quiet as) (target : Int) : .kill target ∉ as := by
  intro hmem
  rcases h _ hmem with h | ⟨failed, h⟩
  · exact h
  · cases h

theorem Quiet.no_fork (h : Quiet as) (p : Option Nat) : .fork p ∉ as := by
  intro hmem
  rcases h _ hmem with h | ⟨failed, h⟩
  · exact h
  · cases h

theorem Quiet.no_waitpid (h : Quiet as) (result : Int) (childStatus : ExitStatus) :
    .waitpid result childStatus ∉ as := by
  intro hmem
  rcases h _ hmem with h | ⟨failed, h⟩
  · exact h
  · cases h

/-- A run without a `kill` goes on without one. -/
theorem no_kill_snoc (h : ∀ target, .kill target ∉ as) (he : ∀ target, e ≠ .kill target) :
    ∀ target, .kill target ∉ as ++ [e] := by
  intro target
  exact List.not_mem_append (h target) fun hnew => he target (List.mem_singleton.mp hnew).symm

/-- Something outside of `run` leaves its stage. -/
theorem Stage.outside (h : Stage as s) (he : e.Outside) (hpid : s'.pid = s.pid)
    (hpc : s'.pc = s.pc) : Stage (as ++ [e]) s' := by
  have hsetup : ∀ call, e ≠ .setup (some call) := by
    rintro call rfl
    exact he
  have hkill : ∀ target, e ≠ .kill target := by
    rintro target rfl
    exact he
  cases h with
  | before hat hquiet hs => exact .before (hpc ▸ hat) (hquiet.snoc (Or.inl he)) (hs.snoc hsetup)
  | failed call hat hquiet hcall =>
    exact .failed call (hpc.trans hat) (hquiet.snoc (Or.inl he)) (List.mem_append_left _ hcall)
  | looping hat hs hp hk =>
    exact .looping (hpc ▸ hat) (hs.snoc hsetup) (hpid ▸ hp.snoc) (no_kill_snoc hk hkill)
  | done pre post hat hs has hp hpost =>
    refine .done pre (post ++ [e]) (hpc ▸ hat) (hs.snoc hsetup) ?_ (hpid ▸ hp.snoc) ?_
    · rw [has, hpid, List.append_assoc, List.cons_append]
    · intro e' hmem
      rcases List.mem_append.mp hmem with hold | hnew
      · exact hpost e' hold
      · rw [List.mem_singleton.mp hnew]
        exact he

/-- After its return `run` makes no call. -/
theorem returned_step {code : Int} (hpc : s.pc = .returned code) (hmove : Move s s' e) :
    e.Outside ∧ s'.pid = s.pid ∧ s'.pc = s.pc := by
  cases hmove with
  | outside he hpid hpc' => exact ⟨he, hpid, hpc'⟩
  | setup hat | setupFails _ hat | forkFails hat | fork _ hat | kill hat =>
    rw [hat] at hpc
    cases hpc
  | loop _ hat =>
    rw [hpc] at hat
    exact hat.elim

/-- Up to `fork` nothing is reaped or killed. -/
theorem before_step (hpc : s.pc = .setup ∨ s.pc = .fork) (hquiet : Quiet as) (hsetup : SetUp as)
    (hmove : Move s s' e) : Stage (as ++ [e]) s' := by
  cases hmove with
  | outside he hpid hpc' => exact (Stage.before hpc hquiet hsetup).outside he hpid hpc'
  | setup _ hpc' =>
    exact .before (Or.inr hpc') (hquiet.snoc (Or.inr ⟨_, rfl⟩)) (hsetup.snoc (by simp))
  | setupFails call _ hpc' =>
    exact .failed call hpc' (hquiet.snoc (Or.inr ⟨_, rfl⟩)) (by simp)
  | forkFails _ hpid hpc' =>
    exact .looping hpc' (hsetup.snoc (by simp)) (Or.inl hpid)
      (no_kill_snoc hquiet.no_kill (by simp))
  | fork p _ hpid hpc' =>
    exact .looping hpc' (hsetup.snoc (by simp)) (Or.inr ⟨p, hpid, by simp⟩)
      (no_kill_snoc hquiet.no_kill (by simp))
  | loop _ hloop =>
    rcases hpc with hat | hat <;> rw [hat] at hloop <;> exact hloop.elim
  | kill hkill =>
    rcases hpc with hat | hat <;> rw [hat] at hkill <;> cases hkill

/-- The loop reaps; the first `kill` ends it. -/
theorem looping_step (hpc : s.pc.InLoop) (hsetup : SetUp as) (hpid : PidForked s.pid as)
    (hkill : ∀ target, .kill target ∉ as) (hmove : Move s s' e) : Stage (as ++ [e]) s' := by
  cases hmove with
  | outside he hpid' hpc' =>
    exact (Stage.looping hpc hsetup hpid hkill).outside he hpid' hpc'
  | setup hat | setupFails _ hat | forkFails hat | fork _ hat =>
    rw [hat] at hpc
    exact hpc.elim
  | loop he _ hpid' hpc' =>
    refine .looping hpc' (hsetup.snoc ?_) (hpid' ▸ hpid.snoc) (no_kill_snoc hkill ?_)
    · rintro call rfl
      exact he
    · rintro target rfl
      exact he
  | kill _ hpid' hpc' =>
    refine .done as [] hpc' (hsetup.snoc (by simp)) ?_ (hpid' ▸ hpid.snoc) (by simp)
    rw [hpid']

/-- Every step leads from a stage to a stage. -/
theorem Stage.step (h : Stage as s) (hstep : step s e = some s') : Stage (as ++ [e]) s' := by
  have hmove := step_move hstep
  cases h with
  | before hpc hquiet hsetup => exact before_step hpc hquiet hsetup hmove
  | looping hpc hsetup hpid hkill => exact looping_step hpc hsetup hpid hkill hmove
  | failed call hpc hquiet hcall =>
    obtain ⟨he, hpid, hpc'⟩ := returned_step hpc hmove
    exact (Stage.failed call hpc hquiet hcall).outside he hpid hpc'
  | done pre post hpc hsetup has hpid hpost =>
    obtain ⟨code, hcode⟩ := hpc
    obtain ⟨he, hpid', hpc'⟩ := returned_step hcode hmove
    exact (Stage.done pre post ⟨code, hcode⟩ hsetup has hpid hpost).outside he hpid' hpc'

/-- Every run is at one of the stages. -/
theorem exec_stage {input : List UInt8} {children : List Process}
    (hrun : (program input children).Exec as s) : Stage as s := by
  refine System.exec_induction (P := Stage) ?_ ?_ hrun
  · rintro s rfl
    exact .before (Or.inl rfl) (fun _ h => nomatch h) (fun _ h => nomatch h)
  · intro as s e s' _ hstage hstep
    exact hstage.step hstep

/-! ## Safe runs

At each stage it can be read off whether the run is safe. Past the `kill` it never is. -/

/-- A run without a `kill` is safe, if it has reaped its child when it returns. -/
theorem safe_of_no_kill (hkill : ∀ target, .kill target ∉ as)
    (hreap : (∃ code, s.pc = .returned code) → ReapsChild as) : ChildSafe as s := by
  refine ⟨fun pre post target has => ?_, hreap⟩
  exact absurd (has ▸ List.mem_append_right _ (List.mem_cons_self ..)) (hkill target)

/-- What happens outside of `run` reaps nobody. -/
theorem reaps_outside {p : Nat} {post : List Event} (hpost : ∀ e ∈ post, e.Outside) :
    reaps p post = 0 := by
  refine List.countP_eq_zero.mpr fun e he => ?_
  have hout := hpost e he
  cases e <;> first | exact hout.elim | exact Bool.false_ne_true

/-- Nor does the `kill`, so all reaping is before it. -/
theorem reaps_kill {p : Nat} {pre post : List Event} {target : Int}
    (has : as = pre ++ .kill target :: post) (hpost : ∀ e ∈ post, e.Outside) :
    reaps p as = reaps p pre := by
  have hsplit : reaps p as = reaps p pre + reaps p post := by
    rw [has, reaps, List.countP_append, List.countP_cons]
    rfl
  rw [hsplit, reaps_outside hpost, Nat.add_zero]

/-- A run that got to its `kill` is not safe: a child that was its own up to the `kill` is
not reaped any more. -/
theorem not_safe_of_kill (pre post : List Event) {target : Int}
    (hpc : ∃ code, s.pc = .returned code) (has : as = pre ++ .kill target :: post)
    (hpost : ∀ e ∈ post, e.Outside) : ¬ ChildSafe as s := by
  rintro ⟨hkills, hreaps⟩
  -- own and not yet reaped at the `kill`, so never reaped: nothing reaps after it
  obtain ⟨p, _, hfork, hzero⟩ := hkills pre post target has
  have hmem : .fork (some p) ∈ as := by
    rw [has]
    exact List.mem_append_left _ hfork
  have hone := hreaps hpc p hmem
  rw [reaps_kill has hpost, hzero] at hone
  cases hone

/-- **When `run` is safe.** Of the runs that return, those whose set-up failed are, and no
other; and no run goes wrong before its return. -/
theorem child_safe_iff (input : List UInt8) (children : List Process) :
    (∀ as s code, (program input children).Exec as s → s.pc = .returned code →
      (ChildSafe as s ↔ ∃ call, .setup (some call) ∈ as))
    ∧ ∀ as s, (program input children).Exec as s → (∀ code, s.pc ≠ .returned code) →
      ChildSafe as s := by
  constructor
  · intro as s code hrun hpc
    cases exec_stage hrun with
    | before hat =>
      rcases hat with hat | hat <;> rw [hat] at hpc <;> cases hpc
    | looping hat =>
      rw [hpc] at hat
      exact hat.elim
    | failed call _ hquiet hcall =>
      -- no `fork`, so there is nothing to kill or to reap
      refine ⟨fun _ => ⟨call, hcall⟩, fun _ => safe_of_no_kill hquiet.no_kill fun _ p hfork => ?_⟩
      exact absurd hfork (hquiet.no_fork _)
    | done pre post hat hsetup has _ hpost =>
      refine ⟨fun hsafe => absurd hsafe (not_safe_of_kill pre post hat has hpost), ?_⟩
      rintro ⟨call, hcall⟩
      exact absurd hcall (hsetup call)
  · intro as s hrun hlive
    refine safe_of_no_kill ?_ fun ⟨code, hpc⟩ => absurd hpc (hlive code)
    cases exec_stage hrun with
    | before _ hquiet => exact hquiet.no_kill
    | looping _ _ _ hkill => exact hkill
    | failed _ hpc => exact absurd hpc (hlive _)
    | done _ _ hpc => exact absurd hpc.choose_spec (hlive _)

/-- A run whose `epoll_create1` fails. -/
theorem child_safe_setup_fails : ∃ as s, (program [] []).Exec as s ∧ ChildSafe as s := by
  have hrun : (program [] []).Exec [.setup (some .epollCreate)] _ :=
    ⟨start [] [], rfl, System.run_ofFun_iff.mpr rfl⟩
  exact ⟨_, _, hrun, ((child_safe_iff [] []).1 _ _ (-1) hrun rfl).mpr ⟨.epollCreate, by simp⟩⟩

/-- After a failed `fork` everybody is killed. -/
def forkFailsRun : List Event :=
  [.setup none, .fork none, .epollWait (some .timeout), .timeoutRead (some 1),
    .waitpid (-1) (.exited 0), .kill (-1)]

/-- The child exits, is reaped, and its pid is killed. -/
def childExitsRun : List Event :=
  [.setup none, .fork (some 7), .childExits 7 (.exited 0), .epollWait (some .input),
    .inputWriter .error, .waitpid 7 (.exited 0), .kill 7]

/-- The timer expires, and the child is killed and left behind. -/
def timeoutRun : List Event :=
  [.setup none, .fork (some 7), .epollWait (some .timeout), .timeoutRead (some 1),
    .waitpid 0 (.exited 0), .kill 7]

/-- The calls `as` make up a run that returns and is not safe. -/
def ReturnsUnsafe (as : List Event) : Prop :=
  ∃ s code, (program [65] []).Exec as s ∧ s.pc = .returned code ∧ ¬ ChildSafe as s

/-- Each way of getting to the `kill` is unsafe. -/
theorem child_unsafe_runs :
    ReturnsUnsafe forkFailsRun ∧ ReturnsUnsafe childExitsRun ∧ ReturnsUnsafe timeoutRun := by
  refine ⟨?_, ?_, ?_⟩
  · exact ⟨_, _, ⟨_, rfl, System.run_ofFun_iff.mpr rfl⟩, rfl,
      not_safe_of_kill (forkFailsRun.take 5) [] ⟨_, rfl⟩ rfl (by simp)⟩
  · exact ⟨_, _, ⟨_, rfl, System.run_ofFun_iff.mpr rfl⟩, rfl,
      not_safe_of_kill (childExitsRun.take 6) [] ⟨_, rfl⟩ rfl (by simp)⟩
  · exact ⟨_, _, ⟨_, rfl, System.run_ofFun_iff.mpr rfl⟩, rfl,
      not_safe_of_kill (timeoutRun.take 5) [] ⟨_, rfl⟩ rfl (by simp)⟩

end HseDev.Sem21
