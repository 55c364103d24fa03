import HseDev.Sem21.ChildSafety

/-!
# HseDev — the result of `run` in `sem21/task20_5.c`

`run_timeout_handler` and the `waitpid` after it write the same two variables in one iteration
of the loop. What `run` returns is decided by the iteration that ends the loop.

* **`lastCall`** / **`TimedOut`** — what a trace says of the callback of an iteration.
* **`waitpid_child`** — `waitpid` reports the child of a pid if it has ended.
* **`GoesOn`** — an iteration that does not end the loop; **`Verdict`** — one that does.
* **`Phase`** — the runs after `fork`: all iterations so far have gone on, or the last one was a
  verdict.
* **`Concluded`** — a run that has returned, split at its verdict.
* **`result_code`** — the law of the runs that return.
-/

namespace HseDev.Sem21

open Transition

/-! ## Iterations

What the loop has seen is read off the trace: the last call, and whether the timer has expired in
this iteration. -/

/-- The exit of a child is not a call of `run`. -/
def Event.isCall : Event → Bool
  | .childExits _ _ => false
  | _ => true

def lastCall (as : List Event) : Option Event :=
  (as.filter Event.isCall).getLast?

/-- The callback of the iteration is the one of the timer, and the timer has expired. -/
def TimedOut (as : List Event) : Prop :=
  ∃ x, lastCall as = some (.timeoutRead (some x)) ∧ x ≠ 0

variable {as : List Event} {e : Event} {p : Nat} {s s' : State} {children : List Process}

/-- The last call is the one that was made last; exits of children are not calls. -/
theorem lastCall_call (he : e.isCall = true) : lastCall (as ++ [e]) = some e := by
  unfold lastCall
  rw [List.filter_append, List.filter_cons_of_pos he, List.filter_nil, List.getLast?_concat]

/-- An exit of a child in between changes nothing about the timer. -/
theorem timedOut_childExits {q : Nat} {status : ExitStatus} :
    TimedOut (as ++ [.childExits q status]) ↔ TimedOut as := by
  have hlast : lastCall (as ++ [.childExits q status]) = lastCall as := by
    unfold lastCall
    rw [List.filter_append, List.filter_cons_of_neg Bool.false_ne_true, List.filter_nil,
      List.append_nil]
  unfold TimedOut
  rw [hlast]

/-- A call that is no `read` of the timer begins another account. -/
theorem not_timedOut_call (he : e.isCall = true) (hread : ∀ x, e ≠ .timeoutRead x) :
    ¬ TimedOut (as ++ [e]) := by
  intro ⟨x, hlast, _⟩
  rw [lastCall_call he] at hlast
  exact hread _ (Option.some.inj hlast)

/-! ## The child

The one child of `run` among the children of the process, and what `waitpid` says of it. -/

/-- There is one child with the pid, in the given state. -/
def HasChild (children : List Process) (p : Nat) (status : Option ExitStatus) : Prop :=
  children.filter (fun c => c.pid = p) = [⟨p, status⟩]

/-- The child has one state at a time. -/
theorem HasChild.mem_iff {status status' : Option ExitStatus} (h : HasChild children p status) :
    ⟨p, status'⟩ ∈ children ↔ status' = status := by
  have hfilter : (⟨p, status'⟩ : Process) ∈ children.filter (fun c => c.pid = p)
      ↔ ⟨p, status'⟩ ∈ children := by simp [List.mem_filter]
  rw [← hfilter, h, List.mem_singleton, Process.mk.injEq]
  exact and_iff_right rfl

/-- A `fork` makes the child, running, under a new pid. -/
theorem hasChild_fork (hnew : ∀ c ∈ children, c.pid ≠ p) :
    HasChild (⟨p, none⟩ :: children) p none := by
  have hnone : children.filter (fun c => c.pid = p) = [] :=
    List.filter_eq_nil_iff.mpr fun c hc => by simpa using hnew c hc
  unfold HasChild
  show (⟨p, none⟩ :: children).filter _ = _
  rw [List.filter_cons, if_pos (decide_eq_true rfl), hnone]

/-- A child that ends keeps its pid. -/
theorem HasChild.exits {status : Option ExitStatus} (h : HasChild children p status) (q : Nat)
    (ended : ExitStatus) :
    ∃ status', HasChild (children.map fun c => if c.pid = q then ⟨q, some ended⟩ else c) p
      status' := by
  have hpid : ((fun c : Process => decide (c.pid = p)) ∘
      fun c => if c.pid = q then ⟨q, some ended⟩ else c) = fun c => decide (c.pid = p) := by
    funext c
    show decide ((if c.pid = q then (⟨q, some ended⟩ : Process) else c).pid = p) = _
    split
    · next hc => rw [hc]
    · rfl
  unfold HasChild
  rw [List.filter_map, hpid, h]
  by_cases hpq : p = q
  · refine ⟨some ended, ?_⟩
    rw [List.map_singleton, if_pos hpq, hpq]
  · refine ⟨status, ?_⟩
    rw [List.map_singleton, if_neg hpq]

/-- **`waitpid` is faithful**: it reports the child if it has ended, and nothing if it runs. -/
theorem waitpid_child {status : Option ExitStatus} (h : HasChild children p status) :
    waitpid children p = match status with
      | some _ => ((p : Int), status, children.erase ⟨p, status⟩)
      | none => (0, none, children) := by
  have hcandidates : children.filter (fun c => (p : Int) = -1 ∨ (c.pid : Int) = p)
      = [⟨p, status⟩] := by
    rw [← h]
    apply List.filter_congr
    intro c _
    exact decide_eq_decide.mpr (by omega)
  unfold waitpid
  simp only [hcandidates]
  cases status <;> rfl

/-! ## The iterations of a run

An iteration goes on or gives its verdict. A return code is never that of a timeout by itself, so
the two ways to end do not get mixed up. -/

/-- The exit of a child is never reported as a timeout. -/
theorem returnCodeOf_ne (st : ExitStatus) : returnCodeOf st ≠ -2 := by
  cases st with
  | exited code =>
    show (code : Int) ≠ -2
    omega
  | signaled signal => exact (by decide : (-3 : Int) ≠ -2)

/-- The iteration does not end the loop. -/
def GoesOn (p : Nat) (pre : List Event) (e : Event) : Prop :=
  ∀ result childStatus, e = .waitpid result childStatus → result ≠ p ∧ ¬ TimedOut pre

/-- The iteration ends the loop with a return code. -/
inductive Verdict (p : Nat) (pre : List Event) : Int → ExitStatus → Int → Prop where
  | reported (childStatus : ExitStatus) : Verdict p pre p childStatus (returnCodeOf childStatus)
  | timedOut (childStatus : ExitStatus) (h : TimedOut pre) : Verdict p pre 0 childStatus (-2)

/-- The loop goes on with the child of pid `p`. -/
structure Watching (p : Nat) (as : List Event) (s : State) : Prop where
  pos : 0 < p
  pid : s.pid = p
  child : ∃ status, HasChild s.children p status
  goesOn : Throughout (GoesOn p) as

/-- **The runs after `fork`.** -/
inductive Phase (p : Nat) (as : List Event) (s : State) : Prop where
  | looping (hpc : s.pc = .epollWait ∨ ∃ handler, s.pc = .callback handler)
      (hfin : s.isFinished = false) (hwatch : Watching p as s)
  | polling (hpc : s.pc = .waitpid) (hfin : s.isFinished = true ↔ TimedOut as)
      (hcode : TimedOut as → s.returnCode = -2) (hwatch : Watching p as s)
  | ended (pre : List Event) (result : Int) (childStatus : ExitStatus) (post : List Event)
      (hpos : 0 < p) (hpc : s.pc = .kill ∨ s.pc = .returned s.returnCode)
      (has : as = pre ++ .waitpid result childStatus :: post)
      (hpre : Throughout (GoesOn p) pre) (hpost : ∀ result st, .waitpid result st ∉ post)
      (hverdict : Verdict p pre result childStatus s.returnCode)

theorem goesOn_of_not_waitpid {pre : List Event} (he : ∀ result st, e ≠ .waitpid result st) :
    GoesOn p pre e := by
  intro result st heq
  exact absurd heq (he result st)

/-- A step that is no `waitpid` and leaves the pid alone. -/
theorem Watching.snoc (h : Watching p as s) (he : ∀ result st, e ≠ .waitpid result st)
    (hpid : s'.pid = s.pid) (hchild : ∃ status, HasChild s'.children p status) :
    Watching p (as ++ [e]) s' :=
  ⟨h.pos, hpid.trans h.pid, hchild,
    throughout_snoc.mpr ⟨h.goesOn, goesOn_of_not_waitpid he⟩⟩

/-- The handler of the timer, as the trace tells it. -/
theorem runTimeoutHandler_spec (as : List Event) (s : State) (x : Option UInt64)
    (hfin : s.isFinished = false) :
    ((runTimeoutHandler s x).isFinished = true ↔ TimedOut (as ++ [.timeoutRead x]))
      ∧ (TimedOut (as ++ [.timeoutRead x]) → (runTimeoutHandler s x).returnCode = -2) := by
  have hlast : lastCall (as ++ [.timeoutRead x]) = some (.timeoutRead x) := lastCall_call rfl
  unfold TimedOut
  rw [hlast]
  unfold runTimeoutHandler
  cases x with
  | none => simp [hfin]
  | some x =>
    by_cases hx : x = 0 <;> simp [hx, hfin]

/-- The `waitpid` of an iteration ends the loop or goes on with it. -/
theorem waitpid_step {result : Int} {childStatus : ExitStatus} {reported : Option ExitStatus}
    {children' : List Process} (hfin : s.isFinished = true ↔ TimedOut as)
    (hcode : TimedOut as → s.returnCode = -2) (hwatch : Watching p as s)
    (hwait : waitpid s.children s.pid = (result, reported, children')) :
    Phase p (as ++ [.waitpid result childStatus])
      (if result = s.pid then
        { s with children := children', returnCode := returnCodeOf childStatus,
                 isFinished := true }.loopTest
      else { s with children := children' }.loopTest) := by
  obtain ⟨status, hchild⟩ := hwatch.child
  have hpid := hwatch.pid
  have hpos := hwatch.pos
  rw [hpid, waitpid_child hchild] at hwait
  cases status with
  | some ended =>
    -- the report overwrites what the handler of the timer has written
    cases hwait
    rw [if_pos hpid.symm]
    exact .ended as p childStatus [] hpos (Or.inl rfl) rfl hwatch.goesOn (by simp)
      (.reported childStatus)
  | none =>
    cases hwait
    have hne : (0 : Int) ≠ p := by omega
    rw [if_neg (hpid ▸ hne)]
    show Phase p _ s.loopTest
    by_cases htimedOut : TimedOut as
    · have hverdict : Verdict p as 0 childStatus s.returnCode := by
        rw [hcode htimedOut]
        exact .timedOut childStatus htimedOut
      rw [loopTest_finished (hfin.mpr htimedOut)]
      exact .ended as 0 childStatus [] hpos (Or.inl rfl) rfl hwatch.goesOn (by simp) hverdict
    · have hrunning : s.isFinished = false := by
        rw [← Bool.not_eq_true, hfin]
        exact htimedOut
      have hgoesOn : GoesOn p as (.waitpid 0 childStatus) := by
        intro result st heq
        cases heq
        exact ⟨hne, htimedOut⟩
      rw [loopTest_running hrunning]
      exact .looping (Or.inl rfl) hrunning ⟨hpos, hpid, ⟨none, hchild⟩,
        throughout_snoc.mpr ⟨hwatch.goesOn, hgoesOn⟩⟩

/-- A step up to the end of the callback. -/
theorem phase_looping_step (hpc : s.pc = .epollWait ∨ ∃ handler, s.pc = .callback handler)
    (hfin : s.isFinished = false) (hwatch : Watching p as s) (hturn : Turn s e s') :
    Phase p (as ++ [e]) s' := by
  cases hturn with
  | setup hat | setupFails _ hat | forkFails hat | fork _ hat | waitpid _ _ _ _ hat | kill hat =>
    rw [hat] at hpc
    simp at hpc
  | notReady _ =>
    -- `continue`: no `waitpid` in this iteration
    rw [loopTest_running hfin]
    exact .looping (Or.inl rfl) hfin (hwatch.snoc (by simp) rfl hwatch.child)
  | ready handler _ =>
    exact .looping (Or.inr ⟨handler, rfl⟩) hfin (hwatch.snoc (by simp) rfl hwatch.child)
  | input res s₁ _ hhandler =>
    obtain ⟨hpid, hfin', hchildren⟩ := runInputWriterHandler_frame hhandler
    have hnot : ¬ TimedOut (as ++ [.inputWriter res]) := not_timedOut_call rfl (by simp)
    refine .polling rfl ?_ (fun hyes => absurd hyes hnot)
      (hwatch.snoc (by simp) hpid (hchildren ▸ hwatch.child))
    show s₁.isFinished = true ↔ _
    rw [hfin', hfin]
    simp [hnot]
  | timeout x _ =>
    obtain ⟨hfin', hcode⟩ := runTimeoutHandler_spec as s x hfin
    obtain ⟨_, _, hframe⟩ := runTimeoutHandler_frame s x
    refine .polling rfl hfin' hcode (hwatch.snoc (by simp) ?_ ?_)
    · rw [hframe]
    · rw [hframe]
      exact hwatch.child
  | exits q status _ =>
    obtain ⟨_, hchild⟩ := hwatch.child
    exact .looping hpc hfin (hwatch.snoc (by simp) rfl (hchild.exits q status))

/-- A step of the `waitpid` at the end of an iteration. -/
theorem phase_polling_step (hpc : s.pc = .waitpid) (hfin : s.isFinished = true ↔ TimedOut as)
    (hcode : TimedOut as → s.returnCode = -2) (hwatch : Watching p as s) (hturn : Turn s e s') :
    Phase p (as ++ [e]) s' := by
  cases hturn with
  | setup hat | setupFails _ hat | forkFails hat | fork _ hat | notReady hat | ready _ hat
  | input _ _ hat | timeout _ hat | kill hat =>
    rw [hat] at hpc
    cases hpc
  | waitpid _ _ _ _ _ hwait _ => exact waitpid_step hfin hcode hwatch hwait
  | exits q status _ =>
    -- the child may end between the callback and the `waitpid`
    obtain ⟨_, hchild⟩ := hwatch.child
    exact .polling hpc (hfin.trans timedOut_childExits.symm)
      (fun h => hcode (timedOut_childExits.mp h))
      (hwatch.snoc (by simp) rfl (hchild.exits q status))

theorem phase_ended_step {pre post : List Event} {result : Int} {childStatus : ExitStatus}
    (hpos : 0 < p) (hpc : s.pc = .kill ∨ s.pc = .returned s.returnCode)
    (has : as = pre ++ .waitpid result childStatus :: post) (hpre : Throughout (GoesOn p) pre)
    (hpost : ∀ result st, .waitpid result st ∉ post)
    (hverdict : Verdict p pre result childStatus s.returnCode) (hturn : Turn s e s') :
    Phase p (as ++ [e]) s' := by
  have hsplit : as ++ [e] = pre ++ .waitpid result childStatus :: (post ++ [e]) := by
    rw [has, List.append_assoc, List.cons_append]
  cases hturn with
  | setup hat | setupFails _ hat | forkFails hat | fork _ hat | notReady hat | ready _ hat
  | input _ _ hat | timeout _ hat | waitpid _ _ _ _ hat =>
    rw [hat] at hpc
    simp at hpc
  | kill _ =>
    exact .ended pre result childStatus _ hpos (Or.inr rfl) hsplit hpre
      (fun r st => List.not_mem_append (hpost r st) (by simp)) hverdict
  | exits _ _ _ =>
    exact .ended pre result childStatus _ hpos hpc hsplit hpre
      (fun r st => List.not_mem_append (hpost r st) (by simp)) hverdict

/-- Every step leads from a phase to a phase. -/
theorem Phase.step (h : Phase p as s) (hstep : step s e = some s') : Phase p (as ++ [e]) s' := by
  have hturn := step_turn hstep
  cases h with
  | looping hpc hfin hwatch => exact phase_looping_step hpc hfin hwatch hturn
  | polling hpc hfin hcode hwatch => exact phase_polling_step hpc hfin hcode hwatch hturn
  | ended pre result childStatus post hpos hpc has hpre hpost hverdict =>
    exact phase_ended_step hpos hpc has hpre hpost hverdict hturn

/-- At `fork` nothing has been forked, and nobody has been waited for. -/
theorem quiet_of_fork {input : List UInt8} (hexec : (program input children).Exec as s)
    (hpc : s.pc = .fork) : Quiet as := by
  cases exec_stage hexec with
  | before _ hquiet _ => exact hquiet
  | failed _ hat =>
    rw [hat] at hpc
    cases hpc
  | looping hat =>
    rw [hpc] at hat
    exact hat.elim
  | done _ _ hat =>
    obtain ⟨code, hat⟩ := hat
    rw [hat] at hpc
    cases hpc

/-- A run that has not got past `fork` has not ended an iteration. -/
theorem Quiet.throughout (h : Quiet as) : Throughout (GoesOn p) as := by
  intro pre e post has result st heq
  have hmem : Event.waitpid result st ∈ as := by
    rw [has, heq]
    exact List.mem_append_right _ (List.mem_cons_self ..)
  exact absurd hmem (h.no_waitpid result st)

/-- The set-up and `fork` are in front of the loop. -/
theorem not_inLoop {pc : Pc} (h : pc = .setup ∨ pc = .fork) : ¬ pc.InLoop := by
  rcases h with rfl | rfl <;> exact id

/-- What is known of a run: up to `fork` that `is_finished` is unset, from then on its phase. -/
structure Known (as : List Event) (s : State) : Prop where
  unfinished : s.pc = .setup ∨ s.pc = .fork → s.isFinished = false
  phase : ∀ p, .fork (some p) ∈ as → Phase p as s

/-- What is known of a run is known after one more step. -/
theorem Known.step {input : List UInt8} (hexec : (program input children).Exec as s)
    (h : Known as s) (hstep : step s e = some s') : Known (as ++ [e]) s' := by
  have hphase : ∀ p, .fork (some p) ∈ as → Phase p (as ++ [e]) s' :=
    fun p hmem => (h.phase p hmem).step hstep
  have hlater : (∀ p, e ≠ .fork (some p)) → ∀ p, .fork (some p) ∈ as ++ [e] →
      Phase p (as ++ [e]) s' := by
    intro he p hmem
    rcases List.mem_append.mp hmem with hold | hnew
    · exact hphase p hold
    · exact absurd (List.mem_singleton.mp hnew).symm (he p)
  cases step_turn hstep with
  | setup hpc => exact ⟨fun _ => h.unfinished (Or.inl hpc), hlater (by simp)⟩
  | forkFails _ =>
    exact ⟨fun hat => absurd (loopTest_inLoop _) (not_inLoop hat), hlater (by simp)⟩
  | fork q hpc hpos hnew =>
    -- this is the only `fork` of the run
    have hquiet := quiet_of_fork hexec hpc
    have hfin := h.unfinished (Or.inr hpc)
    rw [loopTest_running (s := { s with pid := q, children := ⟨q, none⟩ :: s.children }) hfin]
    refine ⟨fun _ => hfin, fun p hmem => ?_⟩
    rcases List.mem_append.mp hmem with hold | hnow
    · exact absurd hold (hquiet.no_fork _)
    · cases List.mem_singleton.mp hnow
      exact .looping (Or.inl rfl) hfin ⟨hpos, rfl, ⟨none, hasChild_fork hnew⟩,
        throughout_snoc.mpr ⟨hquiet.throughout, goesOn_of_not_waitpid (by simp)⟩⟩
  | notReady hpc =>
    exact ⟨fun hat => absurd (loopTest_inLoop s) (not_inLoop hat), hlater (by simp)⟩
  | setupFails | ready | input | timeout | kill => exact ⟨by simp, hlater (by simp)⟩
  | waitpid result _ _ _ hpc _ _ =>
    refine ⟨fun hat => ?_, hlater (by simp)⟩
    split at hat
    · exact absurd (loopTest_inLoop _) (not_inLoop hat)
    · exact absurd (loopTest_inLoop _) (not_inLoop hat)
  | exits => exact ⟨h.unfinished, hlater (by simp)⟩

/-- So it is known after every run. -/
theorem exec_known {input : List UInt8} (h : (program input children).Exec as s) :
    Known as s := by
  refine System.exec_induction (P := Known) ?_ ?_ h
  · rintro _ rfl
    exact ⟨fun _ => rfl, by simp⟩
  · intro as s e s' hexec hknown hstep
    exact hknown.step hexec hstep

/-! ## The law of a run

The return code of a run is the verdict of its last iteration. -/

variable {input : List UInt8} {pre post : List Event} {result : Int} {childStatus : ExitStatus}

/-- `run` is not in its loop before `fork`. -/
theorem fork_mem_of_inLoop (he : e.InLoop)
    (hexec : (program input children).Exec (pre ++ e :: post) s)
    (hfork : .fork (some p) ∈ pre ++ e :: post) : .fork (some p) ∈ pre := by
  rcases List.mem_append.mp hfork with hbefore | hlater
  · exact hbefore
  · rcases List.mem_cons.mp hlater with heq | hmem
    · rw [← heq] at he
      exact he.elim
    · -- a `fork` after a call of the loop would find a trace that is not quiet
      obtain ⟨mid, rest, rfl⟩ := List.append_of_mem hmem
      have hsplit : pre ++ e :: (mid ++ .fork (some p) :: rest)
          = (pre ++ e :: mid) ++ .fork (some p) :: rest := by simp
      rw [hsplit] at hexec
      obtain ⟨t, _, hbefore, hstep, _⟩ := hexec.split_at rest
      have hpc : t.pc = .fork := by
        cases step_turn hstep with
        | fork _ hpc _ _ => exact hpc
      rcases quiet_of_fork hbefore hpc e (by simp) with houtside | ⟨failed, rfl⟩
      · cases e <;> first | exact houtside.elim | exact he.elim
      · exact he.elim

/-- **One iteration**: its `waitpid` reports the child if it has ended, and nothing if it
runs. -/
theorem iteration
    (hexec : (program input children).Exec (pre ++ .waitpid result childStatus :: post) s)
    (hfork : .fork (some p) ∈ pre ++ .waitpid result childStatus :: post) :
    ∃ t status, (program input children).Exec pre t ∧ HasChild t.children p status
      ∧ (status = some childStatus ∧ result = p ∨ status = none ∧ result = 0) := by
  obtain ⟨t, _, hbefore, hstep, _⟩ := hexec.split_at post
  have hphase := (exec_known hbefore).phase p
    (fork_mem_of_inLoop (e := .waitpid _ _) trivial hexec hfork)
  cases step_turn hstep with
  | waitpid _ _ _ _ hpc hwait hreported =>
    cases hphase with
    | looping hat =>
      rw [hpc] at hat
      simp at hat
    | ended _ _ _ _ _ hat =>
      rw [hpc] at hat
      simp at hat
    | polling _ _ _ hwatch =>
      obtain ⟨status, hchild⟩ := hwatch.child
      refine ⟨t, status, hbefore, hchild, ?_⟩
      rw [hwatch.pid, waitpid_child hchild] at hwait
      cases status with
      | none =>
        cases hwait
        exact Or.inr ⟨rfl, rfl⟩
      | some ended =>
        cases hwait
        rcases hreported with hnone | hsome
        · cases hnone
        · exact Or.inl ⟨hsome, rfl⟩

/-- A run that has returned, and the iteration that has ended its loop. -/
structure Concluded (p : Nat) (code : Int) (pre : List Event) (result : Int)
    (childStatus : ExitStatus) (post : List Event) : Prop where
  pos : 0 < p
  before : Throughout (GoesOn p) pre
  after : ∀ r st, .waitpid r st ∉ post
  verdict : Verdict p pre result childStatus code

/-- A run that has returned has a last `waitpid`, and that has concluded it. -/
theorem exists_concluded {code : Int} (h : (program input children).Exec as s)
    (hfork : .fork (some p) ∈ as) (hret : s.pc = .returned code) :
    ∃ pre result childStatus post, as = pre ++ .waitpid result childStatus :: post
      ∧ Concluded p code pre result childStatus post := by
  cases (exec_known h).phase p hfork with
  | looping hpc =>
    rw [hret] at hpc
    simp at hpc
  | polling hpc =>
    rw [hret] at hpc
    cases hpc
  | ended pre result childStatus post hpos hpc has hpre hpost hverdict =>
    have hcode : s.returnCode = code := by
      rcases hpc with hpc | hpc <;> rw [hret] at hpc <;> cases hpc
      rfl
    rw [hcode] at hverdict
    exact ⟨pre, result, childStatus, post, has, hpos, hpre, hpost, hverdict⟩

variable {code : Int} {result' : Int} {childStatus' : ExitStatus} {pre' post' : List Event}

/-- A `waitpid` of the run is the one of the verdict or belongs to an iteration that has gone
on. -/
theorem Concluded.same_or_goesOn (h : Concluded p code pre result childStatus post)
    (hsplit : pre ++ .waitpid result childStatus :: post
      = pre' ++ .waitpid result' childStatus' :: post') :
    (pre' = pre ∧ result' = result ∧ childStatus' = childStatus)
      ∨ (result' ≠ p ∧ ¬ TimedOut pre') := by
  rcases List.append_eq_append_iff.mp hsplit with ⟨mid, rfl, hmid⟩ | ⟨mid, rfl, hmid⟩
  · cases mid with
    | nil =>
      cases hmid
      exact Or.inl ⟨by simp, rfl, rfl⟩
    | cons e mid =>
      -- it would come after the verdict
      cases hmid
      exact absurd (List.mem_append_right mid (List.mem_cons_self ..)) (h.after _ _)
  · cases mid with
    | nil =>
      cases hmid
      exact Or.inl ⟨by simp, rfl, rfl⟩
    | cons e mid =>
      cases hmid
      exact Or.inr (h.before pre' _ mid rfl _ _ rfl)

theorem Concluded.of_report (h : Concluded p code pre result childStatus post)
    (hsplit : pre ++ .waitpid result childStatus :: post
      = pre' ++ .waitpid p childStatus' :: post') : code = returnCodeOf childStatus' := by
  have hpos := h.pos
  rcases h.same_or_goesOn hsplit with ⟨_, hresult, rfl⟩ | ⟨hne, _⟩
  · cases h.verdict with
    | reported => rfl
    | timedOut => omega
  · exact absurd rfl hne

/-- The expired timer decides, if there is no report of the child in its iteration. -/
theorem Concluded.of_timedOut (h : Concluded p code pre result childStatus post)
    (hsplit : pre ++ .waitpid result childStatus :: post
      = pre' ++ .waitpid 0 childStatus' :: post') (htimedOut : TimedOut pre') : code = -2 := by
  have hpos := h.pos
  rcases h.same_or_goesOn hsplit with ⟨_, hresult, _⟩ | ⟨_, hnot⟩
  · cases h.verdict with
    | reported => omega
    | timedOut => rfl
  · exact absurd htimedOut hnot

/-- **The result of `run`.** After a successful `fork` it is the exit status that `waitpid` has
reported, `-3` for a death by a signal, and `-2` exactly if the timer has ended the loop in an
iteration whose `waitpid` found the child running. A child that has ended is reported in every
iteration, also if the timer has expired in it. -/
theorem result_code (input : List UInt8) (children : List Process) (as : List Event) (s : State)
    (h : (program input children).Exec as s) (p : Nat) (hfork : .fork (some p) ∈ as)
    (code : Int) (hret : s.pc = .returned code) :
    (∀ pre (n : Nat) post, as = pre ++ .waitpid p (.exited n) :: post → code = n)
      ∧ (∀ pre (n : Nat) post, as = pre ++ .waitpid p (.signaled n) :: post → code = -3)
      ∧ (code = -2 ↔ ∃ pre st post t, as = pre ++ .waitpid 0 st :: post
          ∧ (program input children).Exec pre t ∧ TimedOut pre ∧ ⟨p, none⟩ ∈ t.children)
      ∧ (code = -2 ∨ ∃ pre st post, as = pre ++ .waitpid p st :: post)
      ∧ ∀ pre (result : Int) st post, as = pre ++ .waitpid result st :: post →
          ∃ t, (program input children).Exec pre t
            ∧ ∀ status, ⟨p, some status⟩ ∈ t.children → result = p ∧ st = status := by
  obtain ⟨pre, result, st, post, rfl, hconcluded⟩ := exists_concluded h hfork hret
  have hpos := hconcluded.pos
  refine ⟨fun _ _ _ => hconcluded.of_report, fun _ _ _ => hconcluded.of_report, ⟨?_, ?_⟩, ?_, ?_⟩
  · -- `-2` is returned by the timer only, and then `waitpid` has found the child running
    intro htimer
    obtain ⟨t, status, hexec, hchild, hfound⟩ := iteration h hfork
    cases hconcluded.verdict with
    | reported => exact absurd htimer (returnCodeOf_ne st)
    | timedOut _ htimedOut =>
      rcases hfound with ⟨_, hzero⟩ | ⟨rfl, _⟩
      · omega
      · exact ⟨pre, st, post, t, rfl, hexec, htimedOut, hchild.mem_iff.mpr rfl⟩
  · intro ⟨pre', st', post', t, hsplit, _, htimedOut, _⟩
    exact hconcluded.of_timedOut hsplit htimedOut
  · cases hconcluded.verdict with
    | reported => exact Or.inr ⟨pre, st, post, rfl⟩
    | timedOut => exact Or.inl rfl
  · intro pre' result' st' post' hsplit
    -- every iteration asks for the child, so nothing that has ended is overlooked
    rw [hsplit] at h hfork
    obtain ⟨t, status, hexec, hchild, hfound⟩ := iteration h hfork
    refine ⟨t, hexec, fun ended hmem => ?_⟩
    have hstatus := hchild.mem_iff.mp hmem
    rcases hfound with ⟨rfl, hresult⟩ | ⟨rfl, _⟩
    · exact ⟨hresult, (Option.some.inj hstatus).symm⟩
    · cases hstatus

/-- The child exits with `3` in the iteration in which the timer expires. -/
theorem result_code_three : ∃ as s, (program [] []).Exec as s ∧ TimedOut (as.take 5)
    ∧ s.pc = .returned 3
    ∧ ∀ pre (n : Nat) post, as = pre ++ .waitpid 7 (.exited n) :: post → (3 : Int) = n := by
  obtain ⟨as, s, hexec, htimedOut, hfork, hret⟩ : ∃ as s, (program [] []).Exec as s
      ∧ TimedOut (as.take 5) ∧ .fork (some 7) ∈ as ∧ s.pc = .returned 3 :=
    ⟨[.setup none, .fork (some 7), .epollWait (some .timeout), .timeoutRead (some 1),
      .childExits 7 (.exited 3), .waitpid 7 (.exited 3), .kill 7], _,
      ⟨_, rfl, System.run_ofFun_iff.mpr rfl⟩, ⟨1, rfl, by decide⟩, by simp, rfl⟩
  exact ⟨as, s, hexec, htimedOut, hret, (result_code [] [] as s hexec 7 hfork 3 hret).1⟩

end HseDev.Sem21
