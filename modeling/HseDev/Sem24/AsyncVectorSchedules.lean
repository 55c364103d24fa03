import HseDev.Sem24.AsyncVectorInvariant

/-!
# HseDev — schedules of `async_vector`

Runs that exist, whatever the function and the elements are. They are put together from the steps
of single threads, each of which changes its own place and at most one word of `output`.

* **`exists_loads`** — a thread loads words of its element that are as it is to see them.
* **`exists_finish`** / **`exists_completed`** — a thread can always come to its end alone, and
  so can all of them, one after the other.
* **`Settled`** — the slot of a thread has got a value that the other threads leave there.
* **`run_torn`** — the words of a copy can be any that the element has in the run.
* **`run_lost`** — a result can be overwritten by a thread that has loaded its word before.
-/

namespace HseDev.Sem24

open Tally Transition

variable {k : Nat} {γ β : Type*} {T : Template} {f : Object k γ → β} {ins : List (Object k γ)}
  {assigns : List (Nat × Object k γ)} {n i j : Nat} {s s' : State k γ β} {a : Actor k}
  {as : List (Actor k)} {x y : Object k γ}

/-- `async_vector` has returned and every thread it launched has finished. -/
def Completed (s : State k γ β) : Prop :=
  s.main = .returned ∧ ∀ i, s.worker i = .absent ∨ s.worker i = .finished

/-! ## Steps of threads

A thread leaves the call, the caller's vector and the other threads as they are. So what holds of
those still holds when it has run for a while. -/

/-- The steps of the thread of index `i`. -/
def Actor.IsThread (i : Nat) : Actor k → Prop
  | .load j _ | .worker j => j = i
  | .main | .caller => False

/-- The steps of any thread. -/
def Actor.IsWorker (a : Actor k) : Prop :=
  ∃ i, a.IsThread i

/-- What a step of one thread leaves alone: the call, the caller's vector, what the caller still has
to do, and the other threads. -/
theorem Turn.worker_frame (h : Turn T f s a s') (ha : a.IsThread i) :
    s'.main = s.main ∧ s'.ins = s.ins ∧ s'.todo = s.todo ∧
      ∀ j, j ≠ i → s'.worker j = s.worker j := by
  cases h with
  | launch | returns | assign => exact ha.elim
  | load | copied | store | write | count | callback =>
    have hi : _ = i := ha
    subst hi
    exact ⟨rfl, rfl, rfl, fun j hj => setWorker_ne _ hj⟩

theorem setWorker_eq_self {pc : WorkerPc k γ β} (h : s.worker i = pc) : s.setWorker i pc = s := by
  unfold State.setWorker
  rw [← h, Function.update_eq_self]

section Threads

variable [Inhabited β]

/-- A step, as a run of the call. -/
theorem Turn.run (h : Turn T f s a s') : (program T f ins assigns).Run s [a] s' :=
  System.Run.single h.step_eq

/-- What every step of the kind keeps is kept by a run of them. -/
theorem run_keeps {P : State k γ β → Prop} {Q : Actor k → Prop}
    (hkeep : ∀ t a t', Q a → P t → Turn T f t a t' → P t')
    (hrun : (program T f ins assigns).Run s as s') (has : ∀ a ∈ as, Q a) (h : P s) : P s' := by
  induction hrun with
  | refl => exact h
  | snoc _ hstep ih =>
    have hbefore := ih fun a ha => has a (List.mem_append_left _ ha)
    exact hkeep _ _ _ (has _ (List.mem_append_right _ (List.mem_singleton_self _))) hbefore
      (step_turn hstep)

theorem run_frame (hrun : (program T f ins assigns).Run s as s') (has : ∀ a ∈ as, a.IsThread i) :
    s'.main = s.main ∧ s'.ins = s.ins ∧ s'.todo = s.todo ∧
      ∀ j, j ≠ i → s'.worker j = s.worker j := by
  refine run_keeps (P := fun t => t.main = s.main ∧ t.ins = s.ins ∧ t.todo = s.todo ∧
    ∀ j, j ≠ i → t.worker j = s.worker j) (fun t a t' ha h hturn => ?_) hrun has
    ⟨rfl, rfl, rfl, fun _ _ => rfl⟩
  obtain ⟨hmain, hins, htodo, hothers⟩ := hturn.worker_frame ha
  exact ⟨hmain.trans h.1, hins.trans h.2.1, htodo.trans h.2.2.1,
    fun j hj => (hothers j hj).trans (h.2.2.2 j hj)⟩

/-- The counting is an invariant of any run, from any state in which it holds. -/
theorem run_control (hrun : (program T f ins assigns).Run s as s') (h : Control n s) :
    Control n s' :=
  run_keeps (Q := fun _ => True) (fun _ _ _ _ h hturn => h.step hturn.step_eq) hrun
    (fun _ _ => trivial) h

/-! ## Copies

A thread can load the words of its element in any order and with anything in between. Here it
loads some of them and stops, or all that are missing. -/

/-- The words that have been loaded are those of `y`. -/
def Loading (y : Object k γ) (read : Fin k → Option γ) : Prop :=
  ∀ w c, read w = some c → c = y w

variable (T f ins assigns)

/-- Words of the element that are those of `y` now are loaded. Induction on the words. -/
theorem exists_loads {read : Fin k → Option γ} (hpc : s.worker i = .copy read)
    (hget : s.ins[i]? = some x) (hread : Loading y read) (ws : List (Fin k))
    (hws : ∀ w ∈ ws, read w = none → x w = y w) :
    ∃ as read', (program T f ins assigns).Run s as (s.setWorker i (.copy read')) ∧
      (∀ a ∈ as, a.IsThread i) ∧ Loading y read' ∧
      ∀ w, read w = some (y w) ∨ w ∈ ws → read' w = some (y w) := by
  induction ws with
  | nil =>
    refine ⟨[], read, ?_, fun _ ha => absurd ha List.not_mem_nil, hread,
      fun w hw => hw.resolve_right List.not_mem_nil⟩
    rw [setWorker_eq_self hpc]
    exact .refl
  | cons w ws ih =>
    obtain ⟨as, read', hrun, has, hread', hloaded⟩ :=
      ih fun v hv => hws v (List.mem_cons_of_mem w hv)
    cases hnew : read' w with
    | some c =>
      -- the word has been loaded before
      refine ⟨as, read', hrun, has, hread', fun v hv => ?_⟩
      by_cases hvw : v = w
      · rw [hvw, hnew, hread' w c hnew]
      · exact hloaded v (hv.imp id fun hmem => (List.mem_cons.mp hmem).resolve_left hvw)
    | none =>
      have hold : read w = none := by
        cases hold : read w with
        | none => rfl
        | some c =>
          rw [hloaded w (Or.inl (by rw [hold, hread w c hold]))] at hnew
          cases hnew
      have hword : x w = y w := hws w List.mem_cons_self hold
      have hturn : Turn T f (s.setWorker i (.copy read')) (.load i w) _ :=
        .load i w read' x (setWorker_self _) hget hnew
      rw [setWorker_setWorker, hword] at hturn
      refine ⟨_, _, hrun.trans hturn.run, fun a ha => ?_, fun v c hv => ?_, fun v hv => ?_⟩
      · rcases List.mem_append.mp ha with ha | ha
        · exact has a ha
        · rw [List.mem_singleton.mp ha]
          exact rfl
      · by_cases hvw : v = w
        · subst hvw
          rw [Function.update_self] at hv
          exact (Option.some.inj hv).symm
        · rw [Function.update_of_ne hvw] at hv
          exact hread' v c hv
      · by_cases hvw : v = w
        · rw [hvw, Function.update_self]
        · rw [Function.update_of_ne hvw]
          exact hloaded v (hv.imp id fun hmem => (List.mem_cons.mp hmem).resolve_left hvw)

/-- A thread that has loaded some words of `y` loads the others and has its argument, if the
element is as `y` there. -/
theorem exists_copied {read : Fin k → Option γ} (hpc : s.worker i = .copy read)
    (hget : s.ins[i]? = some x) (hread : Loading y read)
    (hrest : ∀ w, read w = none → x w = y w) :
    ∃ as, (program T f ins assigns).Run s as (s.setWorker i (.store y)) ∧
      ∀ a ∈ as, a.IsThread i := by
  obtain ⟨as, read', hrun, has, -, hloaded⟩ :=
    exists_loads T f ins assigns hpc hget hread
      (List.finRange k) fun w _ => hrest w
  have hturn : Turn T f (s.setWorker i (.copy read')) (.worker i) _ :=
    .copied i read' y (setWorker_self _) fun w => hloaded w (Or.inr (List.mem_finRange w))
  rw [setWorker_setWorker] at hturn
  refine ⟨_, hrun.trans hturn.run, fun a ha => ?_⟩
  rcases List.mem_append.mp ha with ha | ha
  · exact has a ha
  · rw [List.mem_singleton.mp ha]
    exact rfl

/-- A thread that has just been launched gets the element as it is. -/
theorem exists_argument (hpc : s.worker i = T.entry x) (hget : s.ins[i]? = some x) :
    ∃ as, (program T f ins assigns).Run s as (s.setWorker i (.store x)) ∧
      ∀ a ∈ as, a.IsThread i := by
  unfold Template.entry at hpc
  cases hvalue : T.byValue with
  | true =>
    rw [hvalue, if_pos rfl] at hpc
    refine ⟨[], ?_, fun _ ha => absurd ha List.not_mem_nil⟩
    rw [setWorker_eq_self hpc]
    exact .refl
  | false =>
    rw [hvalue, if_neg Bool.false_ne_true] at hpc
    exact exists_copied T f ins assigns hpc hget (fun _ _ hc => nomatch hc) fun _ _ => rfl

variable {T f ins assigns}

/-! ## To the end

Every thread that has been launched can run alone to its end, from wherever it is. So every state
can be completed, and what is wrong in it for good is wrong in the end. -/

/-- Thread `i`, running alone, comes to its end. -/
def Finishes (T : Template) (f : Object k γ → β) (ins : List (Object k γ))
    (assigns : List (Nat × Object k γ)) (i : Nat) (s : State k γ β) : Prop :=
  ∃ as s', (program T f ins assigns).Run s as s' ∧ (∀ a ∈ as, a.IsThread i) ∧
    s'.worker i = .finished

theorem Finishes.prepend (hrun : (program T f ins assigns).Run s as s')
    (has : ∀ a ∈ as, a.IsThread i) (h : Finishes T f ins assigns i s') :
    Finishes T f ins assigns i s := by
  obtain ⟨bs, s'', hrest, hbs, hfinished⟩ := h
  refine ⟨as ++ bs, s'', hrun.trans hrest, fun a ha => ?_, hfinished⟩
  exact (List.mem_append.mp ha).elim (has a) (hbs a)

theorem Finishes.step (hturn : Turn T f s (.worker i) s') (h : Finishes T f ins assigns i s') :
    Finishes T f ins assigns i s := by
  refine h.prepend hturn.run fun a ha => ?_
  rw [List.mem_singleton.mp ha]
  exact rfl

theorem finishes_of_finished (hpc : s.worker i = .finished) : Finishes T f ins assigns i s :=
  ⟨[], s, .refl, fun _ ha => absurd ha List.not_mem_nil, hpc⟩

/-- From the increment it is one step or two, by whether it is the last. -/
theorem finishes_of_count (hpc : s.worker i = .count) : Finishes T f ins assigns i s := by
  refine .step (.count i hpc) ?_
  by_cases hlast : s.completeCount + 1 = s.requiredCount
  · rw [if_pos hlast]
    exact .step (.callback i (setWorker_self _)) (finishes_of_finished (setWorker_self _))
  · rw [if_neg hlast]
    exact finishes_of_finished (setWorker_self _)

/-- From the computed result it is one step more, to the write. -/
theorem finishes_of_store {arg : Object k γ} (hpc : s.worker i = .store arg) :
    Finishes T f ins assigns i s :=
  .step (.store i arg hpc) (.step (.write i _ _ (setWorker_self _))
    (finishes_of_count (setWorker_self _)))

variable (T f ins assigns)

/-- **A thread comes to its end**, from wherever it is. -/
theorem exists_finish (hcontrol : Control n s) (hi : s.worker i ≠ .absent) :
    Finishes T f ins assigns i s := by
  cases hpc : s.worker i with
  | absent => exact absurd hpc hi
  | finished => exact finishes_of_finished hpc
  | callback =>
    exact .step (.callback i hpc) (finishes_of_finished (setWorker_self _))
  | count => exact finishes_of_count hpc
  | write result held =>
    exact .step (.write i result held hpc) (finishes_of_count (setWorker_self _))
  | store arg => exact finishes_of_store hpc
  | copy read =>
    -- the words that it has loaded, and the others as they are now
    have hlt : i < s.ins.length := hcontrol.size ▸ hcontrol.worker_lt hi
    obtain ⟨as, hrun, has⟩ := exists_copied T f ins assigns
      (y := fun w => (read w).getD (s.ins[i] w)) hpc (List.getElem?_eq_getElem hlt)
      (fun w c hc => by simp [hc]) fun w hw => by simp [hw]
    exact .prepend hrun has (finishes_of_store (setWorker_self _))

/-- **All threads come to their ends**, one after the other. -/
theorem exists_completed (hcontrol : Control n s) (hmain : s.main = .returned) :
    ∃ as s', (program T f ins assigns).Run s as s' ∧ (∀ a ∈ as, a.IsWorker) ∧ Completed s' := by
  have hloop : ∀ m ≤ n, ∃ as s', (program T f ins assigns).Run s as s' ∧ (∀ a ∈ as, a.IsWorker) ∧
      Control n s' ∧ s'.main = .returned ∧ ∀ i < m, s'.worker i = .finished := by
    intro m
    induction m with
    | zero =>
      intro _
      exact ⟨[], s, .refl, fun _ ha => absurd ha List.not_mem_nil, hcontrol, hmain,
        fun _ hi => absurd hi (Nat.not_lt_zero _)⟩
    | succ m ih =>
      intro hm
      obtain ⟨as, t, hrun, has, ht, hmaint, hfinished⟩ := ih (Nat.le_of_succ_le hm)
      -- thread `m` has been launched, so it can run alone to its end
      have hlaunched : t.worker m ≠ .absent := by
        rw [ne_eq, ht.launched m, hmaint]
        exact Nat.not_le.mpr hm
      obtain ⟨bs, u, hrun', hbs, hlast⟩ :=
        exists_finish T f ins assigns ht hlaunched
      obtain ⟨hmainu, -, -, hothers⟩ := run_frame hrun' hbs
      refine ⟨as ++ bs, u, hrun.trans hrun', fun a ha => ?_, run_control hrun' ht,
        hmainu.trans hmaint, fun i hi => ?_⟩
      · exact (List.mem_append.mp ha).elim (has a) fun ha => ⟨m, hbs a ha⟩
      · by_cases him : i = m
        · rw [him]
          exact hlast
        · rw [hothers i him]
          exact hfinished i (by omega)
  obtain ⟨as, t, hrun, has, ht, hmaint, hfinished⟩ := hloop n (Nat.le_refl n)
  -- the threads beyond the last element do not exist
  refine ⟨as, t, hrun, has, hmaint, fun i => ?_⟩
  by_cases hi : i < n
  · exact Or.inr (hfinished i hi)
  · left
    rw [ht.launched i, hmaint]
    exact Nat.not_lt.mp hi

variable {T f ins assigns}

/-! ## After the call

The schedules start from one state: `async_vector` has returned, all threads are at their beginning
and the caller has assigned nothing yet. That is a state of a run in which the new threads are slow.
-/

/-- `async_vector` has returned, and neither a thread nor the caller has moved yet. -/
structure Launched (T : Template) (ins : List (Object k γ)) (assigns : List (Nat × Object k γ))
    (s : State k γ β) : Prop where
  main : s.main = .returned
  vector : s.ins = ins
  todo : s.todo = stores assigns
  output : s.output = List.replicate ins.length default
  calls : s.calls = []
  workers : ∀ (i : Nat) x, ins[i]? = some x → s.worker i = T.entry x
  idle : ∀ (i : Nat) result held, s.worker i ≠ .write result held

omit [Inhabited β] in
theorem entry_ne_write (T : Template) (x : Object k γ) (result : β) (held : List β) :
    T.entry x ≠ .write result held := by
  unfold Template.entry
  split <;> simp

/-- The state is reached by the steps of the call alone. Induction on the number of threads
launched. -/
theorem exists_launched (T : Template) (f : Object k γ → β) (ins : List (Object k γ))
    (assigns : List (Nat × Object k γ)) :
    ∃ as s, (program T f ins assigns).Exec as s ∧ Launched T ins assigns (s : State k γ β) := by
  have hloop : ∀ m ≤ ins.length, ∃ as s, (program T f ins assigns).Exec as s ∧
      s.main = .launch m ∧ s.ins = ins ∧ s.todo = stores assigns ∧
      s.output = List.replicate ins.length default ∧ s.calls = [] ∧
      (∀ (i : Nat) x, i < m → ins[i]? = some x → s.worker i = T.entry x) ∧
      ∀ (i : Nat) result held, s.worker i ≠ .write result held := by
    intro m
    induction m with
    | zero =>
      intro _
      exact ⟨[], start ins assigns, ⟨_, rfl, .refl⟩, rfl, rfl, rfl, rfl, rfl,
        fun _ _ hi => absurd hi (Nat.not_lt_zero _), fun _ _ _ heq => by cases heq⟩
    -- the next element has its thread created, and nobody else moves
    | succ m ih =>
      intro hm
      obtain ⟨as, s, hexec, hmain, hins, htodo, houtput, hcalls, hworkers, hidle⟩ :=
        ih (Nat.le_of_succ_le hm)
      have hget : s.ins[m]? = some ins[m] := by rw [hins, List.getElem?_eq_getElem hm]
      have hturn : Turn T f s .main _ := .launch m ins[m] hmain hget
      refine ⟨_, _, hexec.extend hturn.run, rfl, hins, htodo, houtput, hcalls,
        fun i x hi hx => ?_, fun i result held => ?_⟩
      · show (s.setWorker m (T.entry ins[m])).worker i = T.entry x
        by_cases him : i = m
        · subst him
          rw [List.getElem?_eq_getElem hm] at hx
          rw [setWorker_self, Option.some.inj hx]
        · rw [setWorker_ne _ him]
          exact hworkers i x (by omega) hx
      · show (s.setWorker m (T.entry ins[m])).worker i ≠ .write result held
        by_cases him : i = m
        · rw [him, setWorker_self]
          exact entry_ne_write T _ result held
        · rw [setWorker_ne _ him]
          exact hidle i result held
  -- all have been created, and the loop of `async_vector` ends
  obtain ⟨as, s, hexec, hmain, hins, htodo, houtput, hcalls, hworkers, hidle⟩ :=
    hloop ins.length (Nat.le_refl _)
  have hturn : Turn T f s .main _ :=
    .returns ins.length hmain (by rw [hins]; exact List.getElem?_eq_none (Nat.le_refl _))
  exact ⟨_, _, hexec.extend hturn.run, rfl, hins, htodo, houtput, hcalls,
    fun i x hx => hworkers i x (List.getElem?_eq_some_iff.mp hx).1 hx, hidle⟩

/-! ## A slot that stays

A thread that is past its write does not write again, and the other threads write to its slot
only what they have loaded from it. So once these have loaded the value that is in the slot, it is
there for good. -/

/-- The thread is past its write. -/
def WorkerPc.Stored : WorkerPc k γ β → Prop
  | .count | .callback | .finished => True
  | .absent | .copy _ | .store _ | .write _ _ => False

/-- Slot `i` holds `v`, and whoever is about to write its word has loaded `v` there. -/
structure Settled (i : Nat) (v : β) (s : State k γ β) : Prop where
  stored : (s.worker i).Stored
  output : s.output[i]? = some v
  held : ∀ (j : Nat) result held, s.worker j = .write result held → held[i]? = some v
  calls : ∀ out ∈ s.calls, out[i]? = some v

variable {v : β}

omit [Inhabited β] in
/-- A thread that is not yet past its write is another one. -/
theorem Settled.setWorker (h : Settled i v s) {pc : WorkerPc k γ β} {output : List β}
    (houtput : output[i]? = some v) (hstored : j = i → pc.Stored)
    (hheld : ∀ result held, pc = .write result held → held[i]? = some v) :
    Settled i v ({ s with output }.setWorker j pc) := by
  refine ⟨?_, houtput, fun m result held hm => ?_, h.calls⟩
  · by_cases hij : i = j
    · subst hij
      rw [setWorker_self]
      exact hstored rfl
    · rw [setWorker_ne _ hij]
      exact h.stored
  · by_cases hmj : m = j
    · subst hmj
      rw [setWorker_self] at hm
      exact hheld result held hm
    · rw [setWorker_ne _ hmj] at hm
      exact h.held m result held hm

omit [Inhabited β] in
/-- A thread before its write is not the one whose slot is settled. -/
theorem Settled.ne (h : Settled i v s) (hj : ¬ (s.worker j).Stored) : j ≠ i := by
  rintro rfl
  exact hj h.stored

omit [Inhabited β] in
/-- **The slot stays**, whichever thread goes on. -/
theorem Settled.turn (h : Settled i v s) (ha : a.IsWorker) (hturn : Turn T f s a s') :
    Settled i v s' := by
  cases hturn with
  | launch | returns | assign =>
    obtain ⟨_, hno⟩ := ha
    exact hno.elim
  | load j w read x hpc hget hnew =>
    have hne := h.ne (j := j) (by rw [hpc]; exact id)
    exact h.setWorker h.output (fun heq => absurd heq hne) fun _ _ heq => by cases heq
  | copied j read arg hpc hall =>
    have hne := h.ne (j := j) (by rw [hpc]; exact id)
    exact h.setWorker h.output (fun heq => absurd heq hne) fun _ _ heq => by cases heq
  | store j arg hpc =>
    have hne := h.ne (j := j) (by rw [hpc]; exact id)
    refine h.setWorker h.output (fun heq => absurd heq hne) fun _ _ heq => ?_
    cases heq
    exact h.output
  | write j result held hpc =>
    have hne := h.ne (j := j) (by rw [hpc]; exact id)
    refine h.setWorker ?_ (fun _ => trivial) fun _ _ heq => by cases heq
    by_cases hword : i / T.perWord = j / T.perWord
    · exact writeSlot_held (Ne.symm hne) hword (List.getElem?_eq_some_iff.mp h.output).1
        (h.held j result held hpc)
    · rw [writeSlot_apart hword]
      exact h.output
  | count j hpc =>
    have hmoved : Settled i v (s.setWorker j
        (if s.completeCount + 1 = s.requiredCount then .callback else .finished)) :=
      h.setWorker h.output (fun _ => by split <;> exact trivial)
        fun _ _ heq => by split at heq <;> cases heq
    exact ⟨hmoved.stored, hmoved.output, hmoved.held, hmoved.calls⟩
  | callback j hpc =>
    have hmoved : Settled i v (s.setWorker j .finished) :=
      h.setWorker h.output (fun _ => trivial) fun _ _ heq => by cases heq
    refine ⟨hmoved.stored, hmoved.output, hmoved.held, fun out hout => ?_⟩
    rcases List.mem_append.mp hout with hold | hnew
    · exact h.calls out hold
    · rw [List.mem_singleton.mp hnew]
      exact h.output

/-! ## A copy made of several values

The first way to go wrong: between two loads of a thread the caller stores, so its argument is made
of words of different values. Which words are of which value can be chosen freely. The second
needs no caller: a thread stores a word of packed results that it has loaded before another
thread's write, and with it the old result of that thread. -/

variable (T f ins assigns)

/-- The caller stores, and the thread loads each of the words that are as `y` has them when they
have just been stored. Induction on the stores. -/
theorem exists_mixed (post : List (Store k γ)) : ∀ (s : State k γ β) (read : Fin k → Option γ),
    s.main = .returned → s.todo = post → s.worker i = .copy read → i < s.ins.length →
    Loading y read →
    ∃ as read' s', (program T f ins assigns).Run s as s' ∧ s'.main = .returned ∧
      s'.worker i = .copy read' ∧ i < s'.ins.length ∧ (∀ j, j ≠ i → s'.worker j = s.worker j) ∧
      s'.output = s.output ∧ s'.calls = s.calls ∧
      (∀ w, read w = some (y w) → read' w = some (y w)) ∧
      ∀ a ∈ post, a.index = i → a.value = y a.word → read' a.word = some (y a.word) := by
  induction post with
  | nil =>
    intro s read hmain _ hpc hlt _
    exact ⟨[], read, s, .refl, hmain, hpc, hlt, fun _ _ => rfl, rfl, rfl, fun _ h => h,
      fun _ ha => absurd ha List.not_mem_nil⟩
  | cons a post ih =>
    intro s read hmain htodo hpc hlt hread
    have hassign : Turn T f s .caller _ := .assign a post hmain htodo
    set t : State k γ β := { s with ins := storeWord s.ins a, todo := post } with ht
    have hlt' : i < t.ins.length := by
      rw [ht, show (storeWord s.ins a).length = s.ins.length from length_storeWord _ _]
      exact hlt
    -- the word that has been stored is loaded, if it is to be
    have hget : t.ins[i]? = some t.ins[i] := List.getElem?_eq_getElem hlt'
    have hstored : a.index = i → t.ins[i] a.word = a.value := by
      intro hindex
      have hword : t.ins[i]? = s.ins[i]?.map fun x =>
          if a.index = i then Function.update x a.word a.value else x := getElem?_storeWord ..
      rw [hget, List.getElem?_eq_getElem hlt, Option.map_some, if_pos hindex] at hword
      rw [Option.some.inj hword, Function.update_self]
    obtain ⟨bs, read₁, hload, -, hread₁, hloaded⟩ : ∃ bs read₁,
        (program T f ins assigns).Run t bs (t.setWorker i (.copy read₁)) ∧
        (∀ b ∈ bs, b.IsThread i) ∧ Loading y read₁ ∧ ∀ w, read w = some (y w) ∨
          (a.index = i ∧ a.value = y a.word) ∧ w = a.word → read₁ w = some (y w) := by
      by_cases hseen : a.index = i ∧ a.value = y a.word
      · obtain ⟨bs, read₁, hrun, hbs, hread₁, hloaded⟩ :=
          exists_loads T f ins assigns (s := t) hpc hget hread
            [a.word] fun w hw _ => by
              rw [List.mem_singleton.mp hw, hstored hseen.1, hseen.2]
        exact ⟨bs, read₁, hrun, hbs, hread₁, fun w hw => hloaded w
          (hw.imp id fun h => List.mem_singleton.mpr h.2)⟩
      · obtain ⟨bs, read₁, hrun, hbs, hread₁, hloaded⟩ :=
          exists_loads T f ins assigns (s := t) hpc hget hread
            [] fun w hw => absurd hw List.not_mem_nil
        exact ⟨bs, read₁, hrun, hbs, hread₁, fun w hw => hloaded w
          (hw.imp id fun h => absurd h.1 hseen)⟩
    obtain ⟨cs, read', u, hrest, hmainu, hpcu, hltu, hothers, houtput, hcalls, hkeep, hpost⟩ :=
      ih (t.setWorker i (.copy read₁)) read₁ hmain rfl (setWorker_self _) hlt' hread₁
    refine ⟨_, read', u, hassign.run.trans (hload.trans hrest), hmainu, hpcu, hltu,
      fun j hj => ?_, houtput, hcalls, fun w hw => hkeep w (hloaded w (Or.inl hw)),
      fun b hb hindex hvalue => ?_⟩
    · rw [hothers j hj, setWorker_ne _ hj]
    · rcases List.mem_cons.mp hb with rfl | hb
      · exact hkeep _ (hloaded _ (Or.inr ⟨⟨hindex, hvalue⟩, rfl⟩))
      · exact hpost b hb hindex hvalue

/-- A thread with its argument writes its result, with nobody in between. -/
theorem exists_written {arg : Object k γ} (hpc : s.worker i = .store arg) :
    ∃ as, (program T f ins assigns).Run s as ({ s with
      output := writeSlot T i (f arg) s.output s.output }.setWorker i .count) := by
  have hstore : Turn T f s (.worker i) _ := .store i arg hpc
  have hwrite : Turn T f (s.setWorker i (.write (f arg) s.output)) (.worker i) _ :=
    .write i (f arg) s.output (setWorker_self _)
  have hend : ({ s.setWorker i (.write (f arg) s.output) with
      output := writeSlot T i (f arg) s.output s.output }.setWorker i .count : State k γ β)
      = { s with output := writeSlot T i (f arg) s.output s.output }.setWorker i .count := by
    simp [State.setWorker]
  exact ⟨_, hstore.run.trans (hend ▸ hwrite.run)⟩

variable {T f ins assigns}

/-- **A torn copy.** Each word of the argument can be one that the element has at some time: it is
loaded before the caller stores to it, or right after. -/
theorem run_torn (href : T.byValue = false) (hx : ins[i]? = some x)
    (hy : ∀ w, Word ins assigns i w (y w)) :
    ∃ as s, (program T f ins assigns).Exec as s ∧ s.main = .returned ∧ Settled i (f y) s := by
  classical
  obtain ⟨as, s, hexec, hlaunched⟩ := exists_launched T f ins assigns
  have hentry : ∀ (j : Nat) z, ins[j]? = some z → s.worker j = .copy fun _ => none := by
    intro j z hz
    rw [hlaunched.workers j z hz, Template.entry, href, if_neg Bool.false_ne_true]
  have hlt : i < ins.length := (List.getElem?_eq_some_iff.mp hx).1
  -- the words of the call first, and then those of the assignments
  obtain ⟨bs, read, hload, -, hread, hloaded⟩ :=
    exists_loads T f ins assigns (y := y) (hentry i x hx)
      (hlaunched.vector ▸ hx) (fun _ _ hc => nomatch hc)
      ((List.finRange k).filter fun w => decide (x w = y w))
      fun w hw _ => of_decide_eq_true (List.mem_filter.mp hw).2
  obtain ⟨cs, read', t, hmixed, hmain, hpc, hltt, hothers, houtput, hcalls, hkeep, hpost⟩ :=
    exists_mixed T f ins assigns (y := y) (i := i)
      (stores assigns) (s.setWorker i (.copy read)) read hlaunched.main hlaunched.todo
      (setWorker_self _) (hlaunched.vector ▸ hlt) hread
  have hall : ∀ w, read' w = some (y w) := by
    intro w
    rcases hy w with ⟨z, hz, hword⟩ | ⟨u, hu, hword⟩
    · have hxz : x = z := Option.some.inj (hx.symm.trans hz)
      refine hkeep w (hloaded w (Or.inr (List.mem_filter.mpr ⟨List.mem_finRange w, ?_⟩)))
      rw [decide_eq_true_iff, hxz, hword]
    · exact hpost ⟨i, w, u w⟩ (mem_stores.mpr ⟨u, hu, rfl⟩) rfl hword.symm
  have hcopied : Turn T f t (.worker i) _ := .copied i read' y hpc hall
  obtain ⟨ds, hwritten⟩ := exists_written T f ins assigns
    (s := t.setWorker i (.store y)) (setWorker_self _)
  refine ⟨_, _, (((hexec.extend hload).extend hmixed).extend hcopied.run).extend hwritten, hmain,
    ⟨by rw [setWorker_self]; exact trivial, ?_, fun j result held hj => ?_, fun out hout => ?_⟩⟩
  · apply writeSlot_self
    show i < t.output.length
    rw [houtput]
    show i < s.output.length
    rw [hlaunched.output, List.length_replicate]
    exact hlt
  · -- no other thread has begun
    by_cases hji : j = i
    · rw [hji, setWorker_self] at hj
      cases hj
    · rw [setWorker_ne _ hji] at hj
      have hother : t.worker j = s.worker j := (hothers j hji).trans (setWorker_ne _ hji)
      rw [show State.worker _ j = t.worker j from setWorker_ne _ hji, hother] at hj
      exact absurd hj (hlaunched.idle j result held)
  · have hnone : t.calls = [] := hcalls.trans hlaunched.calls
    have hout : out ∈ t.calls := hout
    rw [hnone] at hout
    exact absurd hout List.not_mem_nil

variable (T f ins assigns) in
/-- **A lost result.** Thread `j` loads the word of both slots, thread `i` writes its result, and
thread `j` writes the word back. -/
theorem run_lost (hx : ins[i]? = some x) (hj : j < ins.length) (hne : i ≠ j)
    (hword : i / T.perWord = j / T.perWord) :
    ∃ as s, (program T f ins assigns).Exec as s ∧ s.main = .returned ∧ Settled i default s := by
  obtain ⟨as, s, hexec, hlaunched⟩ := exists_launched T f ins assigns
  have hlt : i < ins.length := (List.getElem?_eq_some_iff.mp hx).1
  have hy : ins[j]? = some ins[j] := List.getElem?_eq_getElem hj
  obtain ⟨bs, hcopied, -⟩ := exists_argument T f ins assigns
    (hlaunched.workers j _ hy) (hlaunched.vector ▸ hy)
  have hstore : Turn T f (s.setWorker j (.store ins[j])) (.worker j) _ :=
    .store j ins[j] (setWorker_self _)
  rw [setWorker_setWorker] at hstore
  -- the other thread comes in between
  set t : State k γ β := s.setWorker j (.write (f ins[j]) s.output) with ht
  have hentry : t.worker i = T.entry x := (setWorker_ne _ hne).trans (hlaunched.workers i x hx)
  obtain ⟨cs, hcopied', -⟩ := exists_argument T f ins assigns
    (s := t) hentry (hlaunched.vector ▸ hx)
  obtain ⟨ds, hwritten⟩ := exists_written T f ins assigns
    (s := t.setWorker i (.store x)) (setWorker_self _)
  set u : State k γ β := { t.setWorker i (.store x) with
    output := writeSlot T i (f x) s.output s.output }.setWorker i .count with hu
  have hpc : u.worker j = .write (f ins[j]) s.output := by
    rw [hu, setWorker_ne _ (Ne.symm hne)]
    show (t.setWorker i (.store x)).worker j = _
    rw [setWorker_ne _ (Ne.symm hne), ht, setWorker_self]
  have hback : Turn T f u (.worker j) _ := .write j _ _ hpc
  have hslot : s.output[i]? = some default := by
    rw [hlaunched.output, List.getElem?_replicate_of_lt hlt]
  refine ⟨_, _, ((((hexec.extend hcopied).extend hstore.run).extend hcopied').extend
    hwritten).extend hback.run, hlaunched.main,
    ⟨?_, ?_, fun m result held hm => ?_, fun out hout => ?_⟩⟩
  · rw [setWorker_ne _ hne]
    show (u.worker i).Stored
    rw [hu, setWorker_self]
    exact trivial
  · refine writeSlot_held hne hword ?_ hslot
    show i < (writeSlot T i (f x) s.output s.output).length
    rw [length_writeSlot, hlaunched.output, List.length_replicate]
    exact hlt
  · by_cases hmj : m = j
    · rw [hmj, setWorker_self] at hm
      cases hm
    · rw [setWorker_ne _ hmj] at hm
      have hm : u.worker m = .write result held := hm
      by_cases hmi : m = i
      · rw [hmi, hu, setWorker_self] at hm
        cases hm
      · have hother : u.worker m = s.worker m := by
          rw [hu, setWorker_ne _ hmi]
          show (t.setWorker i (.store x)).worker m = _
          rw [setWorker_ne _ hmi, ht, setWorker_ne _ hmj]
        rw [hother] at hm
        exact absurd hm (hlaunched.idle m result held)
  · have hout : out ∈ s.calls := hout
    rw [hlaunched.calls] at hout
    exact absurd hout List.not_mem_nil

end Threads

end HseDev.Sem24
