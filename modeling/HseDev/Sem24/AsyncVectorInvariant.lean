import HseDev.Sem24.AsyncVector

/-!
# HseDev — the invariants of `async_vector`

* **`Turn`** — what a step can be, once for all invariants.
* **`Control`** — counting only: the counter is the number of threads past their increment,
  and the callback has been called, or is about to be, exactly when the counter is complete.
* **`Unseen`** — nothing that goes on beside a thread makes a difference to its result: neither
  the words that the caller stores while they are loaded, nor the other results in the word of
  its slot.
* **`Slots`** — what is in the slots then: a thread past its write has filled its slot with `f`
  of the original element, so a thread at the callback finds every slot filled.
-/

namespace HseDev.Sem24

open Tally Transition

variable {k : Nat} {γ β : Type*} {T : Template} {f : Object k γ → β} {ins : List (Object k γ)}
  {assigns : List (Nat × Object k γ)} {n i j : Nat} {s s' : State k γ β} {a : Actor k}

/-! ## Steps

The cases of `step`, with what each of them has found and what it leaves behind. -/

inductive Turn (T : Template) (f : Object k γ → β) (s : State k γ β) :
    Actor k → State k γ β → Prop where
  | launch (i : Nat) (x : Object k γ) (hmain : s.main = .launch i) (hget : s.ins[i]? = some x) :
      Turn T f s .main { s.setWorker i (T.entry x) with main := .launch (i + 1) }
  | returns (i : Nat) (hmain : s.main = .launch i) (hget : s.ins[i]? = none) :
      Turn T f s .main { s with main := .returned }
  | load (i : Nat) (w : Fin k) (read : Fin k → Option γ) (x : Object k γ)
      (hpc : s.worker i = .copy read) (hget : s.ins[i]? = some x) (hnew : read w = none) :
      Turn T f s (.load i w) (s.setWorker i (.copy (Function.update read w (some (x w)))))
  | copied (i : Nat) (read : Fin k → Option γ) (arg : Object k γ)
      (hpc : s.worker i = .copy read) (hall : ∀ w, read w = some (arg w)) :
      Turn T f s (.worker i) (s.setWorker i (.store arg))
  | store (i : Nat) (arg : Object k γ) (hpc : s.worker i = .store arg) :
      Turn T f s (.worker i) (s.setWorker i (.write (f arg) s.output))
  | write (i : Nat) (result : β) (held : List β) (hpc : s.worker i = .write result held) :
      Turn T f s (.worker i)
        ({ s with output := writeSlot T i result held s.output }.setWorker i .count)
  | count (i : Nat) (hpc : s.worker i = .count) :
      Turn T f s (.worker i) ({ s with completeCount := s.completeCount + 1 }.setWorker i
        (if s.completeCount + 1 = s.requiredCount then .callback else .finished))
  | callback (i : Nat) (hpc : s.worker i = .callback) :
      Turn T f s (.worker i) ({ s with calls := s.calls ++ [s.output] }.setWorker i .finished)
  | assign (a : Store k γ) (rest : List (Store k γ)) (hmain : s.main = .returned)
      (htodo : s.todo = a :: rest) :
      Turn T f s .caller { s with ins := storeWord s.ins a, todo := rest }

/-- Every turn is a step, so that a schedule can be given by its turns. -/
theorem Turn.step_eq (h : Turn T f s a s') : step T f s a = some s' := by
  cases h with
  | launch i x hmain hget | returns i hmain hget =>
    simp only [step, asyncVector, hmain, hget]
  | load i w read x hpc hget hnew => simp only [step, loadWord, hpc, hget, hnew]
  | copied i read arg hpc hall =>
    simp only [step, asyncLaunch, hpc, collect_eq_some.mpr hall]
  | store i arg hpc | write i result held hpc | count i hpc | callback i hpc =>
    simp only [step, asyncLaunch, hpc]
  | assign a rest hmain htodo => simp only [step, callerStep, hmain, htodo]

/-- **The inversion of a step**: what it has found and what it leaves. Every invariant below is by
cases of it, and `step` is not unfolded again. -/
theorem step_turn (hstep : step T f s a = some s') : Turn T f s a s' := by
  cases a with
  | main =>
    simp only [step, asyncVector] at hstep
    cases hmain : s.main with
    | returned =>
      rw [hmain] at hstep
      cases hstep
    | launch i =>
      cases hget : s.ins[i]? with
      | none =>
        simp only [hmain, hget] at hstep
        cases hstep
        exact .returns i hmain hget
      | some x =>
        simp only [hmain, hget] at hstep
        cases hstep
        exact .launch i x hmain hget
  | load i w =>
    simp only [step, loadWord] at hstep
    split at hstep
    · next read x hpc hget =>
      split at hstep
      · next hnew =>
        cases hstep
        exact .load i w read x hpc hget hnew
      · cases hstep
    · cases hstep
  | worker i =>
    simp only [step, asyncLaunch] at hstep
    cases hpc : s.worker i with
    | absent | finished =>
      rw [hpc] at hstep
      cases hstep
    | copy read =>
      simp only [hpc] at hstep
      split at hstep
      · next arg hall =>
        cases hstep
        exact .copied i read arg hpc (collect_eq_some.mp hall)
      · cases hstep
    | store arg =>
      simp only [hpc] at hstep
      cases hstep
      exact .store i arg hpc
    | write result held =>
      simp only [hpc] at hstep
      cases hstep
      exact .write i result held hpc
    | count =>
      simp only [hpc] at hstep
      cases hstep
      exact .count i hpc
    | callback =>
      simp only [hpc] at hstep
      cases hstep
      exact .callback i hpc
  | caller =>
    simp only [step, callerStep] at hstep
    split at hstep
    · next a rest hmain htodo =>
      cases hstep
      exact .assign a rest hmain htodo
    · cases hstep

/-! ## Counting

The template plays no part here: a thread counts once, however it comes by its argument and
whatever else is in the word of its slot. -/

/-- How far the loop of `async_vector` is: the threads below have been launched. -/
def MainPc.launched (n : Nat) : MainPc → Nat
  | .launch i => i
  | .returned => n

/-- **The counting invariant** of a call on `n` elements. -/
structure Control (n : Nat) (s : State k γ β) : Prop where
  size : s.ins.length = n
  required : s.requiredCount = n
  launched_le : s.main.launched n ≤ n
  launched : ∀ i, s.worker i = .absent ↔ s.main.launched n ≤ i
  counter : s.completeCount = tally n WorkerPc.counted s.worker
  fired : tally n WorkerPc.firing s.worker + s.calls.length
    = if s.completeCount = n ∧ 0 < n then 1 else 0

theorem Control.worker_lt (h : Control n s) (hi : s.worker i ≠ .absent) : i < n := by
  have hle := h.launched_le
  have hiff := h.launched i
  by_contra hge
  exact hi (hiff.mpr (by omega))

theorem Control.counter_le (h : Control n s) : s.completeCount ≤ n := by
  rw [h.counter]
  exact tally_le WorkerPc.counted_le

theorem launched_update {m : Nat} {worker : Nat → WorkerPc k γ β} {pc : WorkerPc k γ β}
    (h : ∀ i, worker i = .absent ↔ m ≤ i) (hi : worker i ≠ .absent) (hpc : pc ≠ .absent) :
    ∀ j, Function.update worker i pc j = .absent ↔ m ≤ j := by
  intro j
  by_cases hji : j = i
  · subst hji
    rw [Function.update_self]
    exact ⟨fun habs => absurd habs hpc, fun hle => absurd ((h j).mpr hle) hi⟩
  · rw [Function.update_of_ne hji]
    exact h j

/-- A thread moves on to a place before its increment; `output` is of no concern. -/
theorem Control.setWorker {pc : WorkerPc k γ β} (h : Control n s) (hi : (s.worker i).Early)
    (hpc : pc.Early) (output : List β) : Control n ({ s with output }.setWorker i pc) := by
  have hlt := h.worker_lt hi.launched
  have hcount := tally_update WorkerPc.counted s.worker hlt pc
  have hfire := tally_update WorkerPc.firing s.worker hlt pc
  rw [hi.counted, hpc.counted] at hcount
  rw [hi.firing, hpc.firing] at hfire
  have hcounter := h.counter
  refine ⟨h.size, h.required, h.launched_le, launched_update h.launched hi.launched hpc.launched,
    ?_, ?_⟩
  · show s.completeCount = tally n WorkerPc.counted (Function.update s.worker i pc)
    omega
  · show tally n WorkerPc.firing (Function.update s.worker i pc) + s.calls.length
      = if s.completeCount = n ∧ 0 < n then 1 else 0
    rw [← h.fired]
    omega

/-- A new thread has not counted, and it is the next one. -/
theorem Control.launch_step {x : Object k γ} (h : Control n s) (hmain : s.main = .launch i)
    (hget : s.ins[i]? = some x) :
    Control n { s.setWorker i (T.entry x) with main := .launch (i + 1) } := by
  have hlt : i < n := h.size ▸ (List.getElem?_eq_some_iff.mp hget).1
  have hlaunched := h.launched
  rw [hmain] at hlaunched
  have habsent : s.worker i = .absent := (hlaunched i).mpr (Nat.le_refl i)
  have hearly : (T.entry x : WorkerPc k γ β).Early := entry_early T x
  have hcount := tally_update WorkerPc.counted s.worker hlt (T.entry x)
  have hfire := tally_update WorkerPc.firing s.worker hlt (T.entry x)
  rw [habsent, hearly.counted] at hcount
  rw [habsent, hearly.firing] at hfire
  refine ⟨h.size, h.required, hlt, fun j => ?_, h.counter.trans hcount.symm, ?_⟩
  · show (s.setWorker i (T.entry x)).worker j = .absent ↔ i + 1 ≤ j
    by_cases hji : j = i
    · subst hji
      rw [setWorker_self]
      exact ⟨fun habs => absurd habs hearly.launched, fun hle => absurd hle (by omega)⟩
    · rw [setWorker_ne _ hji, hlaunched j]
      show i ≤ j ↔ i + 1 ≤ j
      omega
  · show tally n WorkerPc.firing (Function.update s.worker i (T.entry x)) + s.calls.length
      = if s.completeCount = n ∧ 0 < n then 1 else 0
    rw [← h.fired]
    exact congrArg (· + s.calls.length) hfire

/-- The call returns when all of its threads have been launched. -/
theorem Control.return_step (h : Control n s) (hmain : s.main = .launch i)
    (hget : s.ins[i]? = none) : Control n { s with main := .returned } := by
  have hle := h.launched_le
  have hlaunched := h.launched
  rw [hmain] at hle hlaunched
  have hall : i = n := by
    have hend := List.getElem?_eq_none_iff.mp hget
    rw [h.size] at hend
    exact Nat.le_antisymm hle hend
  subst hall
  exact ⟨h.size, h.required, Nat.le_refl _, hlaunched, h.counter, h.fired⟩

/-- The last increment, and no other, leads to the callback. -/
theorem Control.count_step (h : Control n s) (hpc : s.worker i = .count) :
    Control n ({ s with completeCount := s.completeCount + 1 }.setWorker i
      (if s.completeCount + 1 = s.requiredCount then .callback else .finished)) := by
  have hi : s.worker i ≠ .absent := by
    rw [hpc]
    simp
  have hlt := h.worker_lt hi
  have hcounter := h.counter
  have hfired := h.fired
  have hle := h.counter_le
  have hrequired := h.required
  by_cases hlast : s.completeCount + 1 = s.requiredCount
  · -- the last increment: nobody has fired before, and this thread does
    rw [if_pos hlast]
    have hcount := tally_update WorkerPc.counted s.worker hlt .callback
    have hfire := tally_update WorkerPc.firing s.worker hlt .callback
    rw [hpc] at hcount hfire
    rw [if_neg (by omega)] at hfired
    refine ⟨h.size, h.required, h.launched_le,
      launched_update h.launched hi (by simp), ?_, ?_⟩
    · rw [hcounter]
      exact hcount.symm
    · show tally n WorkerPc.firing (Function.update s.worker i .callback) + s.calls.length
        = if s.completeCount + 1 = n ∧ 0 < n then 1 else 0
      rw [if_pos (by omega)]
      simp only [WorkerPc.firing] at hfire hfired ⊢
      omega
  · -- another thread is still to come, since the counter counts the threads
    rw [if_neg hlast]
    have hcount := tally_update WorkerPc.counted s.worker hlt .finished
    have hfire := tally_update WorkerPc.firing s.worker hlt .finished
    rw [hpc] at hcount hfire
    have hbelow : s.completeCount + 1 ≤ n := by
      have hall := tally_le (n := n) (g := Function.update s.worker i .finished)
        WorkerPc.counted_le
      simp only [WorkerPc.counted] at hcount
      omega
    rw [if_neg (by omega)] at hfired
    refine ⟨h.size, h.required, h.launched_le,
      launched_update h.launched hi (by simp), ?_, ?_⟩
    · rw [hcounter]
      exact hcount.symm
    · show tally n WorkerPc.firing (Function.update s.worker i .finished) + s.calls.length
        = if s.completeCount + 1 = n ∧ 0 < n then 1 else 0
      rw [if_neg (by omega)]
      simp only [WorkerPc.firing] at hfire hfired ⊢
      omega

/-- The one thread that came last makes the one call. -/
theorem Control.callback_step (h : Control n s) (hpc : s.worker i = .callback) :
    Control n ({ s with calls := s.calls ++ [s.output] }.setWorker i .finished) := by
  have hi : s.worker i ≠ .absent := by
    rw [hpc]
    simp
  have hlt := h.worker_lt hi
  have hcount := tally_update WorkerPc.counted s.worker hlt .finished
  have hfire := tally_update WorkerPc.firing s.worker hlt .finished
  rw [hpc] at hcount hfire
  have hcounter := h.counter
  refine ⟨h.size, h.required, h.launched_le,
    launched_update h.launched hi (by simp), ?_, ?_⟩
  · show s.completeCount = tally n WorkerPc.counted (Function.update s.worker i .finished)
    simp only [WorkerPc.counted] at hcount hcounter ⊢
    omega
  · show tally n WorkerPc.firing (Function.update s.worker i .finished)
      + (s.calls ++ [s.output]).length = if s.completeCount = n ∧ 0 < n then 1 else 0
    rw [← h.fired, List.length_append, List.length_singleton]
    simp only [WorkerPc.firing] at hfire ⊢
    omega

/-- The step lemma. Only the increment has an argument of its own: the counter reaches its end once,
so at most one thread goes on to the callback. -/
theorem Control.step (h : Control n s) (hstep : step T f s a = some s') : Control n s' := by
  cases step_turn hstep with
  | launch i x hmain hget => exact h.launch_step hmain hget
  | returns i hmain hget => exact h.return_step hmain hget
  | load i w read x hpc hget hnew =>
    exact h.setWorker (hpc ▸ ⟨by simp, rfl, rfl⟩) ⟨by simp, rfl, rfl⟩ s.output
  | copied i read arg hpc hall =>
    exact h.setWorker (hpc ▸ ⟨by simp, rfl, rfl⟩) ⟨by simp, rfl, rfl⟩ s.output
  | store i arg hpc =>
    exact h.setWorker (hpc ▸ ⟨by simp, rfl, rfl⟩) ⟨by simp, rfl, rfl⟩ s.output
  | write i result held hpc =>
    exact h.setWorker (hpc ▸ ⟨by simp, rfl, rfl⟩) ⟨by simp, rfl, rfl⟩ _
  | count i hpc => exact h.count_step hpc
  | callback i hpc => exact h.callback_step hpc
  | assign a rest hmain htodo =>
    exact ⟨(length_storeWord _ _).trans h.size, h.required, h.launched_le, h.launched, h.counter,
      h.fired⟩

/-- A thread at the callback is the last one: all have incremented the counter. -/
theorem Control.all_counted (h : Control n s) (hpc : s.worker i = .callback) :
    ∀ j < n, (s.worker j).counted = 1 := by
  have hi : s.worker i ≠ .absent := by
    rw [hpc]
    simp
  have hfiring := le_tally WorkerPc.firing s.worker (h.worker_lt hi)
  rw [hpc] at hfiring
  change 1 ≤ _ at hfiring
  have hfired := h.fired
  have hfull : s.completeCount = n := by
    by_contra hne
    rw [if_neg (fun hcond => hne hcond.1)] at hfired
    omega
  exact full_of_tally WorkerPc.counted_le (h.counter ▸ hfull)

/-! ## The slots

Two things can come between a thread and its result. The words of its element are loaded one
after the other, and the caller may store to them in between; so the copy is made of words that
the element has had at some time. And a slot that is a part of a word is written with the rest
of the word, as it was when it was loaded. -/

/-- `c` is the value of word `w` of element `i` at the call, or in an assignment to it. -/
def Word (ins : List (Object k γ)) (assigns : List (Nat × Object k γ)) (i : Nat) (w : Fin k)
    (c : γ) : Prop :=
  (∃ x, ins[i]? = some x ∧ c = x w) ∨ ∃ v, (i, v) ∈ assigns ∧ c = v w

/-- **Nothing that goes on beside a thread makes a difference to its result.** -/
structure Unseen [Inhabited β] (T : Template) (f : Object k γ → β) (ins : List (Object k γ))
    (assigns : List (Nat × Object k γ)) : Prop where
  copied : T.byValue = false → ∀ (i : Nat) x y, ins[i]? = some x →
    (∀ w, Word ins assigns i w (y w)) → f y = f x
  shared : ∀ (i j : Nat) x, ins[i]? = some x → j < ins.length → i ≠ j →
    i / T.perWord = j / T.perWord → f x = default

variable [Inhabited β]

/-- What is known of thread `i` of the element `x`, and of its slot. -/
def Fits (T : Template) (f : Object k γ → β) (ins : List (Object k γ))
    (assigns : List (Nat × Object k γ)) (i : Nat) (x : Object k γ) :
    WorkerPc k γ β → Option β → Prop
  | .absent, slot => slot = some default
  | .copy read, slot =>
    slot = some default ∧ T.byValue = false ∧ ∀ w c, read w = some c → Word ins assigns i w c
  | .store arg, slot => slot = some default ∧ f arg = f x
  | .write result held, slot =>
    slot = some default ∧ result = f x ∧ ∀ j, j < ins.length → j ≠ i →
      j / T.perWord = i / T.perWord → held[j]? = some default
  | .count, slot | .callback, slot | .finished, slot => slot = some (f x)

/-- **The slots against the elements of the call.** -/
structure Slots (T : Template) (f : Object k γ → β) (ins : List (Object k γ))
    (assigns : List (Nat × Object k γ)) (s : State k γ β) : Prop where
  size : s.output.length = ins.length
  fresh : s.main ≠ .returned → s.ins = ins
  todo : ∀ a ∈ s.todo, a ∈ stores assigns
  live : ∀ (i : Nat) x w, s.ins[i]? = some x → Word ins assigns i w (x w)
  threads : ∀ (i : Nat) x, ins[i]? = some x →
    Fits T f ins assigns i x (s.worker i) s.output[i]?
  calls : ∀ out ∈ s.calls, out = ins.map f

/-- A slot holds the result, or what `output` was built with. -/
theorem Fits.slot {x : Object k γ} {pc : WorkerPc k γ β} {slot : Option β}
    (h : Fits T f ins assigns i x pc slot) : slot = some default ∨ slot = some (f x) := by
  cases pc with
  | absent => exact Or.inl h
  | copy | store | write => exact Or.inl h.1
  | count | callback | finished => exact Or.inr h

/-- A slot that shares its word has not changed, since its result is no other. -/
theorem Slots.shared_slot (h : Slots T f ins assigns s) (hunseen : Unseen T f ins assigns)
    (hj : j < ins.length) (hi : i < ins.length) (hne : j ≠ i)
    (hword : j / T.perWord = i / T.perWord) : s.output[j]? = some default := by
  have hx : ins[j]? = some ins[j] := List.getElem?_eq_getElem hj
  rcases (h.threads j _ hx).slot with hslot | hslot
  · exact hslot
  · rw [hslot, hunseen.shared j i _ hx hi hne hword]

theorem Slots.setWorker (h : Slots T f ins assigns s) (i : Nat) (pc : WorkerPc k γ β)
    (hfits : ∀ x, ins[i]? = some x → Fits T f ins assigns i x pc s.output[i]?) :
    Slots T f ins assigns (s.setWorker i pc) := by
  refine ⟨h.size, h.fresh, h.todo, h.live, fun j x hx => ?_, h.calls⟩
  by_cases hji : j = i
  · subst hji
    rw [setWorker_self]
    exact hfits x hx
  · rw [setWorker_ne _ hji]
    exact h.threads j x hx

/-- The value that `async_vector` copies for a thread is that of the call: the caller has not got
the processor back. -/
theorem Slots.launch_step {x : Object k γ} (h : Slots T f ins assigns s)
    (hcontrol : Control ins.length s) (hmain : s.main = .launch i) (hget : s.ins[i]? = some x) :
    Slots T f ins assigns { s.setWorker i (T.entry x) with main := .launch (i + 1) } := by
  have hfresh : s.ins = ins := h.fresh (by rw [hmain]; simp)
  have habsent : s.worker i = .absent := by
    rw [hcontrol.launched i, hmain]
    exact Nat.le_refl i
  have hmoved := h.setWorker i (T.entry x) fun y hy => by
    have hslot := h.threads i y hy
    rw [habsent] at hslot
    have hslot : s.output[i]? = some default := hslot
    have hxy : x = y := Option.some.inj (hget.symm.trans (hfresh ▸ hy))
    unfold Template.entry
    cases hvalue : T.byValue with
    | true => exact ⟨hslot, congrArg f hxy⟩
    | false => exact ⟨hslot, hvalue, fun w c hc => by cases hc⟩
  exact ⟨hmoved.size, fun _ => hfresh, hmoved.todo, hmoved.live, hmoved.threads, hmoved.calls⟩

/-- A thread writes its result, and nothing new to the other slots. -/
theorem Slots.write_step {result : β} {held : List β} (h : Slots T f ins assigns s)
    (hunseen : Unseen T f ins assigns) (hi : i < ins.length)
    (hpc : s.worker i = .write result held) :
    Slots T f ins assigns
      ({ s with output := writeSlot T i result held s.output }.setWorker i .count) := by
  refine ⟨(length_writeSlot ..).trans h.size, h.fresh, h.todo, h.live, fun j x hx => ?_, h.calls⟩
  have hlt : j < ins.length := (List.getElem?_eq_some_iff.mp hx).1
  have hslot : j < s.output.length := h.size ▸ hlt
  have hfits := h.threads j x hx
  show Fits T f ins assigns j x (State.worker _ j) (writeSlot T i result held s.output)[j]?
  by_cases hji : j = i
  · subst hji
    rw [hpc] at hfits
    rw [setWorker_self, writeSlot_self T hslot, hfits.2.1]
    exact rfl
  · rw [setWorker_ne _ hji]
    show Fits T f ins assigns j x (s.worker j) _
    by_cases hword : j / T.perWord = i / T.perWord
    · -- the slot shares the word, and is written as it was loaded
      have hown := h.threads i _ (List.getElem?_eq_getElem hi)
      rw [hpc] at hown
      rw [writeSlot_held hji hword hslot (hown.2.2 j hlt hji hword),
        ← h.shared_slot hunseen hlt hi hji hword]
      exact hfits
    · rw [writeSlot_apart hword]
      exact hfits

theorem Slots.output_eq (h : Slots T f ins assigns s)
    (hall : ∀ j < ins.length, (s.worker j).counted = 1) : s.output = ins.map f := by
  refine List.ext_getElem? fun j => ?_
  by_cases hj : j < ins.length
  · have hx : ins[j]? = some ins[j] := List.getElem?_eq_getElem hj
    have hfits := h.threads j _ hx
    have hslot : s.output[j]? = some (f ins[j]) := by
      have hcounted := hall j hj
      cases hpc : s.worker j with
      | callback | finished =>
        rw [hpc] at hfits
        exact hfits
      | absent | copy | store | write | count =>
        rw [hpc] at hcounted
        cases hcounted
    rw [hslot, List.getElem?_map, hx]
    rfl
  · have hsize := h.size
    rw [List.getElem?_eq_none (by omega), List.getElem?_eq_none (by rw [List.length_map]; omega)]

/-- A word that the caller stores is one of an assignment. -/
theorem Slots.assign_step {a : Store k γ} {rest : List (Store k γ)}
    (h : Slots T f ins assigns s) (hmain : s.main = .returned) (htodo : s.todo = a :: rest) :
    Slots T f ins assigns { s with ins := storeWord s.ins a, todo := rest } := by
  refine ⟨h.size, fun hnot => absurd hmain hnot, fun b hb => ?_, fun i x w hget => ?_, h.threads,
    h.calls⟩
  · exact h.todo b (htodo ▸ List.mem_cons_of_mem a hb)
  · have hget : (storeWord s.ins a)[i]? = some x := hget
    rw [getElem?_storeWord] at hget
    obtain ⟨y, hy, rfl⟩ := Option.map_eq_some_iff.mp hget
    split
    · next hindex =>
      by_cases hw : w = a.word
      · subst hw
        obtain ⟨v, hv, hvalue⟩ := mem_stores.mp (h.todo a (htodo ▸ List.mem_cons_self))
        rw [Function.update_self]
        exact Or.inr ⟨v, hindex ▸ hv, hvalue⟩
      · rw [Function.update_of_ne hw]
        exact h.live i y w hy
    · exact h.live i y w hy

/-- The step lemma for the slots, under the condition that no assignment and no neighbour in a word
can be seen. -/
theorem Slots.step (h : Slots T f ins assigns s) (hunseen : Unseen T f ins assigns)
    (hcontrol : Control ins.length s) (hstep : step T f s a = some s') :
    Slots T f ins assigns s' := by
  cases step_turn hstep with
  | launch i x hmain hget => exact h.launch_step hcontrol hmain hget
  | returns i hmain hget =>
    exact ⟨h.size, fun hnot => absurd rfl hnot, h.todo, h.live, h.threads, h.calls⟩
  -- the word loaded is one that the element has had
  | load i w read x hpc hget hnew =>
    refine h.setWorker i _ fun y hy => ?_
    obtain ⟨hslot, href, hread⟩ : Fits T f ins assigns i y (.copy read) _ :=
      hpc ▸ h.threads i y hy
    refine ⟨hslot, href, fun w' c hc => ?_⟩
    by_cases hw : w' = w
    · subst hw
      rw [Function.update_self] at hc
      cases hc
      exact h.live i x w' hget
    · rw [Function.update_of_ne hw] at hc
      exact hread w' c hc
  -- the argument is made of such words, and by assumption gives the same result
  | copied i read arg hpc hall =>
    refine h.setWorker i _ fun y hy => ?_
    obtain ⟨hslot, href, hread⟩ : Fits T f ins assigns i y (.copy read) _ :=
      hpc ▸ h.threads i y hy
    exact ⟨hslot, hunseen.copied href i y arg hy fun w => hread w _ (hall w)⟩
  -- the word around the slot is loaded; by assumption its other slots never change
  | store i arg hpc =>
    refine h.setWorker i _ fun y hy => ?_
    obtain ⟨hslot, harg⟩ : Fits T f ins assigns i y (.store arg) _ := hpc ▸ h.threads i y hy
    have hi : i < ins.length := (List.getElem?_eq_some_iff.mp hy).1
    exact ⟨hslot, harg, fun j hj hne hword => h.shared_slot hunseen hj hi hne hword⟩
  | write i result held hpc =>
    exact h.write_step hunseen (hcontrol.worker_lt (by rw [hpc]; simp)) hpc
  | count i hpc =>
    have hmoved := h.setWorker i
      (if s.completeCount + 1 = s.requiredCount then .callback else .finished) fun y hy => by
        have hslot : Fits T f ins assigns i y .count _ := hpc ▸ h.threads i y hy
        split <;> exact hslot
    exact ⟨hmoved.size, hmoved.fresh, hmoved.todo, hmoved.live, hmoved.threads, hmoved.calls⟩
  -- all threads have stored their results when the callback sees the output
  | callback i hpc =>
    have hmoved := h.setWorker i .finished fun y hy => by
      have hslot : Fits T f ins assigns i y .callback _ := hpc ▸ h.threads i y hy
      exact hslot
    refine ⟨hmoved.size, hmoved.fresh, hmoved.todo, hmoved.live, hmoved.threads, fun out hout => ?_⟩
    rcases List.mem_append.mp hout with hold | hnew
    · exact h.calls out hold
    · rw [List.mem_singleton.mp hnew]
      exact h.output_eq (hcontrol.all_counted hpc)
  | assign a rest hmain htodo => exact h.assign_step hmain htodo

/-! ## Every run

The two run lemmas, each by one induction from its step lemma. The counting needs no condition, the
slots need `Unseen`. -/

theorem start_control (ins : List (Object k γ)) (assigns : List (Nat × Object k γ)) :
    Control ins.length (start ins assigns : State k γ β) := by
  have hcounted : tally ins.length WorkerPc.counted (start ins assigns : State k γ β).worker = 0 :=
    tally_eq_zero fun _ _ => rfl
  have hfiring : tally ins.length WorkerPc.firing (start ins assigns : State k γ β).worker = 0 :=
    tally_eq_zero fun _ _ => rfl
  refine ⟨rfl, rfl, Nat.zero_le _, fun i => ?_, hcounted.symm, ?_⟩
  · exact ⟨fun _ => Nat.zero_le i, fun _ => rfl⟩
  · rw [hfiring, if_neg]
    · rfl
    · rintro ⟨hzero, hpos⟩
      change 0 = _ at hzero
      omega

theorem start_slots (T : Template) (f : Object k γ → β) (ins : List (Object k γ))
    (assigns : List (Nat × Object k γ)) : Slots T f ins assigns (start ins assigns) where
  size := List.length_replicate ..
  fresh _ := rfl
  todo _ ha := ha
  live _ x _ hx := Or.inl ⟨x, hx, rfl⟩
  threads _ _ hx := List.getElem?_replicate_of_lt (List.getElem?_eq_some_iff.mp hx).1
  calls _ hout := absurd hout List.not_mem_nil

/-- Run lemma: the counting holds in every reachable state, with any assignments of the caller. -/
theorem reachable_control (hs : (program T f ins assigns).Reachable s) : Control ins.length s := by
  refine System.invariant (P := Control ins.length) ?_ ?_ hs
  · rintro s rfl
    exact start_control ins assigns
  · intro s a s' hcontrol hstep
    exact hcontrol.step hstep

/-- Run lemma: if nothing can be seen then every slot is as it should be, in every reachable state.
-/
theorem reachable_slots (hunseen : Unseen T f ins assigns)
    (hs : (program T f ins assigns).Reachable s) : Slots T f ins assigns s := by
  obtain ⟨as, hexec⟩ := hs
  refine System.exec_induction (P := fun _ s => Slots T f ins assigns s) ?_ ?_ hexec
  · rintro s rfl
    exact start_slots T f ins assigns
  · intro as s a s' hexec hslots hstep
    exact hslots.step hunseen (reachable_control hexec.reachable) hstep

end HseDev.Sem24
