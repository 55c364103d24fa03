import HseDev.Sem24.AsyncVectorSchedules

/-!
# HseDev — what `async_vector` guarantees

* **`async_vector_safe`** — the callback is called at most once, and with `f` of every
  element in its slot, while the caller leaves its vector alone and the results do not share
  words.
* **`callback_once_iff`** — it is called exactly once unless the vector is empty: then no
  thread makes the last increment.
* **`by_value_iff`** — a thread loads its element when it starts, word by word, so what the caller
  stores after the call can reach the output, and a result can be lost from a word that holds
  others; either happens in some run unless `f` does not see it (`run_torn`, `run_lost`).
-/

namespace HseDev.Sem24

open Tally Transition

variable {k : Nat} {γ β : Type*} {T : Template} {f : Object k γ → β} {ins : List (Object k γ)}
  {assigns : List (Nat × Object k γ)} {n i : Nat} {s s' : State k γ β} {as : List (Actor k)}

/-! ## The callback

The callback is called by the thread whose increment reaches the number of elements. With no element
there is no such thread. -/

/-- **At the end the callback has been called once, if there was a thread to call it.** -/
theorem Control.completed (h : Control n s) (hdone : Completed s) :
    s.calls.length = if 0 < n then 1 else 0 := by
  obtain ⟨hmain, hworkers⟩ := hdone
  have hfinished : ∀ i < n, s.worker i = .finished := by
    intro i hi
    rcases hworkers i with habs | hfin
    · have hle := (h.launched i).mp habs
      rw [hmain] at hle
      exact absurd hle (Nat.not_le.mpr hi)
    · exact hfin
  have hcounter : s.completeCount = n := by
    rw [h.counter]
    exact tally_of_full fun i hi => by rw [hfinished i hi]; rfl
  have hfiring : tally n WorkerPc.firing s.worker = 0 :=
    tally_eq_zero fun i hi => by rw [hfinished i hi]; rfl
  have hfired := h.fired
  rw [hfiring, Nat.zero_add] at hfired
  rw [hfired]
  simp only [hcounter, true_and]

theorem Control.calls_le (h : Control n s) : s.calls.length ≤ 1 := by
  have hfired := h.fired
  split at hfired <;> omega

variable [Inhabited β]

/-! ## Safety

The general invariant for the case without assignments and with a word for each result, which is the
one that `async_vector` is written for. -/

/-- Without assignments, and with a word for each result, nothing comes between a thread and its
result. -/
theorem unseen_objects (byValue : Bool) (f : Object k γ → β) (ins : List (Object k γ)) :
    Unseen ⟨byValue, 1⟩ f ins [] where
  copied _ i x y hx hy := by
    refine congrArg f (funext fun w => ?_)
    rcases hy w with ⟨z, hz, hword⟩ | ⟨_, hmem, _⟩
    · rw [hword, Option.some.inj (hz.symm.trans hx)]
    · exact absurd hmem List.not_mem_nil
  shared i j _ _ _ hne hword := by
    have hij : i / 1 = j / 1 := hword
    rw [Nat.div_one, Nat.div_one] at hij
    exact absurd hij hne

/-- **The callback sees the whole result, once.** The caller assigns nothing and each result has a
word of its own. Then at every call of the callback each slot holds the result of its element, and
there is at most one such call. -/
theorem async_vector_safe (byValue : Bool) (f : Object k γ → β) (ins : List (Object k γ)) :
    ∀ as s, (program ⟨byValue, 1⟩ f ins []).Exec as s →
      s.calls.length ≤ 1 ∧ ∀ out ∈ s.calls, out.length = ins.length
        ∧ ∀ (i : Nat) x, ins[i]? = some x → out[i]? = some (f x) := by
  intro as s hrun
  refine ⟨(reachable_control hrun.reachable).calls_le, fun out hout => ?_⟩
  rw [(reachable_slots (unseen_objects byValue f ins) hrun.reachable).calls out hout]
  exact ⟨List.length_map .., fun i x hx => by rw [List.getElem?_map, hx]; rfl⟩

/-- Two elements of one word each, the second thread being the last one. -/
theorem async_vector_safe_two : ∃ as s,
    (program .objects (fun x : Object 1 Nat => x 0 + 1) [fun _ => 5, fun _ => 7] []).Exec as s
      ∧ s.calls = [[6, 8]] ∧ s.calls.length ≤ 1 := by
  have hrun : (program .objects (fun x : Object 1 Nat => x 0 + 1)
      [fun _ => 5, fun _ => 7] []).Exec
      [.main, .main, .main, .load 1 0, .worker 1, .load 0 0, .worker 0, .worker 0, .worker 1,
        .worker 1, .worker 0, .worker 0, .worker 1, .worker 1] _ :=
    ⟨start [fun _ => 5, fun _ => 7] [], rfl, System.run_ofFun_iff.mpr rfl⟩
  exact ⟨_, _, hrun, rfl, (async_vector_safe false _ _ _ _ hrun).1⟩

/-! ## Completion

Where no thread can go on, all of them have counted, so the last one has called. The empty vector is
the exception of the source. -/

/-- **Exactly once, but for the empty vector.** For any number of elements but zero every completed
run has called the callback once, whatever the caller assigns meanwhile. -/
theorem callback_once_iff (T : Template) (f : Object k γ → β) (ins : List (Object k γ))
    (assigns : List (Nat × Object k γ)) :
    (∀ as s, (program T f ins assigns).Exec as s → Completed s → s.calls.length = 1)
      ↔ ins ≠ [] := by
  rw [← List.length_pos_iff]
  constructor
  · intro honce
    -- some run completes; in it the calls are counted by `Control.completed`
    obtain ⟨as, s, hexec, hlaunched⟩ := exists_launched T f ins assigns
    obtain ⟨bs, t, hrun, -, hdone⟩ :=
      exists_completed T f ins assigns (reachable_control hexec.reachable) hlaunched.main
    have hall := hexec.extend hrun
    have hcalls := honce _ t hall hdone
    rw [(reachable_control hall.reachable).completed hdone] at hcalls
    by_contra hempty
    rw [if_neg hempty] at hcalls
    cases hcalls
  · intro hpos as s hexec hdone
    rw [(reachable_control hexec.reachable).completed hdone, if_pos hpos]

/-- On the empty vector `async_vector` returns at once, and nobody calls the callback. -/
theorem callback_missing_on_empty : ∃ as s,
    (program .objects (fun x : Object 1 Nat => x 0) [] []).Exec as s
      ∧ Completed s ∧ s.calls.length ≠ 1 := by
  have hrun : (program .objects (fun x : Object 1 Nat => x 0) [] []).Exec [.main] _ :=
    ⟨start [] [], rfl, System.run_ofFun_iff.mpr rfl⟩
  exact ⟨_, _, hrun, ⟨rfl, fun _ => Or.inl rfl⟩, by decide⟩

/-! ## Inputs by value

If something makes a difference to a result there is a run in which it does: `run_torn` and
`run_lost` lead to a state in which the slot has got another value for good, and from there all
threads can finish. -/

/-- If every output is right, so is a value that a slot has for good. -/
theorem settled_eq {x : Object k γ} {v : β}
    (hvalue : ∀ as s, (program T f ins assigns).Exec as s → ∀ out ∈ s.calls, out = ins.map f)
    (hexec : (program T f ins assigns).Exec as s) (hmain : s.main = .returned)
    (hsettled : Settled i v s) (hx : ins[i]? = some x) : v = f x := by
  obtain ⟨bs, t, hrun, hbs, hdone⟩ :=
    exists_completed T f ins assigns (reachable_control hexec.reachable) hmain
  have hall := hexec.extend hrun
  have hlt : i < ins.length := (List.getElem?_eq_some_iff.mp hx).1
  have hone := (reachable_control hall.reachable).completed hdone
  rw [if_pos (by omega)] at hone
  obtain ⟨out, hout⟩ : ∃ out, out ∈ t.calls := List.exists_mem_of_length_pos (by omega)
  -- the one output, once from the run and once from the law
  have hend : Settled i v t := run_keeps (fun _ _ _ ha h hturn => h.turn ha hturn) hrun hbs hsettled
  have hseen := hend.calls out hout
  rw [hvalue _ t hall out hout, List.getElem?_map, hx] at hseen
  exact (Option.some.inj hseen).symm

/-- **When the output is that of the call**, for every template, function and vector and all
assignments that the caller makes afterwards: exactly if `f` does not see the words that can be
loaded in the place of an element's, unless it is copied at the call, and has the value that the
slots begin with wherever two results share a word. -/
theorem by_value_iff (T : Template) (f : Object k γ → β) (ins : List (Object k γ))
    (assigns : List (Nat × Object k γ)) :
    (∀ as s, (program T f ins assigns).Exec as s → ∀ out ∈ s.calls, out = ins.map f)
      ↔ (T.byValue = false → ∀ (i : Nat) x y, ins[i]? = some x →
          (∀ w, Word ins assigns i w (y w)) → f y = f x)
        ∧ ∀ (i j : Nat) x, ins[i]? = some x → j < ins.length → i ≠ j →
          i / T.perWord = j / T.perWord → f x = default := by
  constructor
  · intro hvalue
    refine ⟨fun href i x y hx hy => ?_, fun i j x hx hj hne hword => ?_⟩
    · obtain ⟨as, s, hexec, hmain, hsettled⟩ := run_torn (T := T) (f := f) href hx hy
      exact settled_eq hvalue hexec hmain hsettled hx
    · obtain ⟨as, s, hexec, hmain, hsettled⟩ :=
        run_lost T f ins assigns hx hj hne hword
      exact (settled_eq hvalue hexec hmain hsettled hx).symm
  · intro ⟨hcopied, hshared⟩ as s hexec out hout
    exact (reachable_slots ⟨hcopied, hshared⟩ hexec.reachable).calls out hout

/-- The caller overwrites `1` by `5`, and then the thread loads its element. -/
theorem assignment_reaches_output : ∃ as s,
    (program .objects (fun x : Object 1 Nat => x 0) [fun _ => 1] [(0, fun _ => 5)]).Exec as s
      ∧ ∃ out ∈ s.calls, out ≠ [fun _ => 1].map fun x : Object 1 Nat => x 0 := by
  have hrun : (program .objects (fun x : Object 1 Nat => x 0) [fun _ => 1]
      [(0, fun _ => 5)]).Exec [.main, .main, .caller, .load 0 0, .worker 0, .worker 0, .worker 0,
        .worker 0, .worker 0] _ :=
    ⟨start [fun _ => 1] [(0, fun _ => 5)], rfl, System.run_ofFun_iff.mpr rfl⟩
  exact ⟨_, _, hrun, [5], List.mem_singleton.mpr rfl, by decide⟩

/-- Two results of `std::vector<bool>`: both threads load the word before either stores it, and
the second store undoes the first one. -/
example : ∃ as s, (program ⟨true, 64⟩ (fun x : Object 1 Bool => x 0)
    [fun _ => true, fun _ => true] []).Exec as s ∧ s.calls = [[false, true]] := by
  have hrun : (program ⟨true, 64⟩ (fun x : Object 1 Bool => x 0)
      [fun _ => true, fun _ => true] []).Exec [.main, .main, .main, .worker 0, .worker 1,
        .worker 0, .worker 1, .worker 0, .worker 1, .worker 1] _ :=
    ⟨start [fun _ => true, fun _ => true] [], rfl, System.run_ofFun_iff.mpr rfl⟩
  exact ⟨_, _, hrun, rfl⟩

end HseDev.Sem24
