import HseDev.Lib.Monitor

/-!
# HseDev — `safe_queue` of `sem23/task22_2.c`

A queue of one slot under a mutex and one condition variable. `safeQueueAcquire` and
`safeQueueRelease` are the critical sections of the two functions: `none` is the
`pthread_cond_wait` of their loop, and both signal before they unlock.

* **`SlotLaw`** — what the slot holds is exactly what was stored and not yet returned.
* **`safe_queue_fifo`** — the law after every run, for any threads that call the two
  functions in any order. It is proved on the sequential runs of the slot; the monitor rule
  carries it to the threads.
-/

namespace HseDev.Sem23

open Monitor Transition

/-- `safe_queue_t` less its mutex and its condition variable. -/
structure SafeQueue where
  exists_ : Int32
  value : UInt64
  deriving DecidableEq, Repr

def safeQueueInit : SafeQueue where
  exists_ := 0
  value := 0

/-- What a thread can call, `release` with the value it stores. -/
inductive Op where
  | acquire
  | release (value : UInt64)
  deriving DecidableEq, Repr

/-- The return value; `none` of a `void` function. -/
abbrev Result := Option UInt64

def safeQueueAcquire (c : SafeQueue) : Option (Done SafeQueue Result) :=
  if c.exists_ = 0 then none
  else some { state := { c with exists_ := 0 }, result := some c.value, signals := true }

def safeQueueRelease (c : SafeQueue) (value : UInt64) : Option (Done SafeQueue Result) :=
  if c.exists_ ≠ 0 then none
  else some { state := { exists_ := 1, value := value }, result := none, signals := true }

def safeQueue : Op → SafeQueue → Option (Done SafeQueue Result)
  | .acquire, c => safeQueueAcquire c
  | .release value, c => safeQueueRelease c value

/-! ## The two guards

When an operation waits, and what it does when it does not. The proofs about the queue use these
equivalences and never unfold the two operations. -/

/-- An acquire waits for a value. -/
theorem acquire_eq_none {c : SafeQueue} : safeQueue .acquire c = none ↔ c.exists_ = 0 := by
  simp [safeQueue, safeQueueAcquire]

/-- If there is one, it takes it and signals. -/
theorem acquire_eq_some {c : SafeQueue} {d : Done SafeQueue Result} :
    safeQueue .acquire c = some d ↔
      c.exists_ ≠ 0 ∧ d = ⟨{ c with exists_ := 0 }, some c.value, true⟩ := by
  simp only [safeQueue, safeQueueAcquire]
  split <;> simp_all [eq_comm]

/-- A release waits for room. -/
theorem release_eq_none {c : SafeQueue} {value : UInt64} :
    safeQueue (.release value) c = none ↔ c.exists_ ≠ 0 := by
  simp [safeQueue, safeQueueRelease]

/-- If there is room, it fills the slot and signals. -/
theorem release_eq_some {c : SafeQueue} {value : UInt64} {d : Done SafeQueue Result} :
    safeQueue (.release value) c = some d ↔
      c.exists_ = 0 ∧ d = ⟨{ exists_ := 1, value := value }, none, true⟩ := by
  simp only [safeQueue, safeQueueRelease]
  split <;> simp_all [eq_comm]

/-- Every operation that completes wakes somebody, if somebody sleeps. -/
theorem safeQueue_signals {op : Op} {q : SafeQueue} {d : Done SafeQueue Result}
    (h : safeQueue op q = some d) : d.signals = true := by
  cases op with
  | acquire =>
    obtain ⟨_, rfl⟩ := acquire_eq_some.mp h
    rfl
  | release value =>
    obtain ⟨_, rfl⟩ := release_eq_some.mp h
    rfl

/-! ## First in, first out

The queue holds at most one value, so first in, first out is a balance: what was stored is what was
returned and what is in the slot. It is a law of completed operations and does not depend on who
calls them. -/

/-- The values the completed `safe_queue_release`s stored, in their order. -/
def stored (log : List (Op × Result)) : List UInt64 :=
  log.filterMap fun
    | (.release value, _) => some value
    | _ => none

/-- The values the completed `safe_queue_acquire`s returned, in their order. -/
def returned (log : List (Op × Result)) : List UInt64 :=
  log.filterMap fun
    | (.acquire, result) => result
    | _ => none

section Logs

variable (log : List (Op × Result)) (value : UInt64) (r : Result)

@[simp] theorem stored_acquire : stored (log ++ [(.acquire, r)]) = stored log := by
  simp [stored]

@[simp] theorem stored_release : stored (log ++ [(.release value, r)]) = stored log ++ [value] := by
  simp [stored]

@[simp] theorem returned_acquire :
    returned (log ++ [(.acquire, some value)]) = returned log ++ [value] := by
  simp [returned]

@[simp] theorem returned_release : returned (log ++ [(.release value, r)]) = returned log := by
  simp [returned]

end Logs

/-- The values in the slot. -/
def SafeQueue.pending (c : SafeQueue) : List UInt64 :=
  if c.exists_ = 0 then [] else [c.value]

/-- **The law of the slot.** -/
structure SlotLaw (log : List (Op × Result)) (c : SafeQueue) : Prop where
  flag : c.exists_ = 0 ∨ c.exists_ = 1
  balance : stored log = returned log ++ c.pending

/-- An empty queue and an empty log balance. -/
theorem SlotLaw.init : SlotLaw [] safeQueueInit :=
  ⟨Or.inl rfl, rfl⟩

/-- One completed operation keeps the balance. An acquire returns the value of the slot, which was
the last one stored; a release finds the slot empty. -/
theorem SlotLaw.step {log : List (Op × Result)} {c : SafeQueue} {op : Op}
    {d : Done SafeQueue Result} (hlaw : SlotLaw log c) (hdone : safeQueue op c = some d) :
    SlotLaw (log ++ [(op, d.result)]) d.state := by
  have hbalance := hlaw.balance
  cases op with
  | acquire =>
    obtain ⟨hfull, rfl⟩ := acquire_eq_some.mp hdone
    refine ⟨Or.inl rfl, ?_⟩
    rw [SafeQueue.pending, if_neg hfull] at hbalance
    rw [stored_acquire, returned_acquire, hbalance]
    exact (List.append_nil _).symm
  | release value =>
    obtain ⟨hempty, rfl⟩ := release_eq_some.mp hdone
    refine ⟨Or.inr rfl, ?_⟩
    rw [SafeQueue.pending, if_pos hempty, List.append_nil] at hbalance
    rw [stored_release, returned_release, hbalance]
    rfl

/-! ## The threads

Any client at all, with any number of threads, in any interleaving and with any choice of whom a
signal wakes. -/

variable {T L : Type*} [DecidableEq T]

/-- The law holds after every run of any threads on the queue. -/
theorem exec_slotLaw {C : Client T L Op Result} {as : List (Event T Op Result)}
    {s : State T SafeQueue L Op} (hrun : (system safeQueue safeQueueInit C).Exec as s) :
    SlotLaw (completed as) s.shared :=
  completed_induction .init (fun _ _ _ _ hlaw hdone => hlaw.step hdone) hrun

/-- **No loss, no duplication, first in first out.** Whatever the threads do, the returned
values are the first of the stored ones, and the one stored value that may be missing is the
one in the slot. -/
theorem safe_queue_fifo (C : Client T L Op Result) {as : List (Event T Op Result)}
    {s : State T SafeQueue L Op} (hrun : (system safeQueue safeQueueInit C).Exec as s) :
    returned (completed as) <+: stored (completed as)
      ∧ (s.shared.exists_ = 0 ∨ s.shared.exists_ = 1)
      ∧ (s.shared.exists_ = 0 → stored (completed as) = returned (completed as))
      ∧ (s.shared.exists_ = 1 →
          stored (completed as) = returned (completed as) ++ [s.shared.value]) := by
  obtain ⟨hflag, hbalance⟩ := exec_slotLaw hrun
  refine ⟨⟨_, hbalance.symm⟩, hflag, fun hempty => ?_, fun hfull => ?_⟩
  · rw [hbalance, SafeQueue.pending, if_pos hempty, List.append_nil]
  · have hne : s.shared.exists_ ≠ 0 := by
      rw [hfull]
      decide
    rw [hbalance, SafeQueue.pending, if_neg hne]

/-- `p` threads that call `safe_queue_release` again and again, with any values, and `c`
threads that call `safe_queue_acquire` again and again. -/
def queueUsers (p c : Nat) : Client (Fin p ⊕ Fin c) Unit Op Result where
  entry _ := ()
  silent _ _ _ := False
  calls
    | .inl _, _, op => ∃ value, op = .release value
    | .inr _, _, op => op = .acquire
  returns _ _ _ _ := ()

/-- While nobody sleeps, a call whose guard is open completes and leaves everybody running. -/
theorem queueUsers_call {p c : Nat} {q : SafeQueue} {t : Fin p ⊕ Fin c} {op : Op}
    {d : Done SafeQueue Result} (hcall : (queueUsers p c).calls t () op)
    (hdone : safeQueue op q = some d) :
    Step safeQueue (queueUsers p c) { shared := q, thread := fun _ => .running () }
      (.complete t op d.result) { shared := d.state, thread := fun _ => .running () } := by
  have hquiet : ∀ u, ¬ IsWaiting
      ({ shared := q, thread := fun _ => .running () } : State (Fin p ⊕ Fin c) _ Unit Op) u := by
    intro u ⟨l, op, h⟩
    cases h
  obtain ⟨⟨q', thread⟩, hstep, hshared, hthread⟩ :=
    step_complete_quiet safeQueue (Or.inl ⟨rfl, hcall⟩) hdone hquiet
  have hall : thread = fun _ => .running () := by
    funext u
    refine (hthread u).trans ?_
    split <;> rfl
  cases hshared
  exact hall ▸ hstep

/-- The producer stores `7`, the consumer returns it, and the producer stores `8`. -/
theorem safe_queue_fifo_one : ∃ as s, (system safeQueue safeQueueInit (queueUsers 1 1)).Exec as s
    ∧ stored (completed as) = [7, 8] ∧ returned (completed as) = [7] ∧ s.shared.exists_ = 1
    ∧ stored (completed as) = returned (completed as) ++ [s.shared.value] := by
  have hrelease (value : UInt64) : (queueUsers 1 1).calls (.inl 0) () (.release value) :=
    ⟨value, rfl⟩
  have hacquire : (queueUsers 1 1).calls (.inr 0) () .acquire := rfl
  have hexec : (system safeQueue safeQueueInit (queueUsers 1 1)).Exec
      [.complete (.inl 0) (.release 7) none, .complete (.inr 0) .acquire (some 7),
        .complete (.inl 0) (.release 8) none] _ :=
    ⟨_, rfl, .cons (queueUsers_call (hrelease 7) (d := ⟨⟨1, 7⟩, none, true⟩) rfl)
      (.cons (queueUsers_call hacquire (d := ⟨⟨0, 7⟩, some 7, true⟩) rfl)
        (.single (queueUsers_call (hrelease 8) (d := ⟨⟨1, 8⟩, none, true⟩) rfl)))⟩
  exact ⟨_, _, hexec, rfl, rfl, rfl, (safe_queue_fifo _ hexec).2.2.2 rfl⟩

end HseDev.Sem23
