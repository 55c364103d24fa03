import HseDev.Sem23.SafeQueue
import Mathlib.Data.Fintype.Sum
import Mathlib.Data.List.FinRange

/-!
# HseDev — when `safe_queue` loses a wakeup

Producers and consumers sleep on one condition variable, and `pthread_cond_signal` wakes
one of them. With one producer and one consumer the signal always meets the thread it is
meant for; with two threads of a kind and one of the other it can be absorbed by a thread
of the signaller's own kind, and everybody sleeps on.

* **`LostWakeup`** — everybody is asleep though the slot has what some sleeper waits for.
* **`wakesWhomItServes`** — while there is at most one thread of each kind, or only one
  kind at all, nobody sleeps on a guard that is true.
* **`lost_of_two_consumers`**, **`lost_of_two_producers`** — the two runs into the
  standstill, for any larger numbers of threads.
* **`no_lost_wakeup_iff`** — so the thread counts decide.
-/

namespace HseDev.Sem23

open Monitor Transition

variable {p c : Nat}

/-- `p` producers and `c` consumers, with the queue. -/
abbrev QueueState (p c : Nat) := State (Fin p ⊕ Fin c) SafeQueue Unit Op

/-- **A lost wakeup**: every thread sleeps in `pthread_cond_wait`, and no wakeup is pending,
while the slot is empty and a producer sleeps, or full and a consumer does. -/
def LostWakeup (s : QueueState p c) : Prop :=
  (∀ t, IsWaiting s t)
    ∧ ((s.shared.exists_ = 0 ∧ ∃ i, IsWaiting s (.inl i))
      ∨ (s.shared.exists_ = 1 ∧ ∃ j, IsWaiting s (.inr j)))

/-- One kind of threads, or one thread of each kind. -/
def OneEach (p c : Nat) : Prop :=
  p = 0 ∨ c = 0 ∨ (p = 1 ∧ c = 1)

/-! ## At most one of each

With one thread of each kind a signal meets the thread it is meant for, or nobody sleeps. With only
one kind there is nobody to serve: a sleeper waits for a guard that no other thread opens. -/

/-- With a thread of each kind at hand there is no third. -/
theorem OneEach.eq_inl_or_inr (hone : OneEach p c) (i : Fin p) (j : Fin c) (v : Fin p ⊕ Fin c) :
    v = .inl i ∨ v = .inr j := by
  rcases hone with rfl | rfl | ⟨rfl, rfl⟩
  · exact i.elim0
  · exact j.elim0
  · rcases v with i' | j'
    · exact Or.inl (by rw [Subsingleton.elim i' i])
    · exact Or.inr (by rw [Subsingleton.elim j' j])

/-- Two threads of a kind keep each other's guards false; a thread of the other kind is the
only one a signal can meet. -/
theorem wakesWhomItServes {s : QueueState p c} (hone : OneEach p c)
    (hcalled : Called (queueUsers p c) s) : WakesWhomItServes safeQueue (queueUsers p c) s := by
  intro t l op d u l' op' hattempt hdone hwait
  have hcalls := hattempt.calls hcalled
  have hcalls' := hcalled u l' op' (Or.inl hwait)
  have hawake := hattempt.not_waiting
  have hsignals := safeQueue_signals hdone
  rcases t with i | j <;> rcases u with i' | j'
  · -- a producer has filled the slot
    obtain ⟨_, rfl⟩ := hcalls
    obtain ⟨_, rfl⟩ := hcalls'
    obtain ⟨_, rfl⟩ := release_eq_some.mp hdone
    exact Or.inl (release_eq_none.mpr (show (1 : Int32) ≠ 0 by decide))
  · -- the other thread is the only one there is to wake
    refine Or.inr ⟨hsignals, fun v hv => ?_⟩
    rcases hone.eq_inl_or_inr i j' v with rfl | rfl
    · exact absurd hv hawake
    · rfl
  · refine Or.inr ⟨hsignals, fun v hv => ?_⟩
    rcases hone.eq_inl_or_inr i' j v with rfl | rfl
    · rfl
    · exact absurd hv hawake
  · -- a consumer has emptied it
    cases hcalls
    cases hcalls'
    obtain ⟨_, rfl⟩ := acquire_eq_some.mp hdone
    exact Or.inl (acquire_eq_none.mpr rfl)

/-- If nobody sleeps on an open guard, then no wakeup is lost: what the sleeper called says which
guard it is. -/
theorem not_lost {s : QueueState p c} (hcalled : Called (queueUsers p c) s)
    (hblocked : SleepersBlocked safeQueue s) : ¬ LostWakeup s := by
  rintro ⟨_, ⟨hempty, i, l, op, hwait⟩ | ⟨hfull, j, l, op, hwait⟩⟩
  · obtain ⟨value, rfl⟩ := hcalled _ _ _ (Or.inl hwait)
    exact release_eq_none.mp (hblocked _ _ _ hwait) hempty
  · obtain rfl := hcalled _ _ _ (Or.inl hwait)
    have hzero := acquire_eq_none.mp (hblocked _ _ _ hwait)
    rw [hfull] at hzero
    exact absurd hzero (by decide)

/-! ## Two of a kind and one of the other

The other direction needs a run for every larger number of threads. It is put together by the
standstill rule of the monitor: one kind sleeps, one thread of the other completes and wakes one of
them, the rest of the other kind falls asleep, and the woken thread signals to its own kind. -/

/-- The operation thread `t` calls in the runs below. -/
def lostOp : Fin p ⊕ Fin c → Op
  | .inl _ => .release 0
  | .inr _ => .acquire

theorem lostOp_calls (t : Fin p ⊕ Fin c) : (queueUsers p c).calls t () (lostOp t) := by
  rcases t with i | j
  · exact ⟨0, rfl⟩
  · rfl

def producers (p c : Nat) : List (Fin p ⊕ Fin c) := (List.finRange p).map .inl
def consumers (p c : Nat) : List (Fin p ⊕ Fin c) := (List.finRange c).map .inr

theorem nodup_producers : (producers p c).Nodup :=
  (List.nodup_finRange p).map Sum.inl_injective

theorem nodup_consumers : (consumers p c).Nodup :=
  (List.nodup_finRange c).map Sum.inr_injective

theorem mem_producers {t : Fin p ⊕ Fin c} : t ∈ producers p c ↔ ∃ i, t = .inl i := by
  simp [producers, eq_comm]

theorem mem_consumers {t : Fin p ⊕ Fin c} : t ∈ consumers p c ↔ ∃ j, t = .inr j := by
  simp [consumers, eq_comm]

/-- Every thread is a producer or a consumer, in the form in which the standstill rule asks for it.
-/
theorem mem_consumers_iff (t : Fin p ⊕ Fin c) : t ∈ consumers p c ↔ t ∉ producers p c := by
  rcases t with i | j <;> simp [producers, consumers]

theorem mem_producers_iff (t : Fin p ⊕ Fin c) : t ∈ producers p c ↔ t ∉ consumers p c := by
  rcases t with i | j <;> simp [producers, consumers]

/-- In an empty queue every consumer waits. -/
theorem consumers_wait {q : SafeQueue} (hempty : q.exists_ = 0) :
    ∀ t ∈ consumers p c, safeQueue (lostOp t) q = none := by
  intro t ht
  obtain ⟨j, rfl⟩ := mem_consumers.mp ht
  exact acquire_eq_none.mpr hempty

/-- In a full queue every producer waits. -/
theorem producers_wait {q : SafeQueue} (hfull : q.exists_ ≠ 0) :
    ∀ t ∈ producers p c, safeQueue (lostOp t) q = none := by
  intro t ht
  obtain ⟨i, rfl⟩ := mem_producers.mp ht
  exact release_eq_none.mpr hfull

def startState (p c : Nat) : QueueState p c where
  shared := safeQueueInit
  thread _ := .running ()

/-- **Two consumers.** They sleep on the empty queue; a producer fills it and wakes one of
them; all producers fall asleep on the full queue; the consumer empties it, and its signal
goes to another consumer, which finds nothing. -/
theorem lost_of_two_consumers (hp : 1 ≤ p) (hc : 2 ≤ c) :
    ∃ s, (system safeQueue safeQueueInit (queueUsers p c)).Reachable s ∧ LostWakeup s := by
  obtain ⟨as, s, hrun, hsleep, hshared⟩ := run_standstill safeQueue safeQueueInit
    (C := queueUsers p c) (s := startState p c) (fun _ => ()) lostOp
    (.inl ⟨0, hp⟩) (.inr ⟨0, by omega⟩) (.inr ⟨1, hc⟩)
    nodup_producers nodup_consumers mem_consumers_iff (mem_producers.mpr ⟨_, rfl⟩)
    (mem_consumers.mpr ⟨_, rfl⟩) (mem_consumers.mpr ⟨_, rfl⟩) (by simp) (fun _ => rfl)
    lostOp_calls (fun _ _ => rfl) (consumers_wait rfl) (release_eq_some.mpr ⟨rfl, rfl⟩) rfl
    (producers_wait (by decide)) (acquire_eq_some.mpr ⟨by decide, rfl⟩) rfl (consumers_wait rfl)
  refine ⟨s, ⟨as, _, rfl, hrun⟩, hsleep, Or.inl ⟨?_, ⟨0, hp⟩, hsleep _⟩⟩
  rw [hshared]

/-- **Two producers.** One fills the queue and all of them fall asleep; a consumer empties
it and wakes one; all consumers fall asleep on the empty queue; the producer fills it, and
its signal goes to another producer, which finds no room. -/
theorem lost_of_two_producers (hp : 2 ≤ p) (hc : 1 ≤ c) :
    ∃ s, (system safeQueue safeQueueInit (queueUsers p c)).Reachable s ∧ LostWakeup s := by
  have hattempt : Attempts (queueUsers p c) (startState p c) (.inl ⟨0, by omega⟩) () (.release 0) :=
    Or.inl ⟨rfl, lostOp_calls _⟩
  have hquiet : ∀ t, ¬ IsWaiting (startState p c) t := by
    rintro t ⟨l, op, h⟩
    cases h
  obtain ⟨s₁, hstep, hshared₁, hthread₁⟩ := step_complete_quiet safeQueue hattempt
    (release_eq_some.mpr ⟨rfl, rfl⟩) hquiet
  have hrunning₁ : ∀ t, s₁.thread t = .running () := by
    intro t
    rw [hthread₁]
    split <;> rfl
  obtain ⟨as, s, hrun, hsleep, hshared⟩ := run_standstill safeQueue safeQueueInit
    (C := queueUsers p c) (s := s₁) (fun _ => ()) lostOp
    (.inr ⟨0, hc⟩) (.inl ⟨0, by omega⟩) (.inl ⟨1, hp⟩)
    nodup_consumers nodup_producers mem_producers_iff (mem_consumers.mpr ⟨_, rfl⟩)
    (mem_producers.mpr ⟨_, rfl⟩) (mem_producers.mpr ⟨_, rfl⟩) (by simp) hrunning₁
    lostOp_calls (fun _ _ => rfl) (producers_wait (by rw [hshared₁]; decide))
    (acquire_eq_some.mpr ⟨by rw [hshared₁]; decide, rfl⟩) rfl (consumers_wait rfl)
    (release_eq_some.mpr ⟨rfl, rfl⟩) rfl (producers_wait (by decide))
  have hreach : (system safeQueue safeQueueInit (queueUsers p c)).Reachable s₁ :=
    ⟨_, startState p c, rfl, System.Run.single hstep⟩
  refine ⟨s, hreach.extend hrun, hsleep, Or.inr ⟨?_, ⟨0, hc⟩, hsleep _⟩⟩
  rw [hshared]

/-! ## The exact condition

Both directions, as statements about the two thread counts. -/

/-- **No wakeup is lost exactly while there is one thread of each kind, or only one kind.** -/
theorem no_lost_wakeup_iff (p c : Nat) :
    (∀ s, (system safeQueue safeQueueInit (queueUsers p c)).Reachable s → ¬ LostWakeup s)
      ↔ p = 0 ∨ c = 0 ∨ (p = 1 ∧ c = 1) := by
  constructor
  · intro hnone
    by_contra hmore
    -- two threads of one kind, and one of the other
    have hkinds : (1 ≤ p ∧ 2 ≤ c) ∨ (2 ≤ p ∧ 1 ≤ c) := by omega
    rcases hkinds with ⟨hp, hc⟩ | ⟨hp, hc⟩
    · obtain ⟨s, hs, hlost⟩ := lost_of_two_consumers hp hc
      exact hnone s hs hlost
    · obtain ⟨s, hs, hlost⟩ := lost_of_two_producers hp hc
      exact hnone s hs hlost
  · intro hone s hs
    exact not_lost (reachable_called hs)
      (reachable_sleepersBlocked (fun _ => wakesWhomItServes hone) hs)

/-- With one producer and two consumers the queue can come to a standstill. -/
theorem lost_wakeup_one_two :
    ¬ ∀ s, (system safeQueue safeQueueInit (queueUsers 1 2)).Reachable s → ¬ LostWakeup s := by
  intro hnone
  obtain ⟨s, hs, hlost⟩ := lost_of_two_consumers (p := 1) (c := 2) (by decide) (by decide)
  exact hnone s hs hlost

end HseDev.Sem23
