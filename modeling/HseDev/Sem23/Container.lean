import HseDev.Lib.Monitor
import Mathlib.Data.Fintype.Card
import Mathlib.Data.Finset.Card

/-!
# HseDev — `Container` of `sem23/main.c`

A resource that one thread at a time takes out and puts back, under a mutex and a condition
variable. A signal may wake a thread that finds the resource taken by a newcomer; the next
release then signals again.

* **`containerAcquire`** / **`containerRelease`** — the two critical sections; `none` is the
  `pthread_cond_wait`. The value is read after the unlock, but nobody writes it.
* **`Lease`** — `exists` and who holds the resource; a law of whole operations
  (`atomic_induction`).
* **`SomebodyAwake`** — while the resource is free and a thread sleeps, another one has been
  woken; so after every step.
* **`container_lease`** — both, in every reachable state.
-/

namespace HseDev.Sem23

open Monitor Transition

variable {V : Type*}

/-- `struct Container` less its mutex and its condition variable. -/
structure Container (V : Type*) where
  exists_ : Int32
  value : V
  deriving DecidableEq, Repr

inductive ContainerOp where
  | acquire
  | release
  deriving DecidableEq, Repr

def containerAcquire (c : Container V) : Option (Done (Container V) (Option V)) :=
  if c.exists_ = 0 then none
  else some { state := { c with exists_ := 0 }, result := some c.value, signals := false }

def containerRelease (c : Container V) : Option (Done (Container V) (Option V)) :=
  some { state := { c with exists_ := 1 }, result := none, signals := true }

def container : ContainerOp → Container V → Option (Done (Container V) (Option V))
  | .acquire, c => containerAcquire c
  | .release, c => containerRelease c

/-- The only guard of the container that can be false is that of an acquire, while the resource is
out. -/
theorem container_eq_none {op : ContainerOp} {c : Container V} :
    container op c = none ↔ op = .acquire ∧ c.exists_ = 0 := by
  cases op <;> simp [container, containerAcquire, containerRelease]

/-- An acquire that goes through has found the resource there and takes it; it wakes nobody. -/
theorem containerAcquire_eq_some {c : Container V} {d : Done (Container V) (Option V)}
    (h : container .acquire c = some d) :
    c.exists_ ≠ 0 ∧ d = ⟨{ c with exists_ := 0 }, some c.value, false⟩ := by
  simp only [container, containerAcquire] at h
  split at h
  · cases h
  · next hne => exact ⟨hne, (Option.some.inj h).symm⟩

/-- A release always goes through, and it signals. -/
theorem containerRelease_eq_some {c : Container V} {d : Done (Container V) (Option V)}
    (h : container .release c = some d) : d = ⟨{ c with exists_ := 1 }, none, true⟩ :=
  (Option.some.inj h).symm

/-! ## The threads

The threads use the container as the source's `main` does: a release follows an acquire of the same
thread. Nothing in the container enforces this, so it is a property of the client. -/

inductive Hold where
  | idle
  | holding
  deriving DecidableEq, Repr

/-- Threads that acquire, release what they hold, and begin again. -/
def leasers (T V : Type*) : Client T Hold ContainerOp (Option V) where
  entry _ := .idle
  silent _ _ _ := False
  calls
    | _, .idle, op => op = .acquire
    | _, .holding, op => op = .release
  returns
    | _, _, .acquire, _ => .holding
    | _, _, .release, _ => .idle

/-- **The lease**: the resource is free, or one thread holds it. -/
def Lease {T : Type*} (c : Container V) (holds : T → Hold) : Prop :=
  (c.exists_ = 1 ∧ ∀ t, holds t = .idle)
    ∨ (c.exists_ = 0 ∧ ∃ t, ∀ u, holds u = .holding ↔ u = t)

variable {T : Type*} [DecidableEq T]

/-- One operation keeps the lease. An acquire can only find the resource if nobody holds it, and a
release can only come from the one thread that does. -/
theorem Lease.op {c : Container V} {holds : T → Hold} {t : T} {op : ContainerOp}
    {d : Done (Container V) (Option V)} (h : Lease c holds)
    (hcalls : (leasers T V).calls t (holds t) op) (hdone : container op c = some d) :
    Lease d.state (Function.update holds t ((leasers T V).returns t (holds t) op d.result)) := by
  cases op with
  | acquire =>
    obtain ⟨hne, rfl⟩ := containerAcquire_eq_some hdone
    rcases h with ⟨_, hidle⟩ | ⟨hzero, _⟩
    · refine Or.inr ⟨rfl, t, fun u => ?_⟩
      by_cases hut : u = t
      · subst hut
        simp [leasers]
      · rw [Function.update_of_ne hut, hidle u]
        simp [hut]
    · exact absurd hzero hne
  | release =>
    have hd := containerRelease_eq_some hdone
    subst hd
    have hholds : holds t = .holding := by
      cases ht : holds t with
      | idle =>
        rw [ht] at hcalls
        cases hcalls
      | holding => rfl
    left
    refine ⟨rfl, fun u => ?_⟩
    rcases h with ⟨_, hidle⟩ | ⟨_, w, hw⟩
    · rw [hidle t] at hholds
      cases hholds
    · -- only `t` held it
      obtain rfl := (hw t).mp hholds
      by_cases hut : u = t
      · subst hut
        simp [leasers]
      · rw [Function.update_of_ne hut]
        cases hu : holds u with
        | idle => rfl
        | holding => exact absurd ((hw u).mp hu) hut

/-- The lease holds in every reachable state. -/
theorem reachable_lease {value : V} {s : Monitor.State T (Container V) Hold ContainerOp}
    (hs : (system container ⟨1, value⟩ (leasers T V)).Reachable s) : Lease s.shared s.locals := by
  obtain ⟨as, hexec⟩ := hs
  refine atomic_induction (P := fun _ c holds => Lease c holds) (Or.inl ⟨rfl, fun _ => rfl⟩)
    ?_ ?_ hexec
  · intro _ _ _ _ _ _ hsilent
    exact hsilent.elim
  · intro _ _ _ _ _ _ h hcalls hdone
    exact h.op hcalls hdone

/-! ## Sleepers

No sleeper is forgotten: a release wakes one, and if a newcomer takes the resource before the woken
thread runs again, the newcomer's own release will wake the next. -/

/-- While the resource is free and a thread sleeps, another one has been woken. -/
def SomebodyAwake (s : Monitor.State T (Container V) Hold ContainerOp) : Prop :=
  s.shared.exists_ ≠ 0 → (∃ t, IsWaiting s t) → ∃ u l op, s.thread u = .woken l op

/-- Every step leaves it so: no induction is needed. -/
theorem step_somebodyAwake {s s' : Monitor.State T (Container V) Hold ContainerOp}
    {a : Monitor.Event T ContainerOp (Option V)}
    (hstep : Step container (leasers T V) s a s') : SomebodyAwake s' := by
  intro hfree hsleeps
  cases hstep with
  | silent _ hsilent => exact hsilent.elim
  | wait _ hguard =>
    -- nobody falls asleep on a free resource
    exact absurd (container_eq_none.mp hguard).2 hfree
  | @spurious t l op _ => exact ⟨t, l, op, set_thread_self _⟩
  | @complete t l op d w hattempt hdone hwakes =>
    cases op with
    | acquire =>
      obtain ⟨_, rfl⟩ := containerAcquire_eq_some hdone
      exact absurd rfl hfree
    | release =>
      have hd := containerRelease_eq_some hdone
      subst hd
      obtain ⟨u, l', op', hu⟩ := hsleeps
      have hut : u ≠ t := by
        rintro rfl
        rw [set_thread_self] at hu
        cases hu
      rw [set_thread_ne _ hut] at hu
      have hwaits : IsWaiting (s.wake w) u := ⟨l', op', hu⟩
      obtain ⟨hwas, _⟩ := isWaiting_wake hwaits
      rw [if_pos rfl] at hwakes
      -- the signal found `u` asleep, so it woke somebody
      cases w with
      | none => exact absurd hwas (hwakes u)
      | some v =>
        obtain ⟨lv, opv, hv⟩ := hwakes
        have hvt : v ≠ t := by
          rintro rfl
          exact hattempt.not_waiting ⟨lv, opv, hv⟩
        refine ⟨v, lv, opv, ?_⟩
        rw [set_thread_ne _ hvt]
        show (s.wake (some v)).thread v = _
        rw [wake_thread, if_pos rfl, hv]
        rfl

/-- Only `containerAcquire` sleeps. -/
theorem woken_acquire {value : V} {s : Monitor.State T (Container V) Hold ContainerOp}
    (hs : (system container ⟨1, value⟩ (leasers T V)).Reachable s) {u : T} {l : Hold}
    {op : ContainerOp} (hu : s.thread u = .woken l op) : op = .acquire := by
  have hsleepers := sleepers_induction (Q := fun _ _ op => op = .acquire)
    (fun _ _ _ _ _ hguard => (container_eq_none.mp hguard).1) hs
  exact hsleepers u l op (Or.inr hu)

/-- The run lemma for the sleepers. -/
theorem reachable_somebodyAwake {value : V} {s : Monitor.State T (Container V) Hold ContainerOp}
    (hs : (system container ⟨1, value⟩ (leasers T V)).Reachable s) : SomebodyAwake s := by
  refine System.invariant (P := SomebodyAwake) ?_ ?_ hs
  · rintro s rfl _ ⟨t, l, op, hwait⟩
    cases hwait
  · intro s a s' _ hstep
    exact step_somebodyAwake hstep

/-! ## The container

The lease counted: the flag and the holders together are one. -/

/-- The number of resources that are there or out is always one. -/
theorem Lease.count [Fintype T] {c : Container V} {holds : T → Hold} (h : Lease c holds) :
    c.exists_.toInt + (Finset.univ.filter fun t => holds t = .holding).card = 1 := by
  rcases h with ⟨hone, hidle⟩ | ⟨hzero, t, hholds⟩
  · have hempty : (Finset.univ.filter fun t => holds t = .holding) = ∅ := by
      simp [hidle]
    rw [hempty, hone]
    rfl
  · have hsingle : (Finset.univ.filter fun t => holds t = .holding) = {t} := by
      ext u
      simp [hholds]
    rw [hsingle, hzero]
    rfl

/-- **Exclusive lease.** In every reachable state the resource is free or one thread holds it,
and while it is free with a thread asleep, another thread is on its way to take it. -/
theorem container_lease [Fintype T] {value : V}
    {s : Monitor.State T (Container V) Hold ContainerOp}
    (hs : (system container ⟨1, value⟩ (leasers T V)).Reachable s) :
    s.shared.exists_.toInt + (Finset.univ.filter fun t => s.locals t = .holding).card = 1
      ∧ ∀ t, s.shared.exists_ = 1 → IsWaiting s t →
        ∃ u l, u ≠ t ∧ s.thread u = .woken l .acquire := by
  refine ⟨(reachable_lease hs).count, fun t hone hwait => ?_⟩
  have hfree : s.shared.exists_ ≠ 0 := by
    rw [hone]
    decide
  obtain ⟨u, l, op, hu⟩ := reachable_somebodyAwake hs hfree ⟨t, hwait⟩
  obtain rfl := woken_acquire hs hu
  refine ⟨u, l, fun hut => ?_, hu⟩
  obtain ⟨l', op', hwait⟩ := hwait
  rw [← hut, hu] at hwait
  cases hwait

/-- Thread `0` releases while `1` and `2` sleep, and wakes `1`. -/
theorem container_lease_three :
    ∃ s, (system container ⟨1, 7⟩ (leasers (Fin 3) ℕ)).Reachable s
        ∧ (s.shared.exists_ = 1 ∧ IsWaiting s 2)
        ∧ s.shared.exists_.toInt + (Finset.univ.filter fun t => s.locals t = .holding).card = 1
        ∧ ∀ t, s.shared.exists_ = 1 → IsWaiting s t →
          ∃ u l, u ≠ t ∧ s.thread u = .woken l .acquire := by
  have h₀ : (system container ⟨1, 7⟩ (leasers (Fin 3) ℕ)).Reachable
      { shared := ⟨1, 7⟩, thread := fun _ => .running .idle } := ⟨[], _, rfl, .refl⟩
  have h₁ := h₀.step (.complete (t := 0) (w := none) (Or.inl ⟨rfl, rfl⟩) rfl rfl)
  have h₂ := h₁.step (.wait (t := 1) (Or.inl ⟨rfl, rfl⟩) rfl)
  have h₃ := h₂.step (.wait (t := 2) (Or.inl ⟨rfl, rfl⟩) rfl)
  have h₄ := h₃.step (.complete (t := 0) (w := some 1) (Or.inl ⟨rfl, rfl⟩) rfl ⟨_, _, rfl⟩)
  exact ⟨_, h₄, ⟨rfl, _, _, rfl⟩, container_lease h₄⟩

end HseDev.Sem23
