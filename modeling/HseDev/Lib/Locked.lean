import HseDev.Lib.ForkJoin
import Mathlib.Algebra.BigOperators.Group.Finset.Basic

/-!
# Critical sections under one lock

Threads that only touch the shared data between a lock and an unlock. A critical section is a
list of accesses, each a load or a store between the data and the registers of its thread, and
every access is a step of its own. A thread that finds the lock taken is blocked (`mutex`) or
goes round in a loop (`spin`).

* **`Sections`**, **`body`** — the sections of each thread and the threads as the code of a
  fork-join program.
* **`Exclusive`** — mutual exclusion, which every step keeps.
* **`IsTotal`** — a description of the data by how many sections each thread has completed;
  **`summary_of_reachable`** says that it holds whenever the lock is free, and what the data is
  inside a section.
* **`isTotal_sum`** — such a description when every section adds something.
* **`live`**, **`stuck`**, **`work_step`** — what the rules for fork-join programs ask for.
-/

namespace Locked

open Transition ForkJoin

variable {σ R ρ : Type*}

/-- The critical sections of each thread: how many, the registers at the lock, the accesses. -/
structure Sections (σ R : Type*) where
  count : Nat → Nat
  entry : Nat → Nat → R
  accesses : Nat → Nat → List (R × σ → R × σ)

/-- The shared data and who holds the lock. -/
structure Guarded (σ : Type*) where
  data : σ
  owner : Option Nat

/-- Between two sections, with the number of those completed, or inside one, with the number of
its accesses that are done. -/
inductive Pc (R : Type*) where
  | outside (i : Nat)
  | inside (i k : Nat) (r : R)

def Pc.completed : Pc R → Nat
  | .outside i => i
  | .inside i _ _ => i

def Pc.Inside (l : Pc R) : Prop :=
  ∃ i k r, l = .inside i k r

/-- What a thread does that finds the lock taken. -/
inductive Kind where
  | mutex
  | spin
  deriving DecidableEq, Repr

inductive Act where
  | lock
  | spin
  | access
  | unlock
  deriving DecidableEq, Repr

/-- One step of thread `t`. -/
inductive Step (P : Sections σ R) (kind : Kind) (t : Nat) :
    Guarded σ → Pc R → Act → Guarded σ → Pc R → Prop where
  | lock {d : σ} {i : Nat} (hlt : i < P.count t) :
      Step P kind t ⟨d, none⟩ (.outside i) .lock ⟨d, some t⟩ (.inside i 0 (P.entry t i))
  | spin {d : σ} {i u : Nat} (hlt : i < P.count t) (hkind : kind = .spin) :
      Step P kind t ⟨d, some u⟩ (.outside i) .spin ⟨d, some u⟩ (.outside i)
  | access {d : σ} {o : Option Nat} {i k : Nat} {r : R} {f : R × σ → R × σ}
      (hget : (P.accesses t i)[k]? = some f) :
      Step P kind t ⟨d, o⟩ (.inside i k r) .access ⟨(f (r, d)).2, o⟩
        (.inside i (k + 1) (f (r, d)).1)
  | unlock {d : σ} {o : Option Nat} {i : Nat} {r : R} :
      Step P kind t ⟨d, o⟩ (.inside i (P.accesses t i).length r) .unlock ⟨d, none⟩
        (.outside (i + 1))

/-- A thread has returned after its last section. -/
def body (P : Sections σ R) (kind : Kind) : Body (Guarded σ) (Pc R) Act where
  entry _ := .outside 0
  step := Step P kind
  returned t l := ∃ i, l = .outside i ∧ P.count t ≤ i

variable {P : Sections σ R} {kind : Kind} {M : Main (Guarded σ) ρ} {d₀ : σ}
  {s : State (Guarded σ) (Pc R) ρ}

/-- A thread that has returned takes no further step. -/
theorem stuck (t : Nat) (l : Pc R) (d : Guarded σ) (a : Act) (d' : Guarded σ) (l' : Pc R)
    (hret : (body P kind).returned t l) : ¬ (body P kind).step t d l a d' l' := by
  obtain ⟨i, rfl, hle⟩ := hret
  intro hstep
  cases hstep with
  | lock hlt | spin hlt _ => exact absurd hlt (Nat.not_lt.mpr hle)

/-! ## Mutual exclusion

The owner of the lock is the one thread that is inside a section. Only the lock and the unlock
change who that is. -/

/-- Exactly the owner of the lock is inside a section. -/
def Exclusive (d : Guarded σ) (th : Nat → Pc R) : Prop :=
  ∀ t, (th t).Inside ↔ d.owner = some t

/-- A thread that waits for the lock, or has not come to it, is not inside. -/
theorem not_inside_outside (i : Nat) : ¬ (Pc.outside i : Pc R).Inside := by
  rintro ⟨_, _, _, h⟩
  cases h

theorem inside_inside (i k : Nat) (r : R) : (Pc.inside i k r).Inside :=
  ⟨i, k, r, rfl⟩

/-- A step of any thread keeps the exclusion: it locks only a free lock, and unlocks only its own.
-/
theorem Exclusive.step {d d' : Guarded σ} {th : Nat → Pc R} {t : Nat} {a : Act} {l' : Pc R}
    (h : Exclusive d th) (hstep : Step P kind t d (th t) a d' l') :
    Exclusive d' (Function.update th t l') := by
  intro u
  generalize hl : th t = l at hstep
  rcases eq_or_ne u t with rfl | hne
  · rw [Function.update_self]
    cases hstep with
    | lock _ => exact iff_of_true (inside_inside _ _ _) rfl
    | spin _ _ =>
      have hu := h u
      rw [hl] at hu
      exact hu
    | access _ =>
      have hu := h u
      rw [hl] at hu
      exact iff_of_true (inside_inside _ _ _) (hu.mp (inside_inside _ _ _))
    | unlock => exact iff_of_false (not_inside_outside _) (Option.some_ne_none u).symm
  · rw [Function.update_of_ne hne]
    cases hstep with
    | lock _ =>
      exact iff_of_false (fun hin => Option.some_ne_none u ((h u).mp hin).symm)
        (fun heq => hne (Option.some.inj heq).symm)
    | spin _ _ => exact h u
    | access _ => exact h u
    | unlock =>
      -- the lock was that of `t`, so `u` is not inside
      have ht := h t
      rw [hl] at ht
      refine iff_of_false (fun hin => hne ?_) (Option.some_ne_none u).symm
      have howner := ht.mp (inside_inside _ _ _)
      rw [(h u).mp hin] at howner
      exact Option.some.inj howner

/-! ## What the sections have done

Since no other thread accesses the shared state in between, a section is an atomic operation on it,
and the state is what the completed sections have made of it. -/

/-- The first `k` accesses of a section. -/
def runTo (P : Sections σ R) (t i k : Nat) (d : σ) : R × σ :=
  ((P.accesses t i).take k).foldl (fun p f => f p) (P.entry t i, d)

/-- What a whole section does to the data. -/
def effect (P : Sections σ R) (t i : Nat) (d : σ) : σ :=
  (runTo P t i (P.accesses t i).length d).2

/-- Before its first access a section has its entry and the state as it was. -/
theorem runTo_zero (t i : Nat) (d : σ) : runTo P t i 0 d = (P.entry t i, d) := by
  rw [runTo, List.take_zero]
  rfl

theorem runTo_succ {t i k : Nat} {f : R × σ → R × σ} (hget : (P.accesses t i)[k]? = some f)
    (d : σ) : runTo P t i (k + 1) d = f (runTo P t i k d) := by
  rw [runTo, List.take_add_one, hget, List.foldl_append]
  rfl

/-- `total` is the data, from the number of sections each of the `n` threads has completed. -/
structure IsTotal (P : Sections σ R) (n : Nat) (d₀ : σ) (total : (Nat → Nat) → σ) : Prop where
  zero : total (fun _ => 0) = d₀
  section_done : ∀ c t, t < n → c t < P.count t →
    effect P t (c t) (total c) = total (Function.update c t (c t + 1))

def completed (th : Nat → Pc R) (t : Nat) : Nat :=
  (th t).completed

/-- A step of one thread changes the number of sections of that thread alone. -/
theorem completed_update (th : Nat → Pc R) (t : Nat) (l : Pc R) :
    completed (Function.update th t l) = Function.update (completed th) t l.completed := by
  funext u
  rcases eq_or_ne u t with rfl | hne
  · simp [completed]
  · simp [completed, hne]

/-- A step inside a section, or in front of one, completes none. -/
theorem completed_update_of_eq {th : Nat → Pc R} {t : Nat} {l : Pc R}
    (h : l.completed = (th t).completed) :
    completed (Function.update th t l) = completed th := by
  rw [completed_update, h]
  exact Function.update_eq_self t (completed th)

/-- The data while the lock is free, and inside a section the data and the registers. -/
structure Summary (P : Sections σ R) (total : (Nat → Nat) → σ) (d : Guarded σ)
    (th : Nat → Pc R) : Prop where
  exclusive : Exclusive d th
  free : d.owner = none → d.data = total (completed th)
  inside : ∀ t i k r, th t = .inside i k r →
    i < P.count t ∧ k ≤ (P.accesses t i).length ∧
      (r, d.data) = runTo P t i k (total (completed th))

variable {total : (Nat → Nat) → σ}

/-- Any step keeps the summary. Only the unlock completes a section, and then the accesses of it
have all been made, so that the total goes on to the next one. -/
theorem Summary.step {n t : Nat} (htotal : IsTotal P n d₀ total) {d d' : Guarded σ}
    {th : Nat → Pc R} {a : Act} {l' : Pc R} (ht : t < n) (h : Summary P total d th)
    (hstep : Step P kind t d (th t) a d' l') :
    Summary P total d' (Function.update th t l') := by
  have hex := h.exclusive.step hstep
  -- only `t` can be inside a section after the step, unless it was a spin
  generalize hl : th t = l at hstep
  cases hstep with
  | lock hlt =>
    refine ⟨hex, fun hfree => absurd hfree (Option.some_ne_none t), ?_⟩
    intro u i k r hu
    have hut : u = t := Option.some.inj ((hex u).mp ⟨i, k, r, hu⟩).symm
    subst hut
    rw [Function.update_self] at hu
    cases hu
    rw [completed_update_of_eq (by rw [hl]; rfl), runTo_zero, ← h.free rfl]
    exact ⟨hlt, Nat.zero_le _, rfl⟩
  | spin hlt hkind =>
    rw [← hl, Function.update_eq_self]
    exact h
  | @access d o i k r f hget =>
    obtain ⟨hi, hk, hrun⟩ := h.inside t i k r hl
    have howner : o = some t := by
      have ht := (h.exclusive t).mp ⟨i, k, r, hl⟩
      exact ht
    refine ⟨hex, fun hfree => ?_, ?_⟩
    · simp [howner] at hfree
    · intro u j m q hu
      have hut : u = t := by
        have hown := (hex u).mp ⟨j, m, q, hu⟩
        rw [show o = some u from hown] at howner
        exact Option.some.inj howner
      subst hut
      rw [Function.update_self] at hu
      cases hu
      rw [completed_update_of_eq (by rw [hl]; rfl), runTo_succ hget, ← hrun]
      refine ⟨hi, ?_, rfl⟩
      exact (List.getElem?_eq_some_iff.mp hget).1
  | @unlock d o i r =>
    obtain ⟨hi, _, hrun⟩ := h.inside t i _ r hl
    have hcompleted : completed th t = i := by
      rw [completed, hl]
      rfl
    refine ⟨hex, fun _ => ?_, ?_⟩
    · have heffect : d = effect P t i (total (completed th)) := by
        rw [effect, ← hrun]
      subst hcompleted
      rw [completed_update]
      exact heffect.trans (htotal.section_done _ t ht hi)
    · intro u j m q hu
      exact absurd ((hex u).mp ⟨j, m, q, hu⟩) (Option.some_ne_none u).symm

/-- **The data of a reachable state.** While the lock is free the data is the total of the
completed sections; while it is taken, the data is what the owner's accesses so far have made of
that. -/
theorem summary_of_reachable (htotal : IsTotal P M.threads d₀ total)
    (h : (system (body P kind) M ⟨d₀, none⟩).Reachable s) :
    Summary P total s.shared s.thread := by
  refine reachable_of_threads (P := Summary P total) ?_ ?_ h
  · refine ⟨?_, fun _ => htotal.zero.symm, ?_⟩
    · intro t
      exact iff_of_false (not_inside_outside 0) (Option.some_ne_none t).symm
    · intro t i k r hin
      cases hin
  · intro t d th a d' l' ht hsum hstep
    exact hsum.step htotal ht hstep

/-- No thread completes more sections than it has. -/
theorem completed_le_of_reachable (h : (system (body P kind) M ⟨d₀, none⟩).Reachable s) (t : Nat) :
    completed s.thread t ≤ P.count t
      ∧ ((s.thread t).Inside → completed s.thread t < P.count t) := by
  refine reachable_of_threads (P := fun _ th => ∀ t,
    completed th t ≤ P.count t ∧ ((th t).Inside → completed th t < P.count t)) ?_ ?_ h t
  · intro u
    exact ⟨Nat.zero_le _, fun hin => absurd hin (not_inside_outside 0)⟩
  · intro t d th a d' l' _ hle hstep u
    rcases eq_or_ne u t with rfl | hne
    · have hu := hle u
      simp only [completed, Function.update_self] at hu ⊢
      generalize th u = l at hstep hu
      cases hstep with
      | lock hlt => exact ⟨hlt.le, fun _ => hlt⟩
      | spin _ _ => exact hu
      | access _ => exact ⟨hu.1, fun _ => hu.2 (inside_inside _ _ _)⟩
      | unlock => exact ⟨hu.2 (inside_inside _ _ _), fun hin => absurd hin (not_inside_outside _)⟩
    · simp only [completed, Function.update_of_ne hne]
      exact hle u

/-- **The lock is free when the main thread has ended.** An owner would be inside a section, and a
thread that is inside has not returned. -/
theorem free_of_ended (hex : Exclusive s.shared s.thread) (hbounds : Bounds (body P kind) M s)
    (hended : s.ended = true) : s.shared.owner = none := by
  cases howner : s.shared.owner with
  | none => rfl
  | some t =>
    obtain ⟨i, k, r, hin⟩ := (hex t).mpr howner
    rcases Nat.lt_or_ge t s.created with hlt | hge
    · obtain ⟨j, hj, _⟩ := returned_of_ended hbounds hended (hlt.trans_le hbounds.created_le)
      rw [hin] at hj
      cases hj
    · rw [hbounds.entry t hge] at hin
      cases hin

/-- **Every section has been completed when the main thread has ended.** So the total at the end is
that of all sections, whatever the order in which the threads came to them. -/
theorem completed_of_ended (h : (system (body P kind) M ⟨d₀, none⟩).Reachable s)
    (hended : s.ended = true) {t : Nat} (ht : t < M.threads) :
    completed s.thread t = P.count t := by
  obtain ⟨i, hi, hge⟩ := returned_of_ended (Bounds.of_reachable stuck h) hended ht
  have hcompleted : completed s.thread t = i := by
    rw [completed, hi]
    rfl
  exact le_antisymm (completed_le_of_reachable h t).1 (hcompleted ▸ hge)

/-! ## Sections that add

A section that adds an amount to a number has the sum of the amounts as its total, in whatever order
the threads come. -/

/-- **A total by addition.** If every section adds something that depends on nothing but its thread
and its number, then the sum over the completed ones is a total. -/
theorem isTotal_sum [AddCommMonoid σ] {n : Nat} {delta : Nat → Nat → σ}
    (heffect : ∀ t i d, effect P t i d = d + delta t i) :
    IsTotal P n d₀ fun c =>
      d₀ + ∑ t ∈ Finset.range n, ∑ i ∈ Finset.range (c t), delta t i := by
  refine ⟨by simp, ?_⟩
  intro c t ht _
  have hmem : t ∈ Finset.range n := Finset.mem_range.mpr ht
  have hrest : ∑ u ∈ (Finset.range n).erase t,
        ∑ i ∈ Finset.range (Function.update c t (c t + 1) u), delta u i
      = ∑ u ∈ (Finset.range n).erase t, ∑ i ∈ Finset.range (c u), delta u i := by
    refine Finset.sum_congr rfl fun u hu => ?_
    rw [Function.update_of_ne (Finset.ne_of_mem_erase hu)]
  rw [heffect t (c t), ← Finset.sum_erase_add _ _ hmem, ← Finset.sum_erase_add _ _ hmem,
    hrest, Function.update_self, Finset.sum_range_succ, add_assoc, add_assoc]

/-! ## Progress and termination

A free lock can be taken and its owner can go on, so that somebody can always move. A spin is the
only step that brings nobody further. -/

def Act.busy : Act → Bool
  | .spin => false
  | .lock | .access | .unlock => true

/-- **Somebody can go on**, unless every thread has returned. If the lock is taken its owner can go
on, and if it is free every thread that has not returned can take it. This is what a program has to
show for the absence of deadlocks. -/
theorem live (h : Exclusive s.shared s.thread) (hbounds : Bounds (body P kind) M s)
    (hinside : ∀ t i k r, s.thread t = .inside i k r → k ≤ (P.accesses t i).length) :
    ∀ t < s.created, ¬ (body P kind).returned t (s.thread t) →
      ∃ u < s.created, ∃ a d l, a.busy = true ∧
        (body P kind).step u s.shared (s.thread u) a d l := by
  intro t ht hret
  cases howner : s.shared.owner with
  | some u =>
    -- the owner is inside its section, so it was created
    obtain ⟨i, k, r, hu⟩ := (h u).mpr howner
    have hcreated : u < s.created := by
      by_contra hge
      rw [hbounds.entry u (Nat.not_lt.mp hge)] at hu
      cases hu
    refine ⟨u, hcreated, ?_⟩
    rw [hu]
    rcases Nat.lt_or_eq_of_le (hinside u i k r hu) with hlt | rfl
    · exact ⟨.access, _, _, rfl, .access (List.getElem?_eq_getElem hlt)⟩
    · exact ⟨.unlock, _, _, rfl, .unlock⟩
  | none =>
    refine ⟨t, ht, ?_⟩
    cases hl : s.thread t with
    | inside i k r =>
      have hcontra := (h t).mp ⟨i, k, r, hl⟩
      rw [howner] at hcontra
      cases hcontra
    | outside i =>
      have hlt : i < P.count t := by
        by_contra hge
        exact hret ⟨i, hl, Nat.not_lt.mp hge⟩
      have hshared : s.shared = ⟨s.shared.data, none⟩ := by
        rw [← howner]
      rw [hshared]
      exact ⟨.lock, _, _, rfl, .lock hlt⟩

/-- The steps that a thread has left when each section has `m` accesses: a lock, an unlock and
the accesses for every section. -/
def work (P : Sections σ R) (m : Nat) (t : Nat) : Pc R → Nat
  | .outside i => (P.count t - i) * (m + 2)
  | .inside i k _ => (P.count t - (i + 1)) * (m + 2) + (m + 1 - k)

/-- Each step of a thread but a spin lowers the work it has left: the sections with their accesses,
the lock, the unlock and the return. -/
theorem work_step {m : Nat} (hlen : ∀ t i, (P.accesses t i).length = m) (t : Nat)
    (d : Guarded σ) (l : Pc R) (a : Act) (d' : Guarded σ) (l' : Pc R)
    (hstep : (body P kind).step t d l a d' l') :
    work P m t l' + (if a.busy then 1 else 0) ≤ work P m t l := by
  cases hstep with
  | @lock d i hlt =>
    obtain ⟨n, hn⟩ := Nat.exists_eq_add_of_lt hlt
    simp only [work, Act.busy, if_true, hn]
    rw [show i + n + 1 - i = n + 1 by omega, show i + n + 1 - (i + 1) = n by omega,
      Nat.succ_mul]
    omega
  | spin _ _ => simp [work, Act.busy]
  | @access d o i k r f hget =>
    have hk := (List.getElem?_eq_some_iff.mp hget).1
    rw [hlen] at hk
    simp only [work, Act.busy, if_true]
    omega
  | unlock =>
    rw [hlen]
    simp only [work, Act.busy, if_true]
    omega

end Locked
