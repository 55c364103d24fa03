import HseDev.Lib.Linked
import HseDev.Lib.Transition
import Mathlib.Data.List.Nodup

/-!
# HseDev — `atomic_push` of `sem23/task22_3.c`

Any number of threads push nodes of their own behind one head: load `head->next`, store it
into the node, and try to swing `head->next` over to the node with a weak compare-and-swap.

* **`Step`** — the sequentially consistent steps of all calls. A swap may fail although the
  head has not changed; every failure starts the loop again.
* **`swapped`** — the calls whose swap succeeded in a run, latest first; **`chain`**, their
  nodes before the initial ones.
* **`Pushing`** — what carries the induction: the chain is linked from the head on, and a node
  that waits for its swap points to what its call has loaded.
* **`atomicPush_chain`** — the chain in every reachable state.
-/

namespace HseDev.Sem23.AtomicPush

open Transition

variable {T A : Type*}

/-- Where a call of `atomic_push` is. The loaded pointer is the local `current_next`; what a
failed swap writes into it is never read. -/
inductive Pc (A : Type*) where
  | load
  | store (currentNext : Option A)
  | swap (currentNext : Option A)
  | done
  deriving DecidableEq, Repr

/-- The `next` fields of all nodes and the calls. -/
structure State (T A : Type*) where
  next : A → Option A
  pc : T → Pc A

inductive Event (T : Type*) where
  | load (t : T)
  | store (t : T)
  | swap (t : T)
  | fail (t : T)
  deriving DecidableEq, Repr

/-- The calls whose swap succeeded, latest first. -/
def swapped (as : List (Event T)) : List T :=
  (as.filterMap fun
    | .swap t => some t
    | _ => none).reverse

/-- The list behind the head after a run. -/
def chain (node : T → A) (init : List A) (as : List (Event T)) : List A :=
  (swapped as).map node ++ init

/-- A successful swap puts its call in front; the order of the chain is that of the swaps, not that
of the calls. -/
theorem swapped_append_swap (as : List (Event T)) (t : T) :
    swapped (as ++ [.swap t]) = t :: swapped as := by
  simp [swapped]

/-- Nothing else counts, a swap that failed included. -/
theorem swapped_append_of_ne (as : List (Event T)) {a : Event T} (h : ∀ t, a ≠ .swap t) :
    swapped (as ++ [a]) = swapped as := by
  cases a with
  | swap t => exact absurd rfl (h t)
  | load t | store t | fail t => simp [swapped]

/-- The pushed nodes: one for each call, none of them in the list or its head. -/
structure Fresh (head : A) (node : T → A) (init : List A) : Prop where
  injective : Function.Injective node
  not_mem : ∀ t, node t ∉ head :: init

/-- What holds after every run. -/
structure Pushing (head : A) (node : T → A) (init : List A) (as : List (Event T))
    (s : State T A) : Prop where
  linked : Linked s.next (s.next head) (chain node init as)
  done_iff : ∀ t, s.pc t = .done ↔ t ∈ swapped as
  loaded : ∀ t p, s.pc t = .swap p → s.next (node t) = p

section Nodes

variable {head : A} {node : T → A} {init : List A} {as : List (Event T)} {s : State T A} {t : T}

/-- A pushed node is not the head, so a store into it leaves `head->next` alone. -/
theorem Fresh.ne_head (hfresh : Fresh head node init) (t : T) : node t ≠ head :=
  List.ne_of_not_mem_cons (hfresh.not_mem t)

/-- A node is in the chain exactly when its call's swap succeeded. -/
theorem Fresh.mem_chain (hfresh : Fresh head node init) :
    node t ∈ chain node init as ↔ t ∈ swapped as := by
  have hinit : node t ∉ init := List.not_mem_of_not_mem_cons (hfresh.not_mem t)
  rw [chain, List.mem_append, List.mem_map_of_injective hfresh.injective]
  exact or_iff_left hinit

/-- Before its swap has succeeded the node of a call is not yet reachable from the head. This is why
the store into it, which is no atomic operation in the source, disturbs nobody. -/
theorem Pushing.not_mem_chain (h : Pushing head node init as s) (hfresh : Fresh head node init)
    (hpc : s.pc t ≠ .done) : node t ∉ head :: chain node init as := by
  refine List.not_mem_cons_of_ne_of_not_mem (hfresh.ne_head t) fun hmem => hpc ?_
  exact (h.done_iff t).mpr (hfresh.mem_chain.mp hmem)

end Nodes

/-! ## Steps

The three kinds of update, each with a lemma of its own: moving on, the store into a node that is
still private, and the swap. The last is the one that extends the chain, and it does so only where
the loaded pointer is still the head's. -/

variable [DecidableEq T] [DecidableEq A]

def State.goto (s : State T A) (t : T) (pc : Pc A) : State T A :=
  { s with pc := Function.update s.pc t pc }

/-- An assignment to `a->next`. -/
def State.setNext (s : State T A) (a : A) (p : Option A) : State T A :=
  { s with next := Function.update s.next a p }

/-- One step of the call of `t`, which pushes `node t`. -/
inductive Step (head : A) (node : T → A) : State T A → Event T → State T A → Prop where
  | load {s : State T A} {t : T} (hpc : s.pc t = .load) :
      Step head node s (.load t) (s.goto t (.store (s.next head)))
  | store {s : State T A} {t : T} {p : Option A} (hpc : s.pc t = .store p) :
      Step head node s (.store t) ((s.setNext (node t) p).goto t (.swap p))
  | swap {s : State T A} {t : T} {p : Option A} (hpc : s.pc t = .swap p)
      (hequal : s.next head = p) :
      Step head node s (.swap t) ((s.setNext head (some (node t))).goto t .done)
  | fail {s : State T A} {t : T} {p : Option A} (hpc : s.pc t = .swap p) :
      Step head node s (.fail t) (s.goto t .load)

/-- All calls at their start, on the memory `next`. -/
def system (next : A → Option A) (head : A) (node : T → A) : System (State T A) (Event T) where
  init s := s = { next := next, pc := fun _ => .load }
  step := Step head node

variable {head : A} {node : T → A} {init : List A} {as : List (Event T)} {s s' : State T A}
variable {t : T}

omit [DecidableEq T] in
theorem setNext_next (a : A) (p : Option A) :
    (s.setNext a p).next = Function.update s.next a p := rfl

omit [DecidableEq A] in
theorem goto_pc (pc : Pc A) (u : T) : (s.goto t pc).pc u = if u = t then pc else s.pc u := by
  simp [State.goto, Function.update_apply]

omit [DecidableEq A] in
/-- A call moves on without a change of the chain. -/
theorem Pushing.goto {a : Event T} {pc : Pc A} (h : Pushing head node init as s)
    (ha : ∀ u, a ≠ .swap u) (hpc : s.pc t ≠ .done) (hnot : pc ≠ .done)
    (hloaded : ∀ p, pc = .swap p → s.next (node t) = p) :
    Pushing head node init (as ++ [a]) (s.goto t pc) := by
  have hsame : swapped (as ++ [a]) = swapped as := swapped_append_of_ne as ha
  refine ⟨?_, fun u => ?_, fun u p hu => ?_⟩
  · rw [chain, hsame]
    exact h.linked
  · rw [hsame, ← h.done_iff u, goto_pc]
    by_cases hut : u = t
    · subst hut
      rw [if_pos rfl]
      exact iff_of_false hnot hpc
    · rw [if_neg hut]
  · rw [goto_pc] at hu
    by_cases hut : u = t
    · subst hut
      rw [if_pos rfl] at hu
      exact hloaded p hu
    · rw [if_neg hut] at hu
      exact h.loaded u p hu

omit [DecidableEq T] in
/-- A call writes to the node it has not linked in yet. -/
theorem Pushing.setNext {p q : Option A} (h : Pushing head node init as s)
    (hfresh : Fresh head node init) (hpc : s.pc t = .store q) :
    Pushing head node init as (s.setNext (node t) p) := by
  have hnot : node t ∉ head :: chain node init as := h.not_mem_chain hfresh (by rw [hpc]; nofun)
  have hchain : node t ∉ chain node init as := List.not_mem_of_not_mem_cons hnot
  refine ⟨?_, h.done_iff, fun u r hu => ?_⟩
  · rw [setNext_next, Function.update_of_ne (hfresh.ne_head t).symm]
    exact h.linked.update hchain p
  · -- another call, so another node
    have hut : u ≠ t := by
      rintro rfl
      have hstore : (s.setNext (node u) p).pc u = .store q := hpc
      rw [hstore] at hu
      cases hu
    rw [setNext_next, Function.update_of_ne (hfresh.injective.ne hut)]
    exact h.loaded u r hu

/-- A successful swap links the node in behind the head. -/
theorem Pushing.swap {p : Option A} (h : Pushing head node init as s)
    (hfresh : Fresh head node init) (hpc : s.pc t = .swap p) (hequal : s.next head = p) :
    Pushing head node init (as ++ [.swap t])
      ((s.setNext head (some (node t))).goto t .done) := by
  have hnot : node t ∉ head :: chain node init as := h.not_mem_chain hfresh (by rw [hpc]; nofun)
  have hlink : s.next (node t) = s.next head := (h.loaded t p hpc).trans hequal.symm
  refine ⟨?_, fun u => ?_, fun u r hu => ?_⟩
  · show Linked (s.setNext head (some (node t))).next ((s.setNext head _).next head) _
    rw [setNext_next, Function.update_self, chain, swapped_append_swap]
    exact h.linked.insert_next hnot hlink
  · rw [swapped_append_swap, List.mem_cons, ← h.done_iff u, goto_pc]
    by_cases hut : u = t
    · simp [hut]
    · rw [if_neg hut]
      exact (or_iff_right hut).symm
  · rw [goto_pc] at hu
    by_cases hut : u = t
    · rw [if_pos hut] at hu
      cases hu
    · rw [if_neg hut] at hu
      show Function.update s.next head (some (node t)) (node u) = r
      rw [Function.update_of_ne (hfresh.ne_head u)]
      exact h.loaded u r hu

/-- The step lemma: every event keeps the chain, with the swapped node in front after a swap. -/
theorem Pushing.step {a : Event T} (h : Pushing head node init as s)
    (hfresh : Fresh head node init) (hstep : Step head node s a s') :
    Pushing head node init (as ++ [a]) s' := by
  cases hstep with
  | load hpc => exact h.goto nofun (by rw [hpc]; nofun) nofun nofun
  | @store t p hpc =>
    have hstored : Pushing head node init as (s.setNext (node t) p) := h.setNext hfresh hpc
    refine hstored.goto nofun ?_ nofun fun q hq => ?_
    · show s.pc t ≠ .done
      rw [hpc]
      nofun
    · cases hq
      exact Function.update_self (node t) p s.next
  | swap hpc hequal => exact h.swap hfresh hpc hequal
  | fail hpc => exact h.goto nofun (by rw [hpc]; nofun) nofun nofun

/-- The run lemma, for a list that is well formed at the start. -/
theorem exec_pushing {next : A → Option A} (hinit : Linked next (next head) init)
    (hfresh : Fresh head node init) (hexec : (system next head node).Exec as s) :
    Pushing head node init as s := by
  refine System.exec_induction ?_ ?_ hexec
  · rintro s rfl
    exact ⟨hinit, fun t => by simp [swapped], nofun⟩
  · intro as s a s' _ hpushing hstep
    exact hpushing.step hfresh hstep

/-! ## The list

What the invariant says of the list itself. A node that is in it is not written to again, so a
reader that follows the pointers meets the same nodes whatever the other threads do. -/

/-- No step writes to a node of the list. -/
theorem Pushing.next_eq {a : Event T} {x : A} (h : Pushing head node init as s)
    (hfresh : Fresh head node init) (hstep : Step head node s a s')
    (hx : x ∈ chain node init as) : s'.next x = s.next x := by
  have hnodup : (head :: chain node init as).Nodup := Linked.nodup (.cons h.linked)
  cases hstep with
  | load | fail => rfl
  | @store t p hpc =>
    have hnot := h.not_mem_chain hfresh (t := t) (by rw [hpc]; nofun)
    have hne : x ≠ node t := ne_of_mem_of_not_mem hx (List.not_mem_of_not_mem_cons hnot)
    exact Function.update_of_ne hne p s.next
  | @swap t =>
    have hne : x ≠ head := ne_of_mem_of_not_mem hx (List.nodup_cons.mp hnodup).1
    exact Function.update_of_ne hne (some (node t)) s.next

/-- **Lock-free push.** After every run the chain from the head ends, has no cycle and holds
the nodes swapped in, latest first, before the initial ones; a completed call's node is in it
once, and no step changes the `next` field of a node in it. -/
theorem atomicPush_chain {next : A → Option A} (hinit : Linked next (next head) init)
    (hfresh : Fresh head node init) (hexec : (system next head node).Exec as s) :
    (Linked s.next (s.next head) (chain node init as) ∧ (head :: chain node init as).Nodup)
      ∧ (∀ t, s.pc t = .done ↔ t ∈ swapped as)
      ∧ (∀ t, s.pc t = .done → (chain node init as).count (node t) = 1)
      ∧ ∀ a s', (system next head node).step s a s' →
        ∀ x ∈ chain node init as, s'.next x = s.next x := by
  have h : Pushing head node init as s := exec_pushing hinit hfresh hexec
  have hnodup : (head :: chain node init as).Nodup := Linked.nodup (.cons h.linked)
  refine ⟨⟨h.linked, hnodup⟩, h.done_iff, fun t ht => ?_, fun a s' hstep x hx => ?_⟩
  · have hmem : node t ∈ chain node init as := hfresh.mem_chain.mpr ((h.done_iff t).mp ht)
    exact List.count_eq_one_of_mem (List.nodup_cons.mp hnodup).2 hmem
  · exact h.next_eq hfresh hstep hx

/-- The initial list is `5` behind the head `0`. -/
def nextOfFive (a : ℕ) : Option ℕ :=
  if a = 0 then some 5 else none

def nodeOf (t : Bool) : ℕ :=
  if t then 2 else 1

/-- Nodes `1` and `2` are pushed before `5`; the second push has to retry. -/
theorem atomicPush_chain_two :
    ∃ as s, (system nextOfFive 0 nodeOf).Exec as s ∧ chain nodeOf [5] as = [2, 1, 5]
      ∧ (Linked s.next (s.next 0) (chain nodeOf [5] as) ∧ (0 :: chain nodeOf [5] as).Nodup)
      ∧ ∀ t, s.pc t = .done ↔ t ∈ swapped as := by
  have hinit : Linked nextOfFive (nextOfFive 0) [5] := .cons .nil
  have hfresh : Fresh 0 nodeOf [5] := by
    refine ⟨?_, by decide⟩
    unfold Function.Injective
    decide
  have h₀ : (system nextOfFive 0 nodeOf).Run _ [] ⟨nextOfFive, fun _ => .load⟩ := .refl
  have h₁ := h₀.snoc (.load (t := true) rfl)
  have h₂ := h₁.snoc (.load (t := false) rfl)
  have h₃ := h₂.snoc (.store (t := true) rfl)
  have h₄ := h₃.snoc (.store (t := false) rfl)
  have h₅ := h₄.snoc (.swap (t := false) rfl rfl)
  have h₆ := h₅.snoc (.fail (t := true) rfl)
  have h₇ := h₆.snoc (.load (t := true) rfl)
  have h₈ := h₇.snoc (.store (t := true) rfl)
  have h₉ := h₈.snoc (.swap (t := true) rfl rfl)
  have hexec : (system nextOfFive 0 nodeOf).Exec _ _ := ⟨_, rfl, h₉⟩
  obtain ⟨hlist, hdone, _⟩ := atomicPush_chain hinit hfresh hexec
  exact ⟨_, _, hexec, rfl, hlist, hdone⟩

end HseDev.Sem23.AtomicPush
