import Mathlib.Data.List.Basic

/-!
# Labelled transition systems

The run theory every concurrent program of the development is stated over. A
`System` is a set of initial states and a labelled step relation; nothing here
knows what a state or a label is.

* **`Run`** — a finite run from one state to another with the list of labels it
  took, extended at its end, so that an induction on a run looks at its last step.
* **`Run.split_at`** — the states before and after a step in the middle of a run.
* **`Exec`** / **`Reachable`** — the runs and the states of the system itself,
  from its initial states.
* **`Throughout`** — a property of the labels of a trace, each with the labels before it.
* **`exec_induction`** — the one induction behind every invariant: what holds
  initially and is kept by a step from a reachable state holds after every run.
  `invariant` is its form for a property of the state alone.
* **`Run.filterMap`** — a run of a system that simulates another one, seen from there.
* **`length_add_rank_le`** — a rank that every step lowers bounds the run's length.
* **`exists_done`** — with progress, and a bound on the steps that make it, some run is done.
* **`ofFun`** — the system of a step *function*; `run_ofFun_iff` says that its
  runs are the schedules the function accepts, so a concrete run is computed.
-/

namespace Transition

variable {σ α τ β : Type*}

/-! ## Traces

A trace is the list of the labels of a run. Some properties of a run are about its trace alone, each
label seen with the ones before it. -/

/-- Each label of a trace is as `P` says, given the labels before it. -/
def Throughout (P : List α → α → Prop) (as : List α) : Prop :=
  ∀ pre a post, as = pre ++ a :: post → P pre a

/-- What holds throughout a trace holds throughout its beginning. -/
theorem Throughout.of_append {P : List α → α → Prop} {as bs : List α}
    (h : Throughout P (as ++ bs)) :
    Throughout P as := by
  intro pre a post has
  apply h pre a (post ++ bs)
  rw [has, List.append_assoc, List.cons_append]

/-- A trace with one more label: the property is that of the trace and that of the last label. -/
theorem throughout_snoc {P : List α → α → Prop} {as : List α} {a : α} :
    Throughout P (as ++ [a]) ↔ Throughout P as ∧ P as a := by
  constructor
  · intro h
    exact ⟨h.of_append, h as a [] rfl⟩
  · intro h pre b post hsplit
    rcases List.eq_nil_or_concat post with rfl | ⟨post, c, rfl⟩
    · obtain ⟨rfl, hlast⟩ := List.append_inj' hsplit rfl
      cases hlast
      exact h.2
    · rw [List.concat_eq_append, ← List.cons_append, ← List.append_assoc] at hsplit
      exact h.1 pre b post (List.append_inj' hsplit rfl).1

/-! ## Systems

A run is extended at its end. An invariant looks at the last step of a run, and so does the
induction on it. -/

/-- A labelled transition system with its initial states. -/
structure System (σ α : Type*) where
  init : σ → Prop
  step : σ → α → σ → Prop

namespace System

variable {S : System σ α}

/-- `S.Run s as t`: taking the steps labelled `as`, in order, leads from `s` to `t`. -/
inductive Run (S : System σ α) (s : σ) : List α → σ → Prop where
  | refl : Run S s [] s
  | snoc {t u : σ} {as : List α} {a : α}
      (run : Run S s as t) (hstep : S.step t a u) : Run S s (as ++ [a]) u

/-- `S.Exec as s`: some initial state has the run `as` to `s`. -/
def Exec (S : System σ α) (as : List α) (s : σ) : Prop :=
  ∃ s₀, S.init s₀ ∧ S.Run s₀ as s

/-- The states some run from an initial state ends in. -/
def Reachable (S : System σ α) (s : σ) : Prop :=
  ∃ as, S.Exec as s

/-! ## Runs compose

A run can be taken apart anywhere and put together again. -/

theorem Run.single {s t : σ} {a : α} (h : S.step s a t) : S.Run s [a] t := by
  simpa using Run.snoc Run.refl h

/-- A run goes on where another one has ended. Induction on the second. -/
theorem Run.trans {s t u : σ} {as bs : List α} (h1 : S.Run s as t) (h2 : S.Run t bs u) :
    S.Run s (as ++ bs) u := by
  induction h2 with
  | refl => simpa using h1
  | snoc _ hstep ih =>
    rw [← List.append_assoc]
    exact .snoc ih hstep

/-- A step in front of a run. -/
theorem Run.cons {s t u : σ} {a : α} {as : List α} (h : S.step s a t) (hrun : S.Run t as u) :
    S.Run s (a :: as) u :=
  (Run.single h).trans hrun

/-- A step in the middle of a run. Induction on the run. -/
theorem Run.split_at {s u : σ} {a : α} {as : List α} (bs : List α)
    (h : S.Run s (as ++ a :: bs) u) :
    ∃ t t', S.Run s as t ∧ S.step t a t' ∧ S.Run t' bs u := by
  generalize hcs : as ++ a :: bs = cs at h
  induction h generalizing bs with
  | refl => exact absurd hcs (List.append_ne_nil_of_right_ne_nil as (List.cons_ne_nil a bs))
  | snoc run hstep ih =>
    rcases List.eq_nil_or_concat bs with rfl | ⟨bs, b, rfl⟩
    · obtain ⟨rfl, hlast⟩ := List.append_inj' hcs rfl
      cases hlast
      exact ⟨_, _, run, hstep, .refl⟩
    · rw [List.concat_eq_append] at hcs ⊢
      rw [← List.cons_append, ← List.append_assoc] at hcs
      obtain ⟨heq, hlast⟩ := List.append_inj' hcs rfl
      cases hlast
      obtain ⟨t, t', hbefore, hmid, hafter⟩ := ih bs heq
      exact ⟨t, t', hbefore, hmid, hafter.snoc hstep⟩

/-- A step in the middle of a run from an initial state. -/
theorem Exec.split_at {s : σ} {a : α} {as : List α} (bs : List α)
    (h : S.Exec (as ++ a :: bs) s) :
    ∃ t t', S.Exec as t ∧ S.step t a t' ∧ S.Run t' bs s := by
  obtain ⟨s₀, hinit, hrun⟩ := h
  obtain ⟨t, t', hbefore, hstep, hafter⟩ := hrun.split_at bs
  exact ⟨t, t', ⟨s₀, hinit, hbefore⟩, hstep, hafter⟩

/-- A run from an initial state goes on. -/
theorem Exec.extend {as bs : List α} {s t : σ} (h : S.Exec as s) (hrun : S.Run s bs t) :
    S.Exec (as ++ bs) t := by
  obtain ⟨s₀, hinit, h0⟩ := h
  exact ⟨s₀, hinit, h0.trans hrun⟩

theorem Exec.reachable {as : List α} {s : σ} (h : S.Exec as s) : S.Reachable s :=
  ⟨as, h⟩

/-- What is reached from a reachable state is reachable. -/
theorem Reachable.extend {bs : List α} {s t : σ} (h : S.Reachable s) (hrun : S.Run s bs t) :
    S.Reachable t := by
  obtain ⟨as, hexec⟩ := h
  exact ⟨as ++ bs, hexec.extend hrun⟩

theorem Reachable.step {s t : σ} {a : α} (h : S.Reachable s) (hstep : S.step s a t) :
    S.Reachable t :=
  h.extend (Run.single hstep)

/-! ## The induction rules

Every invariant of the development is proved by one of these rules. -/

/-- **Induction over the runs of a system.** A relation between the trace and the
state that holds at the start and is kept by every step from a reachable state holds
after every run. -/
theorem exec_induction {P : List α → σ → Prop}
    (hinit : ∀ s, S.init s → P [] s)
    (hstep : ∀ as s a t, S.Exec as s → P as s → S.step s a t → P (as ++ [a]) t)
    {as : List α} {s : σ} (h : S.Exec as s) : P as s := by
  obtain ⟨s₀, h0, hrun⟩ := h
  induction hrun with
  | refl => exact hinit _ h0
  | snoc run hlast ih => exact hstep _ _ _ _ ⟨_, h0, run⟩ ih hlast

/-- **The invariant rule.** What holds initially and is kept by every step holds of
every reachable state. -/
theorem invariant {P : σ → Prop} (hinit : ∀ s, S.init s → P s)
    (hstep : ∀ s a t, P s → S.step s a t → P t) {s : σ} (h : S.Reachable s) : P s := by
  obtain ⟨as, hexec⟩ := h
  exact exec_induction (P := fun _ s => P s) hinit
    (fun _ s a t _ hs hst => hstep s a t hs hst) hexec

/-- **The rank rule.** If every step from a state with `P` keeps `P` and lowers the
rank, a run is no longer than the rank it starts with. -/
theorem Run.length_add_rank_le {P : σ → Prop} {rank : σ → Nat}
    (hstep : ∀ s a t, P s → S.step s a t → P t ∧ rank t < rank s)
    {s t : σ} {as : List α} (hs : P s) (hrun : S.Run s as t) :
    P t ∧ as.length + rank t ≤ rank s := by
  induction hrun with
  | refl => exact ⟨hs, by simp⟩
  | snoc _ hlast ih =>
    obtain ⟨ht, hle⟩ := ih
    obtain ⟨hu, hlt⟩ := hstep _ _ _ ht hlast
    refine ⟨hu, ?_⟩
    rw [List.length_append, List.length_singleton]
    omega

/-- **The progress rule.** If some step that counts is left in every reachable state that is not
done, and no run counts more than `n` of them, then some run is done. -/
theorem exists_done {Done : σ → Prop} {counts : α → Bool} {n : Nat} (hinit : ∃ s, S.init s)
    (hprogress : ∀ s, S.Reachable s → Done s ∨ ∃ a t, counts a = true ∧ S.step s a t)
    (hbound : ∀ as s, S.Exec as s → as.countP counts ≤ n) : ∃ s, S.Reachable s ∧ Done s := by
  by_contra hnone
  -- then the runs count as many steps as one likes
  have hlong : ∀ k, ∃ as s, S.Exec as s ∧ as.countP counts = k := by
    intro k
    induction k with
    | zero =>
      obtain ⟨s, hs⟩ := hinit
      exact ⟨[], s, ⟨s, hs, .refl⟩, rfl⟩
    | succ k ih =>
      obtain ⟨as, s, hexec, hk⟩ := ih
      rcases hprogress s hexec.reachable with hdone | ⟨a, t, ha, hstep⟩
      · exact absurd ⟨s, hexec.reachable, hdone⟩ hnone
      · refine ⟨as ++ [a], t, hexec.extend (Run.single hstep), ?_⟩
        rw [List.countP_append, hk, List.countP_singleton, if_pos ha]
  obtain ⟨as, s, hexec, hk⟩ := hlong (n + 1)
  have hle := hbound as s hexec
  omega

/-- **The simulation rule.** `f` is the label of the abstract system that a label stands for;
`none` is a step that the abstract system does not see. -/
theorem Run.filterMap {T : System τ β} {P : σ → Prop} {f : α → Option β} {abs : σ → τ}
    (hkeep : ∀ s a t, P s → S.step s a t → P t)
    (hseen : ∀ s a t b, P s → S.step s a t → f a = some b → T.step (abs s) b (abs t))
    (hunseen : ∀ s a t, P s → S.step s a t → f a = none → abs t = abs s)
    {s t : σ} {as : List α} (hs : P s) (hrun : S.Run s as t) :
    P t ∧ T.Run (abs s) (as.filterMap f) (abs t) := by
  induction hrun with
  | refl => exact ⟨hs, .refl⟩
  | @snoc u v as a _ hlast ih =>
    obtain ⟨hu, habs⟩ := ih
    refine ⟨hkeep u a v hu hlast, ?_⟩
    rw [List.filterMap_append]
    cases hf : f a with
    | none =>
      rw [hunseen u a v hu hlast hf, List.filterMap_cons_none hf, List.filterMap_nil,
        List.append_nil]
      exact habs
    | some b =>
      rw [List.filterMap_cons_some hf, List.filterMap_nil]
      exact habs.snoc (hseen u a v b hu hlast hf)

/-! ## Systems given by a step function

A step function decides its next state by itself. Its runs can be computed, which is how a concrete
run is shown to exist. -/

/-- The system whose steps are the defined values of a step function. -/
def ofFun (init : σ → Prop) (f : σ → α → Option σ) : System σ α where
  init := init
  step s a t := f s a = some t

@[simp] theorem ofFun_step {init : σ → Prop} {f : σ → α → Option σ} {s t : σ} {a : α} :
    (ofFun init f).step s a t ↔ f s a = some t := Iff.rfl

/-- **Runs of a step function are the schedules it accepts.** For a deterministic system there is
nothing to choose but the events, and a run can be computed. -/
theorem run_ofFun_iff {init : σ → Prop} {f : σ → α → Option σ} {s t : σ} {as : List α} :
    (ofFun init f).Run s as t ↔ as.foldlM f s = some t := by
  constructor
  · intro h
    induction h with
    | refl => rfl
    | snoc _ hlast ih => simpa [List.foldlM_append, ih] using hlast
  · intro h
    induction as generalizing s with
    | nil => cases h; exact .refl
    | cons a as ih =>
      rw [List.foldlM_cons] at h
      obtain ⟨u, hu, hrest⟩ := Option.bind_eq_some_iff.mp h
      exact Run.cons hu (ih hrest)

end System

end Transition
