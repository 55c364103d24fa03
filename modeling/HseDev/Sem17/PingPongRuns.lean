import HseDev.Sem17.PingPong

/-!
# HseDev — the runs of `sem17/task17_4.c`

The first child reads the `1`, and leaves without a line; the second one finds its pipe without
a writer and prints a number nobody has written.

* **`Opened`** — the ends each process holds, from where it is: who can still write decides
  whether a read blocks.
* **`Phase`** — what the children and the pipes are up to, in seven phases. Together with
  `Opened` it is kept by every step.
* **`printed_of_over`** — the only line of a run of both children; **`exists_over`** — there is
  such a run, whatever the number.
* **`pingPong_never`** — so for no `max_n` does a run of both children obey the law.
-/

namespace HseDev.Sem17.PingPong

open Transition

/-! ## Who holds which end

An end is open as long as one of the three processes holds it. Who holds what follows from where the
processes are, which is the invariant `Opened`. -/

def ParentPc.holds : ParentPc → End → Bool
  | .fork1, _ | .fork2, _ => true
  | .close i, e => decide (e ∉ closing.take i)
  | _, _ => false

def ChildPc.holds (c : Child) : ChildPc → End → Bool
  | .absent, _ | .exited, _ | .killed, _ => false
  | .close1, _ => true
  | .close2, e => decide (e ≠ ⟨c.pipeOther, .write⟩)
  | _, e => decide (e ≠ ⟨c.pipeOther, .write⟩ ∧ e ≠ ⟨c.pipeMe, .read⟩)

/-- Each process holds the ends it has not closed yet. -/
structure Opened (s : State) : Prop where
  parent : ∀ e, s.opened .parent e = s.parent.holds e
  child : ∀ c e, s.opened (.child c) e = (s.child c).holds c e

section Opened

variable {s s' : State} {c : Child} {garbage maxN : Int32}

/-- An end is open exactly if the place of one of the processes says so. -/
theorem Opened.isOpen (h : Opened s) (e : End) :
    s.isOpen e = (s.parent.holds e || (s.child .child1).holds .child1 e
      || (s.child .child2).holds .child2 e) := by
  rw [State.isOpen, h.parent, h.child, h.child]

/-- A process that closes an end leaves the ends of the others alone. -/
theorem setOpened_ne {p q : Proc} (h : q ≠ p) (ends : End → Bool) :
    (s.setOpened p ends).opened q = s.opened q := by
  simp [State.setOpened, h]

theorem Opened.isOpen_of_child (h : Opened s) {e : End} (he : (s.child c).holds c e = true) :
    s.isOpen e = true := by
  rw [h.isOpen]
  cases c <;> rw [he] <;> simp

theorem Opened.set (h : Opened s) {pc : ChildPc} {ends : End → Bool}
    (hends : ∀ e, ends e = pc.holds c e) : Opened ((s.setOpened (.child c) ends).goto c pc) := by
  refine ⟨fun e => ?_, fun d e => ?_⟩
  · have hne : Proc.parent ≠ .child c := nofun
    show (s.setOpened (.child c) ends).opened .parent e = s.parent.holds e
    rw [setOpened_ne hne]
    exact h.parent e
  · show Function.update s.opened (.child c) ends (.child d) e
      = (Function.update s.child c pc d).holds d e
    by_cases hdc : d = c
    · subst hdc
      rw [Function.update_self, Function.update_self]
      exact hends e
    · have hne : Proc.child d ≠ .child c := fun heq => hdc (Proc.child.inj heq)
      rw [Function.update_of_ne hdc, Function.update_of_ne hne]
      exact h.child d e

/-- A step that leaves the child's descriptors as they are. -/
theorem Opened.goto (h : Opened s) {pc : ChildPc} (hpc : pc.holds c = (s.child c).holds c) :
    Opened (s.goto c pc) := by
  have hends : ∀ e, s.opened (.child c) e = pc.holds c e := fun e => by rw [h.child, hpc]
  have hset := h.set hends
  rwa [State.setOpened, Function.update_eq_self] at hset

/-- A child that ends holds nothing any more. -/
theorem Opened.finish (h : Opened s) {pc : ChildPc} (hover : pc.Over = true) :
    Opened (s.finish c pc) := by
  refine h.set fun e => ?_
  cases pc <;> first | rfl | cases hover

/-- A child that writes keeps its ends. -/
theorem Opened.send (h : Opened s) {n : Int32}
    (hpc : ChildPc.scan.holds c = (s.child c).holds c) : Opened (s.send c n) := by
  unfold State.send
  split
  · exact Opened.goto (s := s.setQueue c.pipeMe _) ⟨h.parent, h.child⟩ hpc
  · exact h.finish rfl

/-- Every step of a child keeps the invariant: it closes what its next place does not hold. -/
theorem Opened.childStep (h : Opened s) (hstep : childStep maxN s c garbage = some s') :
    Opened s' := by
  have hopened := h.child c
  unfold PingPong.childStep at hstep
  cases hpc : s.child c with
  | absent | exited | killed =>
    rw [hpc] at hstep
    cases hstep
  -- the two ends that the child does not need
  | close1 | close2 =>
    rw [hpc] at hstep hopened
    cases hstep
    refine h.set fun e => ?_
    rw [Function.update_apply, hopened]
    split <;> simp_all [ChildPc.holds]
  | first =>
    rw [hpc] at hstep
    cases hstep
    split
    · exact h.send (by rw [hpc]; rfl)
    · exact h.goto (by rw [hpc]; rfl)
  -- a read changes no end, and a number read ends the child, which closes all
  | scan =>
    rw [hpc] at hstep
    cases hqueue : s.queue c.pipeOther with
    | nil =>
      simp only [hqueue] at hstep
      split at hstep
      · cases hstep
      · cases hstep
        exact Opened.goto (s := s.scans c none) ⟨h.parent, h.child⟩
          (show ChildPc.holds c (.print garbage) = (s.child c).holds c by rw [hpc]; rfl)
    | cons n ns =>
      simp only [hqueue] at hstep
      cases hstep
      exact Opened.finish (s := (s.setQueue c.pipeOther ns).scans c (some n))
        ⟨h.parent, h.child⟩ rfl
  | print n =>
    rw [hpc] at hstep
    cases hstep
    exact Opened.goto (s := s.printLine c n) ⟨h.parent, h.child⟩
      (show ChildPc.holds c (.test n) = (s.child c).holds c by rw [hpc]; rfl)
  | test n =>
    rw [hpc] at hstep
    cases hstep
    split
    · exact h.finish rfl
    · exact h.goto (by rw [hpc]; rfl)
  | send n =>
    rw [hpc] at hstep
    cases hstep
    exact h.send (by rw [hpc]; rfl)

/-- So does a step of the parent that closes nothing. -/
theorem Opened.gotoParent (h : Opened s) {pc : ParentPc}
    (hpc : ∀ e, pc.holds e = s.parent.holds e) : Opened (s.gotoParent pc) :=
  ⟨fun e => (h.parent e).trans (hpc e).symm, h.child⟩

/-- A child begins with all the ends of the parent. -/
theorem Opened.fork (h : Opened s) (hall : ∀ e, s.parent.holds e = true) : Opened (s.fork c) := by
  refine h.set fun e => ?_
  rw [h.parent, hall]
  rfl

/-- A close of the parent is the next one in its list. -/
theorem Opened.close (h : Opened s) {i : Nat} {e : End} (hpc : s.parent = .close i)
    (he : closing[i]? = some e) : Opened ((s.close .parent e).gotoParent (.close (i + 1))) := by
  have hopened := h.parent
  rw [hpc] at hopened
  refine ⟨fun e' => ?_, fun c e' => ?_⟩
  · show Function.update s.opened .parent (Function.update (s.opened .parent) e false) .parent e'
      = ParentPc.holds (.close (i + 1)) e'
    rw [Function.update_self, Function.update_apply, hopened, ParentPc.holds, ParentPc.holds,
      List.take_add_one, he]
    split <;> simp_all
  · have hne : Proc.child c ≠ .parent := nofun
    show (s.setOpened .parent (Function.update (s.opened .parent) e false)).opened (.child c) e' = _
    rw [setOpened_ne hne]
    exact h.child c e'

/-- Every step of the parent keeps the invariant. -/
theorem Opened.parentStep (h : Opened s) (hstep : parentStep s = some s') : Opened s' := by
  unfold PingPong.parentStep at hstep
  cases hpc : s.parent with
  | fork1 =>
    rw [hpc] at hstep
    cases hstep
    exact (h.fork fun e => by rw [hpc]; rfl).gotoParent fun e => by
      show true = s.parent.holds e
      rw [hpc]
      rfl
  | fork2 =>
    rw [hpc] at hstep
    cases hstep
    exact (h.fork fun e => by rw [hpc]; rfl).gotoParent fun e => by
      show _ = s.parent.holds e
      rw [hpc]
      simp [ParentPc.holds]
  | close i =>
    rw [hpc] at hstep
    cases he : closing[i]? with
    | some e =>
      simp only [he] at hstep
      cases hstep
      exact h.close hpc he
    | none =>
      simp only [he] at hstep
      cases hstep
      -- all four ends are closed
      have hlength : closing.length ≤ i := List.getElem?_eq_none_iff.mp he
      refine h.gotoParent fun e => ?_
      rw [hpc, ParentPc.holds, ParentPc.holds, List.take_of_length_le hlength]
      · obtain ⟨pipe, side⟩ := e
        cases pipe <;> cases side <;> rfl
      all_goals nofun
  | wait2 | wait1 =>
    rw [hpc] at hstep
    simp only at hstep
    split at hstep
    · cases hstep
      exact h.gotoParent fun e => by rw [hpc]; rfl
    · cases hstep
  | returned =>
    rw [hpc] at hstep
    cases hstep

end Opened

/-! ## What the children are up to

The test of `fscanf` is inverted, so each child leaves its loop at its first number. These are all
the phases of a run, up to the end of both children. -/

/-- In the loop's first `fscanf`, or before it. -/
def ChildPc.Early : ChildPc → Bool
  | .close1 | .close2 | .first | .scan => true
  | _ => false

/-- Before the first write. -/
def ChildPc.Unsent : ChildPc → Bool
  | .close1 | .close2 | .first => true
  | _ => false

/-- A child that has not written yet has not ended. -/
theorem ChildPc.Unsent.not_over {pc : ChildPc} (h : pc.Unsent = true) : pc.Over = false := by
  cases pc <;> first | rfl | cases h

def ParentPc.Forked : ParentPc → Bool
  | .fork1 | .fork2 => false
  | _ => true

/-- Nothing is in the pipes and nothing has been printed. -/
structure State.Quiet (s : State) : Prop where
  queue1to2 : s.queue .pipe1to2 = []
  queue2to1 : s.queue .pipe2to1 = []
  printed : s.printed = []

/-- The children, from the first fork to the end of both. -/
inductive Phase (s : State) : Prop where
  | start (hparent : s.parent = .fork1) (h1 : s.child .child1 = .absent)
      (h2 : s.child .child2 = .absent) (hquiet : s.Quiet)
  | forked (hparent : s.parent = .fork2) (h1 : (s.child .child1).Early = true)
      (h2 : s.child .child2 = .absent) (hquiet : s.Quiet)
  | unsent (hparent : s.parent.Forked = true) (h1 : (s.child .child1).Early = true)
      (h2 : (s.child .child2).Unsent = true) (hquiet : s.Quiet)
  /-- The `1` is on its way. -/
  | sent (hparent : s.parent.Forked = true) (h1 : (s.child .child1).Early = true)
      (h2 : s.child .child2 = .scan) (hqueue1 : s.queue .pipe1to2 = [])
      (hqueue2 : s.queue .pipe2to1 = [1]) (hprinted : s.printed = [])
  /-- The first child has read it and left. -/
  | alone (hparent : s.parent.Forked = true) (h1 : s.child .child1 = .exited)
      (h2 : s.child .child2 = .scan) (hquiet : s.Quiet)
  /-- The second child takes the end of file for a number. -/
  | ended {n : Int32} (hparent : s.parent.Forked = true) (h1 : s.child .child1 = .exited)
      (h2 : s.child .child2 = .print n) (hreader : s.parent.holds ⟨.pipe2to1, .read⟩ = false)
      (hprinted : s.printed = [])
  | shown {n : Int32} (hparent : s.parent.Forked = true) (h1 : s.child .child1 = .exited)
      (h2 : s.child .child2 = .test n ∨ s.child .child2 = .send n
        ∨ (s.child .child2).Over = true)
      (hreader : s.parent.holds ⟨.pipe2to1, .read⟩ = false)
      (hprinted : s.printed = [⟨.child2, n⟩])

section Phase

variable {s s' : State} {c : Child} {garbage maxN : Int32}

/-- The parent closes its end of `pipe_2to1[0]` before that of `pipe_1to2[1]`. -/
theorem ParentPc.holds_read {pc : ParentPc} (h : pc.holds ⟨.pipe1to2, .write⟩ = false) :
    pc.holds ⟨.pipe2to1, .read⟩ = false := by
  cases pc with
  | fork1 | fork2 => cases h
  | wait2 | wait1 | returned => rfl
  | close i =>
    match i with
    | 0 | 1 | 2 => simp [ParentPc.holds, closing] at h
    | i + 3 => simp [ParentPc.holds, closing]

/-- What a step of the parent after its forks leaves alone. -/
theorem parentStep_frame (hforked : s.parent.Forked = true) (hstep : parentStep s = some s') :
    s'.parent.Forked = true ∧ s'.child = s.child ∧ s'.queue = s.queue ∧ s'.printed = s.printed
      ∧ ∀ e, s.parent.holds e = false → s'.parent.holds e = false := by
  unfold parentStep at hstep
  cases hpc : s.parent with
  | fork1 | fork2 =>
    rw [hpc] at hforked
    cases hforked
  | close i =>
    rw [hpc] at hstep
    cases he : closing[i]? with
    | some e =>
      simp only [he] at hstep
      cases hstep
      refine ⟨rfl, rfl, rfl, rfl, fun e' he' => ?_⟩
      show ParentPc.holds (.close (i + 1)) e' = false
      simp only [ParentPc.holds, decide_eq_false_iff_not, not_not] at he' ⊢
      exact List.take_subset_take_left closing (Nat.le_succ i) he'
    | none =>
      simp only [he] at hstep
      cases hstep
      exact ⟨rfl, rfl, rfl, rfl, fun _ _ => rfl⟩
  | wait2 | wait1 =>
    rw [hpc] at hstep
    simp only at hstep
    split at hstep
    · cases hstep
      exact ⟨rfl, rfl, rfl, rfl, fun _ _ => rfl⟩
    · cases hstep
  | returned =>
    rw [hpc] at hstep
    cases hstep

@[simp] theorem goto_child_self (pc : ChildPc) : (s.goto c pc).child c = pc := by
  simp [State.goto]

theorem goto_child_ne {d : Child} (h : d ≠ c) (pc : ChildPc) :
    (s.goto c pc).child d = s.child d := by
  simp [State.goto, h]

theorem fork_child_self : (s.fork c).child c = .close1 :=
  goto_child_self .close1

theorem fork_child_ne {d : Child} (h : d ≠ c) : (s.fork c).child d = s.child d :=
  goto_child_ne h .close1

/-- A step of child `c` that nobody else notices. -/
structure Alone (c : Child) (s s' : State) : Prop where
  parent : s'.parent = s.parent
  child : ∀ d, d ≠ c → s'.child d = s.child d
  queue : s'.queue = s.queue
  printed : s'.printed = s.printed

/-- Quiet is about the pipes and the output only. -/
theorem State.Quiet.congr (h : s.Quiet) (hqueue : s'.queue = s.queue)
    (hprinted : s'.printed = s.printed) : s'.Quiet :=
  ⟨hqueue ▸ h.queue1to2, hqueue ▸ h.queue2to1, hprinted ▸ h.printed⟩

/-- The closes of a child, and the first child's way past the first write. -/
theorem setup_step (hpc : s.child c = .close1 ∨ s.child c = .close2 ∨ s.child c = .first)
    (hc : s.child c = .first → c = .child1) (hstep : childStep maxN s c garbage = some s') :
    Alone c s s' ∧ (s'.child c = .close2 ∨ s'.child c = .first
      ∨ (s.child c = .first ∧ s'.child c = .scan)) := by
  unfold childStep at hstep
  rcases hpc with hpc | hpc | hpc
  · rw [hpc] at hstep
    cases hstep
    exact ⟨⟨rfl, fun d hd => goto_child_ne hd _, rfl, rfl⟩, Or.inl (goto_child_self _)⟩
  · rw [hpc] at hstep
    cases hstep
    exact ⟨⟨rfl, fun d hd => goto_child_ne hd _, rfl, rfl⟩, Or.inr (Or.inl (goto_child_self _))⟩
  · obtain rfl := hc hpc
    rw [hpc] at hstep
    cases hstep
    exact ⟨⟨rfl, fun d hd => goto_child_ne hd _, rfl, rfl⟩,
      Or.inr (Or.inr ⟨hpc, goto_child_self _⟩)⟩

/-- The first child before its first number. -/
theorem early_step (hearly : (s.child .child1).Early = true)
    (hscan : s.child .child1 = .scan → childStep maxN s .child1 garbage = none)
    (hstep : childStep maxN s .child1 garbage = some s') :
    Alone .child1 s s' ∧ (s'.child .child1).Early = true := by
  have hsetup : s.child .child1 = .close1 ∨ s.child .child1 = .close2
      ∨ s.child .child1 = .first := by
    cases hpc : s.child .child1 with
    | close1 => exact Or.inl rfl
    | close2 => exact Or.inr (Or.inl rfl)
    | first => exact Or.inr (Or.inr rfl)
    | scan =>
      rw [hscan hpc] at hstep
      cases hstep
    | absent | print | test | send | exited | killed =>
      rw [hpc] at hearly
      cases hearly
  obtain ⟨halone, hnext⟩ := setup_step hsetup (fun _ => rfl) hstep
  refine ⟨halone, ?_⟩
  rcases hnext with h | h | ⟨_, h⟩ <;> rw [h] <;> rfl

/-- A read from an empty pipe that somebody may still write to. -/
theorem scan_blocked (hpc : s.child c = .scan) (hqueue : s.queue c.pipeOther = [])
    (hwriter : s.isOpen ⟨c.pipeOther, .write⟩ = true) : childStep maxN s c garbage = none := by
  simp [childStep, hpc, hqueue, hwriter]

/-- A child that has not been forked takes no step. -/
theorem absent_step (hpc : s.child c = .absent) : childStep maxN s c garbage = none := by
  simp [childStep, hpc]

theorem exited_step (hpc : s.child c = .exited) : childStep maxN s c garbage = none := by
  simp [childStep, hpc]

/-- A child in its loop, or before it, has the ends it needs. -/
theorem Early.holds {pc : ChildPc} (h : pc.Early = true ∨ pc.Unsent = true) (c : Child) :
    pc.holds c ⟨c.pipeOther, .read⟩ = true ∧ pc.holds c ⟨c.pipeMe, .write⟩ = true := by
  cases pc <;> cases c <;> first | decide | (rcases h with h | h <;> cases h)

/-! ## The phases are kept

Each process in turn: what its step does in every phase. -/

/-- A step of the parent forks the children or closes an end; the phase goes on with the forks only.
-/
theorem Phase.parentStep (h : Phase s) (hstep : parentStep s = some s') : Phase s' := by
  cases h with
  | start hparent h1 h2 hquiet =>
    rw [PingPong.parentStep, hparent] at hstep
    cases hstep
    have h1' : (s.fork .child1).child .child1 = .close1 := fork_child_self
    have h2' : (s.fork .child1).child .child2 = .absent := (fork_child_ne (by decide)).trans h2
    exact .forked rfl (congrArg ChildPc.Early h1') h2' (hquiet.congr rfl rfl)
  | forked hparent h1 h2 hquiet =>
    rw [PingPong.parentStep, hparent] at hstep
    cases hstep
    have h1' : (s.fork .child2).child .child1 = s.child .child1 := fork_child_ne (by decide)
    have h2' : (s.fork .child2).child .child2 = .close1 := fork_child_self
    exact .unsent rfl ((congrArg ChildPc.Early h1').trans h1) (congrArg ChildPc.Unsent h2')
      (hquiet.congr rfl rfl)
  | unsent hparent h1 h2 hquiet =>
    obtain ⟨hparent', hchild, hqueue, hprinted, _⟩ := parentStep_frame hparent hstep
    exact .unsent hparent' (hchild ▸ h1) (hchild ▸ h2) (hquiet.congr hqueue hprinted)
  | sent hparent h1 h2 hqueue1 hqueue2 hempty =>
    obtain ⟨hparent', hchild, hqueue, hprinted, _⟩ := parentStep_frame hparent hstep
    exact .sent hparent' (hchild ▸ h1) (hchild ▸ h2) (hqueue ▸ hqueue1) (hqueue ▸ hqueue2)
      (hprinted ▸ hempty)
  | alone hparent h1 h2 hquiet =>
    obtain ⟨hparent', hchild, hqueue, hprinted, _⟩ := parentStep_frame hparent hstep
    exact .alone hparent' (hchild ▸ h1) (hchild ▸ h2) (hquiet.congr hqueue hprinted)
  | ended hparent h1 h2 hreader hempty =>
    obtain ⟨hparent', hchild, _, hprinted, hclosed⟩ := parentStep_frame hparent hstep
    exact .ended hparent' (hchild ▸ h1) (hchild ▸ h2) (hclosed _ hreader) (hprinted ▸ hempty)
  | shown hparent h1 h2 hreader hline =>
    obtain ⟨hparent', hchild, _, hprinted, hclosed⟩ := parentStep_frame hparent hstep
    exact .shown hparent' (hchild ▸ h1) (hchild ▸ h2) (hclosed _ hreader) (hprinted ▸ hline)

/-- The first child sends nothing. It reads the `1` and leaves. -/
theorem Phase.child1Step (h : Phase s) (hopened : Opened s)
    (hstep : childStep maxN s .child1 garbage = some s') : Phase s' := by
  have hne : Child.child2 ≠ .child1 := by decide
  cases h with
  | start _ h1 _ _ =>
    rw [absent_step h1] at hstep
    cases hstep
  -- before the second `fork` the parent is the writer that keeps the read waiting
  | forked hparent h1 h2 hquiet =>
    have hwriter : s.isOpen ⟨.pipe2to1, .write⟩ = true := by
      rw [hopened.isOpen, hparent]
      rfl
    obtain ⟨halone, h1'⟩ :=
      early_step h1 (fun hscan => scan_blocked hscan hquiet.queue2to1 hwriter) hstep
    exact .forked (halone.parent ▸ hparent) h1' ((halone.child _ hne).trans h2)
      (hquiet.congr halone.queue halone.printed)
  -- then the second child is
  | unsent hparent h1 h2 hquiet =>
    have hwriter : s.isOpen ⟨.pipe2to1, .write⟩ = true :=
      hopened.isOpen_of_child (Early.holds (Or.inr h2) .child2).2
    obtain ⟨halone, h1'⟩ :=
      early_step h1 (fun hscan => scan_blocked hscan hquiet.queue2to1 hwriter) hstep
    exact .unsent (halone.parent ▸ hparent) h1' (halone.child _ hne ▸ h2)
      (hquiet.congr halone.queue halone.printed)
  | sent hparent h1 h2 hqueue1 hqueue2 hprinted =>
    by_cases hscan : s.child .child1 = .scan
    · -- it reads the `1` and leaves
      have hqueue : s.queue Child.child1.pipeOther = [1] := hqueue2
      simp only [childStep, hscan, hqueue, Option.some.injEq] at hstep
      subst hstep
      exact .alone hparent (goto_child_self _) ((goto_child_ne hne _).trans h2)
        ⟨hqueue1, by simp [State.finish, State.goto, State.setOpened, State.scans, State.setQueue,
          Child.pipeOther], hprinted⟩
    · obtain ⟨halone, h1'⟩ := early_step h1 (fun h => absurd h hscan) hstep
      exact .sent (halone.parent ▸ hparent) h1' ((halone.child _ hne).trans h2)
        (halone.queue ▸ hqueue1) (halone.queue ▸ hqueue2) (halone.printed ▸ hprinted)
  -- it has left
  | alone _ h1 | ended _ h1 | shown _ h1 =>
    rw [exited_step h1] at hstep
    cases hstep

/-- The second child sends the `1`, waits, and takes the end of the file for a number. -/
theorem Phase.child2Step (h : Phase s) (hopened : Opened s)
    (hstep : childStep maxN s .child2 garbage = some s') : Phase s' := by
  have hne : Child.child1 ≠ .child2 := by decide
  cases h with
  | start _ _ h2 _ | forked _ _ h2 _ =>
    rw [absent_step h2] at hstep
    cases hstep
  -- until its first write the second child is alone with its set-up
  | unsent hparent h1 h2 hquiet =>
    by_cases hfirst : s.child .child2 = .first
    · -- the first child is there to read it
      have hreader : s.isOpen ⟨Child.child2.pipeMe, .read⟩ = true :=
        hopened.isOpen_of_child (Early.holds (Or.inl h1) .child1).1
      have hqueue : s.queue Child.child2.pipeMe = [] := hquiet.queue2to1
      simp only [childStep, hfirst, State.send, hreader, hqueue, if_true, List.nil_append,
        Option.some.injEq] at hstep
      subst hstep
      refine .sent hparent ?_ (goto_child_self _) hquiet.queue1to2 ?_ hquiet.printed
      · exact (congrArg ChildPc.Early (goto_child_ne hne _)).trans h1
      · simp [State.goto, State.setQueue, Child.pipeMe]
    · have hsetup : s.child .child2 = .close1 ∨ s.child .child2 = .close2
          ∨ s.child .child2 = .first := by
        cases hpc : s.child .child2 <;> simp_all [ChildPc.Unsent]
      obtain ⟨halone, hnext⟩ := setup_step hsetup (fun h => absurd h hfirst) hstep
      have h2' : (s'.child .child2).Unsent = true := by
        rcases hnext with h | h | ⟨h, _⟩
        · rw [h]
          rfl
        · rw [h]
          rfl
        · exact absurd h hfirst
      exact .unsent (halone.parent ▸ hparent) (halone.child _ hne ▸ h1) h2'
        (hquiet.congr halone.queue halone.printed)
  -- its pipe is empty and still has a writer, the first child
  | sent hparent h1 h2 hqueue1 _ _ =>
    have hwriter : s.isOpen ⟨.pipe1to2, .write⟩ = true :=
      hopened.isOpen_of_child (Early.holds (Or.inl h1) .child1).2
    rw [scan_blocked h2 hqueue1 hwriter] at hstep
    cases hstep
  -- the pipe is empty, and once the parent has closed its end too `fscanf` meets the end of it
  | alone hparent h1 h2 hquiet =>
    have hqueue : s.queue Child.child2.pipeOther = [] := hquiet.queue1to2
    simp only [childStep, h2, hqueue] at hstep
    split at hstep
    · cases hstep
    · next hwriter =>
      cases hstep
      have hparentWrite : s.parent.holds ⟨.pipe1to2, .write⟩ = false := by
        have hnot : s.isOpen ⟨.pipe1to2, .write⟩ = false :=
          Bool.eq_false_iff.mpr hwriter
        rw [hopened.isOpen, Bool.or_eq_false_iff, Bool.or_eq_false_iff] at hnot
        exact hnot.1.1
      exact .ended hparent ((goto_child_ne hne _).trans h1) (goto_child_self _)
        (ParentPc.holds_read hparentWrite) hquiet.printed
  | @ended n hparent h1 h2 hreader hprinted =>
    simp only [childStep, h2, Option.some.injEq] at hstep
    subst hstep
    refine .shown hparent ((goto_child_ne hne _).trans h1) (Or.inl (goto_child_self _)) hreader ?_
    show s.printed ++ [⟨.child2, n⟩] = _
    rw [hprinted]
    rfl
  -- behind the line the number decides whether it leaves or tries to send
  | @shown n hparent h1 h2 hreader hprinted =>
    rcases h2 with h2 | h2 | h2
    · simp only [childStep, h2, Option.some.injEq] at hstep
      subst hstep
      split
      · exact .shown hparent ((goto_child_ne hne _).trans h1)
          (Or.inr (Or.inr (congrArg ChildPc.Over (goto_child_self _)))) hreader hprinted
      · exact .shown hparent ((goto_child_ne hne _).trans h1)
          (Or.inr (Or.inl (goto_child_self _))) hreader hprinted
    · -- nobody is left to read
      have hclosed : s.isOpen ⟨Child.child2.pipeMe, .read⟩ = false := by
        rw [hopened.isOpen, h1, h2]
        simp [Child.pipeMe, hreader, ChildPc.holds]
      simp only [childStep, h2, State.send, hclosed, Option.some.injEq] at hstep
      subst hstep
      exact .shown hparent ((goto_child_ne hne _).trans h1)
        (Or.inr (Or.inr (congrArg ChildPc.Over (goto_child_self _)))) hreader hprinted
    · cases hpc : s.child .child2 <;> simp_all [childStep, ChildPc.Over]

end Phase

/-! ## Runs

The phases hold of every reachable state, and a run to the end of both children exists. -/

section Runs

variable {s s' : State} {maxN : Int32}

/-- The start for a `max_n` that `main` accepts. -/
def begun : State where
  parent := .fork1
  child _ := .absent
  opened
    | .parent => fun _ => true
    | .child _ => fun _ => false
  queue _ := []
  printed := []
  scanned _ := []

/-- For every `max_n` from 1 on the program begins in the same state. -/
theorem start_eq (h : 1 ≤ maxN) : start maxN = begun := by
  have hnot : ¬ maxN < 1 := Int32.not_lt.mpr h
  rw [start, if_neg hnot]
  rfl

/-- Both invariants hold of every reachable state. -/
theorem reachable_phase (h : 1 ≤ maxN) (hs : (program maxN).Reachable s) :
    Opened s ∧ Phase s := by
  refine System.invariant (P := fun s => Opened s ∧ Phase s) ?_ ?_ hs
  · rintro s rfl
    rw [start_eq h]
    exact ⟨⟨fun _ => rfl, fun _ _ => rfl⟩, .start rfl rfl rfl ⟨rfl, rfl, rfl⟩⟩
  · rintro s a s' ⟨hopened, hphase⟩ hstep
    cases a with
    | parent => exact ⟨hopened.parentStep hstep, hphase.parentStep hstep⟩
    | child c garbage =>
      refine ⟨hopened.childStep hstep, ?_⟩
      cases c with
      | child1 => exact hphase.child1Step hopened hstep
      | child2 => exact hphase.child2Step hopened hstep

/-- **What is printed**: one line, of a number that nobody has written. The inverted test on the
result of `fscanf` lets the first child leave where it should print, and the second one print where
there was nothing to read. -/
theorem printed_of_over (h : 1 ≤ maxN) (hs : (program maxN).Reachable s) (hover : s.Over) :
    ∃ n, s.printed = [⟨.child2, n⟩] := by
  have h1 := hover .child1
  have h2 := hover .child2
  cases (reachable_phase h hs).2 with
  | start _ _ hpc | forked _ _ hpc | sent _ _ hpc | alone _ _ hpc | ended _ _ hpc =>
    rw [hpc] at h2
    cases h2
  | unsent _ _ hpc =>
    rw [ChildPc.Unsent.not_over hpc] at h2
    cases h2
  | shown _ _ _ _ hprinted => exact ⟨_, hprinted⟩

/-- What should be printed begins with a line of the first child. -/
theorem expected_eq_cons (h : 1 ≤ maxN) : ∃ ls, expected maxN = ⟨.child1, 1⟩ :: ls := by
  have hone : 1 ≤ maxN.toInt := Int32.le_iff_toInt_le.mp h
  obtain ⟨k, hk⟩ : ∃ k, maxN.toInt.toNat = k + 1 := ⟨maxN.toInt.toNat - 1, by omega⟩
  rw [expected, hk, List.range_succ_eq_map, List.map_cons]
  exact ⟨_, rfl⟩

/-- What has been printed at the end is a line of the second child, so the law is broken. -/
theorem not_law_of_over (h : 1 ≤ maxN) (hs : (program maxN).Reachable s) (hover : s.Over) :
    ¬ Law maxN s := by
  intro hlaw
  obtain ⟨n, hprinted⟩ := printed_of_over h hs hover
  obtain ⟨ls, hexpected⟩ := expected_eq_cons h
  have heq := hlaw.complete hover
  rw [hprinted, hexpected] at heq
  cases heq

/-- The processes up to the line of the second child, with `n` for what its variable holds. -/
def schedule (n : Int32) : List Act :=
  List.replicate 6 .parent ++ List.replicate 3 (.child .child1 n)
    ++ List.replicate 3 (.child .child2 n) ++ [.child .child1 n]
    ++ List.replicate 2 (.child .child2 n)

/-- One schedule, as far as the end of the first child and the line of the second. -/
theorem run_schedule (h : 1 ≤ maxN) (n : Int32) :
    ∃ s, (program maxN).Reachable s ∧ s.child .child1 = .exited ∧ s.child .child2 = .test n
      ∧ s.isOpen ⟨.pipe2to1, .read⟩ = false ∧ s.printed = [⟨.child2, n⟩] := by
  have hrun : ∃ s, (schedule n).foldlM (advance maxN) begun = some s ∧ s.child .child1 = .exited
      ∧ s.child .child2 = .test n ∧ s.isOpen ⟨.pipe2to1, .read⟩ = false
      ∧ s.printed = [⟨.child2, n⟩] := ⟨_, rfl, rfl, rfl, rfl, rfl⟩
  obtain ⟨s, hfold, hs⟩ := hrun
  exact ⟨s, ⟨schedule n, begun, (start_eq h).symm, System.run_ofFun_iff.mpr hfold⟩, hs⟩

/-- Whatever the second child's variable holds, both children end. -/
theorem exists_over (h : 1 ≤ maxN) (n : Int32) :
    ∃ s, (program maxN).Reachable s ∧ s.Over ∧ s.printed = [⟨.child2, n⟩] := by
  obtain ⟨s, hs, h1, h2, hclosed, hprinted⟩ := run_schedule h n
  have hne : Child.child1 ≠ .child2 := by decide
  have htest : (program maxN).step s (.child .child2 n)
      (if n = maxN then s.finish .child2 .exited else s.goto .child2 (.send n)) := by
    simp [program, advance, childStep, h2]
  by_cases hn : n = maxN
  · rw [if_pos hn] at htest
    refine ⟨_, hs.step htest, fun c => ?_, hprinted⟩
    cases c with
    | child1 => exact congrArg ChildPc.Over ((goto_child_ne hne _).trans h1)
    | child2 => exact congrArg ChildPc.Over (goto_child_self _)
  · -- its write kills it
    rw [if_neg hn] at htest
    have hsend : (program maxN).step (s.goto .child2 (.send n)) (.child .child2 n)
        ((s.goto .child2 (.send n)).finish .child2 .killed) := by
      have hclosed' : (s.goto .child2 (.send n)).isOpen ⟨Child.child2.pipeMe, .read⟩ = false :=
        hclosed
      simp [program, advance, childStep, State.send, hclosed']
    refine ⟨_, (hs.step htest).step hsend, fun c => ?_, hprinted⟩
    cases c with
    | child1 =>
      have hfirst := (goto_child_ne (s := s) hne (.send n)).trans h1
      exact congrArg ChildPc.Over ((goto_child_ne hne _).trans hfirst)
    | child2 => exact congrArg ChildPc.Over (goto_child_self _)

/-- **Never.** For every `max_n` both children end in some run, and in no such run do they obey
the law. -/
theorem pingPong_never (h : 1 ≤ maxN) :
    (∃ s, (program maxN).Reachable s ∧ s.Over)
      ∧ ∀ s, (program maxN).Reachable s → s.Over → ¬ Law maxN s := by
  obtain ⟨s, hs, hover, _⟩ := exists_over h maxN
  exact ⟨⟨s, hs, hover⟩, fun _ hs hover => not_law_of_over h hs hover⟩

/-- The law is broken with two numbers to print, too. -/
theorem pingPong_never_two :
    (∃ s, (program 2).Reachable s ∧ s.Over)
      ∧ ∀ s, (program 2).Reachable s → s.Over → ¬ Law 2 s :=
  pingPong_never (by decide)

/-- With `max_n = 2` the children are to print `1 1` and `2 2`. The first line is missing even
if the second child's variable happens to hold the `2`. -/
theorem not_law_two :
    expected 2 = [⟨.child1, 1⟩, ⟨.child2, 2⟩]
      ∧ ∃ s, (program 2).Reachable s ∧ s.Over ∧ s.printed = [⟨.child2, 2⟩] ∧ ¬ Law 2 s := by
  have hpos : (1 : Int32) ≤ 2 := by decide
  obtain ⟨s, hs, hover, hprinted⟩ := exists_over hpos 2
  exact ⟨by decide, s, hs, hover, hprinted, not_law_of_over hpos hs hover⟩

end Runs

end HseDev.Sem17.PingPong
