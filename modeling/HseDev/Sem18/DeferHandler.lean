import HseDev.Lib.IntSum
import HseDev.Lib.Transition
import Mathlib.Algebra.Order.BigOperators.Group.List
import Mathlib.Data.List.Count
import Mathlib.Tactic.Ring

/-!
# HseDev — the deferred handler of `sem18/main.c`

`sa_defer_test` installs `defer_handler` with `SA_NODEFER` and sleeps. The handler can be
interrupted by itself at every point, also between the load and the store of a `++`; it raises
the signal twice itself, unless `defer_flag` has been set before.

* **`exec`** — one step of the handler on top; **`Step`** — this, a signal, or its delivery.
* **`Budget`** — what a handler may still spend; **`spent_le`** — the signals from outside pay for
  everything.
* **`defer_bounded`** — so no more than three handlers run for each of them, and there is no
  infinite recursion.
* **`Nested`** — what the interrupted handlers will leave in `defer_counter`;
  **`defer_counted`** — a handler that has not been interrupted itself, or only by complete ones,
  is always counted, as long as the `int`s have room for the number of handlers.
-/

namespace HseDev.Sem18.DeferHandler

open Transition

/-! ## The program

The handler is taken apart into places, because a signal can come between any two of its accesses to
the globals. `SA_NODEFER` lets it interrupt itself. -/

/-- Where a handler is: before the load and the store of `sig_counter++` and of `defer_counter++`,
before the test of `defer_flag`, and then one place for each statement. -/
inductive Place where
  | start
  | gotId (currentId : Int32)
  | hasId (currentId : Int32)
  | gotCount (currentId count : Int32)
  | test (currentId : Int32)
  | sleep (currentId : Int32)
  | setFlag (currentId : Int32)
  | print (currentId : Int32)
  | raise₁
  | raise₂
  | ret
  deriving DecidableEq, Repr

/-- `frames` are the handlers, the one that runs first; without one `sa_defer_test` sleeps. -/
structure State where
  sigCounter : Int32
  deferCounter : Int32
  deferFlag : Bool
  pending : Bool
  frames : List Place
  output : List Int32
  deriving DecidableEq, Repr

/-- One step of the handler at `p`, over the handlers `fs`. A sleep ends after its time or when it
is interrupted. -/
def exec (p : Place) (fs : List Place) (s : State) : State :=
  match p with
  | .start => { s with frames := .gotId s.sigCounter :: fs }
  | .gotId currentId => { s with sigCounter := currentId + 1, frames := .hasId currentId :: fs }
  | .hasId currentId => { s with frames := .gotCount currentId s.deferCounter :: fs }
  | .gotCount currentId count =>
    { s with deferCounter := count + 1, frames := .test currentId :: fs }
  | .test currentId =>
    { s with frames := (if s.deferFlag then .ret else .sleep currentId) :: fs }
  | .sleep currentId => { s with frames := .setFlag currentId :: fs }
  | .setFlag currentId => { s with deferFlag := true, frames := .print currentId :: fs }
  | .print currentId => { s with output := s.output ++ [currentId], frames := .raise₁ :: fs }
  | .raise₁ => { s with pending := true, frames := .raise₂ :: fs }
  | .raise₂ => { s with pending := true, frames := .ret :: fs }
  | .ret => { s with frames := fs }

/-- A signal from outside, the start of a handler, in another one or not, or one of its steps. -/
inductive Act where
  | arrive
  | enter (nested : Bool)
  | run (p : Place)
  deriving DecidableEq, Repr

/-- `SIGUSR1` is never blocked: the handler starts before anything else goes on. -/
inductive Step (s : State) : Act → State → Prop where
  | arrive : Step s .arrive { s with pending := true }
  | enter (hpending : s.pending = true) :
      Step s (.enter (!s.frames.isEmpty))
        { s with pending := false, frames := .start :: s.frames }
  | run {p : Place} {fs : List Place} (hquiet : s.pending = false) (hframes : s.frames = p :: fs) :
      Step s (.run p) (exec p fs s)

/-- In front of the loop of `sa_defer_test`. -/
def initial : State where
  sigCounter := 0
  deferCounter := 0
  deferFlag := false
  pending := false
  frames := []
  output := []

def system : System State Act where
  init s := s = initial
  step := Step

/-! ## The flag

The first handler that finds the flag unset sets it and raises two signals more. From then on all
handlers return at their test. -/

/-- Behind `defer_flag = 1`, inside the `if`. -/
def Place.Late : Place → Prop
  | .print _ | .raise₁ | .raise₂ => True
  | _ => False

def Flagged (s : State) : Prop :=
  ∀ p ∈ s.frames, p.Late → s.deferFlag = true

variable {s t : State} {as : List Act} {a : Act} {p : Place} {fs : List Place}

/-- A handler that is past its test has set the flag, or another one has. -/
theorem flagged_exec (h : Flagged s) (hframes : s.frames = p :: fs) : Flagged (exec p fs s) := by
  have htop : p.Late → s.deferFlag = true := h p (by rw [hframes]; exact List.mem_cons_self)
  have hrest : ∀ q ∈ fs, q.Late → s.deferFlag = true :=
    fun q hq => h q (by rw [hframes]; exact List.mem_cons_of_mem _ hq)
  intro q hq hlate
  cases p with
  | setFlag id => rfl
  | ret => exact hrest q hq hlate
  | print id | raise₁ =>
    exact htop trivial
  | raise₂ => exact htop trivial
  | test id =>
    rcases List.mem_cons.mp hq with rfl | hq
    · -- neither way out of the test is late
      revert hlate
      cases s.deferFlag <;> exact fun hlate => hlate.elim
    · exact hrest q hq hlate
  | start | gotId | hasId | gotCount | sleep =>
    rcases List.mem_cons.mp hq with rfl | hq
    · exact hlate.elim
    · exact hrest q hq hlate

/-- Every step keeps that: the flag is never reset. -/
theorem flagged_step (h : Flagged s) (hstep : Step s a t) : Flagged t := by
  cases hstep with
  | arrive => exact h
  | enter _ =>
    intro q hq hlate
    rcases List.mem_cons.mp hq with rfl | hq
    · exact hlate.elim
    · exact h q hq hlate
  | run _ hframes => exact flagged_exec h hframes

/-! ## Budgets

A budget prices what a handler can still cause at each of its places. If no step spends more than
the price of its place allows, the signals from outside bound everything that happens. -/

/-- What the handlers, and a signal that is still pending, may spend from now on, by the flag. -/
structure Budget where
  cost : Bool → Place → ℕ
  pend : Bool → ℕ
  spend : Place → ℕ
  enter : ℕ

def Budget.total (B : Budget) (s : State) : ℕ :=
  (s.frames.map (B.cost s.deferFlag)).sum + bif s.pending then B.pend s.deferFlag else 0

/-- No step spends more than it has. -/
structure Budget.Sound (B : Budget) : Prop where
  cost : ∀ p, B.cost true p ≤ B.cost false p
  pend : B.pend true ≤ B.pend false
  enter : ∀ flag, B.enter + B.cost flag .start ≤ B.pend flag
  run : ∀ p s, s.pending = false → (p.Late → s.deferFlag = true) →
    B.spend p + B.total (exec p [] s) ≤ B.cost s.deferFlag p

def Budget.spending (B : Budget) : Act → ℕ
  | .arrive => 0
  | .enter _ => B.enter
  | .run p => B.spend p

/-- What a run has spent. -/
def Budget.spent (B : Budget) (as : List Act) : ℕ :=
  (as.map B.spending).sum

section Budget

variable {B : Budget}

/-- A step of the running handler changes its own price, and the price of the others by the flag. -/
theorem total_exec (B : Budget) (p : Place) (fs : List Place) (s : State) :
    B.total (exec p fs s) =
      B.total (exec p [] s) + (fs.map (B.cost (exec p [] s).deferFlag)).sum := by
  cases p <;> simp only [Budget.total, exec, List.map_cons, List.map_nil, List.sum_cons,
    List.sum_nil] <;> omega

/-- A step sets the flag or leaves it. -/
theorem deferFlag_exec (p : Place) (s : State) :
    (exec p [] s).deferFlag = s.deferFlag ∨ (exec p [] s).deferFlag = true := by
  cases p with
  | setFlag id => exact Or.inr rfl
  | _ => exact Or.inl rfl

theorem Budget.Sound.sum_le (h : B.Sound) (fs : List Place) {flag flag' : Bool}
    (hflag : flag' = flag ∨ flag' = true) :
    (fs.map (B.cost flag')).sum ≤ (fs.map (B.cost flag)).sum := by
  apply List.sum_le_sum
  intro p _
  rcases hflag with rfl | rfl
  · exact Nat.le_refl _
  · cases flag with
    | false => exact h.cost p
    | true => exact Nat.le_refl _

/-- No step of the process makes the total grow, but for a signal from outside, which brings the
price of a pending signal with it. -/
theorem Budget.Sound.step (h : B.Sound) (hflagged : Flagged s) (hstep : Step s a t) :
    B.spending a + B.total t ≤ B.total s + if a = .arrive then B.pend false else 0 := by
  cases hstep with
  | arrive =>
    have hpend : B.pend s.deferFlag ≤ B.pend false := by
      cases s.deferFlag with
      | false => exact Nat.le_refl _
      | true => exact h.pend
    show 0 + ((s.frames.map (B.cost s.deferFlag)).sum + B.pend s.deferFlag) ≤ _ + B.pend false
    unfold Budget.total
    omega
  | enter hpending =>
    have henter := h.enter s.deferFlag
    show B.enter + ((B.cost s.deferFlag .start + (s.frames.map (B.cost s.deferFlag)).sum) + 0) ≤ _
    rw [if_neg nofun, Budget.total, hpending, cond_true]
    omega
  | @run p fs hquiet hframes =>
    have hlate : p.Late → s.deferFlag = true :=
      hflagged p (by rw [hframes]; exact List.mem_cons_self)
    have hrun := h.run p s hquiet hlate
    have hsum := h.sum_le fs (deferFlag_exec p s)
    have htotal : B.total s = B.cost s.deferFlag p + (fs.map (B.cost s.deferFlag)).sum := by
      rw [Budget.total, hframes, hquiet]
      rfl
    rw [if_neg nofun, total_exec, htotal]
    show B.spend p + _ ≤ _
    omega

/-- **The signals from outside pay for everything.** Each of them brings a budget with it; every
handler that runs or is put off spends a part of it, and what has not been spent is still there as
pending signals and frames. -/
theorem spent_le (h : B.Sound) (hexec : system.Exec as s) :
    Flagged s ∧ B.spent as + B.total s ≤ B.pend false * as.count .arrive := by
  refine System.exec_induction (P := fun as s =>
    Flagged s ∧ B.spent as + B.total s ≤ B.pend false * as.count .arrive) ?_ ?_ hexec
  · rintro s rfl
    exact ⟨nofun, Nat.le_refl _⟩
  · intro as s a t _ hs hstep
    obtain ⟨hflagged, hle⟩ := hs
    have hnext := h.step hflagged hstep
    refine ⟨flagged_step hflagged hstep, ?_⟩
    have hspent : B.spent (as ++ [a]) = B.spent as + B.spending a := by
      simp [Budget.spent]
    rw [hspent, List.count_append, List.count_singleton, Nat.mul_add]
    split at hnext
    · next ha =>
      rw [ha, beq_self_eq_true, if_pos rfl, Nat.mul_one]
      rw [ha] at hnext
      omega
    · next ha =>
      rw [if_neg (by simpa using ha), Nat.mul_zero]
      omega

end Budget

/-! ## Three budgets

The same argument three times: for the steps, for the handlers and for the lines that are printed.
-/

/-- Every step but a signal costs one: 6 for a handler that finds the flag set, and 25 for one that
does not, with the two that it raises. -/
def steps : Budget where
  cost flag
    | .start => if flag then 6 else 25
    | .gotId _ => if flag then 5 else 24
    | .hasId _ => if flag then 4 else 23
    | .gotCount _ _ => if flag then 3 else 22
    | .test _ => if flag then 2 else 21
    | .sleep _ => 20
    | .setFlag _ => 19
    | .print _ => 18
    | .raise₁ => 17
    | .raise₂ => 9
    | .ret => 1
  pend flag := if flag then 7 else 26
  spend _ := 1
  enter := 1

/-- Every start of a handler costs one. -/
def handlers : Budget where
  cost flag
    | .start | .gotId _ | .hasId _ | .gotCount _ _ | .test _ => if flag then 0 else 2
    | .sleep _ | .setFlag _ | .print _ | .raise₁ => 2
    | .raise₂ => 1
    | .ret => 0
  pend flag := if flag then 1 else 3
  spend _ := 0
  enter := 1

/-- Every line costs one. -/
def lines : Budget where
  cost flag
    | .start | .gotId _ | .hasId _ | .gotCount _ _ | .test _ => if flag then 0 else 1
    | .sleep _ | .setFlag _ | .print _ => 1
    | .raise₁ | .raise₂ | .ret => 0
  pend flag := if flag then 0 else 1
  spend
    | .print _ => 1
    | _ => 0
  enter := 0

/-- With the cases of the places and of the flag, soundness is arithmetic. -/
theorem sound_of_cases {B : Budget} (hcost : ∀ p, B.cost true p ≤ B.cost false p)
    (hpend : B.pend true ≤ B.pend false)
    (henter : ∀ flag, B.enter + B.cost flag .start ≤ B.pend flag)
    (hrun : ∀ p s, (p.Late → s.deferFlag = true) →
      B.spend p + ((exec p [] s).frames.map (B.cost (exec p [] s).deferFlag)).sum
        + (if p = .raise₁ ∨ p = .raise₂ then B.pend true else 0) ≤ B.cost s.deferFlag p) :
    B.Sound := by
  refine ⟨hcost, hpend, henter, fun p s hquiet hlate => ?_⟩
  have hle := hrun p s hlate
  unfold Budget.total
  cases p with
  | raise₁ | raise₂ =>
    have hflag : s.deferFlag = true := hlate trivial
    simp only [exec, hflag, cond_true] at *
    simpa [Nat.add_assoc] using hle
  | _ => simpa [exec, hquiet] using hle

/-- The budget of the steps is sound. -/
theorem sound_steps : steps.Sound := by
  refine sound_of_cases ?_ (by decide) (by decide) ?_
  · intro p
    cases p <;> simp [steps]
  · intro p s hlate
    cases p with
    | print | raise₁ | raise₂ =>
      have hflag : s.deferFlag = true := hlate trivial
      simp [steps, exec, hflag]
    | _ => cases hflag : s.deferFlag <;> simp [steps, exec, hflag]

/-- The budget of the handlers is sound. -/
theorem sound_handlers : handlers.Sound := by
  refine sound_of_cases ?_ (by decide) (by decide) ?_
  · intro p
    cases p <;> simp [handlers]
  · intro p s hlate
    cases p with
    | print | raise₁ | raise₂ =>
      have hflag : s.deferFlag = true := hlate trivial
      simp [handlers, exec, hflag]
    | _ => cases hflag : s.deferFlag <;> simp [handlers, exec, hflag]

/-- The budget of the lines is sound. -/
theorem sound_lines : lines.Sound := by
  refine sound_of_cases ?_ (by decide) (by decide) ?_
  · intro p
    cases p <;> simp [lines]
  · intro p s hlate
    cases p with
    | print | raise₁ | raise₂ =>
      have hflag : s.deferFlag = true := hlate trivial
      simp [lines, exec, hflag]
    | _ => cases hflag : s.deferFlag <;> simp [lines, exec, hflag]

/-- The handlers that have been started. -/
def entered (as : List Act) : ℕ :=
  as.count (.enter true) + as.count (.enter false)

/-- A run spends a step for everything but the signals from outside. -/
theorem spent_steps (as : List Act) : steps.spent as + as.count .arrive = as.length := by
  induction as with
  | nil => rfl
  | cons a as ih =>
    have hspent : steps.spent (a :: as) = steps.spending a + steps.spent as := List.sum_cons
    rw [hspent, List.count_cons, List.length_cons]
    cases a with
    | arrive =>
      show 0 + _ + (_ + 1) = _
      omega
    | enter nested =>
      show 1 + _ + (_ + 0) = _
      omega
    | run p =>
      show 1 + _ + (_ + 0) = _
      omega

/-- It spends a handler for each one that is started. -/
theorem spent_handlers (as : List Act) : handlers.spent as = entered as := by
  induction as with
  | nil => rfl
  | cons a as ih =>
    have hspent : handlers.spent (a :: as) = handlers.spending a + handlers.spent as :=
      List.sum_cons
    rw [hspent, ih, entered, entered, List.count_cons, List.count_cons]
    cases a with
    | arrive | run p =>
      show 0 + _ = _ + 0 + (_ + 0)
      omega
    | enter nested =>
      cases nested with
      | false =>
        show 1 + _ = _ + 0 + (_ + 1)
        omega
      | true =>
        show 1 + _ = _ + 1 + (_ + 0)
        omega

/-- It spends a line for each one that is printed. -/
theorem spent_lines (h : system.Exec as s) : lines.spent as = s.output.length := by
  refine System.exec_induction (P := fun as s => lines.spent as = s.output.length) ?_ ?_ h
  · rintro s rfl
    rfl
  · intro as s a t _ hs hstep
    have hspent : lines.spent (as ++ [a]) = lines.spent as + lines.spending a := by
      simp [Budget.spent]
    rw [hspent, hs]
    cases hstep with
    | arrive | enter _ => rfl
    | @run p fs _ _ =>
      cases p with
      | print currentId =>
        show s.output.length + 1 = (s.output ++ [currentId]).length
        rw [List.length_append, List.length_singleton]
      | _ => rfl

/-- Without a handler and without a signal the program sleeps; otherwise it goes on. -/
theorem idle_or_step (s : State) :
    (s.frames = [] ∧ s.pending = false) ∨ ∃ a t, a ≠ .arrive ∧ Step s a t := by
  cases hpending : s.pending with
  | true => exact Or.inr ⟨.enter _, _, nofun, .enter hpending⟩
  | false =>
    cases hframes : s.frames with
    | nil => exact Or.inl ⟨rfl, rfl⟩
    | cons p fs => exact Or.inr ⟨.run p, _, nofun, .run hpending hframes⟩

/-- **The recursion is bounded.** Each signal from outside is answered by at most three handlers,
one line and 26 steps, whenever it comes, and until then the program goes on. -/
theorem defer_bounded (h : system.Exec as s) :
    entered as ≤ 3 * as.count .arrive ∧ s.output.length ≤ as.count .arrive ∧
    as.length ≤ 27 * as.count .arrive ∧
    ((s.frames = [] ∧ s.pending = false) ∨ ∃ a t, a ≠ .arrive ∧ Step s a t) := by
  have hhandlers := (spent_le sound_handlers h).2
  have hlines := (spent_le sound_lines h).2
  have hsteps := (spent_le sound_steps h).2
  have hlength := spent_steps as
  rw [spent_handlers] at hhandlers
  rw [spent_lines h] at hlines
  have hpend : handlers.pend false = 3 ∧ lines.pend false = 1 ∧ steps.pend false = 26 :=
    ⟨rfl, rfl, rfl⟩
  rw [hpend.1] at hhandlers
  rw [hpend.2.1] at hlines
  rw [hpend.2.2] at hsteps
  exact ⟨by omega, by omega, by omega, idle_or_step s⟩

/-! ## No handler is counted twice

`defer_counter++` adds one to what it has loaded, and what can be loaded has been stored by some
handler. So the counter is never greater than the number of stores, and with fewer than `2 ^ 31`
handlers no `++` overflows. -/

/-- The counter has not been stored yet. -/
def Place.isOpen : Place → Bool
  | .start | .gotId _ | .hasId _ | .gotCount _ _ => true
  | _ => false

/-- An `int` that has been counted up from zero, at most `stores` times. -/
def AtMost (stores : ℕ) (count : Int32) : Prop :=
  0 ≤ count.toInt ∧ count.toInt ≤ stores

theorem AtMost.mono {m n : ℕ} {count : Int32} (h : AtMost m count) (hle : m ≤ n) :
    AtMost n count :=
  ⟨h.1, h.2.trans (Int.ofNat_le.mpr hle)⟩

theorem AtMost.toInt_succ {n : ℕ} {count : Int32} (h : AtMost n count) (hn : n + 1 < 2 ^ 31) :
    (count + 1).toInt = count.toInt + 1 := by
  have hone : (1 : Int32).toInt = 1 := rfl
  obtain ⟨hlo, hhi⟩ := h
  rw [CInt.toInt_add (by omega) (by omega), hone]

theorem AtMost.succ {n : ℕ} {count : Int32} (h : AtMost n count) (hn : n + 1 < 2 ^ 31) :
    AtMost (n + 1) (count + 1) := by
  have hnext := h.toInt_succ hn
  obtain ⟨hlo, hhi⟩ := h
  unfold AtMost
  omega

/-- `stores` handlers have stored the counter; no more can be seen in it, nor in what has been
loaded from it. -/
def Stored (as : List Act) (s : State) : Prop :=
  ∃ stores, stores + s.frames.countP Place.isOpen = entered as ∧ AtMost stores s.deferCounter ∧
    ∀ currentId loaded, .gotCount currentId loaded ∈ s.frames → AtMost stores loaded

/-- A step of a handler keeps the account. Only the store of the counter changes it: the handler is
not open any more, and there is one store more. -/
theorem stored_exec {stores : ℕ} (hroom : stores + (p :: fs).countP Place.isOpen < 2 ^ 31)
    (hcount : AtMost stores s.deferCounter)
    (hloaded : ∀ currentId loaded, .gotCount currentId loaded ∈ p :: fs → AtMost stores loaded) :
    ∃ stores', stores' + (exec p fs s).frames.countP Place.isOpen
        = stores + (p :: fs).countP Place.isOpen ∧
      AtMost stores' (exec p fs s).deferCounter ∧
      ∀ currentId loaded, .gotCount currentId loaded ∈ (exec p fs s).frames →
        AtMost stores' loaded := by
  have hrest : ∀ currentId loaded, .gotCount currentId loaded ∈ fs → AtMost stores loaded :=
    fun currentId loaded hmem => hloaded currentId loaded (List.mem_cons_of_mem _ hmem)
  cases p with
  | gotCount currentId loaded =>
    -- this handler is still open, so there is room for one store more
    have hle := hloaded currentId loaded List.mem_cons_self
    have hopen : (Place.gotCount currentId loaded :: fs).countP Place.isOpen
        = fs.countP Place.isOpen + 1 := List.countP_cons_of_pos rfl
    refine ⟨stores + 1, ?_, hle.succ (by omega), fun id v hmem => ?_⟩
    · rw [hopen]
      show stores + 1 + (Place.test currentId :: fs).countP Place.isOpen = _
      rw [List.countP_cons_of_neg Bool.false_ne_true]
      omega
    · rcases List.mem_cons.mp hmem with heq | hmem
      · cases heq
      · exact (hrest id v hmem).mono (Nat.le_succ stores)
  | hasId currentId =>
    refine ⟨stores, rfl, hcount, fun id v hmem => ?_⟩
    rcases List.mem_cons.mp hmem with heq | hmem
    · cases heq
      exact hcount
    · exact hrest id v hmem
  | ret => exact ⟨stores, rfl, hcount, hrest⟩
  | test currentId =>
    refine ⟨stores, ?_, hcount, fun id v hmem => ?_⟩
    · simp only [exec, List.countP_cons]
      cases s.deferFlag <;> rfl
    · rcases List.mem_cons.mp hmem with heq | hmem
      · revert heq
        cases s.deferFlag <;> exact nofun
      · exact hrest id v hmem
  | start | gotId | sleep | setFlag | print | raise₁ | raise₂ =>
    refine ⟨stores, rfl, hcount, fun id v hmem => ?_⟩
    rcases List.mem_cons.mp hmem with heq | hmem
    · cases heq
    · exact hrest id v hmem

/-- A step starts a handler or it does not. -/
theorem entered_snoc (as : List Act) (a : Act) : entered (as ++ [a]) = entered as +
    (if a = .enter true then 1 else 0) + (if a = .enter false then 1 else 0) := by
  simp only [entered, List.count_append, List.count_singleton, beq_iff_eq]
  omega

/-- Every step keeps the account of the stores, as long as there is room for the counter. -/
theorem stored_step (h : Stored as s) (hroom : entered as < 2 ^ 31) (hstep : Step s a t) :
    Stored (as ++ [a]) t := by
  obtain ⟨stores, hstores, hcount, hloaded⟩ := h
  unfold Stored
  rw [entered_snoc, ← hstores]
  cases hstep with
  | arrive => exact ⟨stores, rfl, hcount, hloaded⟩
  | enter _ =>
    refine ⟨stores, ?_, hcount, fun currentId loaded hmem => ?_⟩
    · rw [List.countP_cons]
      cases s.frames <;> rfl
    · rcases List.mem_cons.mp hmem with heq | hmem
      · cases heq
      · exact hloaded currentId loaded hmem
  | @run p fs _ hframes =>
    rw [hframes] at hloaded hstores ⊢
    exact stored_exec (hstores ▸ hroom) hcount hloaded

/-- The account holds after every run with fewer than `2 ^ 31` handlers. -/
theorem stored_of_exec (h : system.Exec as s) (hroom : entered as < 2 ^ 31) : Stored as s := by
  refine System.exec_induction (P := fun as s => entered as < 2 ^ 31 → Stored as s) ?_ ?_ h hroom
  · rintro s rfl _
    exact ⟨0, rfl, ⟨Int.le_refl 0, Int.le_refl 0⟩, nofun⟩
  · intro as s a t _ hs hstep hroom
    rw [entered_snoc] at hroom
    exact stored_step (hs (by omega)) (by omega) hstep

/-! ## Every outermost handler is counted

A handler that is interrupted between its load and its store overwrites what the others have
counted, but never with less than it found itself: a complete handler leaves the counter greater
than it was when it started. -/

/-- What is known of `defer_counter` inside a handler that was started when it was `e`; `count` is
its value now, or when the handler was interrupted. -/
def Place.Keeps (e count : ℤ) : Place → Prop
  | .start | .gotId _ | .hasId _ => e ≤ count
  | .gotCount _ loaded => e ≤ loaded.toInt
  | _ => e + 1 ≤ count

/-- **The handlers, one in the other.** Each one leaves the counter greater than it was when it
started, whatever it has loaded before it was interrupted, and `complete` have left none behind. -/
inductive Nested (complete : ℕ) : ℤ → List Place → Prop where
  | idle {count : ℤ} (hcount : complete ≤ count) : Nested complete count []
  | frame {e count : ℤ} {p : Place} {fs : List Place} (hkeeps : p.Keeps e count)
      (hbelow : Nested complete e fs) : Nested complete count (p :: fs)

/-- A handler that has ended has only made the counter greater. -/
theorem Nested.mono {complete : ℕ} {e count : ℤ} (h : Nested complete e fs) (hle : e ≤ count) :
    Nested complete count fs := by
  cases h with
  | idle hcount => exact .idle (hcount.trans hle)
  | @frame e' _ p fs hkeeps hbelow =>
    refine .frame (e := e') ?_ hbelow
    cases p with
    | gotCount currentId loaded => exact hkeeps
    | start | gotId | hasId => exact Int.le_trans hkeeps hle
    | test | sleep | setFlag | print | raise₁ | raise₂ | ret => exact Int.le_trans hkeeps hle

/-- The last outermost handler is complete when no handler runs. -/
def Counted (as : List Act) (s : State) : Prop :=
  ∃ complete, Nested complete s.deferCounter.toInt s.frames ∧
    complete + (if s.frames = [] then 0 else 1) = as.count (.enter false)

/-- A handler that returns has counted for the one below it, or for the process. -/
theorem nested_ret {complete : ℕ} {count : ℤ} (h : Nested complete count (.ret :: fs)) :
    Nested complete count fs ∧ (fs = [] → complete + 1 ≤ count) := by
  cases h with
  | @frame e _ _ _ hkeeps hbelow =>
    have hkeeps : e + 1 ≤ count := hkeeps
    refine ⟨hbelow.mono (by omega), ?_⟩
    rintro rfl
    cases hbelow with
    | idle hcount => omega

/-- A step inside a handler leaves the ones below as they are; the store of the counter must not
overflow. -/
theorem nested_exec {complete : ℕ} (h : Nested complete s.deferCounter.toInt (p :: fs))
    (hp : p ≠ .ret)
    (hstore : ∀ currentId loaded, p = .gotCount currentId loaded →
      (loaded + 1).toInt = loaded.toInt + 1) :
    ∃ q, (exec p fs s).frames = q :: fs ∧
      Nested complete (exec p fs s).deferCounter.toInt (q :: fs) := by
  cases h with
  | @frame e _ _ _ hkeeps hbelow =>
    cases p with
    | ret => exact absurd rfl hp
    | test currentId =>
      refine ⟨_, rfl, .frame ?_ hbelow⟩
      show Place.Keeps e s.deferCounter.toInt (if s.deferFlag then .ret else .sleep currentId)
      cases s.deferFlag <;> exact hkeeps
    | gotCount currentId loaded =>
      have hkeeps : e ≤ loaded.toInt := hkeeps
      refine ⟨_, rfl, .frame ?_ hbelow⟩
      show e + 1 ≤ (loaded + 1).toInt
      rw [hstore currentId loaded rfl]
      omega
    | start | gotId | hasId | sleep | setFlag | print | raise₁ | raise₂ =>
      exact ⟨_, rfl, .frame hkeeps hbelow⟩

/-- What a handler that is about to store has loaded leaves room for one more. -/
theorem Stored.store {currentId loaded : Int32} (h : Stored as s) (hroom : entered as < 2 ^ 31)
    (hframes : s.frames = .gotCount currentId loaded :: fs) :
    (loaded + 1).toInt = loaded.toInt + 1 := by
  obtain ⟨stores, hstores, -, hloaded⟩ := h
  rw [hframes] at hstores hloaded
  have hopen : (Place.gotCount currentId loaded :: fs).countP Place.isOpen
      = fs.countP Place.isOpen + 1 := List.countP_cons_of_pos rfl
  exact (hloaded currentId loaded List.mem_cons_self).toInt_succ (by omega)

/-- Every step keeps what the outermost handlers have counted. -/
theorem counted_step (h : Counted as s) (hstored : Stored as s) (hroom : entered as < 2 ^ 31)
    (hstep : Step s a t) : Counted (as ++ [a]) t := by
  obtain ⟨complete, hnested, hcount⟩ := h
  unfold Counted
  rw [List.count_append, List.count_singleton, ← hcount]
  cases hstep with
  | arrive => exact ⟨complete, hnested, rfl⟩
  | enter _ =>
    refine ⟨complete, .frame (Int.le_refl _) hnested, ?_⟩
    cases hframes : s.frames with
    | nil => rfl
    | cons p fs => rfl
  | @run p fs _ hframes =>
    rw [hframes] at hnested ⊢
    by_cases hret : p = .ret
    · subst hret
      obtain ⟨hbelow, hlast⟩ := nested_ret hnested
      cases fs with
      | nil => exact ⟨complete + 1, .idle (hlast rfl), rfl⟩
      | cons q fs => exact ⟨complete, hbelow, rfl⟩
    · obtain ⟨q, hq, hnext⟩ := nested_exec hnested hret fun currentId loaded heq =>
        hstored.store hroom (heq ▸ hframes)
      rw [hq]
      exact ⟨complete, hnext, rfl⟩

/-- What they have counted holds after every run with fewer than `2 ^ 31` handlers. -/
theorem counted_of_exec (h : system.Exec as s) (hroom : entered as < 2 ^ 31) : Counted as s := by
  refine System.exec_induction (P := fun as s => entered as < 2 ^ 31 → Counted as s) ?_ ?_ h hroom
  · rintro s rfl _
    exact ⟨0, .idle (Int.le_refl 0), rfl⟩
  · intro as s a t hexec hs hstep hroom
    rw [entered_snoc] at hroom
    have hbefore : entered as < 2 ^ 31 := by omega
    exact counted_step (hs hbefore) (stored_of_exec hexec hbefore) hbefore hstep

/-- **The counter.** In a run with fewer than `2 ^ 31` handlers, whenever none of them runs,
`defer_counter` is between the number of handlers that were started outside of any other one,
each of which counts, and the number of all. -/
theorem defer_counted (h : system.Exec as s) (hroom : entered as < 2 ^ 31)
    (hidle : s.frames = []) :
    (as.count (.enter false) : ℤ) ≤ s.deferCounter.toInt ∧
      s.deferCounter.toInt ≤ entered as := by
  obtain ⟨complete, hnested, hcomplete⟩ := counted_of_exec h hroom
  obtain ⟨stores, hstores, hcount, -⟩ := stored_of_exec h hroom
  rw [hidle] at hnested hstores hcomplete
  cases hnested with
  | idle hle =>
    rw [if_pos rfl] at hcomplete
    simp only [List.countP_nil] at hstores
    have hmost := hcount.2
    exact ⟨by omega, by omega⟩

/-! ## A lost signal

Two signals from outside, while the handler raises its own: one of the four is lost, since a signal
that is pending already is not counted again. -/

/-- The step that an event stands for, if it is one. -/
def next (s : State) : Act → Option State
  | .arrive => some { s with pending := true }
  | .enter nested =>
    if s.pending = true ∧ nested = !s.frames.isEmpty then
      some { s with pending := false, frames := .start :: s.frames }
    else none
  | .run p =>
    match s.frames with
    | [] => none
    | q :: fs => if s.pending = false ∧ q = p then some (exec p fs s) else none

/-- The executable step is a step of the process. -/
theorem step_of_next (h : next s a = some t) : Step s a t := by
  cases a with
  | arrive =>
    cases h
    exact .arrive
  | enter nested =>
    obtain ⟨hcond, ht⟩ := Option.ite_none_right_eq_some.mp h
    obtain ⟨hpending, rfl⟩ := hcond
    cases ht
    exact .enter hpending
  | run p =>
    cases hframes : s.frames with
    | nil => simp [next, hframes] at h
    | cons q fs =>
      rw [next, hframes] at h
      obtain ⟨hcond, ht⟩ := Option.ite_none_right_eq_some.mp h
      obtain ⟨hquiet, rfl⟩ := hcond
      cases ht
      exact .run hquiet hframes

/-- So a schedule that can be computed is a run. -/
theorem run_of_next (h : as.foldlM next s = some t) : system.Run s as t := by
  induction as generalizing s with
  | nil =>
    cases h
    exact .refl
  | cons a as ih =>
    rw [List.foldlM_cons] at h
    obtain ⟨u, hu, hrest⟩ := Option.bind_eq_some_iff.mp h
    exact System.Run.cons (step_of_next hu) (ih hrest)

/-- A second handler runs between the load and the store of the first one, and is not counted; it
raises the signal twice, for two more that find the flag set. -/
def lost : List Act :=
  [.arrive, .enter false, .run .start, .run (.gotId 0), .run (.hasId 0),
   .arrive, .enter true, .run .start, .run (.gotId 1), .run (.hasId 1), .run (.gotCount 1 0),
   .run (.test 1), .run (.sleep 1), .run (.setFlag 1), .run (.print 1),
   .run .raise₁, .enter true, .run .start, .run (.gotId 2), .run (.hasId 2), .run (.gotCount 2 1),
   .run (.test 2), .run .ret,
   .run .raise₂, .enter true, .run .start, .run (.gotId 3), .run (.hasId 3), .run (.gotCount 3 2),
   .run (.test 3), .run .ret,
   .run .ret, .run (.gotCount 0 0), .run (.test 0), .run .ret]

/-- The counter and the output at the end of that run. -/
theorem exec_lost : system.Exec lost ⟨4, 1, true, false, [], [1]⟩ :=
  ⟨initial, rfl, run_of_next (by decide)⟩

/-- The bounds at that run. -/
theorem defer_bounded_lost : entered lost ≤ 3 * 2 ∧ lost.length ≤ 27 * 2 := by
  obtain ⟨hentered, -, hlength, -⟩ := defer_bounded exec_lost
  exact ⟨hentered, hlength⟩

/-- One of four handlers is counted. -/
theorem defer_counted_lost : (lost.count (.enter false) : ℤ) ≤ 1 ∧ (1 : ℤ) ≤ entered lost ∧
    entered lost = 4 := by
  obtain ⟨hlower, hupper⟩ := defer_counted exec_lost (by decide) rfl
  exact ⟨hlower, hupper, rfl⟩

end HseDev.Sem18.DeferHandler
