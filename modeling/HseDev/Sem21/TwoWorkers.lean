import HseDev.Lib.Eventfd
import HseDev.Lib.Transition
import Mathlib.Algebra.Group.Nat.Defs
import Mathlib.Data.List.Nodup
import Mathlib.Logic.Function.Basic

/-!
# HseDev — the two workers of `sem21/task20_3.c`

Parent and child count `ctx->begin` up in shared memory, without a lock. An eventfd for each
of them carries the permission to go on from one to the other.

* **`advance`** — the next single load, store, print, or eventfd call of a worker; `none` while
  its read blocks, and once it has returned.
* **`Stage`** — the states after each number of steps. `Stage.next` says that from each of them
  one worker alone can go on, and to the next one: every schedule is the same run.
* **`work_counts`** — the lines, the one token and the absence of deadlock.
-/

namespace HseDev.Sem21.TwoWorkers

open Transition Eventfd

/-- The processes, by their `worker_id`: the parent and the child. -/
inductive Worker where
  | one
  | two
  deriving DecidableEq, Repr

def Worker.other : Worker → Worker
  | .one => .two
  | .two => .one

def Worker.workerId : Worker → Int32
  | .one => 1
  | .two => 2

/-- `shared_ctx_t`. -/
structure SharedCtx where
  begin_ : UInt64
  end_ : UInt64
  deriving DecidableEq, Repr

/-- The three numbers of a `printf`, the last two cast to `long long int`. -/
structure Line where
  workerId : Int32
  begin_ : Int64
  end_ : Int64
  deriving DecidableEq, Repr

/-- Where a worker is in `work`, with what it has loaded. The parent triggers `fd1` first. -/
inductive Pc where
  | start
  | read
  | testBegin
  | testEnd (begin_ : UInt64)
  | printBegin
  | printEnd (begin_ : UInt64)
  | print (begin_ end_ : UInt64)
  | load
  | store (begin_ : UInt64)
  | trigger
  | stop
  | exited
  deriving DecidableEq, Repr

/-- From a successful read of its own eventfd up to the next write to the other's. -/
def Pc.HasToken : Pc → Prop
  | .start | .read | .exited => False
  | _ => True

/-- `fd w` is the eventfd that `w` reads; `printed` the calls of `printf`, in their order. -/
structure State where
  ctx : SharedCtx
  fd : Worker → Fd
  pc : Worker → Pc
  printed : List Line

def State.goto (s : State) (w : Worker) (pc : Pc) : State :=
  { s with pc := Function.update s.pc w pc }

/-- `do_trigger_fd` on the eventfd of `w`. -/
def State.doTriggerFd (s : State) (w : Worker) : State :=
  { s with fd := Function.update s.fd w ((s.fd w).write 1) }

def State.storeBegin (s : State) (value : UInt64) : State :=
  { s with ctx := { s.ctx with begin_ := value } }

def State.printf (s : State) (w : Worker) (begin_ end_ : UInt64) : State :=
  { s with printed := s.printed ++ [⟨w.workerId, begin_.toInt64, end_.toInt64⟩] }

def advance (s : State) (w : Worker) : Option State :=
  match s.pc w with
  | .start => some ((s.doTriggerFd .one).goto w .read)
  | .read =>
    match (s.fd w).read with
    | none => none
    | some (_, fd) => some ({ s with fd := Function.update s.fd w fd }.goto w .testBegin)
  | .testBegin => some (s.goto w (.testEnd s.ctx.begin_))
  | .testEnd begin_ => some (s.goto w (if begin_ ≥ s.ctx.end_ then .stop else .printBegin))
  | .printBegin => some (s.goto w (.printEnd s.ctx.begin_))
  | .printEnd begin_ => some (s.goto w (.print begin_ s.ctx.end_))
  | .print begin_ end_ => some ((s.printf w begin_ end_).goto w .load)
  | .load => some (s.goto w (.store s.ctx.begin_))
  | .store begin_ => some ((s.storeBegin (begin_ + 1)).goto w .trigger)
  | .trigger => some ((s.doTriggerFd w.other).goto w .read)
  -- after the loop
  | .stop => some ((s.doTriggerFd w.other).goto w .exited)
  | .exited => none

/-- After the `fork`: the child in `work`, the parent before its first trigger. -/
def start (end_ : UInt64) : State where
  ctx := ⟨0, end_⟩
  fd _ := .fresh
  pc
    | .one => .start
    | .two => .read
  printed := []

def program (end_ : UInt64) : System State Worker :=
  .ofFun (fun s => s = start end_) advance

/-! ## Two workers, seen from one of them

Whatever holds of one worker holds of the other with the roles exchanged. The functions on workers
are therefore given by a value at one and a value at the other. -/

/-- The function with the value `a` at `w` and `b` at the other worker. -/
def Worker.pick {α : Type*} (w : Worker) (a b : α) : Worker → α :=
  fun v => if v = w then a else b

section Pick

variable {α : Type*} (w : Worker) (a b c : α)

theorem Worker.eq_or_other (v : Worker) : v = w ∨ v = w.other := by
  cases v <;> cases w <;> decide

@[simp] theorem Worker.other_ne : w.other ≠ w := by
  cases w <;> decide

@[simp] theorem Worker.ne_other : w ≠ w.other := w.other_ne.symm

@[simp] theorem Worker.pick_self : w.pick a b w = a := if_pos rfl

@[simp] theorem Worker.pick_other : w.pick a b w.other = b := if_neg w.other_ne

@[simp] theorem Worker.update_pick_self : Function.update (w.pick a b) w c = w.pick c b := by
  funext v
  rcases w.eq_or_other v with rfl | rfl <;> simp

@[simp] theorem Worker.update_pick_other :
    Function.update (w.pick a b) w.other c = w.pick a c := by
  funext v
  rcases w.eq_or_other v with rfl | rfl <;> simp

/-- The two values, seen from the other worker. -/
theorem Worker.pick_swap : w.other.pick b a = w.pick a b := by
  funext v
  cases v <;> cases w <;> rfl

end Pick

/-! ## Stages

The program goes through one sequence of states, whatever the schedule: the worker that does not
have the turn waits at its eventfd. Stage `k` is the state after `k` steps. -/

/-- Who prints the line of `begin = k`. -/
def turn (k : Nat) : Worker :=
  if k % 2 = 0 then .one else .two

/-- The line printed for `begin = k`. -/
def line (end_ : UInt64) (k : Nat) : Line :=
  ⟨(turn k).workerId, (UInt64.ofNat k).toInt64, end_.toInt64⟩

/-- The lines of the first `m` values of `begin`. -/
def lines (end_ : UInt64) (m : Nat) : List Line :=
  (List.range m).map (line end_)

example : lines 11 3 = [⟨1, 0, 11⟩, ⟨2, 1, 11⟩, ⟨1, 2, 11⟩] := by decide

theorem turn_succ (k : Nat) : turn (k + 1) = (turn k).other := by
  unfold turn
  rcases Nat.mod_two_eq_zero_or_one k with h | h
  · rw [if_pos h, if_neg (by omega)]
    rfl
  · rw [if_pos (by omega), if_neg (by omega)]
    rfl

theorem lines_succ (end_ : UInt64) (m : Nat) :
    lines end_ (m + 1) = lines end_ m ++ [line end_ m] := by
  simp [lines, List.range_succ]

/-- The cast of `printf` keeps the values apart. -/
theorem nodup_begin (end_ : UInt64) {m : Nat} (hm : m ≤ 2 ^ 64) :
    ((lines end_ m).map Line.begin_).Nodup := by
  rw [lines, List.map_map]
  refine List.Nodup.map_on (fun j hj k hk heq => ?_) List.nodup_range
  have hlt : j < 2 ^ 64 ∧ k < 2 ^ 64 :=
    ⟨Nat.lt_of_lt_of_le (List.mem_range.mp hj) hm, Nat.lt_of_lt_of_le (List.mem_range.mp hk) hm⟩
  have hvalue : UInt64.ofNat j = UInt64.ofNat k := by
    rw [← (UInt64.ofNat j).toUInt64_toInt64, ← (UInt64.ofNat k).toUInt64_toInt64]
    exact congrArg Int64.toUInt64 heq
  have hnat := congrArg UInt64.toNat hvalue
  rwa [UInt64.toNat_ofNat_of_lt' hlt.1, UInt64.toNat_ofNat_of_lt' hlt.2] at hnat

/-- A state from the view of the worker `w`: the counts of its eventfd and the other's, its
place in the code and the other's. -/
def view (ctx : SharedCtx) (w : Worker) (own other : Nat) (pc pc' : Pc) (printed : List Line) :
    State where
  ctx := ctx
  fd := w.pick (.opened own) (.opened other)
  pc := w.pick pc pc'
  printed := printed

section View

variable (ctx : SharedCtx) (w : Worker) (own other : Nat) (pc pc' q : Pc) (printed : List Line)

@[simp] theorem view_pc_self : (view ctx w own other pc pc' printed).pc w = pc :=
  w.pick_self pc pc'

@[simp] theorem view_pc_other : (view ctx w own other pc pc' printed).pc w.other = pc' :=
  w.pick_other pc pc'

@[simp] theorem view_fd_self : (view ctx w own other pc pc' printed).fd w = .opened own :=
  w.pick_self (Fd.opened own) (.opened other)

@[simp] theorem view_fd_other :
    (view ctx w own other pc pc' printed).fd w.other = .opened other :=
  w.pick_other (Fd.opened own) (.opened other)

@[simp] theorem view_ctx : (view ctx w own other pc pc' printed).ctx = ctx := rfl

@[simp] theorem view_goto :
    (view ctx w own other pc pc' printed).goto w q = view ctx w own other q pc' printed := by
  simp [State.goto, view]

@[simp] theorem view_doTriggerFd_self :
    (view ctx w own other pc pc' printed).doTriggerFd w
      = view ctx w (own + 1) other pc pc' printed := by
  simp [State.doTriggerFd, view]

@[simp] theorem view_doTriggerFd_other :
    (view ctx w own other pc pc' printed).doTriggerFd w.other
      = view ctx w own (other + 1) pc pc' printed := by
  simp [State.doTriggerFd, view]

@[simp] theorem view_storeBegin (n : UInt64) :
    (view ctx w own other pc pc' printed).storeBegin n
      = view ⟨n, ctx.end_⟩ w own other pc pc' printed := rfl

/-- The same state from the view of the other worker. -/
theorem view_swap :
    view ctx w own other pc pc' printed = view ctx w.other other own pc' pc printed := by
  simp [view, w.pick_swap]

/-- A worker with a token at its eventfd takes it. -/
theorem advance_read :
    advance (view ctx w 1 other .read pc' printed) w
      = some (view ctx w 0 other .testBegin pc' printed) := by
  simp [advance, Fd.read, view, State.goto]

theorem advance_blocked :
    advance (view ctx w own 0 pc .read printed) w.other = none := by
  simp [advance]

/-- A worker that has exited takes no step. -/
theorem advance_exited :
    advance (view ctx w own other pc .exited printed) w.other = none := by
  simp [advance]

/-- If the other worker does not have the token, somebody is without it. -/
theorem view_outside {pc pc' : Pc} (h : ¬ pc'.HasToken) :
    ∃ v, ¬ ((view ctx w own other pc pc' printed).pc v).HasToken :=
  ⟨w.other, by rwa [view_pc_other]⟩

end View

/-- The state after so many steps, nine to a line. -/
inductive Stage (end_ : UInt64) : Nat → State → Prop where
  | start : Stage end_ 0 (view ⟨0, end_⟩ .one 0 0 .start .read [])
  /-- The worker whose turn it is looks at `begin = n`. -/
  | read {n : UInt64} (hn : n ≤ end_) :
      Stage end_ (9 * n.toNat + 1)
        (view ⟨n, end_⟩ (turn n.toNat) 1 0 .read .read (lines end_ n.toNat))
  | testBegin {n : UInt64} (hn : n ≤ end_) :
      Stage end_ (9 * n.toNat + 2)
        (view ⟨n, end_⟩ (turn n.toNat) 0 0 .testBegin .read (lines end_ n.toNat))
  | testEnd {n : UInt64} (hn : n ≤ end_) :
      Stage end_ (9 * n.toNat + 3)
        (view ⟨n, end_⟩ (turn n.toNat) 0 0 (.testEnd n) .read (lines end_ n.toNat))
  /-- It prints its line. -/
  | printBegin {n : UInt64} (hn : n < end_) :
      Stage end_ (9 * n.toNat + 4)
        (view ⟨n, end_⟩ (turn n.toNat) 0 0 .printBegin .read (lines end_ n.toNat))
  | printEnd {n : UInt64} (hn : n < end_) :
      Stage end_ (9 * n.toNat + 5)
        (view ⟨n, end_⟩ (turn n.toNat) 0 0 (.printEnd n) .read (lines end_ n.toNat))
  | print {n : UInt64} (hn : n < end_) :
      Stage end_ (9 * n.toNat + 6)
        (view ⟨n, end_⟩ (turn n.toNat) 0 0 (.print n end_) .read (lines end_ n.toNat))
  | load {n : UInt64} (hn : n < end_) :
      Stage end_ (9 * n.toNat + 7)
        (view ⟨n, end_⟩ (turn n.toNat) 0 0 .load .read (lines end_ (n.toNat + 1)))
  | store {n : UInt64} (hn : n < end_) :
      Stage end_ (9 * n.toNat + 8)
        (view ⟨n, end_⟩ (turn n.toNat) 0 0 (.store n) .read (lines end_ (n.toNat + 1)))
  | trigger {n : UInt64} (hn : n < end_) :
      Stage end_ (9 * n.toNat + 9)
        (view ⟨n + 1, end_⟩ (turn n.toNat) 0 0 .trigger .read (lines end_ (n.toNat + 1)))
  /-- It has found `begin = end`, and wakes the other, which finds the same. -/
  | stop : Stage end_ (9 * end_.toNat + 4)
        (view ⟨end_, end_⟩ (turn end_.toNat) 0 0 .stop .read (lines end_ end_.toNat))
  | lastRead : Stage end_ (9 * end_.toNat + 5)
        (view ⟨end_, end_⟩ (turn end_.toNat).other 1 0 .read .exited (lines end_ end_.toNat))
  | lastTestBegin : Stage end_ (9 * end_.toNat + 6)
        (view ⟨end_, end_⟩ (turn end_.toNat).other 0 0 .testBegin .exited (lines end_ end_.toNat))
  | lastTestEnd : Stage end_ (9 * end_.toNat + 7)
        (view ⟨end_, end_⟩ (turn end_.toNat).other 0 0 (.testEnd end_) .exited
          (lines end_ end_.toNat))
  | lastStop : Stage end_ (9 * end_.toNat + 8)
        (view ⟨end_, end_⟩ (turn end_.toNat).other 0 0 .stop .exited (lines end_ end_.toNat))
  | done : Stage end_ (9 * end_.toNat + 9)
        (view ⟨end_, end_⟩ (turn end_.toNat).other 0 1 .exited .exited (lines end_ end_.toNat))

/-- Below `end` the increment does not wrap. -/
theorem toNat_add_one {n m : UInt64} (h : n < m) : (n + 1).toNat = n.toNat + 1 := by
  have hlt : n.toNat < m.toNat := UInt64.lt_iff_toNat_lt.mp h
  have hm : m.toNat < 2 ^ 64 := m.toNat_lt
  rw [UInt64.toNat_add, UInt64.toNat_one]
  omega

/-- The printed line, from what the worker has loaded. -/
theorem view_printf (end_ n : UInt64) (pc pc' : Pc) :
    (view ⟨n, end_⟩ (turn n.toNat) 0 0 pc pc' (lines end_ n.toNat)).printf (turn n.toNat) n end_
      = view ⟨n, end_⟩ (turn n.toNat) 0 0 pc pc' (lines end_ (n.toNat + 1)) := by
  rw [lines_succ, line, UInt64.ofNat_toNat]
  rfl

/-- **One worker alone can go on**, and to the next stage, until both have exited. -/
theorem Stage.next {end_ : UInt64} {k : Nat} {s : State} (h : Stage end_ k s) :
    (∃ w s', advance s w = some s' ∧ advance s w.other = none ∧ Stage end_ (k + 1) s')
      ∨ ∀ w, s.pc w = .exited := by
  cases h with
  | start =>
    refine Or.inl ⟨.one, _, ?_, advance_blocked .., .read (n := 0) UInt64.zero_le⟩
    simp [advance, turn, lines]
  | @read n hn =>
    exact Or.inl ⟨turn n.toNat, _, advance_read .., advance_blocked .., .testBegin hn⟩
  | @testBegin n hn =>
    refine Or.inl ⟨turn n.toNat, _, ?_, advance_blocked .., .testEnd hn⟩
    simp [advance]
  | @testEnd n hn =>
    by_cases hlt : n < end_
    · have hnot : ¬ end_ ≤ n := UInt64.not_le.mpr hlt
      refine Or.inl ⟨turn n.toNat, _, ?_, advance_blocked .., .printBegin hlt⟩
      simp [advance, hnot]
    · obtain rfl : n = end_ := UInt64.le_antisymm hn (UInt64.not_lt.mp hlt)
      refine Or.inl ⟨turn n.toNat, _, ?_, advance_blocked .., .stop⟩
      simp [advance]
  | @printBegin n hn =>
    refine Or.inl ⟨turn n.toNat, _, ?_, advance_blocked .., .printEnd hn⟩
    simp [advance]
  | @printEnd n hn =>
    refine Or.inl ⟨turn n.toNat, _, ?_, advance_blocked .., .print hn⟩
    simp [advance]
  | @print n hn =>
    refine Or.inl ⟨turn n.toNat, _, ?_, advance_blocked .., .load hn⟩
    simp [advance, view_printf]
  | @load n hn =>
    refine Or.inl ⟨turn n.toNat, _, ?_, advance_blocked .., .store hn⟩
    simp [advance]
  | @store n hn =>
    refine Or.inl ⟨turn n.toNat, _, ?_, advance_blocked .., .trigger hn⟩
    simp [advance]
  | @trigger n hn =>
    -- the token goes over to the other worker
    have hsucc : (n + 1).toNat = n.toNat + 1 := toNat_add_one hn
    have hle : n + 1 ≤ end_ := by
      rw [UInt64.le_iff_toNat_le, hsucc]
      exact UInt64.lt_iff_toNat_lt.mp hn
    have hread := Stage.read hle
    rw [hsucc, turn_succ] at hread
    refine Or.inl ⟨turn n.toNat, _, ?_, advance_blocked .., hread⟩
    rw [← view_swap]
    simp [advance]
  | stop =>
    refine Or.inl ⟨turn end_.toNat, _, ?_, advance_blocked .., .lastRead⟩
    rw [← view_swap]
    simp [advance]
  | lastRead =>
    exact Or.inl ⟨(turn end_.toNat).other, _, advance_read .., advance_exited .., .lastTestBegin⟩
  | lastTestBegin =>
    refine Or.inl ⟨(turn end_.toNat).other, _, ?_, advance_exited .., .lastTestEnd⟩
    simp [advance]
  | lastTestEnd =>
    refine Or.inl ⟨(turn end_.toNat).other, _, ?_, advance_exited .., .lastStop⟩
    simp [advance]
  | lastStop =>
    refine Or.inl ⟨(turn end_.toNat).other, _, ?_, advance_exited .., .done⟩
    simp [advance]
  | done =>
    refine Or.inr fun v => ?_
    rcases (turn end_.toNat).other.eq_or_other v with rfl | rfl <;> simp

/-- Every step leads to the next stage. -/
theorem Stage.step {end_ : UInt64} {k : Nat} {s s' : State} {w : Worker} (h : Stage end_ k s)
    (hstep : advance s w = some s') : Stage end_ (k + 1) s' := by
  rcases h.next with ⟨v, s'', hv, hother, hnext⟩ | hexited
  · rcases v.eq_or_other w with rfl | rfl
    · rw [hv] at hstep
      cases hstep
      exact hnext
    · rw [hother] at hstep
      cases hstep
  · rw [advance, hexited w] at hstep
    cases hstep

theorem start_stage (end_ : UInt64) : Stage end_ 0 (start end_) := by
  have hview : start end_ = view ⟨0, end_⟩ .one 0 0 .start .read [] := by
    rw [start, view]
    congr 1 <;> funext w <;> cases w <;> rfl
  rw [hview]
  exact .start

/-- A run of `k` steps ends at stage `k`. Induction on the run. -/
theorem exec_stage {end_ : UInt64} {as : List Worker} {s : State}
    (hexec : (program end_).Exec as s) : Stage end_ as.length s := by
  refine System.exec_induction (P := fun as s => Stage end_ as.length s) ?_ ?_ hexec
  · rintro s rfl
    exact start_stage end_
  · intro as s w s' _ hstage hstep
    rw [List.length_append]
    exact hstage.step hstep

/-! ## What holds at every stage

The claims about runs are read off the stages: how many there are, what has been printed at each and
who holds the token. -/

/-- Nine steps for each value of `begin`, and nine more at the end. -/
theorem Stage.length_le {end_ : UInt64} {k : Nat} {s : State} (h : Stage end_ k s) :
    k ≤ 9 * end_.toNat + 9 := by
  cases h with
  | start => omega
  | read hn | testBegin hn | testEnd hn =>
    have hle := UInt64.le_iff_toNat_le.mp hn
    omega
  | printBegin hn | printEnd hn | print hn | load hn | store hn | trigger hn =>
    have hlt := UInt64.lt_iff_toNat_lt.mp hn
    omega
  | stop | lastRead | lastTestBegin | lastTestEnd | lastStop | done => omega

/-- At every stage the first lines have been printed. -/
theorem Stage.printed {end_ : UInt64} {k : Nat} {s : State} (h : Stage end_ k s) :
    ∃ m ≤ end_.toNat, s.printed = lines end_ m := by
  cases h with
  | start => exact ⟨0, Nat.zero_le _, rfl⟩
  | read hn | testBegin hn | testEnd hn => exact ⟨_, UInt64.le_iff_toNat_le.mp hn, rfl⟩
  | printBegin hn | printEnd hn | print hn =>
    exact ⟨_, Nat.le_of_lt (UInt64.lt_iff_toNat_lt.mp hn), rfl⟩
  | load hn | store hn | trigger hn => exact ⟨_, UInt64.lt_iff_toNat_lt.mp hn, rfl⟩
  | stop | lastRead | lastTestBegin | lastTestEnd | lastStop | done => exact ⟨_, Nat.le_refl _, rfl⟩

/-- A worker that has exited has seen `begin = end`. -/
theorem Stage.printed_of_exited {end_ : UInt64} {k : Nat} {s : State} {w : Worker}
    (h : Stage end_ k s) (hw : s.pc w = .exited) : s.printed = lines end_ end_.toNat := by
  cases h with
  | stop | lastRead | lastTestBegin | lastTestEnd | lastStop | done => rfl
  | start =>
    rcases Worker.one.eq_or_other w with rfl | rfl <;> simp at hw
  | @read n | @testBegin n | @testEnd n | @printBegin n | @printEnd n | @print n | @load n
  | @store n | @trigger n =>
    rcases (turn n.toNat).eq_or_other w with rfl | rfl <;> simp at hw

/-- One of the two workers waits for the token, or has exited. -/
theorem Stage.outside {end_ : UInt64} {k : Nat} {s : State} (h : Stage end_ k s) :
    ∃ v, ¬ (s.pc v).HasToken := by
  cases h with
  | start | read | testBegin | testEnd | printBegin | printEnd | print | load | store | trigger
  | stop | lastRead | lastTestBegin | lastTestEnd | lastStop | done =>
    exact view_outside _ _ _ _ _ id

/-- **The two-process counter.** After every run at most one worker holds the token, the lines
are the first ones of `begin = 0, 1, …` with the workers taking turns, each value once, and all
of them once a worker has exited; while one has not, a step is possible, and no run has more
than `9 * (end + 1)` of them. -/
theorem work_counts (end_ : UInt64) {as : List Worker} {s : State}
    (hexec : (program end_).Exec as s) :
    (∀ w, ¬ ((s.pc w).HasToken ∧ (s.pc w.other).HasToken))
      ∧ (∃ m ≤ end_.toNat, s.printed = lines end_ m) ∧ (s.printed.map Line.begin_).Nodup
      ∧ (∀ w, s.pc w = .exited → s.printed = lines end_ end_.toNat)
      ∧ (∀ w, s.pc w ≠ .exited → ∃ v s', (program end_).step s v s')
      ∧ as.length ≤ 9 * (end_.toNat + 1) := by
  have hstage : Stage end_ as.length s := exec_stage hexec
  obtain ⟨m, hm, hprinted⟩ := hstage.printed
  have hnodup : (s.printed.map Line.begin_).Nodup := by
    rw [hprinted]
    exact nodup_begin end_ (Nat.le_trans hm (Nat.le_of_lt end_.toNat_lt))
  refine ⟨fun w ⟨hw, hother⟩ => ?_, ⟨m, hm, hprinted⟩, hnodup, fun w => hstage.printed_of_exited,
    fun w hw => ?_, hstage.length_le⟩
  · obtain ⟨v, hv⟩ := hstage.outside
    rcases w.eq_or_other v with rfl | rfl
    · exact hv hw
    · exact hv hother
  · rcases hstage.next with ⟨v, s', hv, _, _⟩ | hexited
    · exact ⟨v, s', hv⟩
    · exact absurd (hexited w) hw

/-- The whole run for `end = 1`. -/
theorem work_counts_one :
    ∃ (as : List Worker) (s : State), (program 1).Exec as s ∧ (∀ w, s.pc w = .exited)
      ∧ (∃ m ≤ 1, s.printed = lines 1 m) ∧ as.length ≤ 18 := by
  let as := List.replicate 10 Worker.one ++ List.replicate 4 .two ++ List.replicate 4 .one
  have hrun : ∃ s, as.foldlM advance (start 1) = some s ∧ ∀ w, s.pc w = .exited :=
    ⟨_, rfl, fun w => by cases w <;> rfl⟩
  obtain ⟨s, hfold, hexited⟩ := hrun
  have hexec : (program 1).Exec as s := ⟨start 1, rfl, System.run_ofFun_iff.mpr hfold⟩
  obtain ⟨_, hprinted, _, _, _, hlength⟩ := work_counts 1 hexec
  exact ⟨as, s, hexec, hexited, hprinted, hlength⟩

end HseDev.Sem21.TwoWorkers
