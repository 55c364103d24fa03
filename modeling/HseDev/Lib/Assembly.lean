import HseDev.Lib.X86
import Mathlib.Data.List.Infix

/-!
# Routines that call each other

A second part of the x86 machine: routines with `call` and `ret`, calls of functions outside
the text, byte operations, conditional jumps and the double-precision side of the SSE
registers. Memory, registers and flags are those of `HseDev.Lib.X86`.

* **`Instr`** / **`exec`** — an instruction, in the order of operands of the assembler's text.
* **`Machine`** — a text with what it is given: the address it is loaded at, what a function
  outside it does to a state, and what the double-precision operations mean.
* **`Steps.block`** — a straight piece of the text, executed as a whole (`run`); one lemma for
  each way of going on elsewhere.
* **`Steps.final`** — the machine is deterministic: a run that has ended is the end of every
  run; **`log_of_steps`** — no access is forgotten.
* **`Cond.holds_l`** and its siblings — what a jump after a comparison tests.
-/

namespace Assembly

open X86

/-! ## Words in memory

A `movl` reads and writes four bytes, a `movq` eight. What a word holds after a store depends only
on whether the two areas are the same or apart, so the lemmas on areas come first everywhere below.
-/

/-- The eight bytes of a double-precision pattern. -/
def join (low high : UInt32) : UInt64 :=
  UInt64.ofNat (low.toNat + 2 ^ 32 * high.toNat)

def lowHalf (x : UInt64) : UInt32 :=
  UInt32.ofNat x.toNat

def highHalf (x : UInt64) : UInt32 :=
  UInt32.ofNat (x.toNat / 2 ^ 32)

def load64 (m : Memory) (p : UInt32) : UInt64 :=
  join (load32 m p) (load32 m (p + 4))

/-- The low byte of a register. -/
def lowByte (x : UInt32) : UInt8 :=
  UInt8.ofNat x.toNat

/-- A new low byte; the others stay. -/
def setLowByte (x : UInt32) (b : UInt8) : UInt32 :=
  UInt32.ofNat (x.toNat / 256 * 256 + b.toNat)

/-! ## The machine -/

/-- `disp(%base, %index, scale)`; a symbol is a displacement. -/
structure Addr where
  disp : UInt32 := 0
  base : Option Reg := none
  index : Option (Reg × UInt32) := none
  deriving DecidableEq, Repr

def Addr.eval (a : Addr) (reg : Reg → UInt32) : UInt32 :=
  a.disp + (a.base.map reg).getD 0 + (a.index.map fun i => reg i.1 * i.2).getD 0

/-- `disp(%base)` -/
abbrev based (disp : UInt32) (base : Reg) : Addr :=
  { disp, base := some base }

/-- `(%base, %index, 4)` -/
abbrev element (base index : Reg) : Addr :=
  { base := some base, index := some (index, 4) }

/-- The address `disp(base)`: what every slot of a stack frame is reached by. -/
@[simp] theorem eval_based (disp : UInt32) (base : Reg) (reg : Reg → UInt32) :
    (based disp base).eval reg = reg base + disp := by
  show disp + reg base + 0 = reg base + disp
  rw [UInt32.add_zero, UInt32.add_comm]

/-- The address `(base, index, 4)`: element `index` of an array of words that starts at `base`. -/
@[simp] theorem eval_element (base index : Reg) (reg : Reg → UInt32) :
    (element base index).eval reg = reg base + reg index * 4 := by
  show 0 + reg base + reg index * 4 = _
  rw [UInt32.zero_add]

inductive Src where
  | imm (v : UInt32)
  | reg (r : Reg)
  | mem (a : Addr)
  deriving DecidableEq, Repr

/-- An access of an instruction to its memory operand. -/
structure Access where
  operand : Addr
  address : UInt32
  size : ℕ
  store : Bool
  deriving DecidableEq, Repr

inductive Alu where
  | add
  | sub
  | and
  | xor
  deriving DecidableEq, Repr

/-- The suffix of a conditional jump. -/
inductive Cond where
  | e
  | l
  | g
  | b
  | a
  | be
  | ae
  | ne
  deriving DecidableEq, Repr

/-- `depth` counts the calls inside the text that have not returned; `log` are the accesses to
memory operands; `world` is what the functions outside the text work on. -/
structure State (W : Type) where
  pc : ℕ
  reg : Reg → UInt32
  xmm : Xmm → UInt64
  flags : Flags
  mem : Memory
  log : List Access
  depth : ℕ
  returned : Bool
  world : W

/-- The instructions over the labels `L` and the functions `E` outside the text. The byte
instructions name the register that the byte register is the low byte of. -/
inductive Instr (L E : Type) where
  | label (l : L)
  | pushl (src : Reg)
  | popl (dst : Reg)
  | movl (src : Src) (dst : Reg)
  | movlTo (src : Src) (dst : Addr)
  | movb (src : Addr) (dst : Reg)
  | lea (src : Addr) (dst : Reg)
  | alu (op : Alu) (src : Src) (dst : Reg)
  | inc (dst : Reg)
  | dec (dst : Reg)
  | cmpl (src : Src) (dst : Reg)
  | testl (src dst : Reg)
  | cmpb (src dst : Reg)
  | testb (src dst : Reg)
  | jmp (l : L)
  | jcc (c : Cond) (l : L)
  | call (l : L)
  | callOut (f : E)
  | ret
  | movsdLoad (src : Addr) (dst : Xmm)
  | movsd (src dst : Xmm)
  | movd (src : Xmm) (dst : Addr)
  | comisd (src dst : Xmm)
  | subsd (src dst : Xmm)
  | maxsd (src dst : Xmm)
  deriving DecidableEq, Repr

/-- How two doubles compare. -/
inductive Comparison where
  | less
  | equal
  | greater
  | unordered
  deriving DecidableEq, Repr

/-- Operations on double-precision patterns. -/
structure DoubleOps where
  compare : UInt64 → UInt64 → Comparison
  sub : UInt64 → UInt64 → UInt64
  max : UInt64 → UInt64 → UInt64

structure Machine (L E W : Type) where
  prog : List (Instr L E)
  text : UInt32
  out : E → State W → State W
  ops : DoubleOps

/-! ## Execution

One instruction changes registers, flags or memory (`exec`), or it decides where to go on
(`transfer`). The two are kept apart, because a piece of text without a jump only needs the first.
-/

/-- The flags of `comisd`, by how the destination compares with the source. -/
def Flags.compare : Comparison → Flags
  | .less => { zf := false, sf := false, cf := true, of := false }
  | .equal => { zf := true, sf := false, cf := false, of := false }
  | .greater => { zf := false, sf := false, cf := false, of := false }
  | .unordered => { zf := true, sf := false, cf := true, of := false }

/-- The flags after `x + y`. -/
def Flags.add (x y : UInt32) : Flags where
  zf := x + y == 0
  sf := decide (2 ^ 31 ≤ (x + y).toNat)
  cf := decide (2 ^ 32 ≤ x.toNat + y.toNat)
  of := decide (signed x + signed y < -2 ^ 31 ∨ 2 ^ 31 ≤ signed x + signed y)

/-- The flags after `x - y` on bytes. -/
def Flags.subByte (x y : UInt8) : Flags where
  zf := x - y == 0
  sf := decide (2 ^ 7 ≤ (x - y).toNat)
  cf := decide (x < y)
  of := decide (x.toInt8.toInt - y.toInt8.toInt < -2 ^ 7
    ∨ 2 ^ 7 ≤ x.toInt8.toInt - y.toInt8.toInt)

def Flags.logicByte (x : UInt8) : Flags where
  zf := x == 0
  sf := decide (2 ^ 7 ≤ x.toNat)
  cf := false
  of := false

def Cond.holds (f : Flags) : Cond → Bool
  | .e => f.zf
  | .ne => !f.zf
  | .l => f.sf != f.of
  | .g => !f.zf && f.sf == f.of
  | .b => f.cf
  | .a => !f.cf && !f.zf
  | .be => f.cf || f.zf
  | .ae => !f.cf

def Alu.value : Alu → UInt32 → UInt32 → UInt32
  | .add, x, y => x + y
  | .sub, x, y => x - y
  | .and, x, y => x &&& y
  | .xor, x, y => x ^^^ y

def Alu.flags : Alu → UInt32 → UInt32 → Flags
  | .add, x, y => Flags.add x y
  | .sub, x, y => .sub x y
  | .and, x, y => .logic (x &&& y)
  | .xor, x, y => .logic (x ^^^ y)

variable {L E W : Type}

namespace State

def set (s : State W) (r : Reg) (v : UInt32) : State W :=
  { s with reg := setReg s.reg r v }

def access (s : State W) (a : Addr) (size : ℕ) (store : Bool) : State W :=
  { s with log := s.log ++ [⟨a, a.eval s.reg, size, store⟩] }

def value (s : State W) : Src → UInt32
  | .imm v => v
  | .reg r => s.reg r
  | .mem a => load32 s.mem (a.eval s.reg)

/-- The access of a source operand. -/
def fetch (s : State W) : Src → State W
  | .mem a => s.access a 4 false
  | _ => s

def push (s : State W) (v : UInt32) : State W :=
  { s with reg := setReg s.reg .esp (s.reg .esp - 4)
           mem := store32 s.mem (s.reg .esp - 4) v }

end State

/-- An instruction that goes on to the next one; the program counter is already there. A
function outside the text returns to its caller. -/
def exec (M : Machine L E W) (s : State W) : Instr L E → State W
  | .pushl src => s.push (s.reg src)
  | .popl dst => (s.set .esp (s.reg .esp + 4)).set dst (load32 s.mem (s.reg .esp))
  | .movl src dst => (s.fetch src).set dst (s.value src)
  | .movlTo src dst =>
    { (s.access dst 4 true) with mem := store32 s.mem (dst.eval s.reg) (s.value src) }
  | .movb src dst =>
    (s.access src 1 false).set dst (setLowByte (s.reg dst) (s.mem (src.eval s.reg)))
  | .lea src dst => s.set dst (src.eval s.reg)
  | .alu op src dst =>
    { (s.fetch src).set dst (op.value (s.reg dst) (s.value src)) with
      flags := op.flags (s.reg dst) (s.value src) }
  | .inc dst =>
    { s.set dst (s.reg dst + 1) with flags := { Flags.add (s.reg dst) 1 with cf := s.flags.cf } }
  | .dec dst =>
    { s.set dst (s.reg dst - 1) with flags := { Flags.sub (s.reg dst) 1 with cf := s.flags.cf } }
  | .cmpl src dst => { s.fetch src with flags := .sub (s.reg dst) (s.value src) }
  | .testl src dst => { s with flags := .logic (s.reg dst &&& s.reg src) }
  | .cmpb src dst =>
    { s with flags := Flags.subByte (lowByte (s.reg dst)) (lowByte (s.reg src)) }
  | .testb src dst =>
    { s with flags := Flags.logicByte (lowByte (s.reg dst) &&& lowByte (s.reg src)) }
  | .callOut f =>
    let t := M.out f s
    { t with pc := s.pc, log := s.log, depth := s.depth, returned := s.returned }
  | .movsdLoad src dst =>
    { (s.access src 8 false) with xmm := setReg s.xmm dst (load64 s.mem (src.eval s.reg)) }
  | .movsd src dst => { s with xmm := setReg s.xmm dst (s.xmm src) }
  | .movd src dst =>
    { (s.access dst 4 true) with
      mem := store32 s.mem (dst.eval s.reg) (lowHalf (s.xmm src)) }
  | .comisd src dst => { s with flags := Flags.compare (M.ops.compare (s.xmm dst) (s.xmm src)) }
  | .subsd src dst => { s with xmm := setReg s.xmm dst (M.ops.sub (s.xmm dst) (s.xmm src)) }
  | .maxsd src dst => { s with xmm := setReg s.xmm dst (M.ops.max (s.xmm dst) (s.xmm src)) }
  | _ => s

/-- Not a jump, a call inside the text or a return. -/
def Instr.isStraight : Instr L E → Bool
  | .jmp _ | .jcc .. | .call _ | .ret => false
  | _ => true

/-- The place of a label in the text. -/
def place [DecidableEq L] [DecidableEq E] (prog : List (Instr L E)) (l : L) : ℕ :=
  prog.idxOf (.label l)

/-- The address of an instruction. -/
def Machine.address (M : Machine L E W) (k : ℕ) : UInt32 :=
  M.text + UInt32.ofNat k

/-- An instruction at the program counter. The `ret` of the routine that was entered from
outside ends the run. -/
def transfer [DecidableEq L] [DecidableEq E] (M : Machine L E W) (s : State W) :
    Instr L E → State W
  | .jmp l => { s with pc := place M.prog l }
  | .jcc c l => { s with pc := if c.holds s.flags then place M.prog l else s.pc + 1 }
  | .call l =>
    { s.push (M.address (s.pc + 1)) with pc := place M.prog l, depth := s.depth + 1 }
  | .ret =>
    let t := s.set .esp (s.reg .esp + 4)
    match s.depth with
    | 0 => { t with returned := true }
    | d + 1 => { t with pc := (load32 s.mem (s.reg .esp) - M.text).toNat, depth := d }
  | i => exec M { s with pc := s.pc + 1 } i

def step [DecidableEq L] [DecidableEq E] (M : Machine L E W) (s : State W) : Option (State W) :=
  if s.returned then none else M.prog[s.pc]?.map (transfer M s)

/-- What a machine does to a state in some number of steps. -/
def Steps [DecidableEq L] [DecidableEq E] (M : Machine L E W) : State W → State W → Prop :=
  Relation.ReflTransGen fun s t => step M s = some t

/-! ## Straight pieces

A program is followed piece by piece. A straight piece runs to its end in one lemma (`Steps.block`),
and a jump or a call at its end is one more step. -/

/-- A piece of the text, one instruction after the other. -/
def run (M : Machine L E W) : List (Instr L E) → State W → State W
  | [], s => s
  | i :: is, s => run M is (exec M { s with pc := s.pc + 1 } i)

section Runs

variable {M : Machine L E W} {s t u : State W} {is : List (Instr L E)} {i : Instr L E}

/-- No straight instruction touches the program counter: `step` has moved it already. -/
@[simp] theorem exec_pc (M : Machine L E W) (s : State W) (i : Instr L E) :
    (exec M s i).pc = s.pc := by
  cases i with
  | movl src dst | alu op src dst | cmpl src dst => cases src <;> rfl
  | _ => rfl

/-- Nor does it enter or leave a function of the text. -/
@[simp] theorem exec_depth (M : Machine L E W) (s : State W) (i : Instr L E) :
    (exec M s i).depth = s.depth := by
  cases i with
  | movl src dst | alu op src dst | cmpl src dst => cases src <;> rfl
  | _ => rfl

/-- Nor does it return from the program. -/
@[simp] theorem exec_returned (M : Machine L E W) (s : State W) (i : Instr L E) :
    (exec M s i).returned = s.returned := by
  cases i with
  | movl src dst | alu op src dst | cmpl src dst => cases src <;> rfl
  | _ => rfl

/-- A straight piece moves the program counter by its length. -/
@[simp] theorem run_pc (M : Machine L E W) (is : List (Instr L E)) (s : State W) :
    (run M is s).pc = s.pc + is.length := by
  induction is generalizing s with
  | nil => rfl
  | cons i is ih =>
    rw [run, ih, exec_pc, List.length_cons, Nat.add_right_comm, Nat.add_assoc]

/-- It stays in the function it began in, whatever its length. -/
@[simp] theorem run_depth (M : Machine L E W) (is : List (Instr L E)) (s : State W) :
    (run M is s).depth = s.depth := by
  induction is generalizing s with
  | nil => rfl
  | cons i is ih => rw [run, ih, exec_depth]

/-- It does not return from the program either, so that the step behind it can be taken. -/
@[simp] theorem run_returned (M : Machine L E W) (is : List (Instr L E)) (s : State W) :
    (run M is s).returned = s.returned := by
  induction is generalizing s with
  | nil => rfl
  | cons i is ih => rw [run, ih, exec_returned]

/-- A piece of a piece of the text. -/
theorem piece_drop {prog is js : List (Instr L E)} {start : ℕ} (h : is <+: prog.drop start) (n : ℕ)
    (hjs : js <+: is.drop n) : js <+: prog.drop (start + n) := by
  rw [← List.drop_drop]
  exact hjs.trans (h.drop n)

/-- An instruction of a piece of the text. -/
theorem piece_get {prog is : List (Instr L E)} {start : ℕ} (h : is <+: prog.drop start) (n : ℕ)
    (hi : is[n]? = some i) : prog[start + n]? = some i := by
  obtain ⟨rest, hrest⟩ := h
  rw [← List.getElem?_drop, ← hrest]
  exact (List.getElem?_append_left (List.getElem?_eq_some_iff.mp hi).1).trans hi

variable [DecidableEq L] [DecidableEq E]

/-- A machine that has not returned carries out the instruction under its program counter. -/
theorem step_eq (hcode : M.prog[s.pc]? = some i) (hrun : s.returned = false) :
    step M s = some (transfer M s i) := by
  simp [step, hcode, hrun]

/-- For a straight instruction that is `exec`, with the program counter one further. -/
theorem transfer_straight (hi : i.isStraight = true) :
    transfer M s i = exec M { s with pc := s.pc + 1 } i := by
  cases i with
  | jmp | jcc | call | ret => cases hi
  | _ => rfl

/-- **A straight piece of the text** is executed as a whole. Induction on the piece. -/
theorem Steps.block (start : ℕ) (hcode : is <+: M.prog.drop start)
    (hstraight : is.all Instr.isStraight = true) (hpc : s.pc = start) (hrun : s.returned = false) :
    Steps M s (run M is s) := by
  induction is generalizing s start with
  | nil => exact .refl
  | cons i is ih =>
    -- The first instruction is executed; the others stand behind it.
    obtain ⟨hi, his⟩ := Bool.and_eq_true_iff.mp hstraight
    obtain ⟨rest, hrest⟩ := hcode
    have hat : M.prog[s.pc]? = some i := by
      rw [hpc, ← List.head?_drop, ← hrest]
      rfl
    have hnext : is <+: M.prog.drop (start + 1) := by
      refine ⟨rest, ?_⟩
      rw [← List.tail_drop, ← hrest]
      rfl
    have hstep := step_eq hat hrun
    rw [transfer_straight hi] at hstep
    refine .head hstep (ih (start + 1) hnext his ?_ ?_)
    · rw [exec_pc, hpc]
    · rw [exec_returned]
      exact hrun

/-- An unconditional jump goes on at its label. -/
theorem Steps.jmp {l : L} (hcode : M.prog[s.pc]? = some (.jmp l)) (hrun : s.returned = false) :
    Steps M s { s with pc := place M.prog l } :=
  .single (step_eq hcode hrun)

theorem Steps.taken {c : Cond} {l : L} (hcode : M.prog[s.pc]? = some (.jcc c l))
    (hrun : s.returned = false) (hc : c.holds s.flags = true) :
    Steps M s { s with pc := place M.prog l } := by
  have hstep := step_eq hcode hrun
  simp only [transfer, if_pos hc] at hstep
  exact .single hstep

/-- A conditional jump that is not taken. -/
theorem Steps.skipped {c : Cond} {l : L} (hcode : M.prog[s.pc]? = some (.jcc c l))
    (hrun : s.returned = false) (hc : ¬ c.holds s.flags = true) :
    Steps M s { s with pc := s.pc + 1 } := by
  have hstep := step_eq hcode hrun
  simp only [transfer, if_neg hc] at hstep
  exact .single hstep

/-- A conditional jump, by what its condition says. -/
theorem Steps.branch {c : Cond} {l : L} {P : Prop} [Decidable P]
    (hcode : M.prog[s.pc]? = some (.jcc c l)) (hrun : s.returned = false)
    (hc : c.holds s.flags = true ↔ P) :
    Steps M s { s with pc := if P then place M.prog l else s.pc + 1 } := by
  have hstep := step_eq hcode hrun
  simp only [transfer, hc] at hstep
  exact .single hstep

/-- A return to the instruction whose address lies on the stack. -/
theorem Steps.ret {d k : ℕ} (hcode : M.prog[s.pc]? = some .ret) (hrun : s.returned = false)
    (hdepth : s.depth = d + 1) (hk : k < 2 ^ 32)
    (haddr : load32 s.mem (s.reg .esp) = M.address k) :
    Steps M s { s.set .esp (s.reg .esp + 4) with pc := k, depth := d } := by
  have hstep := step_eq hcode hrun
  have hback : (M.address k - M.text).toNat = k := by
    rw [Machine.address, add_sub_self]
    exact UInt32.toNat_ofNat_of_lt' hk
  simp only [transfer, hdepth, haddr, hback] at hstep
  exact .single hstep

theorem Steps.finish (hcode : M.prog[s.pc]? = some .ret) (hrun : s.returned = false)
    (hdepth : s.depth = 0) :
    Steps M s { s.set .esp (s.reg .esp + 4) with returned := true } := by
  have hstep := step_eq hcode hrun
  simp only [transfer, hdepth] at hstep
  exact .single hstep

/-- Runs are put together: the end of the first is where the second begins. -/
theorem Steps.trans (h : Steps M s t) (h' : Steps M t u) : Steps M s u :=
  Relation.ReflTransGen.trans h h'

/-! ## All runs

The machine is deterministic. So what is proved of one run from a state is true of all runs from
there, and a final state that is reached once is the only one. -/

/-- **Determinism.** A run that has ended is the end of every run. So what is shown of one run that
ends is shown of the program, and two runs that end need not be compared. -/
theorem Steps.final (hend : Steps M s u) (hu : u.returned = true) (h : Steps M s t) :
    Steps M t u := by
  have hunique : Relator.RightUnique fun s t => step M s = some t :=
    fun _ _ _ h h' => Option.some.inj (h.symm.trans h')
  -- Of two runs from one state, one is the beginning of the other.
  rcases Relation.ReflTransGen.total_of_right_unique hunique h hend with hlater | hlater
  · exact hlater
  · rcases Relation.ReflTransGen.cases_head hlater with heq | ⟨v, hstep, -⟩
    · rw [heq]
      exact .refl
    · simp [step, hu] at hstep

/-- A run ends in one state only. -/
theorem Steps.unique (hend : Steps M s u) (hu : u.returned = true) (h : Steps M s t)
    (ht : t.returned = true) : t = u := by
  rcases Relation.ReflTransGen.cases_head (Steps.final hend hu h) with heq | ⟨v, hstep, -⟩
  · exact heq
  · simp [step, ht] at hstep

omit [DecidableEq L] [DecidableEq E] in
/-- An instruction only adds to the log of the accesses. -/
theorem log_exec (M : Machine L E W) (s : State W) (i : Instr L E) :
    s.log <+: (exec M s i).log := by
  cases i with
  | movl src dst | alu op src dst | cmpl src dst =>
    cases src with
    | mem a => exact List.prefix_append _ _
    | _ => exact List.prefix_refl _
  | movlTo | movb | movsdLoad | movd => exact List.prefix_append _ _
  | _ => exact List.prefix_refl _

/-- So does a jump or a call: nothing that has been read or written is ever taken back. -/
theorem log_transfer (M : Machine L E W) (s : State W) (i : Instr L E) :
    s.log <+: (transfer M s i).log := by
  cases i with
  | jmp | jcc | call => exact List.prefix_refl _
  | ret =>
    simp only [transfer]
    split <;> exact List.prefix_refl _
  | _ => exact log_exec M { s with pc := s.pc + 1 } _

/-- No access is forgotten. -/
theorem log_of_steps (h : Steps M s t) : s.log <+: t.log := by
  induction h with
  | refl => exact List.prefix_refl _
  | tail _ hstep ih =>
    apply ih.trans
    unfold step at hstep
    split at hstep
    · cases hstep
    · obtain ⟨i, -, rfl⟩ := Option.map_eq_some_iff.mp hstep
      exact log_transfer M _ i

end Runs

/-! ## What a jump tests

A conditional jump looks at the flags of the last `cmp`, `sub` or `test`. Each of these lemmas says
what the jump means for the operands, so that the flags themselves do not appear in a proof. -/

section Conditions

variable {x y : UInt32} {b c : UInt8}

/-- After a comparison `je` is taken exactly if the operands are equal. -/
theorem Cond.holds_e : Cond.e.holds (.sub x y) = true ↔ x = y := by
  show (x - y == 0) = true ↔ x = y
  rw [beq_iff_eq, eq_comm, UInt32.eq_sub_iff_add_eq, UInt32.zero_add, eq_comm]

/-- After a comparison `jne` is taken exactly if the operands differ. -/
theorem Cond.holds_ne : Cond.ne.holds (.sub x y) = true ↔ x ≠ y := by
  rw [Ne, ← Cond.holds_e]
  show (!Cond.e.holds (.sub x y)) = true ↔ _
  rw [Bool.not_eq_true', Bool.not_eq_true]

/-- After a comparison `jl` compares the operands as signed numbers. -/
theorem Cond.holds_l : Cond.l.holds (.sub x y) = true ↔ signed x < signed y := by
  rw [← sub_less_iff]
  exact bne_iff_ne

/-- Two words are the same number exactly if they are the same word, for the cases of `jg`. -/
theorem signed_inj : signed x = signed y ↔ x = y := by
  refine ⟨fun h => ?_, fun h => by rw [h]⟩
  have hx := x.toNat_lt
  have hy := y.toNat_lt
  rw [signed_eq, signed_eq] at h
  apply UInt32.toNat_inj.mp
  split at h <;> split at h <;> omega

/-- After a comparison `jg` compares the operands as signed numbers, the other way round. -/
theorem Cond.holds_g : Cond.g.holds (.sub x y) = true ↔ signed y < signed x := by
  have hzero : (Flags.sub x y).zf = true ↔ x = y := Cond.holds_e
  have hless := sub_less_iff x y
  have hinj := signed_inj (x := x) (y := y)
  show (!(Flags.sub x y).zf && (Flags.sub x y).sf == (Flags.sub x y).of) = true ↔ _
  rw [Bool.and_eq_true, Bool.not_eq_true', beq_iff_eq]
  rw [← not_iff_not, Bool.not_eq_true] at hzero
  rw [hzero]
  by_cases heq : x = y
  · simp [heq]
  · have hne : signed x ≠ signed y := fun h => heq (hinj.mp h)
    rw [← not_iff_not, not_not] at hless
    simp only [heq, not_false_eq_true, true_and, hless]
    omega

/-- After a `test` of a word with itself `jz` is taken exactly if the word is zero. -/
theorem Cond.holds_e_logic : Cond.e.holds (.logic x) = true ↔ x = 0 :=
  beq_iff_eq

/-- After a comparison of bytes `jb` compares them as unsigned numbers. -/
theorem Cond.holds_b_byte : Cond.b.holds (Flags.subByte b c) = true ↔ b < c :=
  decide_eq_true_iff

/-- After a comparison of bytes `ja` compares them as unsigned numbers, the other way round. -/
theorem Cond.holds_a_byte : Cond.a.holds (Flags.subByte b c) = true ↔ c < b := by
  show (!decide (b < c) && !(b - c == 0)) = true ↔ c < b
  have hzero : b - c = 0 ↔ b = c := by
    rw [eq_comm, UInt8.eq_sub_iff_add_eq, UInt8.zero_add, eq_comm]
  rw [Bool.and_eq_true, Bool.not_eq_true', Bool.not_eq_true', decide_eq_false_iff_not,
    beq_eq_false_iff_ne, Ne, hzero, UInt8.lt_iff_toNat_lt, UInt8.lt_iff_toNat_lt,
    ← UInt8.toNat_inj]
  omega

/-- After a `test` of a byte with itself `jz` is taken exactly if the byte is the NUL. -/
theorem Cond.holds_e_byte : Cond.e.holds (Flags.logicByte b) = true ↔ b = 0 :=
  beq_iff_eq

end Conditions

/-! ## Bytes and halves

Registers overlap: `cl` is the low byte of `ecx`, and an `xmm` register is seen here as two words.
-/

/-- A `movb` into the low byte of a register is read back from there. -/
theorem lowByte_setLowByte (x : UInt32) (b : UInt8) : lowByte (setLowByte x b) = b := by
  have hx := x.toNat_lt
  have hb := b.toNat_lt
  apply UInt8.toNat_inj.mp
  rw [lowByte, setLowByte, UInt8.toNat_ofNat', UInt32.toNat_ofNat']
  omega

/-- The number that two words make, the low one first. -/
theorem toNat_join (low high : UInt32) :
    (join low high).toNat = low.toNat + 2 ^ 32 * high.toNat := by
  have hlow := low.toNat_lt
  have hhigh := high.toNat_lt
  exact UInt64.toNat_ofNat_of_lt' (by show _ < 2 ^ 64; omega)

/-- The high word is read back as it was put in. -/
theorem highHalf_join (low high : UInt32) : highHalf (join low high) = high := by
  have hlow := low.toNat_lt
  have hhigh := high.toNat_lt
  apply UInt32.toNat_inj.mp
  rw [highHalf, toNat_join, UInt32.toNat_ofNat']
  omega

/-- A pattern is that of its halves. -/
theorem join_halves (x : UInt64) : join (lowHalf x) (highHalf x) = x := by
  have hx := x.toNat_lt
  apply UInt64.toNat_inj.mp
  rw [toNat_join, lowHalf, highHalf, UInt32.toNat_ofNat', UInt32.toNat_ofNat']
  omega

/-- A load of eight bytes only depends on them. -/
theorem load64_congr {m m' : Memory} {p : UInt32} (h : ∀ x, InArea p 8 x → m' x = m x) :
    load64 m' p = load64 m p := by
  have hlow : load32 m' p = load32 m p :=
    load32_congr fun x hx => h x (Nat.lt_of_lt_of_le hx (by decide))
  have hhigh : load32 m' (p + 4) = load32 m (p + 4) :=
    load32_congr fun x hx => h x (hx.of_part (by decide))
  rw [load64, load64, hlow, hhigh]

/-! ## The stack

The stack grows down. What a function may write is `Below` its entry stack pointer, by so many
bytes; what it must leave alone is everything else. -/

section Stack

variable {m : Memory} {p q x k d : UInt32} {n j : ℕ}

/-- One of the `n` bytes below `p`. -/
def Below (p : UInt32) (n : ℕ) (x : UInt32) : Prop :=
  (p - 1 - x).toNat < n

instance (p : UInt32) (n : ℕ) (x : UInt32) : Decidable (Below p n x) :=
  inferInstanceAs (Decidable (_ < _))

/-- A deeper stack contains a shallower one, so the bounds of the parts of a function can be taken
together in the largest. -/
theorem Below.mono (h : Below p n x) (hn : n ≤ j) : Below p j x :=
  Nat.lt_of_lt_of_le h hn

theorem Below.of_sub (h : Below (p - k) n x) : Below p (n + k.toNat) x := by
  have hp := p.toNat_lt
  have hk := k.toNat_lt
  have hx := x.toNat_lt
  unfold Below at *
  rw [UInt32.toNat_sub, UInt32.toNat_sub, UInt32.toNat_sub] at h
  rw [UInt32.toNat_sub, UInt32.toNat_sub]
  simp only [UInt32.toNat_one] at *
  omega

theorem below_of_inArea (h : InArea (p - k) j x) (hj : j ≤ k.toNat) : Below p k.toNat x := by
  have hp := p.toNat_lt
  have hk := k.toNat_lt
  have hx := x.toNat_lt
  unfold Below InArea at *
  rw [UInt32.toNat_sub, UInt32.toNat_sub] at h
  rw [UInt32.toNat_sub, UInt32.toNat_sub]
  simp only [UInt32.toNat_one] at *
  omega

/-- A place between `p` and `p + k`. -/
theorem below_of_between (h : InArea (p + d) j x) (hk : d.toNat + j ≤ k.toNat) :
    Below (p + k) k.toNat x := by
  have hp := p.toNat_lt
  have hd := d.toNat_lt
  have hkt := k.toNat_lt
  have hx := x.toNat_lt
  unfold Below InArea at *
  rw [UInt32.toNat_sub, UInt32.toNat_add] at h
  rw [UInt32.toNat_sub, UInt32.toNat_sub, UInt32.toNat_add]
  simp only [UInt32.toNat_one] at *
  omega

/-- The bytes below `p` are an area. -/
theorem inArea_of_below (h : Below p k.toNat x) (hj : k.toNat ≤ j) : InArea (p - k) j x := by
  have hp := p.toNat_lt
  have hk := k.toNat_lt
  have hx := x.toNat_lt
  unfold Below InArea at *
  rw [UInt32.toNat_sub, UInt32.toNat_sub] at *
  simp only [UInt32.toNat_one] at *
  omega

theorem not_below_of_inArea (h : InArea (p + d) j x) (hfit : d.toNat + j + n ≤ 2 ^ 32) :
    ¬ Below p n x := by
  have hp := p.toNat_lt
  have hd := d.toNat_lt
  have hx := x.toNat_lt
  unfold Below InArea at *
  rw [UInt32.toNat_sub, UInt32.toNat_add] at h
  rw [UInt32.toNat_sub, UInt32.toNat_sub]
  simp only [UInt32.toNat_one] at *
  omega

/-- An area lies apart from the stack below it. -/
theorem not_below_self {i : ℕ} (h : InArea p i x) (hi : i + j ≤ 2 ^ 32) : ¬ Below p j x := by
  have hp := p.toNat_lt
  have hx := x.toNat_lt
  unfold Below InArea at *
  rw [UInt32.toNat_sub] at h
  rw [UInt32.toNat_sub, UInt32.toNat_sub]
  simp only [UInt32.toNat_one] at *
  omega

/-- Two words that are at least four bytes apart, both ways round the address space. -/
theorem load32_store32_apart {v : UInt32} (h : 4 ≤ (q - p).toNat) (h' : 4 ≤ (p - q).toNat) :
    load32 (store32 m p v) q = load32 m q := by
  apply load32_storeBytes
  intro x hx hx'
  have hp := p.toNat_lt
  have hq := q.toNat_lt
  have hxlt := x.toNat_lt
  unfold InArea at *
  rw [UInt32.toNat_sub] at *
  omega

end Stack

/-! ## Calls inside the text -/

section Calls

variable [DecidableEq L] [DecidableEq E] {M : Machine L E W} {s t : State W} {l : L} {d k : ℕ}

/-- A routine has been entered, to return to `k`. -/
structure Entered (M : Machine L E W) (l : L) (d k : ℕ) (s : State W) : Prop where
  pc : s.pc = place M.prog l
  returned : s.returned = false
  depth : s.depth = d + 1
  address : load32 s.mem (s.reg .esp) = M.address k

/-- A routine entered at `s` has returned to `k`. -/
structure Left (s : State W) (d k : ℕ) (t : State W) : Prop where
  pc : t.pc = k
  returned : t.returned = false
  depth : t.depth = d
  esp : t.reg .esp = s.reg .esp + 4

/-- The state behind a `call`. -/
def State.enter (M : Machine L E W) (s : State W) (l : L) : State W :=
  { s.push (M.address (s.pc + 1)) with pc := place M.prog l, depth := s.depth + 1 }

/-- A `call` pushes the address behind it and goes on at its label. -/
theorem Steps.enter (hcode : M.prog[s.pc]? = some (.call l)) (hrun : s.returned = false) :
    Steps M s (s.enter M l) :=
  .single (step_eq hcode hrun)

/-- What a function of the text finds when it is called: the return address on the stack, and the
depth that `Entered.leave` gives back. -/
theorem State.entered (hpc : s.pc = k) (hrun : s.returned = false) :
    Entered M l s.depth (k + 1) (s.enter M l) where
  pc := rfl
  returned := hrun
  depth := rfl
  address := by
    rw [← hpc]
    exact load32_store32 _ _ _

/-- The return of a routine that was entered at `s`. -/
theorem Entered.leave (h : Entered M l d k s) (hk : k < 2 ^ 32)
    (hcode : M.prog[t.pc]? = some .ret) (hrun : t.returned = false) (hdepth : t.depth = s.depth)
    (hesp : t.reg .esp = s.reg .esp)
    (haddr : load32 t.mem (s.reg .esp) = load32 s.mem (s.reg .esp)) :
    ∃ u, Steps M t u ∧ Left s d k u ∧ (∀ r, r ≠ .esp → u.reg r = t.reg r) ∧
      u.xmm = t.xmm ∧ u.mem = t.mem ∧ u.log = t.log ∧ u.world = t.world := by
  have hret := Steps.ret hcode hrun (hdepth.trans h.depth) hk
    (by rw [hesp, haddr, h.address])
  refine ⟨_, hret, ⟨rfl, hrun, rfl, congrArg (· + 4) hesp⟩, fun r hr => ?_, rfl, rfl, rfl, rfl⟩
  exact if_neg hr

end Calls

/-! ## Calls of functions outside the text

Of a C function only the calling convention is known: which registers it keeps, which memory it may
write, and that it comes back. -/

/-- The registers a function leaves as they are. -/
def calleeSaved : List Reg :=
  [.ebx, .esi, .edi, .ebp, .esp]

/-- A register that is not among those of a list. -/
theorem setReg_of_mem {rs : List Reg} {q r : Reg} (hr : r ∈ rs) (hq : q ∉ rs)
    (reg : Reg → UInt32) (v : UInt32) : setReg reg q v r = reg r := by
  have hne : r ≠ q := by
    rintro rfl
    exact hq hr
  exact if_neg hne

/-- The registers that a called function gives back: the four saved ones and the stack pointer. -/
theorem mem_calleeSaved {r : Reg} :
    r ∈ calleeSaved ↔ r ∈ [Reg.ebx, .esi, .edi, .ebp] ∨ r = .esp := by
  rw [← List.mem_singleton, ← List.mem_append]
  rfl

/-- **The calling convention.** A function with `args` bytes of arguments may write to them, to
the stack below, down to `depth` bytes, to its own data and to what its arguments point to. -/
structure Cdecl (M : Machine L E W) (f : E) (args depth : ℕ) (own : UInt32 → Prop)
    (targets : State W → UInt32 → Prop) : Prop where
  saved : ∀ s, ∀ r ∈ calleeSaved, (M.out f s).reg r = s.reg r
  frame : ∀ s x, ¬ Below (s.reg .esp) depth x → ¬ InArea (s.reg .esp) args x → ¬ own x →
    ¬ targets s x → (M.out f s).mem x = s.mem x

end Assembly
