import HseDev.Lib.LittleEndian
import Mathlib.Algebra.Group.Int.Defs
import Mathlib.Data.Fin.Basic
import Mathlib.Data.List.Basic
import Mathlib.Logic.Relation

/-!
# A 32-bit x86 machine

The part of the instruction set that a few routines in assembler use: integer registers, the
single-precision side of the SSE registers, a byte memory and the stack in it. What it means to
multiply and to add two single-precision patterns is a parameter.

* **`InArea`** — the bytes of an access; **`load32`** / **`store32`** / **`store128`** — words in
  memory, with what a load finds after a store.
* **`State`** — also keeps the accesses that have read memory; **`HasRead`** — the bytes of them.
* **`Instr`** / **`exec`** — an instruction, in the order of operands of the assembler's text. A
  label is a place in the text; a jump goes there.
* **`Steps`** — runs of a program; **`Steps.block`** executes a straight piece of it at once.
* **`sub_less_iff`** — the flags after a comparison tell the order of signed words.
-/

namespace X86

open LittleEndian

/-! ## Memory

A function from addresses to bytes: everything is mapped, and what a program may access is said by
the areas of its log. -/

abbrev Memory := UInt32 → UInt8

/-- The `n` bytes from `p` on; addresses wrap around. -/
def InArea (p : UInt32) (n : ℕ) (x : UInt32) : Prop :=
  (x - p).toNat < n

instance (p : UInt32) (n : ℕ) (x : UInt32) : Decidable (InArea p n x) :=
  inferInstanceAs (Decidable (_ < _))

def load32 (m : Memory) (p : UInt32) : UInt32 :=
  word (m p) (m (p + 1)) (m (p + 2)) (m (p + 3))

def storeBytes (m : Memory) (p : UInt32) (n : ℕ) (bytes : ℕ → UInt8) : Memory :=
  fun x => if InArea p n x then bytes (x - p).toNat else m x

def store32 (m : Memory) (p v : UInt32) : Memory :=
  storeBytes m p 4 (byte v)

/-- The four single-precision patterns of an SSE register. -/
abbrev Lanes := Fin 4 → UInt32

def load128 (m : Memory) (p : UInt32) : Lanes :=
  fun k => load32 m (p + UInt32.ofNat (4 * k))

def store128 (m : Memory) (p : UInt32) (v : Lanes) : Memory :=
  storeBytes m p 16 fun i => byte (v (Fin.ofNat 4 (i / 4))) (i % 4)

/-! ## The machine

The instructions are those of the modelled text, with the `xmm` registers as four lanes. The two
operations on single-precision numbers are parameters. -/

inductive Reg where
  | eax
  | ebx
  | ecx
  | edx
  | esi
  | edi
  | ebp
  | esp
  deriving DecidableEq, Repr

inductive Xmm where
  | xmm0
  | xmm1
  | xmm2
  deriving DecidableEq, Repr

structure Flags where
  zf : Bool
  sf : Bool
  cf : Bool
  of : Bool
  deriving DecidableEq, Repr

/-- Where an access begins and how many bytes it has. -/
abbrev Access := UInt32 × ℕ

/-- `fpu` is the stack of the coprocessor; `returned` is the address that a `ret` has gone to. -/
structure State where
  pc : ℕ
  reg : Reg → UInt32
  xmm : Xmm → Lanes
  fpu : List UInt32
  flags : Flags
  mem : Memory
  reads : List Access
  returned : Option UInt32

/-- A byte that has been read. -/
def HasRead (s : State) (x : UInt32) : Prop :=
  ∃ access ∈ s.reads, InArea access.1 access.2 x

/-- Multiplication and addition of single-precision patterns. -/
structure SingleOps where
  mul : UInt32 → UInt32 → UInt32
  add : UInt32 → UInt32 → UInt32

/-- `disp(%base)`, or a symbol. -/
inductive Mem where
  | based (disp : UInt32) (base : Reg)
  | symbol (address : UInt32)
  deriving DecidableEq, Repr

def Mem.addr (s : State) : Mem → UInt32
  | .based disp base => s.reg base + disp
  | .symbol address => address

/-- A source operand: a register, or memory. -/
inductive Operand (R : Type) where
  | reg (r : R)
  | mem (m : Mem)
  deriving DecidableEq, Repr

def Operand.accesses {R : Type} (s : State) : Operand R → List Access
  | .reg _ => []
  | .mem m => [(m.addr s, 4)]

def Operand.word (s : State) : Operand Reg → UInt32
  | .reg r => s.reg r
  | .mem m => load32 s.mem (m.addr s)

/-- The low pattern of an SSE register, or of memory. -/
def Operand.single (s : State) : Operand Xmm → UInt32
  | .reg x => s.xmm x 0
  | .mem m => load32 s.mem (m.addr s)

inductive Instr (L : Type) where
  | label (l : L)
  | pushl (src : Reg)
  | popl (dst : Reg)
  | movl (src : Operand Reg) (dst : Reg)
  | andl (imm : UInt32) (dst : Reg)
  | subl (imm : UInt32) (dst : Reg)
  | lea (src : Mem) (dst : Reg)
  | cmpl (imm : UInt32) (dst : Reg)
  | jl (l : L)
  | jmp (l : L)
  | movssLoad (src : Mem) (dst : Xmm)
  | movssStore (src : Xmm) (dst : Mem)
  | movups (src : Mem) (dst : Xmm)
  | movaps (src : Xmm) (dst : Mem)
  | mulps (src dst : Xmm)
  | mulss (src dst : Xmm)
  | addss (src : Operand Xmm) (dst : Xmm)
  | flds (src : Mem)
  | ret
  deriving DecidableEq, Repr

/-! ## Execution

A straight instruction is carried out by `exec`; jumps look up their label with `place`. -/

/-- The signed value of a word. -/
def signed (x : UInt32) : ℤ :=
  x.toInt32.toInt

/-- The flags after `x - y`. -/
def Flags.sub (x y : UInt32) : Flags where
  zf := x - y == 0
  sf := decide (2 ^ 31 ≤ (x - y).toNat)
  cf := decide (x < y)
  of := decide (signed x - signed y < -2 ^ 31 ∨ 2 ^ 31 ≤ signed x - signed y)

/-- The flags after a bitwise operation. -/
def Flags.logic (x : UInt32) : Flags where
  zf := x == 0
  sf := decide (2 ^ 31 ≤ x.toNat)
  cf := false
  of := false

def setReg {R α : Type} [DecidableEq R] (f : R → α) (r : R) (v : α) : R → α :=
  fun r' => if r' = r then v else f r'

/-- A new low pattern; the others stay. -/
def Lanes.setLow (v : Lanes) (x : UInt32) : Lanes :=
  fun k => if k = 0 then x else v k

/-- A low pattern loaded from memory; the others become zero. -/
def Lanes.low (x : UInt32) : Lanes :=
  fun k => if k = 0 then x else 0

/-- An instruction, with the program counter already behind it. -/
def exec {L : Type} (ops : SingleOps) (target : L → ℕ) (s : State) : Instr L → Option State
  | .label _ => some s
  | .pushl src =>
    let p := s.reg .esp - 4
    some { s with reg := setReg s.reg .esp p, mem := store32 s.mem p (s.reg src) }
  | .popl dst =>
    let p := s.reg .esp
    some { s with reg := setReg (setReg s.reg .esp (p + 4)) dst (load32 s.mem p)
                  reads := s.reads ++ [(p, 4)] }
  | .movl src dst =>
    some { s with reg := setReg s.reg dst (src.word s), reads := s.reads ++ src.accesses s }
  | .andl imm dst =>
    let v := s.reg dst &&& imm
    some { s with reg := setReg s.reg dst v, flags := .logic v }
  | .subl imm dst =>
    some { s with reg := setReg s.reg dst (s.reg dst - imm), flags := .sub (s.reg dst) imm }
  | .lea src dst => some { s with reg := setReg s.reg dst (src.addr s) }
  | .cmpl imm dst => some { s with flags := .sub (s.reg dst) imm }
  | .jl l => some (if s.flags.sf ≠ s.flags.of then { s with pc := target l } else s)
  | .jmp l => some { s with pc := target l }
  | .movssLoad src dst =>
    some { s with xmm := setReg s.xmm dst (.low (load32 s.mem (src.addr s)))
                  reads := s.reads ++ [(src.addr s, 4)] }
  | .movssStore src dst => some { s with mem := store32 s.mem (dst.addr s) (s.xmm src 0) }
  | .movups src dst =>
    some { s with xmm := setReg s.xmm dst (load128 s.mem (src.addr s))
                  reads := s.reads ++ [(src.addr s, 16)] }
  | .movaps src dst =>
    -- a general-protection fault if the address is not aligned
    if (dst.addr s).toNat % 16 = 0 then
      some { s with mem := store128 s.mem (dst.addr s) (s.xmm src) }
    else none
  | .mulps src dst =>
    some { s with xmm := setReg s.xmm dst fun k => ops.mul (s.xmm dst k) (s.xmm src k) }
  | .mulss src dst =>
    let product := ops.mul (s.xmm dst 0) (s.xmm src 0)
    some { s with xmm := setReg s.xmm dst ((s.xmm dst).setLow product) }
  | .addss src dst =>
    let sum := ops.add (s.xmm dst 0) (src.single s)
    some { s with xmm := setReg s.xmm dst ((s.xmm dst).setLow sum)
                  reads := s.reads ++ src.accesses s }
  | .flds src =>
    some { s with fpu := load32 s.mem (src.addr s) :: s.fpu
                  reads := s.reads ++ [(src.addr s, 4)] }
  | .ret =>
    let p := s.reg .esp
    some { s with reg := setReg s.reg .esp (p + 4), reads := s.reads ++ [(p, 4)]
                  returned := some (load32 s.mem p) }

/-- The place of a label in the text. -/
def place {L : Type} [DecidableEq L] (prog : List (Instr L)) (l : L) : ℕ :=
  prog.idxOf (.label l)

def step {L : Type} [DecidableEq L] (ops : SingleOps) (prog : List (Instr L)) (s : State) :
    Option State :=
  match s.returned, prog[s.pc]? with
  | none, some i => exec ops (place prog) { s with pc := s.pc + 1 } i
  | _, _ => none

/-- What a program does to a state in some number of steps. -/
def Steps {L : Type} [DecidableEq L] (ops : SingleOps) (prog : List (Instr L)) :
    State → State → Prop :=
  Relation.ReflTransGen fun s t => step ops prog s = some t

/-! ## Loads and stores

What a load returns after a store: the value if the areas are the same, the old one if they are
apart. -/

section Memory

variable {m : Memory} {p q x : UInt32} {n : ℕ} {bytes : ℕ → UInt8}

theorem add_sub_self (p d : UInt32) : p + d - p = d := by
  rw [UInt32.add_comm, UInt32.add_sub_cancel]

/-- An offset below the size is inside the area. -/
theorem inArea_add {d : UInt32} (h : d.toNat < n) : InArea p n (p + d) := by
  unfold InArea
  rwa [add_sub_self]

theorem InArea.of_part {d : UInt32} {k : ℕ} (hx : InArea (p + d) k x) (hk : d.toNat + k ≤ n) :
    InArea p n x := by
  have hp := p.toNat_lt
  have hd := d.toNat_lt
  have hx' := x.toNat_lt
  unfold InArea at *
  rw [UInt32.toNat_sub, UInt32.toNat_add] at hx
  rw [UInt32.toNat_sub]
  omega

/-- Two areas at different distances from one address. -/
theorem InArea.not_of_lt {d e : UInt32} {k : ℕ} (hx : InArea (p + d) k x)
    (hlt : d.toNat + k ≤ e.toNat) (hwrap : e.toNat + n ≤ 2 ^ 32 + d.toNat) :
    ¬ InArea (p + e) n x := by
  have hp := p.toNat_lt
  have hd := d.toNat_lt
  have he := e.toNat_lt
  have hx' := x.toNat_lt
  unfold InArea at *
  rw [UInt32.toNat_sub, UInt32.toNat_add] at *
  omega

/-- Sixteen bytes are those of four words. -/
theorem inArea_sixteen : InArea p 16 x ↔ ∃ k : Fin 4, InArea (p + UInt32.ofNat (4 * k)) 4 x := by
  constructor
  · intro hx
    have hx : (x - p).toNat < 16 := hx
    refine ⟨⟨(x - p).toNat / 4, by omega⟩, ?_⟩
    have hword : (UInt32.ofNat (4 * ((x - p).toNat / 4))).toNat = 4 * ((x - p).toNat / 4) :=
      UInt32.toNat_ofNat_of_lt' (by show _ < 4294967296; omega)
    have hp := p.toNat_lt
    have hx' := x.toNat_lt
    unfold InArea
    show (x - (p + UInt32.ofNat (4 * ((x - p).toNat / 4)))).toNat < 4
    rw [UInt32.toNat_sub, UInt32.toNat_add, hword]
    rw [UInt32.toNat_sub] at *
    omega
  · intro ⟨k, hx⟩
    have hk := k.isLt
    refine hx.of_part ?_
    rw [UInt32.toNat_ofNat_of_lt' (by show _ < 4294967296; omega)]
    omega

/-- Inside the area a store puts its bytes. -/
theorem storeBytes_inside {d : UInt32} (h : d.toNat < n) :
    storeBytes m p n bytes (p + d) = bytes d.toNat := by
  unfold storeBytes
  rw [if_pos (inArea_add h), add_sub_self]

/-- Outside it leaves memory as it was. -/
theorem storeBytes_outside (h : ¬ InArea p n x) : storeBytes m p n bytes x = m x :=
  if_neg h

/-- A load only depends on its four bytes. -/
theorem load32_congr {m' : Memory} (h : ∀ x, InArea p 4 x → m' x = m x) :
    load32 m' p = load32 m p := by
  have h0 : m' p = m p := by
    have h := h (p + 0) (inArea_add (by decide))
    rwa [UInt32.add_zero] at h
  unfold load32
  rw [h0, h (p + 1) (inArea_add (by decide)), h (p + 2) (inArea_add (by decide)),
    h (p + 3) (inArea_add (by decide))]

theorem load32_storeBytes (h : ∀ x, InArea q 4 x → ¬ InArea p n x) :
    load32 (storeBytes m p n bytes) q = load32 m q :=
  load32_congr fun x hx => storeBytes_outside (h x hx)

/-- A load of what has just been stored. -/
theorem load32_store32 (m : Memory) (p v : UInt32) : load32 (store32 m p v) p = v := by
  have h0 : store32 m p v p = byte v 0 := by
    have h : store32 m p v (p + 0) = byte v 0 := storeBytes_inside (by decide)
    rwa [UInt32.add_zero] at h
  unfold load32
  rw [h0]
  unfold store32
  rw [storeBytes_inside (by decide), storeBytes_inside (by decide),
    storeBytes_inside (by decide)]
  exact word_bytes v

/-- Two words at different distances from one address. -/
theorem load32_store32_ne {d e : UInt32} (v : UInt32)
    (h : d.toNat + 4 ≤ e.toNat ∨ e.toNat + 4 ≤ d.toNat) (hd : d.toNat ≤ 2 ^ 31)
    (he : e.toNat ≤ 2 ^ 31) : load32 (store32 m (p + d) v) (p + e) = load32 m (p + e) := by
  apply load32_storeBytes
  intro x hx hstored
  rcases h with hlt | hlt
  · exact hstored.not_of_lt hlt (by omega) hx
  · exact hx.not_of_lt hlt (by omega) hstored

/-- A store of sixteen bytes puts lane after lane. -/
theorem store128_byte (m : Memory) (p : UInt32) (v : Lanes) (k : Fin 4) {d : UInt32}
    (hd : d.toNat < 4) :
    store128 m p v (p + UInt32.ofNat (4 * k) + d) = byte (v k) d.toNat := by
  have hk := k.isLt
  have hoffset : (UInt32.ofNat (4 * k) + d).toNat = 4 * k + d.toNat := by
    rw [UInt32.toNat_add, UInt32.toNat_ofNat_of_lt' (by show _ < 4294967296; omega)]
    omega
  have hlane : Fin.ofNat 4 ((4 * k + d.toNat) / 4) = k := by
    apply Fin.ext
    show (4 * k + d.toNat) / 4 % 4 = k
    omega
  unfold store128
  rw [UInt32.add_assoc, storeBytes_inside (by omega), hoffset, hlane]
  congr 1
  omega

/-- A load of one of four stored patterns. -/
theorem load32_store128 (m : Memory) (p : UInt32) (v : Lanes) (k : Fin 4) :
    load32 (store128 m p v) (p + UInt32.ofNat (4 * k)) = v k := by
  have h0 : store128 m p v (p + UInt32.ofNat (4 * k)) = byte (v k) 0 := by
    have h := store128_byte m p v k (d := 0) (by decide)
    rwa [UInt32.add_zero] at h
  unfold load32
  rw [h0, store128_byte m p v k (by decide), store128_byte m p v k (by decide),
    store128_byte m p v k (by decide)]
  exact word_bytes (v k)

end Memory

/-! ## Accesses

The log has every access with its address and size. Two parts of a run have the accesses of both. -/

/-- A byte that had been read before some accesses, or that they have read. -/
theorem hasRead_append {s t : State} {new : List Access} (h : t.reads = s.reads ++ new)
    (x : UInt32) :
    HasRead t x ↔ HasRead s x ∨ ∃ access ∈ new, InArea access.1 access.2 x := by
  unfold HasRead
  rw [h]
  simp only [List.mem_append, or_and_right, exists_or]

/-! ## Alignment

A `movaps` faults unless its address is a multiple of sixteen; the prologue of a function makes the
stack pointer one. -/

/-- `andl $-16` rounds down to a multiple of 16. -/
theorem toNat_align16 (x : UInt32) : (x &&& 0xFFFFFFF0).toNat = x.toNat - x.toNat % 16 := by
  have hmask : (0xFFFFFFF0 : ℕ) = (2 ^ 28 - 1) <<< 4 := by decide
  have hround : x.toNat - x.toNat % 16 = x.toNat >>> 4 <<< 4 := by
    rw [Nat.shiftRight_eq_div_pow, Nat.shiftLeft_eq]
    omega
  rw [hround, UInt32.toNat_and]
  show x.toNat &&& 0xFFFFFFF0 = _
  rw [hmask]
  apply Nat.eq_of_testBit_eq
  intro i
  rw [Nat.testBit_and, Nat.testBit_shiftLeft, Nat.testBit_shiftLeft, Nat.testBit_shiftRight,
    Nat.testBit_two_pow_sub_one]
  by_cases hlow : 4 ≤ i
  · rw [show 4 + (i - 4) = i from by omega]
    by_cases hhigh : i < 32
    · simp [hlow, show i - 4 < 28 from by omega]
    · have hpow : 2 ^ 32 ≤ 2 ^ i := Nat.pow_le_pow_right Nat.two_pos (by omega)
      have hzero : x.toNat.testBit i = false :=
        Nat.testBit_lt_two_pow (Nat.lt_of_lt_of_le x.toNat_lt hpow)
      simp [hzero]
  · simp [hlow]

/-! ## Comparisons

A `cmpl` with a `jl` behind it compares two words as signed numbers, also where their difference
overflows. -/

/-- The number that a word stands for, by its sign bit. -/
theorem signed_eq (x : UInt32) :
    signed x = if x.toNat < 2 ^ 31 then (x.toNat : ℤ) else x.toNat - 2 ^ 32 := by
  show x.toBitVec.toInt = _
  rw [BitVec.toInt_eq_toNat_cond]
  show (if 2 * x.toNat < 2 ^ 32 then (x.toNat : ℤ) else x.toNat - (2 ^ 32 : ℕ)) = _
  split <;> split <;> omega

/-- **Less than**, after a comparison: the sign of the difference is wrong exactly if it
overflows. -/
theorem sub_less_iff (x y : UInt32) :
    (Flags.sub x y).sf ≠ (Flags.sub x y).of ↔ signed x < signed y := by
  have hx := x.toNat_lt
  have hy := y.toNat_lt
  have hsub := UInt32.toNat_sub x y
  have hsx := signed_eq x
  have hsy := signed_eq y
  unfold Flags.sub
  rw [ne_eq, decide_eq_decide, hsub]
  split at hsx <;> split at hsy <;> omega

theorem signed_sub {x y : UInt32} (hlo : -2 ^ 31 ≤ signed x - signed y)
    (hhi : signed x - signed y < 2 ^ 31) : signed (x - y) = signed x - signed y := by
  have hx := x.toNat_lt
  have hy := y.toNat_lt
  have hsub := UInt32.toNat_sub x y
  have hsx := signed_eq x
  have hsy := signed_eq y
  rw [signed_eq, hsub]
  split at hsx <;> split at hsy <;> split <;> omega

/-! ## Runs

As for the other machine of the development: straight pieces as a whole, jumps one by one. -/

section Runs

variable {L : Type} [DecidableEq L] {ops : SingleOps} {prog : List (Instr L)} {s t u : State}
  {i : Instr L} {is : List (Instr L)}

/-- A machine that has not returned carries out the instruction under its program counter. -/
theorem step_eq (ops : SingleOps) (hcode : prog[s.pc]? = some i) (hrun : s.returned = none) :
    step ops prog s = exec ops (place prog) { s with pc := s.pc + 1 } i := by
  unfold step
  rw [hcode, hrun]

/-- Neither a jump nor a return. -/
def Instr.isStraight : Instr L → Bool
  | .jl _ | .jmp _ | .ret => false
  | _ => true

/-- A straight piece of a program, executed as it stands in the text. -/
def execBlock (ops : SingleOps) : List (Instr L) → State → Option State
  | [], s => some s
  | i :: is, s => (exec ops (fun _ => 0) { s with pc := s.pc + 1 } i).bind (execBlock ops is)

omit [DecidableEq L] in
/-- A straight instruction does not look at the labels. -/
theorem exec_straight (hi : i.isStraight = true) {target : L → ℕ} (h : exec ops target s i = some t)
    (target' : L → ℕ) :
    exec ops target' s i = some t ∧ t.pc = s.pc ∧ t.returned = s.returned := by
  cases i with
  | jl | jmp | ret => cases hi
  | movaps src dst =>
    refine ⟨h, ?_⟩
    simp only [exec] at h
    split at h <;> cases h
    exact ⟨rfl, rfl⟩
  | _ =>
    refine ⟨h, ?_⟩
    cases h
    exact ⟨rfl, rfl⟩

/-- **A straight piece of a program** is executed as a whole. Induction on the piece. -/
theorem Steps.block {start : ℕ} (hcode : is <+: prog.drop start)
    (hstraight : is.all Instr.isStraight = true) (hpc : s.pc = start) (hrun : s.returned = none)
    (h : execBlock ops is s = some t) :
    Steps ops prog s t ∧ t.pc = start + is.length ∧ t.returned = none := by
  induction is generalizing s start with
  | nil =>
    cases h
    exact ⟨.refl, hpc, hrun⟩
  | cons i is ih =>
    obtain ⟨hi, his⟩ := Bool.and_eq_true_iff.mp hstraight
    obtain ⟨rest, hrest⟩ := hcode
    have hat : prog[s.pc]? = some i := by
      rw [hpc, ← List.head?_drop, ← hrest]
      rfl
    have hnext : is <+: prog.drop (start + 1) := by
      refine ⟨rest, ?_⟩
      rw [← List.tail_drop, ← hrest]
      rfl
    obtain ⟨u, hexec, hblock⟩ := Option.bind_eq_some_iff.mp h
    obtain ⟨hstep, hpcu, hreturned⟩ := exec_straight hi hexec (place prog)
    have hpcu : u.pc = start + 1 := hpcu.trans (congrArg (· + 1) hpc)
    obtain ⟨hsteps, hend, hlast⟩ := ih hnext his hpcu (hreturned.trans hrun) hblock
    refine ⟨.head ((step_eq ops hat hrun).trans hstep) hsteps, ?_, hlast⟩
    rw [hend, List.length_cons]
    omega

/-- An unconditional jump goes on at its label. -/
theorem Steps.jmp (ops : SingleOps) {l : L} (hcode : prog[s.pc]? = some (.jmp l))
    (hrun : s.returned = none) : Steps ops prog s { s with pc := place prog l } :=
  .single (step_eq ops hcode hrun)

/-- An aligned store of sixteen bytes does not fault. -/
theorem Steps.movaps (ops : SingleOps) {src : Xmm} {dst : Mem}
    (hcode : prog[s.pc]? = some (.movaps src dst)) (hrun : s.returned = none)
    (haligned : (dst.addr s).toNat % 16 = 0) :
    Steps ops prog s
      { s with pc := s.pc + 1, mem := store128 s.mem (dst.addr s) (s.xmm src) } :=
  .single ((step_eq ops hcode hrun).trans (if_pos haligned))

/-- A comparison with the jump behind it. -/
theorem Steps.cmpl_jl (ops : SingleOps) {imm : UInt32} {r : Reg} {l : L}
    (hcmp : prog[s.pc]? = some (.cmpl imm r)) (hjl : prog[s.pc + 1]? = some (.jl l))
    (hrun : s.returned = none) :
    Steps ops prog s
      { s with pc := if signed (s.reg r) < signed imm then place prog l else s.pc + 2
               flags := .sub (s.reg r) imm } := by
  have hfirst := step_eq ops hcmp hrun
  have hsecond := step_eq ops (s := { s with pc := s.pc + 1, flags := .sub (s.reg r) imm }) hjl hrun
  refine .head hfirst (.single (hsecond.trans (congrArg some ?_)))
  by_cases hless : signed (s.reg r) < signed imm
  · rw [if_pos hless]
    exact if_pos ((sub_less_iff _ _).mpr hless)
  · rw [if_neg hless]
    exact if_neg (mt (sub_less_iff _ _).mp hless)

end Runs

end X86
