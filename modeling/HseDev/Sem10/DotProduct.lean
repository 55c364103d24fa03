import HseDev.Lib.X86

/-!
# HseDev — `dot_product` of `sem10/process.S`

The routine multiplies four elements at a time and adds the products one by one; the elements
that are left over go through a second loop.

* **`dotProduct`** — the text of the routine.
* **`Called`** — a call with its three arguments on the stack; **`Written`** — the bytes that the
  routine writes.
* **`partialSum`** — the scalar loop over the first elements.
* **`Summed`** — the invariant of both loops; **`packed_iteration`** and **`scalar_iteration`**
  keep it.
-/

namespace HseDev.Sem10

open X86 LittleEndian

inductive Label where
  | mainLoop4
  | mainLoopEnd4
  | mainLoop1
  | mainLoopEnd1
  deriving DecidableEq, Repr

/-! ## The routine

The text of `process.S`, block by block between its labels; `zero` is the address of the constant
that the sum begins with. -/

@[simp] def saveRegisters : List (Instr Label) :=
  [.pushl .ebx,
    .pushl .ecx,
    .pushl .ebp]

@[simp] def openFrame : List (Instr Label) :=
  [.movl (.reg .esp) .ebp,
    .andl 0xFFFFFFF0 .esp,
    .subl 16 .esp]

@[simp] def loadArguments (zero : UInt32) : List (Instr Label) :=
  [.movl (.mem (.based 16 .ebp)) .ecx,
    .movl (.mem (.based 20 .ebp)) .eax,
    .movl (.mem (.based 24 .ebp)) .ebx,
    .movssLoad (.symbol zero) .xmm2]

@[simp] def packedProducts : List (Instr Label) :=
  [.movups (.based 0 .eax) .xmm0,
    .movups (.based 0 .ebx) .xmm1,
    .mulps .xmm0 .xmm1]

@[simp] def packedSums : List (Instr Label) :=
  [.addss (.mem (.based 0 .esp)) .xmm2,
    .addss (.mem (.based 4 .esp)) .xmm2,
    .addss (.mem (.based 8 .esp)) .xmm2,
    .addss (.mem (.based 12 .esp)) .xmm2,
    .subl 4 .ecx,
    .lea (.based 16 .eax) .eax,
    .lea (.based 16 .ebx) .ebx]

@[simp] def scalarBody : List (Instr Label) :=
  [.movssLoad (.based 0 .eax) .xmm0,
    .movssLoad (.based 0 .ebx) .xmm1,
    .mulss .xmm0 .xmm1,
    .addss (.reg .xmm1) .xmm2,
    .subl 1 .ecx,
    .lea (.based 4 .eax) .eax,
    .lea (.based 4 .ebx) .ebx]

@[simp] def epilogue : List (Instr Label) :=
  [.movssStore .xmm2 (.based 0 .esp),
    .flds (.based 0 .esp),
    .movl (.reg .ebp) .esp,
    .popl .ebp,
    .popl .ecx,
    .popl .ebx]

/-- `dot_product`; `zero` is the address of `ZERO`. -/
def dotProduct (zero : UInt32) : List (Instr Label) :=
  saveRegisters
  ++ openFrame
  ++ loadArguments zero
  ++ [.label .mainLoop4, .cmpl 4 .ecx, .jl .mainLoopEnd4]
  ++ packedProducts
  ++ [.movaps .xmm1 (.based 0 .esp)]
  ++ packedSums
  ++ [.jmp .mainLoop4, .label .mainLoopEnd4]
  ++ [.label .mainLoop1, .cmpl 1 .ecx, .jl .mainLoopEnd1]
  ++ scalarBody
  ++ [.jmp .mainLoop1, .label .mainLoopEnd1]
  ++ epilogue
  ++ [.ret]

theorem place_label (zero : UInt32) (l : Label) : place (dotProduct zero) l
    = match l with
      | .mainLoop4 => 10
      | .mainLoopEnd4 => 25
      | .mainLoop1 => 26
      | .mainLoopEnd1 => 37 := by
  cases l <;> simp [place, dotProduct]

/-! ## A call -/

/-- `N` -/
def argN (s : State) : ℤ :=
  signed (load32 s.mem (s.reg .esp + 4))

/-- `a` -/
def argA (s : State) : UInt32 :=
  load32 s.mem (s.reg .esp + 8)

/-- `b` -/
def argB (s : State) : UInt32 :=
  load32 s.mem (s.reg .esp + 12)

/-- The place of an element. -/
def elementAddr (p : UInt32) (i : ℕ) : UInt32 :=
  p + UInt32.ofNat (4 * i)

/-- The value of `ebp`: the saved registers begin there. -/
def frameBase (s : State) : UInt32 :=
  s.reg .esp - 4 - 4 - 4

/-- The value of `esp` in the loops. -/
def frameTop (s : State) : UInt32 :=
  (frameBase s &&& 0xFFFFFFF0) - 16

/-- The bytes of the stack that the routine writes: the saved registers and its frame. -/
def Written (s : State) (x : UInt32) : Prop :=
  InArea (frameBase s) 12 x ∨ InArea (frameTop s) 16 x

/-- The bytes that the routine reads apart from the arrays: the stack from the saved registers to
the arguments, its frame, and `ZERO`. -/
def Own (zero : UInt32) (s : State) (x : UInt32) : Prop :=
  InArea (frameBase s) 28 x ∨ InArea (frameTop s) 16 x ∨ InArea zero 4 x

/-- The bytes of the first `n` elements of both arrays. -/
def InArrays (s : State) (n : ℕ) (x : UInt32) : Prop :=
  ∃ i < n, InArea (elementAddr (argA s) i) 4 x ∨ InArea (elementAddr (argB s) i) 4 x

/-- Memory with the saved registers. -/
def pushed (s : State) : Memory :=
  let esp := s.reg .esp
  store32 (store32 (store32 s.mem (esp - 4) (s.reg .ebx)) (esp - 4 - 4) (s.reg .ecx))
    (esp - 4 - 4 - 4) (s.reg .ebp)

/-- **A call of the routine.** What it writes is free: neither `ZERO` nor an element of the arrays
is there. -/
structure Called (zero : UInt32) (s : State) : Prop where
  pc : s.pc = 0
  running : s.returned = none
  reads : s.reads = []
  zeroPattern : load32 s.mem zero = 0
  zeroFree : ∀ x, InArea zero 4 x → ¬ Written s x
  arraysFree : ∀ x, InArrays s (argN s).toNat x → ¬ Written s x

/-- **The scalar loop** over the first `n` elements. -/
def partialSum (ops : SingleOps) (s : State) (n : ℕ) : UInt32 :=
  (List.range n).foldl (fun acc i => ops.add acc
    (ops.mul (load32 s.mem (elementAddr (argB s) i)) (load32 s.mem (elementAddr (argA s) i)))) 0

variable {ops : SingleOps} {zero : UInt32} {s₀ s t : State} {n i : ℕ}

/-! ## The stack

The prologue pushes three registers, so the frame begins twelve bytes below the stack pointer of the
call. The aligned scratch area for `movaps` lies below that again. -/

/-- The stack pointer of the call, seen from the frame. -/
theorem esp_eq (s : State) : s.reg .esp = frameBase s + 12 := by
  unfold frameBase
  grind

/-- The frame lies below the saved registers, in the same 32 bytes. -/
theorem frameBase_eq (s : State) : ∃ d : UInt32, frameBase s = frameTop s + d
    ∧ 16 ≤ d.toNat ∧ d.toNat < 32 ∧ (frameTop s).toNat % 16 = 0 := by
  have hbase := (frameBase s).toNat_lt
  have halign := toNat_align16 (frameBase s)
  have hdistance : frameBase s = frameTop s + (frameBase s - frameTop s) := by grind
  refine ⟨frameBase s - frameTop s, hdistance, ?_⟩
  unfold frameTop
  have hsixteen : (16 : UInt32).toNat = 16 := rfl
  rw [UInt32.toNat_sub, UInt32.toNat_sub, halign, hsixteen]
  omega

/-- The frame does not reach the saved registers, the return address and the arguments. -/
theorem frame_not_base {x : UInt32} (hx : InArea (frameTop s) 16 x) :
    ¬ InArea (frameBase s) 28 x := by
  obtain ⟨d, hd, hlo, hhi, _⟩ := frameBase_eq s
  rw [hd]
  have hx : InArea (frameTop s + 0) 16 x := by rwa [UInt32.add_zero]
  exact hx.not_of_lt (by simpa using hlo) (by
    show d.toNat + 28 ≤ 2 ^ 32 + 0
    omega)

/-- The three pushes are three stores at fixed offsets of the frame. -/
theorem pushed_eq (s : State) : pushed s
    = store32 (store32 (store32 s.mem (frameBase s + 8) (s.reg .ebx)) (frameBase s + 4)
        (s.reg .ecx)) (frameBase s + 0) (s.reg .ebp) := by
  have h8 : s.reg .esp - 4 = frameBase s + 8 := by
    unfold frameBase
    grind
  have h4 : s.reg .esp - 4 - 4 = frameBase s + 4 := by
    unfold frameBase
    grind
  unfold pushed
  simp only
  rw [h4, h8, UInt32.add_zero, ← h4]
  rfl

/-- The saved registers are where they are popped. -/
theorem pushed_saved (s : State) : load32 (pushed s) (frameBase s + 0) = s.reg .ebp
    ∧ load32 (pushed s) (frameBase s + 4) = s.reg .ecx
    ∧ load32 (pushed s) (frameBase s + 8) = s.reg .ebx := by
  rw [pushed_eq]
  refine ⟨load32_store32 .., ?_, ?_⟩
  · rw [load32_store32_ne _ (by decide) (by decide) (by decide), load32_store32]
  · rw [load32_store32_ne _ (by decide) (by decide) (by decide),
      load32_store32_ne _ (by decide) (by decide) (by decide), load32_store32]

/-- They write the twelve bytes of the frame and nothing else; the arguments are above it. -/
theorem pushed_outside {x : UInt32} (hx : ¬ InArea (frameBase s) 12 x) : pushed s x = s.mem x := by
  have hpart (d : UInt32) (hd : d.toNat + 4 ≤ 12) : ¬ InArea (frameBase s + d) 4 x :=
    fun h => hx (h.of_part hd)
  rw [pushed_eq]
  unfold store32
  rw [storeBytes_outside (hpart 0 (by decide)), storeBytes_outside (hpart 4 (by decide)),
    storeBytes_outside (hpart 8 (by decide))]

/-! ## Blocks

What each straight piece of the routine computes, by symbolic execution. Every block lists what it
has read, in order, since the reads are part of the result. -/

theorem saveRegisters_block (ops : SingleOps) (s : State) :
    ∃ t, execBlock ops saveRegisters s = some t ∧ t.mem = pushed s
      ∧ t.reg .esp = frameBase s ∧ t.xmm = s.xmm ∧ t.fpu = s.fpu ∧ t.reads = s.reads := by
  refine ⟨_, rfl, ?_, ?_, ?_, ?_, ?_⟩ <;> rfl

/-- The frame is opened: `ebp` points to it, and `esp` to the next multiple of sixteen below. -/
theorem openFrame_block (ops : SingleOps) (s : State) :
    ∃ t, execBlock ops openFrame s = some t ∧ t.mem = s.mem ∧ t.reg .ebp = s.reg .esp
      ∧ t.reg .esp = (s.reg .esp &&& 0xFFFFFFF0) - 16 ∧ t.fpu = s.fpu
      ∧ t.reads = s.reads ++ [] := by
  refine ⟨_, rfl, ?_, ?_, ?_, ?_, ?_⟩ <;> rfl

/-- The count and the two arrays come from the stack of the caller, the first summand from `zero`.
-/
theorem loadArguments_block (ops : SingleOps) (zero : UInt32) (s : State) :
    ∃ t, execBlock ops (loadArguments zero) s = some t ∧ t.mem = s.mem
      ∧ t.reg .ebp = s.reg .ebp ∧ t.reg .esp = s.reg .esp
      ∧ t.reg .ecx = load32 s.mem (s.reg .ebp + 16)
      ∧ t.reg .eax = load32 s.mem (s.reg .ebp + 20)
      ∧ t.reg .ebx = load32 s.mem (s.reg .ebp + 24)
      ∧ t.xmm .xmm2 0 = load32 s.mem zero ∧ t.fpu = s.fpu
      ∧ t.reads = s.reads ++ [(s.reg .ebp + 16, 4)] ++ [(s.reg .ebp + 20, 4)]
        ++ [(s.reg .ebp + 24, 4)] ++ [(zero, 4)] := by
  refine ⟨_, rfl, ?_, ?_, ?_, ?_, ?_, ?_, ?_, ?_, ?_⟩ <;> rfl

/-- Four products at once, lane by lane, from sixteen bytes of each array. -/
theorem packedProducts_block (ops : SingleOps) (s : State) :
    ∃ t, execBlock ops packedProducts s = some t ∧ t.reg = s.reg ∧ t.mem = s.mem
      ∧ t.xmm .xmm2 = s.xmm .xmm2
      ∧ (t.xmm .xmm1 = fun k => ops.mul (load128 s.mem (s.reg .ebx + 0) k)
          (load128 s.mem (s.reg .eax + 0) k))
      ∧ t.fpu = s.fpu
      ∧ t.reads = s.reads ++ [(s.reg .eax + 0, 16)] ++ [(s.reg .ebx + 0, 16)] := by
  refine ⟨_, rfl, ?_, ?_, ?_, ?_, ?_, ?_⟩ <;> rfl

/-- The four products are added one after the other, lowest lane first: the order of the scalar
loop. -/
theorem packedSums_block (ops : SingleOps) (s : State) :
    ∃ t, execBlock ops packedSums s = some t ∧ t.mem = s.mem
      ∧ t.reg .ebp = s.reg .ebp ∧ t.reg .esp = s.reg .esp ∧ t.reg .ecx = s.reg .ecx - 4
      ∧ t.reg .eax = s.reg .eax + 16 ∧ t.reg .ebx = s.reg .ebx + 16
      ∧ t.xmm .xmm2 0 = ops.add (ops.add (ops.add (ops.add (s.xmm .xmm2 0)
          (load32 s.mem (s.reg .esp + 0))) (load32 s.mem (s.reg .esp + 4)))
          (load32 s.mem (s.reg .esp + 8))) (load32 s.mem (s.reg .esp + 12))
      ∧ t.fpu = s.fpu
      ∧ t.reads = s.reads ++ [(s.reg .esp + 0, 4)] ++ [(s.reg .esp + 4, 4)]
        ++ [(s.reg .esp + 8, 4)] ++ [(s.reg .esp + 12, 4)] := by
  refine ⟨_, rfl, ?_, ?_, ?_, ?_, ?_, ?_, ?_, ?_, ?_⟩ <;> rfl

/-- One product, which is added to the sum. -/
theorem scalarBody_block (ops : SingleOps) (s : State) :
    ∃ t, execBlock ops scalarBody s = some t ∧ t.mem = s.mem
      ∧ t.reg .ebp = s.reg .ebp ∧ t.reg .esp = s.reg .esp ∧ t.reg .ecx = s.reg .ecx - 1
      ∧ t.reg .eax = s.reg .eax + 4 ∧ t.reg .ebx = s.reg .ebx + 4
      ∧ t.xmm .xmm2 0 = ops.add (s.xmm .xmm2 0) (ops.mul (load32 s.mem (s.reg .ebx + 0))
          (load32 s.mem (s.reg .eax + 0)))
      ∧ t.fpu = s.fpu
      ∧ t.reads = s.reads ++ [(s.reg .eax + 0, 4)] ++ [(s.reg .ebx + 0, 4)] ++ [] := by
  refine ⟨_, rfl, ?_, ?_, ?_, ?_, ?_, ?_, ?_, ?_, ?_⟩ <;> rfl

/-- The sum goes to the floating-point stack by way of memory, and the registers come back. -/
theorem epilogue_block (ops : SingleOps) (s : State) :
    ∃ t, execBlock ops epilogue s = some t
      ∧ t.mem = store32 s.mem (s.reg .esp + 0) (s.xmm .xmm2 0)
      ∧ t.reg .ebp = load32 t.mem (s.reg .ebp) ∧ t.reg .ecx = load32 t.mem (s.reg .ebp + 4)
      ∧ t.reg .ebx = load32 t.mem (s.reg .ebp + 4 + 4) ∧ t.reg .esp = s.reg .ebp + 4 + 4 + 4
      ∧ t.fpu = load32 t.mem (s.reg .esp + 0) :: s.fpu
      ∧ t.reads = s.reads ++ [(s.reg .esp + 0, 4)] ++ [] ++ [(s.reg .ebp, 4)]
        ++ [(s.reg .ebp + 4, 4)] ++ [(s.reg .ebp + 4 + 4, 4)] := by
  refine ⟨_, rfl, ?_, ?_, ?_, ?_, ?_, ?_, ?_⟩ <;> rfl

/-- The products of four elements of each array. -/
def products (ops : SingleOps) (s : State) : Lanes :=
  fun k => ops.mul (load128 s.mem (s.reg .ebx + 0) k) (load128 s.mem (s.reg .eax + 0) k)

/-- The products of the packed loop go to the frame. -/
theorem packed_store (ops : SingleOps) (zero : UInt32) (hrun : s.returned = none)
    (hpc : s.pc = 13) (haligned : (s.reg .esp + 0).toNat % 16 = 0) :
    ∃ t, Steps ops (dotProduct zero) s t ∧ t.pc = 17 ∧ t.returned = none ∧ t.reg = s.reg
      ∧ t.mem = store128 s.mem (s.reg .esp + 0) (products ops s)
      ∧ t.xmm .xmm2 = s.xmm .xmm2 ∧ t.fpu = s.fpu
      ∧ t.reads = s.reads ++ [(s.reg .eax + 0, 16)] ++ [(s.reg .ebx + 0, 16)] := by
  obtain ⟨t, hexec, hreg, hmem, hsum, hproducts, hfpu, hreads⟩ := packedProducts_block ops s
  have hcode : packedProducts <+: (dotProduct zero).drop 13 := by simp [dotProduct]
  obtain ⟨hsteps, hpct, hrunt⟩ := Steps.block hcode rfl hpc hrun hexec
  have hpct : t.pc = 16 := hpct
  have hmovaps : (dotProduct zero)[t.pc]? = some (.movaps .xmm1 (.based 0 .esp)) := by
    simp [hpct, dotProduct]
  have halignedt : (Mem.addr t (.based 0 .esp)).toNat % 16 = 0 := by
    show (t.reg .esp + 0).toNat % 16 = 0
    rwa [hreg]
  refine ⟨_, hsteps.trans (Steps.movaps ops hmovaps hrunt halignedt), congrArg (· + 1) hpct, hrunt,
    hreg, ?_, hsum, hfpu, hreads⟩
  show store128 t.mem (t.reg .esp + 0) (t.xmm .xmm1) = _
  rw [hmem, hreg, hproducts]
  rfl

theorem packed_round (ops : SingleOps) (zero : UInt32) (hrun : s.returned = none)
    (hpc : s.pc = 13) (haligned : (s.reg .esp + 0).toNat % 16 = 0) :
    ∃ t, Steps ops (dotProduct zero) s t ∧ t.pc = 10 ∧ t.returned = none
      ∧ t.mem = store128 s.mem (s.reg .esp + 0) (products ops s)
      ∧ t.reg .ebp = s.reg .ebp ∧ t.reg .esp = s.reg .esp ∧ t.reg .ecx = s.reg .ecx - 4
      ∧ t.reg .eax = s.reg .eax + 16 ∧ t.reg .ebx = s.reg .ebx + 16
      ∧ t.xmm .xmm2 0 = ops.add (ops.add (ops.add (ops.add (s.xmm .xmm2 0)
          (load32 t.mem (s.reg .esp + 0))) (load32 t.mem (s.reg .esp + 4)))
          (load32 t.mem (s.reg .esp + 8))) (load32 t.mem (s.reg .esp + 12))
      ∧ t.fpu = s.fpu
      ∧ t.reads = s.reads ++ [(s.reg .eax + 0, 16), (s.reg .ebx + 0, 16), (s.reg .esp + 0, 4),
        (s.reg .esp + 4, 4), (s.reg .esp + 8, 4), (s.reg .esp + 12, 4)] := by
  obtain ⟨s₁, hsteps₁, hpc₁, hrun₁, hreg₁, hmem₁, hsum₁, hfpu₁, hreads₁⟩ :=
    packed_store ops zero hrun hpc haligned
  obtain ⟨s₂, hexec₂, hmem₂, hebp, hesp, hecx, heax, hebx, hsum₂, hfpu₂, hreads₂⟩ :=
    packedSums_block ops s₁
  have hcode : packedSums <+: (dotProduct zero).drop 17 := by simp [dotProduct]
  obtain ⟨hsteps₂, hpc₂, hrun₂⟩ := Steps.block hcode rfl hpc₁ hrun₁ hexec₂
  have hcodeJmp : (dotProduct zero)[s₂.pc]? = some (.jmp .mainLoop4) := by
    simp [hpc₂, dotProduct]
  have hjmp := Steps.jmp ops hcodeJmp hrun₂
  have hplace : place (dotProduct zero) .mainLoop4 = 10 := place_label zero .mainLoop4
  rw [hplace] at hjmp
  rw [hmem₁] at hmem₂ hsum₂
  rw [hreg₁] at hebp hesp hecx heax hebx hsum₂ hreads₂
  rw [hsum₁, ← hmem₂] at hsum₂
  rw [hreads₁] at hreads₂
  simp only [List.append_assoc, List.cons_append, List.nil_append] at hreads₂
  exact ⟨_, (hsteps₁.trans hsteps₂).trans hjmp, rfl, hrun₂, hmem₂, hebp, hesp, hecx, heax, hebx,
    hsum₂, hfpu₂.trans hfpu₁, hreads₂⟩

theorem scalar_round (ops : SingleOps) (zero : UInt32) (hrun : s.returned = none)
    (hpc : s.pc = 29) :
    ∃ t, Steps ops (dotProduct zero) s t ∧ t.pc = 26 ∧ t.returned = none ∧ t.mem = s.mem
      ∧ t.reg .ebp = s.reg .ebp ∧ t.reg .esp = s.reg .esp ∧ t.reg .ecx = s.reg .ecx - 1
      ∧ t.reg .eax = s.reg .eax + 4 ∧ t.reg .ebx = s.reg .ebx + 4
      ∧ t.xmm .xmm2 0 = ops.add (s.xmm .xmm2 0) (ops.mul (load32 s.mem (s.reg .ebx + 0))
          (load32 s.mem (s.reg .eax + 0)))
      ∧ t.fpu = s.fpu
      ∧ t.reads = s.reads ++ [(s.reg .eax + 0, 4), (s.reg .ebx + 0, 4)] := by
  obtain ⟨s₁, hexec₁, hmem, hebp, hesp, hecx, heax, hebx, hsum, hfpu, hreads⟩ :=
    scalarBody_block ops s
  have hcode₁ : scalarBody <+: (dotProduct zero).drop 29 := by simp [dotProduct]
  obtain ⟨hsteps₁, hpc₁, hrun₁⟩ := Steps.block hcode₁ rfl hpc hrun hexec₁
  have hcode₂ : (dotProduct zero)[s₁.pc]? = some (.jmp .mainLoop1) := by
    simp [hpc₁, dotProduct]
  have hjmp := Steps.jmp ops hcode₂ hrun₁
  have hplace : place (dotProduct zero) .mainLoop1 = 26 := place_label zero .mainLoop1
  rw [hplace] at hjmp
  simp only [List.append_assoc, List.cons_append, List.nil_append] at hreads
  exact ⟨_, hsteps₁.trans hjmp, rfl, hrun₁, hmem, hebp, hesp, hecx, heax, hebx, hsum, hfpu, hreads⟩

/-! ## Elements

The partial sums that the loops compute, in their order: addition is a parameter and need not be
associative. -/

theorem elementAddr_zero (p : UInt32) : elementAddr p 0 = p :=
  UInt32.add_zero p

/-- An offset of `k` words is `k` elements further. -/
theorem elementAddr_add (p : UInt32) (i k : ℕ) :
    elementAddr p i + UInt32.ofNat (4 * k) = elementAddr p (i + k) := by
  unfold elementAddr
  rw [Nat.mul_add, UInt32.ofNat_add, UInt32.add_assoc]

/-- Sixteen bytes from an element on are those of four elements. -/
theorem inArea_elements {p x : UInt32} :
    InArea (elementAddr p i) 16 x ↔ ∃ k < 4, InArea (elementAddr p (i + k)) 4 x := by
  rw [inArea_sixteen]
  constructor
  · intro ⟨k, hk⟩
    exact ⟨k, k.isLt, by rwa [elementAddr_add] at hk⟩
  · intro ⟨k, hlt, hk⟩
    exact ⟨⟨k, hlt⟩, by rwa [elementAddr_add]⟩

/-- The next partial sum adds the next product at the end. -/
theorem partialSum_succ (ops : SingleOps) (s : State) (i : ℕ) :
    partialSum ops s (i + 1) = ops.add (partialSum ops s i)
      (ops.mul (load32 s.mem (elementAddr (argB s) i))
        (load32 s.mem (elementAddr (argA s) i))) := by
  unfold partialSum
  rw [List.range_succ, List.foldl_append]
  rfl

/-- What has been read after some more rounds: what was read before, and the elements of these
rounds. -/
theorem inArrays_add {x : UInt32} (m : ℕ) : InArrays s (i + m) x ↔ InArrays s i x
    ∨ ∃ k < m, InArea (elementAddr (argA s) (i + k)) 4 x
      ∨ InArea (elementAddr (argB s) (i + k)) 4 x := by
  constructor
  · intro ⟨j, hj, hx⟩
    by_cases hlt : j < i
    · exact Or.inl ⟨j, hlt, hx⟩
    · refine Or.inr ⟨j - i, by omega, ?_⟩
      rwa [show i + (j - i) = j from by omega]
  · intro h
    rcases h with ⟨j, hj, hx⟩ | ⟨k, hk, hx⟩
    · exact ⟨j, by omega, hx⟩
    · exact ⟨i + k, by omega, hx⟩

/-! ## The loops

The invariant `Summed` says where the routine is in its arrays: so many elements are summed, the
pointers stand behind them and exactly these elements have been read. -/

/-- **The invariant**: `i` elements have been added. -/
structure Summed (ops : SingleOps) (zero : UInt32) (s₀ : State) (i : ℕ) (s : State) : Prop where
  running : s.returned = none
  ebp : s.reg .ebp = frameBase s₀
  esp : s.reg .esp = frameTop s₀
  ecx : signed (s.reg .ecx) = argN s₀ - i
  eax : s.reg .eax = elementAddr (argA s₀) i
  ebx : s.reg .ebx = elementAddr (argB s₀) i
  sum : s.xmm .xmm2 0 = partialSum ops s₀ i
  mem : ∀ x, ¬ InArea (frameTop s₀) 16 x → s.mem x = pushed s₀ x
  fpu : s.fpu = s₀.fpu
  readsOnly : ∀ x, HasRead s x → Own zero s₀ x ∨ InArrays s₀ i x
  readsAll : ∀ x, InArrays s₀ i x → HasRead s x

/-- What the registers say after `m` more elements. -/
structure Advanced (s₀ : State) (m i : ℕ) (s t : State) : Prop where
  running : t.returned = none
  ebp : t.reg .ebp = s.reg .ebp
  esp : t.reg .esp = s.reg .esp
  ecx : t.reg .ecx = s.reg .ecx - UInt32.ofNat m
  eax : t.reg .eax = s.reg .eax + UInt32.ofNat (4 * m)
  ebx : t.reg .ebx = s.reg .ebx + UInt32.ofNat (4 * m)
  mem : ∀ x, ¬ InArea (frameTop s₀) 16 x → t.mem x = s.mem x
  fpu : t.fpu = s.fpu
  readsOnly : ∀ x, HasRead t x → HasRead s x ∨ InArea (frameTop s₀) 16 x
    ∨ ∃ k < m, InArea (elementAddr (argA s₀) (i + k)) 4 x
      ∨ InArea (elementAddr (argB s₀) (i + k)) 4 x
  readsOld : ∀ x, HasRead s x → HasRead t x
  readsNew : ∀ x k, k < m → InArea (elementAddr (argA s₀) (i + k)) 4 x
    ∨ InArea (elementAddr (argB s₀) (i + k)) 4 x → HasRead t x

/-- A round of `m` elements carries the invariant on, in the packed loop with four and in the scalar
one with one. -/
theorem Summed.advance {m : ℕ} (h : Summed ops zero s₀ i s) (hadv : Advanced s₀ m i s t)
    (hm : m ≤ 4) (hn : m ≤ argN s₀ - i)
    (hsum : t.xmm .xmm2 0 = partialSum ops s₀ (i + m)) : Summed ops zero s₀ (i + m) t := by
  have hword : signed (UInt32.ofNat m) = m := by
    rw [signed_eq, UInt32.toNat_ofNat_of_lt' (by show _ < 4294967296; omega), if_pos (by omega)]
  refine ⟨hadv.running, hadv.ebp.trans h.ebp, hadv.esp.trans h.esp, ?_, ?_, ?_, hsum, ?_,
    hadv.fpu.trans h.fpu, ?_, ?_⟩
  · have hlt : signed (s.reg .ecx) < 2 ^ 31 := Int32.toInt_lt _
    have hecx := h.ecx
    rw [hadv.ecx, signed_sub (by omega) (by omega), hword, hecx]
    omega
  · rw [hadv.eax, h.eax, elementAddr_add]
  · rw [hadv.ebx, h.ebx, elementAddr_add]
  · intro x hx
    rw [hadv.mem x hx, h.mem x hx]
  · intro x hx
    rw [inArrays_add]
    rcases hadv.readsOnly x hx with hold | hframe | hnew
    · rcases h.readsOnly x hold with hown | hin
      · exact Or.inl hown
      · exact Or.inr (Or.inl hin)
    · exact Or.inl (Or.inr (Or.inl hframe))
    · exact Or.inr (Or.inr hnew)
  · intro x hx
    rcases (inArrays_add m).mp hx with hold | ⟨k, hk, hx⟩
    · exact hadv.readsOld x (h.readsAll x hold)
    · exact hadv.readsNew x k hk hx

/-- The elements are still as they were at the call. -/
theorem Summed.load_element (h : Summed ops zero s₀ i s) (hcalled : Called zero s₀) {p : UInt32}
    (hp : p = argA s₀ ∨ p = argB s₀) {j : ℕ} (hj : j < argN s₀) :
    load32 s.mem (elementAddr p j) = load32 s₀.mem (elementAddr p j) := by
  apply load32_congr
  intro x hx
  have hin : InArrays s₀ (argN s₀).toNat x := by
    refine ⟨j, by omega, ?_⟩
    rcases hp with rfl | rfl
    · exact Or.inl hx
    · exact Or.inr hx
  have hfree := hcalled.arraysFree x hin
  rw [h.mem x fun hframe => hfree (Or.inr hframe),
    pushed_outside fun hsaved => hfree (Or.inl hsaved)]

/-- The program counter and the flags are no part of the invariant. -/
theorem Summed.goto (h : Summed ops zero s₀ i s) (pc : ℕ) (flags : Flags) :
    Summed ops zero s₀ i { s with pc := pc, flags := flags } :=
  ⟨h.running, h.ebp, h.esp, h.ecx, h.eax, h.ebx, h.sum, h.mem, h.fpu, h.readsOnly, h.readsAll⟩

/-- A label is passed without a change. -/
theorem Summed.label {l : Label} (h : Summed ops zero s₀ i s)
    (hlabel : (dotProduct zero)[s.pc]? = some (.label l)) :
    ∃ t, Steps ops (dotProduct zero) s t ∧ t.pc = s.pc + 1 ∧ Summed ops zero s₀ i t :=
  ⟨_, .single (step_eq ops hlabel h.running), rfl, h.goto (s.pc + 1) s.flags⟩

/-- The test at the head of a loop. -/
theorem Summed.test {head exit : Label} {imm : UInt32} (h : Summed ops zero s₀ i s)
    (hlabel : (dotProduct zero)[s.pc]? = some (.label head))
    (hcmp : (dotProduct zero)[s.pc + 1]? = some (.cmpl imm .ecx))
    (hjl : (dotProduct zero)[s.pc + 2]? = some (.jl exit)) :
    ∃ t, Steps ops (dotProduct zero) s t ∧ Summed ops zero s₀ i t
      ∧ t.pc = if argN s₀ - i < signed imm then place (dotProduct zero) exit else s.pc + 3 := by
  obtain ⟨t, hfirst, hpc, ht⟩ := h.label hlabel
  rw [← hpc] at hcmp
  have hjl : (dotProduct zero)[t.pc + 1]? = some (.jl exit) := by rwa [hpc]
  refine ⟨_, hfirst.trans (Steps.cmpl_jl ops hcmp hjl ht.running), ht.goto _ _, ?_⟩
  rw [← ht.ecx, hpc]

/-- The scratch area is aligned, so that the `movaps` does not fault. -/
theorem frameTop_aligned (s : State) : (frameTop s + 0).toNat % 16 = 0 := by
  obtain ⟨_, _, _, _, h⟩ := frameBase_eq s
  rwa [UInt32.add_zero]

/-- The product of the elements `i + k`. -/
theorem products_eq (hcalled : Called zero s₀) (h : Summed ops zero s₀ i s) (k : Fin 4)
    (hleft : 4 ≤ argN s₀ - i) :
    products ops s k = ops.mul (load32 s₀.mem (elementAddr (argB s₀) (i + k)))
      (load32 s₀.mem (elementAddr (argA s₀) (i + k))) := by
  have hk := k.isLt
  unfold products load128
  rw [h.eax, h.ebx, UInt32.add_zero, UInt32.add_zero, elementAddr_add, elementAddr_add,
    h.load_element hcalled (Or.inl rfl) (by omega), h.load_element hcalled (Or.inr rfl) (by omega)]

/-- **A round of the packed loop** adds the next four products, one after the other. -/
theorem packed_iteration (hcalled : Called zero s₀) (h : Summed ops zero s₀ i s) (hpc : s.pc = 13)
    (hleft : 4 ≤ argN s₀ - i) :
    ∃ t, Steps ops (dotProduct zero) s t ∧ t.pc = 10 ∧ Summed ops zero s₀ (i + 4) t := by
  have haligned : (s.reg .esp + 0).toNat % 16 = 0 := by
    rw [h.esp]
    exact frameTop_aligned s₀
  obtain ⟨t, hsteps, hpc', hrun, hmem, hebp, hesp, hecx, heax, hebx, hsum, hfpu, hreads⟩ :=
    packed_round ops zero h.running hpc haligned
  rw [h.esp, UInt32.add_zero] at hmem
  have hlane (k : Fin 4) :
      load32 t.mem (frameTop s₀ + UInt32.ofNat (4 * k)) = products ops s k := by
    rw [hmem, load32_store128]
  rw [h.esp, h.eax, h.ebx, UInt32.add_zero, UInt32.add_zero] at hreads
  refine ⟨t, hsteps, hpc', h.advance (m := 4) ?_ le_rfl hleft ?_⟩
  · refine ⟨hrun, hebp, hesp, hecx, heax, hebx, ?_, hfpu, ?_, ?_, ?_⟩
    · intro x hx
      rw [hmem]
      exact storeBytes_outside hx
    · intro x hx
      rcases (hasRead_append hreads x).mp hx with hold | hnew
      · exact Or.inl hold
      · simp only [List.mem_cons, List.not_mem_nil, or_false, exists_eq_or_imp,
          exists_eq_left] at hnew
        -- the round reads four elements of each array, and the four products from the frame
        rcases hnew with ha | hb | h0 | h4 | h8 | h12
        · obtain ⟨k, hk, hka⟩ := inArea_elements.mp ha
          exact Or.inr (Or.inr ⟨k, hk, Or.inl hka⟩)
        · obtain ⟨k, hk, hkb⟩ := inArea_elements.mp hb
          exact Or.inr (Or.inr ⟨k, hk, Or.inr hkb⟩)
        · exact Or.inr (Or.inl (h0.of_part (by decide)))
        · exact Or.inr (Or.inl (h4.of_part (by decide)))
        · exact Or.inr (Or.inl (h8.of_part (by decide)))
        · exact Or.inr (Or.inl (h12.of_part (by decide)))
    · intro x hx
      exact (hasRead_append hreads x).mpr (Or.inl hx)
    · intro x k hk hx
      refine (hasRead_append hreads x).mpr (Or.inr ?_)
      rcases hx with ha | hb
      · exact ⟨_, List.mem_cons_self, inArea_elements.mpr ⟨k, hk, ha⟩⟩
      · exact ⟨_, List.mem_cons_of_mem _ List.mem_cons_self, inArea_elements.mpr ⟨k, hk, hb⟩⟩
  · rw [h.esp] at hsum
    -- the four lanes are added in the order of the elements
    have h0 : load32 t.mem (frameTop s₀ + 0) = _ := (hlane 0).trans (products_eq hcalled h 0 hleft)
    have h4 : load32 t.mem (frameTop s₀ + 4) = _ := (hlane 1).trans (products_eq hcalled h 1 hleft)
    have h8 : load32 t.mem (frameTop s₀ + 8) = _ := (hlane 2).trans (products_eq hcalled h 2 hleft)
    have h12 : load32 t.mem (frameTop s₀ + 12) = _ :=
      (hlane 3).trans (products_eq hcalled h 3 hleft)
    rw [hsum, h.sum, h0, h4, h8, h12]
    show _ = partialSum ops s₀ (i + 3 + 1)
    rw [partialSum_succ, partialSum_succ, partialSum_succ, partialSum_succ]
    rfl

/-- A round of the scalar loop adds the next product. -/
theorem scalar_iteration (hcalled : Called zero s₀) (h : Summed ops zero s₀ i s) (hpc : s.pc = 29)
    (hleft : 1 ≤ argN s₀ - i) :
    ∃ t, Steps ops (dotProduct zero) s t ∧ t.pc = 26 ∧ Summed ops zero s₀ (i + 1) t := by
  obtain ⟨t, hsteps, hpc', hrun, hmem, hebp, hesp, hecx, heax, hebx, hsum, hfpu, hreads⟩ :=
    scalar_round ops zero h.running hpc
  rw [h.eax, h.ebx, UInt32.add_zero, UInt32.add_zero] at hreads
  refine ⟨t, hsteps, hpc', h.advance (m := 1) ?_ (by decide) hleft ?_⟩
  · refine ⟨hrun, hebp, hesp, hecx, heax, hebx, ?_, hfpu, ?_, ?_, ?_⟩
    · intro x _
      rw [hmem]
    · intro x hx
      rcases (hasRead_append hreads x).mp hx with hold | hnew
      · exact Or.inl hold
      · simp only [List.mem_cons, List.not_mem_nil, or_false, exists_eq_or_imp,
          exists_eq_left] at hnew
        exact Or.inr (Or.inr ⟨0, Nat.one_pos, hnew⟩)
    · intro x hx
      exact (hasRead_append hreads x).mpr (Or.inl hx)
    · intro x k hk hx
      obtain rfl : k = 0 := by omega
      refine (hasRead_append hreads x).mpr (Or.inr ?_)
      rcases hx with ha | hb
      · exact ⟨_, List.mem_cons_self, ha⟩
      · exact ⟨_, List.mem_cons_of_mem _ List.mem_cons_self, hb⟩
  · rw [hsum, h.sum, h.eax, h.ebx, UInt32.add_zero, UInt32.add_zero,
      h.load_element hcalled (Or.inl rfl) (by omega),
      h.load_element hcalled (Or.inr rfl) (by omega), partialSum_succ]

theorem packed_test (h : Summed ops zero s₀ i s) (hpc : s.pc = 10) :
    ∃ t, Steps ops (dotProduct zero) s t ∧ Summed ops zero s₀ i t
      ∧ t.pc = if argN s₀ - i < 4 then 25 else 13 := by
  have hlabel : (dotProduct zero)[s.pc]? = some (.label .mainLoop4) := by
    simp [hpc, dotProduct]
  have hcmp : (dotProduct zero)[s.pc + 1]? = some (.cmpl 4 .ecx) := by
    simp [hpc, dotProduct]
  have hjl : (dotProduct zero)[s.pc + 2]? = some (.jl .mainLoopEnd4) := by
    simp [hpc, dotProduct]
  obtain ⟨t, hsteps, ht, hpc'⟩ := h.test hlabel hcmp hjl
  rw [hpc, place_label] at hpc'
  exact ⟨t, hsteps, ht, hpc'⟩

theorem scalar_test (h : Summed ops zero s₀ i s) (hpc : s.pc = 26) :
    ∃ t, Steps ops (dotProduct zero) s t ∧ Summed ops zero s₀ i t
      ∧ t.pc = if argN s₀ - i < 1 then 37 else 29 := by
  have hlabel : (dotProduct zero)[s.pc]? = some (.label .mainLoop1) := by
    simp [hpc, dotProduct]
  have hcmp : (dotProduct zero)[s.pc + 1]? = some (.cmpl 1 .ecx) := by
    simp [hpc, dotProduct]
  have hjl : (dotProduct zero)[s.pc + 2]? = some (.jl .mainLoopEnd1) := by
    simp [hpc, dotProduct]
  obtain ⟨t, hsteps, ht, hpc'⟩ := h.test hlabel hcmp hjl
  rw [hpc, place_label] at hpc'
  exact ⟨t, hsteps, ht, hpc'⟩

/-- **The packed loop** ends with fewer than four elements left. Strong induction on what is
left. -/
theorem packed_loop (hcalled : Called zero s₀) (h : Summed ops zero s₀ i s) (hpc : s.pc = 10)
    (hle : i ≤ (argN s₀).toNat) :
    ∃ j t, Steps ops (dotProduct zero) s t ∧ t.pc = 25 ∧ Summed ops zero s₀ j t
      ∧ j ≤ (argN s₀).toNat := by
  induction hleft : (argN s₀).toNat - i using Nat.strong_induction_on generalizing i s with
  | _ left ih =>
  obtain ⟨t, hsteps, ht, hpc'⟩ := packed_test h hpc
  by_cases hdone : argN s₀ - i < 4
  · rw [if_pos hdone] at hpc'
    exact ⟨i, t, hsteps, hpc', ht, hle⟩
  · rw [if_neg hdone] at hpc'
    obtain ⟨u, hround, hpcu, hu⟩ := packed_iteration hcalled ht hpc' (by omega)
    obtain ⟨j, v, hrest, hv⟩ := ih ((argN s₀).toNat - (i + 4)) (by omega) hu hpcu (by omega) rfl
    exact ⟨j, v, (hsteps.trans hround).trans hrest, hv⟩

/-- **The scalar loop** ends with no element left. It takes the elements that the packed loop has
left, one at a time and in order. -/
theorem scalar_loop (hcalled : Called zero s₀) (h : Summed ops zero s₀ i s) (hpc : s.pc = 26)
    (hle : i ≤ (argN s₀).toNat) :
    ∃ t, Steps ops (dotProduct zero) s t ∧ t.pc = 37
      ∧ Summed ops zero s₀ (argN s₀).toNat t := by
  induction hleft : (argN s₀).toNat - i generalizing i s with
  | zero =>
    obtain ⟨t, hsteps, ht, hpc'⟩ := scalar_test h hpc
    rw [if_pos (by omega)] at hpc'
    obtain rfl : i = (argN s₀).toNat := by omega
    exact ⟨t, hsteps, hpc', ht⟩
  | succ left ih =>
    obtain ⟨t, hsteps, ht, hpc'⟩ := scalar_test h hpc
    rw [if_neg (by omega)] at hpc'
    obtain ⟨u, hround, hpcu, hu⟩ := scalar_iteration hcalled ht hpc' (by omega)
    obtain ⟨v, hrest, hv⟩ := ih hu hpcu (by omega) (by omega)
    exact ⟨v, (hsteps.trans hround).trans hrest, hv⟩

/-! ## The whole routine

The prologue establishes the invariant with nothing summed, the loops take it to the last element,
and the epilogue gives back what the caller has to find again. -/

/-- Above the saved registers the stack is as it was at the call. -/
theorem pushed_above {d : UInt32} (hlo : 12 ≤ d.toNat) (hhi : d.toNat + 4 ≤ 2 ^ 32) :
    load32 (pushed s) (frameBase s + d) = load32 s.mem (frameBase s + d) := by
  apply load32_congr
  intro x hx
  apply pushed_outside
  intro hsaved
  have hsaved : InArea (frameBase s + 0) 12 x := by rwa [UInt32.add_zero]
  exact hsaved.not_of_lt (by simpa using hlo) (by simpa using hhi) hx

/-- The saved registers, the return address and the arguments do not depend on the frame. -/
theorem load_base {m : Memory} {d : UInt32}
    (hm : ∀ x, ¬ InArea (frameTop s) 16 x → m x = pushed s x) (hd : d.toNat + 4 ≤ 28) :
    load32 m (frameBase s + d) = load32 (pushed s) (frameBase s + d) := by
  apply load32_congr
  intro x hx
  apply hm
  intro hframe
  exact frame_not_base hframe (hx.of_part hd)

theorem prologue (ops : SingleOps) (h : Called zero s) :
    ∃ t, Steps ops (dotProduct zero) s t ∧ t.pc = 10 ∧ Summed ops zero s 0 t := by
  obtain ⟨s₁, hexec₁, hmem₁, hesp₁, -, hfpu₁, hreads₁⟩ := saveRegisters_block ops s
  have hcode₁ : saveRegisters <+: (dotProduct zero).drop 0 := by simp [dotProduct]
  obtain ⟨hsteps₁, hpc₁, hrun₁⟩ := Steps.block hcode₁ rfl h.pc h.running hexec₁
  obtain ⟨s₂, hexec₂, hmem₂, hebp₂, hesp₂, hfpu₂, hreads₂⟩ := openFrame_block ops s₁
  have hcode₂ : openFrame <+: (dotProduct zero).drop 3 := by simp [dotProduct]
  obtain ⟨hsteps₂, hpc₂, hrun₂⟩ := Steps.block hcode₂ rfl hpc₁ hrun₁ hexec₂
  obtain ⟨s₃, hexec₃, hmem₃, hebp₃, hesp₃, hecx, heax, hebx, hzero, hfpu₃, hreads₃⟩ :=
    loadArguments_block ops zero s₂
  have hcode₃ : loadArguments zero <+: (dotProduct zero).drop 6 := by simp [dotProduct]
  obtain ⟨hsteps₃, hpc₃, hrun₃⟩ := Steps.block hcode₃ rfl hpc₂ hrun₂ hexec₃
  rw [hesp₁] at hebp₂ hesp₂
  rw [hmem₂, hmem₁, hebp₂, pushed_above (by decide) (by decide)] at hecx heax hebx
  rw [hreads₂, hreads₁, hebp₂] at hreads₃
  simp only [List.append_assoc, List.cons_append, List.nil_append] at hreads₃
  have hzeroFree : load32 (pushed s) zero = 0 := by
    rw [← h.zeroPattern]
    exact load32_congr fun x hx => pushed_outside fun hsaved => h.zeroFree x hx (Or.inl hsaved)
  -- the arguments, seen from the entry value of `esp`
  have harg (d : UInt32) : s.reg .esp + d = frameBase s + (12 + d) := by
    rw [esp_eq, UInt32.add_assoc]
  refine ⟨s₃, (hsteps₁.trans hsteps₂).trans hsteps₃, hpc₃, hrun₃, hebp₃.trans hebp₂,
    hesp₃.trans hesp₂, ?_, ?_, ?_, ?_, ?_, hfpu₃.trans (hfpu₂.trans hfpu₁), ?_, ?_⟩
  · show signed (s₃.reg .ecx) = argN s - 0
    rw [hecx, argN, harg, Int.sub_zero]
    rfl
  · rw [heax, argA, harg, elementAddr_zero]
    rfl
  · rw [hebx, argB, harg, elementAddr_zero]
    rfl
  · rw [hzero, hmem₂, hmem₁, hzeroFree]
    rfl
  · intro x _
    rw [hmem₃, hmem₂, hmem₁]
  · intro x hx
    rcases (hasRead_append hreads₃ x).mp hx with hnone | hnew
    · obtain ⟨_, hmem, _⟩ := hnone
      rw [h.reads] at hmem
      cases hmem
    · simp only [List.mem_cons, List.not_mem_nil, or_false, exists_eq_or_imp,
        exists_eq_left] at hnew
      rcases hnew with hN | ha | hb | hzero
      · exact Or.inl (Or.inl (hN.of_part (by decide)))
      · exact Or.inl (Or.inl (ha.of_part (by decide)))
      · exact Or.inl (Or.inl (hb.of_part (by decide)))
      · exact Or.inl (Or.inr (Or.inr hzero))
  · intro x ⟨j, hj, _⟩
    exact absurd hj (Nat.not_lt_zero j)

/-- **The epilogue** brings back what was saved and loads the sum; nothing is left to do but to
return. -/
theorem epilogue_restores (h : Summed ops zero s₀ n s) (hpc : s.pc = 37) :
    ∃ t, Steps ops (dotProduct zero) s t ∧ t.pc = 44 ∧ t.returned = none
      ∧ (∀ x, ¬ InArea (frameTop s₀) 16 x → t.mem x = pushed s₀ x)
      ∧ t.reg .ebx = s₀.reg .ebx ∧ t.reg .ecx = s₀.reg .ecx ∧ t.reg .ebp = s₀.reg .ebp
      ∧ t.reg .esp = s₀.reg .esp ∧ t.fpu = partialSum ops s₀ n :: s₀.fpu
      ∧ (∀ x, HasRead t x → Own zero s₀ x ∨ InArrays s₀ n x)
      ∧ (∀ x, InArrays s₀ n x → HasRead t x) := by
  have hlabel : (dotProduct zero)[s.pc]? = some (.label .mainLoopEnd1) := by
    simp [hpc, dotProduct]
  obtain ⟨s₁, hfirst, hpc₁, hs₁⟩ := h.label hlabel
  rw [hpc] at hpc₁
  obtain ⟨t, hexec, hmem, hebp, hecx, hebx, hesp, hfpu, hreads⟩ := epilogue_block ops s₁
  have hcode : epilogue <+: (dotProduct zero).drop 38 := by simp [dotProduct]
  obtain ⟨hsteps, hpc', hrun⟩ := Steps.block hcode rfl hpc₁ hs₁.running hexec
  rw [hs₁.esp, UInt32.add_zero, hs₁.sum] at hmem
  -- only the frame has been written to, so the saved registers are still there
  have hframe : ∀ x, ¬ InArea (frameTop s₀) 16 x → t.mem x = pushed s₀ x := by
    intro x hx
    have hstored : ¬ InArea (frameTop s₀ + 0) 4 x := fun h => hx (h.of_part (by decide))
    rw [UInt32.add_zero] at hstored
    rw [hmem]
    unfold store32
    rw [storeBytes_outside hstored, hs₁.mem x hx]
  obtain ⟨hsavedEbp, hsavedEcx, hsavedEbx⟩ := pushed_saved s₀
  rw [hs₁.ebp] at hebp hecx hebx hesp hreads
  rw [hs₁.esp, UInt32.add_zero] at hfpu hreads
  simp only [List.append_assoc, List.cons_append, List.nil_append] at hreads
  refine ⟨t, hfirst.trans hsteps, hpc', hrun, hframe, ?_, ?_, ?_, ?_, ?_, ?_, ?_⟩
  · rw [hebx, UInt32.add_assoc, ← hsavedEbx]
    exact load_base hframe (by decide)
  · rw [hecx, ← hsavedEcx]
    exact load_base hframe (by decide)
  · have hload := load_base hframe (d := 0) (by decide)
    rw [hebp, ← hsavedEbp, ← hload, UInt32.add_zero]
  · rw [hesp, esp_eq, UInt32.add_assoc, UInt32.add_assoc]
    rfl
  · rw [hfpu, hs₁.fpu, hmem, load32_store32]
  · intro x hx
    rcases (hasRead_append hreads x).mp hx with hold | hnew
    · exact hs₁.readsOnly x hold
    · simp only [List.mem_cons, List.not_mem_nil, or_false, exists_eq_or_imp,
        exists_eq_left] at hnew
      -- the sum comes from the frame, the registers from where the prologue has pushed them
      rcases hnew with hsum | hebp | hecx | hebx
      · have hsum : InArea (frameTop s₀ + 0) 4 x := by rwa [UInt32.add_zero]
        exact Or.inl (Or.inr (Or.inl (hsum.of_part (by decide))))
      · have hebp : InArea (frameBase s₀ + 0) 4 x := by rwa [UInt32.add_zero]
        exact Or.inl (Or.inl (hebp.of_part (by decide)))
      · exact Or.inl (Or.inl (hecx.of_part (by decide)))
      · rw [UInt32.add_assoc] at hebx
        exact Or.inl (Or.inl (hebx.of_part (by decide)))
  · intro x hx
    exact (hasRead_append hreads x).mpr (Or.inl (hs₁.readsAll x hx))

/-- **`dot_product`** returns with the registers as they were at the call and with the result of the
scalar loop on the stack of the coprocessor. Of the arrays it reads the first `N` elements. -/
theorem dot_product_correct (ops : SingleOps) (zero : UInt32) (s : State) (h : Called zero s) :
    ∃ t u, Steps ops (dotProduct zero) s t
      ∧ (dotProduct zero)[t.pc]? = some .ret
      ∧ t.reg .ebx = s.reg .ebx ∧ t.reg .ecx = s.reg .ecx ∧ t.reg .ebp = s.reg .ebp
      ∧ t.reg .esp = s.reg .esp
      ∧ step ops (dotProduct zero) t = some u
      ∧ u.returned = some (load32 s.mem (s.reg .esp))
      ∧ u.fpu = partialSum ops s (argN s).toNat :: s.fpu
      ∧ (∀ x, HasRead u x → Own zero s x ∨ InArrays s (argN s).toNat x)
      ∧ (∀ x, InArrays s (argN s).toNat x → HasRead u x)
      ∧ ∀ x, ¬ Written s x → u.mem x = s.mem x := by
  -- the text from top to bottom: prologue, packed loop, scalar loop, epilogue
  obtain ⟨s₁, hsteps₁, hpc₁, hs₁⟩ := prologue ops h
  obtain ⟨j, s₂, hsteps₂, hpc₂, hs₂, hj⟩ := packed_loop h hs₁ hpc₁ (Nat.zero_le _)
  have hlabel : (dotProduct zero)[s₂.pc]? = some (.label .mainLoopEnd4) := by
    simp [hpc₂, dotProduct]
  obtain ⟨s₃, hsteps₃, hpc₃, hs₃⟩ := hs₂.label hlabel
  rw [hpc₂] at hpc₃
  obtain ⟨s₄, hsteps₄, hpc₄, hs₄⟩ := scalar_loop h hs₃ hpc₃ hj
  obtain ⟨t, hsteps₅, hpc, hrun, hmem, hebx, hecx, hebp, hesp, hfpu, hreads, hall⟩ :=
    epilogue_restores hs₄ hpc₄
  have hcode : (dotProduct zero)[t.pc]? = some .ret := by
    simp [hpc, dotProduct]
  -- what is left is the `ret`
  have hret := step_eq ops hcode hrun
  have haddress : load32 t.mem (s.reg .esp) = load32 s.mem (s.reg .esp) := by
    rw [esp_eq, load_base hmem (by decide), pushed_above (by decide) (by decide)]
  have hsteps := (((hsteps₁.trans hsteps₂).trans hsteps₃).trans hsteps₄).trans hsteps₅
  refine ⟨t, _, hsteps, hcode, hebx, hecx, hebp, hesp, hret, ?_, hfpu, ?_, ?_, ?_⟩
  · show some (load32 t.mem (t.reg .esp)) = _
    rw [hesp, haddress]
  · intro x hx
    rcases (hasRead_append (s := t) rfl x).mp hx with hold | ⟨access, hmem, haddr⟩
    · exact hreads x hold
    · obtain rfl := List.mem_singleton.mp hmem
      have haddr : InArea (t.reg .esp) 4 x := haddr
      rw [hesp, esp_eq] at haddr
      exact Or.inl (Or.inl (haddr.of_part (by decide)))
  · intro x hx
    exact (hasRead_append (s := t) rfl x).mpr (Or.inl (hall x hx))
  · intro x hx
    show t.mem x = s.mem x
    rw [hmem x fun hframe => hx (Or.inr hframe), pushed_outside fun hsaved => hx (Or.inl hsaved)]

/-- Five elements of each array, all 3 in the one and 2 in the other. -/
def callOfFive : State where
  pc := 0
  reg := fun r => if r = .esp then 0x1000 else 7
  xmm := fun _ _ => 1
  fpu := []
  flags := ⟨false, false, false, false⟩
  mem := fun x =>
    if x = 0x1004 then 5
    else if x = 0x1009 then 0x20
    else if x = 0x100D then 0x30
    else if x % 4 = 0 ∧ InArea 0x2000 20 x then 3
    else if x % 4 = 0 ∧ InArea 0x3000 20 x then 2
    else 0
  reads := []
  returned := none

/-- Five elements: one packed round and one scalar round. -/
theorem dot_product_of_five :
    ∃ t u, Steps ⟨(· * ·), (· + ·)⟩ (dotProduct 0x4000) callOfFive t
      ∧ t.reg .ebx = 7 ∧ t.reg .esp = 0x1000
      ∧ step ⟨(· * ·), (· + ·)⟩ (dotProduct 0x4000) t = some u ∧ u.fpu = [30] := by
  have hbase : frameBase callOfFive = 0xFF4 := rfl
  have htop : frameTop callOfFive = 0xFE0 := rfl
  have hN : (argN callOfFive).toNat = 5 := rfl
  have hA : argA callOfFive = 0x2000 := rfl
  have hB : argB callOfFive = 0x3000 := rfl
  have hfar {p x : UInt32} {n : ℕ} (hx : InArea p n x) (hp : 0x1000 ≤ p.toNat)
      (hn : p.toNat + n ≤ 2 ^ 32) : ¬ Written callOfFive x := by
    have hx' := x.toNat_lt
    have hbase' : (0xFF4 : UInt32).toNat = 0xFF4 := rfl
    have htop' : (0xFE0 : UInt32).toNat = 0xFE0 := rfl
    unfold Written
    rw [hbase, htop]
    unfold InArea at *
    rw [UInt32.toNat_sub] at *
    rw [UInt32.toNat_sub]
    omega
  have hcalled : Called 0x4000 callOfFive := by
    refine ⟨rfl, rfl, rfl, rfl, ?_, ?_⟩
    · intro x hx
      exact hfar hx (by decide) (by decide)
    · intro x ⟨i, hi, hx⟩
      rw [hN] at hi
      have hplace : (UInt32.ofNat (4 * i)).toNat = 4 * i :=
        UInt32.toNat_ofNat_of_lt' (by show _ < 4294967296; omega)
      rw [hA, hB] at hx
      rcases hx with ha | hb
      · exact hfar (n := 20) (ha.of_part (by omega)) (by decide) (by decide)
      · exact hfar (n := 20) (hb.of_part (by omega)) (by decide) (by decide)
  obtain ⟨t, u, hsteps, _, hebx, _, _, hesp, hstep, _, hfpu, _⟩ :=
    dot_product_correct ⟨(· * ·), (· + ·)⟩ 0x4000 callOfFive hcalled
  exact ⟨t, u, hsteps, hebx, hesp, hstep, hfpu⟩

end HseDev.Sem10
