import HseDev.Lib.WordArray
import HseDev.Sem8.ReadWrite
import HseDev.Sem8.Quadruples

/-!
# HseDev — the two versions of `reverse` in `sem8`

Both read a count and as many numbers, and print the numbers from the last one to the first. The
array is a block of the heap in `reverse1.S` and a part of the stack in `reverse2.S`; the loops
are the same but for the register that holds its address.

* **`Code`** — what the loops need of a program.
* **`read_round`** / **`write_round`** — one round of each loop: the access to the array, and what
  else it leaves alone.
* **`read_rounds`** / **`write_rounds`** — any number of rounds, by induction.
-/

namespace HseDev.Sem8.Reverse

open X86 Assembly

/-! ## The programs

The two versions of the program. They differ in where the array is: in a block of `malloc`, or on
the stack. Their loops are the same text over another base register. -/

inductive Label where
  | read_int32
  | write_int32
  | main
  | read_loop
  | read_loop_end
  | write_loop
  | write_loop_end
  deriving DecidableEq, Repr

inductive Extern where
  | scanf
  | printf
  | malloc
  | free
  deriving DecidableEq, Repr

/-- `reverse1.S`; `SC` and `PR` are the addresses of the formats. -/
def reverse1 (SC PR : UInt32) : List (Instr Label Extern) :=
  [.label .read_int32,
   .alu .sub (.imm 12) .esp,
   .lea (based 8 .esp) .eax,
   .movlTo (.reg .eax) (based 4 .esp),
   .movlTo (.imm SC) (based 0 .esp),
   .callOut .scanf,
   .movl (.mem (based 8 .esp)) .eax,
   .alu .add (.imm 12) .esp,
   .ret,
   .label .write_int32,
   .alu .sub (.imm 12) .esp,
   .movlTo (.reg .eax) (based 4 .esp),
   .movlTo (.imm PR) (based 0 .esp),
   .callOut .printf,
   .alu .add (.imm 12) .esp,
   .ret,
   .label .main,
   .pushl .ebp,
   .pushl .ebx,
   .pushl .edi,
   .pushl .esi,
   .movl (.reg .esp) .ebp,
   .alu .and (.imm (-16)) .esp,
   .alu .sub (.imm 16) .esp,
   .call .read_int32,
   .movl (.reg .eax) .ebx,
   .lea { base := some .eax, index := some (.eax, 1) } .eax,
   .lea { base := some .eax, index := some (.eax, 1) } .eax,
   .movlTo (.reg .eax) (based 0 .esp),
   .callOut .malloc,
   .movl (.reg .eax) .edi,
   .alu .xor (.reg .esi) .esi,
   .label .read_loop,
   .cmpl (.reg .esi) .ebx,
   .jcc .e .read_loop_end,
   .call .read_int32,
   .movlTo (.reg .eax) (element .edi .esi),
   .inc .esi,
   .jmp .read_loop,
   .label .read_loop_end,
   .movl (.reg .esi) .eax,
   .label .write_loop,
   .testl .esi .esi,
   .jcc .e .write_loop_end,
   .dec .esi,
   .movl (.mem (element .edi .esi)) .eax,
   .call .write_int32,
   .jmp .write_loop,
   .label .write_loop_end,
   .movlTo (.reg .edi) (based 0 .esp),
   .callOut .free,
   .alu .xor (.reg .eax) .eax,
   .movl (.reg .ebp) .esp,
   .popl .esi,
   .popl .edi,
   .popl .ebx,
   .popl .ebp,
   .ret]

/-- `reverse2.S` -/
def reverse2 (SC PR : UInt32) : List (Instr Label Extern) :=
  [.label .read_int32,
   .alu .sub (.imm 12) .esp,
   .lea (based 8 .esp) .eax,
   .movlTo (.reg .eax) (based 4 .esp),
   .movlTo (.imm SC) (based 0 .esp),
   .callOut .scanf,
   .movl (.mem (based 8 .esp)) .eax,
   .alu .add (.imm 12) .esp,
   .ret,
   .label .write_int32,
   .alu .sub (.imm 12) .esp,
   .movlTo (.reg .eax) (based 4 .esp),
   .movlTo (.imm PR) (based 0 .esp),
   .callOut .printf,
   .alu .add (.imm 12) .esp,
   .ret,
   .label .main,
   .pushl .ebp,
   .pushl .ebx,
   .pushl .esi,
   .movl (.reg .esp) .ebp,
   .alu .and (.imm (-16)) .esp,
   .alu .sub (.imm 16) .esp,
   .call .read_int32,
   .movl (.reg .eax) .ebx,
   .lea { base := some .eax, index := some (.eax, 1) } .eax,
   .lea { base := some .eax, index := some (.eax, 1) } .eax,
   .alu .add (.imm 16) .eax,
   .alu .and (.imm (-16)) .eax,
   .alu .sub (.reg .eax) .esp,
   .alu .xor (.reg .esi) .esi,
   .label .read_loop,
   .cmpl (.reg .esi) .ebx,
   .jcc .e .read_loop_end,
   .call .read_int32,
   .movlTo (.reg .eax) (element .esp .esi),
   .inc .esi,
   .jmp .read_loop,
   .label .read_loop_end,
   .movl (.reg .esi) .eax,
   .label .write_loop,
   .testl .esi .esi,
   .jcc .e .write_loop_end,
   .dec .esi,
   .movl (.mem (element .esp .esi)) .eax,
   .call .write_int32,
   .jmp .write_loop,
   .label .write_loop_end,
   .alu .xor (.reg .eax) .eax,
   .movl (.reg .ebp) .esp,
   .popl .esi,
   .popl .ebx,
   .popl .ebp,
   .ret]

/-- The numbers that are still to be read, and those that have been printed. -/
abbrev World := Console UInt32 ℤ

/-- Where a program is loaded, and what it is linked with. -/
structure Image where
  text : UInt32
  SC : UInt32
  PR : UInt32
  out : Extern → State World → State World
  ops : DoubleOps

def Image.machine (I : Image) (prog : UInt32 → UInt32 → List (Instr Label Extern)) :
    Machine Label Extern World where
  prog := prog I.SC I.PR
  text := I.text
  out := I.out
  ops := I.ops

/-! ## The loops

The two loops, for any base register that the C library keeps. One round of each is a lemma; the
invariant says what the callee-saved registers are, which is all that survives a call. -/

/-- Both loops, over an array at `base`. -/
def loops (base : Reg) : List (Instr Label Extern) :=
  [.label .read_loop,
   .cmpl (.reg .esi) .ebx,
   .jcc .e .read_loop_end,
   .call .read_int32,
   .movlTo (.reg .eax) (element base .esi),
   .inc .esi,
   .jmp .read_loop,
   .label .read_loop_end,
   .movl (.reg .esi) .eax,
   .label .write_loop,
   .testl .esi .esi,
   .jcc .e .write_loop_end,
   .dec .esi,
   .movl (.mem (element base .esi)) .eax,
   .call .write_int32,
   .jmp .write_loop,
   .label .write_loop_end]

/-- A program with the loops at `k`. -/
structure Code (M : Machine Label Extern World) (SC PR : UInt32) (base : Reg) (k : ℕ) : Prop where
  read : Sem8.readInt32 .read_int32 .scanf SC <+: M.prog.drop 0
  readPlace : place M.prog .read_int32 = 0
  write : Sem8.writeInt32 .write_int32 .printf PR <+: M.prog.drop 9
  writePlace : place M.prog .write_int32 = 9
  loops : loops base <+: M.prog.drop k
  read_loop : place M.prog .read_loop = k
  read_loop_end : place M.prog .read_loop_end = k + 7
  write_loop : place M.prog .write_loop = k + 9
  write_loop_end : place M.prog .write_loop_end = k + 16
  short : k < 2 ^ 31
  base : base ∈ [Reg.edi, .esp]

theorem code1 (I : Image) : Code (I.machine reverse1) I.SC I.PR .edi 32 :=
  ⟨⟨_, rfl⟩, rfl, ⟨_, rfl⟩, rfl, ⟨_, rfl⟩, rfl, rfl, rfl, rfl, by decide, by decide⟩

theorem code2 (I : Image) : Code (I.machine reverse2) I.SC I.PR .esp 31 :=
  ⟨⟨_, rfl⟩, rfl, ⟨_, rfl⟩, rfl, ⟨_, rfl⟩, rfl, rfl, rfl, rfl, by decide, by decide⟩

/-- `scanf` and `printf`. -/
structure Stdio (M : Machine Label Extern World) (SC PR : UInt32) (depth : ℕ)
    (own : UInt32 → Prop) : Prop where
  scanf : Scans M .scanf SC [4] 4 load32 (fun v => [v]) depth own
  printf : Prints M .printf PR 8 (fun s => signed (s.argument 4)) depth own
  depth : depth ≤ 2 ^ 31

/-- In the loops that were entered at `c`, with `i` in `esi`. -/
structure InLoops (c : State World) (i : UInt32) (s : State World) : Prop where
  returned : s.returned = false
  depth : s.depth = 0
  saved : ∀ r ∈ [Reg.ebx, .edi, .ebp, .esp], s.reg r = c.reg r
  esi : s.reg .esi = i

section Rounds

variable {M : Machine Label Extern World} {SC PR : UInt32} {base : Reg} {k depth : ℕ}
  {own : UInt32 → Prop} {c s : State World} {i : UInt32}

/-- A jump inside the loops changes the place and the flags only. -/
theorem InLoops.jump (h : InLoops c i s) (pc : ℕ) (flags : Flags) :
    InLoops c i { s with pc, flags } :=
  ⟨h.returned, h.depth, h.saved, h.esi⟩

theorem InLoops.back {n : ℕ} {t : State World} (h : InLoops c i s) (hback : Back n own s t) :
    InLoops c i t where
  returned := hback.returned
  depth := hback.depth.trans h.depth
  saved r hr := by
    have hcallee : r ∈ calleeSaved := by
      revert hr
      cases r <;> decide
    exact (hback.saved r hcallee).trans (h.saved r hr)
  esi := (hback.saved .esi (by decide)).trans h.esi

/-- The base register survives a call of the library. -/
theorem Code.base_saved (hM : Code M SC PR base k) : base ∈ [Reg.ebx, .edi, .ebp, .esp] := by
  have hbase := hM.base
  revert hbase
  cases base <;> decide

/-- The access to an element of the array. -/
def elementAccess (base : Reg) (b j : UInt32) (store : Bool) : Assembly.Access :=
  ⟨element base .esi, b + j * 4, 4, store⟩

/-- The head of the first loop: it goes on until the count is reached. -/
theorem read_test (hM : Code M SC PR base k) (h : InLoops c i s) (hpc : s.pc = k) :
    ∃ flags, Steps M s { s with pc := if c.reg .ebx = i then k + 7 else k + 3, flags } := by
  set u := run M [.label .read_loop, .cmpl (.reg .esi) .ebx] s with hu
  have hblock : Steps M s u :=
    Steps.block k (piece_drop hM.loops 0 ⟨_, rfl⟩) rfl hpc h.returned
  have hpcu : u.pc = k + 2 := by
    rw [hu, run_pc, hpc]
    rfl
  have hcode : M.prog[u.pc]? = some (.jcc .e .read_loop_end) := by
    rw [hpcu]
    exact piece_get hM.loops 2 rfl
  have hflags : Cond.e.holds u.flags = true ↔ c.reg .ebx = i := by
    rw [← h.saved .ebx (by decide), ← h.esi]
    exact Cond.holds_e
  have hbranch := Steps.branch hcode h.returned hflags
  rw [hM.read_loop_end, hpcu] at hbranch
  exact ⟨u.flags, hblock.trans hbranch⟩

/-- **One round of the first loop**: a number goes to the array. The one store of the round is at
the index, and the call before it leaves everything above the stack alone, if the array is there. -/
theorem read_round (hM : Code M SC PR base k) (hlib : Stdio M SC PR depth own)
    (hown : ∀ x, Below (c.reg .esp) 16 x → ¬ own x) (h : InLoops c i s) (hpc : s.pc = k)
    (hi : c.reg .ebx ≠ i) :
    ∃ t m v, Steps M s t ∧ InLoops c (i + 1) t ∧ t.pc = k ∧
      Untouched (c.reg .esp) (16 + depth) own s.mem m ∧
      t.mem = store32 m (c.reg base + i * 4) v ∧
      elements t.log = elements s.log ++ [elementAccess base (c.reg base) i true] ∧
      ∀ x rest, s.world.input = x :: rest →
        v = x ∧ t.world = { s.world with input := rest } := by
  obtain ⟨flags, htest⟩ := read_test hM h hpc
  rw [if_neg hi] at htest
  set a : State World := { s with pc := k + 3, flags } with ha
  have hesp : a.reg .esp = c.reg .esp := h.saved .esp (by decide)
  have hcall : M.prog[a.pc]? = some (.call .read_int32) := piece_get hM.loops 3 rfl
  have hshort := hM.short
  obtain ⟨b, hread, hback, hvalue⟩ :=
    readInt32_spec hlib.scanf hlib.depth hM.read hM.readPlace hcall
      (by show k + 3 + 1 < 2 ^ 32; omega) h.returned (hesp ▸ hown)
  have hb := (h.jump (k + 3) flags).back hback
  set t := run M [.movlTo (.reg .eax) (element base .esi), .inc .esi] b with ht
  have hstore : Steps M b t :=
    Steps.block (k + 4) (piece_drop hM.loops 4 ⟨_, rfl⟩) rfl hback.pc hb.returned
  have hpct : t.pc = k + 6 := by
    rw [ht, run_pc, hback.pc]
    rfl
  have hjmp : M.prog[t.pc]? = some (.jmp .read_loop) := by
    rw [hpct]
    exact piece_get hM.loops 6 rfl
  have hagain : Steps M t { t with pc := place M.prog .read_loop } := Steps.jmp hjmp hb.returned
  -- The call has kept the registers of the address.
  have haddr : (element base .esi).eval b.reg = c.reg base + i * 4 := by
    rw [eval_element, hb.saved base hM.base_saved, hb.esi]
  have hmem : t.mem = store32 b.mem (c.reg base + i * 4) (b.reg .eax) := by
    rw [← haddr]
    rfl
  have hlog : elements t.log = elements s.log ++ [elementAccess base (c.reg base) i true] := by
    show elements (b.log ++ [⟨element base .esi, (element base .esi).eval b.reg, 4, true⟩]) = _
    rw [haddr, elements_append, hback.log]
    rfl
  have hmemory : Untouched (c.reg .esp) (16 + depth) own s.mem b.mem := hesp ▸ hback.memory
  have hnext : InLoops c (i + 1) { t with pc := place M.prog .read_loop } := by
    refine ⟨hb.returned, hb.depth, fun r hr => ?_, congrArg (· + 1) hb.esi⟩
    exact (setReg_of_mem hr (by decide) _ _).trans (hb.saved r hr)
  exact ⟨_, b.mem, b.reg .eax, ((htest.trans hread).trans hstore).trans hagain, hnext,
    hM.read_loop, hmemory, hmem, hlog, hvalue⟩

theorem between_spec (hM : Code M SC PR base k) (h : InLoops c i s) (hpc : s.pc = k)
    (hi : c.reg .ebx = i) :
    ∃ t, Steps M s t ∧ InLoops c i t ∧ t.pc = k + 9 ∧ t.mem = s.mem ∧ t.log = s.log ∧
      t.world = s.world := by
  obtain ⟨flags, htest⟩ := read_test hM h hpc
  rw [if_pos hi] at htest
  set t := run M [.label .read_loop_end, .movl (.reg .esi) .eax]
    { s with pc := k + 7, flags } with ht
  have hblock : Steps M { s with pc := k + 7, flags } t :=
    Steps.block (k + 7) (piece_drop hM.loops 7 ⟨_, rfl⟩) rfl rfl h.returned
  have hkept : InLoops c i t := by
    refine ⟨h.returned, h.depth, fun r hr => ?_, h.esi⟩
    exact (setReg_of_mem hr (by decide) _ _).trans (h.saved r hr)
  exact ⟨t, htest.trans hblock, hkept, rfl, rfl, rfl, rfl⟩

/-- The head of the second loop: it goes on until the index is zero. -/
theorem write_test (hM : Code M SC PR base k) (h : InLoops c i s) (hpc : s.pc = k + 9) :
    ∃ flags, Steps M s { s with pc := if i = 0 then k + 16 else k + 12, flags } := by
  set u := run M [.label .write_loop, .testl .esi .esi] s with hu
  have hblock : Steps M s u :=
    Steps.block (k + 9) (piece_drop hM.loops 9 ⟨_, rfl⟩) rfl hpc h.returned
  have hpcu : u.pc = k + 11 := by
    rw [hu, run_pc, hpc]
    rfl
  have hcode : M.prog[u.pc]? = some (.jcc .e .write_loop_end) := by
    rw [hpcu]
    exact piece_get hM.loops 11 rfl
  have hflags : Cond.e.holds u.flags = true ↔ i = 0 := by
    show Cond.e.holds (.logic (s.reg .esi &&& s.reg .esi)) = true ↔ i = 0
    rw [Cond.holds_e_logic, UInt32.and_self, h.esi]
  have hbranch := Steps.branch hcode h.returned hflags
  rw [hM.write_loop_end, hpcu] at hbranch
  exact ⟨u.flags, hblock.trans hbranch⟩

theorem load_spec (hM : Code M SC PR base k) (h : InLoops c i s) (hpc : s.pc = k + 12) :
    ∃ t, Steps M s t ∧ InLoops c (i - 1) t ∧ t.pc = k + 14 ∧ t.mem = s.mem ∧
      t.reg .eax = load32 s.mem (c.reg base + (i - 1) * 4) ∧
      elements t.log = elements s.log ++ [elementAccess base (c.reg base) (i - 1) false] ∧
      t.world = s.world := by
  set u := run M [.dec .esi] s with hu
  have hdec : Steps M s u :=
    Steps.block (k + 12) (piece_drop hM.loops 12 ⟨_, rfl⟩) rfl hpc h.returned
  have hpcu : u.pc = k + 13 := by
    rw [hu, run_pc, hpc]
    rfl
  have hsaved : ∀ r ∈ [Reg.ebx, .edi, .ebp, .esp], u.reg r = c.reg r := by
    intro r hr
    exact (setReg_of_mem hr (by decide) _ _).trans (h.saved r hr)
  have hesi : u.reg .esi = i - 1 := congrArg (· - 1) h.esi
  have haddr : (element base .esi).eval u.reg = c.reg base + (i - 1) * 4 := by
    rw [eval_element, hsaved base hM.base_saved, hesi]
  set t := run M [.movl (.mem (element base .esi)) .eax] u with ht
  have hload : Steps M u t :=
    Steps.block (k + 13) (piece_drop hM.loops 13 ⟨_, rfl⟩) rfl hpcu h.returned
  have hpct : t.pc = k + 14 := by
    rw [ht, run_pc, hpcu]
    rfl
  have hkept : InLoops c (i - 1) t := by
    refine ⟨h.returned, h.depth, fun r hr => ?_, hesi⟩
    exact (setReg_of_mem hr (by decide) _ _).trans (hsaved r hr)
  have heax : t.reg .eax = load32 s.mem (c.reg base + (i - 1) * 4) := by
    rw [← haddr]
    rfl
  have hlog : elements t.log =
      elements s.log ++ [elementAccess base (c.reg base) (i - 1) false] := by
    show elements (s.log ++ [⟨element base .esi, (element base .esi).eval u.reg, 4, false⟩]) = _
    rw [haddr, elements_append]
    rfl
  exact ⟨t, hdec.trans hload, hkept, hpct, rfl, heax, hlog, rfl⟩

/-- **One round of the second loop**: an element is printed. The one load of the round is at the
index below, and the array stays as it is. -/
theorem write_round (hM : Code M SC PR base k) (hlib : Stdio M SC PR depth own)
    (hown : ∀ x, Below (c.reg .esp) 16 x → ¬ own x) (h : InLoops c i s) (hpc : s.pc = k + 9)
    (hi : i ≠ 0) :
    ∃ t, Steps M s t ∧ InLoops c (i - 1) t ∧ t.pc = k + 9 ∧
      Untouched (c.reg .esp) (16 + depth) own s.mem t.mem ∧
      elements t.log = elements s.log ++ [elementAccess base (c.reg base) (i - 1) false] ∧
      t.world = { s.world with output := s.world.output ++
        [signed (load32 s.mem (c.reg base + (i - 1) * 4))] } := by
  obtain ⟨flags, htest⟩ := write_test hM h hpc
  rw [if_neg hi] at htest
  obtain ⟨a, hload, ha, hpca, hmema, heaxa, hloga, hworlda⟩ :=
    load_spec hM (h.jump (k + 12) flags) rfl
  have hesp : a.reg .esp = c.reg .esp := ha.saved .esp (by decide)
  -- the call keeps the index, which is in a callee-saved register
  have hcall : M.prog[a.pc]? = some (.call .write_int32) := by
    rw [hpca]
    exact piece_get hM.loops 14 rfl
  have hshort := hM.short
  obtain ⟨b, hwrite, hback, hworld⟩ :=
    writeInt32_spec hlib.printf hlib.depth hM.write hM.writePlace hcall
      (by rw [hpca]; omega) ha.returned (hesp ▸ hown)
  have hb := ha.back hback
  have hpcb : b.pc = k + 15 := by
    rw [hback.pc, hpca]
  have hjmp : M.prog[b.pc]? = some (.jmp .write_loop) := by
    rw [hpcb]
    exact piece_get hM.loops 15 rfl
  have hagain : Steps M b { b with pc := place M.prog .write_loop } := Steps.jmp hjmp hb.returned
  have hmemory : Untouched (c.reg .esp) (16 + depth) own s.mem b.mem := by
    rw [← hesp]
    exact hmema ▸ hback.memory
  rw [hworlda, heaxa] at hworld
  exact ⟨_, ((htest.trans hload).trans hwrite).trans hagain, hb.jump _ b.flags, hM.write_loop,
    hmemory, hback.log.trans hloga, hworld⟩

end Rounds

/-! ## Whole loops

The rounds put together, by induction on their number. The first loop fills the array from its
beginning, the second empties it from its end, so the output is the input backwards. -/

/-- The accesses of `j` rounds of the first loop. -/
def stores (base : Reg) (b : UInt32) (j : ℕ) : List Assembly.Access :=
  (List.range j).map fun i => elementAccess base b (UInt32.ofNat i) true

/-- The accesses of `j` rounds of the second loop, down to the first element. -/
def loads (base : Reg) (b : UInt32) (j : ℕ) : List Assembly.Access :=
  (List.range j).reverse.map fun i => elementAccess base b (UInt32.ofNat i) false

/-- The array of `n` words lies apart from the stack below the loops and from the data of the
library. -/
structure Placed (depth : ℕ) (own : UInt32 → Prop) (e b : UInt32) (n : ℕ) : Prop where
  short : n ≤ 2 ^ 30
  stack : ∀ x, InArea b (4 * n) x → ¬ Below e (16 + depth) x
  own : ∀ x, InArea b (4 * n) x → ¬ own x

section Runs

variable {M : Machine Label Extern World} {SC PR : UInt32} {base : Reg} {k depth n : ℕ}
  {own : UInt32 → Prop} {c s : State World}

/-- One more round of the first loop is one more store, at the end. -/
theorem stores_succ (base : Reg) (b : UInt32) (j : ℕ) :
    stores base b (j + 1) = stores base b j ++ [elementAccess base b (UInt32.ofNat j) true] := by
  rw [stores, List.range_succ, List.map_append]
  rfl

/-- One more round of the second loop is one more load, at the beginning. -/
theorem loads_succ (base : Reg) (b : UInt32) (j : ℕ) :
    loads base b (j + 1) = elementAccess base b (UInt32.ofNat j) false :: loads base b j := by
  rw [loads, List.range_succ, List.reverse_append, List.map_append]
  rfl

theorem ofNat_succ (j : ℕ) : UInt32.ofNat j + 1 = UInt32.ofNat (j + 1) :=
  (UInt32.ofNat_add j 1).symm

/-- The numbers that have been read are in the array, and nothing else has changed but the stack
below and the data of the library. -/
structure Filled (depth : ℕ) (own : UInt32 → Prop) (c : State World) (b : UInt32) (n : ℕ)
    (vs rest : List UInt32) (s : State World) : Prop where
  words : words s.mem b vs.length = vs
  memory : Untouched (c.reg .esp) (16 + depth) (fun x => own x ∨ InArea b (4 * n) x) c.mem s.mem
  world : s.world = { c.world with input := rest }

/-- One more word in the array, if the store into it leaves the earlier ones alone. -/
theorem Filled.step {b v : UInt32} {vs rest : List UInt32} {m : Memory} {t : State World}
    (h : Filled depth own c b n vs (v :: rest) s)
    (hplaced : Placed depth own (c.reg .esp) b n) (hlen : vs.length < n)
    (hm : Untouched (c.reg .esp) (16 + depth) own s.mem m)
    (hmem : t.mem = store32 m (b + UInt32.ofNat vs.length * 4) v)
    (hworld : t.world = { s.world with input := rest }) :
    Filled depth own c b n (vs ++ [v]) rest t where
  words := by
    have hshort := hplaced.short
    -- `scanf` has run since the last store, but it leaves the array alone.
    have hbefore : X86.words m b vs.length = vs := by
      rw [words_congr (by omega), h.words]
      intro x hx
      have hin : InArea b (4 * n) x := Nat.lt_of_lt_of_le hx (by omega)
      exact hm x (hplaced.stack x hin) (hplaced.own x hin)
    rw [hmem, List.length_append, List.length_singleton, words_store m b v (by omega), hbefore]
  memory := by
    have hshort := hplaced.short
    apply h.memory.trans
    intro x hx hown
    rw [hmem, store32, storeBytes_outside]
    · exact hm x hx fun h => hown (.inl h)
    · exact fun hin => hown (.inr (inArea_word hin hlen hshort))
  world := by
    rw [hworld, h.world]

/-- **The first loop**, by induction on the rounds. -/
theorem read_rounds (hM : Code M SC PR base k) (hlib : Stdio M SC PR depth own)
    (hown : ∀ x, Below (c.reg .esp) 16 x → ¬ own x) (hc : InLoops c 0 c) (hpc : c.pc = k) (j : ℕ)
    (hj : j ≤ (c.reg .ebx).toNat) :
    ∃ s, Steps M c s ∧ InLoops c (UInt32.ofNat j) s ∧ s.pc = k ∧
      elements s.log = elements c.log ++ stores base (c.reg base) j ∧
      ∀ vs rest, vs.length = j → c.world.input = vs ++ rest →
        Placed depth own (c.reg .esp) (c.reg base) (c.reg .ebx).toNat →
        Filled depth own c (c.reg base) (c.reg .ebx).toNat vs rest s := by
  induction j with
  | zero =>
    refine ⟨c, .refl, hc, hpc, (List.append_nil _).symm, fun vs rest hlen hinput _ => ?_⟩
    obtain rfl := List.length_eq_zero_iff.mp hlen
    refine ⟨rfl, Untouched.refl _ _ _ _, ?_⟩
    rw [← show c.world.input = rest from hinput]
  | succ j ih =>
    obtain ⟨s, hsteps, hs, hpcs, hlog, hfilled⟩ := ih (by omega)
    -- The index has not reached the count yet, so the loop goes on.
    have hne : c.reg .ebx ≠ UInt32.ofNat j := by
      intro heq
      rw [heq, UInt32.toNat_ofNat'] at hj
      have hmod := Nat.mod_le j (2 ^ 32)
      omega
    obtain ⟨t, m, v, hround, ht, hpct, hm, hmem, hlogt, hvalue⟩ :=
      read_round hM hlib hown hs hpcs hne
    rw [ofNat_succ] at ht
    refine ⟨t, hsteps.trans hround, ht, hpct, ?_, fun vs rest hlen hinput hplaced => ?_⟩
    · rw [hlogt, hlog, stores_succ, List.append_assoc]
    · -- The last number is the one that this round has read.
      obtain ⟨ws, w, rfl⟩ : ∃ ws w, vs = ws ++ [w] := by
        refine ⟨vs.dropLast, vs.getLast ?_, (List.dropLast_append_getLast _).symm⟩
        rintro rfl
        cases hlen
      rw [List.length_append, List.length_singleton, Nat.succ_inj] at hlen
      rw [List.append_assoc] at hinput
      have hbefore := hfilled ws (w :: rest) hlen hinput hplaced
      obtain ⟨rfl, hworld⟩ := hvalue w rest (congrArg Console.input hbefore.world)
      rw [← hlen] at hmem
      exact hbefore.step hplaced (by omega) hm hmem hworld

/-- **The second loop**, by induction on the elements that are left. -/
theorem write_rounds (hM : Code M SC PR base k) (hlib : Stdio M SC PR depth own)
    (hown : ∀ x, Below (c.reg .esp) 16 x → ¬ own x) (j : ℕ) (hj : j < 2 ^ 32)
    (hs : InLoops c (UInt32.ofNat j) s) (hpc : s.pc = k + 9) :
    ∃ t, Steps M s t ∧ InLoops c 0 t ∧ t.pc = k + 9 ∧
      elements t.log = elements s.log ++ loads base (c.reg base) j ∧
      Untouched (c.reg .esp) (16 + depth) own s.mem t.mem ∧
      (Placed depth own (c.reg .esp) (c.reg base) j → t.world = { s.world with
        output := s.world.output ++ (words s.mem (c.reg base) j).reverse.map signed }) := by
  induction j generalizing s with
  | zero =>
    refine ⟨s, .refl, hs, hpc, (List.append_nil _).symm, Untouched.refl _ _ _ _, fun _ => ?_⟩
    show s.world = { s.world with output := s.world.output ++ [] }
    rw [List.append_nil]
  | succ j ih =>
    have hne : UInt32.ofNat (j + 1) ≠ 0 := by
      intro heq
      have hzero := congrArg UInt32.toNat heq
      rw [UInt32.toNat_ofNat_of_lt' (by exact hj)] at hzero
      cases hzero
    have hpred : UInt32.ofNat (j + 1) - 1 = UInt32.ofNat j := by
      rw [← ofNat_succ, UInt32.add_sub_cancel]
    obtain ⟨u, hround, hu, hpcu, hmu, hlogu, hworldu⟩ :=
      write_round hM hlib hown hs hpc hne
    rw [hpred] at hu hlogu hworldu
    obtain ⟨t, hsteps, ht, hpct, hlogt, hmt, hworldt⟩ := ih (by omega) hu hpcu
    refine ⟨t, hround.trans hsteps, ht, hpct, ?_, hmu.trans hmt, fun hplaced => ?_⟩
    · rw [hlogt, hlogu, loads_succ, List.append_assoc]
      rfl
    · have hshort := hplaced.short
      have hless : Placed depth own (c.reg .esp) (c.reg base) j :=
        ⟨by omega, fun x hx => hplaced.stack x (Nat.lt_of_lt_of_le hx (by omega)),
          fun x hx => hplaced.own x (Nat.lt_of_lt_of_le hx (by omega))⟩
      -- The call has written below the stack pointer only, where the array is not.
      have hwords : words u.mem (c.reg base) j = words s.mem (c.reg base) j :=
        words_congr (by omega) fun x hx => hmu x (hless.stack x hx) (hless.own x hx)
      rw [hworldt hless, hwords, words_succ, List.reverse_append, hworldu]
      show Console.mk _ _ = Console.mk _ _
      rw [List.append_assoc]
      rfl

/-- **Both loops.** Their accesses to the array, for any count; and, if the count is the number of
values and the array is apart from the stack, the output: the values backwards. -/
theorem loops_spec (hM : Code M SC PR base k) (hlib : Stdio M SC PR depth own)
    (hown : ∀ x, Below (c.reg .esp) 16 x → ¬ own x) (hc : InLoops c 0 c) (hpc : c.pc = k) :
    ∃ t, Steps M c t ∧ InLoops c 0 t ∧ t.pc = k + 16 ∧
      elements t.log = elements c.log ++ stores base (c.reg base) (c.reg .ebx).toNat ++
        loads base (c.reg base) (c.reg .ebx).toNat ∧
      ∀ vs rest, vs.length = (c.reg .ebx).toNat → c.world.input = vs ++ rest →
        Placed depth own (c.reg .esp) (c.reg base) (c.reg .ebx).toNat →
        Untouched (c.reg .esp) (16 + depth)
          (fun x => own x ∨ InArea (c.reg base) (4 * (c.reg .ebx).toNat) x) c.mem t.mem ∧
        t.world = { input := rest, output := c.world.output ++ vs.reverse.map signed } := by
  have hn := (c.reg .ebx).toNat_lt
  have hofNat : UInt32.ofNat (c.reg .ebx).toNat = c.reg .ebx := UInt32.ofNat_toNat
  obtain ⟨a, hread, ha, hpca, hloga, hfilled⟩ :=
    read_rounds hM hlib hown hc hpc (c.reg .ebx).toNat le_rfl
  -- between the loops the index is the count, where the second loop starts
  obtain ⟨b, hbetween, hb, hpcb, hmemb, hlogb, hworldb⟩ :=
    between_spec hM ha hpca hofNat.symm
  obtain ⟨d, hwrite, hd, hpcd, hlogd, hmd, hworldd⟩ :=
    write_rounds hM hlib hown (c.reg .ebx).toNat hn hb hpcb
  obtain ⟨flags, htest⟩ := write_test hM hd hpcd
  rw [if_pos rfl] at htest
  refine ⟨_, ((hread.trans hbetween).trans hwrite).trans htest, hd.jump _ _, rfl, ?_, ?_⟩
  · show elements d.log = _
    rw [hlogd, hlogb, hloga]
  · intro vs rest hlen hinput hplaced
    -- the array holds the values in their order, and is emptied from its end
    have hvs := hfilled vs rest hlen hinput hplaced
    constructor
    · show Untouched _ _ _ c.mem d.mem
      rw [hmemb] at hmd
      exact hvs.memory.trans fun x hx hown => hmd x hx fun h => hown (.inl h)
    · show d.world = _
      have hwords := hvs.words
      rw [hlen] at hwords
      rw [hworldd hplaced, hmemb, hworldb, hvs.world, hwords]

end Runs

end HseDev.Sem8.Reverse
