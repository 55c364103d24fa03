import HseDev.Lib.CallFrame
import HseDev.Sem8.Quadruples

/-!
# HseDev — the overlap of intervals of `sem9/minmax.S`

The program of `sem8/minmax.S` on doubles. What `comisd`, `subsd` and `maxsd` do with two patterns
is a parameter, and so are the two functions of the C library.

* **`maximum`** / **`minimum`** — the selections, as the routines of the same names make them.
* **`overlap`** — the pattern that is in `xmm0` when it is to be printed.
* **`write_value_spec`** — what `printf` receives: the low half of that pattern, with the word
  that lies on the stack above it.
* **`main_spec`** — what a run prints, in terms of the words that `scanf` leaves on the stack.
* **`main_prints`** — no quadruple is printed right whatever these words are.
-/

namespace HseDev.Sem9.MinMax

open X86 Assembly HseDev.Sem8

/-! ## The program

The text of `minmax.S` for doubles. The structure is that of the program for integers; what is new
are the `xmm` registers, which no call has to keep. -/

inductive Label where
  | write_value
  | maximum
  | maximum_end
  | minimum
  | minimum_end
  | main
  | loop_begin
  | loop_end
  deriving DecidableEq, Repr

inductive Extern where
  | scanf
  | printf
  deriving DecidableEq, Repr

/-- The text; `SC` and `PR` are the addresses of the formats, `ZERO` is that of eight bytes of
data. -/
def program (SC PR ZERO : UInt32) : List (Instr Label Extern) :=
  [.label .write_value,
   .alu .sub (.imm 12) .esp,
   .movd .xmm0 (based 4 .esp),
   .movlTo (.imm PR) (based 0 .esp),
   .callOut .printf,
   .alu .add (.imm 12) .esp,
   .ret,
   .label .maximum,
   .comisd .xmm0 .xmm1,
   .jcc .be .maximum_end,
   .movsd .xmm1 .xmm0,
   .label .maximum_end,
   .ret,
   .label .minimum,
   .comisd .xmm0 .xmm1,
   .jcc .ae .minimum_end,
   .movsd .xmm1 .xmm0,
   .label .minimum_end,
   .ret,
   .label .main,
   .pushl .ebp,
   .pushl .ebx,
   .pushl .edi,
   .pushl .esi,
   .movl (.reg .esp) .ebp,
   .alu .and (.imm (-16)) .esp,
   .alu .sub (.imm 64) .esp,
   .label .loop_begin,
   .movlTo (.imm SC) (based 0 .esp),
   .lea (based 20 .esp) .eax,
   .movlTo (.reg .eax) (based 4 .esp),
   .lea (based 28 .esp) .eax,
   .movlTo (.reg .eax) (based 8 .esp),
   .lea (based 36 .esp) .eax,
   .movlTo (.reg .eax) (based 12 .esp),
   .lea (based 44 .esp) .eax,
   .movlTo (.reg .eax) (based 16 .esp),
   .callOut .scanf,
   .cmpl (.imm 4) .eax,
   .jcc .ne .loop_end,
   .movsdLoad (based 20 .esp) .xmm0,
   .movsdLoad (based 36 .esp) .xmm1,
   .call .maximum,
   .movsd .xmm0 .xmm2,
   .movsdLoad (based 28 .esp) .xmm0,
   .movsdLoad (based 44 .esp) .xmm1,
   .call .minimum,
   .subsd .xmm2 .xmm0,
   .movsdLoad { disp := ZERO } .xmm1,
   .maxsd .xmm1 .xmm0,
   .call .write_value,
   .jmp .loop_begin,
   .label .loop_end,
   .alu .xor (.reg .eax) .eax,
   .movl (.reg .ebp) .esp,
   .popl .esi,
   .popl .edi,
   .popl .ebx,
   .popl .ebp,
   .ret]

structure Quad where
  l1 : UInt64
  r1 : UInt64
  l2 : UInt64
  r2 : UInt64
  deriving DecidableEq, Repr

def Quad.values (q : Quad) : List UInt64 :=
  [q.l1, q.r1, q.l2, q.r2]

/-- The quadruples that are still to be read, each with the word that `scanf` leaves on the stack
eight bytes below its arguments, and the patterns that `printf` has received. -/
abbrev World := Console (Quad × UInt32) UInt64

def Group.values (g : Quad × UInt32) : List UInt64 :=
  g.1.values

/-- The program in memory, with what it is linked with. -/
structure Image where
  text : UInt32
  SC : UInt32
  PR : UInt32
  ZERO : UInt32
  out : Extern → State World → State World
  ops : DoubleOps

def Image.machine (I : Image) : Machine Label Extern World where
  prog := program I.SC I.PR I.ZERO
  text := I.text
  out := I.out
  ops := I.ops

/-- The C library: `%lf%lf%lf%lf` is read; the argument of `%.10g` takes eight bytes. -/
structure Libc (I : Image) (depth : ℕ) (own : UInt32 → Prop) : Prop where
  scanf : Scans I.machine .scanf I.SC [4, 8, 12, 16] 8 load64 Group.values depth own
  residue : ∀ s g rest, s.argument 0 = I.SC → Separate [4, 8, 12, 16] 8 depth own s →
    s.world.input = g :: rest → load32 (I.out .scanf s).mem (s.reg .esp - 8) = g.2
  printf : Prints I.machine .printf I.PR 12 (fun s => load64 s.mem (s.reg .esp + 4)) depth own
  depth : depth ≤ 2 ^ 31

/-! ## What is computed

The operations on doubles are parameters, as the arithmetic itself is not in question here. The
printed value has its lower half from the computation and its upper half from what happens to be on
the stack. -/

/-- `maximum` of `xmm0` and `xmm1`. -/
def maximum (ops : DoubleOps) (xmm0 xmm1 : UInt64) : UInt64 :=
  match ops.compare xmm1 xmm0 with
  | .greater => xmm1
  | .less | .equal | .unordered => xmm0

/-- `minimum` of `xmm0` and `xmm1`. -/
def minimum (ops : DoubleOps) (xmm0 xmm1 : UInt64) : UInt64 :=
  match ops.compare xmm1 xmm0 with
  | .greater | .equal => xmm0
  | .less | .unordered => xmm1

/-- What `main` computes in `xmm0`. -/
def Quad.overlap (ops : DoubleOps) (q : Quad) : UInt64 :=
  ops.max (ops.sub (minimum ops q.r1 q.r2) (maximum ops q.l1 q.l2)) 0

/-! ## The routines

The selections, and the routine that prints: of the argument of `printf` it stores the lower half
only. -/

section Selections

variable {I : Image} {s : State World} {d k : ℕ}

/-- A routine that keeps `xmm0` or takes `xmm1` in its place, by a comparison. -/
def selection (l : Label) (c : Cond) (l_end : Label) : List (Instr Label Extern) :=
  [.label l, .comisd .xmm0 .xmm1, .jcc c l_end, .movsd .xmm1 .xmm0, .label l_end, .ret]

/-- What such a routine leaves behind: the selected pattern in `xmm0`. -/
structure Selected (s : State World) (d k : ℕ) (v : UInt64) (t : State World) : Prop where
  left : Left s d k t
  xmm0 : t.xmm .xmm0 = v
  xmm2 : t.xmm .xmm2 = s.xmm .xmm2
  mem : t.mem = s.mem
  world : t.world = s.world

theorem selection_spec {l l_end : Label} {c : Cond} (start : ℕ) (hk : k < 2 ^ 32)
    (h : Entered I.machine l d k s)
    (hcode : selection l c l_end <+: I.machine.prog.drop start)
    (hplace : place I.machine.prog l = start)
    (hplace_end : place I.machine.prog l_end = start + 4) :
    ∃ t, Steps I.machine s t ∧ Selected s d k
      (if c.holds (Flags.compare (I.ops.compare (s.xmm .xmm1) (s.xmm .xmm0))) then s.xmm .xmm0
        else s.xmm .xmm1) t := by
  set flags := Flags.compare (I.ops.compare (s.xmm .xmm1) (s.xmm .xmm0))
  obtain ⟨t, hsteps, hchosen⟩ := selects_spec flags h hk hcode hplace hplace_end ⟨rfl, rfl⟩
    (fun _ => rfl) fun _ => ⟨rfl, rfl, rfl⟩
  refine ⟨t, hsteps, hchosen.left, ?_, ?_, hchosen.mem, hchosen.world⟩
  · rw [hchosen.xmm]
    split <;> rfl
  · rw [hchosen.xmm]
    split <;> rfl

/-- `maximum` returns one of the two `xmm` registers, as the comparison says. -/
theorem maximum_spec (hk : k < 2 ^ 32) (h : Entered I.machine .maximum d k s) :
    ∃ t, Steps I.machine s t ∧
      Selected s d k (maximum I.ops (s.xmm .xmm0) (s.xmm .xmm1)) t := by
  obtain ⟨t, hsteps, hselected⟩ := selection_spec (c := .be) 7 hk h ⟨_, rfl⟩ rfl rfl
  have hkept : (if Cond.be.holds (Flags.compare (I.ops.compare (s.xmm .xmm1) (s.xmm .xmm0)))
      then s.xmm .xmm0 else s.xmm .xmm1) = maximum I.ops (s.xmm .xmm0) (s.xmm .xmm1) := by
    unfold maximum
    cases I.ops.compare (s.xmm .xmm1) (s.xmm .xmm0) <;> rfl
  rw [hkept] at hselected
  exact ⟨t, hsteps, hselected⟩

theorem minimum_spec (hk : k < 2 ^ 32) (h : Entered I.machine .minimum d k s) :
    ∃ t, Steps I.machine s t ∧
      Selected s d k (minimum I.ops (s.xmm .xmm0) (s.xmm .xmm1)) t := by
  obtain ⟨t, hsteps, hselected⟩ := selection_spec (c := .ae) 13 hk h ⟨_, rfl⟩ rfl rfl
  have hkept : (if Cond.ae.holds (Flags.compare (I.ops.compare (s.xmm .xmm1) (s.xmm .xmm0)))
      then s.xmm .xmm0 else s.xmm .xmm1) = minimum I.ops (s.xmm .xmm0) (s.xmm .xmm1) := by
    unfold minimum
    cases I.ops.compare (s.xmm .xmm1) (s.xmm .xmm0) <;> rfl
  rw [hkept] at hselected
  exact ⟨t, hsteps, hselected⟩

end Selections

section Writing

variable {I : Image} {s : State World} {depth : ℕ} {own : UInt32 → Prop}

/-- The low half of `xmm0` is stored as an argument. -/
theorem prepare_value {v : State World} (h : Framed I.machine s v) (own : UInt32 → Prop)
    (hpcv : v.pc = 2) :
    ∃ u, Steps I.machine v u ∧ u.pc = 4 ∧
      Prepared I.machine own s I.PR (lowHalf (v.xmm .xmm0)) u := by
  set u := run I.machine [.movd .xmm0 (based 4 .esp), .movlTo (.imm I.PR) (based 0 .esp)] v with hu
  have hblock : Steps I.machine v u := Steps.block 2 ⟨_, rfl⟩ rfl hpcv h.returned
  have hpcu : u.pc = 4 := by
    rw [hu, run_pc, hpcv]
    rfl
  have hmem : u.mem = store32 (store32 v.mem (v.reg .esp + 4) (lowHalf (v.xmm .xmm0)))
      (v.reg .esp + 0) I.PR := by
    rw [← eval_based, ← eval_based]
    rfl
  have hlog : elements u.log = elements v.log := by
    show elements (v.log ++ [_] ++ [_]) = _
    rw [elements_append, elements_append]
    exact (List.append_nil _).trans (List.append_nil _)
  exact ⟨u, hblock, hpcu, h.prepared own hmem rfl rfl rfl hlog rfl⟩

/-- **`write_value`**: half of what `printf` receives is in `xmm0`, the other half on the stack. -/
theorem write_value_spec (hlib : Libc I depth own)
    (hcall : I.machine.prog[s.pc]? = some (.call .write_value)) (hpc : s.pc + 1 < 2 ^ 32)
    (hrun : s.returned = false) (hown : ∀ x, Below (s.reg .esp) 16 x → ¬ own x) :
    ∃ t, Steps I.machine s t ∧ Back (16 + depth) own s t ∧
      t.world = { s.world with output := s.world.output ++
        [join (lowHalf (s.xmm .xmm0)) (load32 s.mem (s.reg .esp - 8))] } := by
  have hbegin : [.label .write_value, .alu .sub (.imm 12) .esp] <+: I.machine.prog.drop 0 :=
    ⟨_, rfl⟩
  have hend : [.callOut .printf, .alu .add (.imm 12) .esp, .ret] <+: I.machine.prog.drop 4 :=
    ⟨_, rfl⟩
  obtain ⟨v, hframe, hframed, hpcv, -, hxmm⟩ := Steps.framed hbegin rfl hcall hrun
  obtain ⟨u, hblock, hpcu, hu⟩ := prepare_value hframed own hpcv
  obtain ⟨t, hprint, hback, hworld⟩ :=
    hu.print hlib.printf (by decide) hlib.depth hown hend hpcu hpc
  have hvalue : load64 u.mem (u.reg .esp + 4) =
      join (lowHalf (s.xmm .xmm0)) (load32 s.mem (s.reg .esp - 8)) := by
    have hhigh : s.reg .esp - 16 + 4 + 4 = s.reg .esp - 16 + 8 := by grind
    have hbetween : s.reg .esp - 16 + 8 = s.reg .esp - 8 := by grind
    rw [load64, hu.esp, hhigh, hu.arguments.argument, hu.arguments.between, hbetween, hxmm]
  exact ⟨t, (hframe.trans hblock).trans hprint, hback, hvalue ▸ hworld⟩

end Writing

/-! ## One round

A round from `scanf` to the jump back. The maximum of the lower ends has to survive the call for the
upper ends, so it is kept on the stack, and so is what is compared with zero. -/

section Round

variable {I : Image} {F : UInt32} {w : World} {s : State World} {g : Quad × UInt32} {depth : ℕ}
  {own : UInt32 → Prop} {m : Memory}

/-- The parts that both versions have are in the program. -/
theorem ask_code (I : Image) :
    askQuadruple .loop_begin .scanf I.SC 20 28 36 44 <+: I.machine.prog.drop 27 :=
  ⟨_, rfl⟩

theorem test_code (I : Image) : testAnswer .loop_end <+: I.machine.prog.drop 38 :=
  ⟨_, rfl⟩

theorem end_code (I : Image) : mainEnd .loop_end <+: I.machine.prog.drop 52 :=
  ⟨_, rfl⟩

/-- The quadruple lies in the frame, the word that `scanf` has left below it, and zero in the
data. -/
structure Holds (ZERO F : UInt32) (g : Quad × UInt32) (m : Memory) : Prop where
  l1 : load64 m (F + 20) = g.1.l1
  r1 : load64 m (F + 28) = g.1.r1
  l2 : load64 m (F + 36) = g.1.l2
  r2 : load64 m (F + 44) = g.1.r2
  residue : load32 m (F - 8) = g.2
  zero : load64 m ZERO = 0

/-- The data lies apart from the stack and from the data of the library. -/
def Apart (ZERO F : UInt32) (depth : ℕ) (own : UInt32 → Prop) : Prop :=
  ∀ x, InArea ZERO 8 x → ¬ Below (F + 64) (depth + 80) x ∧ ¬ own x

/-- With a quadruple left in the input, `scanf` answers four and stores its values; the constant
zero is not where it writes. -/
theorem scanf_next (hlib : Libc I depth own) (hown : ∀ x, own x → ¬ InArea (F - 16) 80 x)
    (hapart : Apart I.ZERO F depth own) {rest : List (Quad × UInt32)} (h : InMain F w s)
    (hpc : s.pc = 27) (hzero : load64 s.mem I.ZERO = 0) (hinput : w.input = g :: rest) :
    ∃ t, Steps I.machine s t ∧ InMain F { w with input := rest } t ∧ t.pc = 38 ∧
      t.reg .eax = 4 ∧ Holds I.ZERO F g t.mem := by
  have hin : InFrame 8 20 28 36 44 := by decide
  obtain ⟨v, hv, hseparate, hinputv, t, hsteps, hmain, hpct, heax, hmem, hvalues⟩ :=
    ask_next hlib.scanf hlib.depth hin hown (ask_code I) h hpc hinput
  have hresidue := hlib.residue v g rest hv.format hseparate hinputv
  simp only [List.map_cons, List.map_nil, Group.values, Quad.values, List.cons.injEq,
    and_true] at hvalues
  obtain ⟨hl1, hr1, hl2, hr2⟩ := hvalues
  have hzerot : load64 t.mem I.ZERO = 0 := by
    rw [← hzero, hmem]
    apply load64_congr
    intro x hx
    obtain ⟨hbelow, hownx⟩ := hapart x hx
    exact hv.answered hin hlib.scanf.cdecl x (fun h => hbelow (h.mono (by omega))) hownx
  have hresiduet : load32 t.mem (F - 8) = g.2 := by
    rw [hmem, ← hv.esp]
    exact hresidue
  exact ⟨t, hsteps, hmain, hpct, heax, ⟨hl1, hr1, hl2, hr2, hresiduet, hzerot⟩⟩

/-- What is held is still there when a call pushes its return address. -/
theorem Holds.push (h : Holds I.ZERO F g m) (hapart : Apart I.ZERO F depth own) (v : UInt32) :
    Holds I.ZERO F g (store32 m (F - 4) v) := by
  have hplace : ∀ {d : UInt32}, d.toNat ≤ 44 →
      load64 (store32 m (F - 4) v) (F + d) = load64 m (F + d) := by
    intro d hd
    apply load64_congr
    intro x hx
    apply storeBytes_outside
    intro hin
    exact not_below_of_inArea (n := 4) hx (by omega) (below_of_inArea (k := 4) hin (by decide))
  have hresidue : load32 (store32 m (F - 4) v) (F - 8) = load32 m (F - 8) := by
    apply load32_store32_apart
    · rw [show F - 8 - (F - 4) = -4 by grind]
      decide
    · rw [show F - 4 - (F - 8) = 4 by grind]
      decide
  have hzero : load64 (store32 m (F - 4) v) I.ZERO = load64 m I.ZERO := by
    apply load64_congr
    intro x hx
    apply storeBytes_outside
    intro hin
    have hbelow : Below F 4 x := below_of_inArea (k := 4) hin (by decide)
    rw [← UInt32.add_sub_cancel F 64] at hbelow
    exact (hapart x hx).1 (hbelow.of_sub.mono (by show 4 + 64 ≤ _; omega))
  exact ⟨(hplace (by decide)).trans h.l1, (hplace (by decide)).trans h.r1,
    (hplace (by decide)).trans h.l2, (hplace (by decide)).trans h.r2, hresidue.trans h.residue,
    hzero.trans h.zero⟩

/-- A call of `maximum` or `minimum` in `main`. -/
theorem selection_call {l : Label} {v : UInt64} {k : ℕ} (h : InMain F w s)
    (hg : Holds I.ZERO F g s.mem) (hapart : Apart I.ZERO F depth own)
    (hpc : s.pc = k) (hcode : I.machine.prog[k]? = some (.call l))
    (hspec : ∃ t, Steps I.machine (s.enter I.machine l) t ∧
      Selected (s.enter I.machine l) s.depth (k + 1) v t) :
    ∃ t, Steps I.machine s t ∧ InMain F w t ∧ t.pc = k + 1 ∧ t.xmm .xmm0 = v ∧
      t.xmm .xmm2 = s.xmm .xmm2 ∧ Holds I.ZERO F g t.mem := by
  obtain ⟨t, hsteps, hleft, hxmm0, hxmm2, hmem, hworld⟩ := hspec
  rw [← hpc] at hcode
  have hesp : t.reg .esp = F := by
    rw [hleft.esp, ← h.esp]
    exact UInt32.sub_add_cancel _ _
  have hholds : Holds I.ZERO F g t.mem := by
    rw [hmem]
    show Holds I.ZERO F g (store32 s.mem (s.reg .esp - 4) _)
    rw [h.esp]
    exact hg.push hapart _
  exact ⟨t, (Steps.enter hcode h.returned).trans hsteps,
    ⟨hleft.returned, hleft.depth.trans h.depth, hesp, hworld.trans h.world⟩, hleft.pc, hxmm0,
    hxmm2, hholds⟩

/-- Two patterns of the frame are loaded. -/
theorem load_spec {a b : UInt32} (start : ℕ) (h : InMain F w s) (hpc : s.pc = start)
    (hcode : [.movsdLoad (based a .esp) .xmm0, .movsdLoad (based b .esp) .xmm1] <+:
      I.machine.prog.drop start) :
    ∃ t, Steps I.machine s t ∧ InMain F w t ∧ t.pc = start + 2 ∧ t.mem = s.mem ∧
      t.xmm .xmm2 = s.xmm .xmm2 ∧ t.xmm .xmm0 = load64 s.mem (F + a) ∧
      t.xmm .xmm1 = load64 s.mem (F + b) := by
  set t := run I.machine [.movsdLoad (based a .esp) .xmm0, .movsdLoad (based b .esp) .xmm1] s
    with ht
  have hblock : Steps I.machine s t := Steps.block start hcode rfl hpc h.returned
  have hpct : t.pc = start + 2 := by
    rw [ht, run_pc, hpc]
    rfl
  have hxmm0 : t.xmm .xmm0 = load64 s.mem (F + a) := by
    rw [← h.esp, ← eval_based]
    rfl
  have hxmm1 : t.xmm .xmm1 = load64 s.mem (F + b) := by
    rw [← h.esp, ← eval_based]
    rfl
  exact ⟨t, hblock, ⟨h.returned, h.depth, h.esp, h.world⟩, hpct, rfl, rfl, hxmm0, hxmm1⟩

/-- From a quadruple in the frame to the pattern that is printed. -/
theorem overlap_spec (I : Image) (h : InMain F w s) (hpc : s.pc = 40)
    (hg : Holds I.ZERO F g s.mem) (hapart : Apart I.ZERO F depth own) :
    ∃ t, Steps I.machine s t ∧ InMain F w t ∧ t.pc = 50 ∧ t.xmm .xmm0 = g.1.overlap I.ops ∧
      Holds I.ZERO F g t.mem := by
  -- the greater left end goes to `xmm2`
  obtain ⟨a, ha, hmaina, hpca, hmema, -, hxmm0a, hxmm1a⟩ :=
    load_spec 40 h hpc (I := I) (a := 20) (b := 36) ⟨_, rfl⟩
  rw [hg.l1] at hxmm0a
  rw [hg.l2] at hxmm1a
  have hmax := maximum_spec (I := I) (by decide) (State.entered hpca hmaina.returned)
  obtain ⟨b, hb, hmainb, hpcb, hxmm0b, -, hgb⟩ :=
    selection_call hmaina (hmema ▸ hg) hapart hpca rfl hmax
  have hleft : b.xmm .xmm0 = maximum I.ops g.1.l1 g.1.l2 := by
    rw [hxmm0b, ← hxmm0a, ← hxmm1a]
    rfl
  set c := run I.machine [.movsd .xmm0 .xmm2] b with hc
  have hmove : Steps I.machine b c := Steps.block 43 ⟨_, rfl⟩ rfl hpcb hmainb.returned
  have hpcc : c.pc = 44 := by
    rw [hc, run_pc, hpcb]
    rfl
  have hmainc : InMain F w c := ⟨hmainb.returned, hmainb.depth, hmainb.esp, hmainb.world⟩
  have hgc : Holds I.ZERO F g c.mem := hgb
  -- the smaller right end stays in `xmm0`
  obtain ⟨d, hd, hmaind, hpcd, hmemd, hxmm2d, hxmm0d, hxmm1d⟩ :=
    load_spec 44 hmainc hpcc (I := I) (a := 28) (b := 44) ⟨_, rfl⟩
  rw [hgc.r1] at hxmm0d
  rw [hgc.r2] at hxmm1d
  have hmin := minimum_spec (I := I) (by decide) (State.entered hpcd hmaind.returned)
  obtain ⟨e, he, hmaine, hpce, hxmm0e, hxmm2e, hge⟩ :=
    selection_call hmaind (hmemd ▸ hgc) hapart hpcd rfl hmin
  have hright : e.xmm .xmm0 = minimum I.ops g.1.r1 g.1.r2 := by
    rw [hxmm0e, ← hxmm0d, ← hxmm1d]
    rfl
  have hxmm2 : e.xmm .xmm2 = maximum I.ops g.1.l1 g.1.l2 := (hxmm2e.trans hxmm2d).trans hleft
  -- the difference, but not below zero
  set t := run I.machine
    [.subsd .xmm2 .xmm0, .movsdLoad { disp := I.ZERO } .xmm1, .maxsd .xmm1 .xmm0] e with ht
  have hlast : Steps I.machine e t := Steps.block 47 ⟨_, rfl⟩ rfl hpce hmaine.returned
  have hpct : t.pc = 50 := by
    rw [ht, run_pc, hpce]
    rfl
  have hzero : ({ disp := I.ZERO } : Addr).eval e.reg = I.ZERO := by
    show I.ZERO + 0 + 0 = I.ZERO
    rw [UInt32.add_zero, UInt32.add_zero]
  have hoverlap : t.xmm .xmm0 = g.1.overlap I.ops := by
    show I.ops.max (I.ops.sub (e.xmm .xmm0) (e.xmm .xmm2))
      (load64 e.mem (({ disp := I.ZERO } : Addr).eval e.reg)) = _
    rw [hzero, hge.zero, hright, hxmm2]
    rfl
  exact ⟨t, (((ha.trans hb).trans hmove).trans (hd.trans he)).trans hlast,
    ⟨hmaine.returned, hmaine.depth, hmaine.esp, hmaine.world⟩, hpct, hoverlap, hge⟩

/-- What `printf` receives for a quadruple. -/
def printed (ops : DoubleOps) (g : Quad × UInt32) : UInt64 :=
  join (lowHalf (g.1.overlap ops)) g.2

/-- **One round**: a quadruple is read and a pattern is printed. The pattern is the lower half of
the overlap and, above it, whatever `scanf` has left in the word of the stack that is taken for the
upper half. -/
theorem round_spec (hlib : Libc I depth own) (hown : ∀ x, own x → ¬ InArea (F - 16) 80 x)
    (hapart : Apart I.ZERO F depth own) {rest : List (Quad × UInt32)} (h : InMain F w s)
    (hpc : s.pc = 27) (hzero : load64 s.mem I.ZERO = 0) (hinput : w.input = g :: rest) :
    ∃ t, Steps I.machine s t ∧ t.pc = 27 ∧
      InMain F { input := rest, output := w.output ++ [printed I.ops g] } t ∧
      load64 t.mem I.ZERO = 0 := by
  obtain ⟨a, hscan, hmaina, hpca, heaxa, hga⟩ := scanf_next hlib hown hapart h hpc hzero hinput
  obtain ⟨flags, htest⟩ :=
    test_spec (test_code I) hpca hmaina.returned
  rw [if_pos heaxa] at htest
  obtain ⟨b, hselect, hmainb, hpcb, hxmm0b, hgb⟩ :=
    overlap_spec I (s := { a with pc := 40, flags })
      ⟨hmaina.returned, hmaina.depth, hmaina.esp, hmaina.world⟩ rfl hga hapart
  have hcall : I.machine.prog[b.pc]? = some (.call .write_value) := by
    rw [hpcb]
    rfl
  have hstack : ∀ x, Below (b.reg .esp) 16 x → ¬ own x := by
    intro x hx hx'
    rw [hmainb.esp] at hx
    exact hown x hx' (inArea_of_below (k := 16) hx (by decide))
  obtain ⟨c, hwrite, hback, hworld⟩ :=
    write_value_spec hlib hcall (by rw [hpcb]; decide) hmainb.returned hstack
  have hjmp : I.machine.prog[c.pc]? = some (.jmp .loop_begin) := by
    rw [hback.pc, hpcb]
    rfl
  have hagain := Steps.jmp hjmp hback.returned
  have hesp : c.reg .esp = F := (hback.saved .esp (by decide)).trans hmainb.esp
  have hzeroc : load64 c.mem I.ZERO = 0 := by
    rw [← hgb.zero]
    apply load64_congr
    intro x hx
    obtain ⟨hbelow, hownx⟩ := hapart x hx
    refine hback.memory x (fun h => hbelow ?_) hownx
    rw [hmainb.esp, ← UInt32.add_sub_cancel F 64] at h
    exact h.of_sub.mono (by show 16 + depth + 64 ≤ _; omega)
  rw [hmainb.world, hxmm0b, hmainb.esp, hgb.residue] at hworld
  exact ⟨_, ((hscan.trans htest).trans hselect).trans (hwrite.trans hagain), rfl,
    ⟨hback.returned, hback.depth.trans hmainb.depth, hesp, hworld⟩, hzeroc⟩

/-- **The loop**, over all quadruples that are left. -/
theorem loop_spec (hlib : Libc I depth own) (hown : ∀ x, own x → ¬ InArea (F - 16) 80 x)
    (hapart : Apart I.ZERO F depth own) (input : List (Quad × UInt32)) (output : List UInt64)
    (h : InMain F ⟨input, output⟩ s) (hpc : s.pc = 27) (hzero : load64 s.mem I.ZERO = 0) :
    ∃ t, Steps I.machine s t ∧ t.returned = true ∧
      t.world.output = output ++ input.map (printed I.ops) := by
  refine loop_output (fun w s => InMain F w s ∧ s.pc = 27 ∧ load64 s.mem I.ZERO = 0)
    (printed I.ops) (fun g rest output s ⟨hs, hpcs, hzeros⟩ => ?_)
    (fun output s ⟨hs, hpcs, _⟩ => ?_) input output s ⟨h, hpc, hzero⟩
  · obtain ⟨t, hsteps, hpct, ht, hzerot⟩ := round_spec hlib hown hapart hs hpcs hzeros rfl
    exact ⟨t, hsteps, ht, hpct, hzerot⟩
  · exact ask_end hlib.scanf hlib.depth (by decide) hown (ask_code I) (test_code I) (end_code I)
      rfl hs hpcs rfl

end Round

/-! ## A whole run

The loop by induction on the input. A reading of an input says, besides the values, what each call
of `scanf` leaves in the word below the stack that is printed later; the code cannot know it. -/

/-- `main` is called; the data of the library is not on its stack, and `ZERO` holds zero where
neither of them is. -/
structure Called (I : Image) (depth : ℕ) (own : UInt32 → Prop) (s₀ : State World) : Prop where
  pc : s₀.pc = 19
  returned : s₀.returned = false
  level : s₀.depth = 0
  output : s₀.world.output = []
  apart : ∀ x, own x → ¬ InArea (frame s₀ - 16) 80 x
  zero : load64 s₀.mem I.ZERO = 0
  zeroApart : ∀ x, InArea I.ZERO 8 x → ¬ Below (s₀.reg .esp) (depth + 112) x ∧ ¬ own x

/-- The same state in front of another input. -/
def reading (s : State World) (input : List (Quad × UInt32)) : State World :=
  { s with world := { s.world with input } }

section Whole

variable {I : Image} {s₀ : State World} {depth : ℕ} {own : UInt32 → Prop}

/-- The input plays no part in the call. -/
theorem Called.reading (h : Called I depth own s₀) (input : List (Quad × UInt32)) :
    Called I depth own (reading s₀ input) :=
  ⟨h.pc, h.returned, h.level, h.output, h.apart, h.zero, h.zeroApart⟩

/-- **A whole run** prints a pattern for every quadruple. Each of them depends on its quadruple and
on the word that the call of `scanf` for it has left on the stack, and on nothing else. -/
theorem main_spec (hlib : Libc I depth own) (h : Called I depth own s₀) :
    ∃ t, Steps I.machine s₀ t ∧ t.returned = true ∧
      t.world.output = s₀.world.input.map (printed I.ops) := by
  obtain ⟨u, hbegin, hu, hpcu, hmemory⟩ :=
    main_begin_spec (M := I.machine) (l := .main) own ⟨_, rfl⟩ h.pc h.returned h.level
  have hapart : Apart I.ZERO (frame s₀) depth own := by
    intro x hx
    obtain ⟨hbelow, hown⟩ := h.zeroApart x hx
    exact ⟨fun hin => hbelow ((below_frame s₀ hin).mono (by omega)), hown⟩
  have hzero : load64 u.mem I.ZERO = 0 := by
    rw [← h.zero]
    apply load64_congr
    intro x hx
    obtain ⟨hbelow, hown⟩ := h.zeroApart x hx
    exact hmemory x (fun hin => hbelow (hin.mono (by omega))) hown
  obtain ⟨t, hloop, hreturned, houtput⟩ :=
    loop_spec hlib h.apart hapart s₀.world.input s₀.world.output hu hpcu hzero
  rw [h.output, List.nil_append] at houtput
  exact ⟨t, hbegin.trans hloop, hreturned, houtput⟩

/-- The word that makes an argument right: one of `2 ^ 32`. -/
theorem printed_eq {ops : DoubleOps} {g : Quad × UInt32} :
    printed ops g = g.1.overlap ops ↔ g.2 = highHalf (g.1.overlap ops) := by
  refine ⟨fun h => ?_, fun h => ?_⟩
  · rw [← h, printed, highHalf_join]
  · rw [printed, h, join_halves]

/-- **What is printed.** With any quadruples as input a run ends, with one call of `printf` for
each of them. The calls receive what `main` has computed, whatever words `scanf` leaves on the
stack, only if there are no quadruples: half of each argument is such a word. -/
theorem main_prints (hlib : Libc I depth own) (h : Called I depth own s₀) (quads : List Quad) :
    (∀ input, input.map Prod.fst = quads → ∃ t, Steps I.machine (reading s₀ input) t ∧
      t.returned = true ∧ t.world.output.length = quads.length) ∧
    ((∀ input, input.map Prod.fst = quads → ∃ t, Steps I.machine (reading s₀ input) t ∧
      t.returned = true ∧ t.world.output = quads.map (·.overlap I.ops)) ↔ quads = []) := by
  refine ⟨fun input hinput => ?_, fun hright => ?_, fun hempty input hinput => ?_⟩
  · obtain ⟨t, hsteps, hreturned, houtput⟩ := main_spec hlib (h.reading input)
    refine ⟨t, hsteps, hreturned, ?_⟩
    rw [houtput, List.length_map, ← hinput, List.length_map]
    rfl
  · -- words that differ from every upper half
    set input := quads.map fun q => (q, highHalf (q.overlap I.ops) + 1) with hwords
    have hinput : input.map Prod.fst = quads := by
      rw [hwords, List.map_map]
      exact List.map_id _
    obtain ⟨t, hsteps, hreturned, houtput⟩ := main_spec hlib (h.reading input)
    obtain ⟨u, hstepsu, hreturnedu, hrightu⟩ := hright input hinput
    rw [Steps.unique hsteps hreturned hstepsu hreturnedu, houtput] at hrightu
    have hprinted : quads.map (fun q => printed I.ops (q, highHalf (q.overlap I.ops) + 1))
        = quads.map (·.overlap I.ops) := by
      rw [← hrightu]
      show _ = input.map (printed I.ops)
      rw [hwords, List.map_map]
      rfl
    by_contra hne
    obtain ⟨q, hq⟩ := List.exists_mem_of_ne_nil quads hne
    have hword : highHalf (q.overlap I.ops) + 1 = highHalf (q.overlap I.ops) :=
      printed_eq.mp (List.map_inj_left.mp hprinted q hq)
    grind
  · obtain ⟨t, hsteps, hreturned, houtput⟩ := main_spec hlib (h.reading input)
    rw [hempty] at hinput ⊢
    refine ⟨t, hsteps, hreturned, ?_⟩
    rw [houtput]
    show input.map (printed I.ops) = []
    rw [List.map_eq_nil_iff.mp hinput]
    rfl

end Whole

/-! ## A C library

An instance of the contracts in which `scanf` leaves a word of our choice on the stack, as a real
one leaves what it worked with. -/

/-- Operations that agree with those of doubles as long as no number is negative and only 0 is
subtracted. -/
def patterns : DoubleOps where
  compare x y := if x < y then .less else if x = y then .equal else .greater
  sub x y := x - y
  max x y := if x < y then y else x

/-- `scanf`, which also uses the stack below its arguments. -/
def reads (s : State World) : State World :=
  let t := scan [4, 8, 12, 16] store64 Group.values s
  match s.world.input with
  | [] => t
  | g :: _ => { t with mem := store32 t.mem (s.reg .esp - 8) g.2 }

/-- The program, linked with functions that do what their contracts say. -/
def reference : Image where
  text := 0x8048000
  SC := 0x8049000
  PR := 0x8049010
  ZERO := 0x804A000
  out
    | .scanf => reads
    | .printf => print fun s => load64 s.mem (s.reg .esp + 4)
  ops := patterns

theorem reads_reg (s : State World) :
    (reads s).reg = (scan [4, 8, 12, 16] store64 Group.values s).reg := by
  unfold reads
  split <;> rfl

theorem reads_world (s : State World) :
    (reads s).world = (scan [4, 8, 12, 16] store64 Group.values s).world := by
  unfold reads
  split <;> rfl

/-- The memory is that of the plain `scanf`, but for the stack below the arguments. -/
theorem reads_mem (s : State World) {x : UInt32} (hx : ¬ Below (s.reg .esp) 8 x) :
    (reads s).mem x = (scan [4, 8, 12, 16] store64 Group.values s).mem x := by
  unfold reads
  split
  · rfl
  · exact storeBytes_outside fun hin => hx (below_of_inArea (k := 8) hin (by decide))

theorem Group.length_values (g : Quad × UInt32) : (Group.values g).length = 4 :=
  rfl

/-- The instance meets the contract of `scanf`: the word it leaves is in the part of the stack that
the contract does not speak of. -/
theorem reference_scanf : Scans reference.machine .scanf reference.SC [4, 8, 12, 16] 8 load64
    Group.values 8 fun _ => False := by
  set plain : Machine Label Extern World := { reference.machine with
    out := fun _ => scan [4, 8, 12, 16] store64 Group.values } with hplain
  have hscan : Scans plain .scanf reference.SC [4, 8, 12, 16] 8 load64 Group.values 8
      fun _ => False :=
    scans_scan _ stored64 rfl Group.length_values (by decide) _ _ _
  refine ⟨⟨fun s r hr => ?_, fun s x hbelow hargs hown htargets => ?_⟩,
    fun s g rest hformat hsep hinput => ?_, fun s hformat hsep hinput => ?_⟩
  · exact (congrFun (reads_reg s) r).trans (hscan.cdecl.saved s r hr)
  · exact (reads_mem s hbelow).trans (hscan.cdecl.frame s x hbelow hargs hown htargets)
  · obtain ⟨heax, hvalues, hworld⟩ := hscan.next s g rest hformat hsep hinput
    refine ⟨(congrFun (reads_reg s) .eax).trans heax, ?_, (reads_world s).trans hworld⟩
    rw [← hvalues]
    apply List.map_congr_left
    intro p hp
    exact load64_congr fun x hx => reads_mem s (hsep.apart p hp x hx).1
  · obtain ⟨heax, houtput⟩ := hscan.done s hformat hsep hinput
    exact ⟨fun h => heax ((congrFun (reads_reg s) .eax).symm.trans h),
      (congrArg Console.output (reads_world s)).trans houtput⟩

theorem reference_libc : Libc reference 8 fun _ => False where
  scanf := reference_scanf
  residue s g rest _ _ hinput := by
    show load32 (reads s).mem (s.reg .esp - 8) = g.2
    rw [reads, hinput]
    exact load32_store32 _ _ _
  printf := prints_print rfl _ _ _ _
  depth := by decide

def started (input : List (Quad × UInt32)) : State World where
  pc := 19
  reg _ := 0xBFFFF000
  xmm _ := 0
  flags := .logic 0
  mem _ := 0
  log := []
  depth := 0
  returned := false
  world := ⟨input, []⟩

theorem started_called (input : List (Quad × UInt32)) :
    Called reference 8 (fun _ => False) (started input) where
  pc := rfl
  returned := rfl
  level := rfl
  output := rfl
  apart _ h := h.elim
  zero := rfl
  zeroApart x hx := by
    refine ⟨?_, id⟩
    have hzero : InArea (0xBFFFF000 + 0x4804B000) 8 x := hx
    exact not_below_of_inArea hzero (by decide)

/-- The intervals from 0 to 1. -/
def unit : Quad :=
  ⟨0, 0x3FF0000000000000, 0, 0x3FF0000000000000⟩

/-- An empty input is printed right, the intervals from 0 to 1 are not. -/
theorem main_prints_unit :
    (∃ t, Steps reference.machine (reading (started []) []) t ∧ t.returned = true ∧
      t.world.output = []) ∧
    ¬ ∀ input, input.map Prod.fst = [unit] →
      ∃ t, Steps reference.machine (reading (started []) input) t ∧ t.returned = true ∧
        t.world.output = [unit.overlap patterns] :=
  ⟨(main_prints reference_libc (started_called []) []).2.mpr rfl [] rfl,
    fun hright => List.cons_ne_nil _ _
      ((main_prints reference_libc (started_called []) [unit]).2.mp hright)⟩

/-- The same intervals when the word on the stack is 0. -/
theorem main_stale : (∃ t, Steps reference.machine (started [(unit, 0)]) t ∧ t.returned = true ∧
      t.world.output = [0]) ∧
    ¬ ∃ t, Steps reference.machine (started [(unit, 0)]) t ∧ t.returned = true ∧
      t.world.output = [unit.overlap patterns] := by
  obtain ⟨t, hsteps, hreturned, houtput⟩ := main_spec reference_libc (started_called [(unit, 0)])
  have hline : t.world.output = [0] := houtput
  refine ⟨⟨t, hsteps, hreturned, hline⟩, fun ⟨u, hstepsu, hreturnedu, hright⟩ => ?_⟩
  rw [Steps.unique hsteps hreturned hstepsu hreturnedu, hline] at hright
  revert hright
  decide

end HseDev.Sem9.MinMax
