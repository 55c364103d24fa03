import HseDev.Sem8.Quadruples
import HseDev.Sem8.ReadWrite
import Mathlib.Data.List.Forall2

/-!
# HseDev — the overlap of intervals of `sem8/minmax.S`

`main` reads quadruples `l1 r1 l2 r2` and prints for each how long the intervals `[l1, r1]` and
`[l2, r2]` overlap. The text is modelled instruction by instruction, with the two functions of
the C library as parameters.

* **`maximum`** / **`minimum`** — the selections, as the routines of the same names make them.
* **`overlap`** — the number that is printed for a quadruple.
* **`round_spec`** — one round of the loop; **`main_spec`** — a whole run, by induction on the
  input.
* **`main_overlaps`** — when what is printed is the overlap in the integers.
-/

namespace HseDev.Sem8.MinMax

open X86 Assembly

/-! ## The program

The text of `minmax.S`: two selections, a routine that prints, and `main`, which reads quadruples
until `scanf` no longer gives all four. -/

inductive Label where
  | write_value
  | maximum
  | maximum_end
  | minimum
  | minimum_end
  | main
  | loop_begin
  | loop_end
  deriving DecidableEq, Repr

inductive Extern where
  | scanf
  | printf
  deriving DecidableEq, Repr

/-- The text; `SC` and `PR` are the addresses of the formats. -/
def program (SC PR : UInt32) : List (Instr Label Extern) :=
  [.label .write_value,
   .alu .sub (.imm 12) .esp,
   .movlTo (.reg .eax) (based 4 .esp),
   .movlTo (.imm PR) (based 0 .esp),
   .callOut .printf,
   .alu .add (.imm 12) .esp,
   .ret,
   .label .maximum,
   .cmpl (.reg .eax) .ecx,
   .jcc .l .maximum_end,
   .movl (.reg .ecx) .eax,
   .label .maximum_end,
   .ret,
   .label .minimum,
   .cmpl (.reg .eax) .ecx,
   .jcc .g .minimum_end,
   .movl (.reg .ecx) .eax,
   .label .minimum_end,
   .ret,
   .label .main,
   .pushl .ebp,
   .pushl .ebx,
   .pushl .edi,
   .pushl .esi,
   .movl (.reg .esp) .ebp,
   .alu .and (.imm (-16)) .esp,
   .alu .sub (.imm 64) .esp,
   .label .loop_begin,
   .movlTo (.imm SC) (based 0 .esp),
   .lea (based 20 .esp) .eax,
   .movlTo (.reg .eax) (based 4 .esp),
   .lea (based 24 .esp) .eax,
   .movlTo (.reg .eax) (based 8 .esp),
   .lea (based 28 .esp) .eax,
   .movlTo (.reg .eax) (based 12 .esp),
   .lea (based 32 .esp) .eax,
   .movlTo (.reg .eax) (based 16 .esp),
   .callOut .scanf,
   .cmpl (.imm 4) .eax,
   .jcc .ne .loop_end,
   .movl (.mem (based 20 .esp)) .eax,
   .movl (.mem (based 28 .esp)) .ecx,
   .call .maximum,
   .movl (.reg .eax) .ebx,
   .movl (.mem (based 24 .esp)) .eax,
   .movl (.mem (based 32 .esp)) .ecx,
   .call .minimum,
   .alu .sub (.reg .ebx) .eax,
   .movl (.imm 0) .ecx,
   .call .maximum,
   .call .write_value,
   .jmp .loop_begin,
   .label .loop_end,
   .alu .xor (.reg .eax) .eax,
   .movl (.reg .ebp) .esp,
   .popl .esi,
   .popl .edi,
   .popl .ebx,
   .popl .ebp,
   .ret]

structure Quad where
  l1 : UInt32
  r1 : UInt32
  l2 : UInt32
  r2 : UInt32
  deriving DecidableEq, Repr

/-- The quadruples that are still to be read, and the numbers that have been printed. -/
abbrev World := Console Quad ℤ

/-- The program in memory, with what it is linked with. -/
structure Image where
  text : UInt32
  SC : UInt32
  PR : UInt32
  out : Extern → State World → State World
  ops : DoubleOps

def Image.machine (I : Image) : Machine Label Extern World where
  prog := program I.SC I.PR
  text := I.text
  out := I.out
  ops := I.ops

def Quad.values (q : Quad) : List UInt32 :=
  [q.l1, q.r1, q.l2, q.r2]

theorem Quad.length_values (q : Quad) : q.values.length = 4 :=
  rfl

/-- The C library: `%d%d%d%d` is read and `%d` with a newline is printed. -/
structure Libc (I : Image) (depth : ℕ) (own : UInt32 → Prop) : Prop where
  scanf : Scans I.machine .scanf I.SC [4, 8, 12, 16] 4 load32 Quad.values depth own
  printf : Prints I.machine .printf I.PR 8 (fun s => signed (s.argument 4)) depth own
  depth : depth ≤ 2 ^ 31

/-! ## What is computed

What is computed from a quadruple, in the arithmetic of the machine. The specification over the
integers comes later, and the two do not always agree. -/

/-- `maximum` of `eax` and `ecx`. -/
def maximum (eax ecx : UInt32) : UInt32 :=
  if signed ecx < signed eax then eax else ecx

/-- `minimum` of `eax` and `ecx`. -/
def minimum (eax ecx : UInt32) : UInt32 :=
  if signed eax < signed ecx then eax else ecx

/-- What is printed for a quadruple. -/
def Quad.overlap (q : Quad) : UInt32 :=
  maximum (minimum q.r1 q.r2 - maximum q.l1 q.l2) 0

/-! ## The routines

The two selections are one piece of text with another condition, so there is one lemma about it, and
one for each of the two. -/

section Routines

variable {I : Image} {s : State World} {d k : ℕ}

/-- A routine that keeps `eax` or takes `ecx` in its place, by a comparison. -/
def selection (l : Label) (c : Cond) (l_end : Label) : List (Instr Label Extern) :=
  [.label l, .cmpl (.reg .eax) .ecx, .jcc c l_end, .movl (.reg .ecx) .eax, .label l_end, .ret]

/-- What such a routine leaves behind: the selected number in `eax`. -/
structure Selected (s : State World) (d k : ℕ) (v : UInt32) (t : State World) : Prop where
  left : Left s d k t
  eax : t.reg .eax = v
  ebx : t.reg .ebx = s.reg .ebx
  mem : t.mem = s.mem
  world : t.world = s.world

theorem selection_spec {l l_end : Label} {c : Cond} (start : ℕ) (hk : k < 2 ^ 32)
    (h : Entered I.machine l d k s)
    (hcode : selection l c l_end <+: I.machine.prog.drop start)
    (hplace : place I.machine.prog l = start)
    (hplace_end : place I.machine.prog l_end = start + 4) :
    ∃ t, Steps I.machine s t ∧ Selected s d k
      (if c.holds (.sub (s.reg .ecx) (s.reg .eax)) then s.reg .eax else s.reg .ecx) t := by
  set flags := Flags.sub (s.reg .ecx) (s.reg .eax)
  obtain ⟨t, hsteps, hchosen⟩ := selects_spec flags h hk hcode hplace hplace_end ⟨rfl, rfl⟩
    (fun _ => rfl) fun _ => ⟨rfl, rfl, rfl⟩
  refine ⟨t, hsteps, hchosen.left, ?_, ?_, hchosen.mem, hchosen.world⟩
  · rw [hchosen.reg .eax (by decide)]
    split <;> rfl
  · rw [hchosen.reg .ebx (by decide)]
    split <;> rfl

/-- `maximum` returns the greater of the two registers, with a sign. -/
theorem maximum_spec (hk : k < 2 ^ 32) (h : Entered I.machine .maximum d k s) :
    ∃ t, Steps I.machine s t ∧ Selected s d k (maximum (s.reg .eax) (s.reg .ecx)) t := by
  obtain ⟨t, hsteps, hselected⟩ := selection_spec (c := .l) 7 hk h ⟨_, rfl⟩ rfl rfl
  simp only [Cond.holds_l] at hselected
  exact ⟨t, hsteps, hselected⟩

theorem minimum_spec (hk : k < 2 ^ 32) (h : Entered I.machine .minimum d k s) :
    ∃ t, Steps I.machine s t ∧ Selected s d k (minimum (s.reg .eax) (s.reg .ecx)) t := by
  obtain ⟨t, hsteps, hselected⟩ := selection_spec (c := .g) 13 hk h ⟨_, rfl⟩ rfl rfl
  simp only [Cond.holds_g] at hselected
  exact ⟨t, hsteps, hselected⟩

end Routines

/-! ## One round

A round from `scanf` to the jump back: read, call both selections, subtract, print. The lemmas
follow the text, and `round_spec` puts them together. -/

section Round

variable {I : Image} {F : UInt32} {w : World} {s : State World} {q : Quad} {depth : ℕ}
  {own : UInt32 → Prop}

/-- The parts that both versions have are in the program. -/
theorem ask_code (I : Image) :
    askQuadruple .loop_begin .scanf I.SC 20 24 28 32 <+: I.machine.prog.drop 27 :=
  ⟨_, rfl⟩

theorem test_code (I : Image) : testAnswer .loop_end <+: I.machine.prog.drop 38 :=
  ⟨_, rfl⟩

theorem end_code (I : Image) : mainEnd .loop_end <+: I.machine.prog.drop 52 :=
  ⟨_, rfl⟩

/-- The quadruple lies in the frame. -/
structure Holds (F : UInt32) (q : Quad) (m : Memory) : Prop where
  l1 : load32 m (F + 20) = q.l1
  r1 : load32 m (F + 24) = q.r1
  l2 : load32 m (F + 28) = q.l2
  r2 : load32 m (F + 32) = q.r2

/-- With a quadruple left in the input, `scanf` answers four and stores its values in the frame. -/
theorem scanf_next (hlib : Libc I depth own) (hown : ∀ x, own x → ¬ InArea (F - 16) 80 x)
    {rest : List Quad} (h : InMain F w s) (hpc : s.pc = 27) (hinput : w.input = q :: rest) :
    ∃ t, Steps I.machine s t ∧ InMain F { w with input := rest } t ∧ t.pc = 38 ∧
      t.reg .eax = 4 ∧ Holds F q t.mem := by
  obtain ⟨-, -, -, -, t, hsteps, hmain, hpct, heax, -, hvalues⟩ :=
    ask_next hlib.scanf hlib.depth (by decide) hown (ask_code I) h hpc hinput
  simp only [List.map_cons, List.map_nil, Quad.values, List.cons.injEq, and_true] at hvalues
  obtain ⟨hl1, hr1, hl2, hr2⟩ := hvalues
  exact ⟨t, hsteps, hmain, hpct, heax, ⟨hl1, hr1, hl2, hr2⟩⟩

/-- The quadruple stays in the frame when a call pushes its return address. -/
theorem Holds.push {m : Memory} (h : Holds F q m) (v : UInt32) :
    Holds F q (store32 m (F - 4) v) := by
  have hword : ∀ {d : UInt32}, 20 ≤ d.toNat ∧ d.toNat ≤ 32 →
      load32 (store32 m (F - 4) v) (F + d) = load32 m (F + d) := by
    intro d hd
    have hfrom : F + d - (F - 4) = d + 4 := by grind
    have hto : F - 4 - (F + d) = -4 - d := by grind
    apply load32_store32_apart
    · rw [hfrom, UInt32.toNat_add]
      show 4 ≤ (d.toNat + 4) % 2 ^ 32
      omega
    · rw [hto, UInt32.toNat_sub]
      show 4 ≤ (2 ^ 32 - d.toNat + 4294967292) % 2 ^ 32
      omega
  exact ⟨(hword (by decide)).trans h.l1, (hword (by decide)).trans h.r1,
    (hword (by decide)).trans h.l2, (hword (by decide)).trans h.r2⟩

/-- A call of `maximum` or `minimum` in `main`. -/
theorem selection_call {l : Label} {v : UInt32} {k : ℕ} (h : InMain F w s) (hq : Holds F q s.mem)
    (hpc : s.pc = k) (hcode : I.machine.prog[k]? = some (.call l))
    (hspec : ∃ t, Steps I.machine (s.enter I.machine l) t ∧
      Selected (s.enter I.machine l) s.depth (k + 1) v t) :
    ∃ t, Steps I.machine s t ∧ InMain F w t ∧ t.pc = k + 1 ∧ t.reg .eax = v ∧
      t.reg .ebx = s.reg .ebx ∧ Holds F q t.mem := by
  obtain ⟨t, hsteps, hleft, heax, hebx, hmem, hworld⟩ := hspec
  rw [← hpc] at hcode
  have hesp : t.reg .esp = F := by
    rw [hleft.esp, ← h.esp]
    exact UInt32.sub_add_cancel _ _
  have hholds : Holds F q t.mem := by
    rw [hmem, ← h.esp]
    exact (h.esp ▸ hq : Holds (s.reg .esp) q s.mem).push _
  exact ⟨t, (Steps.enter hcode h.returned).trans hsteps,
    ⟨hleft.returned, hleft.depth.trans h.depth, hesp, hworld.trans h.world⟩, hleft.pc, heax, hebx,
    hholds⟩

/-- Two words of the frame are loaded. -/
theorem load_spec {a b : UInt32} (start : ℕ) (h : InMain F w s) (hpc : s.pc = start)
    (hcode : [.movl (.mem (based a .esp)) .eax, .movl (.mem (based b .esp)) .ecx] <+:
      I.machine.prog.drop start) :
    ∃ t, Steps I.machine s t ∧ InMain F w t ∧ t.pc = start + 2 ∧ t.mem = s.mem ∧
      t.reg .ebx = s.reg .ebx ∧ t.reg .eax = load32 s.mem (F + a) ∧
      t.reg .ecx = load32 s.mem (F + b) := by
  set t := run I.machine [.movl (.mem (based a .esp)) .eax, .movl (.mem (based b .esp)) .ecx] s
    with ht
  have hblock : Steps I.machine s t := Steps.block start hcode rfl hpc h.returned
  have hpct : t.pc = start + 2 := by
    rw [ht, run_pc, hpc]
    rfl
  have heax : t.reg .eax = load32 s.mem (F + a) := by
    show load32 s.mem ((based a .esp).eval s.reg) = _
    rw [eval_based, h.esp]
  have hecx : t.reg .ecx = load32 s.mem (F + b) := by
    rw [← h.esp]
    show load32 s.mem ((based b .esp).eval (setReg s.reg .eax _)) = _
    rw [eval_based]
    rfl
  exact ⟨t, hblock, ⟨h.returned, h.depth, h.esp, h.world⟩, hpct, rfl, rfl, heax, hecx⟩

/-- From a quadruple in the frame to the number that is printed. -/
theorem overlap_spec (I : Image) (h : InMain F w s) (hpc : s.pc = 40) (hq : Holds F q s.mem) :
    ∃ t, Steps I.machine s t ∧ InMain F w t ∧ t.pc = 50 ∧ t.reg .eax = q.overlap := by
  -- the greater left end goes to `ebx`
  obtain ⟨a, ha, hmaina, hpca, hmema, -, heaxa, hecxa⟩ :=
    load_spec 40 h hpc (I := I) (a := 20) (b := 28) ⟨_, rfl⟩
  rw [hq.l1] at heaxa
  rw [hq.l2] at hecxa
  have hmax := maximum_spec (I := I) (by decide) (State.entered hpca hmaina.returned)
  obtain ⟨b, hb, hmainb, hpcb, heaxb, -, hqb⟩ :=
    selection_call hmaina (hmema ▸ hq) hpca rfl hmax
  have hleft : b.reg .eax = maximum q.l1 q.l2 := by
    rw [heaxb, ← heaxa, ← hecxa]
    rfl
  set c := run I.machine [.movl (.reg .eax) .ebx] b with hc
  have hmove : Steps I.machine b c := Steps.block 43 ⟨_, rfl⟩ rfl hpcb hmainb.returned
  have hpcc : c.pc = 44 := by
    rw [hc, run_pc, hpcb]
    rfl
  have hmainc : InMain F w c := ⟨hmainb.returned, hmainb.depth, hmainb.esp, hmainb.world⟩
  have hqc : Holds F q c.mem := hqb
  -- the smaller right end stays in `eax`
  obtain ⟨d, hd, hmaind, hpcd, hmemd, hebxd, heaxd, hecxd⟩ :=
    load_spec 44 hmainc hpcc (I := I) (a := 24) (b := 32) ⟨_, rfl⟩
  rw [hqc.r1] at heaxd
  rw [hqc.r2] at hecxd
  have hmin := minimum_spec (I := I) (by decide) (State.entered hpcd hmaind.returned)
  obtain ⟨e, he, hmaine, hpce, heaxe, hebxe, hqe⟩ :=
    selection_call hmaind (hmemd ▸ hqc) hpcd rfl hmin
  have hright : e.reg .eax = minimum q.r1 q.r2 := by
    rw [heaxe, ← heaxd, ← hecxd]
    rfl
  have hebx : e.reg .ebx = maximum q.l1 q.l2 := (hebxe.trans hebxd).trans hleft
  -- the difference, but not below 0
  set f := run I.machine [.alu .sub (.reg .ebx) .eax, .movl (.imm 0) .ecx] e with hf
  have hsub : Steps I.machine e f := Steps.block 47 ⟨_, rfl⟩ rfl hpce hmaine.returned
  have hpcf : f.pc = 49 := by
    rw [hf, run_pc, hpce]
    rfl
  have hmainf : InMain F w f := ⟨hmaine.returned, hmaine.depth, hmaine.esp, hmaine.world⟩
  have hdifference : f.reg .eax = minimum q.r1 q.r2 - maximum q.l1 q.l2 := by
    rw [← hright, ← hebx]
    rfl
  have hlast := maximum_spec (I := I) (by decide) (State.entered hpcf hmainf.returned)
  obtain ⟨t, ht, hmaint, hpct, heaxt, -, -⟩ :=
    selection_call (q := q) hmainf hqe hpcf rfl hlast
  have hoverlap : t.reg .eax = q.overlap := by
    rw [heaxt]
    show maximum (f.reg .eax) 0 = _
    rw [hdifference]
    rfl
  exact ⟨t, (((ha.trans hb).trans hmove).trans (hd.trans he)).trans (hsub.trans ht), hmaint, hpct,
    hoverlap⟩

/-- **One round**: a quadruple is read and its overlap is printed. The two selections are called one
after the other and keep the frame, in which the first result waits for the second. -/
theorem round_spec (hlib : Libc I depth own) (hown : ∀ x, own x → ¬ InArea (F - 16) 80 x)
    {rest : List Quad} (h : InMain F w s) (hpc : s.pc = 27) (hinput : w.input = q :: rest) :
    ∃ t, Steps I.machine s t ∧ t.pc = 27 ∧
      InMain F { input := rest, output := w.output ++ [signed q.overlap] } t := by
  obtain ⟨a, hscan, hmaina, hpca, heaxa, hqa⟩ := scanf_next hlib hown h hpc hinput
  obtain ⟨flags, htest⟩ := test_spec (test_code I) hpca hmaina.returned
  rw [if_pos heaxa] at htest
  obtain ⟨b, hselect, hmainb, hpcb, heaxb⟩ :=
    overlap_spec I (s := { a with pc := 40, flags })
      ⟨hmaina.returned, hmaina.depth, hmaina.esp, hmaina.world⟩ rfl hqa
  have hcall : I.machine.prog[b.pc]? = some (.call .write_value) := by
    rw [hpcb]
    rfl
  have hstack : ∀ x, Below (b.reg .esp) 16 x → ¬ own x := by
    intro x hx hx'
    rw [hmainb.esp] at hx
    exact hown x hx' (inArea_of_below (k := 16) hx (by decide))
  have hcode : writeInt32 .write_value .printf I.PR <+: I.machine.prog.drop 0 := ⟨_, rfl⟩
  obtain ⟨c, hwrite, hback, hworld⟩ :=
    writeInt32_spec hlib.printf hlib.depth hcode rfl hcall (by rw [hpcb]; decide)
      hmainb.returned hstack
  have hjmp : I.machine.prog[c.pc]? = some (.jmp .loop_begin) := by
    rw [hback.pc, hpcb]
    rfl
  have hagain := Steps.jmp hjmp hback.returned
  have hesp : c.reg .esp = F := (hback.saved .esp (by decide)).trans hmainb.esp
  rw [hmainb.world, heaxb] at hworld
  exact ⟨_, ((hscan.trans htest).trans hselect).trans (hwrite.trans hagain), rfl,
    hback.returned, hback.depth.trans hmainb.depth, hesp, hworld⟩

/-- **The loop**, over all quadruples that are left. -/
theorem loop_spec (hlib : Libc I depth own) (hown : ∀ x, own x → ¬ InArea (F - 16) 80 x)
    (input : List Quad) (output : List ℤ) (h : InMain F ⟨input, output⟩ s) (hpc : s.pc = 27) :
    ∃ t, Steps I.machine s t ∧ t.returned = true ∧
      t.world.output = output ++ input.map fun q => signed q.overlap := by
  refine loop_output (fun w s => InMain F w s ∧ s.pc = 27) (fun q : Quad => signed q.overlap)
    (fun q rest output s ⟨hs, hpcs⟩ => ?_) (fun output s ⟨hs, hpcs⟩ => ?_) input output s ⟨h, hpc⟩
  · obtain ⟨t, hsteps, hpct, ht⟩ := round_spec hlib hown hs hpcs rfl
    exact ⟨t, hsteps, ht, hpct⟩
  · exact ask_end hlib.scanf hlib.depth (by decide) hown (ask_code I) (test_code I) (end_code I)
      rfl hs hpcs rfl

end Round

/-! ## A whole run

The loop by induction on the input, with the prologue before it and the epilogue behind. -/

/-- `main` is called; the data of the library is not on its stack. -/
structure Called (own : UInt32 → Prop) (s₀ : State World) : Prop where
  pc : s₀.pc = 19
  returned : s₀.returned = false
  depth : s₀.depth = 0
  output : s₀.world.output = []
  apart : ∀ x, own x → ¬ InArea (frame s₀ - 16) 80 x

section Whole

variable {I : Image} {s₀ : State World} {depth : ℕ} {own : UInt32 → Prop}

/-- **A whole run** prints the overlap of every quadruple. The lines come in the order of the
quadruples, and the input is read to its end. -/
theorem main_spec (hlib : Libc I depth own) (h : Called own s₀) :
    ∃ t, Steps I.machine s₀ t ∧ t.returned = true ∧
      t.world.output = s₀.world.input.map fun q => signed q.overlap := by
  obtain ⟨u, hbegin, hu, hpcu, -⟩ :=
    main_begin_spec (M := I.machine) (l := .main) own ⟨_, rfl⟩ h.pc h.returned h.depth
  obtain ⟨t, hloop, hreturned, houtput⟩ :=
    loop_spec hlib h.apart s₀.world.input s₀.world.output hu hpcu
  rw [h.output, List.nil_append] at houtput
  exact ⟨t, hbegin.trans hloop, hreturned, houtput⟩

end Whole

/-! ## The overlap in the integers

When the printed number is the length of the overlap. The difference is taken modulo `2 ^ 32` before
it is compared with zero, so intervals that are far enough apart seem to overlap. -/

/-- How long the two intervals overlap. -/
def Quad.length (q : Quad) : ℤ :=
  max 0 (min (signed q.r1) (signed q.r2) - max (signed q.l1) (signed q.l2))

/-- A line is right when it is that number, if the number is one of 32 bits. -/
def Right (q : Quad) (line : ℤ) : Prop :=
  q.length < 2 ^ 31 → line = q.length

/-- The intervals are not further apart than the difference of two words can tell. -/
def Near (q : Quad) : Prop :=
  max (signed q.l1) (signed q.l2) - min (signed q.r1) (signed q.r2) ≤ 2 ^ 31

instance (q : Quad) : Decidable (Near q) :=
  inferInstanceAs (Decidable (_ ≤ _))

section Overlap

variable {x y : UInt32} {q : Quad}

/-- The selection is that of the integers. -/
theorem signed_maximum (x y : UInt32) : signed (maximum x y) = max (signed x) (signed y) := by
  unfold maximum
  split <;> omega

theorem signed_minimum (x y : UInt32) : signed (minimum x y) = min (signed x) (signed y) := by
  unfold minimum
  split <;> omega

theorem signed_range (x : UInt32) : -2 ^ 31 ≤ signed x ∧ signed x < 2 ^ 31 := by
  have hx := x.toNat_lt
  rw [signed_eq]
  split <;> omega

/-- A difference that is too small wraps around to a positive number. -/
theorem signed_sub_far (h : signed x - signed y < -2 ^ 31) : 0 < signed (x - y) := by
  have hx := x.toNat_lt
  have hy := y.toNat_lt
  rw [signed_eq, signed_eq] at h
  rw [signed_eq, UInt32.toNat_sub]
  split at h <;> split at h <;> split <;> omega

/-- The exact condition, for one quadruple: a difference that does not fit into a word is the only
way to go wrong. -/
theorem right_overlap : Right q (signed q.overlap) ↔ Near q := by
  have hmax := signed_maximum q.l1 q.l2
  have hmin := signed_minimum q.r1 q.r2
  have hrange := signed_range (minimum q.r1 q.r2)
  have hrange' := signed_range (maximum q.l1 q.l2)
  have hzero : signed 0 = 0 := rfl
  unfold Right Near Quad.length Quad.overlap
  rw [signed_maximum, ← hmax, ← hmin, hzero]
  rcases lt_or_ge (signed (minimum q.r1 q.r2) - signed (maximum q.l1 q.l2)) (-2 ^ 31)
    with hfar | hnear
  · have hwrap := signed_sub_far hfar
    omega
  · refine iff_of_true (fun hfits => ?_) (by omega)
    rw [signed_sub hnear (by omega), max_comm]

end Overlap

section Whole

variable {I : Image} {s₀ : State World} {depth : ℕ} {own : UInt32 → Prop}

/-- **The overlaps.** Every run ends and prints one line for each quadruple, in order; all of them
are right exactly when no two intervals are further apart than `2 ^ 31`. -/
theorem main_overlaps (hlib : Libc I depth own) (h : Called own s₀) :
    ∃ t, Steps I.machine s₀ t ∧ t.returned = true ∧
      t.world.output.length = s₀.world.input.length ∧
      (List.Forall₂ Right s₀.world.input t.world.output ↔ ∀ q ∈ s₀.world.input, Near q) := by
  obtain ⟨t, hsteps, hreturned, houtput⟩ := main_spec hlib h
  refine ⟨t, hsteps, hreturned, ?_, ?_⟩
  · rw [houtput, List.length_map]
  · rw [houtput, List.forall₂_map_right_iff, List.forall₂_same]
    simp only [right_overlap]

end Whole

/-! ## A C library

An instance of the contracts, with which the program runs. -/

/-- The program, linked with functions that do what their contracts say. -/
def reference : Image where
  text := 0x8048000
  SC := 0x8049000
  PR := 0x8049010
  out
    | .scanf => scan [4, 8, 12, 16] store32 Quad.values
    | .printf => print fun s => signed (s.argument 4)
  ops := ⟨fun _ _ => .equal, fun x _ => x, fun x _ => x⟩

theorem reference_libc : Libc reference 0 fun _ => False where
  scanf := scans_scan _ stored32 rfl Quad.length_values (by decide) _ _ _
  printf := prints_print rfl _ _ _ _
  depth := by decide

def started (input : List Quad) : State World where
  pc := 19
  reg _ := 0xBFFFF000
  xmm _ := 0
  flags := .logic 0
  mem _ := 0
  log := []
  depth := 0
  returned := false
  world := ⟨input, []⟩

theorem started_called (input : List Quad) : Called (fun _ => False) (started input) where
  pc := rfl
  returned := rfl
  depth := rfl
  output := rfl
  apart _ h := h.elim

theorem main_overlaps_touching : ∃ t, Steps reference.machine (started [⟨1, 5, 3, 9⟩]) t ∧
    t.returned = true ∧ List.Forall₂ Right [⟨1, 5, 3, 9⟩] t.world.output := by
  obtain ⟨t, hsteps, hreturned, -, hright⟩ :=
    main_overlaps reference_libc (started_called [⟨1, 5, 3, 9⟩])
  refine ⟨t, hsteps, hreturned, hright.mpr fun q hq => ?_⟩
  rw [List.mem_singleton.mp hq]
  decide

/-- The least and the greatest number, as intervals. -/
def ends : Quad :=
  ⟨0x80000000, 0x80000000, 0x7FFFFFFF, 0x7FFFFFFF⟩

/-- The two lie apart, but 1 is printed. -/
theorem main_ends : (∃ t, Steps reference.machine (started [ends]) t ∧ t.returned = true ∧
      t.world.output = [1]) ∧
    ¬ ∃ t, Steps reference.machine (started [ends]) t ∧ t.returned = true ∧
      List.Forall₂ Right [ends] t.world.output := by
  obtain ⟨t, hsteps, hreturned, houtput⟩ := main_spec reference_libc (started_called [ends])
  have hline : t.world.output = [1] := houtput
  refine ⟨⟨t, hsteps, hreturned, hline⟩, fun ⟨u, hstepsu, hreturnedu, hright⟩ => ?_⟩
  rw [Steps.unique hsteps hreturned hstepsu hreturnedu, hline] at hright
  cases hright with
  | cons hends _ => exact absurd (hends (by decide)) (by decide)

end HseDev.Sem8.MinMax
