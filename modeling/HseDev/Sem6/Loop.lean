import HseDev.Lib.Console
import HseDev.Sem8.Quadruples

/-!
# HseDev — the countdown of `sem6/loop.S`

`main` reads a number and prints it, then the number below it, and so on until `0` is reached. The
text is modelled instruction by instruction, with the two functions of the C library as
parameters.

* **`countdown`** — the lines, for any word.
* **`begin_spec`** — up to the loop: the number is in the frame.
* **`round_spec`** — one round; **`loop_spec`** — all of them, by induction on the number.
* **`loop_prints`** — a whole run, and what it leaves of its caller.
-/

namespace HseDev.Sem6.Loop

open X86 Assembly

/-! ## The program

The text of `loop.S`, instruction by instruction, with the two calls of the C library as its only
externals. -/

inductive Label where
  | main
  | main_loop
  | main_end
  deriving DecidableEq, Repr

inductive Extern where
  | scanf
  | printf
  deriving DecidableEq, Repr

/-- The text; `SC` and `PR` are the addresses of the formats. -/
def program (SC PR : UInt32) : List (Instr Label Extern) :=
  [.label .main,
   .pushl .ebp,
   .movl (.reg .esp) .ebp,
   .alu .and (.imm (-16)) .esp,
   .alu .sub (.imm 32) .esp,
   .movlTo (.imm SC) (based 0 .esp),
   .movl (.reg .esp) .eax,
   .alu .add (.imm 8) .eax,
   .movlTo (.reg .eax) (based 4 .esp),
   .callOut .scanf,
   .movl (.mem (based 8 .esp)) .eax,
   .movlTo (.reg .eax) (based 4 .esp),
   .label .main_loop,
   .movl (.mem (based 8 .esp)) .eax,
   .cmpl (.imm 0) .eax,
   .jcc .e .main_end,
   .movlTo (.reg .eax) (based 4 .esp),
   .movlTo (.imm PR) (based 0 .esp),
   .alu .sub (.imm 1) .eax,
   .movlTo (.reg .eax) (based 8 .esp),
   .callOut .printf,
   .jmp .main_loop,
   .label .main_end,
   .alu .xor (.reg .eax) .eax,
   .movl (.reg .ebp) .esp,
   .popl .ebp,
   .ret]

/-- The numbers that are still to be read, and those that have been printed. -/
abbrev World := Console UInt32 ℤ

/-- The program in memory, with what it is linked with. -/
structure Image where
  text : UInt32
  SC : UInt32
  PR : UInt32
  out : Extern → State World → State World
  ops : DoubleOps

def Image.machine (I : Image) : Machine Label Extern World where
  prog := program I.SC I.PR
  text := I.text
  out := I.out
  ops := I.ops

/-- The C library: `%d` is read, and printed with a newline. -/
structure Libc (I : Image) (depth : ℕ) (own : UInt32 → Prop) : Prop where
  scanf : Scans I.machine .scanf I.SC [4] 4 load32 (fun v => [v]) depth own
  printf : Prints I.machine .printf I.PR 8 (fun s => signed (s.argument 4)) depth own
  depth : depth ≤ 2 ^ 31

/-! ## The lines

What the loop prints, as a function of the word that was read. The counter is decremented as a word
and tested for zero, so a negative number is one of more than `2 ^ 31` rounds and not an empty loop.
-/

/-- The word and those below it, down to 1. -/
def countdown (v : UInt32) : List ℤ :=
  (List.range v.toNat).map fun k => signed (v - UInt32.ofNat k)

/-- The decrement does not wrap in front of the test. -/
theorem toNat_pred {v : UInt32} (hv : v ≠ 0) : v.toNat = (v - 1).toNat + 1 := by
  have hlt := v.toNat_lt
  have hpos : v.toNat ≠ 0 := fun h => hv (UInt32.toNat_inj.mp h)
  rw [UInt32.toNat_sub]
  show v.toNat = (2 ^ 32 - 1 + v.toNat) % 2 ^ 32 + 1
  omega

theorem countdown_zero : countdown 0 = [] :=
  rfl

/-- One round prints the word and goes on with the one below; the recursion of `loop_spec`. -/
theorem countdown_pred {v : UInt32} (hv : v ≠ 0) :
    countdown v = signed v :: countdown (v - 1) := by
  have hrest : ∀ k, signed (v - UInt32.ofNat (k + 1)) = signed (v - 1 - UInt32.ofNat k) := by
    intro k
    congr 1
    rw [UInt32.ofNat_add]
    grind
  unfold countdown
  rw [toNat_pred hv, List.range_succ_eq_map, List.map_cons, List.map_map]
  show signed (v - 0) :: _ = _
  rw [UInt32.sub_zero]
  exact congrArg _ (List.map_congr_left fun k _ => hrest k)

/-- As many lines as the word says, read without a sign. -/
theorem length_countdown (v : UInt32) : (countdown v).length = v.toNat := by
  rw [countdown, List.length_map, List.length_range]

/-- For a number that is not negative the lines are the numbers down to 1. -/
theorem countdown_nonneg {v : UInt32} (hv : 0 ≤ signed v) :
    countdown v = (List.range v.toNat).map fun k : ℕ => (v.toNat : ℤ) - k := by
  have hhalf : v.toNat < 2 ^ 31 := by
    have hlt := v.toNat_lt
    rw [signed_eq] at hv
    split at hv <;> omega
  apply List.map_congr_left
  intro k hk
  have hk : k < v.toNat := List.mem_range.mp hk
  rw [signed_eq, UInt32.toNat_sub, UInt32.toNat_ofNat']
  split <;> omega

/-! ## The frame

Where `main` is on its stack. The alignment depends on the caller, so the distance to what has been
saved is not a constant; it is only known to lie in a range. -/

section Frame

variable {W : Type}

/-- Where the frame of `main` starts. -/
def frame (s₀ : State W) : UInt32 :=
  ((s₀.reg .esp - 4) &&& -16) - 32

/-- How far above the start of the frame the `ebp` of the caller is. -/
def savedAt (s₀ : State W) : UInt32 :=
  32 + (s₀.reg .esp - 4) % 16

theorem toNat_savedAt (s₀ : State W) :
    32 ≤ (savedAt s₀).toNat ∧ (savedAt s₀).toNat < 48 := by
  have hrest : ((s₀.reg .esp - 4) % 16).toNat < 16 := by
    rw [UInt32.toNat_mod]
    exact Nat.mod_lt _ (by decide)
  rw [savedAt, UInt32.toNat_add]
  show 32 ≤ (32 + _) % 2 ^ 32 ∧ (32 + _) % 2 ^ 32 < 48
  omega

/-- At that distance from the frame the `ebp` of the caller has been pushed. -/
theorem frame_savedAt (s₀ : State W) : frame s₀ + savedAt s₀ = s₀.reg .esp - 4 := by
  rw [frame, savedAt, Sem8.align16]
  grind

end Frame

/-- `main` is called; the data of the library is not on its stack. -/
structure Called (own : UInt32 → Prop) (s₀ : State World) : Prop where
  pc : s₀.pc = 0
  returned : s₀.returned = false
  depth : s₀.depth = 0
  output : s₀.world.output = []
  apart : ∀ x, own x → ¬ InArea (frame s₀) 52 x

/-- In `main`, with the number `v` and the `ebp` of the caller in the frame. -/
structure Holding (s₀ : State World) (v : UInt32) (w : World) (s : State World) : Prop where
  returned : s.returned = false
  depth : s.depth = 0
  esp : s.reg .esp = frame s₀
  ebp : s.reg .ebp = s₀.reg .esp - 4
  saved : ∀ r ∈ [Reg.ebx, .esi, .edi], s.reg r = s₀.reg r
  value : load32 s.mem (frame s₀ + 8) = v
  caller : load32 s.mem (frame s₀ + savedAt s₀) = s₀.reg .ebp
  world : s.world = w

section Run

variable {I : Image} {s₀ s : State World} {v : UInt32} {w : World} {depth : ℕ}
  {own : UInt32 → Prop}

/-- A word of the frame above the arguments is not in the data of the library. -/
theorem not_own (hown : ∀ x, own x → ¬ InArea (frame s₀) 52 x) {d : UInt32}
    (hd : d.toNat + 4 ≤ 52) {x : UInt32} (hx : InArea (frame s₀ + d) 4 x) : ¬ own x :=
  fun hx' => hown x hx' (hx.of_part hd)

/-- **Up to the loop.** The registers have been saved, the stack is aligned, and the number that
was read is in its place in the frame. -/
theorem begin_spec (hlib : Libc I depth own) (h : Called own s₀) {rest : List UInt32}
    (hinput : s₀.world.input = v :: rest) :
    ∃ t, Steps I.machine s₀ t ∧ Holding s₀ v ⟨rest, []⟩ t ∧ t.pc = 12 := by
  set F := frame s₀ with hF
  obtain ⟨hlow, hhigh⟩ := toNat_savedAt s₀
  have hdepth := hlib.depth
  -- the frame and the arguments of `scanf`
  set u := run I.machine ((program I.SC I.PR).take 9) s₀ with hu
  have hblock : Steps I.machine s₀ u := Steps.block 0 ⟨_, rfl⟩ rfl h.pc h.returned
  have hpcu : u.pc = 9 := by
    rw [hu, run_pc, h.pc]
    rfl
  have hesp : u.reg .esp = F := rfl
  have hmem : u.mem = store32 (store32 (store32 s₀.mem (F + savedAt s₀) (s₀.reg .ebp))
      (F + 0) I.SC) (F + 4) (F + 8) := by
    rw [hF, frame_savedAt, ← hF, ← hesp, ← eval_based 0 .esp u.reg, ← eval_based 4 .esp u.reg]
    rfl
  set a : State World := { u with pc := u.pc + 1 } with ha
  have hformat : a.argument 0 = I.SC := by
    show load32 u.mem (u.reg .esp + 0) = I.SC
    rw [hesp, hmem]
    simp (disch := decide) only [load32_store32_ne, load32_store32]
  have hpointer : a.argument 4 = F + 8 := by
    show load32 u.mem (u.reg .esp + 4) = F + 8
    rw [hesp, hmem, load32_store32]
  have hpointers : pointers [4] a = [F + 8] := congrArg (fun p => [p]) hpointer
  have hcaller : load32 u.mem (F + savedAt s₀) = s₀.reg .ebp := by
    rw [hmem, load32_store32_ne _ (Or.inl (by show 4 + 4 ≤ _; omega)) (by decide) (by omega),
      load32_store32_ne _ (Or.inl (by show 0 + 4 ≤ _; omega)) (by decide) (by omega),
      load32_store32]
  have hseparate : Separate [4] 4 depth own a := by
    refine ⟨by rw [hpointers]; exact List.pairwise_singleton _ _, fun p hp x hx => ?_⟩
    rw [hpointers, List.mem_singleton] at hp
    subst hp
    refine ⟨?_, fun hin => ?_, not_own h.apart (by decide) hx⟩
    · show ¬ Below F depth x
      exact not_below_of_inArea hx (by show 8 + 4 + depth ≤ _; omega)
    · have hin : InArea (F + 0) 8 x := by
        rw [UInt32.add_zero]
        exact hin
      exact hin.not_of_lt (by decide) (by decide) hx
  obtain ⟨-, hvalue, hworld⟩ := hlib.scanf.next a v rest hformat hseparate hinput
  rw [hpointers] at hvalue
  have hvalue : load32 (I.machine.out .scanf a).mem (F + 8) = v := (List.cons.inj hvalue).1
  -- behind `scanf`
  set b := run I.machine [.callOut .scanf, .movl (.mem (based 8 .esp)) .eax,
    .movlTo (.reg .eax) (based 4 .esp)] u with hb
  have hcall : Steps I.machine u b := Steps.block 9 ⟨_, rfl⟩ rfl hpcu h.returned
  have hpcb : b.pc = 12 := by
    rw [hb, run_pc, hpcu]
    rfl
  have hsaved : ∀ r ∈ calleeSaved, (I.machine.out .scanf a).reg r = a.reg r :=
    fun r hr => hlib.scanf.cdecl.saved a r hr
  have hespb : b.reg .esp = F := (hsaved .esp (by decide)).trans hesp
  have hmemb : b.mem = store32 (I.machine.out .scanf a).mem (F + 4) (b.reg .eax) := by
    rw [← hespb, ← eval_based 4 .esp b.reg]
    rfl
  refine ⟨b, hblock.trans hcall, ⟨h.returned, h.depth, hespb, ?_, ?_, ?_, ?_, ?_⟩, hpcb⟩
  · exact hsaved .ebp (by decide)
  · intro r hr
    have hr' : r ∈ calleeSaved := by
      simp only [List.mem_cons, List.not_mem_nil, or_false] at hr
      rcases hr with rfl | rfl | rfl <;> decide
    have hkept : b.reg r = (I.machine.out .scanf a).reg r := by
      simp only [List.mem_cons, List.not_mem_nil, or_false] at hr
      rcases hr with rfl | rfl | rfl <;> rfl
    rw [hkept, hsaved r hr']
    simp only [List.mem_cons, List.not_mem_nil, or_false] at hr
    rcases hr with rfl | rfl | rfl <;> rfl
  · rw [hmemb, load32_store32_ne _ (Or.inl (by decide)) (by decide) (by decide), hvalue]
  · rw [hmemb, load32_store32_ne _ (Or.inl (by show 4 + 4 ≤ _; omega)) (by decide) (by omega),
      ← hcaller]
    refine hlib.scanf.cdecl.load a (by show 8 ≤ _; omega) (by omega) fun x hx => ⟨?_, ?_⟩
    · exact not_own h.apart (by omega) hx
    · intro ⟨p, hp, hpx⟩
      rw [hpointers, List.mem_singleton] at hp
      subst hp
      exact hpx.not_of_lt (by show 8 + 4 ≤ _; omega) (by show _ ≤ 2 ^ 32 + 8; omega) hx
  · show (I.machine.out .scanf a).world = _
    rw [hworld]
    show (⟨rest, s₀.world.output⟩ : World) = _
    rw [h.output]

/-- The test at the head of the loop: the number is in `eax`. -/
theorem head_spec (I : Image) (h : Holding s₀ v w s) (hpc : s.pc = 12) :
    ∃ t, Steps I.machine s t ∧ Holding s₀ v w t ∧ t.pc = (if v = 0 then 22 else 16) ∧
      t.reg .eax = v := by
  set u := run I.machine [.label .main_loop, .movl (.mem (based 8 .esp)) .eax,
    .cmpl (.imm 0) .eax] s with hu
  have hblock : Steps I.machine s u := Steps.block 12 ⟨_, rfl⟩ rfl hpc h.returned
  have hpcu : u.pc = 15 := by
    rw [hu, run_pc, hpc]
    rfl
  have heax : u.reg .eax = v := by
    show load32 s.mem ((based 8 .esp).eval s.reg) = v
    rw [eval_based, h.esp, h.value]
  have hjump : I.machine.prog[u.pc]? = some (.jcc .e .main_end) := by
    rw [hpcu]
    rfl
  have hflags : Cond.e.holds u.flags = true ↔ v = 0 := by
    rw [← heax]
    exact Cond.holds_e
  have hbranch := Steps.branch hjump h.returned hflags
  rw [hpcu] at hbranch
  have hsaved : ∀ r ∈ [Reg.ebx, .esi, .edi], u.reg r = s₀.reg r := by
    intro r hr
    rw [← h.saved r hr]
    simp only [List.mem_cons, List.not_mem_nil, or_false] at hr
    rcases hr with rfl | rfl | rfl <;> rfl
  exact ⟨_, hblock.trans hbranch,
    ⟨h.returned, h.depth, h.esp, h.ebp, hsaved, h.value, h.caller, h.world⟩, rfl, heax⟩

/-- **One round**: the number is printed, and the one below it is in the frame. -/
theorem round_spec (hlib : Libc I depth own) (hown : ∀ x, own x → ¬ InArea (frame s₀) 52 x)
    (h : Holding s₀ v w s) (hpc : s.pc = 16) (heax : s.reg .eax = v) :
    ∃ t, Steps I.machine s t ∧
      Holding s₀ (v - 1) { w with output := w.output ++ [signed v] } t ∧ t.pc = 12 := by
  set F := frame s₀ with hF
  obtain ⟨hlow, hhigh⟩ := toNat_savedAt s₀
  have hdepth := hlib.depth
  set u := run I.machine [.movlTo (.reg .eax) (based 4 .esp), .movlTo (.imm I.PR) (based 0 .esp),
    .alu .sub (.imm 1) .eax, .movlTo (.reg .eax) (based 8 .esp)] s with hu
  have hblock : Steps I.machine s u := Steps.block 16 ⟨_, rfl⟩ rfl hpc h.returned
  have hpcu : u.pc = 20 := by
    rw [hu, run_pc, hpc]
    rfl
  have hesp : u.reg .esp = F := h.esp
  have hmem : u.mem = store32 (store32 (store32 s.mem (F + 4) v) (F + 0) I.PR) (F + 8) (v - 1) := by
    rw [← hesp, ← eval_based 4 .esp u.reg, ← eval_based 0 .esp u.reg, ← eval_based 8 .esp u.reg,
      ← heax]
    rfl
  set a : State World := { u with pc := u.pc + 1 } with ha
  have hformat : a.argument 0 = I.PR := by
    show load32 u.mem (u.reg .esp + 0) = I.PR
    rw [hesp, hmem]
    simp (disch := decide) only [load32_store32_ne, load32_store32]
  have hargument : a.argument 4 = v := by
    show load32 u.mem (u.reg .esp + 4) = v
    rw [hesp, hmem]
    simp (disch := decide) only [load32_store32_ne, load32_store32]
  have hvalue : load32 u.mem (F + 8) = v - 1 := by
    rw [hmem, load32_store32]
  have hcaller : load32 u.mem (F + savedAt s₀) = s₀.reg .ebp := by
    rw [hmem, load32_store32_ne _ (Or.inl (by show 8 + 4 ≤ _; omega)) (by decide) (by omega),
      load32_store32_ne _ (Or.inl (by show 0 + 4 ≤ _; omega)) (by decide) (by omega),
      load32_store32_ne _ (Or.inl (by show 4 + 4 ≤ _; omega)) (by decide) (by omega), h.caller]
  -- `printf` leaves what is above its two arguments
  set b := run I.machine [.callOut .printf] u with hb
  have hcall : Steps I.machine u b := Steps.block 20 ⟨_, rfl⟩ rfl hpcu h.returned
  have hpcb : b.pc = 21 := by
    rw [hb, run_pc, hpcu]
    rfl
  have hjump : I.machine.prog[b.pc]? = some (.jmp .main_loop) := by
    rw [hpcb]
    rfl
  have hagain := Steps.jmp hjump h.returned
  have hsaved : ∀ r ∈ calleeSaved, b.reg r = u.reg r :=
    fun r hr => hlib.printf.cdecl.saved a r hr
  have hkept : ∀ d : UInt32, 8 ≤ d.toNat ∧ d.toNat + 4 ≤ 52 →
      load32 b.mem (F + d) = load32 u.mem (F + d) := by
    intro d hd
    rw [← hesp]
    refine hlib.printf.cdecl.load a hd.1 (by omega) fun x hx => ⟨?_, id⟩
    have hx : InArea (u.reg .esp + d) 4 x := hx
    rw [hesp] at hx
    exact not_own hown hd.2 hx
  refine ⟨_, (hblock.trans hcall).trans hagain,
    ⟨h.returned, h.depth, ?_, ?_, ?_, ?_, ?_, ?_⟩, rfl⟩
  · exact (hsaved .esp (by decide)).trans hesp
  · exact (hsaved .ebp (by decide)).trans h.ebp
  · intro r hr
    rw [← h.saved r hr]
    simp only [List.mem_cons, List.not_mem_nil, or_false] at hr
    rcases hr with rfl | rfl | rfl <;> exact hsaved _ (by decide)
  · exact (hkept 8 (by decide)).trans hvalue
  · exact (hkept (savedAt s₀) (by omega)).trans hcaller
  · have hworld : b.world = { a.world with output := a.world.output ++ [signed (a.argument 4)] } :=
      hlib.printf.line a hformat
    have hbefore : a.world = w := h.world
    rw [hbefore, hargument] at hworld
    exact hworld

/-- What `main` leaves of its caller. -/
structure Done (s₀ : State World) (w : World) (t : State World) : Prop where
  returned : t.returned = true
  eax : t.reg .eax = 0
  saved : ∀ r ∈ [Reg.ebx, .esi, .edi, .ebp], t.reg r = s₀.reg r
  esp : t.reg .esp = s₀.reg .esp + 4
  world : t.world = w

/-- The epilogue: the registers of the caller are back and the stack is as it was before the call.
-/
theorem end_spec (I : Image) (h : Holding s₀ v w s) (hpc : s.pc = 22) :
    ∃ t, Steps I.machine s t ∧ Done s₀ w t := by
  set u := run I.machine [.label .main_end, .alu .xor (.reg .eax) .eax, .movl (.reg .ebp) .esp,
    .popl .ebp] s with hu
  have hblock : Steps I.machine s u := Steps.block 22 ⟨_, rfl⟩ rfl hpc h.returned
  have hret : I.machine.prog[u.pc]? = some .ret := by
    rw [hu, run_pc, hpc]
    rfl
  have hebp : u.reg .ebp = s₀.reg .ebp := by
    show load32 s.mem (s.reg .ebp) = _
    rw [h.ebp, ← frame_savedAt, h.caller]
  have hesp : u.reg .esp = s₀.reg .esp := by
    show s.reg .ebp + 4 = _
    rw [h.ebp, UInt32.sub_add_cancel]
  refine ⟨_, hblock.trans (Steps.finish hret h.returned h.depth), rfl, ?_, fun r hr => ?_, ?_,
    h.world⟩
  · exact UInt32.xor_self
  · simp only [List.mem_cons, List.not_mem_nil, or_false] at hr
    rcases hr with rfl | rfl | rfl | rfl
    · exact h.saved .ebx (by decide)
    · exact h.saved .esi (by decide)
    · exact h.saved .edi (by decide)
    · exact hebp
  · show u.reg .esp + 4 = _
    rw [hesp]

/-- **The loop.** Induction on the number in the frame. -/
theorem loop_spec (hlib : Libc I depth own) (hown : ∀ x, own x → ¬ InArea (frame s₀) 52 x)
    (n : ℕ) : ∀ {v : UInt32} {w : World} {s : State World}, v.toNat = n → Holding s₀ v w s →
      s.pc = 12 → ∃ t, Steps I.machine s t ∧
        Done s₀ { w with output := w.output ++ countdown v } t := by
  induction n with
  | zero =>
    intro v w s hv h hpc
    obtain rfl : v = 0 := UInt32.toNat_inj.mp hv
    obtain ⟨u, hhead, hu, hpcu, -⟩ := head_spec I h hpc
    obtain ⟨t, hend, ht⟩ := end_spec I hu hpcu
    rw [countdown_zero, List.append_nil]
    exact ⟨t, hhead.trans hend, ht⟩
  | succ n ih =>
    intro v w s hv h hpc
    have hne : v ≠ 0 := by
      rintro rfl
      exact absurd hv (Nat.succ_ne_zero n).symm
    have hpred := toNat_pred hne
    obtain ⟨u, hhead, hu, hpcu, heax⟩ := head_spec I h hpc
    rw [if_neg hne] at hpcu
    obtain ⟨u', hround, hu', hpcu'⟩ := round_spec hlib hown hu hpcu heax
    obtain ⟨t, hrest, ht⟩ := ih (by omega) hu' hpcu'
    refine ⟨t, (hhead.trans hround).trans hrest, ?_⟩
    rw [countdown_pred hne]
    rw [List.append_assoc] at ht
    exact ht

/-- **The countdown.** For every number that can be read, also a negative one, whose words go
through all of 32 bits, the run ends with the number, the one below it and so on down to 1 printed,
and gives its caller all registers back. -/
theorem loop_prints (hlib : Libc I depth own) (h : Called own s₀) {rest : List UInt32}
    (hinput : s₀.world.input = v :: rest) :
    ∃ t, Steps I.machine s₀ t ∧ Done s₀ ⟨rest, countdown v⟩ t ∧
      t.world.output.length = v.toNat ∧
      (0 ≤ signed v →
        t.world.output = (List.range v.toNat).map fun k : ℕ => (v.toNat : ℤ) - k) := by
  obtain ⟨u, hbegin, hu, hpcu⟩ := begin_spec hlib h hinput
  obtain ⟨t, hloop, ht⟩ := loop_spec hlib h.apart v.toNat rfl hu hpcu
  rw [List.nil_append] at ht
  refine ⟨t, hbegin.trans hloop, ht, ?_, fun hv => ?_⟩
  · rw [ht.world]
    exact length_countdown v
  · rw [ht.world]
    exact countdown_nonneg hv

end Run

/-! ## A C library

An instance of the contracts, with which the program runs. It shows that the hypotheses of the
theorem can be met. -/

/-- The program, linked with functions that do what their contracts say. -/
def reference : Image where
  text := 0x8048000
  SC := 0x8049000
  PR := 0x8049010
  out
    | .scanf => scan [4] store32 fun v => [v]
    | .printf => print fun s => signed (s.argument 4)
  ops := ⟨fun _ _ => .equal, fun x _ => x, fun x _ => x⟩

theorem length_one (v : UInt32) : [v].length = [(4 : UInt32)].length :=
  rfl

/-- The instance meets the contracts, by the general facts about `scan` and `print`. -/
theorem reference_libc : Libc reference 0 fun _ => False where
  scanf := scans_scan [4] stored32 rfl length_one (by decide) _ _ _
  printf := prints_print rfl _ _ _ _
  depth := by decide

def started (input : List UInt32) : State World where
  pc := 0
  reg _ := 0xBFFFF000
  xmm _ := 0
  flags := .logic 0
  mem _ := 0
  log := []
  depth := 0
  returned := false
  world := ⟨input, []⟩

theorem started_called (input : List UInt32) : Called (fun _ => False) (started input) where
  pc := rfl
  returned := rfl
  depth := rfl
  output := rfl
  apart _ h := h.elim

theorem loop_prints_three : ∃ t, Steps reference.machine (started [3]) t ∧
    t.returned = true ∧ t.world.output = [3, 2, 1] := by
  obtain ⟨t, hsteps, hdone, -, hlines⟩ :=
    loop_prints reference_libc (started_called [3]) rfl
  exact ⟨t, hsteps, hdone.returned, (hlines (by decide)).trans (by decide)⟩

end HseDev.Sem6.Loop
