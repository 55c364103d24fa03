import HseDev.Lib.Assembly

/-!
# HseDev — the comparison of `sem6/strcmp.S`

`mystrcmp` walks over two strings at once, byte by byte, until the bytes differ or both are
NUL. The text is modelled instruction by instruction, from its label on.

* **`compared`** — what it returns, by the lexicographic order of the bytes.
* **`round_below`** / **`round_above`** / **`round_ends`** / **`round_next`** — one round of the
  loop, by what the two bytes are.
* **`loop_spec`** — the loop from any two places on, by induction on the rest of a string.
* **`mystrcmp_orders`** — the whole routine: it returns, with the order of the strings, and
  has read neither beyond its NUL.
-/

namespace HseDev.Sem6.StrCmp

open X86 Assembly

/-! ## The program

The text of `mystrcmp`. Its labels are those of the source, and the four ways out of a round lead to
the three results. -/

inductive Label where
  | mystrcmp
  | CMP
  | CMPB
  | CMPA
  | EQ
  | ENDING
  deriving DecidableEq, Repr

def mystrcmp : List (Instr Label Empty) :=
  [.label .mystrcmp,
   .pushl .ebp,
   .pushl .ebx,
   .movl (.reg .esp) .ebp,
   .movl (.mem (based 12 .ebp)) .eax,
   .movl (.mem (based 16 .ebp)) .ebx,
   .label .CMP,
   .movb (based 0 .eax) .ecx,
   .movb (based 0 .ebx) .edx,
   .cmpb .ecx .edx,
   .jcc .b .CMPB,
   .jcc .a .CMPA,
   .testb .ecx .ecx,
   .jcc .e .EQ,
   .inc .eax,
   .inc .ebx,
   .jmp .CMP,
   .label .CMPB,
   .movl (.imm 1) .eax,
   .jmp .ENDING,
   .label .CMPA,
   .movl (.imm (-1)) .eax,
   .jmp .ENDING,
   .label .EQ,
   .alu .xor (.reg .eax) .eax,
   .label .ENDING,
   .movl (.reg .ebp) .esp,
   .popl .ebx,
   .popl .ebp,
   .ret]

/-- The routine in memory; it calls nothing outside. -/
def machine (text : UInt32) (ops : DoubleOps) : Machine Label Empty Unit where
  prog := mystrcmp
  text
  out f := f.elim
  ops

/-! ## Strings

A string as bytes of memory with a NUL behind them, and the order in which two strings stand. The
routine compares bytes without a sign, and the order on lists of `UInt8` does too. -/

/-- A string without NULs at `p`, with a NUL behind it. -/
structure StringAt (m : Memory) (p : UInt32) (str : List UInt8) : Prop where
  noNul : 0 ∉ str
  byte : ∀ i (h : i < str.length), m (p + UInt32.ofNat i) = str[i]
  nul : m (p + UInt32.ofNat str.length) = 0

/-- The address of a byte of the string or of its NUL. -/
def InString (p : UInt32) (str : List UInt8) (x : UInt32) : Prop :=
  ∃ i ≤ str.length, x = p + UInt32.ofNat i

/-- The order of two strings, as `mystrcmp` returns it. -/
def compared (a b : List UInt8) : UInt32 :=
  if a = b then 0 else if a < b then -1 else 1

section Strings

variable {m m' : Memory} {p q x : UInt32} {b : UInt8} {bs : List UInt8}

theorem StringAt.byte_nil (h : StringAt m p []) : m p = 0 := by
  have hnul : m (p + 0) = 0 := h.nul
  rwa [UInt32.add_zero] at hnul

theorem StringAt.byte_cons (h : StringAt m p (b :: bs)) : m p = b := by
  have hbyte : m (p + 0) = b := h.byte 0 (Nat.succ_pos _)
  rwa [UInt32.add_zero] at hbyte

/-- No byte of a string is a NUL, so the end is found by the first. -/
theorem StringAt.ne_nul (h : StringAt m p (b :: bs)) : b ≠ 0 := by
  intro hb
  apply h.noNul
  rw [hb]
  exact List.mem_cons_self

theorem add_one_add_ofNat (p : UInt32) (i : ℕ) :
    p + 1 + UInt32.ofNat i = p + UInt32.ofNat (i + 1) := by
  rw [UInt32.ofNat_add, UInt32.add_assoc, UInt32.add_comm 1]
  rfl

/-- Behind the first byte there is the rest of the string. -/
theorem StringAt.tail (h : StringAt m p (b :: bs)) : StringAt m (p + 1) bs where
  noNul hmem := h.noNul (List.mem_cons_of_mem _ hmem)
  byte i hi := by
    rw [add_one_add_ofNat]
    exact h.byte (i + 1) (Nat.succ_lt_succ hi)
  nul := by
    rw [add_one_add_ofNat]
    exact h.nul

/-- The first byte belongs to the string, or is its NUL. -/
theorem InString.start : InString p bs p :=
  ⟨0, Nat.zero_le _, UInt32.add_zero p |>.symm⟩

theorem InString.tail (h : InString (p + 1) bs x) : InString p (b :: bs) x := by
  obtain ⟨i, hi, rfl⟩ := h
  exact ⟨i + 1, Nat.succ_le_succ hi, add_one_add_ofNat p i⟩

/-- A string depends on its own bytes. -/
theorem StringAt.congr (h : StringAt m p bs) (hm : ∀ x, InString p bs x → m' x = m x) :
    StringAt m' p bs where
  noNul := h.noNul
  byte i hi := by
    rw [hm _ ⟨i, hi.le, rfl⟩]
    exact h.byte i hi
  nul := by
    rw [hm _ ⟨_, le_rfl, rfl⟩]
    exact h.nul

end Strings

section Order

variable {x y : UInt8} {a b c : List UInt8}

theorem compared_self : compared a a = 0 :=
  if_pos rfl

theorem compared_of_lt (h : a < b) : compared a b = -1 := by
  have hne : a ≠ b := by
    rintro rfl
    exact List.lt_irrefl a h
  rw [compared, if_neg hne, if_pos h]

theorem compared_of_gt (h : b < a) : compared a b = 1 := by
  have hne : a ≠ b := by
    rintro rfl
    exact List.lt_irrefl a h
  rw [compared, if_neg hne, if_neg (List.lt_asymm h)]

/-- Equal first bytes decide nothing; this is the recursion of the loop. -/
theorem compared_cons : compared (x :: a) (x :: b) = compared a b := by
  simp [compared]

/-- Antisymmetry of the result. -/
theorem compared_neg (a b : List UInt8) : compared a b = -compared b a := by
  rcases Std.lt_trichotomy a b with hlt | heq | hgt
  · rw [compared_of_lt hlt, compared_of_gt hlt]
  · rw [heq, compared_self]
    rfl
  · rw [compared_of_gt hgt, compared_of_lt hgt]
    rfl

/-- Not positive means at most equal, from which transitivity follows. -/
theorem compared_nonpos : signed (compared a b) ≤ 0 ↔ a ≤ b := by
  rcases Std.lt_trichotomy a b with hlt | heq | hgt
  · rw [compared_of_lt hlt]
    exact iff_of_true (by decide) (List.le_of_lt hlt)
  · rw [heq, compared_self]
    exact iff_of_true (by decide) (List.le_refl b)
  · rw [compared_of_gt hgt]
    exact iff_of_false (by decide) (fun hle => hle hgt)

end Order

/-! ## The parts of the text

The routine from its labels on, backwards from the end: what follows a label is a lemma of its own,
with the saved registers as what they have in common. -/

section Parts

variable {s₀ s t : State Unit}

/-- The memory behind the two pushes. -/
def pushed (s₀ : State Unit) : Memory :=
  store32 (store32 s₀.mem (s₀.reg .esp - 4) (s₀.reg .ebp)) (s₀.reg .esp - 8) (s₀.reg .ebx)

/-- The two pushes write nothing above the stack pointer, and the strings are not below it. -/
theorem pushed_outside {x : UInt32} (h : ¬ Below (s₀.reg .esp) 8 x) :
    pushed s₀ x = s₀.mem x := by
  unfold pushed store32
  rw [storeBytes_outside, storeBytes_outside]
  · intro hx
    exact h ((below_of_inArea (k := 4) hx (by decide)).mono (by decide))
  · intro hx
    exact h ((below_of_inArea (k := 8) hx (by decide)).mono (by decide))

theorem load_pushed_ebx : load32 (pushed s₀) (s₀.reg .esp - 8) = s₀.reg .ebx :=
  load32_store32 _ _ _

theorem load_pushed_ebp : load32 (pushed s₀) (s₀.reg .esp - 4) = s₀.reg .ebp := by
  unfold pushed
  rw [load32_store32_apart, load32_store32]
  · rw [show s₀.reg .esp - 4 - (s₀.reg .esp - 8) = 4 by grind]
    decide
  · rw [show s₀.reg .esp - 8 - (s₀.reg .esp - 4) = -4 by grind]
    decide

/-- Inside the routine: `ebp` points to the saved registers. -/
structure Inside (s₀ s : State Unit) : Prop where
  returned : s.returned = false
  depth : s.depth = 0
  ebp : s.reg .ebp = s₀.reg .esp - 8
  esi : s.reg .esi = s₀.reg .esi
  edi : s.reg .edi = s₀.reg .edi
  mem : s.mem = pushed s₀

theorem Inside.jump (h : Inside s₀ s) (k : ℕ) : Inside s₀ { s with pc := k } :=
  ⟨h.returned, h.depth, h.ebp, h.esi, h.edi, h.mem⟩

/-- The routine has returned `v`; it has written nothing but the saved registers. -/
structure Returned (s₀ t : State Unit) (v : UInt32) : Prop where
  returned : t.returned = true
  eax : t.reg .eax = v
  ebx : t.reg .ebx = s₀.reg .ebx
  ebp : t.reg .ebp = s₀.reg .ebp
  esi : t.reg .esi = s₀.reg .esi
  edi : t.reg .edi = s₀.reg .edi
  esp : t.reg .esp = s₀.reg .esp + 4
  mem : t.mem = pushed s₀

theorem ending_spec (text : UInt32) (ops : DoubleOps) (h : Inside s₀ s) (hpc : s.pc = 25) :
    ∃ t, Steps (machine text ops) s t ∧ Returned s₀ t (s.reg .eax) ∧ t.log = s.log := by
  set is : List (Instr Label Empty) :=
    [.label .ENDING, .movl (.reg .ebp) .esp, .popl .ebx, .popl .ebp] with his
  set u := run (machine text ops) is s with hu
  have hblock : Steps (machine text ops) s u := Steps.block 25 ⟨_, rfl⟩ rfl hpc h.returned
  have hret : (machine text ops).prog[u.pc]? = some .ret := by
    rw [hu, run_pc, hpc]
    rfl
  have hreturned : u.returned = false := by
    rw [hu, run_returned]
    exact h.returned
  have hdepth : u.depth = 0 := by
    rw [hu, run_depth]
    exact h.depth
  refine ⟨_, hblock.trans (Steps.finish hret hreturned hdepth),
    ⟨rfl, rfl, ?_, ?_, h.esi, h.edi, ?_, h.mem⟩, rfl⟩
  · show load32 s.mem (s.reg .ebp) = s₀.reg .ebx
    rw [h.mem, h.ebp, load_pushed_ebx]
  · show load32 s.mem (s.reg .ebp + 4) = s₀.reg .ebp
    rw [h.mem, h.ebp, ← load_pushed_ebp]
    congr 1
    grind
  · show s.reg .ebp + 4 + 4 + 4 = s₀.reg .esp + 4
    rw [h.ebp]
    grind

/-- From `CMPB` or `CMPA` on: a constant is returned. -/
theorem differs_spec (text : UInt32) (ops : DoubleOps) (h : Inside s₀ s) {l : Label} {v : UInt32}
    (k : ℕ) (hcode : [.label l, .movl (.imm v) .eax] <+: mystrcmp.drop k)
    (hjmp : mystrcmp[k + 2]? = some (.jmp .ENDING)) (hpc : s.pc = k) :
    ∃ t, Steps (machine text ops) s t ∧ Returned s₀ t v ∧ t.log = s.log := by
  set is : List (Instr Label Empty) := [.label l, .movl (.imm v) .eax] with his
  set u := run (machine text ops) is s with hu
  have hblock : Steps (machine text ops) s u := Steps.block k hcode rfl hpc h.returned
  have hcodeu : (machine text ops).prog[u.pc]? = some (.jmp .ENDING) := by
    rw [hu, run_pc, hpc]
    exact hjmp
  have hinside : Inside s₀ { u with pc := place mystrcmp .ENDING } :=
    ⟨h.returned, h.depth, h.ebp, h.esi, h.edi, h.mem⟩
  obtain ⟨t, hsteps, hreturned, hlog⟩ := ending_spec text ops hinside rfl
  exact ⟨t, (hblock.trans (Steps.jmp hcodeu h.returned)).trans hsteps, hreturned, hlog⟩

theorem equal_spec (text : UInt32) (ops : DoubleOps) (h : Inside s₀ s) (hpc : s.pc = 23) :
    ∃ t, Steps (machine text ops) s t ∧ Returned s₀ t 0 ∧ t.log = s.log := by
  set is : List (Instr Label Empty) := [.label .EQ, .alu .xor (.reg .eax) .eax] with his
  set u := run (machine text ops) is s with hu
  have hblock : Steps (machine text ops) s u := Steps.block 23 ⟨_, rfl⟩ rfl hpc h.returned
  have hpcu : u.pc = 25 := by
    rw [hu, run_pc, hpc]
    rfl
  have hinside : Inside s₀ u := ⟨h.returned, h.depth, h.ebp, h.esi, h.edi, h.mem⟩
  obtain ⟨t, hsteps, hreturned, hlog⟩ := ending_spec text ops hinside hpcu
  refine ⟨t, hblock.trans hsteps, ?_, hlog⟩
  have hzero : u.reg .eax = 0 := UInt32.xor_self
  rwa [hzero] at hreturned

/-! ## One round

One round reads a byte through each pointer and compares them without a sign. There are five cases:
below, above, both NUL, equal and not NUL, and one string ends; the last is covered by the first
two, as a NUL is below every other byte. -/

/-- What one round reads: a byte through each pointer. -/
def roundReads (s : State Unit) : List Assembly.Access :=
  [⟨based 0 .eax, s.reg .eax, 1, false⟩, ⟨based 0 .ebx, s.reg .ebx, 1, false⟩]

/-- Both bytes have been read. -/
structure HasRound (s₀ s t : State Unit) : Prop where
  inside : Inside s₀ t
  eax : t.reg .eax = s.reg .eax
  ebx : t.reg .ebx = s.reg .ebx
  byte : lowByte (t.reg .ecx) = s.mem (s.reg .eax)
  log : t.log = s.log ++ roundReads s

/-- The reads and the comparison at the head of a round, common to all cases. -/
theorem compare_spec (text : UInt32) (ops : DoubleOps) (h : Inside s₀ s) (hpc : s.pc = 6) :
    ∃ t, Steps (machine text ops) s t ∧ HasRound s₀ s t ∧ t.pc = 10 ∧
      t.flags = Flags.subByte (s.mem (s.reg .ebx)) (s.mem (s.reg .eax)) := by
  set is : List (Instr Label Empty) :=
    [.label .CMP, .movb (based 0 .eax) .ecx, .movb (based 0 .ebx) .edx, .cmpb .ecx .edx]
    with his
  set u := run (machine text ops) is s with hu
  have hblock : Steps (machine text ops) s u := Steps.block 6 ⟨_, rfl⟩ rfl hpc h.returned
  have hpcu : u.pc = 10 := by
    rw [hu, run_pc, hpc]
    rfl
  have heax : (based 0 .eax).eval s.reg = s.reg .eax := by
    rw [eval_based, UInt32.add_zero]
  have hebx : ∀ v, (based 0 .ebx).eval (setReg s.reg .ecx v) = s.reg .ebx := by
    intro v
    rw [eval_based, UInt32.add_zero]
    rfl
  have hbyte : lowByte (u.reg .ecx) = s.mem (s.reg .eax) := by
    show lowByte (setLowByte (s.reg .ecx) (s.mem ((based 0 .eax).eval s.reg))) = _
    rw [lowByte_setLowByte, heax]
  have hflags : u.flags = Flags.subByte (s.mem (s.reg .ebx)) (s.mem (s.reg .eax)) := by
    show Flags.subByte (lowByte (setLowByte (s.reg .edx)
      (s.mem ((based 0 .ebx).eval (setReg s.reg .ecx _))))) (lowByte (u.reg .ecx)) = _
    rw [lowByte_setLowByte, hebx, hbyte]
  have hlog : u.log = s.log ++ roundReads s := by
    show s.log ++ [⟨_, (based 0 .eax).eval s.reg, 1, false⟩]
      ++ [⟨_, (based 0 .ebx).eval (setReg s.reg .ecx _), 1, false⟩] = s.log ++ roundReads s
    rw [hebx, heax, List.append_assoc]
    rfl
  have hinside : Inside s₀ u := ⟨h.returned, h.depth, h.ebp, h.esi, h.edi, h.mem⟩
  exact ⟨u, hblock, ⟨hinside, rfl, rfl, hbyte, hlog⟩, hpcu, hflags⟩

/-- The byte of the second string is the smaller one. -/
theorem round_below (text : UInt32) (ops : DoubleOps) (h : Inside s₀ s) (hpc : s.pc = 6)
    (hless : s.mem (s.reg .ebx) < s.mem (s.reg .eax)) :
    ∃ t, Steps (machine text ops) s t ∧ Returned s₀ t 1 ∧ t.log = s.log ++ roundReads s := by
  obtain ⟨u, hcompare, hu, hpcu, hflags⟩ := compare_spec text ops h hpc
  have hcode : (machine text ops).prog[u.pc]? = some (.jcc .b .CMPB) := by
    rw [hpcu]
    rfl
  have hbelow : Cond.b.holds u.flags = true := by
    rw [hflags, Cond.holds_b_byte]
    exact hless
  have hjump := Steps.taken hcode hu.inside.returned hbelow
  obtain ⟨t, hsteps, hreturned, hlog⟩ :=
    differs_spec text ops (hu.inside.jump (place mystrcmp .CMPB)) 17 ⟨_, rfl⟩ rfl rfl
  exact ⟨t, (hcompare.trans hjump).trans hsteps, hreturned, hlog.trans hu.log⟩

/-- Not below: the second jump tests the same flags. -/
theorem round_not_below (text : UInt32) (ops : DoubleOps) (h : Inside s₀ s) (hpc : s.pc = 6)
    (hless : ¬ s.mem (s.reg .ebx) < s.mem (s.reg .eax)) :
    ∃ t, Steps (machine text ops) s t ∧ HasRound s₀ s t ∧ t.pc = 11 ∧
      t.flags = Flags.subByte (s.mem (s.reg .ebx)) (s.mem (s.reg .eax)) := by
  obtain ⟨u, hcompare, hu, hpcu, hflags⟩ := compare_spec text ops h hpc
  have hcode : (machine text ops).prog[u.pc]? = some (.jcc .b .CMPB) := by
    rw [hpcu]
    rfl
  have hbelow : ¬ Cond.b.holds u.flags = true := by
    rw [hflags, Cond.holds_b_byte]
    exact hless
  have hskip := Steps.skipped hcode hu.inside.returned hbelow
  rw [hpcu] at hskip
  exact ⟨_, hcompare.trans hskip, ⟨hu.inside.jump 11, hu.eax, hu.ebx, hu.byte, hu.log⟩, rfl,
    hflags⟩

/-- The byte of the first string is the smaller one. -/
theorem round_above (text : UInt32) (ops : DoubleOps) (h : Inside s₀ s) (hpc : s.pc = 6)
    (hless : s.mem (s.reg .eax) < s.mem (s.reg .ebx)) :
    ∃ t, Steps (machine text ops) s t ∧ Returned s₀ t (-1) ∧ t.log = s.log ++ roundReads s := by
  obtain ⟨u, hcompare, hu, hpcu, hflags⟩ :=
    round_not_below text ops h hpc (UInt8.lt_asymm hless)
  have hcode : (machine text ops).prog[u.pc]? = some (.jcc .a .CMPA) := by
    rw [hpcu]
    rfl
  have habove : Cond.a.holds u.flags = true := by
    rw [hflags, Cond.holds_a_byte]
    exact hless
  have hjump := Steps.taken hcode hu.inside.returned habove
  obtain ⟨t, hsteps, hreturned, hlog⟩ :=
    differs_spec text ops (hu.inside.jump (place mystrcmp .CMPA)) 20 ⟨_, rfl⟩ rfl rfl
  exact ⟨t, (hcompare.trans hjump).trans hsteps, hreturned, hlog.trans hu.log⟩

/-- Equal bytes are tested for the end of the strings. -/
theorem round_same (text : UInt32) (ops : DoubleOps) (h : Inside s₀ s) (hpc : s.pc = 6)
    (hsame : s.mem (s.reg .ebx) = s.mem (s.reg .eax)) :
    ∃ t, Steps (machine text ops) s t ∧ HasRound s₀ s t ∧ t.pc = 13 ∧
      t.flags = Flags.logicByte (s.mem (s.reg .eax)) := by
  have hirrefl : ¬ s.mem (s.reg .ebx) < s.mem (s.reg .eax) := by
    rw [hsame]
    exact UInt8.lt_irrefl _
  obtain ⟨u, hcompare, hu, hpcu, hflags⟩ := round_not_below text ops h hpc hirrefl
  have hcode : (machine text ops).prog[u.pc]? = some (.jcc .a .CMPA) := by
    rw [hpcu]
    rfl
  have habove : ¬ Cond.a.holds u.flags = true := by
    rw [hflags, Cond.holds_a_byte, hsame]
    exact UInt8.lt_irrefl _
  have hskip := Steps.skipped hcode hu.inside.returned habove
  rw [hpcu] at hskip
  set v := run (machine text ops) [.testb .ecx .ecx] { u with pc := 12 } with hv
  have hblock : Steps (machine text ops) { u with pc := 12 } v :=
    Steps.block 12 ⟨_, rfl⟩ rfl rfl hu.inside.returned
  have hflagsv : v.flags = Flags.logicByte (s.mem (s.reg .eax)) := by
    show Flags.logicByte (lowByte (u.reg .ecx) &&& lowByte (u.reg .ecx)) = _
    rw [UInt8.and_self, hu.byte]
  obtain ⟨hret, hdepth, hebp, hesi, hedi, hmem⟩ := hu.inside
  have hround : HasRound s₀ s v :=
    ⟨⟨hret, hdepth, hebp, hesi, hedi, hmem⟩, hu.eax, hu.ebx, hu.byte, hu.log⟩
  exact ⟨v, (hcompare.trans hskip).trans hblock, hround, rfl, hflagsv⟩

theorem round_ends (text : UInt32) (ops : DoubleOps) (h : Inside s₀ s) (hpc : s.pc = 6)
    (hsame : s.mem (s.reg .ebx) = s.mem (s.reg .eax)) (hnul : s.mem (s.reg .eax) = 0) :
    ∃ t, Steps (machine text ops) s t ∧ Returned s₀ t 0 ∧ t.log = s.log ++ roundReads s := by
  obtain ⟨u, htest, hu, hpcu, hflags⟩ := round_same text ops h hpc hsame
  have hcode : (machine text ops).prog[u.pc]? = some (.jcc .e .EQ) := by
    rw [hpcu]
    rfl
  have hzero : Cond.e.holds u.flags = true := by
    rw [hflags, Cond.holds_e_byte]
    exact hnul
  have hjump := Steps.taken hcode hu.inside.returned hzero
  obtain ⟨t, hsteps, hreturned, hlog⟩ :=
    equal_spec text ops (hu.inside.jump (place mystrcmp .EQ)) rfl
  exact ⟨t, (htest.trans hjump).trans hsteps, hreturned, hlog.trans hu.log⟩

/-- Both strings go on: the next round starts at the next bytes. -/
theorem round_next (text : UInt32) (ops : DoubleOps) (h : Inside s₀ s) (hpc : s.pc = 6)
    (hsame : s.mem (s.reg .ebx) = s.mem (s.reg .eax)) (hnul : s.mem (s.reg .eax) ≠ 0) :
    ∃ t, Steps (machine text ops) s t ∧ Inside s₀ t ∧ t.pc = 6 ∧
      t.reg .eax = s.reg .eax + 1 ∧ t.reg .ebx = s.reg .ebx + 1 ∧
      t.log = s.log ++ roundReads s := by
  obtain ⟨u, htest, hu, hpcu, hflags⟩ := round_same text ops h hpc hsame
  have hcode : (machine text ops).prog[u.pc]? = some (.jcc .e .EQ) := by
    rw [hpcu]
    rfl
  have hzero : ¬ Cond.e.holds u.flags = true := by
    rw [hflags, Cond.holds_e_byte]
    exact hnul
  have hskip := Steps.skipped hcode hu.inside.returned hzero
  rw [hpcu] at hskip
  set v := run (machine text ops) [.inc .eax, .inc .ebx] { u with pc := 14 } with hv
  have hblock : Steps (machine text ops) { u with pc := 14 } v :=
    Steps.block 14 ⟨_, rfl⟩ rfl rfl hu.inside.returned
  have hback : Steps (machine text ops) v { v with pc := place mystrcmp .CMP } :=
    Steps.jmp rfl hu.inside.returned
  have heax : v.reg .eax = s.reg .eax + 1 := congrArg (· + 1) hu.eax
  have hebx : v.reg .ebx = s.reg .ebx + 1 := congrArg (· + 1) hu.ebx
  obtain ⟨hret, hdepth, hebp, hesi, hedi, hmem⟩ := hu.inside
  exact ⟨_, ((htest.trans hskip).trans hblock).trans hback, ⟨hret, hdepth, hebp, hesi, hedi, hmem⟩,
    rfl, heax, hebx, hu.log⟩

/-! ## The loop

Induction on the first string, with the second running along. The accesses of a round are in the two
strings or at their NULs, and so are those of all rounds. -/

/-- A one-byte read through the first pointer in `a` at `p`, or through the second in `b` at
`q`. -/
def ReadsByte (p : UInt32) (a : List UInt8) (q : UInt32) (b : List UInt8)
    (access : Assembly.Access) : Prop :=
  access.size = 1 ∧ access.store = false ∧
    (access.operand = based 0 .eax ∧ InString p a access.address ∨
      access.operand = based 0 .ebx ∧ InString q b access.address)

theorem readsByte_round {a b : List UInt8} {access : Assembly.Access}
    (h : access ∈ roundReads s) : ReadsByte (s.reg .eax) a (s.reg .ebx) b access := by
  rcases List.mem_pair.mp h with rfl | rfl
  · exact ⟨rfl, rfl, .inl ⟨rfl, .start⟩⟩
  · exact ⟨rfl, rfl, .inr ⟨rfl, .start⟩⟩

theorem ReadsByte.tail {p q : UInt32} {x y : UInt8} {a b : List UInt8} {access : Assembly.Access}
    (h : ReadsByte (p + 1) a (q + 1) b access) : ReadsByte p (x :: a) q (y :: b) access := by
  obtain ⟨hsize, hstore, ⟨hop, hin⟩ | ⟨hop, hin⟩⟩ := h
  · exact ⟨hsize, hstore, .inl ⟨hop, hin.tail⟩⟩
  · exact ⟨hsize, hstore, .inr ⟨hop, hin.tail⟩⟩

/-- The loop ends with the order of the rests of the strings, and what it reads since `s` lies in
them. -/
def Ends (text : UInt32) (ops : DoubleOps) (s₀ s : State Unit) (a b : List UInt8) : Prop :=
  ∃ t, Steps (machine text ops) s t ∧ Returned s₀ t (compared a b) ∧
    ∀ access ∈ t.log, access ∈ s.log ∨ ReadsByte (s.reg .eax) a (s.reg .ebx) b access

/-- A round that is the last one. -/
theorem ends_of_round {text : UInt32} {ops : DoubleOps} {a b : List UInt8} {v : UInt32}
    (h : ∃ t, Steps (machine text ops) s t ∧ Returned s₀ t v ∧ t.log = s.log ++ roundReads s)
    (hv : compared a b = v) : Ends text ops s₀ s a b := by
  obtain ⟨t, hsteps, hreturned, hlog⟩ := h
  refine ⟨t, hsteps, hv ▸ hreturned, fun access hmem => ?_⟩
  rw [hlog, List.mem_append] at hmem
  exact hmem.imp_right readsByte_round

/-- **The loop**, by induction on the rest of the first string. -/
theorem loop_spec (text : UInt32) (ops : DoubleOps) {a b : List UInt8} (h : Inside s₀ s)
    (hpc : s.pc = 6) (ha : StringAt s.mem (s.reg .eax) a) (hb : StringAt s.mem (s.reg .ebx) b) :
    Ends text ops s₀ s a b := by
  induction a generalizing b s with
  | nil =>
    have heax := ha.byte_nil
    cases b with
    | nil =>
      have hebx := hb.byte_nil
      exact ends_of_round (round_ends text ops h hpc (hebx.trans heax.symm) heax) compared_self
    | cons y b =>
      -- The NUL of the first string is smaller than every byte of a string.
      have hebx := hb.byte_cons
      have hless : s.mem (s.reg .eax) < s.mem (s.reg .ebx) := by
        rw [heax, hebx]
        exact UInt8.pos_iff_ne_zero.mpr hb.ne_nul
      exact ends_of_round (round_above text ops h hpc hless) (compared_of_lt (List.nil_lt_cons y b))
  | cons x a ih =>
    have heax := ha.byte_cons
    cases b with
    | nil =>
      have hebx := hb.byte_nil
      have hless : s.mem (s.reg .ebx) < s.mem (s.reg .eax) := by
        rw [heax, hebx]
        exact UInt8.pos_iff_ne_zero.mpr ha.ne_nul
      exact ends_of_round (round_below text ops h hpc hless) (compared_of_gt (List.nil_lt_cons x a))
    | cons y b =>
      have hebx := hb.byte_cons
      rcases Std.lt_trichotomy x y with hlt | rfl | hgt
      · have hless : s.mem (s.reg .eax) < s.mem (s.reg .ebx) := by rwa [heax, hebx]
        exact ends_of_round (round_above text ops h hpc hless)
          (compared_of_lt (List.cons_lt_cons_iff.mpr (.inl hlt)))
      · have hsame : s.mem (s.reg .ebx) = s.mem (s.reg .eax) := hebx.trans heax.symm
        have hnul : s.mem (s.reg .eax) ≠ 0 := by
          rw [heax]
          exact ha.ne_nul
        obtain ⟨u, hround, hu, hpcu, heaxu, hebxu, hlogu⟩ := round_next text ops h hpc hsame hnul
        have hmem : u.mem = s.mem := hu.mem.trans h.mem.symm
        -- The next round starts at the rests of both strings.
        have hrest : Ends text ops s₀ u a b := by
          apply ih hu hpcu
          · rw [hmem, heaxu]
            exact ha.tail
          · rw [hmem, hebxu]
            exact hb.tail
        obtain ⟨t, hsteps, hreturned, hlog⟩ := hrest
        rw [← compared_cons] at hreturned
        refine ⟨t, hround.trans hsteps, hreturned, fun access hin => ?_⟩
        rcases hlog access hin with hold | hnew
        · rw [hlogu, List.mem_append] at hold
          exact hold.imp_right readsByte_round
        · rw [heaxu, hebxu] at hnew
          exact .inr hnew.tail
      · have hless : s.mem (s.reg .ebx) < s.mem (s.reg .eax) := by rwa [heax, hebx]
        exact ends_of_round (round_below text ops h hpc hless)
          (compared_of_gt (List.cons_lt_cons_iff.mpr (.inl hgt)))

end Parts

/-! ## The routine

Before the loop the registers are saved and the pointers are loaded from the caller's stack; behind
it they are restored. The results about the order are those of `compared`. -/

/-- `mystrcmp` is entered with two strings; neither lies in the eight bytes below the stack
pointer. -/
structure Called (s₀ : State Unit) (a b : List UInt8) : Prop where
  pc : s₀.pc = 0
  returned : s₀.returned = false
  depth : s₀.depth = 0
  first : StringAt s₀.mem (load32 s₀.mem (s₀.reg .esp + 4)) a
  second : StringAt s₀.mem (load32 s₀.mem (s₀.reg .esp + 8)) b
  firstApart : ∀ x, InString (load32 s₀.mem (s₀.reg .esp + 4)) a x → ¬ Below (s₀.reg .esp) 8 x
  secondApart : ∀ x, InString (load32 s₀.mem (s₀.reg .esp + 8)) b x → ¬ Below (s₀.reg .esp) 8 x

/-- A run from `s₀` has returned `v`. -/
def Outcome (text : UInt32) (ops : DoubleOps) (s₀ : State Unit) (v : UInt32) : Prop :=
  ∃ t, Steps (machine text ops) s₀ t ∧ t.returned = true ∧ t.reg .eax = v

/-- The loads of the two arguments. -/
def argumentReads (s₀ : State Unit) : List Assembly.Access :=
  [⟨based 12 .ebp, s₀.reg .esp + 4, 4, false⟩, ⟨based 16 .ebp, s₀.reg .esp + 8, 4, false⟩]

section Routine

variable {s₀ : State Unit} {a b : List UInt8}

/-- An argument lies above the saved registers. -/
theorem load_argument (s₀ : State Unit) {d : UInt32} (hd : d.toNat ≤ 8) :
    load32 (pushed s₀) (s₀.reg .esp + d) = load32 s₀.mem (s₀.reg .esp + d) := by
  apply load32_congr
  intro x hx
  exact pushed_outside (not_below_of_inArea hx (by omega))

/-- From the label to the loads of the arguments. -/
theorem push_spec (text : UInt32) (ops : DoubleOps) (h : Called s₀ a b) :
    ∃ t, Steps (machine text ops) s₀ t ∧ Inside s₀ t ∧ t.pc = 4 ∧ t.log = s₀.log := by
  set is : List (Instr Label Empty) :=
    [.label .mystrcmp, .pushl .ebp, .pushl .ebx, .movl (.reg .esp) .ebp] with his
  set u := run (machine text ops) is s₀ with hu
  have hblock : Steps (machine text ops) s₀ u :=
    Steps.block 0 ⟨_, rfl⟩ rfl h.pc h.returned
  have hpcu : u.pc = 4 := by
    rw [hu, run_pc, h.pc]
    rfl
  have hesp : s₀.reg .esp - 4 - 4 = s₀.reg .esp - 8 := by grind
  have hmem : u.mem = pushed s₀ := by
    show store32 (store32 s₀.mem (s₀.reg .esp - 4) (s₀.reg .ebp)) (s₀.reg .esp - 4 - 4)
      (s₀.reg .ebx) = pushed s₀
    rw [hesp]
    rfl
  exact ⟨u, hblock, ⟨h.returned, h.depth, hesp, rfl, rfl, hmem⟩, hpcu, rfl⟩

theorem arguments_spec (text : UInt32) (ops : DoubleOps) {s : State Unit} (h : Inside s₀ s)
    (hpc : s.pc = 4) :
    ∃ t, Steps (machine text ops) s t ∧ Inside s₀ t ∧ t.pc = 6 ∧
      t.reg .eax = load32 s₀.mem (s₀.reg .esp + 4) ∧
      t.reg .ebx = load32 s₀.mem (s₀.reg .esp + 8) ∧ t.log = s.log ++ argumentReads s₀ := by
  set is : List (Instr Label Empty) :=
    [.movl (.mem (based 12 .ebp)) .eax, .movl (.mem (based 16 .ebp)) .ebx] with his
  set u := run (machine text ops) is s with hu
  have hblock : Steps (machine text ops) s u := Steps.block 4 ⟨_, rfl⟩ rfl hpc h.returned
  have hpcu : u.pc = 6 := by
    rw [hu, run_pc, hpc]
    rfl
  have hfirst : (based 12 .ebp).eval s.reg = s₀.reg .esp + 4 := by
    rw [eval_based, h.ebp]
    grind
  -- The second load takes place when `eax` has already changed.
  have hsecond : ∀ v, (based 16 .ebp).eval (setReg s.reg .eax v) = s₀.reg .esp + 8 := by
    intro v
    rw [eval_based]
    show s.reg .ebp + 16 = _
    rw [h.ebp]
    grind
  have heax : u.reg .eax = load32 s₀.mem (s₀.reg .esp + 4) := by
    show load32 s.mem ((based 12 .ebp).eval s.reg) = _
    rw [hfirst, h.mem, load_argument s₀ (by decide)]
  have hebx : u.reg .ebx = load32 s₀.mem (s₀.reg .esp + 8) := by
    show load32 s.mem ((based 16 .ebp).eval (setReg s.reg .eax _)) = _
    rw [hsecond, h.mem, load_argument s₀ (by decide)]
  have hlog : u.log = s.log ++ argumentReads s₀ := by
    show s.log ++ [⟨_, (based 12 .ebp).eval s.reg, 4, false⟩]
      ++ [⟨_, (based 16 .ebp).eval (setReg s.reg .eax _), 4, false⟩] = _
    rw [hfirst, hsecond, List.append_assoc]
    rfl
  exact ⟨u, hblock, ⟨h.returned, h.depth, h.ebp, h.esi, h.edi, h.mem⟩, hpcu, heax, hebx, hlog⟩

/-- **The routine**: it returns the order of its arguments. Besides its arguments it reads nothing
outside the two strings and their NULs, it writes nothing but the two saved registers, and these are
restored. -/
theorem mystrcmp_spec (text : UInt32) (ops : DoubleOps) (h : Called s₀ a b) :
    ∃ t, Steps (machine text ops) s₀ t ∧ Returned s₀ t (compared a b) ∧
      ∀ access ∈ t.log, access ∈ s₀.log ∨ access ∈ argumentReads s₀ ∨
        ReadsByte (load32 s₀.mem (s₀.reg .esp + 4)) a (load32 s₀.mem (s₀.reg .esp + 8)) b
          access := by
  obtain ⟨w, hpush, hw, hpcw, hlogw⟩ := push_spec text ops h
  obtain ⟨u, hload, hu, hpcu, heax, hebx, hlogu⟩ := arguments_spec text ops hw hpcw
  have ha : StringAt u.mem (u.reg .eax) a := by
    rw [hu.mem, heax]
    exact h.first.congr fun x hx => pushed_outside (h.firstApart x hx)
  have hb : StringAt u.mem (u.reg .ebx) b := by
    rw [hu.mem, hebx]
    exact h.second.congr fun x hx => pushed_outside (h.secondApart x hx)
  obtain ⟨t, hsteps, hreturned, hlog⟩ := loop_spec text ops hu hpcu ha hb
  refine ⟨t, (hpush.trans hload).trans hsteps, hreturned, fun access hin => ?_⟩
  rcases hlog access hin with hold | hnew
  · rw [hlogu, hlogw, List.mem_append] at hold
    exact hold.imp_right .inl
  · rw [heax, hebx] at hnew
    exact .inr (.inr hnew)

theorem outcome_eq {text : UInt32} {ops : DoubleOps} {v : UInt32} (h : Called s₀ a b)
    (hv : Outcome text ops s₀ v) : v = compared a b := by
  obtain ⟨t, hsteps, hreturned, -⟩ := mystrcmp_spec text ops h
  obtain ⟨u, hstepsu, hu, rfl⟩ := hv
  rw [Steps.unique hsteps hreturned.returned hstepsu hu, hreturned.eax]

/-- **The order of `mystrcmp`.** It returns the order of its arguments with the registers of
its caller, reading nothing but its arguments and the two strings with their NULs; exchanged
arguments give the opposite outcome, and not being greater is transitive. -/
theorem mystrcmp_orders (text : UInt32) (ops : DoubleOps) (h : Called s₀ a b) :
    (∃ t, Steps (machine text ops) s₀ t ∧ Returned s₀ t (compared a b) ∧
      ∀ access ∈ t.log, access ∈ s₀.log ∨ access ∈ argumentReads s₀ ∨
        ReadsByte (load32 s₀.mem (s₀.reg .esp + 4)) a (load32 s₀.mem (s₀.reg .esp + 8)) b
          access) ∧
    (∀ s₁ v w, Called s₁ b a → Outcome text ops s₀ v → Outcome text ops s₁ w → v = -w) ∧
    (∀ s₁ s₂ c u v w, Called s₁ b c → Called s₂ a c → Outcome text ops s₀ u →
      Outcome text ops s₁ v → Outcome text ops s₂ w →
      signed u ≤ 0 → signed v ≤ 0 → signed w ≤ 0) := by
  refine ⟨mystrcmp_spec text ops h, ?_, ?_⟩
  · intro s₁ v w h₁ hv hw
    rw [outcome_eq h hv, outcome_eq h₁ hw]
    exact compared_neg a b
  · intro s₁ s₂ c u v w h₁ h₂ hu hv hw hle hle'
    rw [outcome_eq h hu, compared_nonpos] at hle
    rw [outcome_eq h₁ hv, compared_nonpos] at hle'
    rw [outcome_eq h₂ hw, compared_nonpos]
    exact List.le_trans hle hle'

end Routine

/-! ## A run

A run on two concrete strings. The byte that decides is above 127, where a comparison with a sign
would go the other way. -/

/-- Two strings of which one is the beginning of the other, which goes on with a byte above
127. -/
def accented : State Unit where
  pc := 0
  reg r := if r = .esp then 0x1000 else 7
  xmm _ := 0
  flags := .logic 0
  mem x := if x = 0x1005 then 0x20 else if x = 0x1009 then 0x30 else
    if x = 0x2000 then 0x61 else if x = 0x2001 then 0xE9 else if x = 0x3000 then 0x61 else 0
  log := []
  depth := 0
  returned := false
  world := ()

theorem accented_called : Called accented [0x61, 0xE9] [0x61] where
  pc := rfl
  returned := rfl
  depth := rfl
  first := ⟨by decide, by decide, by decide⟩
  second := ⟨by decide, by decide, by decide⟩
  firstApart x := by
    rintro ⟨i, hi, rfl⟩
    revert i
    decide
  secondApart x := by
    rintro ⟨i, hi, rfl⟩
    revert i
    decide

theorem mystrcmp_orders_accented : ∃ t, Steps (machine 0x8048000 ⟨fun _ _ => .equal,
    fun x _ => x, fun x _ => x⟩) accented t ∧ Returned accented t 1 := by
  obtain ⟨t, hsteps, hreturned, -⟩ := (mystrcmp_orders 0x8048000 ⟨fun _ _ => .equal,
    fun x _ => x, fun x _ => x⟩ accented_called).1
  exact ⟨t, hsteps, hreturned⟩

end HseDev.Sem6.StrCmp
