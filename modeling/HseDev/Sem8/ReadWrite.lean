import HseDev.Lib.CallFrame

/-!
# HseDev — the input and output routines of `sem8`

`read_int32` and `write_int32` stand in both versions of `reverse`, the second one also in
`minmax`, where it is `write_value`. They are no functions of C: the number is in `eax`.

* **`readInt32_spec`** — `eax` is the next number of the input.
* **`writeInt32_spec`** — `eax` is printed.
-/

namespace HseDev.Sem8

open X86 Assembly

variable {L E α : Type}

/-- `read_int32`, under the name that the program gives to its label. -/
def readInt32 (l : L) (scanf : E) (SC : UInt32) : List (Instr L E) :=
  [.label l,
   .alu .sub (.imm 12) .esp,
   .lea (based 8 .esp) .eax,
   .movlTo (.reg .eax) (based 4 .esp),
   .movlTo (.imm SC) (based 0 .esp),
   .callOut scanf,
   .movl (.mem (based 8 .esp)) .eax,
   .alu .add (.imm 12) .esp,
   .ret]

/-- `write_int32`, which `minmax` calls `write_value`. -/
def writeInt32 (l : L) (printf : E) (PR : UInt32) : List (Instr L E) :=
  [.label l,
   .alu .sub (.imm 12) .esp,
   .movlTo (.reg .eax) (based 4 .esp),
   .movlTo (.imm PR) (based 0 .esp),
   .callOut printf,
   .alu .add (.imm 12) .esp,
   .ret]

/-! ## The routines

`read_int32` and `write_int32`, as they stand in both programs. Each is a call of the C library with
its stack aligned, so what they leave alone is everything but a few words below the stack pointer.
-/

section Routines

variable [DecidableEq L] [DecidableEq E] {l : L} {depth start : ℕ} {own : UInt32 → Prop}

/-- **`write_int32`** prints `eax`. It returns to its caller with the callee-saved registers and
everything above the stack pointer as they were. -/
theorem writeInt32_spec {M : Machine L E (Console α ℤ)} {s : State (Console α ℤ)} {printf : E}
    {PR : UInt32} (hlib : Prints M printf PR 8 (fun s => signed (s.argument 4)) depth own)
    (hdepth : depth ≤ 2 ^ 31) (hcode : writeInt32 l printf PR <+: M.prog.drop start)
    (hplace : place M.prog l = start) (hcall : M.prog[s.pc]? = some (.call l))
    (hpc : s.pc + 1 < 2 ^ 32) (hrun : s.returned = false)
    (hown : ∀ x, Below (s.reg .esp) 16 x → ¬ own x) :
    ∃ t, Steps M s t ∧ Back (16 + depth) own s t ∧
      t.world = { s.world with output := s.world.output ++ [signed (s.reg .eax)] } := by
  obtain ⟨v, hframe, hframed, hpcv, heax, -⟩ :=
    Steps.framed (piece_drop hcode 0 ⟨_, rfl⟩) hplace hcall hrun
  obtain ⟨u, hblock, hpcu, hu⟩ := hframed.prepare own (piece_drop hcode 2 ⟨_, rfl⟩) hpcv
  obtain ⟨t, hprint, hback, hworld⟩ :=
    hu.print hlib (by decide) hdepth hown (piece_drop hcode 4 ⟨_, rfl⟩) hpcu hpc
  have hvalue : State.argument { u with pc := u.pc + 1 } 4 = s.reg .eax := by
    show load32 u.mem (u.reg .esp + 4) = s.reg .eax
    rw [hu.esp, hu.arguments.argument, heax]
  rw [hvalue] at hworld
  exact ⟨t, (hframe.trans hblock).trans hprint, hback, hworld⟩

/-- **`read_int32`** leaves the next number in `eax`, if there is one. It leaves the rest of the
input for later, and the callee-saved registers and everything above the stack pointer as they were.
-/
theorem readInt32_spec {M : Machine L E (Console UInt32 ℤ)} {s : State (Console UInt32 ℤ)}
    {scanf : E} {SC : UInt32} (hlib : Scans M scanf SC [4] 4 load32 (fun v => [v]) depth own)
    (hdepth : depth ≤ 2 ^ 31) (hcode : readInt32 l scanf SC <+: M.prog.drop start)
    (hplace : place M.prog l = start) (hcall : M.prog[s.pc]? = some (.call l))
    (hpc : s.pc + 1 < 2 ^ 32) (hrun : s.returned = false)
    (hown : ∀ x, Below (s.reg .esp) 16 x → ¬ own x) :
    ∃ t, Steps M s t ∧ Back (16 + depth) own s t ∧ ∀ v rest, s.world.input = v :: rest →
      t.reg .eax = v ∧ t.world = { s.world with input := rest } := by
  obtain ⟨v, hframe, hv, hpcv, -, -⟩ :=
    Steps.framed (piece_drop hcode 0 ⟨_, rfl⟩) hplace hcall hrun
  obtain ⟨z, hpointer, hframed, hpcz, heax⟩ := hv.pointer (piece_drop hcode 2 ⟨_, rfl⟩) hpcv
  obtain ⟨u, hblock, hpcu, hu⟩ := hframed.prepare own (piece_drop hcode 3 ⟨_, rfl⟩) hpcz
  rw [heax] at hu
  set w : State (Console UInt32 ℤ) := { u with pc := u.pc + 1 } with hw
  have hpointers : pointers [4] w = [s.reg .esp - 16 + 8] := by
    show [load32 u.mem (u.reg .esp + 4)] = _
    rw [hu.esp, hu.arguments.argument]
  -- The only pointer is that of the word behind the arguments.
  have htargets : ∀ x, (∃ p ∈ pointers [4] w, InArea p 4 x) →
      InArea (s.reg .esp - 16 + 8) 4 x := by
    intro x ⟨p, hp, hin⟩
    rw [hpointers, List.mem_singleton] at hp
    rwa [hp] at hin
  have hanswered := hu.answer hlib.cdecl (by decide) hdepth htargets hown
  set y := run M [.callOut scanf] u with hy
  have hout : Steps M u y :=
    Steps.block (start + 5) (piece_drop hcode 5 ⟨_, rfl⟩) rfl hpcu hu.returned
  have hpcy : y.pc = start + 6 := by
    rw [hy, run_pc, hpcu]
    rfl
  obtain ⟨x, hload, hpcx, hx, heaxx, hworldx⟩ :=
    hanswered.load (piece_drop hcode 6 ⟨_, rfl⟩) hpcy
  obtain ⟨t, hleave, hback, heaxt, hworldt⟩ := hx.leave (piece_drop hcode 7 ⟨_, rfl⟩) hpcx hpc
  have hsteps : Steps M s t :=
    ((hframe.trans hpointer).trans hblock).trans ((hout.trans hload).trans hleave)
  refine ⟨t, hsteps, hback, fun number rest hinput => ?_⟩
  have hformat : w.argument 0 = SC := by
    show load32 u.mem (u.reg .esp + 0) = SC
    rw [UInt32.add_zero, hu.esp]
    exact hu.arguments.format
  have hinputw : w.world.input = number :: rest :=
    (congrArg Console.input hu.world).trans hinput
  obtain ⟨-, hvalues, hworld⟩ := hlib.next w number rest hformat (hu.separate hpointers hdepth hown)
    hinputw
  rw [hpointers] at hvalues
  have hnumber : load32 y.mem (s.reg .esp - 16 + 8) = number := (List.cons.inj hvalues).1
  have hworldw : w.world = s.world := hu.world
  rw [hworldw] at hworld
  exact ⟨heaxt.trans (heaxx.trans hnumber), hworldt.trans (hworldx.trans hworld)⟩

end Routines

end HseDev.Sem8
