import HseDev.Lib.Console

/-!
# HseDev — the loop over quadruples

`sem8/minmax.S` and `sem9/minmax.S` have the same `main` around what they compute: a frame, a loop
that reads four values with one call of `scanf`, and an end. Here are these parts, for any size of
the values.

* **`main_begin_spec`** — the frame.
* **`selects_spec`** — the routines that select the greater or the smaller of two values.
* **`ask_spec`** — the call of `scanf`; **`ask_next`** / **`ask_done`** — its two outcomes;
  **`test_spec`** — the test of its answer.
* **`main_end_spec`** / **`ask_end`** — the end.
-/

namespace HseDev.Sem8

open X86 Assembly

variable {L E W : Type}

def mainBegin (l : L) : List (Instr L E) :=
  [.label l,
   .pushl .ebp,
   .pushl .ebx,
   .pushl .edi,
   .pushl .esi,
   .movl (.reg .esp) .ebp,
   .alu .and (.imm (-16)) .esp,
   .alu .sub (.imm 64) .esp]

/-- The values go to the displacements `d₁` to `d₄` in the frame. -/
def askQuadruple (l : L) (scanf : E) (SC d₁ d₂ d₃ d₄ : UInt32) : List (Instr L E) :=
  [.label l,
   .movlTo (.imm SC) (based 0 .esp),
   .lea (based d₁ .esp) .eax,
   .movlTo (.reg .eax) (based 4 .esp),
   .lea (based d₂ .esp) .eax,
   .movlTo (.reg .eax) (based 8 .esp),
   .lea (based d₃ .esp) .eax,
   .movlTo (.reg .eax) (based 12 .esp),
   .lea (based d₄ .esp) .eax,
   .movlTo (.reg .eax) (based 16 .esp),
   .callOut scanf]

def testAnswer (l_end : L) : List (Instr L E) :=
  [.cmpl (.imm 4) .eax,
   .jcc .ne l_end]

def mainEnd (l_end : L) : List (Instr L E) :=
  [.label l_end,
   .alu .xor (.reg .eax) .eax,
   .movl (.reg .ebp) .esp,
   .popl .esi,
   .popl .edi,
   .popl .ebx,
   .popl .ebp,
   .ret]

/-- Where the frame of `main` starts. -/
def frame (s₀ : State W) : UInt32 :=
  ((s₀.reg .esp - 16) &&& -16) - 64

theorem align16 (x : UInt32) : x &&& -16 = x - x % 16 := by
  have hle : x % 16 ≤ x := by
    rw [UInt32.le_iff_toNat_le, UInt32.toNat_mod]
    exact Nat.mod_le _ _
  apply UInt32.toNat_inj.mp
  rw [UInt32.toNat_sub_of_le _ _ hle, UInt32.toNat_mod]
  exact toNat_align16 x

/-- The frame ends at most 31 bytes below the stack pointer. -/
theorem below_frame (s₀ : State W) {n : ℕ} {x : UInt32} (h : Below (frame s₀ + 64) n x) :
    Below (s₀.reg .esp) (n + 31) x := by
  have hframe : frame s₀ + 64 = s₀.reg .esp - (16 + (s₀.reg .esp - 16) % 16) := by
    rw [frame, align16, UInt32.sub_add_cancel]
    grind
  have hrest : ((s₀.reg .esp - 16) % 16).toNat < 16 := by
    rw [UInt32.toNat_mod]
    exact Nat.mod_lt _ (by decide)
  rw [hframe] at h
  apply h.of_sub.mono
  rw [UInt32.toNat_add]
  show n + (16 + _) % 2 ^ 32 ≤ _
  omega

/-- In `main`, whose frame starts at `F`. -/
structure InMain (F : UInt32) (w : W) (s : State W) : Prop where
  returned : s.returned = false
  depth : s.depth = 0
  esp : s.reg .esp = F
  world : s.world = w

section Parts

variable [DecidableEq L] [DecidableEq E] {M : Machine L E W} {F : UInt32} {w : W} {s : State W}
  {start k : ℕ}

/-- The prologue, common to the two programs: what it pushes, where the frame starts, and that
nothing above the stack pointer of the caller is touched. -/
theorem main_begin_spec {l : L} (own : UInt32 → Prop)
    (hcode : mainBegin l <+: M.prog.drop start) (hpc : s.pc = start)
    (hrun : s.returned = false) (hdepth : s.depth = 0) :
    ∃ t, Steps M s t ∧ InMain (frame s) s.world t ∧ t.pc = start + 8 ∧
      Untouched (s.reg .esp) 16 own s.mem t.mem := by
  set t := run M (mainBegin l) s with ht
  have hblock : Steps M s t := Steps.block start hcode rfl hpc hrun
  have hpct : t.pc = start + 8 := by
    rw [ht, run_pc, hpc]
    rfl
  have hesp : t.reg .esp = frame s := by
    have hpushes : s.reg .esp - 4 - 4 - 4 - 4 = s.reg .esp - 16 := by grind
    show ((s.reg .esp - 4 - 4 - 4 - 4) &&& -16) - 64 = frame s
    rw [hpushes]
    rfl
  -- One push after the other, each below the stack pointer of the caller.
  have hbase := Untouched.refl (s.reg .esp) 16 own s.mem
  have hebp := hbase.store (q := s.reg .esp - 4) (s.reg .ebp) fun x hx =>
    (below_of_inArea (k := 4) hx (by decide)).mono (by decide)
  have hebx := hebp.store (q := s.reg .esp - 8) (s.reg .ebx) fun x hx =>
    (below_of_inArea (k := 8) hx (by decide)).mono (by decide)
  have hedi := hebx.store (q := s.reg .esp - 12) (s.reg .edi) fun x hx =>
    (below_of_inArea (k := 12) hx (by decide)).mono (by decide)
  have hesi := hedi.store (q := s.reg .esp - 16) (s.reg .esi) fun x hx =>
    below_of_inArea (k := 16) hx (by decide)
  have hmem : t.mem = store32 (store32 (store32 (store32 s.mem (s.reg .esp - 4) (s.reg .ebp))
      (s.reg .esp - 8) (s.reg .ebx)) (s.reg .esp - 12) (s.reg .edi)) (s.reg .esp - 16)
      (s.reg .esi) := by
    rw [show s.reg .esp - 16 = s.reg .esp - 4 - 4 - 4 - 4 by grind,
      show s.reg .esp - 12 = s.reg .esp - 4 - 4 - 4 by grind,
      show s.reg .esp - 8 = s.reg .esp - 4 - 4 by grind]
    rfl
  rw [← hmem] at hesi
  exact ⟨t, hblock, ⟨hrun, hdepth, hesp, rfl⟩, hpct, hesi⟩

/-- A pointer into the frame is stored as an argument. -/
theorem pointer_spec {a b : UInt32} (h : InMain F w s) (hpc : s.pc = start)
    (hcode : [.lea (based a .esp) .eax, .movlTo (.reg .eax) (based b .esp)] <+:
      M.prog.drop start) :
    ∃ t, Steps M s t ∧ InMain F w t ∧ t.pc = start + 2 ∧
      t.mem = store32 s.mem (F + b) (F + a) := by
  set t := run M [.lea (based a .esp) .eax, .movlTo (.reg .eax) (based b .esp)] s with ht
  have hblock : Steps M s t := Steps.block start hcode rfl hpc h.returned
  have hpct : t.pc = start + 2 := by
    rw [ht, run_pc, hpc]
    rfl
  have hmem : t.mem = store32 s.mem (F + b) (F + a) := by
    rw [← h.esp, ← eval_based a .esp s.reg]
    show store32 s.mem ((based b .esp).eval (setReg s.reg .eax _)) _ = _
    rw [eval_based]
    rfl
  exact ⟨t, hblock, ⟨h.returned, h.depth, h.esp, h.world⟩, hpct, hmem⟩

theorem test_spec {l_end : L} (hcode : testAnswer l_end <+: M.prog.drop start)
    (hpc : s.pc = start) (hrun : s.returned = false) :
    ∃ flags, Steps M s
      { s with pc := if s.reg .eax = 4 then start + 2 else place M.prog l_end, flags } := by
  set u := run M [.cmpl (.imm 4) .eax] s with hu
  have hblock : Steps M s u := Steps.block start (piece_drop hcode 0 ⟨_, rfl⟩) rfl hpc hrun
  have hpcu : u.pc = start + 1 := by
    rw [hu, run_pc, hpc]
    rfl
  have hjne : M.prog[u.pc]? = some (.jcc .ne l_end) := by
    rw [hpcu]
    exact piece_get hcode 1 rfl
  have hflags : Cond.ne.holds u.flags = true ↔ s.reg .eax ≠ 4 := Cond.holds_ne
  have hbranch := Steps.branch hjne hrun hflags
  rw [ite_not, hpcu] at hbranch
  exact ⟨u.flags, hblock.trans hbranch⟩

/-- The epilogue: the result is 0, and what has been pushed is back in its registers. -/
theorem main_end_spec {l_end : L} (hcode : mainEnd l_end <+: M.prog.drop start)
    (hpc : s.pc = start) (hrun : s.returned = false) (hdepth : s.depth = 0) :
    ∃ t, Steps M s t ∧ t.returned = true ∧ t.world = s.world := by
  set u := run M [.label l_end, .alu .xor (.reg .eax) .eax, .movl (.reg .ebp) .esp,
    .popl .esi, .popl .edi, .popl .ebx, .popl .ebp] s with hu
  have hblock : Steps M s u := Steps.block start (piece_drop hcode 0 ⟨_, rfl⟩) rfl hpc hrun
  have hret : M.prog[u.pc]? = some .ret := by
    rw [hu, run_pc, hpc]
    exact piece_get hcode 7 rfl
  exact ⟨_, hblock.trans (Steps.finish hret hrun hdepth), rfl, rfl⟩

end Parts

/-! ## The selections

Both programs select by a comparison and a jump around a move. The instructions differ in what they
compare, so they are parameters here. -/

/-- A value is kept, or another one is moved in its place, by a comparison. -/
def selects (l : L) (compare : Instr L E) (c : Cond) (move : Instr L E) (l_end : L) :
    List (Instr L E) :=
  [.label l, compare, .jcc c l_end, move, .label l_end, .ret]

section Selections

variable [DecidableEq L] [DecidableEq E] {M : Machine L E W} {s u w : State W} {l l_end : L}
  {c : Cond} {compare move : Instr L E} {start d k : ℕ}

/-- Back from a selection that was entered at `s`, with the registers of `w`. -/
structure Chosen (s : State W) (d k : ℕ) (w t : State W) : Prop where
  left : Left s d k t
  reg : ∀ r, r ≠ .esp → t.reg r = w.reg r
  xmm : t.xmm = w.xmm
  mem : t.mem = s.mem
  world : t.world = s.world

/-- From the end of a selection on. -/
theorem chosen_end (h : Entered M l d k s) (hk : k < 2 ^ 32)
    (hcode : [.label l_end, .ret] <+: M.prog.drop start) (hpc : u.pc = start)
    (hrun : u.returned = false) (hdepth : u.depth = s.depth) (hesp : u.reg .esp = s.reg .esp)
    (hmem : u.mem = s.mem) (hworld : u.world = s.world) :
    ∃ t, Steps M u t ∧ Chosen s d k u t := by
  set v := run M [.label l_end] u with hv
  have hblock : Steps M u v := Steps.block start (piece_drop hcode 0 ⟨_, rfl⟩) rfl hpc hrun
  have hpcv : v.pc = start + 1 := by
    rw [hv, run_pc, hpc]
    rfl
  have hret : M.prog[v.pc]? = some .ret := by
    rw [hpcv]
    exact piece_get hcode 1 rfl
  have haddr : load32 v.mem (s.reg .esp) = load32 s.mem (s.reg .esp) :=
    congrArg (load32 · (s.reg .esp)) hmem
  obtain ⟨t, hsteps, hleft, hreg, hxmm, hmemt, -, hworldt⟩ :=
    h.leave hk hret hrun hdepth hesp haddr
  exact ⟨t, hblock.trans hsteps, hleft, hreg, hxmm, hmemt.trans hmem, hworldt.trans hworld⟩

/-- **A selection**: if the condition holds, the routine goes straight to its end. If it does not
hold then the move is made first. Either way the routine returns with its frame as it was. -/
theorem selects_spec (flags : Flags) (h : Entered M l d k s) (hk : k < 2 ^ 32)
    (hcode : selects l compare c move l_end <+: M.prog.drop start)
    (hplace : place M.prog l = start) (hplace_end : place M.prog l_end = start + 4)
    (hstraight : compare.isStraight = true ∧ move.isStraight = true)
    (hcompare : ∀ pc, exec M { s with pc } compare = { s with pc, flags })
    (hmove : ∀ v : State W, (exec M v move).reg .esp = v.reg .esp ∧
      (exec M v move).mem = v.mem ∧ (exec M v move).world = v.world) :
    ∃ t, Steps M s t ∧ Chosen s d k
      (if c.holds flags then s else exec M { s with pc := start + 4, flags } move) t := by
  -- The comparison changes the flags only.
  have hbegin : Steps M s { s with pc := start + 2, flags } := by
    have hblock : Steps M s (run M [.label l, compare] s) :=
      Steps.block start (piece_drop hcode 0 ⟨_, rfl⟩)
        (by rw [List.all_cons, List.all_cons, hstraight.1]; rfl) (h.pc.trans hplace) h.returned
    have hrun : run M [.label l, compare] s = { s with pc := start + 2, flags } := by
      show exec M { s with pc := s.pc + 1 + 1 } compare = _
      rw [hcompare, h.pc, hplace]
    rw [← hrun]
    exact hblock
  have hjcc : M.prog[start + 2]? = some (.jcc c l_end) := piece_get hcode 2 rfl
  have hend : [.label l_end, .ret] <+: M.prog.drop (start + 4) := piece_drop hcode 4 ⟨_, rfl⟩
  by_cases hkeep : c.holds flags = true
  · have hjump := Steps.taken (s := { s with pc := start + 2, flags }) hjcc h.returned hkeep
    obtain ⟨t, hsteps, hchosen⟩ :=
      chosen_end (u := { s with pc := place M.prog l_end, flags }) h hk hend hplace_end
        h.returned rfl rfl rfl rfl
    rw [if_pos hkeep]
    exact ⟨t, (hbegin.trans hjump).trans hsteps, hchosen.left, hchosen.reg, hchosen.xmm,
      hchosen.mem, hchosen.world⟩
  · have hskip := Steps.skipped (s := { s with pc := start + 2, flags }) hjcc h.returned hkeep
    set v := exec M { s with pc := start + 4, flags } move with hv
    have hpiece : [move] <+: M.prog.drop (start + 3) := piece_drop hcode 3 ⟨_, rfl⟩
    have hmoved : Steps M { s with pc := start + 3, flags } v :=
      Steps.block (start + 3) hpiece (by rw [List.all_cons, hstraight.2]; rfl) rfl h.returned
    obtain ⟨hesp, hmem, hworld⟩ := hmove { s with pc := start + 4, flags }
    obtain ⟨t, hsteps, hchosen⟩ :=
      chosen_end (u := v) h hk hend (exec_pc _ _ _) ((exec_returned _ _ _).trans h.returned)
        (exec_depth _ _ _) hesp hmem hworld
    rw [if_neg hkeep]
    exact ⟨t, ((hbegin.trans hskip).trans hmoved).trans hsteps, hchosen⟩

end Selections

/-! ## The call of `scanf`

The call of `scanf` with four pointers into the frame. What the contract asks for, that the targets
are apart from each other and from the stack that `scanf` uses, is shown once for all sizes of the
values. -/

section Ask

variable {F SC d₁ d₂ d₃ d₄ : UInt32} {size depth : ℕ} {own : UInt32 → Prop}

/-- Four places of a size in the frame, one behind the other, above the arguments. -/
def InFrame (size : ℕ) (d₁ d₂ d₃ d₄ : UInt32) : Prop :=
  20 ≤ d₁.toNat ∧ d₁.toNat + size ≤ d₂.toNat ∧ d₂.toNat + size ≤ d₃.toNat ∧
    d₃.toNat + size ≤ d₄.toNat ∧ d₄.toNat + size ≤ 64

instance (size : ℕ) (d₁ d₂ d₃ d₄ : UInt32) : Decidable (InFrame size d₁ d₂ d₃ d₄) :=
  inferInstanceAs (Decidable (_ ∧ _))

/-- `scanf` is to be called. -/
structure Asks (F SC d₁ d₂ d₃ d₄ : UInt32) (own : UInt32 → Prop) (w : W) (m : Memory)
    (v : State W) : Prop where
  format : v.argument 0 = SC
  pointers : pointers [4, 8, 12, 16] v = [F + d₁, F + d₂, F + d₃, F + d₄]
  esp : v.reg .esp = F
  world : v.world = w
  memory : Untouched (F + 64) 64 own m v.mem

/-- The four places lie apart from each other, from the stack below and from the data of the
library. -/
theorem asks_separate {w : W} {m : Memory} {v : State W} (h : Asks F SC d₁ d₂ d₃ d₄ own w m v)
    (hd : InFrame size d₁ d₂ d₃ d₄) (hdepth : depth ≤ 2 ^ 31)
    (hown : ∀ x, own x → ¬ InArea (F - 16) 80 x) :
    Separate [4, 8, 12, 16] size depth own v where
  pairwise := by
    obtain ⟨h₁, h₂, h₃, h₄, h₅⟩ := hd
    have hapart : ∀ {d e : UInt32}, d.toNat + size ≤ e.toNat ∧ e.toNat + size ≤ 64 →
        ∀ x, InArea (F + d) size x → ¬ InArea (F + e) size x :=
      fun hde x hx => hx.not_of_lt hde.1 (by omega)
    rw [h.pointers]
    simp only [List.pairwise_cons, List.forall_mem_cons]
    exact ⟨⟨hapart (by omega), hapart (by omega), hapart (by omega), by simp⟩,
      ⟨hapart (by omega), hapart (by omega), by simp⟩, ⟨hapart (by omega), by simp⟩, by simp⟩
  apart := by
    obtain ⟨h₁, h₂, h₃, h₄, h₅⟩ := hd
    have hplace : ∀ {d : UInt32}, 20 ≤ d.toNat ∧ d.toNat + size ≤ 64 → ∀ x,
        InArea (F + d) size x → ¬ Below F depth x ∧ ¬ InArea F 20 x ∧ ¬ own x := by
      intro d hd x hx
      refine ⟨not_below_of_inArea hx (by omega), fun hin => ?_, fun hx' => hown x hx' ?_⟩
      · rw [← UInt32.add_zero F] at hin
        exact InArea.not_of_lt hin (by show 0 + 20 ≤ _; omega) (by show _ ≤ 2 ^ 32 + 0; omega) hx
      · have hbase : F + d = F - 16 + (16 + d) := by grind
        rw [hbase] at hx
        apply hx.of_part
        rw [UInt32.toNat_add]
        show (16 + d.toNat) % 2 ^ 32 + size ≤ 80
        omega
    rw [h.pointers, h.esp]
    simp only [List.forall_mem_cons]
    exact ⟨hplace (by omega), hplace (by omega), hplace (by omega), hplace (by omega), by simp⟩

/-- What the call leaves of the stack above the frame. -/
theorem Asks.answered {M : Machine L E W} {f : E} {w : W} {m : Memory} {v : State W}
    (h : Asks F SC d₁ d₂ d₃ d₄ own w m v) (hd : InFrame size d₁ d₂ d₃ d₄)
    (hcdecl : Cdecl M f 20 depth own fun s x => ∃ p ∈ Assembly.pointers [4, 8, 12, 16] s,
      InArea p size x) : Untouched (F + 64) (depth + 64) own m (M.out f v).mem := by
  obtain ⟨h₁, h₂, h₃, h₄, h₅⟩ := hd
  apply (h.memory.mono (Nat.le_add_left 64 depth)).trans
  intro x hx hx'
  have hin : ∀ {d : UInt32} {n : ℕ}, InArea (F + d) n x → ¬ d.toNat + n ≤ 64 :=
    fun hin hle => hx ((below_of_between (k := 64) hin hle).mono (by show 64 ≤ _; omega))
  apply hcdecl.frame v x
  · intro hbelow
    rw [h.esp, ← UInt32.add_sub_cancel F 64] at hbelow
    exact hx hbelow.of_sub
  · intro harg
    rw [h.esp, ← UInt32.add_zero F] at harg
    exact hin harg (by decide)
  · exact hx'
  · intro ⟨p, hp, hpx⟩
    rw [h.pointers] at hp
    simp only [List.mem_cons, List.not_mem_nil, or_false] at hp
    rcases hp with rfl | rfl | rfl | rfl <;> exact hin hpx (by omega)

variable [DecidableEq L] [DecidableEq E] {M : Machine L E W} {w : W} {s : State W} {start : ℕ}

/-- From the start of the loop to the answer. -/
theorem ask_spec {l : L} {scanf : E} (own : UInt32 → Prop)
    (hcode : askQuadruple l scanf SC d₁ d₂ d₃ d₄ <+: M.prog.drop start) (h : InMain F w s)
    (hpc : s.pc = start) :
    ∃ v, Asks F SC d₁ d₂ d₃ d₄ own w s.mem v ∧ ∃ t, Steps M s t ∧ t.pc = start + 11 ∧
      t.returned = false ∧ t.depth = 0 ∧ t.reg = (M.out scanf v).reg ∧
      t.mem = (M.out scanf v).mem ∧ t.world = (M.out scanf v).world := by
  set u := run M [.label l, .movlTo (.imm SC) (based 0 .esp)] s with hu
  have hblock : Steps M s u := Steps.block start (piece_drop hcode 0 ⟨_, rfl⟩) rfl hpc h.returned
  have hpcu : u.pc = start + 2 := by
    rw [hu, run_pc, hpc]
    rfl
  have hmem : u.mem = store32 s.mem (F + 0) SC := by
    rw [← h.esp, ← eval_based 0 .esp s.reg]
    rfl
  have hmain : InMain F w u := ⟨h.returned, h.depth, h.esp, h.world⟩
  obtain ⟨u₁, h₁, hmain₁, hpc₁, hmem₁⟩ :=
    pointer_spec hmain hpcu (piece_drop hcode 2 ⟨_, rfl⟩)
  obtain ⟨u₂, h₂, hmain₂, hpc₂, hmem₂⟩ :=
    pointer_spec hmain₁ hpc₁ (piece_drop hcode 4 ⟨_, rfl⟩)
  obtain ⟨u₃, h₃, hmain₃, hpc₃, hmem₃⟩ :=
    pointer_spec hmain₂ hpc₂ (piece_drop hcode 6 ⟨_, rfl⟩)
  obtain ⟨u₄, h₄, hmain₄, hpc₄, hmem₄⟩ :=
    pointer_spec hmain₃ hpc₃ (piece_drop hcode 8 ⟨_, rfl⟩)
  rw [hmem₃, hmem₂, hmem₁, hmem] at hmem₄
  set v : State W := { u₄ with pc := u₄.pc + 1 } with hv
  have hformat : v.argument 0 = SC := by
    show load32 u₄.mem (u₄.reg .esp + 0) = SC
    rw [hmain₄.esp, hmem₄]
    simp (disch := decide) only [load32_store32_ne, load32_store32]
  have hpointers : pointers [4, 8, 12, 16] v = [F + d₁, F + d₂, F + d₃, F + d₄] := by
    show [load32 u₄.mem (u₄.reg .esp + 4), load32 u₄.mem (u₄.reg .esp + 8),
      load32 u₄.mem (u₄.reg .esp + 12), load32 u₄.mem (u₄.reg .esp + 16)] = _
    rw [hmain₄.esp, hmem₄]
    simp (disch := decide) only [load32_store32_ne, load32_store32]
  -- All five stores go to the frame.
  have hmemory : Untouched (F + 64) 64 own s.mem v.mem := by
    show Untouched (F + 64) 64 own s.mem u₄.mem
    have hin : ∀ {d : UInt32}, d.toNat + 4 ≤ 64 → ∀ x, InArea (F + d) 4 x → Below (F + 64) 64 x :=
      fun hd x hx => below_of_between hx hd
    rw [hmem₄]
    exact (((((Untouched.refl _ _ own s.mem).store _ (hin (by decide))).store _
      (hin (by decide))).store _ (hin (by decide))).store _ (hin (by decide))).store _
      (hin (by decide))
  set t := run M [.callOut scanf] u₄ with ht
  have hcall : Steps M u₄ t :=
    Steps.block (start + 10) (piece_drop hcode 10 ⟨_, rfl⟩) rfl hpc₄ hmain₄.returned
  have hpct : t.pc = start + 11 := by
    rw [ht, run_pc, hpc₄]
    rfl
  exact ⟨v, ⟨hformat, hpointers, hmain₄.esp, hmain₄.world, hmemory⟩, t,
    ((((hblock.trans h₁).trans h₂).trans h₃).trans h₄).trans hcall, hpct, hmain₄.returned,
    hmain₄.depth, rfl, rfl, rfl⟩

end Ask

section Answers

variable {α β V : Type} [DecidableEq L] [DecidableEq E] {M : Machine L E (Console α β)} {l : L}
  {scanf : E} {F SC d₁ d₂ d₃ d₄ : UInt32} {size depth start : ℕ} {own : UInt32 → Prop}
  {load : Memory → UInt32 → V} {values : α → List V} {w : Console α β}
  {s : State (Console α β)}

/-- **There is another quadruple**: it is in the frame. The four targets are apart from the
arguments, from the stack of the call and from each other, so what is loaded from them afterwards is
what was read. -/
theorem ask_next (hlib : Scans M scanf SC [4, 8, 12, 16] size load values depth own)
    (hdepth : depth ≤ 2 ^ 31) (hin : InFrame size d₁ d₂ d₃ d₄)
    (hown : ∀ x, own x → ¬ InArea (F - 16) 80 x)
    (hcode : askQuadruple l scanf SC d₁ d₂ d₃ d₄ <+: M.prog.drop start) (h : InMain F w s)
    (hpc : s.pc = start) {group : α} {rest : List α} (hinput : w.input = group :: rest) :
    ∃ v, Asks F SC d₁ d₂ d₃ d₄ own w s.mem v ∧ Separate [4, 8, 12, 16] size depth own v ∧
      v.world.input = group :: rest ∧ ∃ t, Steps M s t ∧ InMain F { w with input := rest } t ∧
      t.pc = start + 11 ∧ t.reg .eax = 4 ∧ t.mem = (M.out scanf v).mem ∧
      [F + d₁, F + d₂, F + d₃, F + d₄].map (load t.mem) = values group := by
  obtain ⟨v, hv, t, hsteps, hpct, hrun, hdeptht, hreg, hmem, hworldt⟩ := ask_spec own hcode h hpc
  have hseparate := asks_separate hv hin hdepth hown
  have hinputv : v.world.input = group :: rest := (congrArg Console.input hv.world).trans hinput
  obtain ⟨heax, hvalues, hworld⟩ := hlib.next v group rest hv.format hseparate hinputv
  have hesp : t.reg .esp = F := by
    rw [hreg, hlib.cdecl.saved v .esp (by decide), hv.esp]
  rw [hv.pointers, ← hmem] at hvalues
  rw [hv.world] at hworld
  rw [← hreg] at heax
  exact ⟨v, hv, hseparate, hinputv, t, hsteps, ⟨hrun, hdeptht, hesp, hworldt.trans hworld⟩, hpct,
    heax, hmem, hvalues⟩

/-- **No quadruple is left.** The answer is another number than four, and nothing has been printed;
what is in the frame then is of no interest. -/
theorem ask_done (hlib : Scans M scanf SC [4, 8, 12, 16] size load values depth own)
    (hdepth : depth ≤ 2 ^ 31) (hin : InFrame size d₁ d₂ d₃ d₄)
    (hown : ∀ x, own x → ¬ InArea (F - 16) 80 x)
    (hcode : askQuadruple l scanf SC d₁ d₂ d₃ d₄ <+: M.prog.drop start) (h : InMain F w s)
    (hpc : s.pc = start) (hinput : w.input = []) :
    ∃ t, Steps M s t ∧ t.pc = start + 11 ∧ t.returned = false ∧ t.depth = 0 ∧
      t.reg .eax ≠ 4 ∧ t.world.output = w.output := by
  obtain ⟨v, hv, t, hsteps, hpct, hrun, hdeptht, hreg, -, hworldt⟩ := ask_spec own hcode h hpc
  have hseparate := asks_separate hv hin hdepth hown
  have hinputv : v.world.input = [] := (congrArg Console.input hv.world).trans hinput
  obtain ⟨heax, houtput⟩ := hlib.done v hv.format hseparate hinputv
  rw [← hreg] at heax
  rw [← hworldt, hv.world] at houtput
  exact ⟨t, hsteps, hpct, hrun, hdeptht, heax, houtput⟩

/-- The end of the loop and of `main`. -/
theorem ask_end (hlib : Scans M scanf SC [4, 8, 12, 16] size load values depth own)
    (hdepth : depth ≤ 2 ^ 31) (hin : InFrame size d₁ d₂ d₃ d₄)
    (hown : ∀ x, own x → ¬ InArea (F - 16) 80 x)
    (hcode : askQuadruple l scanf SC d₁ d₂ d₃ d₄ <+: M.prog.drop start) {l_end : L} {k : ℕ}
    (htest : testAnswer l_end <+: M.prog.drop (start + 11))
    (hend : mainEnd l_end <+: M.prog.drop k) (hplace : place M.prog l_end = k)
    (h : InMain F w s) (hpc : s.pc = start) (hinput : w.input = []) :
    ∃ t, Steps M s t ∧ t.returned = true ∧ t.world.output = w.output := by
  obtain ⟨a, hask, hpca, hrun, hdeptha, heax, houtput⟩ :=
    ask_done hlib hdepth hin hown hcode h hpc hinput
  obtain ⟨flags, hjump⟩ := test_spec htest hpca hrun
  rw [if_neg heax, hplace] at hjump
  obtain ⟨t, hsteps, hreturned, hworld⟩ :=
    main_end_spec (s := { a with pc := k, flags }) hend rfl hrun hdeptha
  exact ⟨t, (hask.trans hjump).trans hsteps, hreturned,
    (congrArg Console.output hworld).trans houtput⟩

end Answers

end HseDev.Sem8
