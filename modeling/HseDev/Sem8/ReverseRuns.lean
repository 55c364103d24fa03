import HseDev.Sem8.Reverse

/-!
# HseDev — whole runs of the two versions of `reverse`

What `main` does before and behind the loops of `HseDev.Sem8.Reverse`, and what follows for whole
runs.

* **`begin1_spec`** / **`begin2_spec`** — the frame, the count and the array.
* **`end1_spec`** / **`end2_spec`** — the registers of the caller.
* **`reverse_agree`** — both versions print fewer than `2 ^ 28` numbers in reverse order, and
  return as they were called.
* **`reverse_bounds`** — for which counts the array is large enough.
-/

namespace HseDev.Sem8.Reverse

open X86 Assembly

/-! ## Before and behind the loops

The text of both programs up to their loops: the pushes, the alignment, the first number, and the
space for the array. -/

/-- A program is called, with `n` as the first number of its input. -/
structure Entry (n : UInt32) (rest : List UInt32) (s₀ : State World) : Prop where
  pc : s₀.pc = 16
  returned : s₀.returned = false
  depth : s₀.depth = 0
  log : s₀.log = []
  input : s₀.world.input = n :: rest
  output : s₀.world.output = []

/-- The stack pointer of `main`, by its frame pointer. -/
def mainEsp (ebp : UInt32) : UInt32 :=
  (ebp &&& -16) - 16

/-- The registers that `reverse1` pushes, from the last one on, and its return address. -/
def saved1 (s₀ : State World) : List UInt32 :=
  [s₀.reg .esi, s₀.reg .edi, s₀.reg .ebx, s₀.reg .ebp, load32 s₀.mem (s₀.reg .esp)]

/-- The registers that `reverse2` pushes, from the last one on, and its return address. -/
def saved2 (s₀ : State World) : List UInt32 :=
  [s₀.reg .esi, s₀.reg .ebx, s₀.reg .ebp, load32 s₀.mem (s₀.reg .esp)]

section Beginnings

variable {I : Image} {s₀ s : State World} {n : UInt32} {rest : List UInt32} {depth : ℕ}
  {own : UInt32 → Prop} {m m' : Memory}

/-- What `main` has pushed lies above its stack and its argument slots. -/
theorem saved_above {p x : UInt32} {j k : ℕ} (hx : InArea p j x) (hj : j ≤ 20)
    (hk : k + 64 ≤ 2 ^ 32) : ¬ Below (mainEsp p) k x ∧ ¬ InArea (mainEsp p) 16 x := by
  have hrest : (p % 16).toNat < 16 := by
    rw [UInt32.toNat_mod]
    exact Nat.mod_lt _ (by decide)
  -- `andl` takes the remainder from the pointer, `subl` the slots.
  have hp : p = mainEsp p + (16 + p % 16) := by
    rw [mainEsp, align16]
    grind
  have hdistance : (16 + p % 16).toNat = 16 + (p % 16).toNat := by
    rw [UInt32.toNat_add]
    show (16 + (p % 16).toNat) % 2 ^ 32 = _
    omega
  rw [hp] at hx
  refine ⟨not_below_of_inArea hx (by omega), fun hin => ?_⟩
  rw [← UInt32.add_zero (mainEsp p)] at hin
  exact InArea.not_of_lt hin (by show 0 + 16 ≤ _; omega) (by show _ ≤ 2 ^ 32 + 0; omega) hx

/-- The prologue of `reverse1`, with the four registers it saves. -/
theorem push1_spec (I : Image) (h : Entry n rest s₀) :
    ∃ t, Steps (I.machine reverse1) s₀ t ∧ InMain (mainEsp (s₀.reg .esp - 16)) s₀.world t ∧
      t.pc = 24 ∧ t.reg .ebp = s₀.reg .esp - 16 ∧
      words t.mem (s₀.reg .esp - 16) 5 = saved1 s₀ ∧ t.log = s₀.log := by
  set t := run (I.machine reverse1) [.label .main, .pushl .ebp, .pushl .ebx, .pushl .edi,
    .pushl .esi, .movl (.reg .esp) .ebp, .alu .and (.imm (-16)) .esp,
    .alu .sub (.imm 16) .esp] s₀ with ht
  have hblock : Steps (I.machine reverse1) s₀ t :=
    Steps.block 16 ⟨_, rfl⟩ rfl h.pc h.returned
  have hpct : t.pc = 24 := by
    rw [ht, run_pc, h.pc]
    rfl
  set p := s₀.reg .esp - 16 with hp
  -- where the four pushes go, seen from the last one
  have hebp : s₀.reg .esp - 4 = p + 12 := by grind
  have hebx : s₀.reg .esp - 4 - 4 = p + 8 := by grind
  have hedi : s₀.reg .esp - 4 - 4 - 4 = p + 4 := by grind
  have hesi : s₀.reg .esp - 4 - 4 - 4 - 4 = p + 0 := by grind
  have hframe : t.reg .ebp = p := by
    rw [← UInt32.add_zero p, ← hesi]
    rfl
  have hesp : t.reg .esp = mainEsp p := by
    rw [← hframe]
    rfl
  have hmem : t.mem = store32 (store32 (store32 (store32 s₀.mem (p + 12) (s₀.reg .ebp))
      (p + 8) (s₀.reg .ebx)) (p + 4) (s₀.reg .edi)) (p + 0) (s₀.reg .esi) := by
    rw [← hesi, ← hedi, ← hebx, ← hebp]
    rfl
  have hsaved : words t.mem p 5 = saved1 s₀ := by
    have hreturn : p + 16 = s₀.reg .esp := by grind
    rw [words_five, hmem]
    simp (disch := decide) only [load32_store32_ne, load32_store32]
    rw [hreturn]
    rfl
  exact ⟨t, hblock, ⟨h.returned, h.depth, hesp, rfl⟩, hpct, hframe, hsaved, rfl⟩

/-- The prologue of `reverse2`, which does not save `edi`. -/
theorem push2_spec (I : Image) (h : Entry n rest s₀) :
    ∃ t, Steps (I.machine reverse2) s₀ t ∧ InMain (mainEsp (s₀.reg .esp - 12)) s₀.world t ∧
      t.pc = 23 ∧ t.reg .ebp = s₀.reg .esp - 12 ∧
      words t.mem (s₀.reg .esp - 12) 4 = saved2 s₀ ∧ t.reg .edi = s₀.reg .edi ∧
      t.log = s₀.log := by
  set t := run (I.machine reverse2) [.label .main, .pushl .ebp, .pushl .ebx, .pushl .esi,
    .movl (.reg .esp) .ebp, .alu .and (.imm (-16)) .esp, .alu .sub (.imm 16) .esp] s₀ with ht
  have hblock : Steps (I.machine reverse2) s₀ t :=
    Steps.block 16 ⟨_, rfl⟩ rfl h.pc h.returned
  have hpct : t.pc = 23 := by
    rw [ht, run_pc, h.pc]
    rfl
  set p := s₀.reg .esp - 12 with hp
  have hebp : s₀.reg .esp - 4 = p + 8 := by grind
  have hebx : s₀.reg .esp - 4 - 4 = p + 4 := by grind
  have hesi : s₀.reg .esp - 4 - 4 - 4 = p + 0 := by grind
  have hframe : t.reg .ebp = p := by
    rw [← UInt32.add_zero p, ← hesi]
    rfl
  have hesp : t.reg .esp = mainEsp p := by
    rw [← hframe]
    rfl
  have hmem : t.mem = store32 (store32 (store32 s₀.mem (p + 8) (s₀.reg .ebp)) (p + 4)
      (s₀.reg .ebx)) (p + 0) (s₀.reg .esi) := by
    rw [← hesi, ← hebx, ← hebp]
    rfl
  have hsaved : words t.mem p 4 = saved2 s₀ := by
    have hreturn : p + 12 = s₀.reg .esp := by grind
    rw [words_four, hmem]
    simp (disch := decide) only [load32_store32_ne, load32_store32]
    rw [hreturn]
    rfl
  exact ⟨t, hblock, ⟨h.returned, h.depth, hesp, rfl⟩, hpct, hframe, hsaved, rfl, rfl⟩

theorem count_spec {M : Machine Label Extern World} {SC PR : UInt32} {base : Reg} {k q : ℕ}
    {F : UInt32} (hM : Code M SC PR base k) (hlib : Stdio M SC PR depth own)
    (hown : ∀ x, Below F 16 x → ¬ own x) (h : InMain F s₀.world s)
    (hinput : s₀.world.input = n :: rest) (hcall : M.prog[q]? = some (.call .read_int32))
    (hpc : s.pc = q) (hq : q + 1 < 2 ^ 32) :
    ∃ t, Steps M s t ∧ InMain F { s₀.world with input := rest } t ∧ t.pc = q + 1 ∧
      t.reg .eax = n ∧ t.reg .ebp = s.reg .ebp ∧ t.reg .edi = s.reg .edi ∧
      Untouched F (16 + depth) own s.mem t.mem ∧ elements t.log = elements s.log := by
  rw [← hpc] at hcall hq
  obtain ⟨t, hread, hback, hvalue⟩ :=
    readInt32_spec hlib.scanf hlib.depth hM.read hM.readPlace hcall hq h.returned (h.esp ▸ hown)
  obtain ⟨heax, hworld⟩ := hvalue n rest ((congrArg Console.input h.world).trans hinput)
  rw [h.world] at hworld
  exact ⟨t, hread, ⟨hback.returned, hback.depth.trans h.depth,
    (hback.saved .esp (by decide)).trans h.esp, hworld⟩, hback.pc.trans (congrArg (· + 1) hpc),
    heax, hback.saved .ebp (by decide), hback.saved .edi (by decide), h.esp ▸ hback.memory,
    hback.log⟩

/-- What the call of `malloc` at `v` returns. -/
def answer (I : Image) (v : State World) : UInt32 :=
  (I.out .malloc { v with pc := v.pc + 1 }).reg .eax

/-- The size of the block is computed from the count. -/
theorem size1_spec {F : UInt32} {w : World} (I : Image) (h : InMain F w s) (hpc : s.pc = 25)
    (heax : s.reg .eax = n) :
    ∃ v, Steps (I.machine reverse1) s v ∧ InMain F w v ∧ v.pc = 29 ∧ v.reg .ebx = n ∧
      v.reg .ebp = s.reg .ebp ∧ v.argument 0 = n * 4 ∧
      v.mem = store32 s.mem (F + 0) (n * 4) ∧ elements v.log = elements s.log := by
  set a := run (I.machine reverse1) [.movl (.reg .eax) .ebx,
    .lea { base := some .eax, index := some (.eax, 1) } .eax,
    .lea { base := some .eax, index := some (.eax, 1) } .eax] s with ha
  have hsize : Steps (I.machine reverse1) s a := Steps.block 25 ⟨_, rfl⟩ rfl hpc h.returned
  have hpca : a.pc = 28 := by
    rw [ha, run_pc, hpc]
    rfl
  -- the two `lea` double the count
  have heaxa : a.reg .eax = n * 4 := by
    show 0 + (0 + s.reg .eax + s.reg .eax * 1) + (0 + s.reg .eax + s.reg .eax * 1) * 1 = n * 4
    rw [heax]
    grind
  have hespa : a.reg .esp = F := h.esp
  set v := run (I.machine reverse1) [.movlTo (.reg .eax) (based 0 .esp)] a with hv
  have hstore : Steps (I.machine reverse1) a v := Steps.block 28 ⟨_, rfl⟩ rfl hpca h.returned
  have hpcv : v.pc = 29 := by
    rw [hv, run_pc, hpca]
    rfl
  have hmem : v.mem = store32 s.mem (F + 0) (n * 4) := by
    rw [← hespa, ← eval_based, ← heaxa]
    rfl
  have hargument : v.argument 0 = n * 4 := by
    show load32 v.mem (v.reg .esp + 0) = n * 4
    rw [hmem, show v.reg .esp = F from hespa]
    exact load32_store32 _ _ _
  have hlog : elements v.log = elements s.log := by
    show elements (s.log ++ [_]) = _
    rw [elements_append]
    exact List.append_nil _
  exact ⟨v, hsize.trans hstore, ⟨h.returned, h.depth, h.esp, h.world⟩, hpcv, heax, rfl, hargument,
    hmem, hlog⟩

theorem allocate_spec {F : UInt32} {w : World} {v : State World}
    (hmalloc : Cdecl (I.machine reverse1) .malloc 4 depth own fun _ _ => False)
    (h : InMain F w v) (hpc : v.pc = 29) :
    ∃ c, Steps (I.machine reverse1) v c ∧ InLoops c 0 c ∧ c.pc = 32 ∧ c.reg .esp = F ∧
      c.reg .ebx = v.reg .ebx ∧ c.reg .ebp = v.reg .ebp ∧ c.reg .edi = answer I v ∧
      c.mem = (I.out .malloc { v with pc := v.pc + 1 }).mem ∧
      c.world = (I.out .malloc { v with pc := v.pc + 1 }).world ∧ c.log = v.log := by
  set c := run (I.machine reverse1) [.callOut .malloc, .movl (.reg .eax) .edi,
    .alu .xor (.reg .esi) .esi] v with hc
  have hblock : Steps (I.machine reverse1) v c := Steps.block 29 ⟨_, rfl⟩ rfl hpc h.returned
  have hpcc : c.pc = 32 := by
    rw [hc, run_pc, hpc]
    rfl
  have hsaved := hmalloc.saved { v with pc := v.pc + 1 }
  have hesi : c.reg .esi = 0 := UInt32.xor_self
  exact ⟨c, hblock, ⟨h.returned, h.depth, fun _ _ => rfl, hesi⟩, hpcc,
    (hsaved .esp (by decide)).trans h.esp, hsaved .ebx (by decide), hsaved .ebp (by decide), rfl,
    rfl, rfl, rfl⟩

/-- **From the call of `reverse1` to its loops.** On the way `malloc` is called with the size of
the block, in the state `v`, and its answer is the base of the array, also if it is `NULL`. -/
theorem begin1_spec (hlib : Stdio (I.machine reverse1) I.SC I.PR depth own)
    (hmalloc : Cdecl (I.machine reverse1) .malloc 4 depth own fun _ _ => False)
    (hown : ∀ x, Below (mainEsp (s₀.reg .esp - 16)) 16 x → ¬ own x) (h : Entry n rest s₀) :
    ∃ v c, Steps (I.machine reverse1) s₀ v ∧ v.pc = 29 ∧ v.argument 0 = n * 4 ∧
      v.world = { s₀.world with input := rest } ∧ Steps (I.machine reverse1) v c ∧
      InLoops c 0 c ∧ c.pc = 32 ∧ c.reg .esp = mainEsp (s₀.reg .esp - 16) ∧ c.reg .ebx = n ∧
      c.reg .ebp = s₀.reg .esp - 16 ∧ c.reg .edi = answer I v ∧
      c.world = (I.out .malloc { v with pc := v.pc + 1 }).world ∧ elements c.log = [] ∧
      ((∀ x, InArea (s₀.reg .esp - 16) 20 x → ¬ own x) →
        words c.mem (s₀.reg .esp - 16) 5 = saved1 s₀) := by
  obtain ⟨t, hpush, ht, hpct, hebpt, hsaved, hlogt⟩ := push1_spec I h
  obtain ⟨u, hcount, hu, hpcu, heaxu, hebpu, -, hmemu, hlogu⟩ :=
    count_spec (code1 I) hlib hown ht h.input rfl hpct (by decide)
  obtain ⟨v, hsize, hv, hpcv, hebxv, hebpv, hargument, hmemv, hlogv⟩ :=
    size1_spec I hu hpcu heaxu
  obtain ⟨c, hallocate, hc, hpcc, hesp, hebx, hebp, hedi, hmemc, hworldc, hlogc⟩ :=
    allocate_spec hmalloc hv hpcv
  have hlog : elements c.log = [] := by
    rw [hlogc, hlogv, hlogu, hlogt, h.log]
    rfl
  refine ⟨v, c, (hpush.trans hcount).trans hsize, hpcv, hargument, hv.world, hallocate, hc, hpcc,
    hesp, hebx.trans hebxv, ((hebp.trans hebpv).trans hebpu).trans hebpt, hedi, hworldc, hlog,
    fun hapart => ?_⟩
  -- Since the pushes, `scanf`, the store of the size and `malloc` have written to memory.
  rw [← hsaved]
  apply words_congr (by decide)
  intro x hx
  have hdepth := hlib.depth
  obtain ⟨hbelow, hslots⟩ := saved_above (k := 16 + depth) hx le_rfl (by omega)
  have hstored : ¬ InArea (mainEsp (s₀.reg .esp - 16) + 0) 4 x := by
    rw [UInt32.add_zero]
    exact fun hin => hslots (Nat.lt_of_lt_of_le hin (by decide))
  have hframe : (I.out .malloc { v with pc := v.pc + 1 }).mem x = v.mem x := by
    apply hmalloc.frame { v with pc := v.pc + 1 } x
    · intro hin
      rw [show ({ v with pc := v.pc + 1 } : State World).reg .esp = _ from hv.esp] at hin
      exact hbelow (hin.mono (by omega))
    · intro hin
      rw [show ({ v with pc := v.pc + 1 } : State World).reg .esp = _ from hv.esp] at hin
      exact hslots (Nat.lt_of_lt_of_le hin (by decide))
    · exact hapart x hx
    · exact id
  rw [hmemc, hframe, hmemv, store32, storeBytes_outside hstored]
  exact hmemu x hbelow (hapart x hx)

/-- How much of the stack `reverse2` takes for its array. -/
def size2 (n : UInt32) : UInt32 :=
  (n * 4 + 16) &&& -16

/-- **From the call of `reverse2` to its loops.** -/
theorem begin2_spec (hlib : Stdio (I.machine reverse2) I.SC I.PR depth own)
    (hown : ∀ x, Below (mainEsp (s₀.reg .esp - 12)) 16 x → ¬ own x) (h : Entry n rest s₀) :
    ∃ c, Steps (I.machine reverse2) s₀ c ∧ InLoops c 0 c ∧ c.pc = 31 ∧
      c.reg .esp = mainEsp (s₀.reg .esp - 12) - size2 n ∧ c.reg .ebx = n ∧
      c.reg .ebp = s₀.reg .esp - 12 ∧ c.reg .edi = s₀.reg .edi ∧
      c.world = { s₀.world with input := rest } ∧ elements c.log = [] ∧
      ((∀ x, InArea (s₀.reg .esp - 12) 16 x → ¬ own x) →
        words c.mem (s₀.reg .esp - 12) 4 = saved2 s₀) := by
  obtain ⟨t, hpush, ht, hpct, hebpt, hsaved, hedit, hlogt⟩ := push2_spec I h
  obtain ⟨u, hcount, hu, hpcu, heaxu, hebpu, hediu, hmemu, hlogu⟩ :=
    count_spec (code2 I) hlib hown ht h.input rfl hpct (by decide)
  set c := run (I.machine reverse2) [.movl (.reg .eax) .ebx,
    .lea { base := some .eax, index := some (.eax, 1) } .eax,
    .lea { base := some .eax, index := some (.eax, 1) } .eax, .alu .add (.imm 16) .eax,
    .alu .and (.imm (-16)) .eax, .alu .sub (.reg .eax) .esp, .alu .xor (.reg .esi) .esi] u with hc
  -- the size from the count, the area on the stack, and the index
  have hblock : Steps (I.machine reverse2) u c := Steps.block 24 ⟨_, rfl⟩ rfl hpcu hu.returned
  have hpcc : c.pc = 31 := by
    rw [hc, run_pc, hpcu]
    rfl
  have hesi : c.reg .esi = 0 := UInt32.xor_self
  have hsize : c.reg .esp = mainEsp (s₀.reg .esp - 12) - size2 n := by
    have hfour : 0 + (0 + n + n * 1) + (0 + n + n * 1) * 1 = n * 4 := by grind
    rw [← hu.esp, size2, ← hfour, ← heaxu]
    rfl
  have hlog : elements c.log = [] := by
    show elements u.log = []
    rw [hlogu, hlogt, h.log]
    rfl
  refine ⟨c, (hpush.trans hcount).trans hblock, ⟨hu.returned, hu.depth, fun _ _ => rfl, hesi⟩,
    hpcc, hsize, heaxu, hebpu.trans hebpt, hediu.trans hedit, hu.world, hlog, fun hapart => ?_⟩
  rw [← hsaved]
  -- `scanf` uses the stack below what has been saved
  apply words_congr (by decide)
  intro x hx
  have hdepth := hlib.depth
  exact hmemu x (saved_above hx (by decide) (by omega)).1 (hapart x hx)

/-! ## Behind the loops

The text behind the loops. It pops what was pushed, from wherever `ebp` says, so it needs that
nobody has written there. -/

/-- **From the loops of `reverse1` to its end**; `w` is the state in which `free` is called. -/
theorem end1_spec (I : Image) (hpc : s.pc = 48) (hrun : s.returned = false)
    (hdepth : s.depth = 0) :
    ∃ w u, w.reg = s.reg ∧ w.mem = store32 s.mem (s.reg .esp + 0) (s.reg .edi) ∧
      w.world = s.world ∧ Steps (I.machine reverse1) s u ∧ u.returned = true ∧
      elements u.log = elements s.log ∧ u.mem = (I.out .free w).mem ∧
      u.world = (I.out .free w).world ∧ u.reg .esp = (I.out .free w).reg .ebp + 20 ∧
      words u.mem ((I.out .free w).reg .ebp) 5 = [u.reg .esi, u.reg .edi, u.reg .ebx,
        u.reg .ebp, load32 u.mem ((I.out .free w).reg .ebp + 16)] := by
  set a := run (I.machine reverse1) [.label .write_loop_end,
    .movlTo (.reg .edi) (based 0 .esp)] s with ha
  have hstore : Steps (I.machine reverse1) s a := Steps.block 48 ⟨_, rfl⟩ rfl hpc hrun
  have hpca : a.pc = 50 := by
    rw [ha, run_pc, hpc]
    rfl
  have hmem : a.mem = store32 s.mem (s.reg .esp + 0) (s.reg .edi) := by
    rw [← eval_based]
    rfl
  have hlog : elements a.log = elements s.log := by
    show elements (s.log ++ [_]) = _
    rw [elements_append]
    exact List.append_nil _
  set w : State World := { a with pc := a.pc + 1 } with hw
  set b := run (I.machine reverse1) [.callOut .free, .alu .xor (.reg .eax) .eax,
    .movl (.reg .ebp) .esp, .popl .esi, .popl .edi, .popl .ebx, .popl .ebp] a with hb
  have hblock : Steps (I.machine reverse1) a b := Steps.block 50 ⟨_, rfl⟩ rfl hpca hrun
  have hret : (I.machine reverse1).prog[b.pc]? = some .ret := by
    rw [hb, run_pc, hpca]
    rfl
  refine ⟨w, _, rfl, hmem, rfl, (hstore.trans hblock).trans (Steps.finish hret hrun hdepth), rfl,
    hlog, rfl, rfl, ?_, ?_⟩
  · have hend : (I.out .free w).reg .ebp + 20 =
        (I.out .free w).reg .ebp + 4 + 4 + 4 + 4 + 4 := by grind
    rw [hend]
    rfl
  · set p := (I.out .free w).reg .ebp with hp
    have hebx : p + 8 = p + 4 + 4 := by grind
    have hebp : p + 12 = p + 4 + 4 + 4 := by grind
    rw [words_five, UInt32.add_zero, hebx, hebp]
    rfl

/-- **From the loops of `reverse2` to its end.** -/
theorem end2_spec (I : Image) (hpc : s.pc = 47) (hrun : s.returned = false)
    (hdepth : s.depth = 0) :
    ∃ u, Steps (I.machine reverse2) s u ∧ u.returned = true ∧ u.log = s.log ∧ u.mem = s.mem ∧
      u.world = s.world ∧ u.reg .edi = s.reg .edi ∧ u.reg .esp = s.reg .ebp + 16 ∧
      words s.mem (s.reg .ebp) 4 = [u.reg .esi, u.reg .ebx, u.reg .ebp,
        load32 u.mem (s.reg .ebp + 12)] := by
  set b := run (I.machine reverse2) [.label .write_loop_end, .alu .xor (.reg .eax) .eax,
    .movl (.reg .ebp) .esp, .popl .esi, .popl .ebx, .popl .ebp] s with hb
  have hblock : Steps (I.machine reverse2) s b := Steps.block 47 ⟨_, rfl⟩ rfl hpc hrun
  have hret : (I.machine reverse2).prog[b.pc]? = some .ret := by
    rw [hb, run_pc, hpc]
    rfl
  refine ⟨_, hblock.trans (Steps.finish hret hrun hdepth), rfl, rfl, rfl, rfl, rfl, ?_, ?_⟩
  · have hend : s.reg .ebp + 16 = s.reg .ebp + 4 + 4 + 4 + 4 := by grind
    rw [hend]
    rfl
  · have hebp : s.reg .ebp + 8 = s.reg .ebp + 4 + 4 := by grind
    rw [words_four, UInt32.add_zero, hebp]
    rfl

end Beginnings

/-! ## The accesses to the array

Where the loops read and write, for any count at all. The size of the array is computed modulo `2 ^
32` in both programs and nobody looks at the carry, so a large count gets a small area. -/

/-- Every byte of an element that is accessed in a run from `s₀` lies in `R`. -/
def Bounded (M : Machine Label Extern World) (s₀ : State World) (R : UInt32 → Prop) : Prop :=
  ∀ t, Steps M s₀ t → ∀ access ∈ elements t.log, ∀ x,
    InArea access.address access.size x → R x

/-- The functions outside the programs keep to the calling convention; `own` are their data. -/
structure Contract (I : Image) (depth : ℕ) (own : UInt32 → Prop) : Prop where
  stdio : ∀ prog, Stdio (I.machine prog) I.SC I.PR depth own
  malloc : ∀ prog, Cdecl (I.machine prog) .malloc 4 depth own fun _ _ => False

section Bounds

variable {I : Image} {s₀ : State World} {n : UInt32} {rest : List UInt32} {depth : ℕ}
  {own : UInt32 → Prop}

/-- The loops access the words of the array and nothing else. -/
theorem accesses_in (base : Reg) {b : UInt32} {N : ℕ} {R : UInt32 → Prop} :
    (∀ access ∈ stores base b N ++ loads base b N, ∀ x,
      InArea access.address access.size x → R x) ↔
    ∀ i < N, ∀ x, InArea (b + UInt32.ofNat i * 4) 4 x → R x := by
  constructor
  · intro h i hi
    apply h (elementAccess base b (UInt32.ofNat i) true)
    exact List.mem_append_left _ (List.mem_map_of_mem (List.mem_range.mpr hi))
  · intro h access hmem
    rcases List.mem_append.mp hmem with hstore | hload
    · obtain ⟨i, hi, rfl⟩ := List.mem_map.mp hstore
      exact h i (List.mem_range.mp hi)
    · obtain ⟨i, hi, rfl⟩ := List.mem_map.mp hload
      exact h i (List.mem_range.mp (List.mem_reverse.mp hi))

/-- A run that ends has accessed the words of the array. -/
theorem bounded_of_end {M : Machine Label Extern World} {u : State World} {base : Reg}
    {b : UInt32} {N : ℕ} {R : UInt32 → Prop} (hend : Steps M s₀ u) (hu : u.returned = true)
    (hlog : elements u.log = stores base b N ++ loads base b N) :
    Bounded M s₀ R ↔ ∀ i < N, ∀ x, InArea (b + UInt32.ofNat i * 4) 4 x → R x := by
  rw [← accesses_in base, ← hlog]
  exact elements_of_end hend hu fun access => ∀ x, InArea access.address access.size x → R x

/-- The accesses of a whole run of `reverse1`. -/
theorem run1_spec (hlibc : Contract I depth own)
    (hown : ∀ x, Below (mainEsp (s₀.reg .esp - 16)) 16 x → ¬ own x) (h : Entry n rest s₀) :
    ∃ v u, Steps (I.machine reverse1) s₀ v ∧ v.pc = 29 ∧ v.argument 0 = n * 4 ∧
      Steps (I.machine reverse1) s₀ u ∧ u.returned = true ∧
      elements u.log = stores .edi (answer I v) n.toNat ++ loads .edi (answer I v) n.toNat := by
  have hlib := hlibc.stdio reverse1
  obtain ⟨v, c, hbegin, hpcv, hargument, -, hallocate, hc, hpcc, hesp, hebx, -, hedi, -, hlogc,
    -⟩ := begin1_spec hlib (hlibc.malloc reverse1) hown h
  obtain ⟨t, hloops, ht, hpct, hlogt, -⟩ :=
    loops_spec (code1 I) hlib (hesp ▸ hown) hc hpcc
  obtain ⟨w, u, -, -, -, hend, hu, hlogu, -⟩ := end1_spec I hpct ht.returned ht.depth
  refine ⟨v, u, hbegin, hpcv, hargument, ((hbegin.trans hallocate).trans hloops).trans hend, hu,
    ?_⟩
  rw [hlogu, hlogt, hlogc, hebx, hedi]
  rfl

/-- The accesses of a whole run of `reverse2`. -/
theorem run2_spec (hlibc : Contract I depth own)
    (hown : ∀ x, Below (mainEsp (s₀.reg .esp - 12)) 16 x → ¬ own x)
    (hownArray : ∀ x, Below (mainEsp (s₀.reg .esp - 12) - size2 n) 16 x → ¬ own x)
    (h : Entry n rest s₀) :
    ∃ u, Steps (I.machine reverse2) s₀ u ∧ u.returned = true ∧
      elements u.log = stores .esp (mainEsp (s₀.reg .esp - 12) - size2 n) n.toNat ++
        loads .esp (mainEsp (s₀.reg .esp - 12) - size2 n) n.toNat := by
  have hlib := hlibc.stdio reverse2
  obtain ⟨c, hbegin, hc, hpcc, hesp, hebx, -, -, -, hlogc, -⟩ := begin2_spec hlib hown h
  obtain ⟨t, hloops, ht, hpct, hlogt, -⟩ :=
    loops_spec (code2 I) hlib (hesp ▸ hownArray) hc hpcc
  obtain ⟨u, hend, hu, hlogu, -⟩ := end2_spec I hpct ht.returned ht.depth
  refine ⟨u, (hbegin.trans hloops).trans hend, hu, ?_⟩
  rw [hlogu, hlogt, hlogc, hebx, hesp]
  rfl

/-- The size in bytes wraps around at `2 ^ 30` words. -/
theorem toNat_times_four (n : UInt32) : (n * 4).toNat = 4 * (n.toNat % 2 ^ 30) := by
  rw [UInt32.toNat_mul]
  show n.toNat * 4 % 2 ^ 32 = _
  omega

/-- The words that fit into the block of `reverse1`. -/
theorem block_fits (n b : UInt32) :
    (∀ i < n.toNat, ∀ x, InArea (b + UInt32.ofNat i * 4) 4 x →
      b ≠ 0 ∧ InArea b (n * 4).toNat x) ↔ n = 0 ∨ b ≠ 0 ∧ n.toNat < 2 ^ 30 := by
  have hn := n.toNat_lt
  have hwords := words_fit (b := b) (n := n.toNat) (Nat.mod_lt n.toNat (by decide : 0 < 2 ^ 30))
  rw [← toNat_times_four] at hwords
  constructor
  · intro h
    rcases eq_or_ne n 0 with hzero | hzero
    · exact .inl hzero
    · have hpos : 0 < n.toNat := by
        rw [Nat.pos_iff_ne_zero, Ne, ← UInt32.toNat_zero, UInt32.toNat_inj]
        exact hzero
      refine .inr ⟨(h 0 hpos _ (inArea_self _)).1, ?_⟩
      -- Below `2 ^ 30`, nothing is lost of the size.
      have hle := hwords.mp fun i hi x hx => (h i hi x hx).2
      omega
  · rintro (rfl | ⟨hb, hlt⟩)
    · intro i hi
      exact absurd hi (Nat.not_lt_zero i)
    · intro i hi x hx
      have hle : n.toNat ≤ n.toNat % 2 ^ 30 := by omega
      exact ⟨hb, hwords.mpr hle i hi x hx⟩

/-- The size of the area of `reverse2`, in bytes: rounded down to a multiple of 16 after 16 have
been added, and wrapped. -/
theorem toNat_size2 (n : UInt32) :
    (size2 n).toNat = 4 * ((n.toNat + 4) % 2 ^ 30 / 4 * 4) := by
  have hsum : (n * 4 + 16).toNat = 4 * ((n.toNat + 4) % 2 ^ 30) := by
    rw [UInt32.toNat_add, toNat_times_four]
    show (4 * (n.toNat % 2 ^ 30) + 16) % 2 ^ 32 = _
    omega
  have halign : (size2 n).toNat = _ := toNat_align16 (n * 4 + 16)
  rw [halign, hsum]
  omega

/-- The part of the stack that a program reserves by taking `size` from its stack pointer `esp`:
the bytes below `esp`, as many of them as there are on a stack that reaches down to `bottom`.
Addresses do not wrap here. -/
def Reserved (bottom esp size x : UInt32) : Prop :=
  bottom.toNat ≤ x.toNat ∧ esp.toNat ≤ x.toNat + size.toNat ∧ x.toNat < esp.toNat

/-- The words that fit into the part of the stack that `reverse2` reserves. -/
theorem area_fits (n bottom esp : UInt32) :
    (∀ i < n.toNat, ∀ x, InArea (esp - size2 n + UInt32.ofNat i * 4) 4 x →
      Reserved bottom esp (size2 n) x) ↔
      n = 0 ∨ n.toNat < 2 ^ 30 - 4 ∧ bottom.toNat + (size2 n).toNat ≤ esp.toNat := by
  have hn := n.toNat_lt
  have hsize := toNat_size2 n
  have hbegin : (esp - size2 n).toNat = (2 ^ 32 - (size2 n).toNat + esp.toNat) % 2 ^ 32 :=
    UInt32.toNat_sub esp (size2 n)
  have hesp := esp.toNat_lt
  have hsizelt := (size2 n).toNat_lt
  constructor
  · intro h
    rcases eq_or_ne n 0 with hzero | hzero
    · exact .inl hzero
    · have hpos : 0 < n.toNat := by
        rw [Nat.pos_iff_ne_zero, Ne, ← UInt32.toNat_zero, UInt32.toNat_inj]
        exact hzero
      -- the first word lies below `esp`, so the stack pointer has not wrapped
      have hfirst := h 0 hpos (esp - size2 n) (by
        show InArea (esp - size2 n + 0 * 4) 4 _
        rw [UInt32.zero_mul, UInt32.add_zero]
        exact inArea_self _)
      unfold Reserved at hfirst
      refine .inr ⟨?_, by omega⟩
      -- and the word at `esp` is not one of the array
      by_contra hlarge
      have hlast : esp - size2 n + UInt32.ofNat ((size2 n).toNat / 4) * 4 = esp := by
        apply UInt32.toNat_inj.mp
        rw [UInt32.toNat_add, toNat_index (by omega)]
        omega
      have houtside := h ((size2 n).toNat / 4) (by omega) esp (by
        rw [hlast]
        exact inArea_self _)
      exact Nat.lt_irrefl _ houtside.2.2
  · rintro (rfl | ⟨hlt, hroom⟩)
    · intro i hi
      exact absurd hi (Nat.not_lt_zero i)
    · intro i hi x hx
      have hin : InArea (esp - size2 n) (4 * n.toNat) x := inArea_word hx hi (by omega)
      have hx' := x.toNat_lt
      unfold InArea at hin
      rw [UInt32.toNat_sub] at hin
      unfold Reserved
      omega

/-- **For which counts the array is large enough.** Each program computes the size of its array
modulo `2 ^ 32`, and runs through the array until the index is the count. The stack that
`reverse2` takes its array from must have room for it. -/
theorem reverse_bounds (hlibc : Contract I depth own) (h : Entry n rest s₀)
    (hown1 : ∀ x, Below (mainEsp (s₀.reg .esp - 16)) 16 x → ¬ own x)
    (hown2 : ∀ x, Below (mainEsp (s₀.reg .esp - 12)) 16 x → ¬ own x)
    (hownArray : ∀ x, Below (mainEsp (s₀.reg .esp - 12) - size2 n) 16 x → ¬ own x) :
    (∃ v, Steps (I.machine reverse1) s₀ v ∧ v.pc = 29 ∧ v.argument 0 = n * 4 ∧
      (Bounded (I.machine reverse1) s₀
          (fun x => answer I v ≠ 0 ∧ InArea (answer I v) (n * 4).toNat x) ↔
        n = 0 ∨ answer I v ≠ 0 ∧ n.toNat < 2 ^ 30)) ∧
    ∀ bottom : UInt32,
      (Bounded (I.machine reverse2) s₀ (Reserved bottom (mainEsp (s₀.reg .esp - 12)) (size2 n)) ↔
        n = 0 ∨ n.toNat < 2 ^ 30 - 4 ∧
          bottom.toNat + (size2 n).toNat ≤ (mainEsp (s₀.reg .esp - 12)).toNat) := by
  constructor
  · obtain ⟨v, u, hcall, hpc, hargument, hend, hu, hlog⟩ := run1_spec hlibc hown1 h
    exact ⟨v, hcall, hpc, hargument, (bounded_of_end hend hu hlog).trans (block_fits n _)⟩
  · intro bottom
    obtain ⟨u, hend, hu, hlog⟩ := run2_spec hlibc hown2 hownArray h
    exact (bounded_of_end hend hu hlog).trans (area_fits n bottom _)

end Bounds

/-! ## The two versions agree

For a count that is the number of values that follow, both programs come to their end and print the
values backwards. What has to be shown besides the loops is that the array is apart from what the
caller and the library own. -/

/-- The functions outside the programs, with their effect on the input and the output. `malloc`
returns no block, or one apart from the stack and from its own data; `free` may write to
everything but the stack. -/
structure Libc (I : Image) (depth : ℕ) (own stack : UInt32 → Prop) : Prop
    extends Contract I depth own where
  apart : ∀ x, own x → ¬ stack x
  block : ∀ s x, (I.out .malloc s).reg .eax ≠ 0 →
    InArea ((I.out .malloc s).reg .eax) (s.argument 0).toNat x → ¬ stack x ∧ ¬ own x
  mallocWorld : ∀ s, (I.out .malloc s).world = s.world
  free : ∀ prog, Cdecl (I.machine prog) .free 4 depth own fun _ x => ¬ stack x
  freeWorld : ∀ s, (I.out .free s).world = s.world

/-- A program is called with the count `n` and the numbers `vs` as its input; `malloc` succeeds,
and the stack is large enough. -/
structure Called (I : Image) (depth : ℕ) (stack : UInt32 → Prop) (n : UInt32)
    (vs more : List UInt32) (s₀ : State World) : Prop where
  entry : Entry n (vs ++ more) s₀
  count : vs.length = n.toNat
  small : n.toNat < 2 ^ 28
  malloc : ∀ v, Steps (I.machine reverse1) s₀ v → v.pc = 29 → v.argument 0 = n * 4 →
    answer I v ≠ 0
  stack : ∀ x, Below (s₀.reg .esp + 4) (4 * n.toNat + 128 + depth) x → stack x

/-- A program has returned to its caller. -/
structure Finished (s₀ : State World) (lines : List ℤ) (u : State World) : Prop where
  returned : u.returned = true
  output : u.world.output = lines
  saved : ∀ r ∈ [Reg.ebx, .esi, .edi, .ebp], u.reg r = s₀.reg r
  esp : u.reg .esp = s₀.reg .esp + 4
  address : load32 u.mem (s₀.reg .esp) = load32 s₀.mem (s₀.reg .esp)

/-- Outside of the `k` bytes that `main` has pushed and its return address, of its argument
slots, and of the frames below the stack pointer `e` of the loops. -/
structure Clear (s₀ : State World) (k : UInt32) (depth : ℕ) (e x : UInt32) : Prop where
  saved : ¬ InArea (s₀.reg .esp - k) (k.toNat + 4) x
  above : ¬ InArea (mainEsp (s₀.reg .esp - k)) 16 x
  below : ¬ Below e (16 + depth) x

section Agreement

variable {I : Image} {s₀ : State World} {n e k x : UInt32} {vs more : List UInt32} {depth j : ℕ}
  {own stack : UInt32 → Prop}

/-- How far the stack of `main` is below its caller's. -/
theorem mainEsp_sub (e k : UInt32) :
    mainEsp (e - k) + 16 = e + 4 - (k + (4 + (e - k) % 16)) := by
  rw [mainEsp, align16]
  grind

/-- The alignment adds at most 19 bytes to what has been pushed. -/
theorem toNat_distance (e : UInt32) (hk : k.toNat ≤ 16) :
    (k + (4 + (e - k) % 16)).toNat ≤ k.toNat + 19 := by
  have hrest : ((e - k) % 16).toNat < 16 := by
    rw [UInt32.toNat_mod]
    exact Nat.mod_lt _ (by decide)
  rw [UInt32.toNat_add, UInt32.toNat_add]
  show (k.toNat + (4 + ((e - k) % 16).toNat) % 2 ^ 32) % 2 ^ 32 ≤ _
  omega

/-- What `main` has pushed is on the stack. -/
theorem pushed_below (hx : InArea (e - k) (k.toNat + 4) x) (hk : k.toNat ≤ 16) :
    Below (e + 4) 20 x := by
  have hplace : e - k = e + 4 - (k + 4) := by grind
  have hsize : (k + 4).toNat = k.toNat + 4 := by
    rw [UInt32.toNat_add]
    show (k.toNat + 4) % 2 ^ 32 = _
    omega
  rw [hplace, ← hsize] at hx
  exact (below_of_inArea hx le_rfl).mono (by omega)

theorem slots_below (hx : InArea (mainEsp (e - k)) 16 x) (hk : k.toNat ≤ 16) :
    Below (e + 4) 51 x := by
  have hdistance := toNat_distance e hk
  rw [← UInt32.add_zero (mainEsp _)] at hx
  have hbelow : Below (mainEsp (e - k) + 16) 16 x := below_of_between (k := 16) hx (by decide)
  rw [mainEsp_sub] at hbelow
  exact hbelow.of_sub.mono (by omega)

theorem frames_below (hx : Below (mainEsp (e - k)) j x) (hk : k.toNat ≤ 16) :
    Below (e + 4) (j + 51) x := by
  have hdistance := toNat_distance e hk
  have hbelow : Below (mainEsp (e - k) + 16) (j + 16) x := by
    apply Below.of_sub (k := 16)
    rw [UInt32.add_sub_cancel]
    exact hx
  rw [mainEsp_sub] at hbelow
  exact hbelow.of_sub.mono (by omega)

/-- The data of the library is not on the stack. -/
theorem Libc.not_own (hlibc : Libc I depth own stack) (hx : stack x) : ¬ own x :=
  fun hown => hlibc.apart x hown hx

/-- What is apart from the stack. -/
theorem Called.clear (h : Called I depth stack n vs more s₀) (hk : k.toNat ≤ 16)
    (hx : ¬ stack x) : Clear s₀ k depth (mainEsp (s₀.reg .esp - k)) x where
  saved hin := hx (h.stack x ((pushed_below hin hk).mono (by omega)))
  above hin := hx (h.stack x ((slots_below hin hk).mono (by omega)))
  below hin := hx (h.stack x ((frames_below hin hk).mono (by omega)))

/-- The registers of `reverse1` are restored from what it has pushed. -/
theorem finished1 {u : State World} {lines : List ℤ} (hu : u.returned = true)
    (houtput : u.world.output = lines) (hesp : u.reg .esp = s₀.reg .esp - 16 + 20)
    (hpopped : words u.mem (s₀.reg .esp - 16) 5 = [u.reg .esi, u.reg .edi, u.reg .ebx,
      u.reg .ebp, load32 u.mem (s₀.reg .esp - 16 + 16)])
    (hkept : words u.mem (s₀.reg .esp - 16) 5 = saved1 s₀) : Finished s₀ lines u := by
  have heq := hpopped.symm.trans hkept
  have hend : s₀.reg .esp - 16 + 20 = s₀.reg .esp + 4 := by grind
  simp only [saved1, UInt32.sub_add_cancel, List.cons.injEq, and_true] at heq
  obtain ⟨hesi, hedi, hebx, hebp, haddress⟩ := heq
  exact ⟨hu, houtput, by simp [hesi, hedi, hebx, hebp], hesp.trans hend, haddress⟩

/-- `reverse1` up to the end of its loops. -/
theorem loops1_spec (hlibc : Libc I depth own stack) (h : Called I depth stack n vs more s₀) :
    ∃ v t, Steps (I.machine reverse1) s₀ v ∧ v.pc = 29 ∧ v.argument 0 = n * 4 ∧
      Steps (I.machine reverse1) s₀ t ∧ InLoops t 0 t ∧ t.pc = 48 ∧
      t.reg .esp = mainEsp (s₀.reg .esp - 16) ∧ t.reg .ebp = s₀.reg .esp - 16 ∧
      elements t.log = stores .edi (answer I v) n.toNat ++ loads .edi (answer I v) n.toNat ∧
      t.world.output = vs.reverse.map signed ∧
      words t.mem (s₀.reg .esp - 16) 5 = saved1 s₀ ∧
      ∀ x, InArea (answer I v) (4 * n.toNat) x → ¬ stack x := by
  have hlib := hlibc.stdio reverse1
  have hsmall := h.small
  have hdepth := hlib.depth
  have hframes : ∀ x, Below (mainEsp (s₀.reg .esp - 16)) (16 + depth) x → stack x :=
    fun x hx => h.stack x ((frames_below hx (by decide)).mono (by omega))
  have hpushed : ∀ x, InArea (s₀.reg .esp - 16) 20 x → stack x :=
    fun x hx => h.stack x ((pushed_below hx (by decide)).mono (by omega))
  have hown : ∀ x, Below (mainEsp (s₀.reg .esp - 16)) 16 x → ¬ own x :=
    fun x hx => hlibc.not_own (hframes x (hx.mono (by omega)))
  obtain ⟨v, c, hbegin, hpcv, hargument, hworldv, hallocate, hc, hpcc, hesp, hebx, hebp, hedi,
    hworldc, hlogc, hsaved⟩ := begin1_spec hlib (hlibc.malloc reverse1) hown h.entry
  have hsize : (n * 4).toNat = 4 * n.toNat := by
    rw [toNat_times_four]
    omega
  have hblock : ∀ x, InArea (answer I v) (4 * n.toNat) x → ¬ stack x ∧ ¬ own x := by
    intro x hx
    rw [← hsize, ← hargument] at hx
    exact hlibc.block { v with pc := v.pc + 1 } x (h.malloc v hbegin hpcv hargument) hx
  have hplaced : Placed depth own (c.reg .esp) (c.reg .edi) (c.reg .ebx).toNat := by
    rw [hesp, hedi, hebx]
    exact ⟨by omega, fun x hx hbelow => (hblock x hx).1 (hframes x hbelow),
      fun x hx => (hblock x hx).2⟩
  obtain ⟨t, hloops, ht, hpct, hlogt, hvalues⟩ :=
    loops_spec (code1 I) hlib (hesp ▸ hown) hc hpcc
  obtain ⟨hmemt, hworldt⟩ := hvalues vs more (by rw [hebx, h.count])
    (by rw [hworldc, hlibc.mallocWorld, hworldv]) hplaced
  refine ⟨v, t, hbegin, hpcv, hargument, (hbegin.trans hallocate).trans hloops,
    ⟨ht.returned, ht.depth, fun _ _ => rfl, ht.esi⟩, hpct, (ht.saved .esp (by decide)).trans hesp,
    (ht.saved .ebp (by decide)).trans hebp, ?_, ?_, ?_, fun x hx => (hblock x hx).1⟩
  · rw [hlogt, hlogc, hebx, hedi]
    rfl
  · rw [hworldt, hworldc, hlibc.mallocWorld, hworldv]
    show s₀.world.output ++ _ = _
    rw [h.entry.output]
    rfl
  · rw [← hsaved fun x hx => hlibc.not_own (hpushed x hx)]
    apply words_congr (by decide)
    intro x hx
    apply hmemt x
    · rw [hesp]
      exact (saved_above hx le_rfl (by omega)).1
    · rw [hedi, hebx]
      rintro (hin | hin)
      · exact hlibc.apart x hin (hpushed x hx)
      · exact (hblock x hin).1 (hpushed x hx)

/-- **`reverse1`** on a heap block. The program returns with the registers restored and the values
printed backwards, and all accesses to the array are inside the block and apart from what the stack
holds. -/
theorem reverse1_spec (hlibc : Libc I depth own stack) (h : Called I depth stack n vs more s₀) :
    ∃ v u, Steps (I.machine reverse1) s₀ v ∧ v.pc = 29 ∧ Steps (I.machine reverse1) s₀ u ∧
      Finished s₀ (vs.reverse.map signed) u ∧ Bounded (I.machine reverse1) s₀ fun x =>
        InArea (answer I v) (v.argument 0).toNat x ∧
          Clear s₀ 16 depth (mainEsp (s₀.reg .esp - 16)) x := by
  have hsmall := h.small
  have hdepth := (hlibc.stdio reverse1).depth
  have hfree := hlibc.free reverse1
  obtain ⟨v, t, hcall, hpcv, hargument, hloops, ht, hpct, hesp, hebp, hlogt, houtput, hsaved,
    hblock⟩ := loops1_spec hlibc h
  obtain ⟨w, u, hregw, hmemw, hworldw, hend, hu, hlogu, hmemu, hworldu, hespu, hpopped⟩ :=
    end1_spec I hpct ht.returned ht.depth
  have hebpw : (I.out .free w).reg .ebp = s₀.reg .esp - 16 :=
    (hfree.saved w .ebp (by decide)).trans ((congrFun hregw .ebp).trans hebp)
  have hespw : w.reg .esp = mainEsp (s₀.reg .esp - 16) := (congrFun hregw .esp).trans hesp
  rw [hebpw] at hespu hpopped
  have hkept : words u.mem (s₀.reg .esp - 16) 5 = saved1 s₀ := by
    -- `free` may write to everything but the stack, and the pointer goes to a slot of `main`.
    rw [← hsaved]
    apply words_congr (by decide)
    intro x hx
    have hstack : stack x := h.stack x ((pushed_below hx (by decide)).mono (by omega))
    obtain ⟨hbelow, hslots⟩ := saved_above hx le_rfl (show depth + 64 ≤ 2 ^ 32 by omega)
    have hargument : ¬ InArea (mainEsp (s₀.reg .esp - 16)) 4 x :=
      fun hin => hslots (Nat.lt_of_lt_of_le hin (by decide))
    have hframe : (I.out .free w).mem x = w.mem x :=
      hfree.frame w x (hespw ▸ hbelow) (hespw ▸ hargument) (hlibc.not_own hstack) (· hstack)
    rw [hmemu, hframe, hmemw, store32, storeBytes_outside]
    rw [hesp, UInt32.add_zero]
    exact hargument
  have hlines : u.world.output = vs.reverse.map signed := by
    rw [hworldu, hlibc.freeWorld, hworldw, houtput]
  refine ⟨v, u, hcall, hpcv, hloops.trans hend, finished1 hu hlines hespu hpopped hkept, ?_⟩
  rw [bounded_of_end (hloops.trans hend) hu (hlogu.trans hlogt)]
  intro i hi x hx
  have hin := inArea_word hx hi (by omega)
  refine ⟨?_, h.clear (by decide) (hblock x hin)⟩
  rw [hargument, toNat_times_four]
  exact Nat.lt_of_lt_of_le hin (by omega)

/-- The registers of `reverse2` are restored from what it has pushed. -/
theorem finished2 {u : State World} {lines : List ℤ} (hu : u.returned = true)
    (houtput : u.world.output = lines) (hesp : u.reg .esp = s₀.reg .esp - 12 + 16)
    (hedi : u.reg .edi = s₀.reg .edi)
    (hpopped : words u.mem (s₀.reg .esp - 12) 4 = [u.reg .esi, u.reg .ebx, u.reg .ebp,
      load32 u.mem (s₀.reg .esp - 12 + 12)])
    (hkept : words u.mem (s₀.reg .esp - 12) 4 = saved2 s₀) : Finished s₀ lines u := by
  have heq := hpopped.symm.trans hkept
  have hend : s₀.reg .esp - 12 + 16 = s₀.reg .esp + 4 := by grind
  simp only [saved2, UInt32.sub_add_cancel, List.cons.injEq, and_true] at heq
  obtain ⟨hesi, hebx, hebp, haddress⟩ := heq
  exact ⟨hu, houtput, by simp [hesi, hedi, hebx, hebp], hesp.trans hend, haddress⟩

/-- The array of `reverse2` lies between its argument slots and the frames below. -/
theorem Called.array (h : Called I depth stack n vs more s₀) (hdepth : depth ≤ 2 ^ 31)
    (hx : InArea (mainEsp (s₀.reg .esp - 12) - size2 n) (size2 n).toNat x) :
    stack x ∧ Clear s₀ 12 depth (mainEsp (s₀.reg .esp - 12) - size2 n) x := by
  have hsmall := h.small
  have hsize := toNat_size2 n
  have hbelow : Below (mainEsp (s₀.reg .esp - 12)) (size2 n).toNat x :=
    below_of_inArea hx le_rfl
  have hstack : stack x := h.stack x ((frames_below hbelow (by decide)).mono (by omega))
  refine ⟨hstack, ⟨fun hin => ?_, fun hin => ?_, not_below_self hx (by omega)⟩⟩
  · exact (saved_above (j := 16) hin (by decide) (by omega)).1 hbelow
  · exact not_below_self hin (by omega) hbelow

/-- **`reverse2`** on a part of its stack. The same of the other program; here it is the area below
its frame that has to be large enough and apart. -/
theorem reverse2_spec (hlibc : Libc I depth own stack) (h : Called I depth stack n vs more s₀) :
    ∃ u, Steps (I.machine reverse2) s₀ u ∧ Finished s₀ (vs.reverse.map signed) u ∧
      Bounded (I.machine reverse2) s₀ fun x =>
        InArea (mainEsp (s₀.reg .esp - 12) - size2 n) (size2 n).toNat x ∧
          Clear s₀ 12 depth (mainEsp (s₀.reg .esp - 12) - size2 n) x := by
  have hlib := hlibc.stdio reverse2
  have hsmall := h.small
  have hdepth := hlib.depth
  have hsize := toNat_size2 n
  set b := mainEsp (s₀.reg .esp - 12) - size2 n with hb
  have hfits : ∀ x, InArea b (4 * n.toNat) x → InArea b (size2 n).toNat x :=
    fun x hx => Nat.lt_of_lt_of_le hx (by omega)
  have hframes : ∀ x, Below b (16 + depth) x →
      Below (mainEsp (s₀.reg .esp - 12)) (16 + depth + (size2 n).toNat) x :=
    fun x hx => Below.of_sub hx
  have hown : ∀ x, Below (mainEsp (s₀.reg .esp - 12)) (16 + depth + (size2 n).toNat) x →
      ¬ own x :=
    fun x hx => hlibc.not_own (h.stack x ((frames_below hx (by decide)).mono (by omega)))
  have hpushed : ∀ x, InArea (s₀.reg .esp - 12) 16 x → ¬ own x :=
    fun x hx => hlibc.not_own (h.stack x ((pushed_below hx (by decide)).mono (by omega)))
  obtain ⟨c, hbegin, hc, hpcc, hesp, hebx, hebp, hedi, hworldc, hlogc, hsaved⟩ :=
    begin2_spec hlib (fun x hx => hown x (hx.mono (by omega))) h.entry
  have hplaced : Placed depth own (c.reg .esp) (c.reg .esp) (c.reg .ebx).toNat := by
    rw [hesp, hebx]
    exact ⟨by omega, fun x hx => not_below_self hx (by omega),
      fun x hx => hlibc.not_own (h.array hdepth (hfits x hx)).1⟩
  have hownLoops : ∀ x, Below (c.reg .esp) 16 x → ¬ own x := by
    rw [hesp]
    exact fun x hx => hown x (hframes x (hx.mono (by omega)))
  obtain ⟨t, hloops, ht, hpct, hlogt, hvalues⟩ := loops_spec (code2 I) hlib hownLoops hc hpcc
  obtain ⟨hmemt, hworldt⟩ := hvalues vs more (by rw [hebx, h.count]) (by rw [hworldc]) hplaced
  obtain ⟨u, hend, hu, hlogu, hmemu, hworldu, hediu, hespu, hpopped⟩ :=
    end2_spec I hpct ht.returned ht.depth
  have hebpt : t.reg .ebp = s₀.reg .esp - 12 := (ht.saved .ebp (by decide)).trans hebp
  rw [hebpt] at hespu hpopped
  rw [← hmemu] at hpopped
  have hkept : words u.mem (s₀.reg .esp - 12) 4 = saved2 s₀ := by
    -- The loops write to the array and to the frames below it, both deeper than the slots.
    rw [hmemu, ← hsaved hpushed]
    apply words_congr (by decide)
    intro x hx
    obtain ⟨hbelow, -⟩ :=
      saved_above (k := 16 + depth + (size2 n).toNat) hx (by decide) (by omega)
    apply hmemt x
    · rw [hesp]
      exact fun hin => hbelow (hframes x hin)
    · rw [hesp, hebx]
      rintro (hin | hin)
      · exact hpushed x hx hin
      · exact hbelow ((below_of_inArea (hfits x hin) le_rfl).mono (by omega))
  have hlines : u.world.output = vs.reverse.map signed := by
    rw [hworldu, hworldt, hworldc]
    show s₀.world.output ++ _ = _
    rw [h.entry.output]
    rfl
  have hediEnd : u.reg .edi = s₀.reg .edi :=
    (hediu.trans (ht.saved .edi (by decide))).trans hedi
  have hlog : elements u.log = stores .esp b n.toNat ++ loads .esp b n.toNat := by
    rw [hlogu, hlogt, hlogc, hebx, hesp]
    rfl
  refine ⟨u, (hbegin.trans hloops).trans hend, finished2 hu hlines hespu hediEnd hpopped hkept,
    ?_⟩
  rw [bounded_of_end ((hbegin.trans hloops).trans hend) hu hlog]
  intro i hi x hx
  have hin := hfits x (inArea_word hx hi (by omega))
  exact ⟨hin, (h.array hdepth hin).2⟩

/-- **The two versions agree.** For a count below `2 ^ 28`, both print the numbers in reverse
order and return with the registers of their caller, and every element that they access lies in
the array, apart from what they have pushed and from the arguments of their calls. -/
theorem reverse_agree (hlibc : Libc I depth own stack) (h : Called I depth stack n vs more s₀) :
    (∃ v u, Steps (I.machine reverse1) s₀ v ∧ v.pc = 29 ∧ Steps (I.machine reverse1) s₀ u ∧
      Finished s₀ (vs.reverse.map signed) u ∧ Bounded (I.machine reverse1) s₀ fun x =>
        InArea (answer I v) (v.argument 0).toNat x ∧
          Clear s₀ 16 depth (mainEsp (s₀.reg .esp - 16)) x) ∧
    ∃ u, Steps (I.machine reverse2) s₀ u ∧ Finished s₀ (vs.reverse.map signed) u ∧
      Bounded (I.machine reverse2) s₀ fun x =>
        InArea (mainEsp (s₀.reg .esp - 12) - size2 n) (size2 n).toNat x ∧
          Clear s₀ 12 depth (mainEsp (s₀.reg .esp - 12) - size2 n) x :=
  ⟨reverse1_spec hlibc h, reverse2_spec hlibc h⟩

end Agreement

/-! ## A C library

An instance of the contracts, with which both programs run. -/

/-- The programs, linked with functions that do what their contracts say; `malloc` has one block
for every size below `2 ^ 30`. -/
def reference : Image where
  text := 0x8048000
  SC := 0x8049000
  PR := 0x8049010
  out
    | .scanf => scan [4] store32 fun v => [v]
    | .printf => print fun s => signed (s.argument 4)
    | .malloc => fun s => s.set .eax (if (s.argument 0).toNat < 2 ^ 30 then 0x10000000 else 0)
    | .free => id
  ops := ⟨fun _ _ => .equal, fun x _ => x, fun x _ => x⟩

/-- The upper half of the address space. -/
def onStack (x : UInt32) : Prop :=
  2 ^ 31 ≤ x.toNat

theorem reference_libc : Libc reference 0 (fun _ => False) onStack where
  stdio _ :=
    { scanf := by
        apply scans_scan [4] stored32 rfl
        · intro v
          rfl
        · decide
      printf := prints_print rfl _ _ _ _
      depth := by decide }
  malloc _ := ⟨fun _ _ hr => setReg_of_mem hr (by decide) _ _, fun _ _ _ _ _ _ => rfl⟩
  apart _ h := h.elim
  block s x hanswer hx := by
    have heax : (reference.out .malloc s).reg .eax =
        if (s.argument 0).toNat < 2 ^ 30 then 0x10000000 else 0 := rfl
    rw [heax] at hanswer hx
    split at hanswer
    · rename_i hsmall
      rw [if_pos hsmall] at hx
      refine ⟨fun hstack => ?_, id⟩
      unfold InArea at hx
      unfold onStack at hstack
      rw [UInt32.toNat_sub] at hx
      have hplace : (0x10000000 : UInt32).toNat = 2 ^ 28 := rfl
      have hlt := x.toNat_lt
      omega
    · exact absurd rfl hanswer
  mallocWorld _ := rfl
  free _ := ⟨fun _ _ _ => rfl, fun _ _ _ _ _ _ => rfl⟩
  freeWorld _ := rfl

def started (input : List UInt32) : State World where
  pc := 16
  reg _ := 0xBFFFF000
  xmm _ := 0
  flags := .logic 0
  mem _ := 0
  log := []
  depth := 0
  returned := false
  world := ⟨input, []⟩

theorem started_entry (n : UInt32) (rest : List UInt32) : Entry n rest (started (n :: rest)) :=
  ⟨rfl, rfl, rfl, rfl, rfl, rfl⟩

theorem started_called :
    Called reference 0 onStack 2 [7, -1] [] (started [2, 7, -1]) where
  entry := started_entry 2 [7, -1]
  count := rfl
  small := by decide
  malloc v _ _ hargument := by
    have hanswer : answer reference v =
        if (v.argument 0).toNat < 2 ^ 30 then 0x10000000 else 0 := rfl
    rw [hanswer, hargument]
    decide
  stack x hx := by
    have hesp : (started [2, 7, -1]).reg .esp + 4 - 1 = 0xBFFFF003 := rfl
    unfold Below at hx
    rw [hesp, UInt32.toNat_sub] at hx
    have hplace : (0xBFFFF003 : UInt32).toNat = 3221221379 := rfl
    have hcount : (2 : UInt32).toNat = 2 := rfl
    have hlt := x.toNat_lt
    unfold onStack
    omega

theorem reverse_agree_two :
    (∃ u, Steps (reference.machine reverse1) (started [2, 7, -1]) u ∧ u.returned = true ∧
      u.world.output = [-1, 7]) ∧
    ∃ u, Steps (reference.machine reverse2) (started [2, 7, -1]) u ∧ u.returned = true ∧
      u.world.output = [-1, 7] := by
  obtain ⟨⟨-, u, -, -, hu, hfinished, -⟩, v, hv, hfinishedv, -⟩ :=
    reverse_agree reference_libc started_called
  exact ⟨⟨u, hu, hfinished.returned, hfinished.output⟩,
    ⟨v, hv, hfinishedv.returned, hfinishedv.output⟩⟩

/-- One number, with a stack of a megabyte. -/
theorem reverse_bounds_one :
    (∃ v, Steps (reference.machine reverse1) (started [1]) v ∧
      Bounded (reference.machine reverse1) (started [1])
        (fun x => answer reference v ≠ 0 ∧ InArea (answer reference v) 4 x)) ∧
    Bounded (reference.machine reverse2) (started [1])
      (Reserved 0xBFEFF000 (mainEsp 0xBFFFEFF4) 16) := by
  obtain ⟨⟨v, hv, -, hargument, hbounded⟩, hbounded2⟩ :=
    reverse_bounds reference_libc.toContract (started_entry 1 []) (fun _ _ => id) (fun _ _ => id)
      (fun _ _ => id)
  have hanswer : answer reference v = 0x10000000 := by
    show (if (v.argument 0).toNat < 2 ^ 30 then 0x10000000 else 0) = (0x10000000 : UInt32)
    rw [hargument]
    decide
  refine ⟨⟨v, hv, hbounded.mpr (.inr ⟨?_, by decide⟩)⟩, (hbounded2 _).mpr (by decide)⟩
  rw [hanswer]
  decide

/-- A count of `2 ^ 30`: `reverse1` asks for a block of no bytes and gets it, `reverse2` takes 16
bytes of its stack, and both go on to store behind. With `2 ^ 30 - 5` the stack pointer of
`reverse2` wraps round and ends up above where it was. -/
theorem reverse_escapes :
    (∃ v, Steps (reference.machine reverse1) (started [0x40000000]) v ∧ v.pc = 29 ∧
      v.argument 0 = 0 ∧ answer reference v ≠ 0 ∧
      ¬ Bounded (reference.machine reverse1) (started [0x40000000])
        (InArea (answer reference v) (v.argument 0).toNat)) ∧
    ¬ Bounded (reference.machine reverse2) (started [0x40000000])
      (Reserved 0 (mainEsp 0xBFFFEFF4) (size2 0x40000000)) ∧
    ¬ Bounded (reference.machine reverse2) (started [0x3FFFFFFB])
      (Reserved 0 (mainEsp 0xBFFFEFF4) (size2 0x3FFFFFFB)) := by
  have hentry := started_entry 0x40000000 []
  refine ⟨?_, fun hbounded => ?_, fun hbounded => ?_⟩
  · obtain ⟨v, u, hcall, hpc, hargument, hend, hu, hlog⟩ :=
      run1_spec reference_libc.toContract (fun _ _ => id) hentry
    have hzero : v.argument 0 = 0 := hargument
    have hanswer : answer reference v = 0x10000000 := by
      show (if (v.argument 0).toNat < 2 ^ 30 then 0x10000000 else 0) = (0x10000000 : UInt32)
      rw [hzero]
      decide
    refine ⟨v, hcall, hpc, hzero, by rw [hanswer]; decide, fun hbounded => ?_⟩
    rw [bounded_of_end hend hu hlog, hzero] at hbounded
    exact Nat.not_lt_zero _ (hbounded 0 (by decide) _ (inArea_self _))
  · obtain ⟨u, hend, hu, hlog⟩ :=
      run2_spec reference_libc.toContract (fun _ _ => id) (fun _ _ => id) hentry
    have hfits := (area_fits _ _ _).mp ((bounded_of_end hend hu hlog).mp hbounded)
    revert hfits
    decide
  · obtain ⟨u, hend, hu, hlog⟩ := run2_spec reference_libc.toContract (fun _ _ => id)
      (fun _ _ => id) (started_entry 0x3FFFFFFB [])
    have hfits := (area_fits _ _ _).mp ((bounded_of_end hend hu hlog).mp hbounded)
    revert hfits
    decide

end HseDev.Sem8.Reverse
