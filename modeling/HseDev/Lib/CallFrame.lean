import HseDev.Lib.Console

/-!
# A routine around one call

A routine that takes a frame of twelve bytes, stores a format and an argument there, calls a
function outside the text and gives the frame back.

* **`Framed`** / **`Prepared`** / **`Answered`** — the stages, each by what it leaves of the
  routine's caller.
* **`Prepared.answer`** — the call; **`Answered.leave`** — the return to the caller.
-/

namespace Assembly

open X86

variable {L E : Type}

/-! ## The frame

A call of a C function stores its arguments above the stack pointer and finds them there. Between
the store of the first and the call nothing else of the frame is written. -/

section Frame

/-- A format and an argument at `p`, and the address to return to behind twelve bytes. -/
structure Arguments (own : UInt32 → Prop) (p F a ra : UInt32) (m m' : Memory) : Prop where
  format : load32 m' p = F
  argument : load32 m' (p + 4) = a
  between : load32 m' (p + 8) = load32 m (p + 8)
  address : load32 m' (p + 12) = ra
  memory : Untouched (p + 16) 16 own m m'

/-- Two arguments and the return address, as the stores of the caller and the `call` leave them. -/
theorem arguments_stored (m : Memory) (p F a ra : UInt32) (own : UInt32 → Prop) :
    Arguments own p F a ra m
      (store32 (store32 (store32 m (p + 12) ra) (p + 4) a) (p + 0) F) where
  format := by
    rw [UInt32.add_zero]
    exact load32_store32 _ _ _
  argument := by
    rw [load32_store32_ne F (.inl (by decide)) (by decide) (by decide), load32_store32]
  between := by
    simp (disch := decide) only [load32_store32_ne]
  address := by
    rw [load32_store32_ne F (.inl (by decide)) (by decide) (by decide),
      load32_store32_ne a (.inl (by decide)) (by decide) (by decide), load32_store32]
  memory := by
    have hbase := Untouched.refl (p + 16) 16 own m
    have hra := hbase.store ra fun x hx => below_of_between (d := 12) hx (by decide)
    have ha := hra.store a fun x hx => below_of_between (d := 4) hx (by decide)
    exact ha.store F fun x hx => below_of_between (d := 0) hx (by decide)

/-- The frame behind the call of a function that has these arguments and may store to the word
behind them. -/
theorem Arguments.called {W : Type} {M : Machine L E W} {f : E} {m : Memory} {p F a ra : UInt32}
    {args depth : ℕ} {own : UInt32 → Prop} {targets : State W → UInt32 → Prop} {s : State W}
    (h : Arguments own p F a ra m s.mem) (hcdecl : Cdecl M f args depth own targets)
    (hargs : args ≤ 12) (hesp : s.reg .esp = p) (hdepth : depth ≤ 2 ^ 31)
    (htargets : ∀ x, targets s x → InArea (p + 8) 4 x)
    (hown : ∀ x, Below (p + 16) 16 x → ¬ own x) :
    load32 (M.out f s).mem (p + 12) = ra ∧
      Untouched (p + 16) (16 + depth) own m (M.out f s).mem := by
  have hload := hcdecl.load s (k := 12) hargs (by show 12 + 4 + depth ≤ _; omega)
    fun x hx => by
      rw [hesp] at hx
      refine ⟨hown x (below_of_between (d := 12) (k := 16) hx (by decide)), fun ht => ?_⟩
      exact InArea.not_of_lt (htargets x ht) (by decide) (by decide) hx
  rw [hesp, h.address] at hload
  refine ⟨hload, (h.memory.mono (Nat.le_add_right 16 depth)).trans fun x hx hx' => ?_⟩
  -- What the call may write to lies in the frame, in the stack below it or in its own data.
  have hin : ∀ {d : UInt32} {n : ℕ}, InArea (p + d) n x → ¬ d.toNat + n ≤ 16 :=
    fun hin hle => hx ((below_of_between (k := 16) hin hle).mono (by show 16 ≤ _; omega))
  apply hcdecl.frame s x
  · intro hbelow
    have hp : s.reg .esp = p + 16 - 16 := by
      rw [hesp, UInt32.add_sub_cancel]
    rw [hp] at hbelow
    exact hx (hbelow.of_sub.mono (by show depth + 16 ≤ _; omega))
  · intro harg
    rw [hesp, ← UInt32.add_zero p] at harg
    exact hin harg (by show 0 + args ≤ 16; omega)
  · exact hx'
  · intro ht
    exact hin (htargets x ht) (by decide)

end Frame

/-! ## The parts of a call

A call is prepared, answered and left again. Each part says what it keeps, and the caller puts them
together around the instruction that differs. -/

section Parts

variable {W : Type} {M : Machine L E W} {s u v : State W} {F a : UInt32} {own : UInt32 → Prop}
  {depth start : ℕ}

/-- A routine called at `s` has taken a frame of twelve bytes. -/
structure Framed (M : Machine L E W) (s v : State W) : Prop where
  returned : v.returned = false
  level : v.depth = s.depth + 1
  esp : v.reg .esp = s.reg .esp - 16
  saved : ∀ r ∈ [Reg.ebx, .esi, .edi, .ebp], v.reg r = s.reg r
  mem : v.mem = store32 s.mem (s.reg .esp - 4) (M.address (s.pc + 1))
  log : v.log = s.log
  world : v.world = s.world

/-- It has stored the arguments of a function there. -/
structure Prepared (M : Machine L E W) (own : UInt32 → Prop) (s : State W) (F a : UInt32)
    (u : State W) : Prop where
  returned : u.returned = false
  level : u.depth = s.depth + 1
  esp : u.reg .esp = s.reg .esp - 16
  saved : ∀ r ∈ [Reg.ebx, .esi, .edi, .ebp], u.reg r = s.reg r
  arguments : Arguments own (s.reg .esp - 16) F a (M.address (s.pc + 1)) s.mem u.mem
  log : elements u.log = elements s.log
  world : u.world = s.world

/-- The function has been called. -/
structure Answered (M : Machine L E W) (own : UInt32 → Prop) (depth : ℕ) (s v : State W) :
    Prop where
  returned : v.returned = false
  level : v.depth = s.depth + 1
  esp : v.reg .esp = s.reg .esp - 16
  saved : ∀ r ∈ [Reg.ebx, .esi, .edi, .ebp], v.reg r = s.reg r
  address : load32 v.mem (s.reg .esp - 16 + 12) = M.address (s.pc + 1)
  memory : Untouched (s.reg .esp) (16 + depth) own s.mem v.mem
  log : elements v.log = elements s.log

/-- A format and an argument are stored. -/
theorem Framed.prepared (h : Framed M s v) (own : UInt32 → Prop)
    (hmem : u.mem = store32 (store32 v.mem (v.reg .esp + 4) a) (v.reg .esp + 0) F)
    (hreturned : u.returned = v.returned) (hlevel : u.depth = v.depth) (hreg : u.reg = v.reg)
    (hlog : elements u.log = elements v.log) (hworld : u.world = v.world) :
    Prepared M own s F a u := by
  have hra : s.reg .esp - 4 = s.reg .esp - 16 + 12 := by grind
  have hargs := arguments_stored s.mem (s.reg .esp - 16) F a (M.address (s.pc + 1)) own
  rw [← hra, ← h.mem, ← h.esp, ← hmem, h.esp] at hargs
  exact ⟨hreturned.trans h.returned, hlevel.trans h.level, hreg ▸ h.esp, hreg ▸ h.saved, hargs,
    h.log ▸ hlog, hworld.trans h.world⟩

/-- The called function comes back, with nothing written but its targets and what is below the
frame. -/
theorem Prepared.answer {f : E} {args : ℕ} {targets : State W → UInt32 → Prop}
    (h : Prepared M own s F a u) (hcdecl : Cdecl M f args depth own targets) (hargs : args ≤ 12)
    (hdepth : depth ≤ 2 ^ 31)
    (htargets : ∀ x, targets { u with pc := u.pc + 1 } x → InArea (s.reg .esp - 16 + 8) 4 x)
    (hown : ∀ x, Below (s.reg .esp) 16 x → ¬ own x) :
    Answered M own depth s (run M [.callOut f] u) := by
  set w : State W := { u with pc := u.pc + 1 } with hw
  have hbase : s.reg .esp - 16 + 16 = s.reg .esp := UInt32.sub_add_cancel _ _
  have hown16 : ∀ x, Below (s.reg .esp - 16 + 16) 16 x → ¬ own x := by
    rw [hbase]
    exact hown
  obtain ⟨haddr, hmemory⟩ :=
    Arguments.called (s := w) h.arguments hcdecl hargs h.esp hdepth htargets hown16
  rw [hbase] at hmemory
  have hsaved : ∀ r ∈ [Reg.ebx, .esi, .edi, .ebp], (M.out f w).reg r = s.reg r := by
    intro r hr
    rw [hcdecl.saved w r (mem_calleeSaved.mpr (.inl hr))]
    exact h.saved r hr
  have hesp : (M.out f w).reg .esp = s.reg .esp - 16 := by
    rw [hcdecl.saved w .esp (by decide)]
    exact h.esp
  exact ⟨h.returned, h.level, hesp, hsaved, haddr, hmemory, h.log⟩

/-- The word behind the arguments may be stored to. -/
theorem Prepared.separate (h : Prepared M own s F a u)
    (hpointers : pointers [4] { u with pc := u.pc + 1 } = [s.reg .esp - 16 + 8])
    (hdepth : depth ≤ 2 ^ 31) (hown : ∀ x, Below (s.reg .esp) 16 x → ¬ own x) :
    Separate [4] 4 depth own { u with pc := u.pc + 1 } where
  pairwise := by
    rw [hpointers]
    exact List.pairwise_singleton _ _
  apart p hp x hx := by
    rw [hpointers, List.mem_singleton] at hp
    rw [hp] at hx
    show ¬ Below (u.reg .esp) depth x ∧ ¬ InArea (u.reg .esp) 8 x ∧ ¬ own x
    rw [h.esp]
    refine ⟨not_below_of_inArea hx (by show 8 + 4 + depth ≤ _; omega), fun hin => ?_,
      hown x ?_⟩
    · rw [← UInt32.add_zero (s.reg .esp - 16)] at hin
      exact InArea.not_of_lt hin (by decide) (by decide) hx
    · have hbetween := below_of_between (k := 16) hx (by decide)
      rwa [UInt32.sub_add_cancel] at hbetween

variable [DecidableEq L] [DecidableEq E]

/-- What the function has stored is loaded. -/
theorem Answered.load (h : Answered M own depth s v)
    (hcode : [.movl (.mem (based 8 .esp)) .eax] <+: M.prog.drop start) (hpcv : v.pc = start) :
    ∃ u, Steps M v u ∧ u.pc = start + 1 ∧ Answered M own depth s u ∧
      u.reg .eax = load32 v.mem (s.reg .esp - 16 + 8) ∧ u.world = v.world := by
  set u := run M [.movl (.mem (based 8 .esp)) .eax] v with hu
  have hblock : Steps M v u := Steps.block start hcode rfl hpcv h.returned
  have hpcu : u.pc = start + 1 := by
    rw [hu, run_pc, hpcv]
    rfl
  have heax : u.reg .eax = load32 v.mem (s.reg .esp - 16 + 8) := by
    show load32 v.mem ((based 8 .esp).eval v.reg) = _
    rw [eval_based, h.esp]
  have hsaved : ∀ r ∈ [Reg.ebx, .esi, .edi, .ebp], u.reg r = s.reg r := by
    intro r hr
    show setReg v.reg .eax _ r = s.reg r
    rw [setReg_of_mem hr (by decide)]
    exact h.saved r hr
  have hlog : elements u.log = elements s.log := by
    show elements (v.log ++ [_]) = _
    rw [elements_append, h.log]
    exact List.append_nil _
  exact ⟨u, hblock, hpcu, ⟨h.returned, h.level, h.esp, hsaved, h.address, h.memory, hlog⟩, heax,
    rfl⟩

/-- The end of the routine: the frame is given back. -/
theorem Answered.leave (h : Answered M own depth s v)
    (hcode : [.alu .add (.imm 12) .esp, .ret] <+: M.prog.drop start) (hpcv : v.pc = start)
    (hpc : s.pc + 1 < 2 ^ 32) :
    ∃ t, Steps M v t ∧ Back (16 + depth) own s t ∧ t.reg .eax = v.reg .eax ∧
      t.world = v.world := by
  set z := run M [.alu .add (.imm 12) .esp] v with hz
  have hblock : Steps M v z := Steps.block start (piece_drop hcode 0 ⟨_, rfl⟩) rfl hpcv h.returned
  have hpcz : z.pc = start + 1 := by
    rw [hz, run_pc, hpcv]
    rfl
  have hret : M.prog[z.pc]? = some .ret := by
    rw [hpcz]
    exact piece_get hcode 1 rfl
  have haddr : load32 v.mem (v.reg .esp + 12) = M.address (s.pc + 1) := by
    rw [h.esp]
    exact h.address
  have hback := Steps.ret hret h.returned h.level hpc haddr
  have hesp : v.reg .esp + 12 + 4 = s.reg .esp := by
    rw [h.esp]
    grind
  refine ⟨_, hblock.trans hback, ⟨rfl, h.returned, rfl, ?_, h.memory, h.log⟩, rfl, rfl⟩
  intro r hr
  rcases mem_calleeSaved.mp hr with hr | rfl
  · show setReg (setReg v.reg .esp _) .esp _ r = s.reg r
    rw [setReg_of_mem hr (by decide), setReg_of_mem hr (by decide)]
    exact h.saved r hr
  · exact hesp

/-- The address of the word behind the arguments is taken. -/
theorem Framed.pointer (h : Framed M s v)
    (hcode : [.lea (based 8 .esp) .eax] <+: M.prog.drop start) (hpcv : v.pc = start) :
    ∃ u, Steps M v u ∧ Framed M s u ∧ u.pc = start + 1 ∧
      u.reg .eax = s.reg .esp - 16 + 8 := by
  set u := run M [.lea (based 8 .esp) .eax] v with hu
  have hblock : Steps M v u := Steps.block start hcode rfl hpcv h.returned
  have hpcu : u.pc = start + 1 := by
    rw [hu, run_pc, hpcv]
    rfl
  have heax : u.reg .eax = s.reg .esp - 16 + 8 := by
    show (based 8 .esp).eval v.reg = _
    rw [eval_based, h.esp]
  have hsaved : ∀ r ∈ [Reg.ebx, .esi, .edi, .ebp], u.reg r = s.reg r := by
    intro r hr
    show setReg v.reg .eax _ r = s.reg r
    rw [setReg_of_mem hr (by decide)]
    exact h.saved r hr
  exact ⟨u, hblock, ⟨h.returned, h.level, h.esp, hsaved, h.mem, h.log, h.world⟩, hpcu, heax⟩

theorem Framed.prepare (h : Framed M s v) (own : UInt32 → Prop) {r : Reg}
    (hcode : [.movlTo (.reg r) (based 4 .esp), .movlTo (.imm F) (based 0 .esp)] <+:
      M.prog.drop start) (hpcv : v.pc = start) :
    ∃ u, Steps M v u ∧ u.pc = start + 2 ∧ Prepared M own s F (v.reg r) u := by
  set u := run M [.movlTo (.reg r) (based 4 .esp), .movlTo (.imm F) (based 0 .esp)] v with hu
  have hblock : Steps M v u := Steps.block start hcode rfl hpcv h.returned
  have hpcu : u.pc = start + 2 := by
    rw [hu, run_pc, hpcv]
    rfl
  have hmem : u.mem = store32 (store32 v.mem (v.reg .esp + 4) (v.reg r)) (v.reg .esp + 0) F := by
    rw [← eval_based, ← eval_based]
    rfl
  have hlog : elements u.log = elements v.log := by
    show elements (v.log ++ [_] ++ [_]) = _
    rw [elements_append, elements_append]
    exact (List.append_nil _).trans (List.append_nil _)
  exact ⟨u, hblock, hpcu, h.prepared own hmem rfl rfl rfl hlog rfl⟩

/-- A routine is called and takes its frame. -/
theorem Steps.framed {l : L} (hcode : [.label l, .alu .sub (.imm 12) .esp] <+: M.prog.drop start)
    (hplace : place M.prog l = start) (hcall : M.prog[s.pc]? = some (.call l))
    (hrun : s.returned = false) :
    ∃ v, Steps M s v ∧ Framed M s v ∧ v.pc = start + 2 ∧ v.reg .eax = s.reg .eax ∧
      v.xmm = s.xmm := by
  set v := run M [.label l, .alu .sub (.imm 12) .esp] (s.enter M l) with hv
  have hblock : Steps M (s.enter M l) v := Steps.block start hcode rfl hplace hrun
  have hpcv : v.pc = start + 2 := by
    rw [hv, run_pc, ← hplace]
    rfl
  have hesp : v.reg .esp = s.reg .esp - 16 := by
    show s.reg .esp - 4 - 12 = s.reg .esp - 16
    grind
  have hsaved : ∀ r ∈ [Reg.ebx, .esi, .edi, .ebp], v.reg r = s.reg r := by
    intro r hr
    show setReg (setReg s.reg .esp _) .esp _ r = s.reg r
    rw [setReg_of_mem hr (by decide), setReg_of_mem hr (by decide)]
  exact ⟨v, (Steps.enter hcall hrun).trans hblock, ⟨hrun, rfl, hesp, hsaved, rfl, rfl, rfl⟩, hpcv,
    rfl, rfl⟩

/-- A line is printed and the routine returns. -/
theorem Prepared.print {α β : Type} {M : Machine L E (Console α β)}
    {s u : State (Console α β)} {f : E} {args : ℕ} {line : State (Console α β) → β}
    (h : Prepared M own s F a u) (hlib : Prints M f F args line depth own) (hargs : args ≤ 12)
    (hdepth : depth ≤ 2 ^ 31) (hown : ∀ x, Below (s.reg .esp) 16 x → ¬ own x)
    (hcode : [.callOut f, .alu .add (.imm 12) .esp, .ret] <+: M.prog.drop start)
    (hpcu : u.pc = start) (hpc : s.pc + 1 < 2 ^ 32) :
    ∃ t, Steps M u t ∧ Back (16 + depth) own s t ∧ t.world =
      { s.world with output := s.world.output ++ [line { u with pc := u.pc + 1 }] } := by
  have hanswered := h.answer hlib.cdecl hargs hdepth (fun _ h => h.elim) hown
  set y := run M [.callOut f] u with hy
  have hout : Steps M u y :=
    Steps.block start (piece_drop hcode 0 ⟨_, rfl⟩) rfl hpcu h.returned
  have hpcy : y.pc = start + 1 := by
    rw [hy, run_pc, hpcu]
    rfl
  set w : State (Console α β) := { u with pc := u.pc + 1 } with hw
  have hformat : w.argument 0 = F := by
    show load32 u.mem (u.reg .esp + 0) = F
    rw [UInt32.add_zero, h.esp]
    exact h.arguments.format
  have hline := hlib.line w hformat
  have hworldw : w.world = s.world := h.world
  rw [hworldw] at hline
  obtain ⟨t, hleave, hback, -, hworldt⟩ :=
    hanswered.leave (piece_drop hcode 1 ⟨_, rfl⟩) hpcy hpc
  exact ⟨t, hout.trans hleave, hback, hworldt.trans hline⟩

end Parts

end Assembly
