import HseDev.Lib.Assembly

/-!
# Formatted input and output

Functions outside a text that read from an input and write to an output, as routines of
`HseDev.Lib.Assembly` call them: a format and the words behind it lie on the stack.

* **`Console`** — what is still to be read, and what has been written.
* **`Scans`** — reads one group of values through the pointers behind its format, or finds that
  none is left.
* **`Prints`** — writes one line.
* **`Back`** / **`Untouched`** — what a call leaves of its caller.
* **`loop_output`** — a loop that prints a line for each group of its input.
* **`scans_scan`** / **`prints_print`** — functions that do so.
-/

namespace Assembly

open X86

/-- The groups of values that are still to be read, and the lines that have been written. -/
structure Console (α β : Type) where
  input : List α
  output : List β
  deriving DecidableEq, Repr

variable {L E W V α β : Type}

/-- The argument at a displacement from the stack pointer. -/
def State.argument (s : State W) (d : UInt32) : UInt32 :=
  load32 s.mem (s.reg .esp + d)

def pointers (slots : List UInt32) (s : State W) : List UInt32 :=
  slots.map s.argument

/-- A function may be called to store `size` bytes through each of its pointers: they lie apart
from each other, from the stack and from the function's own data. -/
structure Separate (slots : List UInt32) (size depth : ℕ) (own : UInt32 → Prop) (s : State W) :
    Prop where
  pairwise : (pointers slots s).Pairwise fun p q => ∀ x, InArea p size x → ¬ InArea q size x
  apart : ∀ p ∈ pointers slots s, ∀ x, InArea p size x → ¬ Below (s.reg .esp) depth x ∧
    ¬ InArea (s.reg .esp) (4 + 4 * slots.length) x ∧ ¬ own x

/-- **Formatted input.** `values` are those of a group, which are stored through the pointers in
`slots`. -/
structure Scans (M : Machine L E (Console α β)) (f : E) (format : UInt32) (slots : List UInt32)
    (size : ℕ) (load : Memory → UInt32 → V) (values : α → List V) (depth : ℕ)
    (own : UInt32 → Prop) : Prop where
  cdecl : Cdecl M f (4 + 4 * slots.length) depth own
    fun s x => ∃ p ∈ pointers slots s, InArea p size x
  next : ∀ s group rest, s.argument 0 = format → Separate slots size depth own s →
    s.world.input = group :: rest →
    (M.out f s).reg .eax = UInt32.ofNat slots.length ∧
    (pointers slots s).map (load (M.out f s).mem) = values group ∧
    (M.out f s).world = { s.world with input := rest }
  done : ∀ s, s.argument 0 = format → Separate slots size depth own s → s.world.input = [] →
    (M.out f s).reg .eax ≠ UInt32.ofNat slots.length ∧
    (M.out f s).world.output = s.world.output

/-- **Formatted output** of `args` bytes of arguments. -/
structure Prints (M : Machine L E (Console α β)) (f : E) (format : UInt32) (args : ℕ)
    (line : State (Console α β) → β) (depth : ℕ) (own : UInt32 → Prop) : Prop where
  cdecl : Cdecl M f args depth own fun _ _ => False
  line : ∀ s, s.argument 0 = format →
    (M.out f s).world = { s.world with output := s.world.output ++ [line s] }

/-! ## What a call leaves of its caller

The caller has memory of its own. A library function writes where its arguments point, and below the
stack pointer; the rest is as it was. -/

/-- The accesses to an array: those with an index. -/
def elements (log : List Assembly.Access) : List Assembly.Access :=
  log.filter fun access => access.operand.index.isSome

/-- The accesses to an array are counted part by part. -/
theorem elements_append (log new : List Assembly.Access) :
    elements (log ++ new) = elements log ++ elements new :=
  List.filter_append _ _

/-- What holds of all accesses of a run that ends holds of those of every state on the way. -/
theorem elements_of_end [DecidableEq L] [DecidableEq E] {M : Machine L E W} {s u : State W}
    (hend : Steps M s u) (hu : u.returned = true) (P : Assembly.Access → Prop) :
    (∀ t, Steps M s t → ∀ access ∈ elements t.log, P access) ↔
      ∀ access ∈ elements u.log, P access := by
  refine ⟨fun h => h u hend, fun h t ht access hmem => h access ?_⟩
  have hkept : t.log <+: u.log := log_of_steps (Steps.final hend hu ht)
  rw [elements, List.mem_filter] at *
  exact ⟨hkept.subset hmem.1, hmem.2⟩

/-- A call may have written to the `n` bytes below `p` and to the data of functions outside. -/
def Untouched (p : UInt32) (n : ℕ) (own : UInt32 → Prop) (m m' : Memory) : Prop :=
  ∀ x, ¬ Below p n x → ¬ own x → m' x = m x

section Untouched

variable {p q x k : UInt32} {n j : ℕ} {own : UInt32 → Prop} {m m' m'' : Memory}

theorem Untouched.refl (p : UInt32) (n : ℕ) (own : UInt32 → Prop) (m : Memory) :
    Untouched p n own m m :=
  fun _ _ _ => rfl

/-- What neither of two parts has written is not written by both. -/
theorem Untouched.trans (h : Untouched p n own m m') (h' : Untouched p n own m' m'') :
    Untouched p n own m m'' :=
  fun x hx hown => (h' x hx hown).trans (h x hx hown)

/-- A deeper stack may be written by more. -/
theorem Untouched.mono (h : Untouched p n own m m') (hn : n ≤ j) : Untouched p j own m m' :=
  fun x hx => h x fun hbelow => hx (hbelow.mono hn)

theorem Untouched.store (h : Untouched p n own m m') (v : UInt32)
    (hq : ∀ x, InArea q 4 x → Below p n x) : Untouched p n own m (store32 m' q v) := by
  intro x hx hown
  rw [← h x hx hown]
  exact storeBytes_outside fun hin => hx (hq x hin)

end Untouched

/-- A caller at `s` has control again. -/
structure Back (n : ℕ) (own : UInt32 → Prop) (s t : State W) : Prop where
  pc : t.pc = s.pc + 1
  returned : t.returned = false
  depth : t.depth = s.depth
  saved : ∀ r ∈ calleeSaved, t.reg r = s.reg r
  memory : Untouched (s.reg .esp) n own s.mem t.mem
  log : elements t.log = elements s.log

section Calls

variable {M : Machine L E W} {f : E} {args depth : ℕ} {own : UInt32 → Prop}
  {targets : State W → UInt32 → Prop} {s : State W} {k : UInt32}

/-- A word above the arguments of a call, not in the function's own data, is left alone. -/
theorem Cdecl.load (h : Cdecl M f args depth own targets) (s : State W) (hargs : args ≤ k.toNat)
    (hfit : k.toNat + 4 + depth ≤ 2 ^ 32)
    (hapart : ∀ x, InArea (s.reg .esp + k) 4 x → ¬ own x ∧ ¬ targets s x) :
    load32 (M.out f s).mem (s.reg .esp + k) = load32 s.mem (s.reg .esp + k) := by
  apply load32_congr
  intro x hx
  have hbelow : ¬ Below (s.reg .esp) depth x := not_below_of_inArea hx hfit
  have harguments : ¬ InArea (s.reg .esp) args x := by
    intro hin
    rw [← UInt32.add_zero (s.reg .esp)] at hin
    exact InArea.not_of_lt hin (by show 0 + args ≤ _; omega) (by show _ ≤ 2 ^ 32 + 0; omega) hx
  obtain ⟨hown, htargets⟩ := hapart x hx
  exact h.frame s x hbelow harguments hown htargets

end Calls

/-! ## Loops over an input

A loop that asks for a group, answers it and goes on until the input ends is followed by an
induction on the groups that are left. -/

/-- **A loop over its input**, by what holds at its head (`Ready`, of the input that is left and
the output so far): if a round prints one line for the group that it reads, a run prints one for
every group. -/
theorem loop_output [DecidableEq L] [DecidableEq E] {M : Machine L E (Console α β)}
    (Ready : Console α β → State (Console α β) → Prop) (line : α → β)
    (hround : ∀ group rest output s, Ready ⟨group :: rest, output⟩ s →
      ∃ t, Steps M s t ∧ Ready ⟨rest, output ++ [line group]⟩ t)
    (hend : ∀ output s, Ready ⟨[], output⟩ s →
      ∃ t, Steps M s t ∧ t.returned = true ∧ t.world.output = output)
    (input : List α) (output : List β) (s : State (Console α β)) (h : Ready ⟨input, output⟩ s) :
    ∃ t, Steps M s t ∧ t.returned = true ∧ t.world.output = output ++ input.map line := by
  induction input generalizing output s with
  | nil =>
    obtain ⟨t, hsteps, hreturned, houtput⟩ := hend output s h
    exact ⟨t, hsteps, hreturned, houtput.trans (List.append_nil output).symm⟩
  | cons group rest ih =>
    obtain ⟨u, hsteps, hu⟩ := hround group rest output s h
    obtain ⟨t, hrest, hreturned, houtput⟩ := ih (output ++ [line group]) u hu
    refine ⟨t, hsteps.trans hrest, hreturned, ?_⟩
    rw [houtput, List.map_cons, List.append_assoc]
    rfl

/-! ## The contracts can be met

The contracts of `scanf` and `printf` are assumptions of the theorems. A reference library, which
stores what it is given and appends what it prints, meets them. -/

section Reference

/-- How values of `size` bytes lie in memory. -/
structure Stored (load : Memory → UInt32 → V) (store : Memory → UInt32 → V → Memory) (size : ℕ) :
    Prop where
  same : ∀ m p v, load (store m p v) p = v
  outside : ∀ m p v x, ¬ InArea p size x → store m p v x = m x
  congr : ∀ m m' p, (∀ x, InArea p size x → m' x = m x) → load m' p = load m p

/-- A word that has been stored is loaded back, and nothing around it changes. -/
theorem stored32 : Stored load32 store32 4 where
  same := load32_store32
  outside _ _ _ _ := storeBytes_outside
  congr _ _ _ := load32_congr

def store64 (m : Memory) (p : UInt32) (v : UInt64) : Memory :=
  store32 (store32 m p (lowHalf v)) (p + 4) (highHalf v)

theorem stored64 : Stored load64 store64 8 where
  same m p v := by
    have hlow : load32 (store64 m p v) p = lowHalf v := by
      unfold store64
      rw [load32_store32_apart, load32_store32]
      · rw [show p - (p + 4) = -4 by grind]
        decide
      · rw [show p + 4 - p = 4 by grind]
        decide
    have hhigh : load32 (store64 m p v) (p + 4) = highHalf v := load32_store32 _ _ _
    rw [load64, hlow, hhigh, join_halves]
  outside m p v x hx := by
    have hlow : ¬ InArea p 4 x := fun hin => hx (Nat.lt_of_lt_of_le hin (by decide))
    have hhigh : ¬ InArea (p + 4) 4 x := fun hin => hx (hin.of_part (by decide))
    exact (storeBytes_outside hhigh).trans (storeBytes_outside hlow)
  congr _ _ _ := load64_congr

def storeAll (store : Memory → UInt32 → V → Memory) : List (UInt32 × V) → Memory → Memory
  | [], m => m
  | (p, v) :: rest, m => storeAll store rest (store m p v)

variable {load : Memory → UInt32 → V} {store : Memory → UInt32 → V → Memory} {size : ℕ}
  {slots ps : List UInt32} {vs : List V} {x : UInt32}

/-- Storing all values of a group changes only their slots. -/
theorem storeAll_outside (h : Stored load store size) (l : List (UInt32 × V)) (m : Memory)
    (hx : ∀ e ∈ l, ¬ InArea e.1 size x) : storeAll store l m x = m x := by
  induction l generalizing m with
  | nil => rfl
  | cons e rest ih =>
    rw [List.forall_mem_cons] at hx
    exact (ih _ hx.2).trans (h.outside m e.1 e.2 x hx.1)

/-- Every value is found at its place. Induction on the places. -/
theorem load_storeAll (h : Stored load store size) (m : Memory) (hlen : ps.length = vs.length)
    (hps : ps.Pairwise fun p q => ∀ x, InArea p size x → ¬ InArea q size x) :
    ps.map (load (storeAll store (ps.zip vs) m)) = vs := by
  induction ps generalizing vs m with
  | nil => exact (List.length_eq_zero_iff.mp hlen.symm).symm
  | cons p ps ih =>
    cases vs with
    | nil => cases hlen
    | cons v vs =>
      obtain ⟨hp, hps⟩ := List.pairwise_cons.mp hps
      have hhead : load (storeAll store (ps.zip vs) (store m p v)) p = v := by
        rw [h.congr (store m p v) _ p, h.same]
        intro x hx
        -- The stores behind it do not reach the first place.
        apply storeAll_outside h
        intro e he
        exact hp e.1 (List.of_mem_zip he).1 x hx
      have htail := ih (store m p v) (Nat.succ_inj.mp hlen) hps
      exact congrArg₂ List.cons hhead htail

/-- Reads a group of values. -/
def scan (slots : List UInt32) (store : Memory → UInt32 → V → Memory) (values : α → List V)
    (s : State (Console α β)) : State (Console α β) :=
  match s.world.input with
  | [] => s.set .eax (-1)
  | group :: rest =>
    { s.set .eax (UInt32.ofNat slots.length) with
      mem := storeAll store ((pointers slots s).zip (values group)) s.mem
      world := { s.world with input := rest } }

/-- Prints a line. -/
def print (line : State (Console α β) → β) (s : State (Console α β)) : State (Console α β) :=
  { s with world := { s.world with output := s.world.output ++ [line s] } }

/-- The reference `scanf` meets its contract, if it is asked for as many values as a group has. -/
theorem scans_scan {M : Machine L E (Console α β)} {f : E} {values : α → List V}
    (slots : List UInt32) (h : Stored load store size) (hout : M.out f = scan slots store values)
    (hlen : ∀ group, (values group).length = slots.length)
    (hslots : -1 ≠ UInt32.ofNat slots.length) (format : UInt32) (depth : ℕ)
    (own : UInt32 → Prop) : Scans M f format slots size load values depth own where
  cdecl := by
    constructor
    · intro s r hr
      rw [hout, scan]
      split <;> exact setReg_of_mem hr (by decide) _ _
    · intro s x _ _ _ htargets
      rw [hout, scan]
      split
      · rfl
      · refine storeAll_outside h _ _ fun e he hin => htargets ⟨e.1, ?_, hin⟩
        exact (List.of_mem_zip he).1
  next s group rest _ hsep hinput := by
    have hpointers : (pointers slots s).length = (values group).length := by
      rw [pointers, List.length_map, hlen]
    rw [hout, scan, hinput]
    exact ⟨rfl, load_storeAll h s.mem hpointers hsep.pairwise, rfl⟩
  done s _ _ hinput := by
    rw [hout, scan, hinput]
    exact ⟨hslots, rfl⟩

/-- The reference `printf` meets its contract: it appends a line and writes nothing else. -/
theorem prints_print {M : Machine L E (Console α β)} {f : E} {line : State (Console α β) → β}
    (hout : M.out f = print line) (format : UInt32) (args depth : ℕ) (own : UInt32 → Prop) :
    Prints M f format args line depth own where
  cdecl := ⟨fun s r _ => by rw [hout]; rfl, fun s x _ _ _ _ => by rw [hout]; rfl⟩
  line s _ := by
    rw [hout]
    rfl

end Reference

end Assembly
