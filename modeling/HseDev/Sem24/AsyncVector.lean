import HseDev.Lib.Tally
import HseDev.Lib.Transition

/-!
# HseDev — `async_vector` of `sem24/cpp_magic.cpp`

A call launches one detached thread for each element of its vector. Each thread applies the
function to its element, stores the result in its slot of the shared context, increments an
atomic counter, and calls the callback if it made the counter complete.

* **`Object`** — an element of the input: the words that a copy loads one by one.
* **`Template`** — what the argument types decide about the code: whether `ins[i]` is an object
  or a value, and how many results share a word of `output`.
* **`WorkerPc`** — the steps of one thread. `async_launch` packs its arguments into
  `std::tuple<Args...>`, and for an element that is an object the deduced type is `const Input&`:
  the tuple holds a reference into the caller's vector, and the words behind it are loaded when
  the thread calls `map_wrap`. The context and the index are temporaries and copied.
* **`State`** — the call, the caller's vector with the stores of the assignments the caller will
  still make to it, the threads and the context.
* **`step`** — one step of `async_vector`, of a thread or of the caller.
-/

namespace HseDev.Sem24

open Tally Transition

/-! ## Types

A template is instantiated for its types, and two of them make the code another one: a
`std::vector<bool>` packs its elements into words, so that `ins[i]` is a `bool` and no object, and
a result cannot be stored without the word around it. -/

/-- The words of an object that is copied word by word, as a trivially copyable one is; an object
of a scalar type is one word. -/
abbrev Object (k : Nat) (γ : Type*) := Fin k → γ

/-- An instance of `async_vector`. -/
structure Template where
  /-- `Input` is `bool`: `ins[i]` is a value, which `async_launch` moves into its tuple -/
  byValue : Bool
  /-- how many elements of `output` one word holds: 1, and 64 if `Result` is `bool` -/
  perWord : Nat
  deriving DecidableEq, Repr

/-- Both types are of the usual kind: objects that do not share a word. -/
def Template.objects : Template where
  byValue := false
  perWord := 1

variable {k : Nat} {γ β : Type*}

/-- A thread of `async_launch`. -/
inductive WorkerPc (k : Nat) (γ β : Type*) where
  /-- not launched yet -/
  | absent
  /-- launched with a reference; the words of `arg` that have been loaded -/
  | copy (read : Fin k → Option γ)
  /-- `map_wrap` with its own copy of the argument -/
  | store (arg : Object k γ)
  /-- the result, and `output` as it was when the word of the slot was loaded -/
  | write (result : β) (held : List β)
  /-- its result is in `output`; `cb_wrap` is next -/
  | count
  /-- its increment made the counter complete -/
  | callback
  | finished

/-- The loop of `async_vector`. -/
inductive MainPc where
  | launch (i : Nat)
  | returned
  deriving DecidableEq, Repr

/-- A word that an assignment stores: the index of the element, the word and its new value. -/
structure Store (k : Nat) (γ : Type*) where
  index : Nat
  word : Fin k
  value : γ

/-- The caller's vector, the call, its threads and `AsyncVectorContext`; `calls` are the
outputs the callback was invoked with. -/
structure State (k : Nat) (γ β : Type*) where
  ins : List (Object k γ)
  todo : List (Store k γ)
  main : MainPc
  worker : Nat → WorkerPc k γ β
  output : List β
  completeCount : Nat
  requiredCount : Nat
  calls : List (List β)

/-- Who takes a step; `load i w` is the thread of index `i` loading word `w` of its argument. -/
inductive Actor (k : Nat) where
  | main
  | load (i : Nat) (w : Fin k)
  | worker (i : Nat)
  | caller
  deriving DecidableEq, Repr

def State.setWorker (s : State k γ β) (i : Nat) (pc : WorkerPc k γ β) : State k γ β :=
  { s with worker := Function.update s.worker i pc }

/-! ## Steps

The steps are those of the source with the accesses to shared memory taken apart: a thread loads the
words of its argument one by one, computes, stores into its slot by a load and a store of the word
around it, and increments the counter in one atomic step. -/

/-- Where a thread begins: it loads its argument through the reference, unless it has been given
the value. -/
def Template.entry (T : Template) (x : Object k γ) : WorkerPc k γ β :=
  if T.byValue then .store x else .copy fun _ => none

/-- One step of `async_vector`. -/
def asyncVector (T : Template) (s : State k γ β) : Option (State k γ β) :=
  match s.main with
  | .launch i =>
    match s.ins[i]? with
    | some x => some { s.setWorker i (T.entry x) with main := .launch (i + 1) }
    | none => some { s with main := .returned }
  | .returned => none

/-- The thread of index `i` loads a word. The loads of a copy come in any order, each once. -/
def loadWord (s : State k γ β) (i : Nat) (w : Fin k) : Option (State k γ β) :=
  match s.worker i, s.ins[i]? with
  | .copy read, some x =>
    match read w with
    | none => some (s.setWorker i (.copy (Function.update read w (some (x w)))))
    | some _ => none
  | _, _ => none

/-- The copy, if all of its words have been loaded. -/
def collect (read : Fin k → Option γ) : Option (Object k γ) :=
  if h : ∀ w, (read w).isSome then some fun w => (read w).get (h w) else none

/-- `output` after the word of slot `i` is written: the slot gets the result, and the other slots
of the word what they held when the word was loaded. -/
def writeSlot (T : Template) (i : Nat) (result : β) (held output : List β) : List β :=
  output.mapIdx fun j old =>
    if j = i then result else if j / T.perWord = i / T.perWord then held.getD j old else old

/-- Any other step of the thread `async_launch` made for index `i`. -/
def asyncLaunch (T : Template) (f : Object k γ → β) (s : State k γ β) (i : Nat) :
    Option (State k γ β) :=
  match s.worker i with
  | .absent => none
  | .copy read =>
    match collect read with
    | some arg => some (s.setWorker i (.store arg))
    | none => none
  | .store arg => some (s.setWorker i (.write (f arg) s.output))
  | .write result held =>
    some ({ s with output := writeSlot T i result held s.output }.setWorker i .count)
  | .count =>
    some ({ s with completeCount := s.completeCount + 1 }.setWorker i
      (if s.completeCount + 1 = s.requiredCount then .callback else .finished))
  | .callback => some ({ s with calls := s.calls ++ [s.output] }.setWorker i .finished)
  | .finished => none

/-- A word of element `i` is stored. -/
def storeWord (ins : List (Object k γ)) (a : Store k γ) : List (Object k γ) :=
  ins.modify a.index fun x => Function.update x a.word a.value

/-- Once `async_vector` has returned the caller goes on to assign to its elements. -/
def callerStep (s : State k γ β) : Option (State k γ β) :=
  match s.main, s.todo with
  | .returned, a :: rest => some { s with ins := storeWord s.ins a, todo := rest }
  | _, _ => none

def step (T : Template) (f : Object k γ → β) (s : State k γ β) : Actor k → Option (State k γ β)
  | .main => asyncVector T s
  | .load i w => loadWord s i w
  | .worker i => asyncLaunch T f s i
  | .caller => callerStep s

/-- The stores of some assignments of elements, in order. -/
def stores (assigns : List (Nat × Object k γ)) : List (Store k γ) :=
  assigns.flatMap fun a => (List.finRange k).map fun w => ⟨a.1, w, a.2 w⟩

/-- The call with its fresh context, before its loop. -/
def start [Inhabited β] (ins : List (Object k γ)) (assigns : List (Nat × Object k γ)) :
    State k γ β where
  ins := ins
  todo := stores assigns
  main := .launch 0
  worker _ := .absent
  output := List.replicate ins.length default
  completeCount := 0
  requiredCount := ins.length
  calls := []

/-- All schedules of a call and of the assignments its caller makes afterwards. -/
def program [Inhabited β] (T : Template) (f : Object k γ → β) (ins : List (Object k γ))
    (assigns : List (Nat × Object k γ)) : System (State k γ β) (Actor k) :=
  .ofFun (· = start ins assigns) (step T f)

/-! ## Reading a state after an update

Small lemmas about the updates of a state, so that the invariants and the schedules need not unfold
them. -/

variable {s s' : State k γ β} {i j : Nat} {T : Template} {f : Object k γ → β}

@[simp] theorem setWorker_self (pc : WorkerPc k γ β) : (s.setWorker i pc).worker i = pc := by
  simp [State.setWorker]

theorem setWorker_ne (pc : WorkerPc k γ β) (h : j ≠ i) :
    (s.setWorker i pc).worker j = s.worker j := by
  simp [State.setWorker, h]

theorem setWorker_setWorker (pc pc' : WorkerPc k γ β) :
    (s.setWorker i pc).setWorker i pc' = s.setWorker i pc' := by
  simp [State.setWorker]

theorem mem_stores {assigns : List (Nat × Object k γ)} {a : Store k γ} :
    a ∈ stores assigns ↔ ∃ v, (a.index, v) ∈ assigns ∧ a.value = v a.word := by
  unfold stores
  rw [List.mem_flatMap]
  constructor
  · rintro ⟨⟨i, v⟩, hmem, ha⟩
    obtain ⟨w, -, rfl⟩ := List.mem_map.mp ha
    exact ⟨v, hmem, rfl⟩
  · intro ⟨v, hmem, hvalue⟩
    exact ⟨(a.index, v), hmem, List.mem_map.mpr ⟨a.word, List.mem_finRange _,
      congrArg (Store.mk a.index a.word) hvalue.symm⟩⟩

/-- A store changes one word of one element, if there is such an element. -/
theorem getElem?_storeWord (ins : List (Object k γ)) (a : Store k γ) (i : Nat) :
    (storeWord ins a)[i]? = ins[i]?.map fun x =>
      if a.index = i then Function.update x a.word a.value else x := by
  unfold storeWord
  rw [List.getElem?_modify]
  cases ins[i]? <;> split <;> rfl

theorem length_storeWord (ins : List (Object k γ)) (a : Store k γ) :
    (storeWord ins a).length = ins.length := by
  unfold storeWord
  exact List.length_modify ..

/-- An argument is complete when all its words have been loaded, each at its own time. -/
theorem collect_eq_some {read : Fin k → Option γ} {arg : Object k γ} :
    collect read = some arg ↔ ∀ w, read w = some (arg w) := by
  unfold collect
  constructor
  · intro h
    split at h
    · next hall =>
      cases h
      exact fun w => (Option.some_get (hall w)).symm
    · cases h
  · intro h
    have hall : ∀ w, (read w).isSome := fun w => Option.isSome_iff_exists.mpr ⟨_, h w⟩
    rw [dif_pos hall]
    refine congrArg some (funext fun w => ?_)
    exact Option.some.inj ((Option.some_get (hall w)).trans (h w))

theorem length_writeSlot (T : Template) (i : Nat) (result : β) (held output : List β) :
    (writeSlot T i result held output).length = output.length :=
  List.length_mapIdx

theorem writeSlot_self (T : Template) {result : β} {held output : List β}
    (h : i < output.length) : (writeSlot T i result held output)[i]? = some result := by
  unfold writeSlot
  rw [List.getElem?_mapIdx, List.getElem?_eq_getElem h, Option.map_some, if_pos rfl]

/-- A thread writes the other slots of the word as it has loaded them, so a result stored there in
the meantime is lost. -/
theorem writeSlot_held {result v : β} {held output : List β} (hne : j ≠ i)
    (hword : j / T.perWord = i / T.perWord) (hlt : j < output.length) (hheld : held[j]? = some v) :
    (writeSlot T i result held output)[j]? = some v := by
  unfold writeSlot
  rw [List.getElem?_mapIdx, List.getElem?_eq_getElem hlt, Option.map_some, if_neg hne,
    if_pos hword, List.getD_eq_getElem?_getD, hheld, Option.getD_some]

theorem writeSlot_apart {result : β} {held output : List β}
    (hword : j / T.perWord ≠ i / T.perWord) :
    (writeSlot T i result held output)[j]? = output[j]? := by
  have hne : j ≠ i := fun h => hword (congrArg (· / T.perWord) h)
  unfold writeSlot
  rw [List.getElem?_mapIdx]
  cases output[j]? with
  | none => rfl
  | some old => rw [Option.map_some, if_neg hne, if_neg hword]

/-! ## Counting threads

The weights of the tallies in the counting invariant: who has incremented the counter, and who is
about to call the callback. -/

/-- The threads that have incremented the counter. -/
def WorkerPc.counted : WorkerPc k γ β → Nat
  | .callback => 1
  | .finished => 1
  | _ => 0

/-- The threads about to call the callback. -/
def WorkerPc.firing : WorkerPc k γ β → Nat
  | .callback => 1
  | _ => 0

theorem WorkerPc.counted_le (pc : WorkerPc k γ β) : pc.counted ≤ 1 := by
  cases pc <;> simp [counted]

/-- A thread that has been launched, and has not incremented the counter. -/
structure WorkerPc.Early (pc : WorkerPc k γ β) : Prop where
  launched : pc ≠ .absent
  counted : pc.counted = 0
  firing : pc.firing = 0

/-- Either way of passing the argument starts a thread that has not counted yet. -/
theorem entry_early (T : Template) (x : Object k γ) : (T.entry x : WorkerPc k γ β).Early := by
  unfold Template.entry
  split <;> exact ⟨by simp, rfl, rfl⟩

end HseDev.Sem24
