import HseDev.Lib.BlockHeap
import HseDev.Lib.Transition
import Mathlib.Algebra.Group.Nat.Defs

/-!
# HseDev — the growable string of `utils/string.c`

The functions of `string.c` and `string.h` over the block heap. A call works on a
`Mem`: the heap, the object its argument `s` points to (`none` for a `NULL` argument)
and `errno`. `size_t` is `UInt64`, so every sum, doubling and `+ 1` wraps exactly where
the C code's does.

What `realloc` decides is the `Grant` argument; a call that accesses memory it must not
access is a `Fault`. The second half of the module is the client's side: the operations
as data (`Op`), and the transition system of a client that initialises one string and
then calls them in any order (`client`).
-/

namespace HseDev.Utils

open BlockHeap Transition

/-- The `errno` values the library sets. -/
inductive Errno where
  | EBADF
  deriving DecidableEq, Repr

/-- `string_t`. A buffer pointer is `NULL` or the start of an allocated block. -/
structure StringT where
  data : Option Nat
  len : UInt64
  capacity : UInt64
  deriving DecidableEq, Repr

/-- No buffer and both sizes `0`: what `string_init` and `string_destruct` leave. -/
def StringT.blank : StringT := { data := none, len := 0, capacity := 0 }

@[simp] theorem StringT.blank_data : StringT.blank.data = none := rfl
@[simp] theorem StringT.blank_len : StringT.blank.len = 0 := rfl
@[simp] theorem StringT.blank_capacity : StringT.blank.capacity = 0 := rfl

/-- What a call can read and write. -/
structure Mem where
  heap : Heap
  s : Option StringT
  errno : Option Errno := none

/-! ## The functions of `string.c` -/

def stringInit (m : Mem) : Mem :=
  match m.s with
  | none => m
  | some _ => { m with s := some .blank }

def stringDestruct (m : Mem) : Except Fault Mem :=
  match m.s with
  | none => .ok m
  | some s =>
    match s.data with
    | none => .ok m
    | some b => do
      let heap ← m.heap.free (some b)
      .ok { m with heap, s := some .blank }

def stringReserve (m : Mem) (n : UInt64) (g : Grant) : Except Fault (Int32 × Mem) :=
  match m.s with
  | none => .ok (-1, { m with errno := some .EBADF })
  | some s =>
    if n ≤ s.capacity then .ok (-1, m)
    else do
      let (heap, memory) ← m.heap.realloc s.data (n + 1).toNat g
      match memory with
      | none => .ok (-1, { m with heap })
      | some b => .ok (0, { m with heap, s := some { s with data := some b, capacity := n } })

/-- `string_c_str`: the buffer, or the literal `""`. -/
def stringCStr (s : StringT) : Src :=
  match s.data with
  | some b => .heap ⟨some b, 0⟩
  | none => .region [0]

/-- The tail of `string_append_buffer`: the copy, the new length and the NUL. -/
def appendCopy (m : Mem) (src : Src) (n : UInt64) : Except Fault (Int32 × Mem) :=
  match m.s with
  | none => .error .nullAccess
  | some s => do
    let heap ← memcpy m.heap ⟨s.data, s.len.toNat⟩ src n.toNat
    let s := { s with len := s.len + n }
    let heap ← heap.store ⟨s.data, s.len.toNat⟩ [0]
    .ok (0, { m with heap, s := some s })

def stringAppendBuffer (m : Mem) (src : Src) (n : UInt64) (g : Grant) :
    Except Fault (Int32 × Mem) :=
  match m.s with
  | none => .ok (-1, { m with errno := some .EBADF })
  | some s =>
    let requiredCapacity := s.len + n
    if requiredCapacity > s.capacity then do
      let (r, m) ← stringReserve m (requiredCapacity <<< 1) g
      if r = -1 then .ok (-1, m) else appendCopy m src n
    else appendCopy m src n

/-! ## The inline functions of `string.h` -/

def stringAppend (m : Mem) (src : Src) (g : Grant) : Except Fault (Int32 × Mem) := do
  let n ← strlen m.heap src
  stringAppendBuffer m src (UInt64.ofNat n) g

def stringAppendN (m : Mem) (src : Src) (n : UInt64) (g : Grant) :
    Except Fault (Int32 × Mem) := do
  let k ← strnlen m.heap src n.toNat
  stringAppendBuffer m src (UInt64.ofNat k) g

/-- `string_append_string`; `src` is what its second argument points to at the call. -/
def stringAppendString (m : Mem) (src : StringT) (g : Grant) : Except Fault (Int32 × Mem) :=
  stringAppendBuffer m (.heap ⟨src.data, 0⟩) src.len g

/-! ## A client of one string -/

/-- One call on the client's string. `appendSelf` is `string_append_string(s, s)`. -/
inductive Op where
  | reserve (n : UInt64)
  | appendBuffer (src : Src) (n : UInt64)
  | append (src : Src)
  | appendN (src : Src) (n : UInt64)
  | appendSelf
  | destruct
  deriving DecidableEq, Repr

/-- Perform a call; `string_destruct` returns nothing, recorded as `0`. -/
def Op.exec (m : Mem) (g : Grant) : Op → Except Fault (Int32 × Mem)
  | .reserve n => stringReserve m n g
  | .appendBuffer src n => stringAppendBuffer m src n g
  | .append src => stringAppend m src g
  | .appendN src n => stringAppendN m src n g
  | .appendSelf =>
    match m.s with
    | none => .error .nullAccess
    | some s => stringAppendString m s g
  | .destruct => do
    let m ← stringDestruct m
    .ok (0, m)

/-- How many bytes a call sets out to append. -/
def Op.count (m : Mem) : Op → Except Fault Nat
  | .appendBuffer _ n => .ok n.toNat
  | .append src => strlen m.heap src
  | .appendN src n => strnlen m.heap src n.toNat
  | .appendSelf => .ok ((m.s.map (·.len.toNat)).getD 0)
  | .reserve _ => .ok 0
  | .destruct => .ok 0

/-- A call in a trace: what was called, what the allocator answered, what was returned. -/
structure Event where
  op : Op
  grant : Grant
  ret : Int32

/-- The block the string's `data` points to. -/
def Mem.data (m : Mem) : Option Nat :=
  m.s.bind (·.data)

/-- The bytes the string holds: the first `len` of its block. -/
def Mem.contents (m : Mem) : List UInt8 :=
  match m.s with
  | none => []
  | some s =>
    match s.data with
    | none => []
    | some b => ((m.heap b).getD []).take s.len.toNat

/-- A client that calls `string_init` on an object and then performs calls for which
`allowed` holds. A run ends before a call that faults. -/
def client (allowed : Mem → Op → Prop) : System Mem Event where
  init m := ∃ heap s errno, m = stringInit { heap, s := some s, errno }
  step m e m' :=
    allowed m e.op ∧ Grant.Fits m.heap m.data e.grant ∧ e.op.exec m e.grant = .ok (e.ret, m')

/-! ## What a client may do -/

/-- `k` more bytes can be appended without a wrapping sum or doubling. -/
def Room (s : StringT) (k : Nat) : Prop :=
  s.len.toNat + k < 2 ^ 64
    ∧ (s.capacity.toNat < s.len.toNat + k → 2 * (s.len.toNat + k) + 1 < 2 ^ 64)

instance (s : StringT) (k : Nat) : Decidable (Room s k) := by unfold Room; infer_instance

/-- No size the call computes wraps. -/
def NoWrap (m : Mem) : Op → Prop
  | .reserve n => ∀ s, m.s = some s → s.capacity < n → n.toNat + 1 < 2 ^ 64
  | .destruct => True
  | op => ∀ s k, m.s = some s → op.count m = .ok k → Room s k

/-- The bytes a call contributes from a source outside the string: `string_append_n`
takes the bytes before the first NUL, at most `n`. -/
def Op.payload : Op → List UInt8
  | .appendBuffer (.region bytes) n => bytes.take n.toNat
  | .append (.region bytes) => cString bytes
  | .appendN (.region bytes) n => (cString bytes).take n.toNat
  | _ => []

/-- The call reads from a region outside the string that holds what it needs: `n` bytes,
or a NUL, or either of them. -/
def Op.External : Op → Prop
  | .appendBuffer (.region bytes) n => n.toNat ≤ bytes.length
  | .append (.region bytes) => 0 ∈ bytes
  | .appendN (.region bytes) n => 0 ∈ bytes ∨ n.toNat ≤ bytes.length
  | .reserve _ => True
  | .destruct => True
  | _ => False

/-- The calls that append. -/
def Op.IsAppend : Op → Prop
  | .reserve _ => False
  | .destruct => False
  | _ => True

/-- The contract of a client: external sources, no wrapping size, and no empty append to
a string without a buffer. -/
structure Allowed (m : Mem) (op : Op) : Prop where
  external : op.External
  noWrap : NoWrap m op
  nonempty : m.data = none → op.IsAppend → op.payload ≠ []

/-- The content a trace leaves: what was appended since the last destruct. -/
def Event.apply (content : List UInt8) (e : Event) : List UInt8 :=
  match e.op with
  | .destruct => []
  | op => if e.ret = 0 then content ++ op.payload else content

def appended (trace : List Event) : List UInt8 :=
  trace.foldl Event.apply []

end HseDev.Utils
