import Mathlib.Logic.Function.Basic
import Mathlib.Data.List.Basic

/-!
# A block heap with C's allocator

The memory model of the C data structures: a heap is a set of live blocks of bytes, a
pointer is `NULL` or a block with an offset, and every access is checked — reading or
writing outside a live block is a `Fault`, so "the program does not fault" is a
statement of memory safety and not an assumption.

* **`load`** / **`store`** — checked access to a range; no byte of an empty range is
  accessed, so an empty range never faults.
* **`free`** / **`realloc`** — the allocator. What `realloc` is free to choose (whether
  it succeeds, where the block ends up, what fresh memory contains) is a `Grant` given
  from outside; `Grant.Fits` says that a grant never aliases another live block.
* **`Src`** — where a C function reads from: a region outside the heap, or a pointer
  into it. `strlen`, `strnlen` and `memcpy` are stated over it; `memcpy` faults on
  overlapping ranges.
-/

namespace BlockHeap

/-- What goes wrong in an access. -/
inductive Fault where
  | nullAccess
  | deadBlock
  | outOfBounds
  | overlap
  deriving DecidableEq, Repr

/-- The live blocks. -/
abbrev Heap := Nat → Option (List UInt8)

/-- A pointer: `block = none` is `NULL`. -/
structure Ptr where
  block : Option Nat
  off : Nat := 0
  deriving DecidableEq, Repr

/-- The heap without a live block. -/
def Heap.empty : Heap := fun _ => none

/-! ## Lists of bytes

A block is a list of bytes. A store is a `splice` of it and a `realloc` a `resize`; what the two do
to a prefix is all that the users of the heap need. -/

/-- `block` with the bytes from `off` on replaced by `bytes`. -/
def splice (block : List UInt8) (off : Nat) (bytes : List UInt8) : List UInt8 :=
  block.take off ++ bytes ++ block.drop (off + bytes.length)

/-- A store inside a block does not change its size. -/
@[simp] theorem length_splice {block bytes : List UInt8} {off : Nat}
    (h : off + bytes.length ≤ block.length) : (splice block off bytes).length = block.length := by
  simp only [splice, List.length_append, List.length_take, List.length_drop]
  omega

/-- Below the end of the written range, a spliced block is the old prefix and the bytes. -/
theorem take_splice {block bytes : List UInt8} {off n : Nat}
    (hoff : off ≤ block.length) (hn : n = off + bytes.length) :
    (splice block off bytes).take n = block.take off ++ bytes := by
  have hlen : (block.take off ++ bytes).length = n := by
    rw [List.length_append, List.length_take, hn]
    omega
  exact List.take_left' hlen

/-- A splice leaves what lies before it. -/
theorem take_splice_of_le {block bytes : List UInt8} {off n : Nat}
    (hoff : off ≤ block.length) (hn : n ≤ off) :
    (splice block off bytes).take n = block.take n := by
  rw [splice, List.append_assoc, List.take_append_of_le_length (by rw [List.length_take]; omega),
    List.take_take, Nat.min_eq_left hn]

/-- A block of `n` bytes that starts like `old`; what `old` does not cover is `fresh`. -/
def resize (old : List UInt8) (n : Nat) (fresh : Nat → UInt8) : List UInt8 :=
  old.take n ++ (List.range' old.length (n - old.length)).map fresh

/-- A resized block has the size that was asked for, whatever it had before. -/
@[simp] theorem length_resize (old : List UInt8) (n : Nat) (fresh : Nat → UInt8) :
    (resize old n fresh).length = n := by
  simp only [resize, List.length_append, List.length_take, List.length_map, List.length_range']
  omega

/-- A resized block begins like the old one, as far as both go. -/
theorem take_resize {old : List UInt8} {n k : Nat} {fresh : Nat → UInt8}
    (hk : k ≤ old.length) (hkn : k ≤ n) : (resize old n fresh).take k = old.take k := by
  rw [resize, List.take_append_of_le_length (by rw [List.length_take]; omega), List.take_take,
    Nat.min_eq_left hkn]

/-- What the old block covers of a resized one is unchanged. -/
theorem getElem?_resize {old : List UInt8} {n i : Nat} {fresh : Nat → UInt8}
    (hi : i < old.length) (hin : i < n) : (resize old n fresh)[i]? = old[i]? := by
  rw [resize, List.getElem?_append_left (by rw [List.length_take]; omega)]
  exact List.getElem?_take_of_lt hin

/-- A new block starts with a fresh byte. -/
theorem resize_nil_succ (n : Nat) (fresh : Nat → UInt8) :
    resize [] (n + 1) fresh = fresh 0 :: (List.range' 1 n).map fresh := by
  simp [resize, List.range'_succ]

/-! ## Checked access

Every access says whether it is allowed: the block must be there and the bytes inside it. A fault is
a result like any other, so that safety is a statement about the result. -/

/-- The bytes of the block `p` points into. -/
def Heap.block (h : Heap) (p : Ptr) : Except Fault (List UInt8) :=
  match p.block with
  | none => .error .nullAccess
  | some b =>
    match h b with
    | none => .error .deadBlock
    | some bytes => .ok bytes

/-- Write `bytes` at `p`. -/
def Heap.store (h : Heap) (p : Ptr) (bytes : List UInt8) : Except Fault Heap :=
  if bytes = [] then .ok h
  else do
    let block ← h.block p
    if p.off + bytes.length ≤ block.length then
      .ok fun b => if p.block = some b then some (splice block p.off bytes) else h b
    else .error .outOfBounds

/-- A store that stays inside a live block succeeds, and only that block changes. -/
theorem Heap.store_ok {h : Heap} {b off : Nat} {block bytes : List UInt8}
    (hb : h b = some block) (hfit : off + bytes.length ≤ block.length) :
    h.store ⟨some b, off⟩ bytes = .ok (Function.update h b (some (splice block off bytes))) := by
  by_cases hnil : bytes = []
  · have hsame : splice block off bytes = block := by simp [splice, hnil]
    rw [hsame, ← hb, Function.update_eq_self]
    simp [Heap.store, hnil]
  · have hupd : (fun c => if b = c then some (splice block off bytes) else h c)
        = Function.update h b (some (splice block off bytes)) := by
      funext c
      by_cases hc : c = b
      · simp [hc]
      · simp [hc, Ne.symm hc]
    simpa [Heap.store, hnil, Heap.block, hb, bind, Except.bind, hfit] using hupd

/-- A non-empty write that does not fault lies inside its block. -/
theorem Heap.store_fits {h h' : Heap} {b off : Nat} {block bytes : List UInt8}
    (hb : h b = some block) (hne : bytes ≠ []) (hok : h.store ⟨some b, off⟩ bytes = .ok h') :
    off + bytes.length ≤ block.length := by
  simp only [Heap.store, if_neg hne, Heap.block, hb, bind, Except.bind] at hok
  split at hok
  · assumption
  · cases hok

/-- A non-empty write through `NULL` faults. -/
theorem Heap.store_null {h : Heap} {off : Nat} {bytes : List UInt8} (hne : bytes ≠ []) :
    h.store ⟨none, off⟩ bytes = .error .nullAccess := by
  simp [Heap.store, hne, Heap.block, bind, Except.bind]

/-- A non-empty write does not return when no byte of its block is left. -/
theorem Heap.store_gone {h h' : Heap} {b off : Nat} {bytes : List UInt8}
    (hgone : h b = none ∨ h b = some []) (hne : bytes ≠ []) :
    h.store ⟨some b, off⟩ bytes ≠ .ok h' := by
  intro hok
  rcases hgone with hdead | hempty
  · simp [Heap.store, hne, Heap.block, hdead, bind, Except.bind] at hok
  · have hfit := Heap.store_fits hempty hne hok
    have hpos := List.length_pos_of_ne_nil hne
    rw [List.length_nil] at hfit
    omega

/-! ## The allocator

An allocator is not modelled as an algorithm. It answers each call with a fresh block or not at all,
and the theorems are about every answer that fits. -/

/-- What the allocator answers a request with: `none` is a failure, otherwise the block
it returns and the content of the memory that was not part of the old block. -/
abbrev Grant := Option (Nat × (Nat → UInt8))

/-- A grant returns the old block itself, or a block that is not live. -/
def Grant.Fits (h : Heap) (old : Option Nat) (g : Grant) : Prop :=
  ∀ b fresh, g = some (b, fresh) → h b = none ∨ old = some b

/-- A refusal fits every heap: `malloc` may always fail. -/
theorem Grant.fits_none {h : Heap} {old : Option Nat} : Grant.Fits h old none := by
  intro b fresh hg
  cases hg

/-- `free(p)` for a block's own pointer. -/
def Heap.free (h : Heap) (p : Option Nat) : Except Fault Heap :=
  match p with
  | none => .ok h
  | some b =>
    match h b with
    | none => .error .deadBlock
    | some _ => .ok (Function.update h b none)

/-- `realloc(p, n)`: a failure leaves the heap as it is; a request of size `0` for a live
block frees it and returns `NULL`. -/
def Heap.realloc (h : Heap) (p : Option Nat) (n : Nat) (g : Grant) :
    Except Fault (Heap × Option Nat) :=
  match p with
  | none =>
    match g with
    | none => .ok (h, none)
    | some (c, fresh) => .ok (Function.update h c (some (resize [] n fresh)), some c)
  | some b =>
    match h b with
    | none => .error .deadBlock
    | some old =>
      if n = 0 then .ok (Function.update h b none, none)
      else
        match g with
        | none => .ok (h, none)
        | some (c, fresh) =>
          .ok (Function.update (Function.update h b none) c (some (resize old n fresh)), some c)

/-! ## Sources of a copy

The bytes that a `memcpy` reads are in a region that is not on the heap, such as a literal, or in a
block of it, such as another string. -/

/-- Where a function reads bytes from: a region that is not part of the heap, or a
pointer into the heap. -/
inductive Src where
  | region (bytes : List UInt8)
  | heap (p : Ptr)
  deriving DecidableEq, Repr

/-- All bytes from the source's position to the end of its region or block. -/
def Src.bytes (h : Heap) : Src → Except Fault (List UInt8)
  | .region bytes => .ok bytes
  | .heap p => do
    let block ← h.block p
    .ok (block.drop p.off)

/-- Read the first `n` bytes of a source. -/
def Src.load (h : Heap) (src : Src) (n : Nat) : Except Fault (List UInt8) :=
  if n = 0 then .ok []
  else do
    let bytes ← src.bytes h
    if n ≤ bytes.length then .ok (bytes.take n) else .error .outOfBounds

/-- The bytes before the first NUL. -/
def cString (bytes : List UInt8) : List UInt8 :=
  bytes.takeWhile (· ≠ 0)

/-- `strlen`: it runs off a region that holds no NUL. -/
def strlen (h : Heap) (src : Src) : Except Fault Nat := do
  let bytes ← src.bytes h
  if 0 ∈ bytes then .ok (cString bytes).length else .error .outOfBounds

/-- `strnlen`: no byte from the `n`-th on is read. -/
def strnlen (h : Heap) (src : Src) (n : Nat) : Except Fault Nat :=
  if n = 0 then .ok 0
  else do
    let bytes ← src.bytes h
    if 0 ∈ bytes ∨ n ≤ bytes.length then .ok (min n (cString bytes).length)
    else .error .outOfBounds

/-- Whether `n` bytes at `dst` and `n` bytes at the source share one. -/
def Src.Overlaps (src : Src) (dst : Ptr) (n : Nat) : Prop :=
  match src with
  | .region _ => False
  | .heap p => n ≠ 0 ∧ p.block = dst.block ∧ p.off < dst.off + n ∧ dst.off < p.off + n

instance (src : Src) (dst : Ptr) (n : Nat) : Decidable (src.Overlaps dst n) := by
  unfold Src.Overlaps
  cases src <;> infer_instance

/-- `memcpy(dst, src, n)`. -/
def memcpy (h : Heap) (dst : Ptr) (src : Src) (n : Nat) : Except Fault Heap := do
  let bytes ← src.load h n
  if src.Overlaps dst n then .error .overlap else h.store dst bytes

/-! ## What the sources deliver

These lemmas take the functions of `string.h` apart into reads of their source, so that a caller
only has to know the bytes that are there. -/

/-- A region that is long enough delivers its first bytes. -/
theorem Src.load_region {h : Heap} {bytes : List UInt8} {n : Nat} (hn : n ≤ bytes.length) :
    (Src.region bytes).load h n = .ok (bytes.take n) := by
  by_cases h0 : n = 0
  · simp [Src.load, h0]
  · simp [Src.load, h0, Src.bytes, bind, Except.bind, hn]

/-- What a read of a region delivers, when it delivers anything. -/
theorem Src.eq_take_of_load {h : Heap} {bytes out : List UInt8} {n : Nat}
    (hload : (Src.region bytes).load h n = .ok out) : out = bytes.take n := by
  unfold Src.load at hload
  split at hload
  · next h0 =>
    cases hload
    rw [h0, List.take_zero]
  · simp only [Src.bytes, bind, Except.bind] at hload
    split at hload
    · exact (Except.ok.inj hload).symm
    · cases hload

/-- A read of a live block delivers its bytes, and faults when it leaves the block. -/
theorem Src.load_heap {h : Heap} {b off n : Nat} {block : List UInt8} (hb : h b = some block)
    (hn : n ≠ 0) :
    (Src.heap ⟨some b, off⟩).load h n
      = if n ≤ (block.drop off).length then .ok ((block.drop off).take n)
        else .error .outOfBounds := by
  simp [Src.load, hn, Src.bytes, Heap.block, hb, bind, Except.bind]

/-- A successful read of `n` bytes delivers `n` bytes. -/
theorem Src.length_of_load {h : Heap} {src : Src} {n : Nat} {bytes : List UInt8}
    (hload : src.load h n = .ok bytes) : bytes.length = n := by
  unfold Src.load at hload
  split at hload
  · next h0 =>
    cases hload
    exact h0.symm
  · cases hsrc : src.bytes h with
    | error e => simp [hsrc, bind, Except.bind] at hload
    | ok all =>
      simp only [hsrc, bind, Except.bind] at hload
      split at hload
      · next hle =>
        cases hload
        rw [List.length_take]
        omega
      · cases hload

/-- A C string is no longer than the region it is read from. -/
theorem length_cString_le (bytes : List UInt8) : (cString bytes).length ≤ bytes.length :=
  (List.takeWhile_prefix _).length_le

/-- It is the beginning of the region, as far as its length goes. -/
theorem take_length_cString (bytes : List UInt8) :
    bytes.take (cString bytes).length = cString bytes :=
  (List.prefix_iff_eq_take.mp (List.takeWhile_prefix _)).symm

/-- The first `n` bytes before the NUL, cut from the region itself. -/
theorem take_min_cString (bytes : List UInt8) (n : Nat) :
    bytes.take (min n (cString bytes).length) = (cString bytes).take n := by
  set k := min n (cString bytes).length with hk
  calc bytes.take k
      = (bytes.take (cString bytes).length).take k := by
        rw [List.take_take, Nat.min_eq_left (by omega)]
    _ = (cString bytes).take k := by rw [take_length_cString]
    _ = (cString bytes).take n := by rw [hk, ← List.take_eq_take_min]

/-- A region with a NUL has the length of the string in front of it. -/
theorem strlen_region {h : Heap} {bytes : List UInt8} (hz : 0 ∈ bytes) :
    strlen h (.region bytes) = .ok (cString bytes).length := by
  simp [strlen, Src.bytes, bind, Except.bind, hz]

/-- The bounded length needs no NUL if there are enough bytes. -/
theorem strnlen_region {h : Heap} {bytes : List UInt8} {n : Nat}
    (hread : 0 ∈ bytes ∨ n ≤ bytes.length) :
    strnlen h (.region bytes) n = .ok (min n (cString bytes).length) := by
  by_cases h0 : n = 0
  · simp [strnlen, h0]
  · simp [strnlen, h0, Src.bytes, bind, Except.bind, hread]

/-- A copy from outside the heap is a store of those bytes. -/
theorem memcpy_region {h : Heap} {dst : Ptr} {bytes : List UInt8} {n : Nat}
    (hn : n ≤ bytes.length) :
    memcpy h dst (.region bytes) n = h.store dst (bytes.take n) := by
  simp [memcpy, Src.load_region hn, Src.Overlaps, bind, Except.bind]

/-- A copy of bytes that lie before its destination, in one block. -/
theorem memcpy_heap {h : Heap} {b off dst n : Nat} {block : List UInt8} (hb : h b = some block)
    (hbefore : off + n ≤ dst) (hn : off + n ≤ block.length) :
    memcpy h ⟨some b, dst⟩ (.heap ⟨some b, off⟩) n
      = h.store ⟨some b, dst⟩ ((block.drop off).take n) := by
  have hload : (Src.heap ⟨some b, off⟩).load h n = .ok ((block.drop off).take n) := by
    by_cases h0 : n = 0
    · simp [Src.load, h0]
    · have hle : n ≤ (block.drop off).length := by
        rw [List.length_drop]
        omega
      rw [Src.load_heap hb h0, if_pos hle]
  have hapart : ¬ (Src.heap ⟨some b, off⟩).Overlaps ⟨some b, dst⟩ n := by
    rintro ⟨-, -, -, hlt⟩
    exact absurd hlt (Nat.not_lt.mpr hbefore)
  simp only [memcpy, hload, bind, Except.bind, if_neg hapart]

/-- A copy from a block that is gone. -/
theorem memcpy_dead {h : Heap} {dst : Ptr} {b off n : Nat} (hb : h b = none) (hn : n ≠ 0) :
    memcpy h dst (.heap ⟨some b, off⟩) n = .error .deadBlock := by
  simp [memcpy, Src.load, hn, Src.bytes, Heap.block, hb, bind, Except.bind]

/-- A copy that does not fault stored the bytes it read. -/
theorem memcpy_reads {h h' : Heap} {dst : Ptr} {src : Src} {n : Nat}
    (hcopy : memcpy h dst src n = .ok h') :
    ∃ bytes, src.load h n = .ok bytes ∧ h.store dst bytes = .ok h' := by
  unfold memcpy at hcopy
  cases hload : src.load h n with
  | error e => simp [hload, bind, Except.bind] at hcopy
  | ok bytes =>
    simp only [hload, bind, Except.bind] at hcopy
    split at hcopy
    · cases hcopy
    · exact ⟨bytes, rfl, hcopy⟩

/-- A copy that succeeds has stored as many bytes as it was asked for, wherever they came from. -/
theorem memcpy_ok {h h' : Heap} {dst : Ptr} {src : Src} {n : Nat}
    (hcopy : memcpy h dst src n = .ok h') :
    ∃ bytes, bytes.length = n ∧ h.store dst bytes = .ok h' := by
  obtain ⟨bytes, hload, hstore⟩ := memcpy_reads hcopy
  exact ⟨bytes, Src.length_of_load hload, hstore⟩

/-! ## What the calls leave alone

A call that succeeds changes at most the block it is about. Two objects on one heap are therefore
independent as long as they do not share a block. -/

section Frame

variable {h h' : Heap} {b c n : Nat} {p q : Option Nat} {g : Grant}

/-- A store leaves the other blocks alone. -/
theorem Heap.store_other {dst : Ptr} {bytes : List UInt8} (hok : h.store dst bytes = .ok h')
    (hb : dst.block ≠ some b) : h' b = h b := by
  unfold Heap.store at hok
  split at hok
  · cases hok
    rfl
  · cases hblock : h.block dst with
    | error e => simp [hblock, bind, Except.bind] at hok
    | ok block =>
      simp only [hblock, bind, Except.bind] at hok
      split at hok
      · cases hok
        exact if_neg hb
      · cases hok

/-- So does a copy; its source is only read. -/
theorem memcpy_other {dst : Ptr} {src : Src} (hok : memcpy h dst src n = .ok h')
    (hb : dst.block ≠ some b) : h' b = h b := by
  obtain ⟨bytes, -, hstore⟩ := memcpy_reads hok
  exact Heap.store_other hstore hb

/-- `realloc` changes only the block it gets and the one it returns. -/
theorem Heap.realloc_other (hok : h.realloc p n g = .ok (h', q)) (hp : p ≠ some b)
    (hq : q ≠ some b) : h' b = h b := by
  unfold Heap.realloc at hok
  cases p with
  | none =>
    cases g with
    | none =>
      cases hok
      rfl
    | some grant =>
      cases hok
      exact Function.update_of_ne (fun heq => hq (congrArg some heq.symm)) _ _
  | some c =>
    have hc : b ≠ c := fun heq => hp (congrArg some heq.symm)
    simp only at hok
    split at hok
    · cases hok
    · split at hok
      · cases hok
        exact Function.update_of_ne hc _ _
      · cases g with
        | none =>
          cases hok
          rfl
        | some grant =>
          cases hok
          have hgrant : b ≠ grant.1 := fun heq => hq (congrArg some heq.symm)
          rw [Function.update_of_ne hgrant, Function.update_of_ne hc]

/-- The block that `realloc` returns is the granted one. -/
theorem Heap.realloc_granted (hok : h.realloc p n g = .ok (h', some b)) :
    ∃ fresh, g = some (b, fresh) := by
  unfold Heap.realloc at hok
  cases p with
  | none =>
    cases g with
    | none => cases hok
    | some grant =>
      cases hok
      exact ⟨_, rfl⟩
  | some c =>
    simp only at hok
    split at hok
    · cases hok
    · split at hok
      · cases hok
      · cases g with
        | none => cases hok
        | some grant =>
          cases hok
          exact ⟨_, rfl⟩

/-- A block that `realloc` has moved from is free. -/
theorem Heap.realloc_moved (hok : h.realloc (some b) n g = .ok (h', some c)) (hne : b ≠ c) :
    h' b = none := by
  unfold Heap.realloc at hok
  simp only at hok
  split at hok
  · cases hok
  · split at hok
    · cases hok
    · cases g with
      | none => cases hok
      | some grant =>
        cases hok
        rw [Function.update_of_ne hne, Function.update_self]

/-- A copy from a block into another one is a copy of its bytes. -/
theorem memcpy_apart {dst : Ptr} {block : List UInt8} (hb : h b = some block)
    (hn : n ≤ block.length) (hapart : dst.block ≠ some b) :
    memcpy h dst (.heap ⟨some b, 0⟩) n = memcpy h dst (.region (block.take n)) n := by
  have hload : (Src.heap ⟨some b, 0⟩).load h n = .ok (block.take n) := by
    by_cases h0 : n = 0
    · simp [Src.load, h0]
    · rw [Src.load_heap hb h0, List.drop_zero, if_pos hn]
  have hregion : (Src.region (block.take n)).load h n = .ok (block.take n) := by
    have hlen : n ≤ (block.take n).length := by
      rw [List.length_take]
      omega
    rw [Src.load_region hlen, List.take_take, Nat.min_self]
  have hnot : ¬ (Src.heap ⟨some b, 0⟩).Overlaps dst n := fun hover => hapart hover.2.1.symm
  have hnot' : ¬ (Src.region (block.take n)).Overlaps dst n := id
  simp only [memcpy, hload, hregion, bind, Except.bind, if_neg hnot, if_neg hnot']

end Frame

end BlockHeap
