import HseDev.Lib.BlockHeap
import Mathlib.Algebra.Ring.Nat
import Mathlib.Data.List.TakeWhile

/-!
# HseDev — `exec_python` of `sem16/main.c`

`exec_python` runs a child and returns what it has printed, as a C string; `NULL` stands for
every failure. `read_all` collects the output in a buffer that doubles its capacity.

* **`Answers`** — what the calls answer: each chunk of the output comes with the answer to the
  `realloc` that it may need.
* **`readAll`** / **`execPython`** — over the block heap; the heap holds what the call has
  allocated itself.
* **`received`** — the bytes that `read_all` takes in before it stops, for whatever reason;
  **`readLoop_spec`**: they are in the buffer.
* **`Meets`** — `NULL`, or the whole output of a child that succeeded.
* **`execPython_iff`** — exactly when: a read error and a failed `realloc` end the loop like the
  end of the file does.

The sizes of the buffer are numbers here and not yet words. An output of `2 ^ 63` bytes would take
a `realloc` of more than any object may have, so it is never granted, and below it the loop over
`size_t` takes the same rounds: that is `readLoop64_refines`, in the module on `read_all`.
-/

namespace HseDev.Sem16

open BlockHeap

/-! ## What the calls answer

Everything that the function does not decide itself is an answer: of `pipe2`, of `fork`, of each
`read` with the `realloc` behind it, and of `waitpid`. -/

/-- What one successful `read` into `tmp` delivers. -/
structure Chunk where
  bytes : List UInt8
  nonempty : bytes ≠ []
  fits : bytes.length ≤ 4096
  deriving DecidableEq

/-- The result of a `read`; `grant` is what `realloc` answers if this chunk needs it. When no
result is left, the file has ended. -/
inductive ReadResult where
  | data (chunk : Chunk) (grant : Grant)
  | error

/-- The calls of `exec_python`. `childStatus` is how the child ended; `waitFailed` holds, if
`waitpid` failed, what the uninitialised `status` contained. -/
structure Answers where
  pipe2 : Bool
  fork : Bool
  malloc : Grant
  reads : List ReadResult
  childStatus : UInt32
  waitFailed : Option UInt32

/-- The child's whole output. -/
def output : List ReadResult → List UInt8
  | [] => []
  | .data chunk _ :: reads => chunk.bytes ++ output reads
  | .error :: reads => output reads

/-! ## `read_all` -/

/-- `while (next_capacity < required_capacity) next_capacity *= 2;` -/
def nextCapacityLoop : Nat → Nat → Nat → Nat
  | 0, nextCapacity, _ => nextCapacity
  | fuel + 1, nextCapacity, requiredCapacity =>
    if nextCapacity < requiredCapacity then
      nextCapacityLoop fuel (nextCapacity * 2) requiredCapacity
    else nextCapacity

/-- No allocation gets near `2^64` bytes, so the sizes are natural numbers. As many rounds as
bytes are required are enough. -/
def nextCapacity (capacity requiredCapacity : Nat) : Nat :=
  nextCapacityLoop requiredCapacity capacity requiredCapacity

/-- The variables of `read_all`. -/
structure Buffer where
  heap : Heap
  buffer : Option Nat
  size : Nat
  capacity : Nat

/-- `memcpy(buffer + size, tmp, r); size += r;` -/
def Buffer.append (b : Buffer) (tmp : List UInt8) : Except Fault Buffer := do
  let heap ← memcpy b.heap ⟨b.buffer, b.size⟩ (.region tmp) tmp.length
  .ok { b with heap, size := b.size + tmp.length }

def readLoop (b : Buffer) : List ReadResult → Except Fault Buffer
  | [] => .ok b
  | .error :: _ => .ok b
  | .data chunk grant :: reads => do
    let requiredCapacity := chunk.bytes.length + b.size + 1
    let next := nextCapacity b.capacity requiredCapacity
    if next ≠ b.capacity then
      let (heap, nextBuf) ← b.heap.realloc b.buffer next grant
      match nextBuf with
      | none => .ok { b with heap }
      | some _ =>
        let b ← Buffer.append { b with heap, buffer := nextBuf, capacity := next } chunk.bytes
        readLoop b reads
    else
      let b ← b.append chunk.bytes
      readLoop b reads

/-- `read_all` with the final `buffer[size] = '\0'`. -/
def readAll (malloc : Grant) (reads : List ReadResult) : Except Fault Buffer := do
  let (heap, buffer) ← Heap.empty.realloc none 16 malloc
  let b ← readLoop { heap, buffer, size := 0, capacity := 16 } reads
  let heap ← b.heap.store ⟨b.buffer, b.size⟩ [0]
  .ok { b with heap }

/-! ## `exec_python` -/

def wifexited (status : UInt32) : Bool :=
  status &&& 0x7f == 0

def wexitstatus (status : UInt32) : UInt32 :=
  (status >>> 8) &&& 0xff

/-- `((signed char)((status & 0x7f) + 1) >> 1) > 0` -/
def wifsignaled (status : UInt32) : Bool :=
  status &&& 0x7f != 0 && status &&& 0x7f != 0x7f

/-- `error_exit` -/
def errorExit (status : UInt32) : Bool :=
  (wifexited status && wexitstatus status != 0) || wifsignaled status

/-- The variable `status` after `waitpid`. -/
def Answers.status (w : Answers) : UInt32 :=
  w.waitFailed.getD w.childStatus

/-- The heap and the returned pointer. -/
def execPython (w : Answers) : Except Fault (Heap × Option Nat) :=
  if !w.pipe2 then .ok (.empty, none)
  else if !w.fork then .ok (.empty, none)
  else do
    let b ← readAll w.malloc w.reads
    if errorExit w.status then
      let heap ← b.heap.free b.buffer
      .ok (heap, none)
    else .ok (b.heap, b.buffer)

/-- The child exited normally, with status `0`. -/
def exitedZero (status : UInt32) : Bool :=
  wifexited status && wexitstatus status == 0

/-- **The contract**: `NULL`, or the whole output of a child that succeeded. A fault is neither. -/
def Meets (w : Answers) : Prop :=
  match execPython w with
  | .error _ => False
  | .ok (_, none) => True
  | .ok (heap, some b) =>
    exitedZero w.childStatus = true
      ∧ ∃ block, heap b = some block ∧ 0 ∈ block ∧ cString block = output w.reads

/-! ## The capacity

The inner loop doubles the capacity until the new bytes fit, with one more for the NUL. -/

theorem le_nextCapacityLoop (fuel capacity required : Nat) :
    capacity ≤ nextCapacityLoop fuel capacity required := by
  induction fuel generalizing capacity with
  | zero => exact Nat.le_refl capacity
  | succ fuel ih =>
    unfold nextCapacityLoop
    split
    · have hdouble := ih (capacity * 2)
      omega
    · exact Nat.le_refl capacity

/-- With enough fuel the loop ends with a capacity that suffices. Induction on the fuel: each
doubling of a positive capacity adds at least one. -/
theorem required_le_nextCapacityLoop {fuel capacity required : Nat} (hpos : 0 < capacity)
    (hfuel : required ≤ capacity + fuel) : required ≤ nextCapacityLoop fuel capacity required := by
  induction fuel generalizing capacity with
  | zero => exact hfuel
  | succ fuel ih =>
    unfold nextCapacityLoop
    split
    · -- doubling gains at least one
      apply ih
      · omega
      · omega
    · next hge => exact Nat.le_of_not_lt hge

/-- The bytes that are required are enough fuel, so the capacity always suffices. -/
theorem required_le_nextCapacity {capacity required : Nat} (hpos : 0 < capacity) :
    required ≤ nextCapacity capacity required :=
  required_le_nextCapacityLoop hpos (Nat.le_add_left required capacity)

/-- The old content fits into the new capacity. -/
theorem le_nextCapacity (capacity required : Nat) : capacity ≤ nextCapacity capacity required :=
  le_nextCapacityLoop required capacity required

theorem nextCapacity_of_le {capacity required : Nat} (h : required ≤ capacity) :
    nextCapacity capacity required = capacity := by
  unfold nextCapacity
  cases required with
  | zero => rfl
  | succ required =>
    rw [nextCapacityLoop, if_neg (Nat.not_lt.mpr h)]

/-! ## What the buffer holds

The loop stops at the first `read` that fails and at the first `realloc` that fails. What it has
received by then is computed from the answers alone. -/

/-- The bytes that the loop takes in before it stops. -/
def received (size capacity : Nat) : List ReadResult → List UInt8
  | [] => []
  | .error :: _ => []
  | .data chunk grant :: reads =>
    let next := nextCapacity capacity (chunk.bytes.length + size + 1)
    if next ≠ capacity ∧ grant.isNone = true then []
    else chunk.bytes ++ received (size + chunk.bytes.length) next reads

section Rounds

variable {b : Buffer} {chunk : Chunk} {grant : Grant} {reads : List ReadResult}
variable {size capacity next : Nat} {heap : Heap}

/-- A chunk that fits is received, whatever `realloc` would have answered. -/
theorem received_fits (h : nextCapacity capacity (chunk.bytes.length + size + 1) = capacity) :
    received size capacity (.data chunk grant :: reads)
      = chunk.bytes ++ received (size + chunk.bytes.length) capacity reads := by
  simp [received, h]

/-- With a failed `realloc` the chunk and everything behind it is lost. -/
theorem received_failed (h : nextCapacity capacity (chunk.bytes.length + size + 1) ≠ capacity) :
    received size capacity (.data chunk none :: reads) = [] := by
  simp [received, h]

/-- With a granted one the chunk is received into the larger buffer. -/
theorem received_granted (g : Nat × (Nat → UInt8)) :
    received size capacity (.data chunk (some g) :: reads)
      = chunk.bytes ++ received (size + chunk.bytes.length)
          (nextCapacity capacity (chunk.bytes.length + size + 1)) reads := by
  simp [received]

/-- A chunk that fits is copied behind the bytes in the buffer. -/
theorem readLoop_fits
    (h : nextCapacity b.capacity (chunk.bytes.length + b.size + 1) = b.capacity) :
    readLoop b (.data chunk grant :: reads)
      = b.append chunk.bytes >>= fun b => readLoop b reads := by
  simp [readLoop, h]

/-- A failed `realloc` leaves the loop with the old buffer. -/
theorem readLoop_failed
    (hnext : nextCapacity b.capacity (chunk.bytes.length + b.size + 1) = next)
    (hne : next ≠ b.capacity) (hfails : b.heap.realloc b.buffer next grant = .ok (heap, none)) :
    readLoop b (.data chunk grant :: reads) = .ok { b with heap } := by
  simp [readLoop, hnext, hne, hfails, bind, Except.bind]

/-- A granted one goes on with the new buffer, in which the old bytes are. -/
theorem readLoop_granted {c : Nat}
    (hnext : nextCapacity b.capacity (chunk.bytes.length + b.size + 1) = next)
    (hne : next ≠ b.capacity)
    (hgrants : b.heap.realloc b.buffer next grant = .ok (heap, some c)) :
    readLoop b (.data chunk grant :: reads)
      = Buffer.append { b with heap, buffer := some c, capacity := next } chunk.bytes
          >>= fun b => readLoop b reads := by
  simp [readLoop, hnext, hne, hgrants, bind, Except.bind]

end Rounds

/-- The buffer begins with `data` and has room for a NUL. -/
structure Filled (b : Buffer) (data : List UInt8) : Prop where
  size : b.size = data.length
  room : data.length < b.capacity
  block : ∃ p block, b.buffer = some p ∧ b.heap p = some block ∧ block.length = b.capacity
    ∧ block.take data.length = data

section Loop

variable {b : Buffer} {data tmp : List UInt8}

/-- The copy of a chunk that fits. -/
theorem Filled.append (h : Filled b data) (hroom : data.length + tmp.length < b.capacity) :
    ∃ b', b.append tmp = .ok b' ∧ Filled b' (data ++ tmp) ∧ b'.capacity = b.capacity := by
  obtain ⟨p, block, hbuffer, hblock, hlength, hdata⟩ := h.block
  have hfit : data.length + tmp.length ≤ block.length := by omega
  refine ⟨{ b with heap := Function.update b.heap p (some (splice block data.length tmp)),
                   size := data.length + tmp.length }, ?_, ?_, rfl⟩
  · have hstore := Heap.store_ok hblock hfit
    simp [Buffer.append, memcpy_region (Nat.le_refl tmp.length), hbuffer, h.size, hstore, bind,
      Except.bind]
  · refine ⟨List.length_append.symm, by simpa using hroom, p, _, hbuffer,
      Function.update_self .., ?_, ?_⟩
    · rw [length_splice hfit]
      exact hlength
    · rw [take_splice (by omega) List.length_append, hdata]

/-- The answer of `realloc` to a request for more. -/
theorem Filled.grow (h : Filled b data) (c : Nat) (fresh : Nat → UInt8) {next : Nat}
    (hnext : b.capacity ≤ next) :
    ∃ heap, b.heap.realloc b.buffer next (some (c, fresh)) = .ok (heap, some c)
      ∧ Filled { b with heap, buffer := some c, capacity := next } data := by
  obtain ⟨p, block, hbuffer, hblock, hlength, hdata⟩ := h.block
  have hroom := h.room
  have hne : next ≠ 0 := by omega
  refine ⟨Function.update (Function.update b.heap p none) c (some (resize block next fresh)), ?_,
    h.size, Nat.lt_of_lt_of_le hroom hnext, c, resize block next fresh, rfl, ?_,
    length_resize block next fresh, ?_⟩
  · rw [hbuffer, Heap.realloc, hblock]
    simp only [if_neg hne]
  · exact Function.update_self ..
  · rw [take_resize (by omega) (by omega)]
    exact hdata

/-- **The loop** leaves in the buffer what it had and what it received. Induction on the reads. -/
theorem readLoop_spec (h : Filled b data) (reads : List ReadResult) :
    ∃ b', readLoop b reads = .ok b' ∧
      Filled b' (data ++ received data.length b.capacity reads) := by
  induction reads generalizing b data with
  | nil => exact ⟨b, rfl, by simpa [received] using h⟩
  | cons r reads ih =>
    cases r with
    | error => exact ⟨b, rfl, by simpa [received] using h⟩
    | data chunk grant =>
      -- the capacity that the chunk asks for
      obtain ⟨next, hnext⟩ :
          ∃ next, nextCapacity b.capacity (chunk.bytes.length + data.length + 1) = next := ⟨_, rfl⟩
      have hrequired : chunk.bytes.length + data.length + 1 ≤ next :=
        hnext ▸ required_le_nextCapacity (Nat.zero_lt_of_lt h.room)
      have hnext' : nextCapacity b.capacity (chunk.bytes.length + b.size + 1) = next := by
        rw [h.size, hnext]
      by_cases hgrow : next = b.capacity
      · -- the chunk fits
        have hroom : data.length + chunk.bytes.length < b.capacity := by omega
        obtain ⟨b', happend, hfilled, hcapacity⟩ := h.append hroom
        obtain ⟨b'', hloop, hdone⟩ := ih hfilled
        rw [readLoop_fits (hnext'.trans hgrow), received_fits (hnext.trans hgrow), happend]
        rw [List.length_append, hcapacity, List.append_assoc] at hdone
        exact ⟨b'', hloop, hdone⟩
      · cases grant with
        | none =>
          -- `realloc` fails: the loop ends with what it has
          obtain ⟨p, block, hbuffer, hblock, _⟩ := h.block
          have hne : next ≠ 0 := by omega
          have hfails : b.heap.realloc b.buffer next none = .ok (b.heap, none) := by
            rw [hbuffer, Heap.realloc, hblock]
            simp only [if_neg hne]
          rw [readLoop_failed hnext' hgrow hfails, received_failed (hnext ▸ hgrow),
            List.append_nil]
          exact ⟨b, rfl, h⟩
        | some g =>
          -- a larger block keeps what was read, and the chunk goes behind it
          obtain ⟨c, fresh⟩ := g
          have hle : b.capacity ≤ next := hnext ▸ le_nextCapacity b.capacity _
          obtain ⟨heap, hgrants, hgrown⟩ := h.grow c fresh hle
          have hroom : data.length + chunk.bytes.length < next := by omega
          obtain ⟨b', happend, hfilled, hcapacity⟩ := hgrown.append hroom
          obtain ⟨b'', hloop, hdone⟩ := ih hfilled
          rw [readLoop_granted hnext' hgrow hgrants, received_granted, hnext, happend]
          rw [List.length_append, hcapacity, List.append_assoc] at hdone
          exact ⟨b'', hloop, hdone⟩

end Loop

/-! ## The whole of `read_all`

Before the loop is a `malloc` of sixteen bytes, whose result is not tested, and behind it the NUL.
-/

/-- `malloc` succeeds, or the first chunk needs a `realloc` at once and that succeeds. -/
def Allocated (malloc : Grant) : List ReadResult → Bool
  | .data chunk grant :: _ => malloc.isSome || (decide (16 ≤ chunk.bytes.length) && grant.isSome)
  | _ => malloc.isSome

section ReadAll

variable {b : Buffer} {data : List UInt8} {malloc : Grant} {reads : List ReadResult}

theorem Filled.terminate (h : Filled b data) :
    ∃ heap p block, b.heap.store ⟨b.buffer, b.size⟩ [0] = .ok heap ∧ b.buffer = some p
      ∧ heap p = some block ∧ block.take (data.length + 1) = data ++ [0]
      ∧ block.length = b.capacity := by
  obtain ⟨p, block, hbuffer, hblock, hlength, hdata⟩ := h.block
  have hroom := h.room
  have hfit : data.length + [(0 : UInt8)].length ≤ block.length := by
    rw [List.length_singleton]
    omega
  refine ⟨Function.update b.heap p (some (splice block data.length [0])), p,
    splice block data.length [0], ?_, hbuffer, Function.update_self .., ?_,
    (length_splice hfit).trans hlength⟩
  · rw [hbuffer, h.size]
    exact Heap.store_ok hblock hfit
  · have hoff : data.length ≤ block.length := by omega
    have hcount : data.length + 1 = data.length + [(0 : UInt8)].length := rfl
    rw [take_splice hoff hcount, hdata]

/-- The first block, from `malloc` or from the first `realloc`. -/
theorem filled_fresh (c n : Nat) (fresh : Nat → UInt8) (hpos : 0 < n) :
    Filled { heap := Function.update Heap.empty c (some (resize [] n fresh)), buffer := some c,
             size := 0, capacity := n } [] :=
  ⟨rfl, hpos, c, resize [] n fresh, rfl, Function.update_self .., length_resize .., rfl⟩

/-- If memory was granted when it was needed the loop ends with what has been received. -/
theorem readLoop_start (h : Allocated malloc reads = true) :
    ∃ b b', Heap.empty.realloc none 16 malloc = .ok (b.heap, b.buffer) ∧ b.size = 0
      ∧ b.capacity = 16 ∧ readLoop b reads = .ok b' ∧ Filled b' (received 0 16 reads) := by
  cases malloc with
  | some g =>
    obtain ⟨c, fresh⟩ := g
    have hfilled := filled_fresh c 16 fresh (by omega)
    obtain ⟨b', hloop, hdone⟩ := readLoop_spec hfilled reads
    exact ⟨_, b', rfl, rfl, rfl, hloop, hdone⟩
  | none =>
    match reads with
    | [] | .error :: _ => cases h
    | .data chunk none :: _ => simp [Allocated] at h
    | .data chunk (some (c, fresh)) :: reads =>
      -- `realloc(NULL, next_capacity)`
      have hlong : 16 ≤ chunk.bytes.length := by simpa [Allocated] using h
      obtain ⟨next, hnext⟩ :
          ∃ next, nextCapacity 16 (chunk.bytes.length + 0 + 1) = next := ⟨_, rfl⟩
      have hrequired : chunk.bytes.length + 0 + 1 ≤ next :=
        hnext ▸ required_le_nextCapacity (by omega)
      have hne : next ≠ 16 := by omega
      have hfilled := filled_fresh c next fresh (by omega)
      have hroom : ([] : List UInt8).length + chunk.bytes.length < next := by
        rw [List.length_nil]
        omega
      obtain ⟨b', happend, happended, hcapacity⟩ := hfilled.append hroom
      obtain ⟨b'', hloop, hdone⟩ := readLoop_spec happended reads
      refine ⟨⟨Heap.empty, none, 0, 16⟩, b'', rfl, rfl, rfl, ?_, ?_⟩
      · have hgrants : Heap.empty.realloc none next (some (c, fresh))
            = .ok (Function.update Heap.empty c (some (resize [] next fresh)), some c) := rfl
        rw [readLoop_granted hnext hne hgrants, happend]
        exact hloop
      · rw [received_granted, hnext]
        rw [hcapacity] at hdone
        simpa using hdone

/-- Then there is a buffer with these bytes and a NUL behind them. -/
theorem readAll_ok (h : Allocated malloc reads = true) :
    ∃ b p block, readAll malloc reads = .ok b ∧ b.buffer = some p ∧ b.heap p = some block
      ∧ block.take ((received 0 16 reads).length + 1) = received 0 16 reads ++ [0] := by
  obtain ⟨⟨heap, buffer, size, capacity⟩, b', hmalloc, hsize, hcapacity, hloop, hfilled⟩ :=
    readLoop_start h
  obtain ⟨heap', p, block, hstore, hbuffer, hblock, htake, _⟩ := hfilled.terminate
  refine ⟨{ b' with heap := heap' }, p, block, ?_, hbuffer, hblock, htake⟩
  simp only at hmalloc hsize hcapacity
  subst hsize hcapacity
  simp [readAll, hmalloc, hloop, hstore, bind, Except.bind]

/-- **Without a buffer** the first store faults. The source does not look at the answer of the first
`malloc`. -/
theorem readAll_fault (h : Allocated malloc reads = false) :
    readAll malloc reads = .error .nullAccess := by
  cases malloc with
  | some g => cases reads with
    | nil => cases h
    | cons r reads => cases r <;> simp [Allocated] at h
  | none =>
    -- no block: the store of the NUL faults if nothing has faulted before
    have hstore : Heap.empty.store ⟨none, 0⟩ [0] = .error .nullAccess :=
      Heap.store_null (by decide)
    match reads with
    | [] | .error :: _ => rfl
    | .data chunk grant :: reads =>
      let b : Buffer := ⟨Heap.empty, none, 0, 16⟩
      suffices hloop : readLoop b (.data chunk grant :: reads) = .error .nullAccess
          ∨ readLoop b (.data chunk grant :: reads) = .ok b by
        rcases hloop with hloop | hloop
        · simp [readAll, Heap.realloc, b, hloop, bind, Except.bind]
        · simp [readAll, Heap.realloc, b, hloop, hstore, bind, Except.bind]
      by_cases hlong : 16 ≤ chunk.bytes.length
      · -- the `realloc` fails too, and the loop stops
        right
        have hgrant : grant = none := by simpa [Allocated, hlong] using h
        obtain ⟨next, hnext⟩ :
            ∃ next, nextCapacity 16 (chunk.bytes.length + 0 + 1) = next := ⟨_, rfl⟩
        have hrequired : chunk.bytes.length + 0 + 1 ≤ next :=
          hnext ▸ required_le_nextCapacity (by omega)
        have hne : next ≠ 16 := by omega
        rw [hgrant]
        exact readLoop_failed hnext hne rfl
      · -- a short chunk is copied to `NULL` without another `realloc`
        left
        have hfits : nextCapacity 16 (chunk.bytes.length + 0 + 1) = 16 :=
          nextCapacity_of_le (by omega)
        have hcopy : memcpy Heap.empty ⟨none, 0⟩ (.region chunk.bytes) chunk.bytes.length
            = .error .nullAccess := by
          rw [memcpy_region (Nat.le_refl _), List.take_length]
          exact Heap.store_null chunk.nonempty
        rw [readLoop_fits hfits]
        simp [Buffer.append, b, hcopy, bind, Except.bind]

end ReadAll

/-! ## The returned string

The caller gets a C string. It ends at the first NUL, which can be one that the child has printed.
-/

/-- Every read that fails comes after the last byte, and every `realloc` that a chunk needs
succeeds. -/
def Lossless (size capacity : Nat) : List ReadResult → Prop
  | [] => True
  | .error :: reads => output reads = []
  | .data chunk grant :: reads =>
    let next := nextCapacity capacity (chunk.bytes.length + size + 1)
    (next = capacity ∨ grant.isSome = true) ∧ Lossless (size + chunk.bytes.length) next reads

/-- What has been received is the beginning of the output. Induction on the reads. -/
theorem received_prefix (size capacity : Nat) (reads : List ReadResult) :
    received size capacity reads <+: output reads := by
  induction reads generalizing size capacity with
  | nil => exact List.prefix_rfl
  | cons r reads ih =>
    cases r with
    | error => exact List.nil_prefix
    | data chunk grant =>
      rw [received, output]
      split
      · exact List.nil_prefix
      · exact (List.prefix_append_right_inj chunk.bytes).mpr (ih _ _)

/-- The loop takes in the whole output exactly if nothing is lost. -/
theorem received_eq_output (size capacity : Nat) (reads : List ReadResult) :
    received size capacity reads = output reads ↔ Lossless size capacity reads := by
  induction reads generalizing size capacity with
  | nil => exact iff_of_true rfl trivial
  | cons r reads ih =>
    cases r with
    | error => exact eq_comm
    | data chunk grant =>
      rw [received, output, Lossless]
      split
      · next hfails =>
        -- the chunk itself is lost
        obtain ⟨hne, hnone⟩ := hfails
        have hlost : [] ≠ chunk.bytes ++ output reads := by
          intro heq
          exact chunk.nonempty (List.append_eq_nil_iff.mp heq.symm).1
        refine iff_of_false hlost fun hlossless => ?_
        rcases hlossless.1 with heq | hsome
        · exact hne heq
        · rw [Option.isSome_iff_ne_none] at hsome
          exact hsome (Option.isNone_iff_eq_none.mp hnone)
      · next hkeeps =>
        rw [List.append_right_inj, ih]
        have hgranted : nextCapacity capacity (chunk.bytes.length + size + 1) = capacity
            ∨ grant.isSome = true := by
          cases grant with
          | some g => exact Or.inr rfl
          | none =>
            left
            by_contra hne
            exact hkeeps ⟨hne, rfl⟩
        exact (and_iff_right hgranted).symm

/-- The string in a block that begins with the bytes and a NUL. -/
theorem cString_block {data block : List UInt8}
    (h : block.take (data.length + 1) = data ++ [0]) :
    0 ∈ block ∧ cString block = cString data := by
  have hsplit : block = data ++ 0 :: block.drop (data.length + 1) := by
    rw [← List.singleton_append, ← List.append_assoc, ← h, List.take_append_drop]
  rw [hsplit]
  refine ⟨by simp, ?_⟩
  unfold cString
  rw [List.takeWhile_append]
  split
  · next hlength =>
    have hall : data.takeWhile (fun b => decide (b ≠ 0)) = data :=
      List.IsPrefix.eq_of_length (List.takeWhile_prefix _) hlength
    rw [hall, List.takeWhile_cons_of_neg (by simp), List.append_nil]
  · rfl

/-- A prefix is, as a string, the whole exactly if it is the whole and has no NUL. -/
theorem cString_eq_iff {data whole : List UInt8} (hpre : data <+: whole) :
    cString data = whole ↔ data = whole ∧ 0 ∉ whole := by
  have hle : data.length ≤ whole.length := hpre.length_le
  have hstring : (cString data).length ≤ data.length := length_cString_le data
  constructor
  · intro heq
    have hdata : data = whole := hpre.eq_of_length (by rw [heq] at hstring; omega)
    refine ⟨hdata, fun hzero => ?_⟩
    rw [← heq, cString] at hzero
    simpa using List.mem_takeWhile_imp hzero
  · rintro ⟨rfl, hzero⟩
    rw [cString, List.takeWhile_eq_self_iff]
    intro b hb
    have hne : b ≠ 0 := ne_of_mem_of_not_mem hb hzero
    simpa using hne

/-! ## The contract

The output of a child that succeeded, as a whole, or `NULL`. -/

section Contract

variable {w : Answers}

/-- A failed `pipe2` or `fork` is reported by `NULL`. -/
theorem execPython_null (h : w.pipe2 = false ∨ w.fork = false) :
    execPython w = .ok (.empty, none) := by
  unfold execPython
  rcases h with h | h
  · simp [h]
  · by_cases hpipe : w.pipe2 = true <;> simp [h, hpipe]

/-- Without memory for the first buffer the NUL is stored through a null pointer. -/
theorem execPython_fault (hpipe : w.pipe2 = true) (hfork : w.fork = true)
    (halloc : Allocated w.malloc w.reads = false) : execPython w = .error .nullAccess := by
  simp [execPython, hpipe, hfork, readAll_fault halloc, bind, Except.bind]

/-- What comes back from a call that does not fault. -/
theorem execPython_ok (hpipe : w.pipe2 = true) (hfork : w.fork = true)
    (halloc : Allocated w.malloc w.reads = true) :
    (errorExit w.status = true → ∃ heap, execPython w = .ok (heap, none))
      ∧ (errorExit w.status = false → ∃ heap p block, execPython w = .ok (heap, some p)
        ∧ heap p = some block ∧ 0 ∈ block ∧ cString block = cString (received 0 16 w.reads)) := by
  obtain ⟨b, p, block, hread, hbuffer, hblock, htake⟩ := readAll_ok halloc
  constructor
  · intro herror
    refine ⟨Function.update b.heap p none, ?_⟩
    simp [execPython, hpipe, hfork, hread, herror, hbuffer, Heap.free, hblock, bind, Except.bind]
  · intro hnone
    obtain ⟨hzero, hstring⟩ := cString_block htake
    refine ⟨b.heap, p, block, ?_, hblock, hzero, hstring⟩
    simp [execPython, hpipe, hfork, hread, hnone, hbuffer, bind, Except.bind]

/-- The contract of a call that has read something and was told of no failure. -/
theorem meets_iff_of_ok (hpipe : w.pipe2 = true) (hfork : w.fork = true)
    (halloc : Allocated w.malloc w.reads = true) (hstatus : errorExit w.status = false) :
    Meets w ↔ exitedZero w.childStatus = true ∧ Lossless 0 16 w.reads ∧ 0 ∉ output w.reads := by
  obtain ⟨heap, p, block, hexec, hblock, hzero, hstring⟩ :=
    (execPython_ok hpipe hfork halloc).2 hstatus
  have hpre : received 0 16 w.reads <+: output w.reads := received_prefix 0 16 w.reads
  rw [Meets, hexec, ← received_eq_output, ← cString_eq_iff hpre, ← hstring]
  constructor
  · rintro ⟨hexited, block', hblock', _, heq⟩
    rw [hblock] at hblock'
    cases hblock'
    exact ⟨hexited, heq⟩
  · rintro ⟨hexited, heq⟩
    exact ⟨hexited, block, hblock, hzero, heq⟩

/-- **Partial output.** `exec_python` meets its contract exactly if it cannot start the child,
or it gets memory and either is told that the child failed, or the child succeeded, nothing of
its output was lost and there is no NUL in it. That the sizes are numbers makes no difference, by
`readLoop64_refines`. -/
theorem execPython_iff (w : Answers) :
    Meets w ↔ w.pipe2 = false ∨ w.fork = false
      ∨ (Allocated w.malloc w.reads = true
        ∧ (errorExit w.status = true
          ∨ (exitedZero w.childStatus = true ∧ Lossless 0 16 w.reads
            ∧ 0 ∉ output w.reads))) := by
  cases hpipe : w.pipe2 with
  | false =>
    have hmeets : Meets w := by
      rw [Meets, execPython_null (Or.inl hpipe)]
      trivial
    exact iff_of_true hmeets (Or.inl rfl)
  | true =>
    cases hfork : w.fork with
    | false =>
      have hmeets : Meets w := by
        rw [Meets, execPython_null (Or.inr hfork)]
        trivial
      exact iff_of_true hmeets (Or.inr (Or.inl rfl))
    | true =>
      cases halloc : Allocated w.malloc w.reads with
      | false =>
        -- no buffer: the call faults
        have hfaults : ¬ Meets w := by
          rw [Meets, execPython_fault hpipe hfork halloc]
          exact id
        exact iff_of_false hfaults (by simp)
      | true =>
        cases hstatus : errorExit w.status with
        | true =>
          obtain ⟨heap, hexec⟩ := (execPython_ok hpipe hfork halloc).1 hstatus
          have hmeets : Meets w := by
            rw [Meets, hexec]
            trivial
          exact iff_of_true hmeets (by simp)
        | false =>
          rw [meets_iff_of_ok hpipe hfork halloc hstatus]
          simp

end Contract

/-- The child prints `abc` and succeeds; the second of three reads is interrupted. -/
def interrupted : Answers where
  pipe2 := true
  fork := true
  malloc := some (0, fun _ => 0)
  reads := [.data ⟨[97, 98], by decide, by decide⟩ none, .error,
    .data ⟨[99], by decide, by decide⟩ none]
  childStatus := 0
  waitFailed := none

/-- `exec_python` returns `ab`. -/
theorem not_meets_interrupted :
    output interrupted.reads = [97, 98, 99] ∧ ¬ Meets interrupted
      ∧ ∃ heap p block, execPython interrupted = .ok (heap, some p) ∧ heap p = some block
        ∧ cString block = [97, 98] := by
  refine ⟨rfl, ?_, ?_⟩
  · rw [meets_iff_of_ok rfl rfl rfl (by decide)]
    rintro ⟨_, ⟨_, hlossless⟩, _⟩
    cases hlossless
  · obtain ⟨heap, p, block, hexec, hblock, _, hstring⟩ :=
      (execPython_ok (w := interrupted) rfl rfl rfl).2 (by decide)
    exact ⟨heap, p, block, hexec, hblock, hstring.trans (by decide)⟩

end HseDev.Sem16
