import HseDev.Sem16.ExecPython

/-!
# HseDev — `read_all` of `sem16`, in `size_t`

The three programs of `sem16` share `read_all`. Here its sizes are 64-bit words: a doubling that
runs past `2 ^ 64` ends in a capacity of `0`, and then the inner loop does not end at all.

* **`Doubled`** — a number doubled until it reaches a bound, and no further; there is only one
  (`Doubled.unique`). Both capacity loops compute it, the 64-bit one up to `2 ^ 63`.
* **`readLoop64_refines`** — up to there the loop with words and the loop with numbers do the
  same, and **`Grown`** holds wherever the loop begins a round. What `execPython_iff` says with
  numbers therefore holds of the code with its words.
* **`readAll_whole`** — the whole stream comes back, with a NUL behind it.
-/

namespace HseDev.Sem16

open BlockHeap

/-! ## The function -/

/-- The variables of `read_all`. -/
structure Buffer64 where
  heap : Heap
  buffer : Option Nat
  size : UInt64
  capacity : UInt64

/-- The same buffer with its sizes as numbers. -/
def Buffer64.sizes (b : Buffer64) : Buffer :=
  ⟨b.heap, b.buffer, b.size.toNat, b.capacity.toNat⟩

/-- `while (next_capacity < required_capacity) next_capacity *= 2;` -/
def nextCapacityLoop64 : Nat → UInt64 → UInt64 → Option UInt64
  | 0, _, _ => none
  | fuel + 1, nextCapacity, requiredCapacity =>
    if nextCapacity < requiredCapacity then
      nextCapacityLoop64 fuel (nextCapacity * 2) requiredCapacity
    else some nextCapacity

/-- After 64 doublings the capacity is `0` and stays so: `none` is a loop that does not end. -/
def nextCapacity64 (capacity requiredCapacity : UInt64) : Option UInt64 :=
  nextCapacityLoop64 65 capacity requiredCapacity

/-- Why the function does not come to its end: a fault, or a loop that does not end. -/
abbrev Stuck := Option Fault

def Stuck.of {α : Type} : Except Fault α → Except Stuck α
  | .ok a => .ok a
  | .error fault => .error (some fault)

/-- `memcpy(buffer + size, tmp, (size_t)r); size += (size_t)r;` -/
def Buffer64.append (b : Buffer64) (tmp : List UInt8) : Except Fault Buffer64 := do
  let heap ← memcpy b.heap ⟨b.buffer, b.size.toNat⟩ (.region tmp) tmp.length
  .ok { b with heap, size := b.size + UInt64.ofNat tmp.length }

/-- One round of `while (1)`, and whether another one follows. -/
def readRound64 (b : Buffer64) : ReadResult → Except Stuck (Buffer64 × Bool)
  | .error => .ok (b, false)
  | .data chunk grant =>
    match nextCapacity64 b.capacity (UInt64.ofNat chunk.bytes.length + b.size + 1) with
    | none => .error none
    | some next =>
      if next ≠ b.capacity then do
        let (heap, nextBuf) ← Stuck.of (b.heap.realloc b.buffer next.toNat grant)
        match nextBuf with
        | none => .ok ({ b with heap }, false)
        | some _ =>
          let b ← Stuck.of
            (Buffer64.append { b with heap, buffer := nextBuf, capacity := next } chunk.bytes)
          .ok (b, true)
      else do
        let b ← Stuck.of (b.append chunk.bytes)
        .ok (b, true)

/-- The end of the list is the end of the file. -/
def readLoop64 (b : Buffer64) : List ReadResult → Except Stuck Buffer64
  | [] => .ok b
  | r :: reads => do
    let (b, more) ← readRound64 b r
    if more then readLoop64 b reads else .ok b

/-- The buffer and `*r_size`, if `r_size` is not `NULL`. -/
def readAll64 (malloc : Grant) (reads : List ReadResult) (rSize : Option UInt64) :
    Except Stuck (Buffer64 × Option UInt64) := do
  let (heap, buffer) ← Stuck.of (Heap.empty.realloc none 16 malloc)
  let b ← readLoop64 { heap, buffer, size := 0, capacity := 16 } reads
  let heap ← Stuck.of (b.heap.store ⟨b.buffer, b.size.toNat⟩ [0])
  .ok ({ b with heap }, rSize.map fun _ => b.size)

/-! ## Doubling

What the inner loop computes, without the loop: the first of the doubled capacities that suffices.
-/

/-- `n` is `c` doubled until it reaches `r`, and no further. -/
def Doubled (c r n : Nat) : Prop :=
  ∃ j, n = c * 2 ^ j ∧ r ≤ n ∧ ∀ i, i < j → c * 2 ^ i < r

variable {c r n m : Nat}

/-- A capacity that suffices is not doubled. -/
theorem Doubled.refl (h : r ≤ c) : Doubled c r c :=
  ⟨0, (Nat.mul_one c).symm, h, fun _ hi => absurd hi (Nat.not_lt_zero _)⟩

/-- A capacity that does not suffice is doubled once, and then as often as the double is. -/
theorem Doubled.double (hlt : c < r) (h : Doubled (c * 2) r n) : Doubled c r n := by
  obtain ⟨j, hn, hr, hbelow⟩ := h
  refine ⟨j + 1, ?_, hr, ?_⟩
  · rw [hn, Nat.mul_assoc, ← Nat.pow_succ']
  · intro i hi
    cases i with
    | zero =>
      rw [Nat.pow_zero, Nat.mul_one]
      exact hlt
    | succ i =>
      have hlast := hbelow i (Nat.lt_of_succ_lt_succ hi)
      rw [Nat.mul_assoc, ← Nat.pow_succ'] at hlast
      exact hlast

/-- There is only one such number, so two loops that compute one agree. -/
theorem Doubled.unique (h : Doubled c r n) (h' : Doubled c r m) : n = m := by
  obtain ⟨j, hn, hr, hbelow⟩ := h
  obtain ⟨j', hm, hr', hbelow'⟩ := h'
  rcases Nat.lt_trichotomy j j' with hlt | heq | hgt
  · exact absurd (hn ▸ hbelow' j hlt) (Nat.not_lt.mpr hr)
  · rw [hn, hm, heq]
  · exact absurd (hm ▸ hbelow j' hgt) (Nat.not_lt.mpr hr')

/-- The last doubling started below the bound. -/
theorem Doubled.lt (h : Doubled c r n) : n = c ∨ n < 2 * r := by
  obtain ⟨j, hn, _, hbelow⟩ := h
  cases j with
  | zero => exact Or.inl (by rw [hn, Nat.pow_zero, Nat.mul_one])
  | succ j =>
    have hlast := hbelow j (Nat.lt_succ_self j)
    rw [Nat.pow_succ, ← Nat.mul_assoc] at hn
    exact Or.inr (by omega)

/-- The loop over numbers computes it. Induction on the fuel. -/
theorem nextCapacityLoop_doubled (fuel : Nat) (hpos : 0 < c) (hfuel : r ≤ c + fuel) :
    Doubled c r (nextCapacityLoop fuel c r) := by
  induction fuel generalizing c with
  | zero => exact .refl hfuel
  | succ fuel ih =>
    unfold nextCapacityLoop
    by_cases hlt : c < r
    · rw [if_pos hlt]
      exact .double hlt (ih (by omega) (by omega))
    · rw [if_neg hlt]
      exact .refl (Nat.le_of_not_lt hlt)

/-- With the fuel that the function has. -/
theorem nextCapacity_doubled (hpos : 0 < c) : Doubled c r (nextCapacity c r) :=
  nextCapacityLoop_doubled r hpos (Nat.le_add_left r c)

/-- Below `2 ^ 63` no doubling wraps around. -/
theorem nextCapacityLoop64_doubled (fuel : Nat) {c r : UInt64} (hr : r.toNat ≤ 2 ^ 63)
    (hpos : 0 < c.toNat) (hfuel : r.toNat ≤ c.toNat * 2 ^ fuel) :
    ∃ n, nextCapacityLoop64 (fuel + 1) c r = some n ∧ Doubled c.toNat r.toNat n.toNat := by
  induction fuel generalizing c with
  | zero =>
    rw [Nat.pow_zero, Nat.mul_one] at hfuel
    have hnot : ¬ c < r := by
      rw [UInt64.lt_iff_toNat_lt]
      exact Nat.not_lt.mpr hfuel
    exact ⟨c, if_neg hnot, .refl hfuel⟩
  | succ fuel ih =>
    unfold nextCapacityLoop64
    by_cases hlt : c < r
    · -- `c < 2 ^ 63`, so `c * 2` is the product
      have hltNat : c.toNat < r.toNat := UInt64.lt_iff_toNat_lt.mp hlt
      have hdouble : (c * 2).toNat = c.toNat * 2 := by
        rw [UInt64.toNat_mul]
        exact Nat.mod_eq_of_lt (by show c.toNat * 2 < 2 ^ 64; omega)
      have hnext : r.toNat ≤ (c * 2).toNat * 2 ^ fuel := by
        rw [hdouble, Nat.mul_assoc, ← Nat.pow_succ']
        exact hfuel
      obtain ⟨n, hloop, hn⟩ := ih (by omega) hnext
      rw [hdouble] at hn
      rw [if_pos hlt]
      exact ⟨n, hloop, .double hltNat hn⟩
    · rw [if_neg hlt]
      exact ⟨c, rfl, .refl (Nat.le_of_not_lt fun h => hlt (UInt64.lt_iff_toNat_lt.mpr h))⟩

theorem nextCapacity64_eq {c r : UInt64} (hr : r.toNat ≤ 2 ^ 63) (hpos : 0 < c.toNat) :
    ∃ n, nextCapacity64 c r = some n ∧ n.toNat = nextCapacity c.toNat r.toNat := by
  have hfuel : r.toNat ≤ c.toNat * 2 ^ 64 := by omega
  obtain ⟨n, hloop, hn⟩ := nextCapacityLoop64_doubled 64 hr hpos hfuel
  exact ⟨n, hloop, hn.unique (nextCapacity_doubled hpos)⟩

/-! ## The growth

Capacities are sixteen times a power of two. That is why the doubling of a word does not jump over
`2 ^ 63` to something that is not a power of two. -/

/-- **The capacity**: 16 doubled some times, and no more than the bytes so far asked for. -/
structure Grown (b : Buffer) : Prop where
  pow : ∃ k, b.capacity = 16 * 2 ^ k
  lt : b.capacity = 16 ∨ b.capacity < 2 * (b.size + 1)

/-- Doubling a capacity of this form leads to one of this form. -/
theorem Doubled.pow (h : Doubled c r n) (hc : ∃ k, c = 16 * 2 ^ k) : ∃ k, n = 16 * 2 ^ k := by
  obtain ⟨j, hn, _, _⟩ := h
  obtain ⟨k, hk⟩ := hc
  refine ⟨k + j, ?_⟩
  rw [hn, hk, Nat.mul_assoc, ← Nat.pow_add]

/-- What a round does to the capacity and the size. -/
theorem Grown.round {b b' : Buffer} {len : Nat} (h : Grown b) (hpos : 0 < b.capacity)
    (hcapacity : b'.capacity = nextCapacity b.capacity (len + b.size + 1))
    (hsize : b'.size = b.size + len) : Grown b' := by
  have hdoubled : Doubled b.capacity (len + b.size + 1) b'.capacity :=
    hcapacity ▸ nextCapacity_doubled hpos
  refine ⟨hdoubled.pow h.pow, ?_⟩
  have hlt := h.lt
  cases hdoubled.lt with
  | inl hsame => omega
  | inr hless =>
    right
    omega

/-! ## Words and numbers

One round over words, against the same round over numbers. -/

variable {b : Buffer64} {b' : Buffer} {tmp data : List UInt8} {chunk : Chunk}

theorem sizes_append (hroom : b.size.toNat + tmp.length < 2 ^ 64)
    (h : b.sizes.append tmp = .ok b') : ∃ b₁, b.append tmp = .ok b₁ ∧ b₁.sizes = b' := by
  have hsize : (b.size + UInt64.ofNat tmp.length).toNat = b.size.toNat + tmp.length := by
    rw [UInt64.toNat_add, UInt64.toNat_ofNat_of_lt' (by show tmp.length < 2 ^ 64; omega)]
    exact Nat.mod_eq_of_lt hroom
  have happend : b.sizes.append tmp = (memcpy b.heap ⟨b.buffer, b.size.toNat⟩ (.region tmp)
      tmp.length).map fun heap =>
        ⟨heap, b.buffer, b.size.toNat + tmp.length, b.capacity.toNat⟩ := by
    unfold Buffer.append
    show (memcpy b.heap ⟨b.buffer, b.size.toNat⟩ (.region tmp) tmp.length >>= _) = _
    cases memcpy b.heap ⟨b.buffer, b.size.toNat⟩ (.region tmp) tmp.length <;> rfl
  rw [happend] at h
  unfold Buffer64.append
  cases hcopy : memcpy b.heap ⟨b.buffer, b.size.toNat⟩ (.region tmp) tmp.length with
  | error fault =>
    rw [hcopy] at h
    cases h
  | ok heap =>
    rw [hcopy] at h
    cases h
    refine ⟨{ b with heap, size := b.size + UInt64.ofNat tmp.length }, rfl, ?_⟩
    unfold Buffer64.sizes
    rw [← hsize]

/-- `r + size + 1`, where it does not wrap around. -/
theorem toNat_required {len : Nat} {size : UInt64} (h : len + size.toNat + 1 ≤ 2 ^ 63) :
    (UInt64.ofNat len + size + 1).toNat = len + size.toNat + 1 := by
  have hlen : (UInt64.ofNat len).toNat = len :=
    UInt64.toNat_ofNat_of_lt' (by show len < 2 ^ 64; omega)
  have hone : (1 : UInt64).toNat = 1 := rfl
  rw [UInt64.toNat_add, UInt64.toNat_add, hlen, hone]
  omega

/-- What a round comes to: the chunk is in the buffer and the loop goes on, or it ends because
the `realloc` has failed. The loop with numbers does the same. -/
inductive Rounded (b : Buffer64) (data : List UInt8) (chunk : Chunk) (grant : Grant) :
    Buffer64 × Bool → Prop where
  | goes (b₁ : Buffer64) (hfilled : Filled b₁.sizes (data ++ chunk.bytes))
      (hnumbers : ∀ reads, readLoop b.sizes (.data chunk grant :: reads) = readLoop b₁.sizes reads)
      (hgrown : Grown b₁.sizes) : Rounded b data chunk grant (b₁, true)
  | ends (hgrant : grant = none)
      (hnumbers : ∀ reads, readLoop b.sizes (.data chunk grant :: reads) = .ok b.sizes) :
      Rounded b data chunk grant (b, false)

/-- As long as the data stays below `2 ^ 63` bytes the two rounds do the same, for every answer of
`realloc`. -/
theorem readRound64_spec (h : Filled b.sizes data) (hgrown : Grown b.sizes) (grant : Grant)
    (hsize : data.length + chunk.bytes.length + 1 ≤ 2 ^ 63) :
    ∃ res, readRound64 b (.data chunk grant) = .ok res ∧ Rounded b data chunk grant res := by
  have hdata : b.size.toNat = data.length := h.size
  have hpos : 0 < b.capacity.toNat := Nat.zero_lt_of_lt h.room
  have hbound : chunk.bytes.length + b.size.toNat + 1 ≤ 2 ^ 63 := by omega
  obtain ⟨next, hloop, hnext⟩ := nextCapacity64_eq (toNat_required hbound ▸ hbound) hpos
  rw [toNat_required hbound] at hnext
  have hrequired : chunk.bytes.length + b.size.toNat + 1 ≤ next.toNat :=
    hnext ▸ required_le_nextCapacity hpos
  unfold readRound64
  simp only [hloop]
  by_cases hgrow : next = b.capacity
  · -- the chunk fits
    subst hgrow
    have hroom : data.length + chunk.bytes.length < b.sizes.capacity := by
      show data.length + chunk.bytes.length < b.capacity.toNat
      omega
    obtain ⟨b', happend, hfilled, hcapacity⟩ := h.append hroom
    obtain ⟨b₁, happend₁, hb₁⟩ := sizes_append (by omega) happend
    subst hb₁
    rw [if_neg (not_not_intro rfl), happend₁]
    refine ⟨(b₁, true), rfl, .goes b₁ hfilled ?_ ?_⟩
    · intro reads
      rw [readLoop_fits hnext.symm, happend]
      rfl
    · apply hgrown.round hpos (hcapacity.trans hnext)
      rw [hfilled.size, h.size, List.length_append]
  · have hne : next.toNat ≠ b.sizes.capacity := fun heq => hgrow (UInt64.toNat_inj.mp heq)
    rw [if_pos hgrow]
    cases grant with
    | none =>
      -- the `realloc` fails: the loop ends with what the buffer holds
      obtain ⟨p, block, hbuffer, hblock, _⟩ := h.block
      have hzero : next.toNat ≠ 0 := by omega
      have hfails : b.heap.realloc b.buffer next.toNat none = .ok (b.heap, none) := by
        rw [show b.buffer = some p from hbuffer, Heap.realloc,
          show b.heap p = some block from hblock]
        simp only [if_neg hzero]
      rw [hfails]
      exact ⟨(b, false), rfl, .ends rfl fun reads => readLoop_failed hnext.symm hne hfails⟩
    | some g =>
      -- the block moves, and what it held moves with it
      obtain ⟨c, fresh⟩ := g
      have hle : b.sizes.capacity ≤ next.toNat := hnext ▸ le_nextCapacity _ _
      obtain ⟨heap, hgrants, hgrown₁⟩ := h.grow c fresh hle
      have hroom : data.length + chunk.bytes.length < next.toNat := by omega
      obtain ⟨b', happend, hfilled, hcapacity⟩ := hgrown₁.append hroom
      obtain ⟨b₁, happend₁, hb₁⟩ :=
        sizes_append (b := ⟨heap, some c, b.size, next⟩)
          (by show b.size.toNat + _ < _; omega) happend
      subst hb₁
      rw [show b.heap.realloc b.buffer next.toNat (some (c, fresh)) = _ from hgrants]
      show ∃ res, (do let b ← Stuck.of (Buffer64.append ⟨heap, some c, b.size, next⟩ chunk.bytes)
                      .ok (b, true)) = _ ∧ _
      rw [happend₁]
      refine ⟨(b₁, true), rfl, .goes b₁ hfilled ?_ ?_⟩
      · intro reads
        rw [readLoop_granted hnext.symm hne hgrants, happend]
        rfl
      · apply hgrown.round hpos (hcapacity.trans hnext)
        rw [hfilled.size, h.size, List.length_append]

/-! ## The loop

Round by round the two loops do the same. A round that ends the one ends the other. -/

/-- A round that goes on is one step of the loop. -/
theorem readLoop64_goes {b₁ : Buffer64} {r : ReadResult} {reads : List ReadResult}
    (h : readRound64 b r = .ok (b₁, true)) : readLoop64 b (r :: reads) = readLoop64 b₁ reads := by
  show (readRound64 b r >>= fun x => if x.2 then readLoop64 x.1 reads else .ok x.1) = _
  rw [h]
  rfl

/-- A round that does not is its last. -/
theorem readLoop64_ends {b₁ : Buffer64} {r : ReadResult} {reads : List ReadResult}
    (h : readRound64 b r = .ok (b₁, false)) : readLoop64 b (r :: reads) = .ok b₁ := by
  show (readRound64 b r >>= fun x => if x.2 then readLoop64 x.1 reads else .ok x.1) = _
  rw [h]
  rfl

/-- **The loop with words does what the loop with numbers does**, failures included, as long as
the output stays below `2 ^ 63` bytes. Induction on the reads. -/
theorem readLoop64_refines (reads : List ReadResult) :
    ∀ (b : Buffer64) (data : List UInt8), Filled b.sizes data → Grown b.sizes →
      (data ++ output reads).length + 1 ≤ 2 ^ 63 →
      ∃ b₁, readLoop64 b reads = .ok b₁ ∧ readLoop b.sizes reads = .ok b₁.sizes
        ∧ Grown b₁.sizes := by
  induction reads with
  | nil => exact fun b _ _ hgrown _ => ⟨b, rfl, rfl, hgrown⟩
  | cons r reads ih =>
    intro b data h hgrown hsize
    cases r with
    | error => exact ⟨b, rfl, rfl, hgrown⟩
    | data chunk grant =>
      unfold output at hsize
      have hround : data.length + chunk.bytes.length + 1 ≤ 2 ^ 63 := by
        rw [List.length_append, List.length_append] at hsize
        omega
      obtain ⟨res, hres, hrounded⟩ := readRound64_spec h hgrown grant hround
      cases hrounded with
      | goes b₁ hfilled hnumbers hgrown₁ =>
        rw [← List.append_assoc] at hsize
        rw [readLoop64_goes hres, hnumbers]
        exact ih b₁ _ hfilled hgrown₁ hsize
      | ends _ hnumbers =>
        rw [readLoop64_ends hres, hnumbers]
        exact ⟨b, rfl, rfl, hgrown⟩

/-- Chunks whose `realloc`, if they need one, succeeds. -/
abbrev Granted := Chunk × Nat × (Nat → UInt8)

def granted (chunks : List Granted) : List ReadResult :=
  chunks.map fun c => .data c.1 (some c.2)

/-- The concatenation of the chunks. -/
def stream (chunks : List Granted) : List UInt8 :=
  chunks.flatMap fun c => c.1.bytes

/-- **Where the loop begins a round**: with all chunks before it in the buffer. Induction on
these. -/
theorem readLoop64_heads (chunks : List Granted) (rest : List ReadResult) :
    ∀ (b : Buffer64) (data : List UInt8), Filled b.sizes data → Grown b.sizes →
      (data ++ stream chunks).length + 1 ≤ 2 ^ 63 →
      ∃ b₁, readLoop64 b (granted chunks) = .ok b₁
        ∧ readLoop64 b (granted chunks ++ rest) = readLoop64 b₁ rest
        ∧ Filled b₁.sizes (data ++ stream chunks) ∧ Grown b₁.sizes := by
  induction chunks with
  | nil =>
    intro b data h hgrown _
    exact ⟨b, rfl, rfl, (List.append_nil data).symm ▸ h, hgrown⟩
  | cons c chunks ih =>
    intro b data h hgrown hsize
    have hstream : stream (c :: chunks) = c.1.bytes ++ stream chunks := List.flatMap_cons
    rw [hstream, ← List.append_assoc] at hsize ⊢
    have hround : data.length + c.1.bytes.length + 1 ≤ 2 ^ 63 := by
      rw [List.length_append, List.length_append] at hsize
      omega
    obtain ⟨res, hres, hrounded⟩ := readRound64_spec h hgrown (some c.2) hround
    cases hrounded with
    | goes b₁ hfilled _ hgrown₁ =>
      obtain ⟨b₂, hloop, hrest, hdone⟩ := ih b₁ _ hfilled hgrown₁ hsize
      exact ⟨b₂, (readLoop64_goes hres).trans hloop, (readLoop64_goes hres).trans hrest, hdone⟩
    | ends hgrant => cases hgrant

/-! ## The whole of `read_all`

The stream is delivered in chunks, each with the memory that it needs. At every head of the loop the
buffer holds the chunks so far. -/

/-- The variables before the loop, with the block of `malloc`. -/
def start64 (malloc : Nat × (Nat → UInt8)) : Buffer64 where
  heap := Function.update Heap.empty malloc.1 (some (resize [] 16 malloc.2))
  buffer := some malloc.1
  size := 0
  capacity := 16

/-- At the start the buffer holds nothing. -/
theorem start64_filled (malloc : Nat × (Nat → UInt8)) : Filled (start64 malloc).sizes [] :=
  filled_fresh malloc.1 16 malloc.2 (by decide)

theorem start64_grown (malloc : Nat × (Nat → UInt8)) : Grown (start64 malloc).sizes :=
  ⟨⟨0, rfl⟩, Or.inl rfl⟩

/-- What holds at a loop head after the chunks `before`. -/
structure AtHead (malloc : Nat × (Nat → UInt8)) (before after : List Granted) (b : Buffer64) :
    Prop where
  reached : readLoop64 (start64 malloc) (granted before) = .ok b
  goes_on : readLoop64 (start64 malloc) (granted (before ++ after)) = readLoop64 b (granted after)
  size : b.size.toNat = (stream before).length
  capacity : ∃ k, b.capacity.toNat = 16 * 2 ^ k
  room : b.size.toNat + 1 ≤ b.capacity.toNat
  /-- the block that is written to has `capacity` bytes -/
  block : ∃ p block, b.buffer = some p ∧ b.heap p = some block ∧ block.length = b.capacity.toNat

/-- What `read_all` returns for the chunks. -/
structure Whole (chunks : List Granted) (b : Buffer64) : Prop where
  size : b.size.toNat = (stream chunks).length
  block : ∃ p block, b.buffer = some p ∧ b.heap p = some block ∧ block.length = b.capacity.toNat
    ∧ block.take (b.size.toNat + 1) = stream chunks ++ [0]
  capacity : b.capacity = 16 ∨ b.capacity.toNat < 2 * (b.size.toNat + 1)

/-- However the chunks are split, there is a head of the loop between the two parts. -/
theorem head_of_split (malloc : Nat × (Nat → UInt8)) (before after : List Granted)
    (hsize : (stream (before ++ after)).length + 1 ≤ 2 ^ 63) :
    ∃ b, AtHead malloc before after b := by
  have hbefore : ([] ++ stream before).length + 1 ≤ 2 ^ 63 := by
    have hsplit : stream (before ++ after) = stream before ++ stream after := List.flatMap_append
    rw [hsplit, List.length_append] at hsize
    rw [List.nil_append]
    omega
  obtain ⟨b, hloop, hrest, hfilled, hgrown⟩ := readLoop64_heads before (granted after) _ _
    (start64_filled malloc) (start64_grown malloc) hbefore
  obtain ⟨p, block, hbuffer, hblock, hlength, _⟩ := hfilled.block
  have hsplit : granted (before ++ after) = granted before ++ granted after := List.map_append
  have hroom : (stream before).length < b.capacity.toNat := hfilled.room
  have hcount : b.size.toNat = (stream before).length := hfilled.size
  exact ⟨b, hloop, hsplit ▸ hrest, hcount, hgrown.pow, hcount ▸ hroom, p, block, hbuffer, hblock,
    hlength⟩

/-- The function returns the stream with its size, if the caller has asked for it. -/
theorem readAll64_returns (malloc : Nat × (Nat → UInt8)) (chunks : List Granted)
    (rSize : Option UInt64) (hsize : (stream chunks).length + 1 ≤ 2 ^ 63) :
    ∃ b, readAll64 (some malloc) (granted chunks) rSize = .ok (b, rSize.map fun _ => b.size)
      ∧ Whole chunks b := by
  obtain ⟨b, hloop, _, hfilled, hgrown⟩ := readLoop64_heads chunks [] _ _
    (start64_filled malloc) (start64_grown malloc) hsize
  obtain ⟨heap, p, block, hstore, hbuffer, hblock, htake, hlength⟩ := hfilled.terminate
  have hcount : b.size.toNat = (stream chunks).length := hfilled.size
  refine ⟨{ b with heap }, ?_, hcount, ⟨p, block, hbuffer, hblock, hlength, ?_⟩, ?_⟩
  · show (do let b ← readLoop64 (start64 malloc) (granted chunks)
             let heap ← Stuck.of (b.heap.store ⟨b.buffer, b.size.toNat⟩ [0])
             .ok ({ b with heap }, rSize.map fun _ => b.size)) = _
    rw [hloop]
    show (do let heap ← Stuck.of (b.heap.store ⟨b.buffer, b.size.toNat⟩ [0])
             .ok ({ b with heap }, rSize.map fun _ => b.size)) = _
    rw [show b.heap.store ⟨b.buffer, b.size.toNat⟩ [0] = .ok heap from hstore]
    rfl
  · show block.take (b.size.toNat + 1) = _
    rw [hcount]
    exact htake
  · cases hgrown.lt with
    | inl hstart => exact Or.inl (UInt64.toNat_inj.mp hstart)
    | inr hlt => exact Or.inr hlt

/-- **`read_all` collects the whole stream**, within the capacity in every round. Whatever the sizes
of the chunks are. At the head of every round what has been read so far is in the buffer, and there
is room for a byte behind it. -/
theorem readAll_whole (malloc : Nat × (Nat → UInt8)) (chunks : List Granted)
    (rSize : Option UInt64) (hsize : (stream chunks).length + 1 ≤ 2 ^ 63) :
    (∃ b, readAll64 (some malloc) (granted chunks) rSize = .ok (b, rSize.map fun _ => b.size)
      ∧ Whole chunks b)
    ∧ ∀ before after, chunks = before ++ after → ∃ b, AtHead malloc before after b := by
  refine ⟨readAll64_returns malloc chunks rSize hsize, ?_⟩
  intro before after hsplit
  exact head_of_split malloc before after (hsplit ▸ hsize)

/-- Two chunks that fill 15 bytes, and the NUL behind them. -/
theorem readAll_whole_fifteen : ∃ b,
    readAll64 (some (0, fun _ => 0))
      (granted [(⟨[97, 98], by decide, by decide⟩, 1, fun _ => 0),
        (⟨List.replicate 13 99, by decide, by decide⟩, 2, fun _ => 0)]) (some 7)
      = .ok (b, some b.size) ∧ b.size.toNat = 15 := by
  obtain ⟨⟨b, hread, hwhole⟩, _⟩ := readAll_whole (0, fun _ => 0)
    [(⟨[97, 98], by decide, by decide⟩, 1, fun _ => 0),
      (⟨List.replicate 13 99, by decide, by decide⟩, 2, fun _ => 0)] (some 7) (by decide)
  exact ⟨b, hread, hwhole.size⟩

end HseDev.Sem16
