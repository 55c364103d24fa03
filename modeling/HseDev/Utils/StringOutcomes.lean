import HseDev.Utils.StringInvariant

/-!
# HseDev — every way out of a reservation and of an append's growth

The lemmas of `StringInvariant` are about sizes that do not wrap. Here are the same
functions over all of `size_t`.

* **`Reserved`**, **`stringReserve_outcome`** — what `string_reserve` comes back with on a
  string that holds its content: besides the three ways out of an ordinary request, the two
  of the request for `SIZE_MAX`, whose `n + 1` is `0`.
* **`appendGrow`**, **`stringAppendBuffer_eq`** — `string_append_buffer` cut before its
  `memcpy`.
* **`Grew`**, **`appendGrow_outcome`** — what the part before the cut comes back with;
  **`stringAppendBuffer_cases`** is what this comes to when no size wraps.
* **`appendCopy_fits`**, **`appendCopy_obj`** — what a copy that returns has needed and done.
-/

namespace HseDev.Utils

open BlockHeap

/-! ## `string_reserve` -/

section Reserve

variable {m : Mem} {s : StringT} {content : List UInt8}

/-- The results of `string_reserve(s, n)` on a string that holds `content`. -/
inductive Reserved (m : Mem) (s : StringT) (content : List UInt8) (n : UInt64) (g : Grant) :
    Int32 × Mem → Prop where
  | covered (hle : n ≤ s.capacity) : Reserved m s content n g (-1, m)
  | failed (hlt : s.capacity < n) (hg : g = none) (hsize : n + 1 ≠ 0 ∨ s.data = none) :
      Reserved m s content n g (-1, m)
  | granted (hlt : s.capacity < n) (hsize : n + 1 ≠ 0) {b : Nat} {fresh : Nat → UInt8}
      {heap : Heap} {block : List UInt8} (hg : g = some (b, fresh))
      (howns : Owns heap { s with data := some b, capacity := n } b block content)
      (hmoved : ∀ b₀, s.data = some b₀ → b₀ ≠ b → heap b₀ = none) :
      Reserved m s content n g
        (0, { m with heap, s := some { s with data := some b, capacity := n } })
  | freed (hlt : s.capacity < n) (hsize : n + 1 = 0) {b : Nat} (hdata : s.data = some b) :
      Reserved m s content n g (-1, { m with heap := Function.update m.heap b none })
  | empty (hlt : s.capacity < n) (hsize : n + 1 = 0) (hdata : s.data = none) {b : Nat}
      {fresh : Nat → UInt8} (hg : g = some (b, fresh)) :
      Reserved m s content n g
        (0, { m with
          heap := Function.update m.heap b (some [])
          s := some { s with data := some b, capacity := n } })

/-- **`string_reserve` over all of `size_t`.** One of five things happens, with the guard of each:
covered already, refused, granted, and the two ways out of a request for `SIZE_MAX`, with a block
and without one. -/
theorem stringReserve_outcome (hs : m.s = some s) (hold : Holds m.heap s content) (n : UInt64)
    (g : Grant) : ∃ out, stringReserve m n g = .ok out ∧ Reserved m s content n g out := by
  by_cases hle : n ≤ s.capacity
  · exact ⟨_, stringReserve_of_le hs hle g, .covered hle⟩
  have hlt := UInt64.not_le.mp hle
  by_cases hsize : n + 1 = 0
  · cases hold with
    | blank hblank _ =>
      have hdata : s.data = none := by rw [hblank]; rfl
      cases g with
      | none => exact ⟨_, stringReserve_null hs hdata hlt, .failed hlt rfl (.inr hdata)⟩
      | some grant =>
        refine ⟨_, ?_, .empty hlt hsize hdata rfl⟩
        rw [stringReserve_fresh hs hdata hlt grant.1 grant.2, hsize]
        rfl
    | owned howns =>
      exact ⟨_, stringReserve_freed hs howns.data howns.live hlt hsize g,
        .freed hlt hsize howns.data⟩
  · have hwrap := toNat_add_one_lt hsize
    cases g with
    | none => exact ⟨_, stringReserve_failed hs hold hlt hwrap, .failed hlt rfl (.inl hsize)⟩
    | some grant =>
      obtain ⟨heap, block, hres, howns, hmoved⟩ :=
        stringReserve_granted hs hold hlt hwrap grant.1 grant.2
      exact ⟨_, hres, .granted hlt hsize rfl howns hmoved⟩

end Reserve

/-! ## The growth of an append -/

theorem toNat_double (k : UInt64) : (k <<< 1).toNat = 2 * k.toNat % 2 ^ 64 := by
  rw [UInt64.toNat_shiftLeft]
  simp only [UInt64.toNat_one, Nat.shiftLeft_eq, Nat.reduceMod, Nat.pow_one]
  rw [Nat.mul_comm]

/-- A doubled size is even, so the byte for the NUL never wraps it. -/
theorem double_add_one_ne_zero (k : UInt64) : k <<< 1 + 1 ≠ 0 := by
  intro h
  have hzero : (k <<< 1 + 1).toNat = 0 := by rw [h]; rfl
  rw [UInt64.toNat_add, toNat_double, UInt64.toNat_one] at hzero
  omega

/-- `string_append_buffer` up to its `memcpy`. It returns from here when this is `-1`. -/
def appendGrow (m : Mem) (n : UInt64) (g : Grant) : Except Fault (Int32 × Mem) :=
  match m.s with
  | none => .ok (-1, { m with errno := some .EBADF })
  | some s =>
    let requiredCapacity := s.len + n
    if requiredCapacity > s.capacity then stringReserve m (requiredCapacity <<< 1) g
    else .ok (0, m)

/-- **The cut.** The append is a growth and then a copy; the theorems on appends look at the two
separately. -/
theorem stringAppendBuffer_eq (m : Mem) (src : Src) (n : UInt64) (g : Grant) :
    stringAppendBuffer m src n g = (do
      let (r, m₁) ← appendGrow m n g
      if r = -1 then .ok (-1, m₁) else appendCopy m₁ src n) := by
  cases hs : m.s with
  | none => simp [stringAppendBuffer, appendGrow, hs, bind, Except.bind]
  | some s =>
    by_cases hgrow : s.capacity < s.len + n
    · simp [stringAppendBuffer, appendGrow, hs, hgrow, bind, Except.bind]
    · simp [stringAppendBuffer, appendGrow, hs, hgrow, bind, Except.bind]

/-- What comes before the `memcpy` returns from the call. -/
theorem stringAppendBuffer_of_grow_failed {m m₁ : Mem} {n : UInt64} {g : Grant}
    (hgrow : appendGrow m n g = .ok (-1, m₁)) (src : Src) :
    stringAppendBuffer m src n g = .ok (-1, m₁) := by
  simp [stringAppendBuffer_eq, hgrow, bind, Except.bind]

/-- What comes before the `memcpy` leads to it. -/
theorem stringAppendBuffer_of_grow {m m₁ : Mem} {n : UInt64} {g : Grant}
    (hgrow : appendGrow m n g = .ok (0, m₁)) (src : Src) :
    stringAppendBuffer m src n g = appendCopy m₁ src n := by
  simp [stringAppendBuffer_eq, hgrow, bind, Except.bind]

section Grow

variable {m : Mem} {s : StringT} {content : List UInt8} {n : UInt64}

theorem appendGrow_of_le (hs : m.s = some s) (hle : s.len + n ≤ s.capacity) (g : Grant) :
    appendGrow m n g = .ok (0, m) := by
  have hnot : ¬ s.capacity < s.len + n := UInt64.not_lt.mpr hle
  simp [appendGrow, hs, hnot]

theorem appendGrow_of_lt (hs : m.s = some s) (hlt : s.capacity < s.len + n) (g : Grant) :
    appendGrow m n g = stringReserve m ((s.len + n) <<< 1) g := by
  simp [appendGrow, hs, hlt]

/-- What an append of `n` bytes to a string that holds `content` has done before its
`memcpy`. Here the sum and the doubling may have wrapped. -/
inductive Grew (m : Mem) (s : StringT) (content : List UInt8) (n : UInt64) (g : Grant) :
    Int32 × Mem → Prop where
  | fits (hle : s.len + n ≤ s.capacity) : Grew m s content n g (0, m)
  | failed (hgrow : s.capacity < s.len + n)
      (hwhy : (s.len + n) <<< 1 ≤ s.capacity ∨ g = none) : Grew m s content n g (-1, m)
  | granted (hgrow : s.capacity < s.len + n) (hlt : s.capacity < (s.len + n) <<< 1)
      (hsize : (s.len + n) <<< 1 + 1 ≠ 0) {b : Nat} {fresh : Nat → UInt8} {heap : Heap}
      {block : List UInt8} (hg : g = some (b, fresh))
      (howns : Owns heap { s with data := some b, capacity := (s.len + n) <<< 1 } b block content)
      (hmoved : ∀ b₀, s.data = some b₀ → b₀ ≠ b → heap b₀ = none) :
      Grew m s content n g (0, { m with
        heap, s := some { s with data := some b, capacity := (s.len + n) <<< 1 } })

/-- **The growth over all of `size_t`.** It keeps what the string holds. There is room, or nothing
is granted, or a larger block is. The sum and its double may have wrapped, but a double is never
`SIZE_MAX`, at which the old block would be freed. -/
theorem appendGrow_outcome (hs : m.s = some s) (hold : Holds m.heap s content) (n : UInt64)
    (g : Grant) : ∃ out, appendGrow m n g = .ok out ∧ Grew m s content n g out := by
  by_cases hgrow : s.capacity < s.len + n
  · obtain ⟨out, hres, hout⟩ := stringReserve_outcome hs hold ((s.len + n) <<< 1) g
    refine ⟨out, (appendGrow_of_lt hs hgrow g).trans hres, ?_⟩
    cases hout with
    | covered hle => exact .failed hgrow (.inl hle)
    | failed _ hg _ => exact .failed hgrow (.inr hg)
    | granted hlt hsize hg howns hmoved => exact .granted hgrow hlt hsize hg howns hmoved
    | freed _ hsize _ => exact absurd hsize (double_add_one_ne_zero _)
    | empty _ hsize _ _ => exact absurd hsize (double_add_one_ne_zero _)
  · have hle := UInt64.not_lt.mp hgrow
    exact ⟨_, appendGrow_of_le hs hle g, .fits hle⟩

end Grow

/-! ## `string_append_buffer` with room -/

section Append

variable {m : Mem} {s : StringT} {content : List UInt8} {n : UInt64}

/-- The doubling of a size with `Room`, and the byte `string_reserve` adds to it. -/
theorem toNat_required {k : UInt64} (hroom : Room s k.toNat)
    (hgrow : s.capacity < s.len + k) :
    ((s.len + k) <<< 1).toNat = 2 * (s.len.toNat + k.toNat)
      ∧ 2 * (s.len.toNat + k.toNat) + 1 < 2 ^ 64
      ∧ s.capacity < (s.len + k) <<< 1 := by
  obtain ⟨hsum, hdouble⟩ := hroom
  have hadd : (s.len + k).toNat = s.len.toNat + k.toNat := toNat_len_add hsum
  have hlt : s.capacity.toNat < s.len.toNat + k.toNat := by
    rw [← hadd]
    exact UInt64.lt_iff_toNat_lt.mp hgrow
  have hfit := hdouble hlt
  have hshift : ((s.len + k) <<< 1).toNat = 2 * (s.len.toNat + k.toNat) := by
    rw [toNat_double, hadd]
    exact Nat.mod_eq_of_lt (by omega)
  refine ⟨hshift, hfit, ?_⟩
  rw [UInt64.lt_iff_toNat_lt, hshift]
  omega

/-- What the growth step of an append of `n` bytes leaves for the copy: a string with the
old content and room for the bytes. It has a buffer unless the original one has none and
`n = 0`, and then nothing happened. -/
structure Grown (m : Mem) (s : StringT) (content : List UInt8) (n : UInt64) (m₁ : Mem)
    (s₁ : StringT) : Prop where
  obj : m₁.s = some s₁
  holds : Holds m₁.heap s₁ content
  len : s₁.len = s.len
  room : s.len.toNat + n.toNat ≤ s₁.capacity.toNat
  mono : s.capacity.toNat ≤ s₁.capacity.toNat
  buffer : s.data ≠ none ∨ n ≠ 0 → s₁.data ≠ none
  same : s.data = none ∧ n = 0 → m₁ = m

/-- **The two ways through `string_append_buffer`.** When no size wraps, it either needs
more memory and is refused it, and then nothing changes; or it copies into a grown
string. -/
theorem stringAppendBuffer_cases (hs : m.s = some s) (hold : Holds m.heap s content)
    (hroom : Room s n.toNat) (src : Src) (g : Grant) :
    (g = none ∧ s.capacity < s.len + n ∧ stringAppendBuffer m src n g = .ok (-1, m))
    ∨ ∃ m₁ s₁, Grown m s content n m₁ s₁
      ∧ stringAppendBuffer m src n g = appendCopy m₁ src n := by
  obtain ⟨out, hres, hout⟩ := appendGrow_outcome hs hold n g
  cases hout with
  | fits hle =>
    right
    have hle' : s.len.toNat + n.toNat ≤ s.capacity.toNat := by
      rw [← toNat_len_add hroom.1]
      exact UInt64.le_iff_toNat_le.mp hle
    refine ⟨m, s, ⟨hs, hold, rfl, hle', Nat.le_refl _, ?_, fun _ => rfl⟩,
      stringAppendBuffer_of_grow hres src⟩
    intro hne
    cases hold with
    | blank hblank _ =>
      -- a blank string has room for nothing
      have hn : n.toNat = 0 := by
        rw [hblank] at hle'
        simpa using hle'
      rcases hne with hdata | hn0
      · exact hdata
      · exact absurd (UInt64.toNat_inj.mp hn) hn0
    | owned howns => exact howns.data_ne_none
  | failed hgrow hwhy =>
    left
    obtain ⟨-, -, hlt⟩ := toNat_required hroom hgrow
    rcases hwhy with hle | hg
    · exact absurd hlt (UInt64.not_lt.mpr hle)
    · exact ⟨hg, hgrow, stringAppendBuffer_of_grow_failed hres src⟩
  | @granted hgrow hlt _ b _ _ _ _ howns _ =>
    right
    obtain ⟨hshift, -, -⟩ := toNat_required hroom hgrow
    have hmono := UInt64.lt_iff_toNat_lt.mp hlt
    refine ⟨_, { s with data := some b, capacity := (s.len + n) <<< 1 },
      ⟨rfl, .owned howns, rfl, ?_, Nat.le_of_lt hmono, fun _ => howns.data_ne_none, ?_⟩,
      stringAppendBuffer_of_grow hres src⟩
    · simp only [hshift]
      omega
    · -- a string without a buffer does not grow for an empty append
      rintro ⟨hdata, hzero⟩
      cases hold with
      | blank hblank _ =>
        rw [hblank, hzero] at hgrow
        exact absurd hgrow (by decide)
      | owned howns₀ => exact absurd hdata howns₀.data_ne_none

end Append

/-! ## The copies that return -/

/-- Without a buffer the NUL is written through `NULL`. -/
theorem appendCopy_null {m : Mem} {s : StringT} (hs : m.s = some s) (hdata : s.data = none)
    (src : Src) (n : UInt64) (r : Int32 × Mem) : appendCopy m src n ≠ .ok r := by
  intro hok
  cases hcopy : memcpy m.heap ⟨none, s.len.toNat⟩ src n.toNat with
  | error e => simp [appendCopy, hs, hdata, hcopy, bind, Except.bind] at hok
  | ok heap =>
    have hnul : ∀ off, heap.store ⟨none, off⟩ [0] = .error .nullAccess :=
      fun off => Heap.store_null (by simp)
    simp only [appendCopy, hs, hcopy, hdata, hnul, bind, Except.bind] at hok
    cases hok

section Copy

variable {m m' : Mem} {s : StringT} {content : List UInt8} {n : UInt64} {src : Src} {r : Int32}

/-- A copy into an owned block that returns had room for its bytes and for the NUL. -/
theorem appendCopy_fits {b : Nat} {block : List UInt8} (hs : m.s = some s)
    (howns : Owns m.heap s b block content) (hcap : s.capacity.toNat + 1 < 2 ^ 64)
    (hok : appendCopy m src n = .ok (r, m')) :
    s.len.toNat + n.toNat ≤ s.capacity.toNat
      ∧ ∃ bytes, src.load m.heap n.toNat = .ok bytes
        ∧ memcpy m.heap ⟨s.data, s.len.toNat⟩ src n.toNat
          = m.heap.store ⟨s.data, s.len.toNat⟩ bytes := by
  have hsize := howns.size
  rw [howns.data]
  cases hcopy : memcpy m.heap ⟨some b, s.len.toNat⟩ src n.toNat with
  | error e => simp [appendCopy, hs, howns.data, hcopy, bind, Except.bind] at hok
  | ok heap =>
    obtain ⟨bytes, hload, hstore⟩ := memcpy_reads hcopy
    have hlen : bytes.length = n.toNat := Src.length_of_load hload
    refine ⟨?_, bytes, hload, by rw [hstore]⟩
    by_cases hn : n.toNat = 0
    · rw [hn]
      exact howns.fits
    have hne : bytes ≠ [] := List.ne_nil_of_length_pos (by omega)
    -- the copy fits the block, so the new length does not wrap
    have hfit := Heap.store_fits howns.live hne hstore
    have hsum : (s.len + n).toNat = s.len.toNat + n.toNat := toNat_len_add (by omega)
    rw [Heap.store_ok howns.live hfit] at hstore
    cases Except.ok.inj hstore
    -- and so does the NUL behind it
    cases hnul : Heap.store (Function.update m.heap b
        (some (splice block s.len.toNat bytes))) ⟨some b, s.len.toNat + n.toNat⟩ [0] with
    | error e =>
      simp [appendCopy, hs, hcopy, hsum, howns.data, hnul, bind, Except.bind] at hok
    | ok heap =>
      have hroom := Heap.store_fits (Function.update_self ..) (by simp) hnul
      rw [length_splice hfit, List.length_singleton] at hroom
      omega

/-- What a copy that returns has done to the object. -/
theorem appendCopy_obj (hs : m.s = some s) (hok : appendCopy m src n = .ok (r, m')) :
    r = 0 ∧ m'.s = some { s with len := s.len + n } := by
  cases hcopy : memcpy m.heap ⟨s.data, s.len.toNat⟩ src n.toNat with
  | error e => simp [appendCopy, hs, hcopy, bind, Except.bind] at hok
  | ok heap =>
    cases hnul : heap.store ⟨s.data, (s.len + n).toNat⟩ [0] with
    | error e =>
      simp only [appendCopy, hs, hcopy, hnul, bind, Except.bind] at hok
      cases hok
    | ok heap' =>
      simp only [appendCopy, hs, hcopy, hnul, bind, Except.bind] at hok
      obtain ⟨rfl, rfl⟩ := Prod.mk.inj (Except.ok.inj hok)
      exact ⟨rfl, rfl⟩

end Copy

end HseDev.Utils
