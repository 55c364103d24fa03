import HseDev.Utils.StringT

/-!
# HseDev — what a string owns, and what each call does to it

`Holds heap s content` is the representation invariant of `string_t`: either the string
is blank (no buffer, both sizes `0`, no content) or it owns a live block of exactly
`capacity + 1` bytes whose first `len` bytes are the content. The block's last byte is
the room for the NUL, which is why a copy that fits the capacity never leaves the block.

One specification lemma per function, each by the branches of the function itself:

* **`stringReserve_of_le`**, **`stringReserve_failed`**, **`stringReserve_granted`** —
  the three ways out of an ordinary `string_reserve`; **`stringReserve_freed`** is the one
  of a request for `SIZE_MAX`;
* **`appendCopy_spec`** — the copy into a block with room.

Callers use these and never unfold the functions.
-/

namespace HseDev.Utils

open BlockHeap

/-! ## The representation invariant -/

/-- The string owns `block`, whose first `len` bytes are `content`. -/
structure Owns (heap : Heap) (s : StringT) (b : Nat) (block content : List UInt8) : Prop where
  data : s.data = some b
  live : heap b = some block
  size : block.length = s.capacity.toNat + 1
  fits : s.len.toNat ≤ s.capacity.toNat
  bytes : block.take s.len.toNat = content

/-- **The representation invariant.** -/
inductive Holds (heap : Heap) (s : StringT) (content : List UInt8) : Prop where
  | blank (hblank : s = .blank) (hnil : content = [])
  | owned {b : Nat} {block : List UInt8} (howns : Owns heap s b block content)

theorem Owns.data_ne_none {heap : Heap} {s : StringT} {b : Nat} {block content : List UInt8}
    (h : Owns heap s b block content) : s.data ≠ none := by
  rw [h.data]
  exact Option.some_ne_none b

theorem Holds.owned_of_data {heap : Heap} {s : StringT} {content : List UInt8}
    (h : Holds heap s content) (hdata : s.data ≠ none) :
    ∃ b block, Owns heap s b block content := by
  cases h with
  | blank hblank _ =>
    rw [hblank] at hdata
    exact absurd rfl hdata
  | owned howns => exact ⟨_, _, howns⟩

/-- The content is what the memory holds. -/
theorem Holds.contents {m : Mem} {s : StringT} {content : List UInt8} (hs : m.s = some s)
    (h : Holds m.heap s content) : m.contents = content := by
  cases h with
  | blank hblank hnil => simp [Mem.contents, hs, hblank, hnil]
  | owned howns =>
    rw [← howns.bytes]
    simp [Mem.contents, hs, howns.data, howns.live]

theorem Holds.len_le_capacity {heap : Heap} {s : StringT} {content : List UInt8}
    (h : Holds heap s content) : s.len.toNat ≤ s.capacity.toNat := by
  cases h with
  | blank hblank _ => simp [hblank]
  | owned howns => exact howns.fits

theorem result_unique {res : Except Fault (Int32 × Mem)} {r r' : Int32} {m m' : Mem}
    (h : res = .ok (r, m)) (h' : res = .ok (r', m')) : r = r' ∧ m = m' :=
  Prod.mk.inj (Except.ok.inj (h.symm.trans h'))

/-! ## `string_destruct` -/

/-- The string is blank afterwards, and its block is no longer live. -/
theorem stringDestruct_holds {m : Mem} {s : StringT} {content : List UInt8} (hs : m.s = some s)
    (hold : Holds m.heap s content) :
    ∃ heap, stringDestruct m = .ok { m with heap, s := some .blank } := by
  cases hold with
  | blank hblank _ =>
    refine ⟨m.heap, ?_⟩
    simp only [stringDestruct, hs, hblank, StringT.blank_data]
    rw [← hblank, ← hs]
  | @owned b block howns =>
    refine ⟨Function.update m.heap b none, ?_⟩
    simp [stringDestruct, hs, howns.data, Heap.free, howns.live, bind, Except.bind]

/-! ## `string_reserve` -/

section Reserve

variable {m : Mem} {s : StringT} {content : List UInt8} {n : UInt64}

theorem toNat_add_one (hwrap : n.toNat + 1 < 2 ^ 64) : (n + 1).toNat = n.toNat + 1 := by
  rw [UInt64.toNat_add]
  simp only [UInt64.toNat_one]
  omega

/-- A size that does not wrap to `0` with the byte for the NUL. -/
theorem toNat_add_one_lt (h : n + 1 ≠ 0) : n.toNat + 1 < 2 ^ 64 := by
  have hlt := n.toNat_lt
  have hne : (n + 1).toNat ≠ 0 := fun h0 => h (UInt64.toNat_inj.mp h0)
  rw [UInt64.toNat_add, UInt64.toNat_one] at hne
  omega

theorem toNat_of_add_one_eq_zero (h : n + 1 = 0) : n.toNat + 1 = 2 ^ 64 := by
  have hmod : (n + 1).toNat = 0 := by rw [h]; rfl
  have hlt := n.toNat_lt
  rw [UInt64.toNat_add, UInt64.toNat_one] at hmod
  omega

/-- A request the capacity covers is refused. -/
theorem stringReserve_of_le (hs : m.s = some s) (hn : n ≤ s.capacity) (g : Grant) :
    stringReserve m n g = .ok (-1, m) := by
  simp [stringReserve, hs, hn]

/-- A failing `realloc` leaves a string without a buffer as it is. -/
theorem stringReserve_null (hs : m.s = some s) (hdata : s.data = none) (hn : s.capacity < n) :
    stringReserve m n none = .ok (-1, m) := by
  have hle : ¬ n ≤ s.capacity := UInt64.not_le.mpr hn
  simp only [stringReserve, hs, if_neg hle, Heap.realloc, hdata, bind, Except.bind]
  rw [← hs]

/-- A failing `realloc` changes nothing. -/
theorem stringReserve_failed (hs : m.s = some s) (hold : Holds m.heap s content)
    (hn : s.capacity < n) (hwrap : n.toNat + 1 < 2 ^ 64) :
    stringReserve m n none = .ok (-1, m) := by
  cases hold with
  | blank hblank _ => exact stringReserve_null hs (by rw [hblank]; rfl) hn
  | owned howns =>
    have hle : ¬ n ≤ s.capacity := UInt64.not_le.mpr hn
    have hrealloc : m.heap.realloc s.data (n + 1).toNat none = .ok (m.heap, none) := by
      simp only [Heap.realloc, howns.data, howns.live, toNat_add_one hwrap, Nat.succ_ne_zero,
        if_false]
    simp only [stringReserve, hs, if_neg hle, hrealloc, bind, Except.bind]
    rw [← hs]

/-- The request for `SIZE_MAX` is one for no bytes: whatever the allocator would have
answered, the buffer goes, and `data` still points to it. -/
theorem stringReserve_freed {b : Nat} {block : List UInt8} (hs : m.s = some s)
    (hdata : s.data = some b) (hlive : m.heap b = some block) (hn : s.capacity < n)
    (hsize : n + 1 = 0) (g : Grant) :
    stringReserve m n g = .ok (-1, { m with heap := Function.update m.heap b none }) := by
  have hle : ¬ n ≤ s.capacity := UInt64.not_le.mpr hn
  simp only [stringReserve, hs, if_neg hle, Heap.realloc, hdata, hlive, hsize,
    UInt64.toNat_zero, if_true, bind, Except.bind]

/-- A granted request for a string without a buffer: the whole block is fresh. -/
theorem stringReserve_fresh (hs : m.s = some s) (hdata : s.data = none) (hn : s.capacity < n)
    (b : Nat) (fresh : Nat → UInt8) :
    stringReserve m n (some (b, fresh))
      = .ok (0, { m with
          heap := Function.update m.heap b (some (resize [] (n + 1).toNat fresh))
          s := some { s with data := some b, capacity := n } }) := by
  have hle : ¬ n ≤ s.capacity := UInt64.not_le.mpr hn
  have hrealloc : m.heap.realloc s.data (n + 1).toNat (some (b, fresh))
      = .ok (Function.update m.heap b (some (resize [] (n + 1).toNat fresh)), some b) := by
    simp only [Heap.realloc, hdata]
  simp only [stringReserve, hs, if_neg hle, hrealloc, bind, Except.bind]

/-- A granted request for a string with a buffer: the new block starts with the old one. -/
theorem stringReserve_grown {b₀ : Nat} {old : List UInt8} (hs : m.s = some s)
    (hdata : s.data = some b₀) (hlive : m.heap b₀ = some old) (hn : s.capacity < n)
    (hwrap : n.toNat + 1 < 2 ^ 64) (b : Nat) (fresh : Nat → UInt8) :
    stringReserve m n (some (b, fresh))
      = .ok (0, { m with
          heap := Function.update (Function.update m.heap b₀ none) b
            (some (resize old (n.toNat + 1) fresh))
          s := some { s with data := some b, capacity := n } }) := by
  have hle : ¬ n ≤ s.capacity := UInt64.not_le.mpr hn
  have hsize : (n + 1).toNat = n.toNat + 1 := toNat_add_one hwrap
  have hrealloc : m.heap.realloc s.data (n + 1).toNat (some (b, fresh))
      = .ok (Function.update (Function.update m.heap b₀ none) b
          (some (resize old (n.toNat + 1) fresh)), some b) := by
    simp only [Heap.realloc, hdata, hlive, hsize, Nat.succ_ne_zero, if_false]
  simp only [stringReserve, hs, if_neg hle, hrealloc, bind, Except.bind]

/-- A granted request leaves the content and the length, in a block of the new capacity; a
block it moved from is no longer live. -/
theorem stringReserve_granted (hs : m.s = some s) (hold : Holds m.heap s content)
    (hn : s.capacity < n) (hwrap : n.toNat + 1 < 2 ^ 64) (b : Nat) (fresh : Nat → UInt8) :
    ∃ heap block, stringReserve m n (some (b, fresh))
        = .ok (0, { m with heap, s := some { s with data := some b, capacity := n } })
      ∧ Owns heap { s with data := some b, capacity := n } b block content
      ∧ ∀ b₀, s.data = some b₀ → b₀ ≠ b → heap b₀ = none := by
  have hlt : s.capacity.toNat < n.toNat := UInt64.lt_iff_toNat_lt.mp hn
  have hsize : (n + 1).toNat = n.toNat + 1 := toNat_add_one hwrap
  cases hold with
  -- the first block of a string; its bytes are not looked at
  | blank hblank hnil =>
    have hdata : s.data = none := by rw [hblank]; rfl
    refine ⟨_, _, stringReserve_fresh hs hdata hn b fresh,
      ⟨rfl, Function.update_self .., ?_, ?_, ?_⟩, ?_⟩
    · rw [length_resize, hsize]
    · simp [hblank]
    · simp [hblank, hnil]
    · intro b₀ hb₀
      rw [hdata] at hb₀
      cases hb₀
  -- a block that grows keeps the bytes in use, and the old one is gone if it has moved
  | @owned b₀ old howns =>
    have hfits := howns.fits
    have hlen := howns.size
    refine ⟨_, _, stringReserve_grown hs howns.data howns.live hn hwrap b fresh,
      ⟨rfl, Function.update_self .., length_resize .., ?_, ?_⟩, ?_⟩
    · simp only
      omega
    · simp only
      rw [take_resize (by omega) (by omega)]
      exact howns.bytes
    · intro b₁ hb₁ hne
      obtain rfl : b₀ = b₁ := Option.some.inj (howns.data.symm.trans hb₁)
      rw [Function.update_of_ne hne, Function.update_self]

end Reserve

/-! ## The copy -/

section Copy

variable {m : Mem} {s : StringT} {b : Nat} {block content : List UInt8} {n : UInt64}

/-- Within the capacity the length does not wrap. -/
theorem toNat_len_add {s : StringT} {n : UInt64} (h : s.len.toNat + n.toNat < 2 ^ 64) :
    (s.len + n).toNat = s.len.toNat + n.toNat := by
  rw [UInt64.toNat_add]
  omega

/-- **The copy.** Into a block with room for them, the `n` bytes of the source are
appended to the content, and the NUL goes right after them. -/
theorem appendCopy_spec (hs : m.s = some s) (howns : Owns m.heap s b block content)
    (hroom : s.len.toNat + n.toNat ≤ s.capacity.toNat) {src : Src} {bytes : List UInt8}
    (hlen : bytes.length = n.toNat)
    (hcopy : memcpy m.heap ⟨s.data, s.len.toNat⟩ src n.toNat
      = m.heap.store ⟨s.data, s.len.toNat⟩ bytes) :
    ∃ heap block', appendCopy m src n
        = .ok (0, { m with heap, s := some { s with len := s.len + n } })
      ∧ Owns heap { s with len := s.len + n } b block' (content ++ bytes)
      ∧ block'[s.len.toNat + n.toNat]? = some 0 := by
  have hsize := howns.size
  have hcap := s.capacity.toNat_lt
  have hsum : (s.len + n).toNat = s.len.toNat + n.toNat := toNat_len_add (by omega)
  -- the copied block, and the block with the NUL
  set copied := splice block s.len.toNat bytes with hcopied
  have hcopiedLen : copied.length = block.length := length_splice (by omega)
  set sealed := splice copied (s.len.toNat + n.toNat) [0] with hsealed
  have hfitNul : s.len.toNat + n.toNat + [(0 : UInt8)].length ≤ copied.length := by
    rw [List.length_singleton]
    omega
  have hfirst : m.heap.store ⟨s.data, s.len.toNat⟩ bytes
      = .ok (Function.update m.heap b (some copied)) := by
    rw [howns.data]
    exact Heap.store_ok howns.live (by omega)
  have hsecond : Heap.store (Function.update m.heap b (some copied))
      ⟨s.data, s.len.toNat + n.toNat⟩ [0]
      = .ok (Function.update (Function.update m.heap b (some copied)) b (some sealed)) := by
    rw [howns.data]
    exact Heap.store_ok (Function.update_self ..) hfitNul
  refine ⟨Function.update (Function.update m.heap b (some copied)) b (some sealed), sealed,
    ?_, ?_, ?_⟩
  · simp [appendCopy, hs, hcopy, hfirst, hsum, hsecond, bind, Except.bind]
  · refine ⟨howns.data, Function.update_self .., ?_, ?_, ?_⟩
    · rw [hsealed, length_splice hfitNul, hcopiedLen, hsize]
    · simp only [hsum]
      exact hroom
    · -- the NUL lies behind the content, and the copy starts at its end
      simp only [hsum]
      rw [hsealed, take_splice_of_le (by omega) (Nat.le_refl _), hcopied,
        take_splice (by omega) (by omega), howns.bytes]
  · have htake : (copied.take (s.len.toNat + n.toNat)).length = s.len.toNat + n.toNat := by
      rw [List.length_take]
      omega
    rw [hsealed, splice, List.append_assoc, List.getElem?_append_right (by omega), htake]
    simp

end Copy

end HseDev.Utils
