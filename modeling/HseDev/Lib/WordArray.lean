import HseDev.Lib.X86

/-!
# Arrays of words

The words in memory from an address on, as a list.

* **`words_congr`** — they depend on their own bytes only.
* **`words_store`** — a store behind them appends a word.
* **`words_fit`** — when they lie in an area of a given size.
-/

namespace X86

/-- The first `n` words from `b` on. -/
def words (m : Memory) (b : UInt32) (n : ℕ) : List UInt32 :=
  (List.range n).map fun i => load32 m (b + UInt32.ofNat i * 4)

section Words

variable {m m' : Memory} {b v x : UInt32} {i n : ℕ}

/-- One more word is the one behind the others. -/
theorem words_succ (m : Memory) (b : UInt32) (n : ℕ) :
    words m b (n + 1) = words m b n ++ [load32 m (b + UInt32.ofNat n * 4)] := by
  rw [words, List.range_succ, List.map_append]
  rfl

/-- Four words, as four loads at their offsets. -/
theorem words_four (m : Memory) (b : UInt32) :
    words m b 4 =
      [load32 m (b + 0), load32 m (b + 4), load32 m (b + 8), load32 m (b + 12)] :=
  rfl

/-- Five words, as five loads at their offsets. -/
theorem words_five (m : Memory) (b : UInt32) :
    words m b 5 = [load32 m (b + 0), load32 m (b + 4), load32 m (b + 8), load32 m (b + 12),
      load32 m (b + 16)] :=
  rfl

/-- The offset of a word does not wrap while the array is below a quarter of the address space. -/
theorem toNat_index (hi : i < 2 ^ 30) : (UInt32.ofNat i * 4).toNat = 4 * i := by
  rw [UInt32.toNat_mul, UInt32.toNat_ofNat_of_lt' (by show i < 2 ^ 32; omega)]
  show i * 4 % 2 ^ 32 = 4 * i
  omega

/-- The bytes of a word are bytes of the array. -/
theorem inArea_word (hx : InArea (b + UInt32.ofNat i * 4) 4 x) (hi : i < n) (hn : n ≤ 2 ^ 30) :
    InArea b (4 * n) x := by
  apply hx.of_part
  rw [toNat_index (by omega)]
  omega

/-- The words of an array depend on its bytes alone. -/
theorem words_congr (hn : n ≤ 2 ^ 30) (h : ∀ x, InArea b (4 * n) x → m' x = m x) :
    words m' b n = words m b n := by
  apply List.map_congr_left
  intro i hi
  have hlt : i < n := List.mem_range.mp hi
  exact load32_congr fun x hx => h x (inArea_word hx hlt hn)

/-- A store behind an array makes it one word longer and leaves the words in front as they were. -/
theorem words_store (m : Memory) (b v : UInt32) (hn : n < 2 ^ 30) :
    words (store32 m (b + UInt32.ofNat n * 4) v) b (n + 1) = words m b n ++ [v] := by
  have hbefore : words (store32 m (b + UInt32.ofNat n * 4) v) b n = words m b n := by
    apply words_congr (by omega)
    intro x hx
    apply storeBytes_outside
    rw [← UInt32.add_zero b] at hx
    apply InArea.not_of_lt hx
    · rw [toNat_index hn]
      show 0 + 4 * n ≤ _
      omega
    · rw [toNat_index hn]
      omega
  rw [words_succ, hbefore, load32_store32]

/-- The first byte of a word is in its area. -/
theorem inArea_self (q : UInt32) : InArea q 4 q := by
  unfold InArea
  rw [UInt32.sub_self]
  decide

/-- **The words fit** into an area exactly when their sizes say so. The first word too many begins
just behind the area, which does not wrap around below `2 ^ 32` bytes. -/
theorem words_fit {j : ℕ} (hj : j < 2 ^ 30) :
    (∀ i < n, ∀ x, InArea (b + UInt32.ofNat i * 4) 4 x → InArea b (4 * j) x) ↔ n ≤ j := by
  constructor
  · intro h
    by_contra hlarge
    have hin := h j (Nat.lt_of_not_le hlarge) _ (inArea_self _)
    unfold InArea at hin
    rw [add_sub_self, toNat_index hj] at hin
    exact Nat.lt_irrefl _ hin
  · intro hle i hi x hx
    exact Nat.lt_of_lt_of_le (inArea_word hx hi (by omega)) (by omega)

end Words

end X86
