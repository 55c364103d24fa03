import HseDev.Utils.StringSizes

/-!
# HseDev — appending a string to itself

A range of the string's own content may be the source of an append. The copy then reads the
source after the buffer has grown, through the pointer it was given before. If `realloc`
moved the buffer, that pointer leads to a block that is gone.

* **`appendCopy_self`** — the copy out of the string's own block returns exactly when there
  is room for it, and then appends the range as it was before the call.
* **`SourceKept`** — the append need not grow, is refused the growth, or grows in place.
* **`self_append_iff`** — over every run, a self-append appends the range or changes nothing
  exactly then.
* **`self_append_fails`** — a growth that moves the buffer.
-/

namespace HseDev.Utils

open BlockHeap Transition

/-- A call returned: `0` and `bytes` appended, or `-1` and the content as it was. -/
def AppendsOrKeeps (content bytes : List UInt8) (res : Except Fault (Int32 × Mem)) : Prop :=
  ∃ r m', res = .ok (r, m')
    ∧ (r = 0 ∧ m'.contents = content ++ bytes ∨ r = -1 ∧ m'.contents = content)

/-- `string_append_buffer(s, s->data + off, n)` appends that range of the content. -/
def SelfAppend (m : Mem) (off : Nat) (n : UInt64) (g : Grant) : Prop :=
  AppendsOrKeeps m.contents ((m.contents.drop off).take n.toNat)
    (stringAppendBuffer m (.heap ⟨m.data, off⟩) n g)

/-- `string_append_string(s, s)` appends the content. -/
def SelfAppendString (m : Mem) (g : Grant) : Prop :=
  AppendsOrKeeps m.contents m.contents (Op.exec m g .appendSelf)

/-- The block the source lies in is still there when `n` bytes are copied from it, and has
room for them: the sum fits a `size_t`, and if the buffer has to grow, then the growth fails,
or it fits a `size_t` and stays in place. It also fails when the double exceeds `2 ^ 64` by
no more than the capacity. -/
def SourceKept (s : StringT) (n : UInt64) (g : Grant) : Prop :=
  s.len.toNat + n.toNat < 2 ^ 64
  ∧ (s.capacity.toNat < s.len.toNat + n.toNat →
      g = none
      ∨ (∃ b fresh, g = some (b, fresh) ∧ s.data = some b)
        ∧ 2 * (s.len.toNat + n.toNat) < 2 ^ 64
      ∨ 2 ^ 64 ≤ 2 * (s.len.toNat + n.toNat)
        ∧ 2 * (s.len.toNat + n.toNat) ≤ 2 ^ 64 + s.capacity.toNat)

section Self

variable {m : Mem} {s : StringT} {b off : Nat} {block content : List UInt8} {n : UInt64}
  {g : Grant}

/-- A range of the content, read from the block. -/
theorem take_drop_of_owns (howns : Owns m.heap s b block content)
    (hrange : off + n.toNat ≤ s.len.toNat) :
    (block.drop off).take n.toNat = (content.drop off).take n.toNat := by
  rw [← howns.bytes, List.drop_take, List.take_take, Nat.min_eq_left (by omega)]

/-- **The copy out of the string's own block.** If there is room then source and target do not
overlap, as the source ends where the target begins at the latest. -/
theorem appendCopy_self (hs : m.s = some s) (howns : Owns m.heap s b block content)
    (hcap : s.capacity.toNat + 1 < 2 ^ 64) (hrange : off + n.toNat ≤ s.len.toNat) :
    AppendsOrKeeps content ((content.drop off).take n.toNat)
        (appendCopy m (.heap ⟨some b, off⟩) n)
      ↔ s.len.toNat + n.toNat ≤ s.capacity.toNat := by
  constructor
  · rintro ⟨r, m', hok, -⟩
    exact (appendCopy_fits hs howns hcap hok).1
  · intro hroom
    have hsize := howns.size
    have hfits := howns.fits
    have hlen : ((block.drop off).take n.toNat).length = n.toNat := by
      rw [List.length_take, List.length_drop]
      omega
    have hcopy : memcpy m.heap ⟨s.data, s.len.toNat⟩ (.heap ⟨some b, off⟩) n.toNat
        = m.heap.store ⟨s.data, s.len.toNat⟩ ((block.drop off).take n.toNat) := by
      rw [howns.data]
      exact memcpy_heap howns.live hrange (by omega)
    obtain ⟨heap, block', happend, howns', -⟩ := appendCopy_spec hs howns hroom hlen hcopy
    refine ⟨0, _, happend, .inl ⟨rfl, ?_⟩⟩
    rw [← take_drop_of_owns howns hrange]
    exact Holds.contents rfl (.owned howns')

/-- A copy from where the string's block was. -/
theorem appendCopy_moved (hs : m.s = some s) (hdead : m.heap b = none) (hn : n.toNat ≠ 0)
    (bytes : List UInt8) :
    ¬ AppendsOrKeeps content bytes (appendCopy m (.heap ⟨some b, off⟩) n) := by
  rintro ⟨r, m', hok, -⟩
  simp [appendCopy, hs, memcpy_dead hdead hn, bind, Except.bind] at hok

/-- **A self-append at a string that owns its block.** It is right exactly as long as the block
stays where it is: there is room, or the growth fails, or it extends the block in place. The pointer
into it is the caller's and is not updated. -/
theorem selfAppend_iff_of_owns (hs : m.s = some s) (howns : Owns m.heap s b block content)
    (hcap : s.capacity.toNat + 1 < 2 ^ 64) (hrange : off + n.toNat ≤ s.len.toNat) :
    AppendsOrKeeps content ((content.drop off).take n.toNat)
        (stringAppendBuffer m (.heap ⟨some b, off⟩) n g)
      ↔ SourceKept s n g := by
  obtain ⟨out, hgrow, hout⟩ := appendGrow_outcome hs (.owned howns) n g
  cases hout with
  -- no growth: only the sum has to be exact
  | fits hle =>
    rw [stringAppendBuffer_of_grow hgrow, appendCopy_self hs howns hcap hrange, sum_fits_iff hle]
    constructor
    · intro hsum
      have hroom := (sum_fits_iff hle).mpr hsum
      exact ⟨hsum, fun hexact => absurd hroom (Nat.not_le.mpr hexact)⟩
    · exact And.left
  | failed hlt hwhy =>
    obtain ⟨hsum, hexact⟩ := sum_fits_of_grow howns.fits hlt
    refine iff_of_true ⟨-1, m, stringAppendBuffer_of_grow_failed hgrow _, .inr ⟨rfl, ?_⟩⟩
      ⟨hsum, fun _ => ?_⟩
    · -- a failed growth keeps the string
      exact Holds.contents hs (.owned howns)
    · rcases hwhy with hle | hg
      · -- a double that the capacity covers has wrapped
        have hle' := UInt64.le_iff_toNat_le.mp hle
        rw [toNat_double_sum hsum] at hle'
        exact .inr (.inr (by omega))
      · exact .inl hg
  | @granted hlt hdouble hsize b₁ fresh heap block₁ hg howns₁ hmoved =>
    obtain ⟨hsum, hexact⟩ := sum_fits_of_grow howns.fits hlt
    have hfits := howns.fits
    have hdouble' := UInt64.lt_iff_toNat_lt.mp hdouble
    have hshift := toNat_double_sum hsum
    rw [hshift] at hdouble'
    rw [stringAppendBuffer_of_grow hgrow]
    -- does the block move?
    by_cases hb : b = b₁
    · subst hb
      -- it does not, so the pointer is still one into the string
      have hcopy := appendCopy_self (n := n)
        (m := { m with heap, s := some { s with data := some b, capacity := (s.len + n) <<< 1 } })
        rfl howns₁ (toNat_add_one_lt hsize) hrange
      rw [hcopy]
      simp only [hshift]
      constructor
      · intro hroom
        exact ⟨hsum, fun _ => .inr (.inl ⟨⟨b, fresh, hg, howns.data⟩, by omega⟩)⟩
      · rintro ⟨-, hkept⟩
        rcases hkept hexact with hnone | ⟨-, hfit⟩ | hwrapped
        · rw [hg] at hnone
          cases hnone
        · omega
        · omega
    · -- it does, and the pointer is dangling
      have hdead : heap b = none := hmoved b howns.data hb
      refine iff_of_false (appendCopy_moved rfl hdead (by omega) _) ?_
      rintro ⟨-, hkept⟩
      rcases hkept hexact with hnone | ⟨⟨b₂, fresh₂, hg₂, hdata₂⟩, -⟩ | hwrapped
      · rw [hg] at hnone
        cases hnone
      · cases hg.symm.trans hg₂
        exact hb (Option.some.inj (howns.data.symm.trans hdata₂))
      · omega

end Self

/-! ## Over every run -/

/-- **Self-appends over every run of any client.** For a string with content, a range of the
content and every answer of `realloc`: the append appends the range as it was before the
call, or returns `-1` and leaves the content, exactly when its source is kept; and
`string_append_string(s, s)` is the case of the whole content. -/
theorem self_append_iff {trace : List Event} {m : Mem} {s : StringT} {g : Grant}
    (hrun : anyClient.Exec trace m) (hs : m.s = some s) (hne : m.contents ≠ []) :
    (∀ off n, off + n.toNat ≤ m.contents.length → (SelfAppend m off n g ↔ SourceKept s n g))
    ∧ (SelfAppendString m g ↔ SourceKept s s.len g) := by
  obtain ⟨b, block, howns, hcap⟩ := owns_of_contents hrun hs hne
  have hdata : m.data = some b := by simp [Mem.data, hs, howns.data]
  have hlen : m.contents.length = s.len.toNat := by
    have hsize := howns.size
    have hfits := howns.fits
    rw [← howns.bytes, List.length_take]
    omega
  refine ⟨fun off n hrange => ?_, ?_⟩
  · rw [SelfAppend, hdata]
    exact selfAppend_iff_of_owns hs howns hcap (by omega)
  · have hself : Op.exec m g .appendSelf
        = stringAppendBuffer m (.heap ⟨some b, 0⟩) s.len g := by
      simp only [Op.exec, hs, stringAppendString, howns.data]
    have hwhole : m.contents = (m.contents.drop 0).take s.len.toNat := by
      rw [List.drop_zero, ← hlen, List.take_length]
    rw [SelfAppendString, hself]
    nth_rewrite 2 [hwhole]
    exact selfAppend_iff_of_owns hs howns hcap (by omega)

/-- A full string of one byte, appended to itself when `realloc` fails. -/
theorem self_append_iff_oneByte :
    ∃ trace m, anyClient.Exec trace m ∧ m.contents = [97] ∧ SelfAppendString m none := by
  obtain ⟨m, hrun, hs, hheap, -⟩ := exec_oneByte
  have hcontents : m.contents = [97] :=
    Holds.contents hs (.owned ⟨rfl, hheap, rfl, by decide, rfl⟩)
  exact ⟨_, m, hrun, hcontents, (self_append_iff hrun hs (by simp [hcontents])).2.mpr
    ⟨by decide, fun _ => .inl rfl⟩⟩

/-- The same string, appended to itself when `realloc` moves the buffer: the copy reads the
block that `realloc` has freed. -/
theorem self_append_fails :
    ∃ trace m g, anyClient.Exec trace m ∧ Grant.Fits m.heap m.data g ∧ m.contents = [97]
      ∧ Op.exec m g .appendSelf = .error .deadBlock ∧ ¬ SelfAppendString m g := by
  obtain ⟨m, hrun, hs, hheap, hfree⟩ := exec_oneByte
  have hcontents : m.contents = [97] :=
    Holds.contents hs (.owned ⟨rfl, hheap, rfl, by decide, rfl⟩)
  have hfits : Grant.Fits m.heap m.data (some (1, fun _ => 0)) := by
    intro b fresh hg
    cases hg
    exact .inl hfree
  have hgrow := (appendGrow_of_lt hs (n := 1) (by decide) (some (1, fun _ => 0))).trans
    (stringReserve_grown hs rfl hheap (by decide) (by decide) 1 fun _ => 0)
  have hexec : Op.exec m (some (1, fun _ => 0)) .appendSelf = .error .deadBlock := by
    simp only [Op.exec, hs, stringAppendString]
    rw [stringAppendBuffer_of_grow hgrow, appendCopy]
    simp [memcpy_dead, bind, Except.bind]
  refine ⟨_, m, _, hrun, hfits, hcontents, hexec, ?_⟩
  rintro ⟨r, m', hok, -⟩
  rw [hexec] at hok
  cases hok

end HseDev.Utils
