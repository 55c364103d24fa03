import HseDev.Utils.StringStates

/-!
# HseDev — the sizes of an append over all of `size_t`

`string_append_buffer` computes `len + n`, doubles it and lets `string_reserve` add one, each
modulo `2 ^ 64`, and compares twice. A wrapped sum is smaller than `len`, so it passes the
capacity test; a wrapped double is smaller than the sum, so `string_reserve` either refuses
it, which is the answer one wants, or grows the buffer to less than what is copied.

* **`sum_fits_of_grow`**, **`sum_fits_iff`** — what the capacity test says about the exact sum.
* **`AppendArithmetic`** — the property: every copy fits, and a size that does not fit a
  `size_t` makes the call return `-1` with the string as it was.
* **`append_arithmetic_iff`** — exactly when it holds, over every run of any client.
* **`append_arithmetic_fails`** — a sum that wraps to `0`.
-/

namespace HseDev.Utils

open BlockHeap Transition

/-! ## The two comparisons -/

section Compare

variable {s : StringT} {n : UInt64}

/-- A sum that passes for larger than the capacity has not wrapped. -/
theorem sum_fits_of_grow (hlen : s.len.toNat ≤ s.capacity.toNat)
    (hgrow : s.capacity < s.len + n) :
    s.len.toNat + n.toNat < 2 ^ 64 ∧ s.capacity.toNat < s.len.toNat + n.toNat := by
  have hgrow' := UInt64.lt_iff_toNat_lt.mp hgrow
  have hn := n.toNat_lt
  rw [UInt64.toNat_add] at hgrow'
  omega

/-- A sum that passes for covered by the capacity is covered exactly when it has not wrapped. -/
theorem sum_fits_iff (hle : s.len + n ≤ s.capacity) :
    s.len.toNat + n.toNat ≤ s.capacity.toNat ↔ s.len.toNat + n.toNat < 2 ^ 64 := by
  have hle' := UInt64.le_iff_toNat_le.mp hle
  have hcap := s.capacity.toNat_lt
  rw [UInt64.toNat_add] at hle'
  omega

/-- The double of a sum that has not wrapped. -/
theorem toNat_double_sum (hsum : s.len.toNat + n.toNat < 2 ^ 64) :
    ((s.len + n) <<< 1).toNat = 2 * (s.len.toNat + n.toNat) % 2 ^ 64 := by
  rw [toNat_double, toNat_len_add hsum]

end Compare

/-! ## The property -/

/-- The call reaches its `memcpy`, in the memory `m₁`. -/
def ReachesCopy (m : Mem) (n : UInt64) (g : Grant) (m₁ : Mem) : Prop :=
  ∃ r, appendGrow m n g = .ok (r, m₁) ∧ r ≠ -1

/-- The copy of `n` bytes and the NUL behind it lie inside the string's block. -/
def CopyFits (m : Mem) (n : UInt64) : Prop :=
  ∃ s b block, m.s = some s ∧ s.len.toNat + n.toNat ≤ s.capacity.toNat
    ∧ s.data = some b ∧ m.heap b = some block ∧ block.length = s.capacity.toNat + 1

/-- The sum does not fit a `size_t`, or the buffer has to grow and the double does not. -/
def Wraps (s : StringT) (n : UInt64) : Prop :=
  2 ^ 64 ≤ s.len.toNat + n.toNat
    ∨ s.capacity.toNat < s.len.toNat + n.toNat ∧ 2 ^ 64 ≤ 2 * (s.len.toNat + n.toNat)

structure AppendArithmetic (m : Mem) (s : StringT) (n : UInt64) (g : Grant) : Prop where
  copies : ∀ m₁, ReachesCopy m n g m₁ → CopyFits m₁ n
  refuses : Wraps s n → ∀ src, stringAppendBuffer m src n g = .ok (-1, m)

/-- The copy is reached where `appendGrow` says so. -/
theorem stringAppendBuffer_of_reaches {m m₁ : Mem} {n : UInt64} {g : Grant}
    (h : ReachesCopy m n g m₁) (src : Src) :
    stringAppendBuffer m src n g = appendCopy m₁ src n := by
  obtain ⟨r, hgrow, hr⟩ := h
  simp [stringAppendBuffer_eq, hgrow, hr, bind, Except.bind]

section Outcomes

variable {m m₁ : Mem} {s : StringT} {n : UInt64} {g : Grant}

theorem reachesCopy_iff (hgrow : appendGrow m n g = .ok (0, m₁)) (m₂ : Mem) :
    ReachesCopy m n g m₂ ↔ m₂ = m₁ := by
  constructor
  · rintro ⟨r, hgrow', -⟩
    exact (result_unique hgrow hgrow').2.symm
  · rintro rfl
    exact ⟨0, hgrow, by decide⟩

/-- An append that reaches its copy has the property when the copy fits and nothing wrapped. -/
theorem appendArithmetic_of_copy (hgrow : appendGrow m n g = .ok (0, m₁)) (hfit : CopyFits m₁ n)
    (hwraps : ¬ Wraps s n) : AppendArithmetic m s n g := by
  refine ⟨fun m₂ hreach => ?_, fun h => absurd h hwraps⟩
  rw [(reachesCopy_iff hgrow m₂).mp hreach]
  exact hfit

/-- An append that returns `-1` before its copy has the property. -/
theorem appendArithmetic_of_failed (hgrow : appendGrow m n g = .ok (-1, m)) :
    AppendArithmetic m s n g := by
  refine ⟨?_, fun _ src => stringAppendBuffer_of_grow_failed hgrow src⟩
  rintro m₂ ⟨r, hgrow', hr⟩
  obtain ⟨rfl, -⟩ := result_unique hgrow hgrow'
  exact absurd rfl hr

/-- An append that reaches its copy does not return `-1`. -/
theorem AppendArithmetic.not_wraps (h : AppendArithmetic m s n g) (hs₁ : m₁.s ≠ none)
    (hreach : ReachesCopy m n g m₁) : ¬ Wraps s n := by
  intro hwraps
  have hrefused := h.refuses hwraps (.region [])
  rw [stringAppendBuffer_of_reaches hreach] at hrefused
  obtain ⟨s₁, hs₁⟩ := Option.ne_none_iff_exists'.mp hs₁
  exact absurd (appendCopy_obj hs₁ hrefused).1 (by decide)

theorem AppendArithmetic.copyFits (h : AppendArithmetic m s n g)
    (hgrow : appendGrow m n g = .ok (0, m₁)) : CopyFits m₁ n :=
  h.copies m₁ ((reachesCopy_iff hgrow m₁).mpr rfl)

end Outcomes

section States

variable {m : Mem} {s : StringT} {content : List UInt8} {n : UInt64} {g : Grant} {b : Nat}

theorem CopyFits.of_owns {block : List UInt8} (hs : m.s = some s)
    (howns : Owns m.heap s b block content)
    (hroom : s.len.toNat + n.toNat ≤ s.capacity.toNat) : CopyFits m n :=
  ⟨s, b, block, hs, hroom, howns.data, howns.live, howns.size⟩

theorem CopyFits.room (h : CopyFits m n) (hs : m.s = some s) :
    s.len.toNat + n.toNat ≤ s.capacity.toNat := by
  obtain ⟨s', _, _, hs', hroom, _⟩ := h
  cases hs.symm.trans hs'
  exact hroom

theorem Lost.not_copyFits (h : Lost m.heap s b) (hs : m.s = some s) : ¬ CopyFits m n := by
  rintro ⟨s', b', block, hs', hroom, hdata, hlive, hsize⟩
  cases hs.symm.trans hs'
  exact h.not_holds ⟨_, .owned ⟨hdata, hlive, hsize, h.fits, rfl⟩⟩

/-- **A string that owns its block.** A sum that does not fit always reaches the copy. Of the
doubles that do not fit, those that wrap to a request the capacity covers are refused. -/
theorem appendArithmetic_iff_of_owns {block : List UInt8} (hs : m.s = some s)
    (howns : Owns m.heap s b block content) (hcap : s.capacity.toNat + 1 < 2 ^ 64) :
    AppendArithmetic m s n g ↔ s.len.toNat + n.toNat < 2 ^ 64
      ∧ (s.len.toNat + n.toNat ≤ s.capacity.toNat ∨ g = none
        ∨ 2 * (s.len.toNat + n.toNat) ≤ 2 ^ 64 + s.capacity.toNat) := by
  obtain ⟨out, hgrow, hout⟩ := appendGrow_outcome hs (.owned howns) n g
  cases hout with
  | fits hle =>
    constructor
    · intro h
      have hroom := (h.copyFits hgrow).room hs
      exact ⟨by omega, .inl hroom⟩
    · rintro ⟨hsum, -⟩
      have hroom := (sum_fits_iff hle).mpr hsum
      refine appendArithmetic_of_copy hgrow (.of_owns hs howns hroom) ?_
      simp only [Wraps]
      omega
  | failed hlt hwhy =>
    obtain ⟨hsum, hexact⟩ := sum_fits_of_grow howns.fits hlt
    refine iff_of_true (appendArithmetic_of_failed hgrow) ⟨hsum, .inr ?_⟩
    rcases hwhy with hle | hg
    · -- the double is at most the capacity, so either it is exact or it has wrapped once
      have hle' := UInt64.le_iff_toNat_le.mp hle
      rw [toNat_double_sum hsum] at hle'
      omega
    · exact .inl hg
  -- a larger block has been granted, so the copy is reached with the size as it is
  | granted hlt hdouble _ hg howns₁ _ =>
    obtain ⟨hsum, hexact⟩ := sum_fits_of_grow howns.fits hlt
    have hdouble' := UInt64.lt_iff_toNat_lt.mp hdouble
    rw [toNat_double_sum hsum] at hdouble'
    constructor
    · intro h
      have hfits := h.not_wraps (Option.some_ne_none _) ((reachesCopy_iff hgrow _).mpr rfl)
      simp only [Wraps] at hfits
      exact ⟨hsum, by omega⟩
    · rintro ⟨-, hle | hnone | hfits⟩
      · omega
      · rw [hg] at hnone
        cases hnone
      · refine appendArithmetic_of_copy hgrow (.of_owns rfl howns₁ ?_) ?_
        · simp only
          rw [toNat_double_sum hsum]
          omega
        · simp only [Wraps]
          omega

/-- **A lost string.** Whatever reaches the copy has no block to copy to. -/
theorem appendArithmetic_iff_of_lost (hs : m.s = some s) (hlost : Lost m.heap s b) :
    AppendArithmetic m s n g ↔ s.len.toNat + n.toNat < 2 ^ 64
      ∧ s.capacity.toNat < s.len.toNat + n.toNat
      ∧ 2 * (s.len.toNat + n.toNat) ≤ 2 ^ 64 + s.capacity.toNat := by
  by_cases hgrow : s.capacity < s.len + n
  · obtain ⟨hsum, hexact⟩ := sum_fits_of_grow hlost.fits hgrow
    have happend := appendGrow_of_lt hs hgrow g
    have hshift := toNat_double_sum hsum
    by_cases hle : (s.len + n) <<< 1 ≤ s.capacity
    · -- the double has wrapped to a covered size, and the append is refused
      rw [stringReserve_of_le hs hle] at happend
      have hle' := UInt64.le_iff_toNat_le.mp hle
      refine iff_of_true (appendArithmetic_of_failed happend) ⟨hsum, hexact, ?_⟩
      omega
    · -- the block is freed again before the copy is reached
      have hlt' := UInt64.lt_iff_toNat_lt.mp (UInt64.not_le.mp hle)
      rw [stringReserve_lost hs hlost (UInt64.not_le.mp hle)] at happend
      constructor
      · intro h
        refine ⟨hsum, hexact, ?_⟩
        by_contra hwraps
        have hrefused := h.refuses (.inr ⟨hexact, by omega⟩) (.region [])
        simp [stringAppendBuffer_eq, happend, bind, Except.bind] at hrefused
      · rintro ⟨-, -, hfits⟩
        refine ⟨?_, ?_⟩
        · rintro m₁ ⟨r, hok, -⟩
          rw [happend] at hok
          cases hok
        · simp only [Wraps]
          omega
  · -- without a growth the copy goes to a block that is not there
    have hle := UInt64.not_lt.mp hgrow
    refine iff_of_false ?_ ?_
    · intro h
      exact hlost.not_copyFits hs (h.copyFits (appendGrow_of_le hs hle g))
    · rintro ⟨hsum, hexact, -⟩
      have hroom := (sum_fits_iff hle).mpr hsum
      omega

end States

/-! ## Over every run -/

/-- **The sizes of an append, over every run of any client.** For a string with a buffer the
property holds exactly when the sum fits a `size_t` and either the buffer has to grow, to a
double that fits too or exceeds `2 ^ 64` by no more than the capacity; or the string owns its
block, and it need not grow or is refused the memory. -/
theorem append_arithmetic_iff {trace : List Event} {m : Mem} {s : StringT} {n : UInt64}
    {g : Grant} (hrun : anyClient.Exec trace m) (hs : m.s = some s) (hbuffer : s.data ≠ none) :
    AppendArithmetic m s n g ↔ s.len.toNat + n.toNat < 2 ^ 64
      ∧ (s.capacity.toNat < s.len.toNat + n.toNat
          ∧ 2 * (s.len.toNat + n.toNat) ≤ 2 ^ 64 + s.capacity.toNat
        ∨ (∃ content, Holds m.heap s content)
          ∧ (s.len.toNat + n.toNat ≤ s.capacity.toNat ∨ g = none)) := by
  cases Standing.of_run hrun hs with
  | whole hold hcap =>
    have hholds : ∃ content, Holds m.heap s content := ⟨_, hold⟩
    obtain ⟨b, block, howns⟩ := hold.owned_of_data hbuffer
    rw [appendArithmetic_iff_of_owns hs howns hcap]
    simp only [hholds, true_and]
    by_cases hroom : s.len.toNat + n.toNat ≤ s.capacity.toNat
    · simp only [hroom, true_or, or_true]
    · have hexact : s.capacity.toNat < s.len.toNat + n.toNat := Nat.lt_of_not_le hroom
      simp only [hroom, hexact, false_or, true_and]
      rw [or_comm]
  | lost hlost =>
    have hnone := hlost.not_holds
    rw [appendArithmetic_iff_of_lost hs hlost]
    simp only [hnone, false_and, or_false]

/-- An append of nothing to a full string of one byte. -/
theorem append_arithmetic_iff_oneByte :
    ∃ trace m s, anyClient.Exec trace m ∧ m.s = some s ∧ AppendArithmetic m s 0 none := by
  obtain ⟨m, hrun, hs, hheap, -⟩ := exec_oneByte
  have hhold : Holds m.heap ⟨some 0, 1, 1⟩ [97] := .owned ⟨rfl, hheap, rfl, by decide, rfl⟩
  exact ⟨_, m, _, hrun, hs, (append_arithmetic_iff hrun hs (by simp)).mpr
    ⟨by decide, .inr ⟨⟨_, hhold⟩, .inl (by decide)⟩⟩⟩

/-- An append of `SIZE_MAX` bytes to a string of one byte: the sum is `0`, which the capacity
covers, so the copy is reached, and it does not fit. -/
theorem append_arithmetic_fails :
    ∃ trace m, anyClient.Exec trace m ∧ m.s = some ⟨some 0, 1, 1⟩
      ∧ m.heap 0 = some [97, 0]
      ∧ ReachesCopy m (-1) none m ∧ ¬ CopyFits m (-1)
      ∧ ¬ AppendArithmetic m ⟨some 0, 1, 1⟩ (-1) none := by
  obtain ⟨m, hrun, hs, hheap, -⟩ := exec_oneByte
  have hgrow : appendGrow m (-1) none = .ok (0, m) := appendGrow_of_le hs (by decide) none
  have hnot : ¬ CopyFits m (-1) := fun h => absurd (h.room hs) (by decide)
  exact ⟨_, m, hrun, hs, hheap, ⟨0, hgrow, by decide⟩, hnot, fun h => hnot (h.copyFits hgrow)⟩

end HseDev.Utils
