import Mathlib.Data.List.Basic

/-!
# UTF-8 by its continuation bytes

A byte is a continuation byte when its top two bits are `10`. The encoding of a character is
one byte that is not, followed by bytes that are (`utf8EncodeChar_shape`), so counting the
bytes that are not continuation bytes counts characters (`leading_encode`).
-/

namespace Utf8

/-- The top two bits are `10`. -/
def IsContinuation (b : UInt8) : Prop :=
  b >>> 6 = 2

instance : DecidablePred IsContinuation := fun b => decEq (b >>> 6) 2

/-- The two high bits of a continuation byte are `10`, as a number. -/
theorem isContinuation_iff {b : UInt8} : IsContinuation b ↔ b.toNat / 64 = 2 := by
  rw [IsContinuation, ← UInt8.toNat_inj, UInt8.toNat_shiftRight]
  simp [Nat.shiftRight_eq_div_pow]

/-- The bytes that start a character. -/
def leading (bytes : List UInt8) : Nat :=
  bytes.countP fun b => ¬ IsContinuation b

/-- The encoding of a text. -/
def encode (cs : List Char) : List UInt8 :=
  cs.flatMap String.utf8EncodeChar

/-- Every byte of a character but its first is a continuation byte. -/
theorem isContinuation_tail (k : Nat) : IsContinuation (UInt8.ofNat (k % 0x40 + 0x80)) := by
  rw [isContinuation_iff, UInt8.toNat_ofNat']
  omega

theorem not_isContinuation_lead {k : Nat} (hlow : 0xc0 ≤ k) (hhigh : k < 0x100) :
    ¬ IsContinuation (UInt8.ofNat k) ∧ UInt8.ofNat k ≠ 0 := by
  rw [isContinuation_iff, Ne, ← UInt8.toNat_inj, UInt8.toNat_ofNat', UInt8.toNat_zero]
  omega

/-- A character of one byte is none, and it is the NUL only if it is the character zero. -/
theorem not_isContinuation_ascii {k : Nat} (hk : k ≤ 0x7f) :
    ¬ IsContinuation (UInt8.ofNat k) ∧ (UInt8.ofNat k = 0 → k = 0) := by
  rw [isContinuation_iff, ← UInt8.toNat_inj, UInt8.toNat_ofNat', UInt8.toNat_zero]
  omega

/-- **One character.** A first byte and continuation bytes, in every length; the first byte
is NUL for the character `0` alone. -/
theorem utf8EncodeChar_shape (c : Char) :
    ∃ b tail, String.utf8EncodeChar c = b :: tail ∧ ¬ IsContinuation b
      ∧ (b = 0 → c = '\x00') ∧ ∀ b' ∈ tail, IsContinuation b' := by
  fun_cases String.utf8EncodeChar c
  case case1 v h =>
    obtain ⟨hlead, hzero⟩ := not_isContinuation_ascii h
    refine ⟨_, [], rfl, hlead, fun h0 => ?_, by simp⟩
    apply Char.ext
    exact UInt32.toNat_inj.mp (hzero h0)
  case case2 v _ _ =>
    obtain ⟨hlead, hzero⟩ := not_isContinuation_lead (k := v / 64 % 0x20 + 0xc0)
      (by omega) (by omega)
    refine ⟨_, _, rfl, hlead, fun h0 => absurd h0 hzero, ?_⟩
    simp only [List.forall_mem_cons, isContinuation_tail, true_and]
    exact fun _ h => absurd h List.not_mem_nil
  case case3 v _ _ _ =>
    obtain ⟨hlead, hzero⟩ := not_isContinuation_lead (k := v / 4096 % 0x10 + 0xe0)
      (by omega) (by omega)
    refine ⟨_, _, rfl, hlead, fun h0 => absurd h0 hzero, ?_⟩
    simp only [List.forall_mem_cons, isContinuation_tail, true_and]
    exact fun _ h => absurd h List.not_mem_nil
  case case4 v _ _ _ =>
    obtain ⟨hlead, hzero⟩ := not_isContinuation_lead (k := v / 262144 % 0x08 + 0xf0)
      (by omega) (by omega)
    refine ⟨_, _, rfl, hlead, fun h0 => absurd h0 hzero, ?_⟩
    simp only [List.forall_mem_cons, isContinuation_tail, true_and]
    exact fun _ h => absurd h List.not_mem_nil

theorem leading_append (a b : List UInt8) : leading (a ++ b) = leading a + leading b :=
  List.countP_append

/-- An encoded character has exactly one leading byte, whatever its length. -/
theorem leading_utf8EncodeChar (c : Char) : leading (String.utf8EncodeChar c) = 1 := by
  obtain ⟨b, tail, henc, hlead, -, htail⟩ := utf8EncodeChar_shape c
  have hnone : leading tail = 0 := by
    rw [leading, List.countP_eq_zero]
    intro b' hb'
    simpa using htail b' hb'
  rw [henc, leading, List.countP_cons, ← leading, hnone]
  simp [hlead]

/-- **Counting first bytes counts characters.** Induction on the text. Every other byte of an
encoding is a continuation byte, so the number of bytes that are not is the number of code points.
-/
theorem leading_encode (cs : List Char) : leading (encode cs) = cs.length := by
  induction cs with
  | nil => rfl
  | cons c cs ih =>
    show leading (String.utf8EncodeChar c ++ encode cs) = cs.length + 1
    rw [leading_append, leading_utf8EncodeChar, ih, Nat.add_comm]

/-- No first byte at all, exactly when every byte is a continuation byte. -/
theorem leading_eq_zero_iff {bytes : List UInt8} :
    leading bytes = 0 ↔ ∀ b ∈ bytes, IsContinuation b := by
  simp [leading, List.countP_eq_zero]

/-- Only the character `0` is encoded with a NUL byte. -/
theorem zero_mem_utf8EncodeChar {c : Char} (h : 0 ∈ String.utf8EncodeChar c) : c = '\x00' := by
  obtain ⟨b, tail, henc, -, hzero, htail⟩ := utf8EncodeChar_shape c
  rw [henc] at h
  cases h with
  | head => exact hzero rfl
  | tail _ h => exact absurd (htail 0 h) (by decide)

/-- A text without the NUL character has no NUL byte in its encoding. -/
theorem zero_notMem_encode {cs : List Char} (h : '\x00' ∉ cs) : 0 ∉ encode cs := by
  intro hmem
  obtain ⟨c, hc, hzero⟩ := List.mem_flatMap.mp hmem
  rw [zero_mem_utf8EncodeChar hzero] at hc
  exact h hc

end Utf8
