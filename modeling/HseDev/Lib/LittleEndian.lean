import Mathlib.Algebra.Group.Nat.Defs
import Mathlib.Data.Nat.Notation

/-!
# Little-endian words

A 32-bit word and its four bytes, the least significant one first.

* **`byte`** — a byte of a word; **`word`** — the word of four bytes.
* **`word_bytes`** / **`byte_word`** — each is the inverse of the other.
* **`digits`** / **`number`** — the bytes of a number and back, in any width;
  **`digits_number`** says that eight bytes are those of their `word64`.
-/

namespace LittleEndian

/-- Byte `k` of a word. -/
def byte (x : UInt32) (k : ℕ) : UInt8 :=
  UInt8.ofNat (x.toNat / 256 ^ k)

def word (b0 b1 b2 b3 : UInt8) : UInt32 :=
  UInt32.ofNat (b0.toNat + 256 * b1.toNat + 65536 * b2.toNat + 16777216 * b3.toNat)

variable {b0 b1 b2 b3 : UInt8}

/-- Byte `k` of a word is its digit to the base 256. -/
theorem toNat_byte (x : UInt32) (k : ℕ) : (byte x k).toNat = x.toNat / 256 ^ k % 256 :=
  UInt8.toNat_ofNat'

theorem toNat_word : (word b0 b1 b2 b3).toNat
    = b0.toNat + 256 * b1.toNat + 65536 * b2.toNat + 16777216 * b3.toNat := by
  have h0 := b0.toNat_lt
  have h1 := b1.toNat_lt
  have h2 := b2.toNat_lt
  have h3 := b3.toNat_lt
  exact UInt32.toNat_ofNat_of_lt' (by
    show _ < 4294967296
    omega)

/-- A word is the word of its bytes. -/
theorem word_bytes (x : UInt32) : word (byte x 0) (byte x 1) (byte x 2) (byte x 3) = x := by
  have hx := x.toNat_lt
  apply UInt32.toNat_inj.mp
  rw [toNat_word, toNat_byte, toNat_byte, toNat_byte, toNat_byte]
  omega

/-- The bytes of a word are those it was made of. -/
theorem byte_word (b0 b1 b2 b3 : UInt8) :
    byte (word b0 b1 b2 b3) 0 = b0 ∧ byte (word b0 b1 b2 b3) 1 = b1
    ∧ byte (word b0 b1 b2 b3) 2 = b2 ∧ byte (word b0 b1 b2 b3) 3 = b3 := by
  have h0 := b0.toNat_lt
  have h1 := b1.toNat_lt
  have h2 := b2.toNat_lt
  have h3 := b3.toNat_lt
  refine ⟨?_, ?_, ?_, ?_⟩ <;> apply UInt8.toNat_inj.mp <;> rw [toNat_byte, toNat_word] <;> omega

/-! ## Any number of bytes

A record is a list of bytes, and its fields are the numbers that parts of it make. Here the base is
fixed and the number of digits is not. -/

/-- The `k` least significant bytes of a number. -/
def digits : ℕ → ℕ → List UInt8
  | 0, _ => []
  | k + 1, n => UInt8.ofNat n :: digits k (n / 256)

def number (bytes : List UInt8) : ℕ :=
  bytes.foldr (fun b n => b.toNat + 256 * n) 0

/-- As many digits as are asked for, leading zeros included. -/
@[simp] theorem length_digits (k n : ℕ) : (digits k n).length = k := by
  induction k generalizing n with
  | zero => rfl
  | succ k ih => rw [digits, List.length_cons, ih]

/-- The number that some bytes make is below the power they reach. -/
theorem number_lt (bytes : List UInt8) : number bytes < 256 ^ bytes.length := by
  induction bytes with
  | nil => decide
  | cons b bytes ih =>
    have hb := b.toNat_lt
    show b.toNat + 256 * number bytes < 256 ^ (bytes.length + 1)
    rw [Nat.pow_succ]
    omega

/-- Bytes are the digits of their number. Induction on the bytes. -/
theorem digits_number (bytes : List UInt8) : digits bytes.length (number bytes) = bytes := by
  induction bytes with
  | nil => rfl
  | cons b bytes ih =>
    have hb := b.toNat_lt
    have hrest : (b.toNat + 256 * number bytes) / 256 = number bytes := by omega
    show UInt8.ofNat (b.toNat + 256 * number bytes)
      :: digits bytes.length ((b.toNat + 256 * number bytes) / 256) = b :: bytes
    rw [hrest, ih]
    congr 1
    apply UInt8.toNat_inj.mp
    rw [UInt8.toNat_ofNat']
    omega

/-- The eight bytes of a word. -/
def bytes64 (x : UInt64) : List UInt8 :=
  digits 8 x.toNat

def word64 (bytes : List UInt8) : UInt64 :=
  UInt64.ofNat (number bytes)

/-- Eight bytes that are read as a word are written back as they were. -/
theorem bytes64_word64 {bytes : List UInt8} (h : bytes.length = 8) :
    bytes64 (word64 bytes) = bytes := by
  have hlt := number_lt bytes
  rw [h] at hlt
  rw [bytes64, word64, UInt64.toNat_ofNat_of_lt' hlt, ← h, digits_number]

end LittleEndian
