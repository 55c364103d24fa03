import HseDev.Lib.Utf8

/-!
# HseDev — the character count of `sem6/main.c`

`get_size` walks over a string and skips the continuation bytes of UTF-8, as a count of the
characters would. It counts nothing: `ans` stays `0`. So it returns the number of characters
for the strings without a first byte, and for no other one (`getSize_counts_iff`).
-/

namespace HseDev.Sem6

open Utf8

/-- The loop of `get_size`; `s` is the bytes from the pointer to the end of the object, which
must not be read beyond. -/
def getSizeLoop (ans : UInt64) : List UInt8 → Option UInt64
  | [] => none
  | c :: s =>
    if c = 0 then some ans
    else if c >>> 6 = 2 then getSizeLoop ans s -- `s++; continue;`
    else getSizeLoop ans s

def getSize (s : List UInt8) : Option UInt64 :=
  getSizeLoop 0 s

/-- The loop ends at the NUL, with the `ans` it started with. Induction on the string. -/
theorem getSizeLoop_eq {bytes : List UInt8} (h : 0 ∉ bytes) (ans : UInt64) (rest : List UInt8) :
    getSizeLoop ans (bytes ++ 0 :: rest) = some ans := by
  induction bytes with
  | nil => simp [getSizeLoop]
  | cons c bytes ih =>
    rw [List.mem_cons, not_or] at h
    simp only [List.cons_append, getSizeLoop, if_neg (Ne.symm h.1), ih h.2, ite_self]

/-- `get_size` counts the bytes that start a character. -/
def Counts (bytes rest : List UInt8) : Prop :=
  ∃ n, getSize (bytes ++ 0 :: rest) = some n ∧ n.toNat = leading bytes

/-- The answer of the loop is right exactly when there is nothing to count: what it returns is the
initial value of `ans`, which it never increments. -/
theorem counts_iff {bytes : List UInt8} (h : 0 ∉ bytes) (rest : List UInt8) :
    Counts bytes rest ↔ leading bytes = 0 := by
  have heq : getSize (bytes ++ 0 :: rest) = some 0 := getSizeLoop_eq h 0 rest
  constructor
  · rintro ⟨n, hn, hcount⟩
    rw [heq] at hn
    rw [← hcount, ← Option.some.inj hn, UInt64.toNat_zero]
  · intro hzero
    exact ⟨0, heq, by rw [hzero, UInt64.toNat_zero]⟩

/-- **When `get_size` counts characters.** For a NUL-terminated byte string it does so exactly
if all its bytes are continuation bytes. The encoding of a text without NUL characters has
as many other bytes as the text has characters, so there it does so for the empty text
alone. -/
theorem getSize_counts_iff {bytes : List UInt8} {cs : List Char} (hbytes : 0 ∉ bytes)
    (hcs : '\x00' ∉ cs) (rest : List UInt8) :
    (Counts bytes rest ↔ ∀ b ∈ bytes, IsContinuation b)
    ∧ 0 ∉ encode cs ∧ leading (encode cs) = cs.length
    ∧ ((∃ n, getSize (encode cs ++ 0 :: rest) = some n ∧ n.toNat = cs.length) ↔ cs = []) := by
  have hcount := leading_encode cs
  have hzero := zero_notMem_encode hcs
  refine ⟨?_, hzero, hcount, ?_⟩
  · rw [counts_iff hbytes, leading_eq_zero_iff]
  · have hiff := counts_iff hzero rest
    rw [Counts, hcount] at hiff
    rw [hiff, List.length_eq_zero_iff]

/-- A string of one continuation byte, and the empty text. -/
theorem getSize_counts_iff_examples :
    Counts [0x80] [] ∧ ∃ n, getSize (encode [] ++ 0 :: []) = some n ∧ n.toNat = 0 := by
  have hbyte : (0 : UInt8) ∉ [0x80] := by decide
  obtain ⟨hbytes, -, -, htext⟩ := getSize_counts_iff hbyte (List.not_mem_nil (a := '\x00')) []
  refine ⟨hbytes.mpr fun b hb => ?_, htext.mpr rfl⟩
  rw [List.mem_singleton.mp hb]
  decide

/-- The string `"a"` has one character, and `get_size` returns `0`. -/
theorem getSize_counts_none : ¬ ∀ bytes rest, 0 ∉ bytes → Counts bytes rest := by
  intro h
  have hcount := (counts_iff (by decide) []).mp (h [97] [] (by decide))
  exact absurd hcount (by decide)

end HseDev.Sem6
