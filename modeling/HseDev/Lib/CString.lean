import HseDev.Lib.BlockHeap
import Mathlib.Data.List.TakeWhile

/-!
# C strings in a region of bytes

A `char *` into a region is an index; the string there goes up to the next NUL of the region.

* **`stringAt`** — reading it; `none` if no NUL follows in the region.
* **`literal`** — the bytes of a string literal, without its NUL.
* **`HasString`** — the bytes of a string lie at an index, with a NUL behind them. What is
  written behind that NUL does not concern it (`HasString.append`).
-/

namespace CString

open BlockHeap

def stringAt (mem : List UInt8) (p : Nat) : Option (List UInt8) :=
  if 0 ∈ mem.drop p then some (cString (mem.drop p)) else none

/-- ASCII text. -/
def literal (text : String) : List UInt8 :=
  text.toList.map fun c => UInt8.ofNat c.toNat

structure HasString (mem : List UInt8) (p : Nat) (w : List UInt8) : Prop where
  noNul : 0 ∉ w
  bytes : ∃ a b, mem = a ++ (w ++ 0 :: b) ∧ a.length = p

variable {mem w : List UInt8} {p : Nat}

/-- What lies behind a NUL is no part of the string. -/
theorem cString_append_zero (w rest : List UInt8) : cString (w ++ 0 :: rest) = cString w := by
  unfold cString
  induction w with
  | nil => simp
  | cons c w ih => rw [List.cons_append, List.takeWhile_cons, List.takeWhile_cons, ih]

/-- Bytes without a NUL are a C string as a whole. -/
theorem cString_eq_self (hw : 0 ∉ w) : cString w = w := by
  rw [cString, List.takeWhile_eq_self_iff]
  intro c hc
  have hne : c ≠ 0 := fun h0 => hw (h0 ▸ hc)
  simpa using hne

/-- With a NUL behind them the string ends there, whatever follows. -/
theorem cString_append_nul (hw : 0 ∉ w) (b : List UInt8) : cString (w ++ 0 :: b) = w := by
  rw [cString_append_zero, cString_eq_self hw]

/-- Memory that holds a string at `p` is read back from there. -/
theorem HasString.stringAt_eq (h : HasString mem p w) : stringAt mem p = some w := by
  obtain ⟨a, b, hmem, ha⟩ := h.bytes
  have hdrop : mem.drop p = w ++ 0 :: b := by
    rw [hmem, List.drop_left' ha]
  unfold stringAt
  rw [hdrop, if_pos (List.mem_append_right _ List.mem_cons_self), cString_append_nul h.noNul]

theorem HasString.append (h : HasString mem p w) (extra : List UInt8) :
    HasString (mem ++ extra) p w := by
  obtain ⟨a, b, hmem, ha⟩ := h.bytes
  refine ⟨h.noNul, a, b ++ extra, ?_, ha⟩
  rw [hmem, List.append_assoc, List.append_assoc, List.cons_append]

end CString
