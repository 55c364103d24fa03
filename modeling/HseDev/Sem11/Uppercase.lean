import HseDev.Sem11.FileRead
import Mathlib.Data.List.TakeWhile

/-!
# HseDev — the two upper-casing programs of `sem11`

`task10_2.c` reads its input byte by byte, `task10_3.c` through `nextchar`. Both write each
byte on, with the letters `a` to `z` upper-cased.

* **`unbufferedStart`** / **`bufferedStart`** — the two `_start`s, with the number of rounds as
  fuel; **`buffered_eq`** and **`unbuffered_eq`** say that one round for each byte and one for
  the end are enough, and what comes out.
* The buffered program takes the byte `0xFF` for the end of the input: sign-extended it is
  `-1`. So it writes the input up to that byte (`buffered_eq`), and **`uppercase_iff`**: the two
  programs agree exactly on the inputs without it.
-/

namespace HseDev.Sem11

/-! ## The programs

Two versions of one program: a `read` of one byte at a time, and `nextchar` with its buffer. -/

/-- `if (c >= 'a' && c <= 'z') { c -= 'a'; c += 'A'; }` -/
def toUpper (c : Int8) : Int8 :=
  if 97 ≤ c ∧ c ≤ 122 then c - 97 + 65 else c

/-- `_start` of `task10_2.c`; `c` is its variable, `out` what it has written. -/
def unbufferedStart : Nat → Kernel → Int8 → List UInt8 → Option (List UInt8)
  | 0, _, _, _ => none
  | fuel + 1, k, c, out =>
    let (res, k) := k.read
    if res.r = 1 then
      let c := toUpper (res.bytes.headD c.toUInt8).toInt8
      unbufferedStart fuel k c (out ++ [c.toUInt8])
    else some out

/-- `_start` of `task10_3.c`; it stops for good if `nextchar` leaves its buffer. -/
def bufferedStart : Nat → FileReadState → Kernel → List UInt8 → Option (List UInt8)
  | 0, _, _, _ => none
  | fuel + 1, s, k, out =>
    match nextchar s k with
    | none => none
    | some call =>
      if call.ret ≠ -1 then
        let c := toUpper (Int8.ofInt call.ret)
        bufferedStart fuel call.state call.kernel (out ++ [c.toUInt8])
      else some out

/-- `BUFFER_SIZE` -/
def bufferSize : Nat := 4096

/-- `stin_static` -/
def stinStatic : FileReadState :=
  initial 0 (List.replicate bufferSize 0)

/-- What `task10_3.c` writes if the reads deliver the chunks and then `0`. -/
def buffered (chunks : List (List UInt8)) : Option (List UInt8) :=
  bufferedStart (chunks.flatten.length + 1) stinStatic ⟨chunks, 0⟩ []

/-- What `task10_2.c` writes; its reads are for one byte. -/
def unbuffered (stream : List UInt8) : Option (List UInt8) :=
  unbufferedStart (stream.length + 1) ⟨stream.map ([·]), 0⟩ 0 []

/-! ## The specification

An upper-case letter for each lower-case one, byte by byte, in the order of the stream. -/

/-- The byte, upper-cased if it is a letter from `a` to `z`. -/
def upperByte (b : UInt8) : UInt8 :=
  if 'a'.toNat ≤ b.toNat ∧ b.toNat ≤ 'z'.toNat then b - 32 else b

/-- A fact about bytes is one about the numbers below `256`. -/
theorem forall_byte {P : UInt8 → Prop} (h : ∀ n : Fin 256, P (UInt8.ofNat n)) (b : UInt8) :
    P b := by
  have hb := h ⟨b.toNat, b.toNat_lt⟩
  simpa using hb

/-- The C function on a `char` does to each of the 256 bytes what the specification says. -/
theorem toUpper_toInt8 (b : UInt8) : (toUpper b.toInt8).toUInt8 = upperByte b := by
  revert b
  exact forall_byte (by decide +kernel)

/-- The one byte that `nextchar` returns as `-1`. -/
theorem charToInt_eq_neg_one (b : UInt8) : charToInt b = -1 ↔ b = 255 := by
  revert b
  exact forall_byte (by decide +kernel)

theorem ofInt_charToInt (b : UInt8) : Int8.ofInt (charToInt b) = b.toInt8 :=
  Int8.ofInt_toInt b.toInt8

/-! ## What the programs write

The unbuffered program stops at the end of the stream. The other one also stops at a byte `0xFF`,
because its return value cannot be told from the `-1` of the end. -/

/-- The unbuffered loop writes what it reads in upper case. Induction on the fuel; each `read` takes
one byte. -/
theorem unbufferedStart_eq (stream : List UInt8) :
    ∀ (fuel : Nat) (c : Int8) (out : List UInt8), stream.length < fuel →
      unbufferedStart fuel ⟨stream.map ([·]), 0⟩ c out = some (out ++ stream.map upperByte) := by
  induction stream with
  | nil =>
    intro fuel c out hfuel
    obtain ⟨fuel, rfl⟩ : ∃ n, fuel = n + 1 := ⟨fuel - 1, by simp at hfuel; omega⟩
    simp [unbufferedStart, Kernel.read]
  | cons b stream ih =>
    intro fuel c out hfuel
    rw [List.length_cons] at hfuel
    obtain ⟨fuel, rfl⟩ : ∃ n, fuel = n + 1 := ⟨fuel - 1, by omega⟩
    show unbufferedStart fuel ⟨stream.map ([·]), 0⟩ (toUpper b.toInt8)
      (out ++ [(toUpper b.toInt8).toUInt8]) = _
    rw [ih fuel _ _ (by omega), toUpper_toInt8, List.map_cons, List.append_assoc,
      List.singleton_append]

/-- With an empty buffer and no chunks left nothing is unread. -/
theorem unread_nil {s : FileReadState} {k : Kernel} (hpending : s.pending = [])
    (hchunks : k.chunks = []) : unread s k = [] := by
  rw [unread, hpending, hchunks]
  rfl

/-- **The buffered loop.** It writes what is unread up to the first `0xFF`. Induction on the
rounds, each by `nextchar_spec`. -/
theorem bufferedStart_eq (fuel : Nat) :
    ∀ (s : FileReadState) (k : Kernel) (out : List UInt8), Reading s k →
      (unread s k).length < fuel →
      bufferedStart fuel s k out
        = some (out ++ ((unread s k).takeWhile (· ≠ 255)).map upperByte) := by
  induction fuel with
  | zero => exact fun _ _ _ _ hfuel => absurd hfuel (Nat.not_lt_zero _)
  | succ fuel ih =>
    intro s k out h hfuel
    obtain ⟨call, hcall, houtcome, hreading⟩ := nextchar_spec h
    simp only [bufferedStart, hcall]
    cases houtcome with
    | sticky heof =>
      obtain ⟨htaken, hchunks⟩ := h.ended heof
      simp [unread_nil (pending_nil htaken) hchunks]
    | ends heof htaken hchunks => simp [unread_nil htaken hchunks]
    | takes b _ heof hret hlc hbytes =>
      rw [hbytes, List.length_cons] at hfuel
      rw [hbytes, hret]
      by_cases hlast : b = 255
      · -- this byte is taken for the end
        rw [if_neg (by simpa using (charToInt_eq_neg_one b).mpr hlast)]
        simp [hlast]
      · rw [if_pos (fun h => hlast ((charToInt_eq_neg_one b).mp h)), ih _ _ _ hreading (by omega),
          ofInt_charToInt, toUpper_toInt8]
        simp [hlast]

/-- The unbuffered program copies the whole stream in upper case. -/
theorem unbuffered_eq (stream : List UInt8) : unbuffered stream = some (stream.map upperByte) :=
  unbufferedStart_eq stream _ 0 [] (Nat.lt_succ_self _)

/-- The kernel splits the input into reads of 1 to 4096 bytes. -/
def Splits (chunks : List (List UInt8)) : Prop :=
  ∀ chunk ∈ chunks, 1 ≤ chunk.length ∧ chunk.length ≤ bufferSize

/-- The buffered one copies it up to the first `0xFF`, however the kernel splits the stream. -/
theorem buffered_eq {chunks : List (List UInt8)} (hsplits : Splits chunks) :
    buffered chunks = some ((chunks.flatten.takeWhile (· ≠ 255)).map upperByte) := by
  have hsize : ((List.replicate bufferSize 0 : List UInt8).length : Int) = bufferSize := by simp
  have hfits : Kernel.Fits ⟨chunks, 0⟩ (List.replicate bufferSize 0 : List UInt8).length := by
    refine ⟨fun chunk hmem => ?_, Int.le_refl 0⟩
    obtain ⟨hpos, hle⟩ := hsplits chunk hmem
    exact ⟨List.length_pos_iff.mp hpos, by rw [hsize]; exact_mod_cast hle⟩
  exact bufferedStart_eq _ stinStatic ⟨chunks, 0⟩ [] (reading_initial hfits) (Nat.lt_succ_self _)

/-- **When the two programs agree.** However the input is split into reads, both write it with
its small letters upper-cased if and only if no byte of it is `0xFF`. -/
theorem uppercase_iff (chunks : List (List UInt8)) (hsplits : Splits chunks) :
    (buffered chunks = some (chunks.flatten.map upperByte)
        ∧ unbuffered chunks.flatten = some (chunks.flatten.map upperByte))
      ↔ 255 ∉ chunks.flatten := by
  rw [buffered_eq hsplits, unbuffered_eq]
  constructor
  · rintro ⟨hsame, -⟩ hmem
    have hlen := congrArg List.length (Option.some.inj hsame)
    rw [List.length_map, List.length_map] at hlen
    -- nothing was cut off, so no byte stopped the program
    have hall : chunks.flatten.takeWhile (· ≠ 255) = chunks.flatten :=
      (List.takeWhile_prefix _).eq_of_length hlen
    rw [← hall] at hmem
    have hne := List.mem_takeWhile_imp hmem
    simp at hne
  · intro hmem
    have hall : ∀ b ∈ chunks.flatten, decide (b ≠ 255) = true := by
      intro b hb
      exact decide_eq_true fun h => hmem (h ▸ hb)
    refine ⟨?_, rfl⟩
    rw [List.takeWhile_eq_self_iff.mpr hall]

/-- Text in two chunks. -/
theorem uppercase_iff_text :
    buffered [[104, 105], [10]] = some [72, 73, 10]
      ∧ unbuffered [104, 105, 10] = some [72, 73, 10] := by
  have hsplits : Splits [[104, 105], [10]] := by
    unfold Splits
    decide
  exact (uppercase_iff [[104, 105], [10]] hsplits).mpr (by decide)

/-- The bytes `a`, `0xFF`, `b`: the buffered program stops before the second one. -/
theorem uppercase_differs : Splits [[97, 255, 98]]
    ∧ buffered [[97, 255, 98]] = some [65] ∧ unbuffered [97, 255, 98] = some [65, 255, 66] := by
  have hsplits : Splits [[97, 255, 98]] := by
    unfold Splits
    decide
  refine ⟨hsplits, ?_, ?_⟩
  · rw [buffered_eq hsplits]
    decide
  · rw [unbuffered_eq]
    decide

end HseDev.Sem11
