import HseDev.Lib.Words
import Mathlib.Data.List.TakeWhile

/-!
# The words of `scanf`

* **`scanString`** — what `scanf` takes for `%s` with a field width: it skips whitespace and
  takes at most that many bytes of the next word.
* **`scanString_nil`** / **`scanString_cons`** — the scan in terms of the words between
  whitespace. A word no longer than the width is taken whole, and the words behind it are left.
-/

namespace Scanning

open Words

/-- `isspace` in the C locale. -/
def isSpace (c : UInt8) : Bool :=
  c == 0x20 || (0x09 ≤ c && c ≤ 0x0d)

/-- `none` at the end of the input; otherwise the bytes taken and the input behind them. -/
def scanString (width : Nat) (input : List UInt8) : Option (List UInt8 × List UInt8) :=
  let rest := input.dropWhile isSpace
  if rest = [] then none
  else
    let taken := (rest.takeWhile fun c => !isSpace c).take width
    some (taken, rest.drop taken.length)

/-! ## Words

A word is a longest part of the input without white space. The words are what successive calls of
`scanf` deliver. -/

/-- White space in front changes no word. -/
theorem words_cons_space {c : UInt8} (hc : isSpace c = true) (input : List UInt8) :
    words isSpace (c :: input) = words isSpace input := by
  rw [← List.nil_append (c :: input), words_append_cons hc, words_nil, List.nil_append]

/-- Whitespace in front is no part of a word. -/
theorem words_dropWhile (input : List UInt8) :
    words isSpace (input.dropWhile isSpace) = words isSpace input := by
  induction input with
  | nil => rfl
  | cons c input ih =>
    cases hc : isSpace c with
    | true => rw [List.dropWhile_cons_of_pos hc, ih, words_cons_space hc]
    | false => rw [List.dropWhile_cons_of_neg (by simp [hc])]

/-- An input that does not start with whitespace starts with its first word. -/
theorem words_of_not_space {c : UInt8} {input : List UInt8} (hc : isSpace c = false) :
    words isSpace (c :: input)
      = (c :: input).takeWhile (fun c => !isSpace c)
        :: words isSpace ((c :: input).dropWhile fun c => !isSpace c) := by
  set w := (c :: input).takeWhile (fun c => !isSpace c) with hw
  have hsplit : c :: input = w ++ (c :: input).dropWhile (fun c => !isSpace c) :=
    List.takeWhile_append_dropWhile.symm
  have hword : ∀ x ∈ w, isSpace x = false := by
    intro x hx
    simpa using List.mem_takeWhile_imp hx
  have hne : w ≠ [] := by
    rw [hw, List.takeWhile_cons_of_pos (by simp [hc])]
    exact List.cons_ne_nil _ _
  cases htail : (c :: input).dropWhile (fun c => !isSpace c) with
  | nil => rw [hsplit, htail, List.append_nil, words_of_forall hword hne, words_nil]
  | cons sep rest =>
    have hsep : isSpace sep = true := by
      have hhead := List.head_dropWhile_not (fun c => !isSpace c) (l := c :: input)
        (by rw [htail]; exact List.cons_ne_nil _ _)
      simpa [htail] using hhead
    rw [hsplit, htail, words_append_cons hsep, words_of_forall hword hne, words_cons_space hsep,
      List.singleton_append]

/-! ## The scan

One call skips white space, takes up to its width and leaves the rest of the input to the next. -/

/-- Behind the white space there is nothing, or a byte that begins a word. -/
theorem dropWhile_isSpace_cases (input : List UInt8) :
    input.dropWhile isSpace = []
      ∨ ∃ c rest, input.dropWhile isSpace = c :: rest ∧ isSpace c = false := by
  cases h : input.dropWhile isSpace with
  | nil => exact .inl rfl
  | cons c rest =>
    refine .inr ⟨c, rest, rfl, ?_⟩
    have hhead := List.head_dropWhile_not isSpace (l := input)
      (by rw [h]; exact List.cons_ne_nil _ _)
    simpa [h] using hhead

/-- An input without a word is skipped to its end. -/
theorem scanString_nil {input : List UInt8} (h : words isSpace input = []) (width : Nat) :
    scanString width input = none := by
  rw [← words_dropWhile] at h
  rcases dropWhile_isSpace_cases input with hnil | ⟨c, rest, hcons, hc⟩
  · simp [scanString, hnil]
  · rw [hcons, words_of_not_space hc] at h
    cases h

/-- The scan takes the first `width` bytes of the first word. -/
theorem scanString_cons {input w : List UInt8} {ws : List (List UInt8)}
    (h : words isSpace input = w :: ws) (width : Nat) :
    ∃ rest, scanString width input = some (w.take width, rest)
      ∧ (w.length ≤ width → words isSpace rest = ws) := by
  rw [← words_dropWhile] at h
  rcases dropWhile_isSpace_cases input with hnil | ⟨c, rest, hcons, hc⟩
  · rw [hnil, words_nil] at h
    cases h
  · rw [hcons, words_of_not_space hc] at h
    obtain ⟨hw, hws⟩ := List.cons.inj h
    refine ⟨(c :: rest).drop (w.take width).length, ?_, fun hle => ?_⟩
    · simp only [scanString, hcons, if_neg (List.cons_ne_nil c rest), hw]
    · have hsplit : w ++ (c :: rest).dropWhile (fun c => !isSpace c) = c :: rest := by
        rw [← hw]
        exact List.takeWhile_append_dropWhile
      rw [List.take_of_length_le hle, ← hws, ← hsplit, List.drop_left]
      congr 1
      rw [hsplit]

end Scanning
