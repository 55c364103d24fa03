import HseDev.Lib.CString
import HseDev.Lib.Scanning
import Mathlib.Data.List.DropRight

/-!
# HseDev — the bracket stripping of `sem3/strings/main.c`

`main` scans four words into `s`, cuts the opening brackets off the front of each and the
closing ones off its end, and appends what is left to `buffer`. The two arrays are blocks of
a heap whose every access is checked, so a run that leaves an array ends in a `Fault`.

* **`skipOpening_spec`** / **`skipClosing_spec`** — the two loops, by induction on
  `new_s_len`: a position and a length that always describe a range inside `s`.
* **`body_spec`** — one iteration for a word that fits `s`; **`body_long`** — a word of 32
  bytes, whose NUL goes behind `s`.
* **`loop_spec`** / **`loop_long`** — the run forms.
* **`main_strips`** — what the program prints; **`main_safe_iff`** — when it stays inside
  its arrays.
-/

namespace HseDev.Sem3.Brackets

open BlockHeap CString Scanning Words

/-! ## The program

The program as the compiler gets it: one buffer on the stack, one word `s` in each iteration of the
loop, and two inner loops that move a pointer and a length over it. The frame also records where the
inner loops and the copies have been, so that a statement can speak of them. -/

/-- The block of `buffer`. -/
def bufferBlock : Nat := 0

/-- The block of `s`. -/
def sBlock : Nat := 1

/-- `'['` -/
def opening : UInt8 := 0x5b

/-- `']'` -/
def closing : UInt8 := 0x5d

/-- `*p` -/
def byteAt (h : Heap) (p : Ptr) : Except Fault UInt8 := do
  let bytes ← h.block p
  match bytes[p.off]? with
  | some c => .ok c
  | none => .error .outOfBounds

/-- `scanf("%<width>s", dst)` and the input behind it. -/
def scanf (h : Heap) (dst : Ptr) (width : Nat) (input : List UInt8) :
    Except Fault (Int32 × Heap × List UInt8) :=
  match scanString width input with
  | none => .ok (-1, h, [])
  | some (word, rest) => do
    let h ← h.store dst (word ++ [0])
    .ok (1, h, rest)

/-- `strncpy(dst, src, n)`: a string shorter than `n` is padded with NULs. -/
def strncpy (h : Heap) (dst : Ptr) (src : Src) (n : Nat) : Except Fault Heap := do
  let k ← strnlen h src n
  let bytes ← src.load h k
  if src.Overlaps dst n then .error .overlap
  else h.store dst (bytes ++ List.replicate (n - k) 0)

/-- What `main` keeps between iterations. `seen` collects the values of `new_s`, as an index
into `s`, and `new_s_len` at the heads of the loops; `dests` those of `dest`, as an index
into `buffer`. -/
structure Frame where
  heap : Heap
  dest : Nat
  input : List UInt8
  seen : List (Nat × Nat)
  dests : List Nat

/-- `while (new_s_len > 0 && *new_s == '[')`, by `new_s_len`. -/
def skipOpening (h : Heap) (seen : List (Nat × Nat)) (new_s : Nat) :
    Nat → Except Fault (Nat × Nat × List (Nat × Nat))
  | 0 => .ok (new_s, 0, seen ++ [(new_s, 0)])
  | n + 1 => do
    let c ← byteAt h ⟨some sBlock, new_s⟩
    if c = opening then skipOpening h (seen ++ [(new_s, n + 1)]) (new_s + 1) n
    else .ok (new_s, n + 1, seen ++ [(new_s, n + 1)])

/-- `while (new_s_len > 0 && new_s[new_s_len - 1] == ']')`, by `new_s_len`. -/
def skipClosing (h : Heap) (seen : List (Nat × Nat)) (new_s : Nat) :
    Nat → Except Fault (Nat × List (Nat × Nat))
  | 0 => .ok (0, seen ++ [(new_s, 0)])
  | n + 1 => do
    let c ← byteAt h ⟨some sBlock, new_s + n⟩
    if c = closing then skipClosing h (seen ++ [(new_s, n + 1)]) new_s n
    else .ok (n + 1, seen ++ [(new_s, n + 1)])

/-- One iteration of the `for`. The fresh `s` holds `stale`; `false` is the `return -1`. -/
def body (stale : Nat → UInt8) (f : Frame) : Except Fault (Bool × Frame) := do
  let h := Function.update f.heap sBlock (some ((List.range 32).map stale))
  let (r, h, input) ← scanf h ⟨some sBlock, 0⟩ 32 f.input
  if r ≠ 1 then .ok (false, { f with heap := h, input })
  else do
    let s_len ← strnlen h (.heap ⟨some sBlock, 0⟩) 32
    let (new_s, new_s_len, seen) ← skipOpening h f.seen 0 s_len
    let (new_s_len, seen) ← skipClosing h seen new_s new_s_len
    let h ← strncpy h ⟨some bufferBlock, f.dest⟩ (.heap ⟨some sBlock, new_s⟩) new_s_len
    let dest := f.dest + new_s_len
    .ok (true, { heap := h, dest, input, seen, dests := f.dests ++ [dest] })

/-- The iterations from `i` on, `k` of them. -/
def loop (stale : Nat → Nat → UInt8) : Nat → Nat → Frame → Except Fault (Bool × Frame)
  | 0, _, f => .ok (true, f)
  | k + 1, i, f => do
    let (go, f) ← body (stale i) f
    if go then loop stale k (i + 1) f else .ok (false, f)

/-- `char buffer[1024] = {0}; char* dest = buffer;` -/
def start (input : List UInt8) : Frame :=
  { heap := Function.update Heap.empty bufferBlock (some (List.replicate 1024 0))
    dest := 0, input, seen := [], dests := [0] }

@[simp] theorem start_input (input : List UInt8) : (start input).input = input := rfl

structure Outcome where
  code : Int32
  stdout : List UInt8
  frame : Frame

/-- `main`, with what `s` holds when an iteration begins. -/
def main (stale : Nat → Nat → UInt8) (input : List UInt8) : Except Fault Outcome := do
  let (go, f) ← loop stale 4 0 (start input)
  if go then do
    -- `printf("%s\n", buffer)`
    let n ← strlen f.heap (.heap ⟨some bufferBlock, 0⟩)
    let text ← Src.load f.heap (.heap ⟨some bufferBlock, 0⟩) n
    .ok { code := 0, stdout := text ++ [0x0a], frame := f }
  else .ok { code := -1, stdout := [], frame := f }

/-! ## What one word contributes

The specification of one iteration, as a function on the word alone. The inner loops never see a
byte behind the first NUL, as the length they start with is that of `strlen`. -/

/-- The leading run of `'['` and then the trailing run of `']'` removed. -/
def trim (w : List UInt8) : List UInt8 :=
  (w.dropWhile (· == opening)).rdropWhile (· == closing)

/-- The program sees a word up to its first NUL byte. -/
def strip (w : List UInt8) : List UInt8 :=
  trim (cString w)

/-- Bytes are only taken away, so whatever no byte of the word is, no byte of the result is. -/
theorem sublist_trim (w : List UInt8) : (trim w).Sublist w :=
  (List.rdropWhile_prefix _ _).sublist.trans (List.dropWhile_sublist _)

/-- A contribution is no longer than its word; this bounds the text in `buffer`. -/
theorem length_strip_le (w : List UInt8) : (strip w).length ≤ w.length :=
  (sublist_trim _).length_le.trans (length_cString_le w)

/-- A contribution has no NUL, so `strncpy` copies the whole of it and pads nothing. -/
theorem zero_notMem_strip (w : List UInt8) : 0 ∉ strip w := by
  intro hmem
  have hzero := List.mem_takeWhile_imp ((sublist_trim _).subset hmem)
  exact absurd hzero (by decide)

/-! ## The loops

Each of the two inner loops by induction on the length that is left. The lemmas say three things at
once: the loop comes to its end without a fault, what is left of the range, and that every range it
looked at is inside the word. -/

section Loops

variable {h : Heap} {block : List UInt8}

theorem byteAt_ok {b off : Nat} {c : UInt8} (hb : h b = some block) (hc : block[off]? = some c) :
    byteAt h ⟨some b, off⟩ = .ok c := by
  simp [byteAt, Heap.block, hb, hc, bind, Except.bind]

/-- The range at the head of a loop, behind the earlier ones. -/
theorem seen_snoc (seen : List (Nat × Nat)) (p n : Nat) :
    ∀ r ∈ seen ++ [(p, n)], r ∈ seen ∨ r.1 + r.2 ≤ p + n := by
  intro r hr
  rcases List.mem_append.mp hr with hold | hnew
  · exact .inl hold
  · rw [List.mem_singleton.mp hnew]
    exact .inr (Nat.le_refl _)

/-- **The first loop.** It drops the leading `'['` of its range and stays inside it.
Induction on `new_s_len`. -/
theorem skipOpening_spec (hb : h sBlock = some block) (n p : Nat) (seen : List (Nat × Nat))
    (hfit : p + n ≤ block.length) :
    ∃ p' n' seen', skipOpening h seen p n = .ok (p', n', seen')
      ∧ (block.drop p').take n' = ((block.drop p).take n).dropWhile (· == opening)
      ∧ p' + n' = p + n ∧ ∀ r ∈ seen', r ∈ seen ∨ r.1 + r.2 ≤ p + n := by
  induction n generalizing p seen with
  | zero =>
    exact ⟨p, 0, _, rfl, by simp, rfl, seen_snoc seen p 0⟩
  | succ n ih =>
    have hp : p < block.length := by omega
    have hread : byteAt h ⟨some sBlock, p⟩ = .ok block[p] :=
      byteAt_ok hb (List.getElem?_eq_getElem hp)
    have hslice : (block.drop p).take (n + 1) = block[p] :: (block.drop (p + 1)).take n := by
      rw [List.drop_eq_getElem_cons hp, List.take_succ_cons]
    have hseen := seen_snoc seen p (n + 1)
    simp only [skipOpening, hread, bind, Except.bind]
    by_cases hc : block[p] = opening
    · rw [if_pos hc]
      obtain ⟨p', n', seen', hrun, hdrop, hsum, hmem⟩ :=
        ih (p + 1) (seen ++ [(p, n + 1)]) (by omega)
      refine ⟨p', n', seen', hrun, ?_, by omega, fun r hr => ?_⟩
      · rw [hdrop, hslice, List.dropWhile_cons_of_pos (by simpa using hc)]
      · rcases hmem r hr with hold | hle
        · exact hseen r hold
        · exact .inr (by omega)
    · rw [if_neg hc]
      refine ⟨p, n + 1, _, rfl, ?_, rfl, hseen⟩
      rw [hslice, List.dropWhile_cons_of_neg (by simpa using hc)]

/-- **The second loop.** It drops the trailing `']'` of its range. Induction on
`new_s_len`. -/
theorem skipClosing_spec (hb : h sBlock = some block) (n p : Nat) (seen : List (Nat × Nat))
    (hfit : p + n ≤ block.length) :
    ∃ n' seen', skipClosing h seen p n = .ok (n', seen')
      ∧ (block.drop p).take n' = ((block.drop p).take n).rdropWhile (· == closing)
      ∧ n' ≤ n ∧ ∀ r ∈ seen', r ∈ seen ∨ r.1 + r.2 ≤ p + n := by
  induction n generalizing seen with
  | zero =>
    exact ⟨0, _, rfl, by simp, Nat.le_refl _, seen_snoc seen p 0⟩
  | succ n ih =>
    have hp : p + n < block.length := by omega
    have hread : byteAt h ⟨some sBlock, p + n⟩ = .ok block[p + n] :=
      byteAt_ok hb (List.getElem?_eq_getElem hp)
    have hslice : (block.drop p).take (n + 1) = (block.drop p).take n ++ [block[p + n]] := by
      rw [List.take_add_one, List.getElem?_drop, List.getElem?_eq_getElem hp, Option.toList_some]
    have hseen := seen_snoc seen p (n + 1)
    simp only [skipClosing, hread, bind, Except.bind]
    by_cases hc : block[p + n] = closing
    · rw [if_pos hc]
      obtain ⟨n', seen', hrun, hdrop, hle, hmem⟩ := ih (seen ++ [(p, n + 1)]) (by omega)
      refine ⟨n', seen', hrun, ?_, by omega, fun r hr => ?_⟩
      · rw [hdrop, hslice, List.rdropWhile_concat_pos _ _ _ (by simpa using hc)]
      · rcases hmem r hr with hold | hle'
        · exact hseen r hold
        · exact .inr (by omega)
    · rw [if_neg hc]
      refine ⟨n + 1, _, rfl, ?_, Nat.le_refl _, hseen⟩
      rw [hslice, List.rdropWhile_concat_neg _ _ _ (by simpa using hc)]

/-- A copy of `n` bytes without a NUL copies just them. -/
theorem strncpy_ok (dst : Nat) {a b off : Nat} {t : List UInt8} {n : Nat} (ha : h a = some block)
    (hslice : (block.drop off).take n = t) (hlen : t.length = n) (hnul : 0 ∉ t) (hab : a ≠ b) :
    strncpy h ⟨some b, dst⟩ (.heap ⟨some a, off⟩) n = h.store ⟨some b, dst⟩ t := by
  by_cases h0 : n = 0
  · subst h0
    obtain rfl : t = [] := List.length_eq_zero_iff.mp hlen
    simp [strncpy, strnlen, Src.load, Src.Overlaps, bind, Except.bind]
  · have hfit : n ≤ (block.drop off).length := by
      rw [← hslice, List.length_take] at hlen
      omega
    -- no NUL among the first `n` bytes
    have hcut : n ≤ (cString (block.drop off)).length := by
      have hsplit : block.drop off = t ++ (block.drop off).drop n := by
        rw [← hslice, List.take_append_drop]
      rw [cString, hsplit, List.takeWhile_append_of_pos, List.length_append]
      · omega
      · intro c hc
        have hne : c ≠ 0 := fun h0 => hnul (h0 ▸ hc)
        simpa using hne
    have hstrnlen : strnlen h (.heap ⟨some a, off⟩) n = .ok n := by
      simp only [strnlen, if_neg h0, Src.bytes, Heap.block, ha, bind, Except.bind]
      rw [if_pos (.inr hfit), Nat.min_eq_left hcut]
    have hoverlap : ¬ Src.Overlaps (.heap ⟨some a, off⟩) ⟨some b, dst⟩ n :=
      fun hov => hab (Option.some.inj hov.2.1)
    simp only [strncpy, hstrnlen, Src.load_heap ha h0, if_pos hfit, hslice, if_neg hoverlap,
      bind, Except.bind, Nat.sub_self, List.replicate_zero, List.append_nil]

end Loops

/-! ## One iteration

An iteration reads a word, strips it and appends it to the text. The invariant `Good` says where
`dest` is and that the rest of the buffer is still NULs, which is what terminates the text for the
`printf` at the end. -/

/-- **The invariant of the `for`.** `text` is what has been copied: `buffer` holds it with
NULs behind it, and `dest` points to the first of them. -/
structure Good (f : Frame) (text : List UInt8) : Prop where
  buffer : f.heap bufferBlock = some (text ++ List.replicate (1024 - text.length) 0)
  dest : f.dest = text.length
  noNul : 0 ∉ text
  seen : ∀ r ∈ f.seen, r.1 + r.2 ≤ 32
  dests : ∀ d ∈ f.dests, d ≤ text.length

theorem good_start (input : List UInt8) : Good (start input) [] := by
  refine ⟨?_, rfl, List.not_mem_nil, fun r hr => absurd hr List.not_mem_nil, fun d hd => ?_⟩
  · show Function.update Heap.empty bufferBlock (some (List.replicate 1024 0)) bufferBlock = _
    rw [Function.update_self, List.nil_append, List.length_nil, Nat.sub_zero]
  · rw [List.mem_singleton.mp hd]
    exact Nat.le_refl 0

section Body

variable {f : Frame} {text w : List UInt8} {ws : List (List UInt8)} (stale : Nat → UInt8)

theorem fresh_s (hgood : Good f text) (block : List UInt8) :
    Function.update f.heap sBlock (some block) bufferBlock
      = some (text ++ List.replicate (1024 - text.length) 0) := by
  rw [Function.update_of_ne (by decide)]
  exact hgood.buffer

/-- A copy to `dest` appends to the text. -/
theorem splice_buffer {t : List UInt8} (hroom : text.length + t.length ≤ 1024) :
    splice (text ++ List.replicate (1024 - text.length) 0) text.length t
      = (text ++ t) ++ List.replicate (1024 - (text ++ t).length) 0 := by
  rw [splice, List.take_left, List.drop_append, List.drop_of_length_le (by omega),
    List.nil_append, List.drop_replicate, List.length_append]
  congr 2
  omega

/-- `s` after the scan of a word that fits. -/
theorem scanf_ok {h : Heap} {old rest : List UInt8} (hs : h sBlock = some old)
    (hlen : old.length = 32) (hscan : scanString 32 f.input = some (w, rest))
    (hle : w.length ≤ 31) :
    ∃ block, scanf h ⟨some sBlock, 0⟩ 32 f.input
        = .ok (1, Function.update h sBlock (some block), rest)
      ∧ block.length = 32 ∧ cString block = cString w := by
  have hfit : 0 + (w ++ [0]).length ≤ old.length := by
    rw [List.length_append, List.length_singleton]
    omega
  refine ⟨splice old 0 (w ++ [0]), ?_, ?_, ?_⟩
  · simp only [scanf, hscan, Heap.store_ok hs hfit, bind, Except.bind]
  · rw [length_splice hfit, hlen]
  · rw [splice, List.take_zero, List.nil_append, List.append_assoc, List.singleton_append,
      cString_append_zero]

/-- **One iteration.** A word of at most 31 bytes is stripped and appended. -/
theorem body_spec (hgood : Good f text) (hroom : text.length + 31 ≤ 1024)
    (hw : words isSpace f.input = w :: ws) (hle : w.length ≤ 31) :
    ∃ f', body stale f = .ok (true, f') ∧ Good f' (text ++ strip w)
      ∧ words isSpace f'.input = ws := by
  obtain ⟨rest, hscan, hrest⟩ := scanString_cons hw 32
  rw [List.take_of_length_le (by omega)] at hscan
  set h₀ : Heap := Function.update f.heap sBlock (some ((List.range 32).map stale)) with hh₀
  obtain ⟨block, hscanf, hblock, hcut⟩ := scanf_ok (h := h₀) (Function.update_self ..)
    (by simp) hscan hle
  set h : Heap := Function.update h₀ sBlock (some block) with hh
  have hb : h sBlock = some block := Function.update_self ..
  -- `s_len` is the length of the word as a C string
  have hlen : (cString w).length ≤ 31 := (length_cString_le w).trans hle
  have hstrnlen : strnlen h (.heap ⟨some sBlock, 0⟩) 32 = .ok (cString w).length := by
    simp only [strnlen, Src.bytes, Heap.block, hb, bind, Except.bind, List.drop_zero]
    rw [if_neg (by decide), if_pos (.inr (Nat.le_of_eq hblock.symm)), hcut,
      Nat.min_eq_right (by omega)]
  have hslice : (block.drop 0).take (cString w).length = cString w := by
    rw [List.drop_zero, ← hcut, take_length_cString]
  -- the two loops
  obtain ⟨p, n, seen, hopen, hdrop, hsum, hseen⟩ :=
    skipOpening_spec hb (cString w).length 0 f.seen (by omega)
  obtain ⟨n', seen', hclose, hrdrop, hle', hseen'⟩ := skipClosing_spec hb n p seen (by omega)
  have hstrip : (block.drop p).take n' = strip w := by
    rw [hrdrop, hdrop, hslice]
    rfl
  have hlength : (strip w).length = n' := by
    rw [← hstrip, List.length_take, List.length_drop]
    omega
  -- the copy
  have hbuffer : h bufferBlock = some (text ++ List.replicate (1024 - text.length) 0) := by
    rw [hh, hh₀, Function.update_idem]
    exact fresh_s hgood block
  have hfit : text.length + (strip w).length
      ≤ (text ++ List.replicate (1024 - text.length) (0 : UInt8)).length := by
    rw [List.length_append, List.length_replicate]
    omega
  have hcopy := strncpy_ok text.length hb hstrip hlength (zero_notMem_strip w)
    (show sBlock ≠ bufferBlock by decide)
  set copied := text ++ strip w ++ List.replicate (1024 - (text ++ strip w).length) 0 with hcopied
  rw [Heap.store_ok hbuffer hfit, splice_buffer (by omega), ← hcopied] at hcopy
  refine ⟨⟨Function.update h bufferBlock (some copied), text.length + n', rest, seen',
      f.dests ++ [text.length + n']⟩, ?_,
    ⟨?_, ?_, ?_, fun r hr => ?_, fun d hd => ?_⟩, hrest (by omega)⟩
  · simp only [body, ← hh₀, hscanf, hstrnlen, hopen, hclose, hgood.dest, hcopy, bind, Except.bind]
    rfl
  · show Function.update h bufferBlock (some copied) bufferBlock = some copied
    exact Function.update_self ..
  · rw [List.length_append, hlength]
  · rw [List.mem_append, not_or]
    exact ⟨hgood.noNul, zero_notMem_strip w⟩
  · rcases hseen' r hr with hold | hnew
    · rcases hseen r hold with hold | hnew
      · exact hgood.seen r hold
      · omega
    · omega
  · rw [List.length_append, hlength]
    rcases List.mem_append.mp hd with hold | hnew
    · exact (hgood.dests d hold).trans (Nat.le_add_right _ _)
    · rw [List.mem_singleton.mp hnew]

/-- A word of 32 bytes or more does not leave room for its NUL in `s`. -/
theorem body_long (hw : words isSpace f.input = w :: ws) (hlong : 31 < w.length) :
    body stale f = .error .outOfBounds := by
  obtain ⟨rest, hscan, -⟩ := scanString_cons hw 32
  set h : Heap := Function.update f.heap sBlock (some ((List.range 32).map stale)) with hh
  have hstore : h.store ⟨some sBlock, 0⟩ (w.take 32 ++ [0]) = .error .outOfBounds := by
    have hb : h sBlock = some ((List.range 32).map stale) := Function.update_self ..
    simp only [Heap.store, Heap.block, hb, bind, Except.bind]
    rw [if_neg (by simp), if_neg]
    simp
    omega
  simp only [body, ← hh, scanf, hscan, hstore, bind, Except.bind]

/-- At the end of the input `main` gives up. -/
theorem body_eof (hgood : Good f text) (hw : words isSpace f.input = []) :
    ∃ f', body stale f = .ok (false, f') ∧ Good f' text := by
  have hscan := scanString_nil hw 32
  refine ⟨{ f with
      heap := Function.update f.heap sBlock (some ((List.range 32).map stale)), input := [] }, ?_,
    fresh_s hgood ((List.range 32).map stale), hgood.dest, hgood.noNul, hgood.seen, hgood.dests⟩
  simp only [body, scanf, hscan, bind, Except.bind]
  rfl

end Body

/-! ## The whole program

Four iterations at most, so the text has at most four times thirty-one bytes as long as no word is
too long for `s`. That condition is the only one, and it is exact. -/

section Program

variable (stale : Nat → Nat → UInt8)

/-- **The iterations, for words that fit.** Induction on their number, `body_spec` at each. -/
theorem loop_spec (k i : Nat) {f : Frame} {text : List UInt8} (hgood : Good f text)
    (hroom : text.length + 31 * k ≤ 1024)
    (hshort : ∀ w ∈ (words isSpace f.input).take k, w.length ≤ 31) :
    ∃ go f', loop stale k i f = .ok (go, f')
      ∧ Good f' (text ++ ((words isSpace f.input).take k).flatMap strip)
      ∧ (go = true ↔ k ≤ (words isSpace f.input).length) := by
  induction k generalizing i f text with
  | zero => exact ⟨true, f, rfl, by simpa using hgood, by simp⟩
  | succ k ih =>
    cases hw : words isSpace f.input with
    | nil =>
      obtain ⟨f', hbody, hgood'⟩ := body_eof (stale i) hgood hw
      refine ⟨false, f', ?_, by simpa using hgood', by simp⟩
      simp [loop, hbody, bind, Except.bind]
    | cons w ws =>
      rw [hw, List.take_succ_cons] at hshort
      have hle : w.length ≤ 31 := hshort w List.mem_cons_self
      obtain ⟨f₁, hbody, hgood₁, hrest⟩ :=
        body_spec (stale i) hgood (by omega) hw hle
      have hstrip := length_strip_le w
      obtain ⟨go, f', hloop, hgood', hgo⟩ := ih (i + 1) hgood₁
        (by rw [List.length_append]; omega)
        (by rw [hrest]; exact fun v hv => hshort v (List.mem_cons_of_mem _ hv))
      rw [hrest] at hgood' hgo
      refine ⟨go, f', ?_, ?_, ?_⟩
      · simp [loop, hbody, hloop, bind, Except.bind]
      · rw [List.take_succ_cons, List.flatMap_cons, ← List.append_assoc]
        exact hgood'
      · rw [hgo, List.length_cons, Nat.add_le_add_iff_right]

/-- **The iterations, with a word that does not fit.** The first of them faults. -/
theorem loop_long (k i : Nat) {f : Frame} {text : List UInt8} (hgood : Good f text)
    (hroom : text.length + 31 * k ≤ 1024)
    (hlong : ∃ w ∈ (words isSpace f.input).take k, 31 < w.length) :
    loop stale k i f = .error .outOfBounds := by
  induction k generalizing i f text with
  | zero => simp at hlong
  | succ k ih =>
    cases hw : words isSpace f.input with
    | nil => simp [hw] at hlong
    | cons w ws =>
      rw [hw, List.take_succ_cons] at hlong
      by_cases hle : w.length ≤ 31
      · obtain ⟨f₁, hbody, hgood₁, hrest⟩ :=
          body_spec (stale i) hgood (by omega) hw hle
        have hstrip := length_strip_le w
        have hloop := ih (i + 1) hgood₁ (by rw [List.length_append]; omega) (by
          rw [hrest]
          obtain ⟨v, hv, hvlong⟩ := hlong
          rcases List.mem_cons.mp hv with rfl | hv
          · omega
          · exact ⟨v, hv, hvlong⟩)
        simp [loop, hbody, hloop, bind, Except.bind]
      · simp [loop, body_long (stale i) hw (by omega), bind, Except.bind]

/-- What four short words contribute fits `buffer`. -/
theorem length_flatMap_strip_le {ws : List (List UInt8)} (hshort : ∀ w ∈ ws, w.length ≤ 31) :
    (ws.flatMap strip).length ≤ 31 * ws.length := by
  induction ws with
  | nil => exact Nat.le_refl 0
  | cons w ws ih =>
    have hle : w.length ≤ 31 := hshort w List.mem_cons_self
    have hstrip := length_strip_le w
    have hrest := ih fun v hv => hshort v (List.mem_cons_of_mem _ hv)
    rw [List.flatMap_cons, List.length_append, List.length_cons]
    omega

theorem Good.buffer_eq {f : Frame} {text : List UInt8} (hgood : Good f text)
    (hfits : text.length < 1024) :
    f.heap bufferBlock = some (text ++ 0 :: List.replicate (1023 - text.length) 0) := by
  rw [← List.replicate_succ, hgood.buffer]
  congr 3
  omega

theorem print_buffer {f : Frame} {text : List UInt8} (hgood : Good f text)
    (hfits : text.length < 1024) :
    strlen f.heap (.heap ⟨some bufferBlock, 0⟩) = .ok text.length
      ∧ Src.load f.heap (.heap ⟨some bufferBlock, 0⟩) text.length = .ok text := by
  have hbuffer := hgood.buffer_eq hfits
  constructor
  · simp only [strlen, Src.bytes, Heap.block, hbuffer, bind, Except.bind, List.drop_zero]
    rw [if_pos (List.mem_append_right _ List.mem_cons_self), cString_append_nul hgood.noNul]
  · by_cases h0 : text.length = 0
    · rw [h0, List.length_eq_zero_iff.mp h0]
      rfl
    · rw [Src.load_heap hbuffer h0, List.drop_zero, List.take_left, if_pos]
      rw [List.length_append]
      exact Nat.le_add_right _ _

/-- What a run without a fault leaves. -/
structure Ends (input : List UInt8) (text : List UInt8) (o : Outcome) : Prop where
  good : Good o.frame text
  fits : text.length < 1024
  code : o.code = if 4 ≤ (words isSpace input).length then 0 else -1
  stdout : o.stdout = if 4 ≤ (words isSpace input).length then text ++ [0x0a] else []

/-- **The program, for words that fit.** It prints what the first four words contribute, or returns
`-1` if there are fewer, and no store leaves its array. -/
theorem main_spec {input : List UInt8}
    (hshort : ∀ w ∈ (words isSpace input).take 4, w.length ≤ 31) :
    ∃ o, main stale input = .ok o
      ∧ Ends input (((words isSpace input).take 4).flatMap strip) o := by
  obtain ⟨go, f, hloop, hgood, hgo⟩ := loop_spec stale 4 0 (good_start input)
    (by decide) hshort
  simp only [start_input, List.nil_append] at hgood hgo
  have hle := length_flatMap_strip_le hshort
  set text := ((words isSpace input).take 4).flatMap strip with htext
  have hfits : text.length < 1024 := by
    have hfour := List.length_take_le 4 (words isSpace input)
    omega
  cases go with
  | false =>
    have hfew : ¬ 4 ≤ (words isSpace input).length := fun h => by cases hgo.mpr h
    refine ⟨⟨-1, [], f⟩, ?_, hgood, hfits, by rw [if_neg hfew], by rw [if_neg hfew]⟩
    simp [main, hloop, bind, Except.bind]
  | true =>
    have hfour : 4 ≤ (words isSpace input).length := hgo.mp rfl
    refine ⟨⟨0, text ++ [0x0a], f⟩, ?_, hgood, hfits, by rw [if_pos hfour], by rw [if_pos hfour]⟩
    obtain ⟨hstrlen, hload⟩ := print_buffer hgood hfits
    simp [main, hloop, hstrlen, hload, bind, Except.bind]

/-- **The program, with a word that does not fit.** If one of the first four is too long, then the
`scanf` of it stores behind the end of `s`, and there is no run without a fault. -/
theorem main_long {input : List UInt8}
    (hlong : ∃ w ∈ (words isSpace input).take 4, 31 < w.length) :
    main stale input = .error .outOfBounds := by
  have hloop := loop_long stale 4 0 (good_start input) (by decide) hlong
  simp [main, hloop, bind, Except.bind]

/-- **What the program prints.** For four words of at most 31 bytes it prints, in order,
each word up to its first NUL byte without its leading run of `'['` and then the trailing run
of `']'`. Every copy stays inside `buffer`, which ends with a NUL behind the text. -/
theorem main_strips {input : List UInt8} (hfour : 4 ≤ (words isSpace input).length)
    (hshort : ∀ w ∈ (words isSpace input).take 4, w.length ≤ 31) :
    ∃ o rest, main stale input = .ok o ∧ o.code = 0
      ∧ o.stdout = ((words isSpace input).take 4).flatMap strip ++ [0x0a]
      ∧ o.frame.heap bufferBlock = some (((words isSpace input).take 4).flatMap strip ++ 0 :: rest)
      ∧ (((words isSpace input).take 4).flatMap strip ++ 0 :: rest).length = 1024 := by
  obtain ⟨o, hmain, hgood, hfits, hcode, hstdout⟩ := main_spec stale hshort
  rw [if_pos hfour] at hcode hstdout
  refine ⟨o, List.replicate (1023 - _) 0, hmain, hcode, hstdout, hgood.buffer_eq hfits, ?_⟩
  rw [List.length_append, List.length_cons, List.length_replicate]
  omega

/-- The words `[a]`, `]]`, `b` and `[` print as `ab`. -/
theorem main_strips_example :
    ∃ o, main (fun _ _ => 7) [0x5b, 0x61, 0x5d, 0x20, 0x5d, 0x5d, 0x20, 0x62, 0x0a, 0x5b] = .ok o
      ∧ o.code = 0 ∧ o.stdout = [0x61, 0x62, 0x0a] := by
  have hshort : ∀ w ∈ (words isSpace
      [0x5b, 0x61, 0x5d, 0x20, 0x5d, 0x5d, 0x20, 0x62, 0x0a, 0x5b]).take 4, w.length ≤ 31 := by
    decide
  obtain ⟨o, _, hmain, hcode, hstdout, -⟩ := main_strips (fun _ _ => 7) (by decide) hshort
  exact ⟨o, hmain, hcode, hstdout.trans (by decide)⟩

/-- A word with a NUL byte: of `a`, NUL, `b` only the `a` is printed. -/
theorem main_cuts_at_nul :
    ¬ ∀ stale input, 4 ≤ (words isSpace input).length →
      (∀ w ∈ (words isSpace input).take 4, w.length ≤ 31) →
      ∃ o, main stale input = .ok o
        ∧ o.stdout = ((words isSpace input).take 4).flatMap trim ++ [0x0a] := by
  intro h
  have hshort : ∀ w ∈ (words isSpace [0x61, 0, 0x62, 0x20, 0x63, 0x20, 0x64, 0x20, 0x65]).take 4,
      w.length ≤ 31 := by decide
  obtain ⟨o, hmain, hstdout⟩ := h (fun _ _ => 7) _ (by decide) hshort
  obtain ⟨o', hmain', hends⟩ := main_spec (fun _ _ => 7) hshort
  obtain rfl : o = o' := Except.ok.inj (hmain.symm.trans hmain')
  exact absurd (hstdout.symm.trans hends.stdout) (by decide)

/-- **When the program stays inside its arrays.** Every store and load of `s` and `buffer` is
inside them, `new_s` and `new_s_len` always describe a range inside `s` and `dest` never
passes the end of `buffer`, if and only if none of the first four words has 32 bytes or
more. -/
theorem main_safe_iff (input : List UInt8) :
    (∃ o, main stale input = .ok o ∧ (∀ r ∈ o.frame.seen, r.1 + r.2 ≤ 32)
      ∧ ∀ d ∈ o.frame.dests, d ≤ 1024)
    ↔ ∀ w ∈ (words isSpace input).take 4, w.length ≤ 31 := by
  constructor
  · rintro ⟨o, hmain, -⟩ w hw
    by_contra hlong
    rw [main_long stale ⟨w, hw, Nat.not_le.mp hlong⟩] at hmain
    cases hmain
  · intro hshort
    obtain ⟨o, hmain, hgood, hfits, -, -⟩ := main_spec stale hshort
    refine ⟨o, hmain, hgood.seen, fun d hd => ?_⟩
    have hle := hgood.dests d hd
    omega

/-- A word of 32 bytes: its NUL is stored at `s[32]`. -/
theorem main_long_word :
    ¬ ∀ stale input, ∃ o, main stale input = .ok o ∧ (∀ r ∈ o.frame.seen, r.1 + r.2 ≤ 32)
      ∧ ∀ d ∈ o.frame.dests, d ≤ 1024 := by
  intro h
  obtain ⟨o, hmain, -⟩ := h (fun _ _ => 7) (List.replicate 32 0x61)
  rw [main_long (fun _ _ => 7) (by decide)] at hmain
  cases hmain

end Program

end HseDev.Sem3.Brackets
