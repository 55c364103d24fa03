import HseDev.Lib.Words
import HseDev.Lib.CString

/-!
# HseDev — `process_line` of `sem12/main.c`

The shell splits a line at its spaces, in place: a space becomes a NUL, and the start of a
token goes to the next slot of `buf`, which has `MAX_ARGS` of them. The line ends at its first
newline or NUL.

* **`splitLine`** — the function up to the call of `process_args`, over the bytes from `s` on;
  `none` is an access outside the line or outside `buf`. The state keeps where it has stored.
* **`Splitting`** — the invariant of the loop: the bytes before `j` are final and hold the
  tokens found so far, those from `j` to `i` belong to the token being read.
* **`lineLoop_spec`** — the loop adds the words of what is left of the line, up to the limit.
* **`processLine_splits`** — so `process_args` is called with the words of the line, the first
  64 of them.
-/

namespace HseDev.Sem12

open Words CString

abbrev Bytes := List UInt8

def space : UInt8 := 32
def newline : UInt8 := 10

/-- `MAX_ARGS` -/
def maxArgs : Nat := 64

/-! ## The function

The loop of `process_line` over its line, with what it writes: a NUL behind each token and a pointer
to it. Stores are recorded, for the bounds. -/

/-- The arguments of `process_args`: `argv` points into the line; a slot without a pointer has
not been written. -/
structure Args where
  count : Nat
  argv : Nat → Option Nat
  s : Bytes

/-- The variables of `process_line`, and the indices at which it has stored. -/
structure LineState where
  s : Bytes
  buf : Nat → Option Nat
  argc : Nat
  i : Nat
  j : Nat
  lineStores : List Nat
  bufStores : List Nat

/-- `s[i] = '\0';` -/
def LineState.terminate (st : LineState) : Option LineState :=
  if st.i < st.s.length then
    some { st with s := st.s.set st.i 0, lineStores := st.lineStores ++ [st.i] }
  else none

/-- `buf[argc++] = &s[j];` -/
def LineState.push (st : LineState) : Option LineState :=
  if st.argc < maxArgs then
    some { st with buf := fun k => if k = st.argc then some st.j else st.buf k
                   argc := st.argc + 1
                   bufStores := st.bufStores ++ [st.argc] }
  else none

/-- `if (j < i) { buf[argc++] = &s[j]; }` -/
def LineState.pushToken (st : LineState) : Option LineState :=
  if st.j < st.i then st.push else some st

/-- One round of the loop, for the byte `c` at `s[i]`, with the `i++` after it. -/
def lineRound (c : UInt8) (st : LineState) : Option LineState :=
  if c = space then do
    let st ← st.terminate
    let st ← st.pushToken
    some { st with j := st.i + 1, i := st.i + 1 }
  else some { st with i := st.i + 1 }

/-- `for (i = 0; (s[i] && s[i] != '\n') && argc < MAX_ARGS; i++)`, with the number of rounds as
fuel. -/
def lineLoop : Nat → LineState → Option LineState
  | 0, _ => none
  | fuel + 1, st =>
    match st.s[st.i]? with
    | none => none
    | some c =>
      if (c ≠ 0 ∧ c ≠ newline) ∧ st.argc < maxArgs then do
        let st ← lineRound c st
        lineLoop fuel st
      else some st

def lineStart (s : Bytes) : LineState where
  s := s
  buf := fun _ => none
  argc := 0
  i := 0
  j := 0
  lineStores := []
  bufStores := []

/-- A round for each byte is enough. -/
def splitLine (s : Bytes) : Option LineState := do
  let st ← lineLoop s.length (lineStart s)
  let st ← st.terminate
  if st.j < st.i ∧ st.argc < maxArgs then st.push else some st

def LineState.args (st : LineState) : Args :=
  ⟨st.argc, st.buf, st.s⟩

/-- `process_line`, for a `process_args` that acts on a world `σ`. -/
def processLine {σ : Type} (processArgs : Args → σ → Option (Int32 × σ)) (s : Bytes) (world : σ) :
    Option (Int32 × σ) := do
  let st ← splitLine s
  processArgs st.args world

/-- The C string `argv[k]`. -/
def Args.arg (args : Args) (k : Nat) : Option Bytes :=
  match args.argv k with
  | some p => stringAt args.s p
  | none => none

/-! ## The specification

The tokens of a line: its longest parts without a blank, up to the newline or the NUL. -/

/-- The part of the line before its first newline or NUL. -/
def lineOf (s : Bytes) : Bytes :=
  s.takeWhile fun c => c ≠ 0 ∧ c ≠ newline

/-- The maximal runs of non-space bytes. -/
def tokens (line : Bytes) : List Bytes :=
  words (· == space) line

variable {s done cur rest mem : Bytes} {st st' : LineState} {ws : List Bytes} {c : UInt8}

/-- Bytes without a blank are one token. -/
theorem tokens_of_not_mem (hcur : space ∉ cur) (hne : cur ≠ []) : tokens cur = [cur] := by
  apply words_of_forall _ hne
  intro x hx
  rw [beq_eq_false_iff_ne]
  intro h
  exact hcur (h ▸ hx)

/-- A blank separates the tokens on its two sides. -/
theorem tokens_append_space : tokens (cur ++ space :: rest) = tokens cur ++ tokens rest :=
  words_append_cons (by decide)

/-! ## The pointers

The pointers of `buf` lead to the tokens. They stay good because the loop only writes behind them.
-/

/-- The slots of `buf` point to the strings `ws`, in their order. -/
def PointsTo (buf : Nat → Option Nat) (mem : Bytes) (ws : List Bytes) : Prop :=
  ∀ k w, ws[k]? = some w → ∃ p, buf k = some p ∧ HasString mem p w

/-- What is put behind the memory of the tokens changes none of them. -/
theorem PointsTo.append {buf : Nat → Option Nat} (h : PointsTo buf mem ws) (extra : Bytes) :
    PointsTo buf (mem ++ extra) ws := by
  intro k w hk
  obtain ⟨p, hp, hat⟩ := h k w hk
  exact ⟨p, hp, hat.append extra⟩

/-- The next slot gets a pointer to `w`. -/
theorem PointsTo.push {buf : Nat → Option Nat} {p : Nat} {w : Bytes} (h : PointsTo buf mem ws)
    (hw : HasString mem p w) :
    PointsTo (fun k => if k = ws.length then some p else buf k) mem (ws ++ [w]) := by
  intro k v hk
  show ∃ q, (if k = ws.length then some p else buf k) = some q ∧ HasString mem q v
  by_cases hlast : k = ws.length
  · rw [hlast, List.getElem?_concat_length] at hk
    cases hk
    exact ⟨p, if_pos hlast, hw⟩
  · have hlt : k < ws.length := by
      have hbound := (List.getElem?_eq_some_iff.mp hk).1
      rw [List.length_append, List.length_singleton] at hbound
      omega
    rw [List.getElem?_append_left hlt] at hk
    rw [if_neg hlast]
    exact h k v hk

/-! ## The invariant

In front of the index are the finished tokens, each with its NUL, and the one that is being read;
behind it is the rest of the line, as it was. -/

/-- **The invariant of the loop.** `done ++ cur ++ rest` are the bytes of the line now: `done`
is final and `cur` is the token being read; the tokens found so far are `ws`. -/
structure Splitting (st : LineState) (ws : List Bytes) (done cur rest : Bytes) : Prop where
  bytes : st.s = done ++ (cur ++ rest)
  j : st.j = done.length
  i : st.i = done.length + cur.length
  argc : st.argc = ws.length
  argc_le : st.argc ≤ maxArgs
  arg : PointsTo st.buf done ws
  noSpace : space ∉ cur
  noNul : 0 ∉ cur
  /-- at the limit no token is being read -/
  full : st.argc = maxArgs → cur = []
  lineStores : ∀ p ∈ st.lineStores, p < st.i
  bufStores : ∀ p ∈ st.bufStores, p < maxArgs

/-- At the start nothing is finished and everything is the rest. -/
theorem splitting_start (s : Bytes) : Splitting (lineStart s) [] [] [] s where
  bytes := rfl
  j := rfl
  i := rfl
  argc := rfl
  argc_le := Nat.zero_le _
  arg := fun k w h => by simp at h
  noSpace := List.not_mem_nil
  noNul := List.not_mem_nil
  full := fun _ => rfl
  lineStores := fun p h => absurd h List.not_mem_nil
  bufStores := fun p h => absurd h List.not_mem_nil

theorem Splitting.getElem (h : Splitting st ws done cur (c :: rest)) : st.s[st.i]? = some c := by
  rw [h.bytes, h.i, List.getElem?_append_right (Nat.le_add_right _ _), Nat.add_sub_cancel_left,
    List.getElem?_append_right (Nat.le_refl _), Nat.sub_self]
  rfl

/-- A NUL is stored behind the token being read. -/
theorem Splitting.terminate (h : Splitting st ws done cur (c :: rest)) :
    st.terminate = some { st with s := done ++ (cur ++ 0 :: rest),
                                  lineStores := st.lineStores ++ [st.i] } := by
  have hbound : st.i < st.s.length := (List.getElem?_eq_some_iff.mp h.getElem).1
  have hset : st.s.set st.i 0 = done ++ (cur ++ 0 :: rest) := by
    rw [h.bytes, h.i, List.set_append_right _ _ (Nat.le_add_right _ _), Nat.add_sub_cancel_left,
      List.set_append_right _ _ (Nat.le_refl _), Nat.sub_self]
    rfl
  unfold LineState.terminate
  rw [if_pos hbound, hset]

/-- The token behind which a NUL has been stored. -/
theorem Splitting.token (h : Splitting st ws done cur rest) (extra : Bytes) :
    HasString (done ++ (cur ++ 0 :: extra)) st.j cur :=
  ⟨h.noNul, done, extra, rfl, h.j.symm⟩

/-- The token being read is within the limit. -/
theorem Splitting.tokens_le (h : Splitting st ws done cur rest) :
    (ws ++ tokens cur).length ≤ maxArgs := by
  have hle := h.argc_le
  rw [List.length_append, ← h.argc]
  by_cases hcur : cur = []
  · rw [hcur, tokens, words_nil]
    exact hle
  · rw [tokens_of_not_mem h.noSpace hcur]
    exact Nat.lt_of_le_of_ne hle fun hfull => hcur (h.full hfull)

/-- All stores to the line are at or before the index. -/
theorem Splitting.stores (h : Splitting st ws done cur rest) :
    ∀ p ∈ st.lineStores ++ [st.i], p < st.i + 1 := by
  intro p hp
  cases List.mem_append.mp hp with
  | inl hp => exact Nat.lt_succ_of_lt (h.lineStores p hp)
  | inr hp =>
    rw [List.mem_singleton.mp hp]
    exact Nat.lt_succ_self _

/-- All stores to `buf` are inside it, while there is room for one more argument. -/
theorem Splitting.slots (h : Splitting st ws done cur rest) (hlt : st.argc < maxArgs) :
    ∀ p ∈ st.bufStores ++ [st.argc], p < maxArgs := by
  intro p hp
  cases List.mem_append.mp hp with
  | inl hp => exact h.bufStores p hp
  | inr hp => exact List.mem_singleton.mp hp ▸ hlt

/-! ## A token ends

At a blank, at the newline or at the NUL the token is closed: its NUL is written, and a pointer to
it is stored, if it is not empty. -/

/-- With a NUL behind it the token being read, if there is one, is one of those found. -/
structure Closed (st : LineState) (ws : List Bytes) (done rest : Bytes) : Prop where
  bytes : st.s = done ++ rest
  i : st.i + 1 = done.length
  argc : st.argc = ws.length
  argc_le : st.argc ≤ maxArgs
  arg : PointsTo st.buf done ws
  lineStores : ∀ p ∈ st.lineStores, p < st.i + 1
  bufStores : ∀ p ∈ st.bufStores, p < maxArgs

/-- An empty token is closed without a pointer. -/
theorem Splitting.closed (h : Splitting st ws done [] (c :: rest)) :
    Closed { st with s := done ++ ([] ++ 0 :: rest), lineStores := st.lineStores ++ [st.i] }
      ws (done ++ [0]) rest where
  bytes := by simp
  i := by rw [h.i, List.length_append]; rfl
  argc := h.argc
  argc_le := h.argc_le
  arg := h.arg.append [0]
  lineStores := h.stores
  bufStores := h.bufStores

/-- A token with bytes in it gets its NUL and its pointer. -/
theorem Splitting.closed_push (h : Splitting st ws done cur (c :: rest)) (hlt : st.argc < maxArgs) :
    Closed { st with s := done ++ (cur ++ 0 :: rest)
                     lineStores := st.lineStores ++ [st.i]
                     buf := fun k => if k = st.argc then some st.j else st.buf k
                     argc := st.argc + 1
                     bufStores := st.bufStores ++ [st.argc] }
      (ws ++ [cur]) (done ++ (cur ++ [0])) rest where
  bytes := by simp
  i := by rw [h.i, List.length_append, List.length_append, Nat.add_assoc]; rfl
  argc := by rw [List.length_append, h.argc]; rfl
  argc_le := hlt
  arg := by
    rw [h.argc]
    exact (h.arg.append (cur ++ [0])).push (h.token [])
  lineStores := h.stores
  bufStores := h.slots hlt

/-- The store of the NUL and the store of the pointer. No token is being read at the limit, so
the test for it makes no difference. -/
theorem Splitting.close (h : Splitting st ws done cur (c :: rest)) :
    ∃ st₁ st₂, st.terminate = some st₁
      ∧ st₁.pushToken = some st₂
      ∧ (st₁.j < st₁.i → st₁.argc < maxArgs) ∧ st₂.i = st.i
      ∧ Closed st₂ (ws ++ tokens cur) (done ++ (cur ++ [0])) rest := by
  have hj := h.j
  have hi := h.i
  by_cases hcur : cur = []
  · -- a space after a space, or at the start of the line: `j` is `i`
    subst hcur
    have hnot : ¬ st.j < st.i := by
      rw [hi, hj]
      exact Nat.lt_irrefl _
    refine ⟨_, _, h.terminate, if_neg hnot, fun hlt => absurd hlt hnot, rfl, ?_⟩
    rw [tokens, words_nil, List.append_nil]
    exact h.closed
  · have hpos : 0 < cur.length := List.length_pos_iff.mpr hcur
    have hlt : st.argc < maxArgs := by
      apply Nat.lt_of_le_of_ne h.argc_le
      exact fun hfull => hcur (h.full hfull)
    have hread : st.j < st.i := by omega
    refine ⟨_, _, h.terminate, (if_pos hread).trans (if_pos hlt), fun _ => hlt, rfl, ?_⟩
    · rw [tokens_of_not_mem h.noSpace hcur]
      exact h.closed_push hlt

/-! ## One round

Each round of the loop looks at one byte. -/

/-- A byte of a token makes the token longer. -/
theorem Splitting.round_byte (h : Splitting st ws done cur (c :: rest)) (hc : c ≠ space)
    (hnul : c ≠ 0) (hlt : st.argc < maxArgs) :
    ∃ st', lineRound c st = some st' ∧ st'.i = st.i + 1
      ∧ Splitting st' ws done (cur ++ [c]) rest := by
  refine ⟨{ st with i := st.i + 1 }, if_neg hc, rfl, ?_⟩
  exact
    { h with
      bytes := by
        rw [List.append_assoc, List.singleton_append]
        exact h.bytes
      i := by
        show st.i + 1 = _
        rw [h.i, List.length_append, List.length_singleton, Nat.add_assoc]
      noSpace := by
        rw [List.mem_append, List.mem_singleton, not_or]
        exact ⟨h.noSpace, Ne.symm hc⟩
      noNul := by
        rw [List.mem_append, List.mem_singleton, not_or]
        exact ⟨h.noNul, Ne.symm hnul⟩
      full := fun hfull => absurd hfull (Nat.ne_of_lt hlt)
      lineStores := fun p hp => Nat.lt_succ_of_lt (h.lineStores p hp) }

/-- A space ends the token being read, if there is one. -/
theorem Splitting.round_space (h : Splitting st ws done cur (space :: rest)) :
    ∃ st', lineRound space st = some st' ∧ st'.i = st.i + 1
      ∧ Splitting st' (ws ++ tokens cur) (done ++ (cur ++ [0])) [] rest := by
  obtain ⟨st₁, st₂, hterm, hpush, _, hi, hclosed⟩ := h.close
  refine ⟨{ st₂ with j := st₂.i + 1, i := st₂.i + 1 }, ?_, congrArg (· + 1) hi, ?_⟩
  · unfold lineRound
    rw [if_pos rfl, hterm]
    show st₁.pushToken.bind _ = _
    rw [hpush]
    rfl
  · exact
      { bytes := hclosed.bytes
        j := hclosed.i
        i := hclosed.i
        argc := hclosed.argc
        argc_le := hclosed.argc_le
        arg := hclosed.arg
        noSpace := List.not_mem_nil
        noNul := List.not_mem_nil
        full := fun _ => rfl
        lineStores := hclosed.lineStores
        bufStores := hclosed.bufStores }

/-- One round takes a byte of the line; what the line is made of stays the same. -/
theorem Splitting.round (h : Splitting st ws done cur (c :: rest)) (hc : c ≠ 0)
    (hlt : st.argc < maxArgs) :
    ∃ st' ws' done' cur', lineRound c st = some st' ∧ st'.i = st.i + 1
      ∧ Splitting st' ws' done' cur' rest
      ∧ ∀ line, ws' ++ tokens (cur' ++ line) = ws ++ tokens (cur ++ c :: line) := by
  by_cases hspace : c = space
  · subst hspace
    obtain ⟨st', hround, hi, h'⟩ := h.round_space
    refine ⟨st', _, _, _, hround, hi, h', fun line => ?_⟩
    rw [List.nil_append, tokens_append_space, List.append_assoc]
  · obtain ⟨st', hround, hi, h'⟩ := h.round_byte hspace hc hlt
    refine ⟨st', _, _, _, hround, hi, h', fun line => ?_⟩
    rw [List.append_assoc, List.singleton_append]

/-! ## The loop

The rounds go on until the line ends or `buf` is full. -/

/-- One round of the loop, unfolded at the byte under the index. -/
theorem Splitting.getElem_line (h : Splitting st ws done cur (c :: rest)) (fuel : Nat) :
    lineLoop (fuel + 1) st = if (c ≠ 0 ∧ c ≠ newline) ∧ st.argc < maxArgs then
      (lineRound c st).bind (lineLoop fuel) else some st := by
  show (match st.s[st.i]? with | none => _ | some c => _) = _
  rw [h.getElem]
  rfl

/-- **The loop.** It stops at the end of the line or at the limit; with the token being read
then it has found the words of the line, up to the limit. Induction on the line left. -/
theorem lineLoop_spec {stop : UInt8} {tail : Bytes} (hstop : ¬ (stop ≠ 0 ∧ stop ≠ newline))
    (line : Bytes) :
    ∀ (fuel : Nat) (st : LineState) (ws : List Bytes) (done cur : Bytes),
      (∀ c ∈ line, c ≠ 0 ∧ c ≠ newline) → line.length < fuel →
      Splitting st ws done cur (line ++ stop :: tail) →
      ∃ st' ws' done' cur' c' rest', lineLoop fuel st = some st'
        ∧ Splitting st' ws' done' cur' (c' :: rest') ∧ st'.i ≤ st.i + line.length
        ∧ ws' ++ tokens cur' = (ws ++ tokens (cur ++ line)).take maxArgs := by
  induction line with
  | nil =>
    intro fuel st ws done cur _ hfuel h
    obtain ⟨fuel, rfl⟩ : ∃ n, fuel = n + 1 := ⟨fuel - 1, by omega⟩
    refine ⟨st, ws, done, cur, stop, tail, ?_, h, Nat.le_refl _, ?_⟩
    · rw [h.getElem_line, if_neg fun hc => hstop hc.1]
    · rw [List.append_nil, List.take_of_length_le h.tokens_le]
  | cons c line ih =>
    intro fuel st ws done cur hline hfuel h
    obtain ⟨fuel, rfl⟩ : ∃ n, fuel = n + 1 := ⟨fuel - 1, by omega⟩
    rw [List.length_cons] at hfuel
    have hc := hline c List.mem_cons_self
    have hrest : ∀ c ∈ line, c ≠ 0 ∧ c ≠ newline := fun c hc =>
      hline c (List.mem_cons_of_mem _ hc)
    rw [List.cons_append] at h
    by_cases hlt : st.argc < maxArgs
    · -- a round for the byte, and the rest of the line by induction
      obtain ⟨st₁, ws₁, done₁, cur₁, hround, hi, h₁, htokens⟩ := h.round hc.1 hlt
      obtain ⟨st', ws', done', cur', c', rest', hloop, h', hi', hws⟩ :=
        ih fuel st₁ ws₁ done₁ cur₁ hrest (by omega) h₁
      refine ⟨st', ws', done', cur', c', rest', ?_, h', ?_, ?_⟩
      · rw [h.getElem_line, if_pos ⟨hc, hlt⟩, hround]
        exact hloop
      · rw [List.length_cons]
        omega
      · rw [hws, htokens]
    · -- the limit: whatever the line still has is left out
      have hfull : st.argc = maxArgs := Nat.le_antisymm h.argc_le (Nat.le_of_not_lt hlt)
      have hcur := h.full hfull
      subst hcur
      refine ⟨st, ws, done, [], c, _, ?_, h, Nat.le_add_right _ _, ?_⟩
      · rw [h.getElem_line, if_neg fun hc => hlt hc.2]
      · rw [tokens, words_nil, List.append_nil, List.take_left' (h.argc.symm.trans hfull)]

/-! ## The call of `process_args`

Behind the loop the last token is closed and the function is called with the count and the pointers.
-/

/-- The line and the byte that ends it. -/
theorem lineOf_split (hnul : 0 ∈ s) : ∃ stop tail, s = lineOf s ++ stop :: tail
    ∧ ¬ (stop ≠ 0 ∧ stop ≠ newline) ∧ (lineOf s).length ≤ s.idxOf 0 := by
  induction s with
  | nil => exact absurd hnul List.not_mem_nil
  | cons c s ih =>
    by_cases hc : c ≠ 0 ∧ c ≠ newline
    · have hline : lineOf (c :: s) = c :: lineOf s := List.takeWhile_cons_of_pos (by simpa using hc)
      have hmem : 0 ∈ s := (List.mem_cons.mp hnul).resolve_left (Ne.symm hc.1)
      obtain ⟨stop, tail, hs, hstop, hle⟩ := ih hmem
      refine ⟨stop, tail, ?_, hstop, ?_⟩
      · rw [hline, List.cons_append, ← hs]
      · rw [hline, List.idxOf_cons_ne _ hc.1, List.length_cons]
        exact Nat.succ_le_succ hle
    · have hline : lineOf (c :: s) = [] := List.takeWhile_cons_of_neg (by simpa using hc)
      refine ⟨c, s, ?_, hc, ?_⟩
      · rw [hline, List.nil_append]
      · rw [hline]
        exact Nat.zero_le _

/-- The part of the line that is looked at has no NUL and no newline. -/
theorem mem_lineOf (hc : c ∈ lineOf s) : c ≠ 0 ∧ c ≠ newline := by
  simpa using List.mem_takeWhile_imp hc

/-- The tokens that `process_args` gets. -/
def argTokens (s : Bytes) : List Bytes :=
  (tokens (lineOf s)).take maxArgs

/-- **`process_line` up to the call.** For a terminated line all stores are inside it, the loop
comes to its end, and the pointers lead to the tokens of the line, each with a NUL behind it. -/
theorem splitLine_spec (hnul : 0 ∈ s) : ∃ st done rest, splitLine s = some st
    ∧ Closed st (argTokens s) done rest ∧ st.i ≤ s.idxOf 0 := by
  obtain ⟨stop, tail, hs, hstop, hle⟩ := lineOf_split hnul
  have hfuel : (lineOf s).length < s.length := by
    have hlength := congrArg List.length hs
    rw [List.length_append, List.length_cons] at hlength
    omega
  have hstart : Splitting (lineStart s) [] [] [] (lineOf s ++ stop :: tail) :=
    hs ▸ splitting_start s
  obtain ⟨st, ws, done, cur, c, rest, hloop, h, hi, hws⟩ :=
    lineLoop_spec hstop (lineOf s) s.length _ _ _ _ (fun _ => mem_lineOf) hfuel hstart
  obtain ⟨st₁, st₂, hterm, hpush, hlimit, hi₂, hclosed⟩ := h.close
  have hlast : (if st₁.j < st₁.i ∧ st₁.argc < maxArgs then st₁.push else some st₁) = some st₂ := by
    rw [← hpush]
    unfold LineState.pushToken
    by_cases hread : st₁.j < st₁.i
    · rw [if_pos hread, if_pos ⟨hread, hlimit hread⟩]
    · rw [if_neg hread, if_neg fun h => hread h.1]
  refine ⟨st₂, done ++ (cur ++ [0]), rest, ?_, ?_, ?_⟩
  · unfold splitLine
    rw [hloop]
    show st.terminate.bind _ = _
    rw [hterm]
    exact hlast
  · have htokens : ws ++ tokens cur = argTokens s := hws
    rw [← htokens]
    exact hclosed
  · have hzero : (lineStart s).i = 0 := rfl
    omega

/-- The C strings `argv[0]` to `argv[count - 1]`. -/
def Args.strings (args : Args) : Option (List Bytes) :=
  (List.range args.count).mapM args.arg

theorem Closed.arg_eq (h : Closed st ws done rest) {k : Nat} (hk : k < ws.length) :
    st.args.arg k = ws[k]? := by
  obtain ⟨p, hp, hat⟩ := h.arg k ws[k] (List.getElem?_eq_getElem hk)
  have hstring : stringAt st.s p = some ws[k] := by
    rw [h.bytes]
    exact (hat.append rest).stringAt_eq
  rw [List.getElem?_eq_getElem hk, ← hstring]
  show (match st.buf k with | some p => stringAt st.s p | none => none) = _
  rw [hp]

theorem mapM_some {α β : Type} {f : α → Option β} {g : α → β} (l : List α)
    (h : ∀ x ∈ l, f x = some (g x)) : l.mapM f = some (l.map g) := by
  induction l with
  | nil => rfl
  | cons x l ih =>
    rw [List.mapM_cons, h x List.mem_cons_self, ih fun y hy => h y (List.mem_cons_of_mem _ hy)]
    rfl

/-- Read through the pointers, the arguments are the tokens. -/
theorem Closed.strings_eq (h : Closed st ws done rest) : st.args.strings = some ws := by
  have hget : ∀ k ∈ List.range st.argc, st.args.arg k = some (ws.getD k []) := by
    intro k hk
    have hlt : k < ws.length := by
      rw [← h.argc]
      exact List.mem_range.mp hk
    rw [h.arg_eq hlt, List.getD_eq_getElem?_getD, List.getElem?_eq_getElem hlt]
    rfl
  show (List.range st.argc).mapM st.args.arg = some ws
  rw [mapM_some _ hget, h.argc]
  congr 1
  apply List.ext_getElem
  · rw [List.length_map, List.length_range]
  · intro k _ hk
    simp [hk]

/-- **The tokenizer.** `process_line` calls `process_args` once, with the first 64 tokens of the
line as C strings; it stores within `buf` and up to the NUL of the line. -/
theorem processLine_splits (s : Bytes) (hnul : 0 ∈ s) : ∃ st, splitLine s = some st
    ∧ (∀ (σ : Type) (processArgs : Args → σ → Option (Int32 × σ)) (world : σ),
        processLine processArgs s world = processArgs st.args world)
    ∧ st.args.count = min (tokens (lineOf s)).length 64
    ∧ (∀ k, k < st.args.count → ∃ w, (tokens (lineOf s))[k]? = some w ∧ st.args.arg k = some w)
    ∧ (∀ p ∈ st.bufStores, p < maxArgs) ∧ ∀ p ∈ st.lineStores, p ≤ s.idxOf 0 := by
  obtain ⟨st, done, rest, hsplit, h, hi⟩ := splitLine_spec hnul
  have hcount : st.args.count = min (tokens (lineOf s)).length 64 := by
    show st.argc = _
    rw [h.argc, argTokens, List.length_take, Nat.min_comm]
    rfl
  refine ⟨st, hsplit, ?_, hcount, ?_, h.bufStores, ?_⟩
  · intro σ processArgs world
    unfold processLine
    rw [hsplit]
    rfl
  · intro k hk
    have hlt : k < (argTokens s).length := h.argc ▸ hk
    refine ⟨(argTokens s)[k], ?_, ?_⟩
    · rw [← List.getElem?_eq_getElem hlt, argTokens, List.getElem?_take_of_lt]
      exact Nat.lt_of_lt_of_le hk h.argc_le
    · rw [h.arg_eq hlt, List.getElem?_eq_getElem hlt]
  · intro p hp
    have hlt := h.lineStores p hp
    omega

/-- Two tokens, spaces around them, and bytes behind the newline. -/
theorem processLine_splits_two : ∃ st, splitLine [32, 97, 32, 32, 98, 99, 10, 100, 0] = some st
    ∧ st.args.count = 2 := by
  obtain ⟨st, hsplit, _, hcount, _⟩ :=
    processLine_splits [32, 97, 32, 32, 98, 99, 10, 100, 0] (by decide)
  refine ⟨st, hsplit, hcount.trans ?_⟩
  decide

end HseDev.Sem12
