import HseDev.Lib.Transition

/-!
# HseDev — the buffered reader of `sem11/task10_3.c`

`nextchar` hands out the bytes of a descriptor one by one from a buffer that it refills with
`read`; `lastchar` repeats the last one. A `char` is signed on the target, so a byte reaches
the caller sign-extended.

* **`Kernel`** — what the reads deliver: the chunks in their order and then a result `<= 0`,
  each further read the same.
* **`nextchar`** — one call, with the read it issues and the buffer index it accesses as part of
  its outcome; `none` is an access outside the buffer.
* **`unread`** — the bytes still to be handed out. **`nextchar_spec`** says what one call does to
  them; the loops and the laws below only use it.
* **`file_read_law`** — the law of any interleaving of the two calls.
-/

namespace HseDev.Sem11

open Transition

/-! ## The reader

The state of the buffered reader: a buffer, the part of it that holds data, and whether the end or
an error has been seen. -/

structure FileReadState where
  fd : Int
  buf : List UInt8
  bufsize : Int
  lc : Int
  dataSize : Int
  dataOffset : Int
  eof : Int
  deriving DecidableEq, Repr

/-- The return value of `read` and the bytes it stored. -/
structure ReadResult where
  r : Int
  bytes : List UInt8
  deriving DecidableEq, Repr

structure Kernel where
  chunks : List (List UInt8)
  last : Int
  deriving DecidableEq, Repr

def Kernel.read (k : Kernel) : ReadResult × Kernel :=
  match k.chunks with
  | chunk :: chunks => (⟨chunk.length, chunk⟩, { k with chunks })
  | [] => (⟨k.last, []⟩, k)

/-- A signed `char` as an `int`. -/
def charToInt (b : UInt8) : Int :=
  b.toInt8.toInt

/-- What a call of `nextchar` returns and leaves behind. -/
structure NextChar where
  ret : Int
  state : FileReadState
  kernel : Kernel
  read : Option ReadResult := none
  index : Option Int := none
  deriving DecidableEq, Repr

/-- `input->buf[i]` -/
def FileReadState.at (s : FileReadState) (i : Int) : Option UInt8 :=
  if 0 ≤ i then s.buf[i.toNat]? else none

/-- The buffer after a `read` that returned `res`. -/
def FileReadState.refill (s : FileReadState) (res : ReadResult) : FileReadState :=
  { s with buf := res.bytes ++ s.buf.drop res.bytes.length, dataOffset := 0, dataSize := res.r }

/-- `return (input->lc = input->buf[input->data_offset++]);` -/
def takeChar (s : FileReadState) (k : Kernel) (read : Option ReadResult) : Option NextChar :=
  match s.at s.dataOffset with
  | some b =>
    some { ret := charToInt b
           state := { s with lc := charToInt b, dataOffset := s.dataOffset + 1 }
           kernel := k, read, index := some s.dataOffset }
  | none => none

def nextchar (s : FileReadState) (k : Kernel) : Option NextChar :=
  if s.eof ≠ 0 then some { ret := -1, state := s, kernel := k }
  else if s.dataOffset = s.dataSize then
    let (res, k) := k.read
    if res.r ≤ 0 then
      some { ret := -1, state := { s with eof := 1 }, kernel := k, read := some res }
    else takeChar (s.refill res) k (some res)
  else takeChar s k none

def lastchar (s : FileReadState) : Int :=
  s.lc

/-- A reader before its first call, with anything in its buffer. -/
def initial (fd : Int) (buf : List UInt8) : FileReadState where
  fd := fd
  buf := buf
  bufsize := buf.length
  lc := -1
  dataSize := 0
  dataOffset := 0
  eof := 0

/-! ## One call

A call of `nextchar` takes a byte from the buffer, and refills it first if it is empty. The client
only sees the byte. -/

/-- The reads deliver between one byte and what fits the buffer, until one does not succeed. -/
structure Kernel.Fits (k : Kernel) (bufsize : Int) : Prop where
  chunk : ∀ chunk ∈ k.chunks, chunk ≠ [] ∧ (chunk.length : Int) ≤ bufsize
  last : k.last ≤ 0

/-- **The invariant of the reader.** -/
structure Reading (s : FileReadState) (k : Kernel) : Prop where
  buffer : (s.buf.length : Int) = s.bufsize
  offset : 0 ≤ s.dataOffset
  offset_le : s.dataOffset ≤ s.dataSize
  size_le : s.dataSize ≤ s.bufsize
  kernel : k.Fits s.bufsize
  ended : s.eof ≠ 0 → s.dataOffset = s.dataSize ∧ k.chunks = []

/-- A fresh reader is in order, whatever the size of its buffer. -/
theorem reading_initial {fd : Int} {buf : List UInt8} {k : Kernel} (hk : k.Fits buf.length) :
    Reading (initial fd buf) k :=
  ⟨rfl, Int.le_refl 0, Int.le_refl 0, Int.natCast_nonneg _, hk, fun h => absurd rfl h⟩

/-- The bytes in the buffer that have not been handed out. -/
def FileReadState.pending (s : FileReadState) : List UInt8 :=
  (s.buf.take s.dataSize.toNat).drop s.dataOffset.toNat

/-- The bytes still to be handed out. -/
def unread (s : FileReadState) (k : Kernel) : List UInt8 :=
  s.pending ++ k.chunks.flatten

variable {s : FileReadState} {k : Kernel} {call : NextChar} {b : UInt8}

/-- With the two offsets equal there is nothing in the buffer. -/
theorem pending_nil (h : s.dataOffset = s.dataSize) : s.pending = [] := by
  simp [FileReadState.pending, h]

/-- Below the size there is a byte at the offset, the first that is pending. -/
theorem pending_cons (hbuf : (s.buf.length : Int) = s.bufsize) (hoff : 0 ≤ s.dataOffset)
    (hlt : s.dataOffset < s.dataSize) (hsize : s.dataSize ≤ s.bufsize) :
    ∃ b, s.at s.dataOffset = some b
      ∧ s.pending = b :: FileReadState.pending { s with dataOffset := s.dataOffset + 1 } := by
  have hindex : s.dataOffset.toNat < s.buf.length := by omega
  refine ⟨s.buf[s.dataOffset.toNat], ?_, ?_⟩
  · rw [FileReadState.at, if_pos hoff, List.getElem?_eq_getElem hindex]
  · have htake : s.dataOffset.toNat < (s.buf.take s.dataSize.toNat).length := by
      rw [List.length_take]
      omega
    show (s.buf.take s.dataSize.toNat).drop s.dataOffset.toNat
      = _ :: (s.buf.take s.dataSize.toNat).drop (s.dataOffset + 1).toNat
    rw [List.drop_eq_getElem_cons htake, List.getElem_take,
      show (s.dataOffset + 1).toNat = s.dataOffset.toNat + 1 from by omega]

/-- What a call does: nothing is left and it returns `-1`, or it hands out the next byte. -/
inductive Outcome (s : FileReadState) (k : Kernel) : NextChar → Prop where
  | sticky (heof : s.eof ≠ 0) : Outcome s k { ret := -1, state := s, kernel := k }
  | ends (heof : s.eof = 0) (htaken : s.pending = []) (hnil : k.chunks = []) :
      Outcome s k
        { ret := -1, state := { s with eof := 1 }, kernel := k, read := some ⟨k.last, []⟩ }
  | takes (b : UInt8) (call : NextChar) (heof : s.eof = 0) (hret : call.ret = charToInt b)
      (hlc : call.state.lc = charToInt b) (hbytes : unread s k = b :: unread call.state call.kernel)
      (hindex : ∃ i, call.index = some i ∧ 0 ≤ i ∧ i < call.state.dataSize)
      (hread : ∀ res, call.read = some res → s.pending = []
        ∧ 0 < res.r ∧ k.chunks = res.bytes :: call.kernel.chunks)
      (hsame : call.read = none → call.kernel = k) (hstays : call.state.eof = 0) : Outcome s k call

/-- Below the size `takeChar` hands out the first pending byte. -/
theorem takeChar_spec (k : Kernel) (read : Option ReadResult)
    (hbuf : (s.buf.length : Int) = s.bufsize) (hoff : 0 ≤ s.dataOffset)
    (hlt : s.dataOffset < s.dataSize) (hsize : s.dataSize ≤ s.bufsize) (heof : s.eof = 0)
    (hfits : k.Fits s.bufsize) :
    ∃ b call, takeChar s k read = some call ∧ call.ret = charToInt b
      ∧ call.state.lc = charToInt b ∧ s.pending = b :: call.state.pending ∧ call.kernel = k
      ∧ call.read = read ∧ (∃ i, call.index = some i ∧ 0 ≤ i ∧ i < call.state.dataSize)
      ∧ call.state.eof = 0 ∧ Reading call.state call.kernel := by
  obtain ⟨b, hat, hpending⟩ := pending_cons hbuf hoff hlt hsize
  refine ⟨b, { ret := charToInt b
               state := { s with lc := charToInt b, dataOffset := s.dataOffset + 1 }
               kernel := k, read, index := some s.dataOffset }, ?_⟩
  refine ⟨by simp [takeChar, hat], rfl, rfl, hpending, rfl, rfl, ⟨_, rfl, hoff, hlt⟩, heof, ?_⟩
  refine ⟨hbuf, ?_, ?_, hsize, hfits, fun hne => absurd heof hne⟩
  · show 0 ≤ s.dataOffset + 1
    omega
  · show s.dataOffset + 1 ≤ s.dataSize
    omega

/-- After a refill the buffer holds what was read. -/
theorem refill_pending (s : FileReadState) (chunk : List UInt8) :
    (s.refill ⟨chunk.length, chunk⟩).pending = chunk := by
  simp [FileReadState.refill, FileReadState.pending]

/-- A refill does not change the size of the buffer. -/
theorem refill_buffer {chunk : List UInt8} (hbuf : (s.buf.length : Int) = s.bufsize)
    (hfits : (chunk.length : Int) ≤ s.bufsize) :
    ((s.refill ⟨chunk.length, chunk⟩).buf.length : Int) = s.bufsize := by
  show ((chunk ++ s.buf.drop chunk.length).length : Int) = s.bufsize
  rw [List.length_append, List.length_drop]
  omega

/-- **One call of `nextchar`.** It accesses the buffer below `data_size`, keeps the invariant
and has one of the outcomes. -/
theorem nextchar_spec (h : Reading s k) :
    ∃ call, nextchar s k = some call ∧ Outcome s k call ∧ Reading call.state call.kernel := by
  unfold nextchar
  by_cases heof : s.eof = 0
  · rw [if_neg (by simpa using heof)]
    by_cases htaken : s.dataOffset = s.dataSize
    · rw [if_pos htaken]
      cases hchunks : k.chunks with
      | nil =>
        -- the end: `read` does not succeed
        have hread : k.read = (⟨k.last, []⟩, k) := by simp [Kernel.read, hchunks]
        simp only [hread, if_pos h.kernel.last]
        refine ⟨_, rfl, .ends heof (pending_nil htaken) hchunks, ?_⟩
        exact ⟨h.buffer, h.offset, h.offset_le, h.size_le, h.kernel, fun _ => ⟨htaken, hchunks⟩⟩
      | cons chunk chunks =>
        -- a refill: the chunk replaces what has been taken
        have hread : k.read = (⟨chunk.length, chunk⟩, { k with chunks }) := by
          simp [Kernel.read, hchunks]
        obtain ⟨hne, hfits⟩ := h.kernel.chunk chunk (by simp [hchunks])
        have hpos : 0 < chunk.length := List.length_pos_iff.mpr hne
        simp only [hread, if_neg (show ¬ (chunk.length : Int) ≤ 0 by omega)]
        have hfits₁ : Kernel.Fits { k with chunks } s.bufsize :=
          ⟨fun c hc => h.kernel.chunk c (by simp [hchunks, hc]), h.kernel.last⟩
        obtain ⟨b, call, hcall, hret, hlc, hnext, hkernel, hres, hindex, hstays, hreading⟩ :=
          takeChar_spec { k with chunks } (some ⟨chunk.length, chunk⟩)
            (refill_buffer h.buffer hfits) (Int.le_refl 0) (show (0 : Int) < chunk.length by omega)
            hfits heof hfits₁
        rw [refill_pending] at hnext
        refine ⟨call, hcall, .takes b call heof hret hlc ?_ hindex ?_ ?_ hstays, hreading⟩
        · simp [unread, pending_nil htaken, hchunks, hkernel, hnext]
        · rintro res hsome
          rw [hres] at hsome
          cases hsome
          refine ⟨pending_nil htaken, by show (0 : Int) < chunk.length; omega, ?_⟩
          rw [hkernel, hchunks]
        · rw [hres]
          exact fun hnone => nomatch hnone
    · rw [if_neg htaken]
      have hoff := h.offset_le
      obtain ⟨b, call, hcall, hret, hlc, hnext, hkernel, hres, hindex, hstays, hreading⟩ :=
        takeChar_spec k none h.buffer h.offset (by omega) h.size_le heof h.kernel
      refine ⟨call, hcall, .takes b call heof hret hlc ?_ hindex ?_ (fun _ => hkernel) hstays,
        hreading⟩
      · rw [unread, hnext, unread, hkernel, List.cons_append]
      · rw [hres]
        exact fun res hsome => nomatch hsome
  · rw [if_pos heof]
    exact ⟨_, rfl, .sticky heof, h⟩

/-! ## Any interleaving of the two calls

`lastchar` looks at what the last `nextchar` has returned, and can be called at any time. The
history of a run records what was received from the kernel and what was handed out. -/

structure State where
  input : FileReadState
  kernel : Kernel

inductive Event where
  | nextchar (read : Option ReadResult) (index : Option Int) (ret : Int)
  | lastchar (ret : Int)
  deriving DecidableEq, Repr

/-- A client that calls the two functions on one reader, in any order. -/
def client (fd : Int) (buf : List UInt8) (k : Kernel) : System State Event where
  init s := s = ⟨initial fd buf, k⟩
  step s e s' :=
    match e with
    | .nextchar read index ret =>
      nextchar s.input s.kernel = some { ret, state := s'.input, kernel := s'.kernel, read, index }
    | .lastchar ret => ret = lastchar s.input ∧ s' = s

/-- The bytes the reads of a trace delivered. -/
def received (as : List Event) : List UInt8 :=
  as.flatMap fun
    | .nextchar (some res) _ _ => res.bytes
    | _ => []

/-- What the calls that took a byte returned. -/
def taken (as : List Event) : List Int :=
  as.filterMap fun
    | .nextchar _ (some _) ret => some ret
    | _ => none

/-- Some read did not succeed. -/
def Ended (as : List Event) : Prop :=
  ∃ res index ret, .nextchar (some res) index ret ∈ as ∧ res.r ≤ 0

/-- The reader against the history of its calls, for a stream. -/
structure History (stream : List UInt8) (as : List Event) (s : State) : Prop where
  reading : Reading s.input s.kernel
  stream : received as ++ s.kernel.chunks.flatten = stream
  bytes : (received as).map charToInt = taken as ++ s.input.pending.map charToInt
  last : s.input.lc = (taken as).getLast?.getD (-1)
  ended : Ended as ↔ s.input.eof ≠ 0

theorem received_append (as bs : List Event) : received (as ++ bs) = received as ++ received bs :=
  List.flatMap_append

theorem taken_append (as bs : List Event) : taken (as ++ bs) = taken as ++ taken bs :=
  List.filterMap_append

/-- The end has been seen if one of the parts has seen it. -/
theorem ended_append {as bs : List Event} : Ended (as ++ bs) ↔ Ended as ∨ Ended bs := by
  simp only [Ended, List.mem_append, or_and_right, exists_or]

variable {stream : List UInt8} {as : List Event} {e : Event} {st st' : State} {fd : Int}
  {buf : List UInt8}

theorem History.idle {input : FileReadState} (h : History stream as st) (hnone : received [e] = [])
    (htaken : taken [e] = []) (hlc : input.lc = st.input.lc)
    (hpending : input.pending = st.input.pending) (hreading : Reading input st.kernel)
    (hended : Ended (as ++ [e]) ↔ input.eof ≠ 0) :
    History stream (as ++ [e]) ⟨input, st.kernel⟩ where
  reading := hreading
  stream := by
    rw [received_append, hnone, List.append_nil]
    exact h.stream
  bytes := by
    rw [received_append, taken_append, hnone, htaken, List.append_nil, List.append_nil]
    exact hpending ▸ h.bytes
  last := by
    rw [taken_append, htaken, List.append_nil]
    exact hlc.trans h.last
  ended := hended

/-- A call that takes the byte `b`, after a read of `received [e]` if it made one. -/
theorem History.take (h : History stream as st) (htaken : taken [e] = [charToInt b])
    (hlc : st'.input.lc = charToInt b)
    (hchunks : received [e] ++ st'.kernel.chunks.flatten = st.kernel.chunks.flatten)
    (hpending : st.input.pending ++ received [e] = b :: st'.input.pending)
    (hreading : Reading st'.input st'.kernel) (heof : st.input.eof = 0)
    (heof' : st'.input.eof = 0) (hended : ¬ Ended [e]) : History stream (as ++ [e]) st' where
  reading := hreading
  stream := by
    rw [received_append, List.append_assoc, hchunks]
    exact h.stream
  bytes := by
    rw [received_append, taken_append, htaken, List.map_append, h.bytes, List.append_assoc,
      ← List.map_append, hpending, List.map_cons, List.append_assoc, List.singleton_append]
  last := by
    rw [taken_append, htaken, List.getLast?_concat, hlc]
    rfl
  ended := by
    rw [ended_append, h.ended, heof, heof']
    simp [hended]

/-- Each call carries the history on: what is taken comes from what was received, in order. -/
theorem History.step (h : History stream as st) (hstep : (client fd buf k).step st e st') :
    History stream (as ++ [e]) st' := by
  obtain ⟨input, kernel⟩ := st
  obtain ⟨input', kernel'⟩ := st'
  have hended := h.ended
  cases e with
  | lastchar ret =>
    obtain ⟨_, hsame⟩ := hstep
    cases hsame
    refine h.idle rfl rfl rfl rfl h.reading ?_
    rw [ended_append, ← hended]
    simp [Ended]
  | nextchar read index ret =>
    obtain ⟨call, hcall, houtcome, hreading⟩ := nextchar_spec h.reading
    cases Option.some.inj (hcall.symm.trans hstep)
    cases houtcome with
    | sticky heof =>
      refine h.idle rfl rfl rfl rfl hreading ?_
      rw [ended_append, hended]
      simp [Ended]
    | ends heof htaken hnil =>
      refine h.idle rfl rfl rfl rfl hreading ?_
      rw [ended_append]
      simp [Ended, h.reading.kernel.last]
    | takes b _ heof hret hlc hbytes hindex hread hsame hstays =>
      obtain ⟨i, hi, _⟩ := hindex
      subst hi hret
      cases read with
      | none =>
        cases hsame rfl
        have hnext : input.pending = b :: input'.pending := List.append_cancel_right hbytes
        refine h.take (b := b) rfl hlc rfl ?_ hreading heof hstays (by simp [Ended])
        exact (List.append_nil _).trans hnext
      | some res =>
        -- everything read so far has been taken, so the chunk is what is pending now
        obtain ⟨hnil, hpos, hchunks⟩ := hread res rfl
        have hnext : res.bytes = b :: input'.pending := by
          rw [unread, hnil, hchunks, List.nil_append, List.flatten_cons] at hbytes
          exact List.append_cancel_right hbytes
        have hreceived : received [.nextchar (some res) (some i) (charToInt b)] = res.bytes := by
          simp [received]
        refine h.take (b := b) rfl hlc ?_ ?_ hreading heof hstays ?_
        · rw [hreceived]
          show res.bytes ++ kernel'.chunks.flatten = kernel.chunks.flatten
          rw [hchunks, List.flatten_cons]
        · rw [hreceived]
          show input.pending ++ res.bytes = b :: input'.pending
          rw [hnil, List.nil_append, hnext]
        · rintro ⟨res', index', ret', hmem, hle⟩
          cases List.mem_singleton.mp hmem
          omega

/-- The history of every run fits the stream that the kernel delivers. -/
theorem exec_history {k : Kernel} (hk : k.Fits buf.length)
    (hrun : (client fd buf k).Exec as st) : History k.chunks.flatten as st := by
  refine System.exec_induction (P := History k.chunks.flatten) ?_ ?_ hrun
  · rintro s rfl
    exact
      { reading := reading_initial hk
        stream := List.nil_append _
        bytes := rfl
        last := rfl
        ended := by simp [Ended, initial] }
  · intro as s e s' _ h hstep
    exact h.step hstep

/-! ## The law -/

/-- What holds after any calls, for the reader and for the next call. -/
structure FileReadLaw (stream : List UInt8) (as : List Event) (s : State) : Prop where
  /-- the offsets stay in the buffer -/
  bounds : 0 ≤ s.input.dataOffset ∧ s.input.dataOffset ≤ s.input.dataSize
    ∧ s.input.dataSize ≤ s.input.bufsize
  /-- the next call accesses the buffer below `data_size`, if at all -/
  access : ∃ call, nextchar s.input s.kernel = some call
    ∧ ∀ i, call.index = some i → 0 ≤ i ∧ i < call.state.dataSize
  /-- the `k`-th call that took a byte took the `k`-th of the stream -/
  bytes : taken as <+: stream.map charToInt
  /-- the next call reads only if everything read has been taken -/
  reads : ∀ call, nextchar s.input s.kernel = some call → call.read ≠ none →
    taken as = (received as).map charToInt
  /-- after a read that did not succeed a call returns `-1` and does nothing -/
  sticky : Ended as → nextchar s.input s.kernel
    = some { ret := -1, state := s.input, kernel := s.kernel }
  /-- `lastchar` returns the last byte taken -/
  last : lastchar s.input = (taken as).getLast?.getD (-1)

/-- **The law of the reader**, for any calls in any order. The bytes that have been handed out are a
prefix of the stream; a call reads on only when everything that was read has been handed out; and
after the end or a failed read nothing changes any more. -/
theorem file_read_law (fd : Int) (buf : List UInt8) (k : Kernel) (hk : k.Fits buf.length) :
    ∀ as s, (client fd buf k).Exec as s → FileReadLaw k.chunks.flatten as s := by
  intro as s hrun
  have h := exec_history hk hrun
  obtain ⟨call, hcall, houtcome, _⟩ := nextchar_spec h.reading
  have hbytes := h.bytes
  refine ⟨⟨h.reading.offset, h.reading.offset_le, h.reading.size_le⟩, ⟨call, hcall, ?_⟩, ?_, ?_, ?_,
    h.last⟩
  · -- the index is in front of the end of what was read
    intro i hi
    cases houtcome with
    | sticky | ends => cases hi
    | takes _ _ _ _ _ _ hindex =>
      obtain ⟨j, hj, hbound⟩ := hindex
      cases hj.symm.trans hi
      exact hbound
  · have hprefix : (received as).map charToInt <+: k.chunks.flatten.map charToInt := by
      rw [← h.stream, List.map_append]
      exact List.prefix_append _ _
    rw [hbytes] at hprefix
    exact (List.prefix_append _ _).trans hprefix
  · -- a call that reads has found nothing left in the buffer
    intro call' hcall' hread
    cases hcall.symm.trans hcall'
    have hnil : s.input.pending = [] := by
      cases houtcome with
      | sticky => exact absurd rfl hread
      | ends _ htaken => exact htaken
      | takes _ _ _ _ _ _ _ hres =>
        obtain ⟨res, hsome⟩ := Option.ne_none_iff_exists'.mp hread
        exact (hres res hsome).1
    rw [hbytes, hnil]
    exact (List.append_nil _).symm
  · intro hended
    rw [nextchar, if_pos (h.ended.mp hended)]

/-- Three calls on a stream in two chunks, the second one across the refill. -/
theorem file_read_law_three : ∃ as s, (client 0 [0, 0] ⟨[[97], [255, 98]], 0⟩).Exec as s
    ∧ taken as = [97, -1] ∧ lastchar s.input = (taken as).getLast?.getD (-1) := by
  let start := initial 0 [0, 0]
  let s₁ : State :=
    ⟨{ start with buf := [97, 0], lc := 97, dataSize := 1, dataOffset := 1 }, ⟨[[255, 98]], 0⟩⟩
  let s₂ : State :=
    ⟨{ start with buf := [255, 98], lc := -1, dataSize := 2, dataOffset := 1 }, ⟨[], 0⟩⟩
  have h₁ : (client 0 [0, 0] ⟨[[97], [255, 98]], 0⟩).step ⟨start, ⟨[[97], [255, 98]], 0⟩⟩
      (.nextchar (some ⟨1, [97]⟩) (some 0) 97) s₁ := rfl
  have h₂ : (client 0 [0, 0] ⟨[[97], [255, 98]], 0⟩).step s₁ (.lastchar 97) s₁ := ⟨rfl, rfl⟩
  have h₃ : (client 0 [0, 0] ⟨[[97], [255, 98]], 0⟩).step s₁
      (.nextchar (some ⟨2, [255, 98]⟩) (some 0) (-1)) s₂ := rfl
  have hrun : (client 0 [0, 0] ⟨[[97], [255, 98]], 0⟩).Exec _ s₂ :=
    ⟨_, rfl, ((System.Run.single h₁).snoc h₂).snoc h₃⟩
  have hfits : Kernel.Fits ⟨[[97], [255, 98]], 0⟩ ([0, 0] : List UInt8).length :=
    ⟨by decide, by decide⟩
  exact ⟨_, _, hrun, rfl, (file_read_law 0 [0, 0] _ hfits _ _ hrun).last⟩

end HseDev.Sem11
