import HseDev.Utils.StringRuns

/-!
# HseDev — the C string of `string_c_str`

`string_c_str` hands out the buffer itself, so what it returns is a C string only as long
as the buffer holds a NUL right behind the content. `string_append_buffer` writes that
NUL; `string_reserve` moves the buffer, and creates one where there was none, without
writing it.

* **`Sealed`** — the invariant: the string is blank, or it owns a block that has a NUL
  behind its content.
* **`appendCopy_sealed`**, **`stringAppendBuffer_sealed`**, **`stringReserve_sealed`** —
  one lemma per function: what a call that returns leaves.
* **`terminated_iff_sealing`** — a step from a sealed string leaves a C string exactly when
  it is `Sealing`: a `string_reserve` that creates the buffer must get memory that starts
  with a NUL.
* **`c_str_of_sealing`** — the run form: in every run of such steps `string_c_str` points
  to the content and a NUL, inside the block.
-/

namespace HseDev.Utils

open BlockHeap Transition

/-! ## What `string_c_str` promises -/

/-- A read at the pointer `string_c_str` returns delivers the `len` bytes of content and a
NUL, without leaving the allocated block. -/
structure Terminated (m : Mem) (s : StringT) : Prop where
  reads : (stringCStr s).load m.heap (s.len.toNat + 1) = .ok (m.contents ++ [0])
  length : m.contents.length = s.len.toNat

/-- Behind the content of a C string with a buffer there is a NUL. -/
theorem Terminated.nul {m : Mem} {s : StringT} {b : Nat} {block : List UInt8}
    (h : Terminated m s) (hdata : s.data = some b) (hlive : m.heap b = some block) :
    block[s.len.toNat]? = some 0 := by
  have hreads := h.reads
  simp only [stringCStr, hdata] at hreads
  rw [Src.load_heap hlive (Nat.succ_ne_zero _), List.drop_zero] at hreads
  split at hreads
  · have hbytes : block.take (s.len.toNat + 1) = m.contents ++ [0] := Except.ok.inj hreads
    rw [← List.getElem?_take_of_lt (Nat.lt_succ_self _), hbytes, ← h.length]
    exact List.getElem?_concat_length
  · cases hreads

/-- A buffer that is gone is no C string. -/
theorem Terminated.live {m : Mem} {s : StringT} {b : Nat} (h : Terminated m s)
    (hdata : s.data = some b) : m.heap b ≠ none := by
  intro hdead
  have hreads := h.reads
  simp [stringCStr, hdata, Src.load, Src.bytes, Heap.block, hdead, bind, Except.bind] at hreads

/-- **The invariant.** Blank, or the owner of a block with a NUL behind the content. No
block has `2 ^ 64` bytes. -/
inductive Sealed (heap : Heap) (s : StringT) (content : List UInt8) : Prop where
  | blank (hblank : s = .blank) (hnil : content = [])
  | owned {b : Nat} {block : List UInt8} (howns : Owns heap s b block content)
      (hcap : s.capacity.toNat + 1 < 2 ^ 64) (hnul : block[s.len.toNat]? = some 0)

theorem Sealed.capacity_lt {heap : Heap} {s : StringT} {content : List UInt8}
    (h : Sealed heap s content) : s.capacity.toNat + 1 < 2 ^ 64 := by
  cases h with
  | blank hblank _ => simp [hblank]
  | owned _ hcap _ => exact hcap

theorem Sealed.holds {heap : Heap} {s : StringT} {content : List UInt8}
    (h : Sealed heap s content) : Holds heap s content := by
  cases h with
  | blank hblank hnil => exact .blank hblank hnil
  | owned howns _ _ => exact .owned howns

/-- A sealed string is a C string. -/
theorem Sealed.terminated {m : Mem} {s : StringT} {content : List UInt8} (hs : m.s = some s)
    (h : Sealed m.heap s content) : Terminated m s := by
  have hcontents : m.contents = content := h.holds.contents hs
  cases h with
  | blank hblank hnil =>
    subst hblank hnil
    refine ⟨?_, ?_⟩
    · rw [hcontents]
      rfl
    · rw [hcontents]
      rfl
  | @owned b block howns hcap hnul =>
    have hsize := howns.size
    have hfits := howns.fits
    have hlt : s.len.toNat < block.length := by omega
    have hlast : block[s.len.toNat] = 0 := by
      rw [List.getElem?_eq_getElem hlt] at hnul
      exact Option.some.inj hnul
    refine ⟨?_, ?_⟩
    · have hread : (stringCStr s).load m.heap (s.len.toNat + 1)
          = .ok (block.take (s.len.toNat + 1)) := by
        simp only [stringCStr, howns.data]
        rw [Src.load_heap howns.live (Nat.succ_ne_zero _), List.drop_zero, if_pos (by omega)]
      rw [hread, hcontents, ← howns.bytes, ← hlast, List.take_append_getElem]
    · rw [hcontents, ← howns.bytes, List.length_take]
      omega

/-! ## The copy and the append -/

section Append

variable {m m' : Mem} {s : StringT} {content : List UInt8} {n : UInt64} {src : Src}
  {g : Grant} {r : Int32}

/-- **The copy.** When it returns it has appended what it read, and the string is sealed. -/
theorem appendCopy_sealed {b : Nat} {block : List UInt8} (hs : m.s = some s)
    (howns : Owns m.heap s b block content) (hcap : s.capacity.toNat + 1 < 2 ^ 64)
    (hok : appendCopy m src n = .ok (r, m')) :
    r = 0 ∧ ∃ s' bytes, m'.s = some s' ∧ src.load m.heap n.toNat = .ok bytes
      ∧ Sealed m'.heap s' (content ++ bytes) := by
  obtain ⟨hroom, bytes, hload, hcopy⟩ := appendCopy_fits hs howns hcap hok
  obtain ⟨heap, block', happend, howns', hnul⟩ :=
    appendCopy_spec hs howns hroom (Src.length_of_load hload) hcopy
  obtain ⟨rfl, rfl⟩ := result_unique happend hok
  refine ⟨rfl, _, bytes, rfl, hload, .owned howns' hcap ?_⟩
  simp only
  rw [toNat_len_add (by omega), hnul]

/-- **The append.** A call that returns either failed and changed nothing, or appended what
it read and sealed the string: a doubled size that wraps makes the call fail or fault. -/
theorem stringAppendBuffer_sealed (hs : m.s = some s) (hold : Holds m.heap s content)
    (hcap : s.capacity.toNat + 1 < 2 ^ 64) (hok : stringAppendBuffer m src n g = .ok (r, m')) :
    (r = -1 ∧ m' = m)
    ∨ (r = 0 ∧ ∃ s' heap bytes, m'.s = some s' ∧ src.load heap n.toNat = .ok bytes
      ∧ Sealed m'.heap s' (content ++ bytes)) := by
  obtain ⟨out, hres, hout⟩ := appendGrow_outcome hs hold n g
  cases hout with
  | fits _ =>
    rw [stringAppendBuffer_of_grow hres] at hok
    cases hold with
    | blank hblank _ => exact absurd hok (appendCopy_null hs (by rw [hblank]; rfl) src n _)
    | owned howns =>
      obtain ⟨hr, s', bytes, hs', hload, hsealed⟩ := appendCopy_sealed hs howns hcap hok
      exact .inr ⟨hr, s', m.heap, bytes, hs', hload, hsealed⟩
  | failed _ _ =>
    rw [stringAppendBuffer_of_grow_failed hres] at hok
    obtain ⟨rfl, rfl⟩ := Prod.mk.inj (Except.ok.inj hok)
    exact .inl ⟨rfl, rfl⟩
  | granted _ _ hsize _ howns _ =>
    rw [stringAppendBuffer_of_grow hres] at hok
    obtain ⟨hr, s', bytes, hs', hload, hsealed⟩ :=
      appendCopy_sealed rfl howns (toNat_add_one_lt hsize) hok
    exact .inr ⟨hr, s', _, bytes, hs', hload, hsealed⟩

end Append

/-! ## The reservation -/

section Reserve

variable {m m' : Mem} {s : StringT} {content : List UInt8} {n : UInt64} {g : Grant} {r : Int32}

/-- When `string_reserve(s, n)` keeps a string a C string: the buffer it creates must start
with a NUL, and the `n + 1` bytes it asks for must not wrap to none. -/
def SealingReserve (m : Mem) (n : UInt64) (g : Grant) : Prop :=
  (m.data = none → n = 0 ∨ g = none
    ∨ n + 1 ≠ 0 ∧ ∀ b fresh, g = some (b, fresh) → fresh 0 = 0)
  ∧ (m.data ≠ none → n + 1 ≠ 0)

/-- **The reservation.** It leaves the content of a sealed string, sealed. The condition is about
the first block of a string, whose bytes can be of any value and of which the first has to be a NUL,
and about a size that wraps around to none. -/
theorem stringReserve_sealed (hs : m.s = some s) (hsealed : Sealed m.heap s content)
    (hsealing : SealingReserve m n g) (hok : stringReserve m n g = .ok (r, m')) :
    ∃ s', m'.s = some s' ∧ Sealed m'.heap s' content := by
  have hdata : m.data = s.data := by simp [Mem.data, hs]
  rw [SealingReserve, hdata] at hsealing
  by_cases hle : n ≤ s.capacity
  · obtain ⟨-, rfl⟩ := result_unique (stringReserve_of_le hs hle g) hok
    exact ⟨s, hs, hsealed⟩
  · have hlt := UInt64.not_le.mp hle
    have hlt' := UInt64.lt_iff_toNat_lt.mp hlt
    cases hsealed with
    | blank hblank hnil =>
      subst hblank hnil
      cases g with
      | none =>
        have hres := stringReserve_null hs rfl hlt
        obtain ⟨-, rfl⟩ := result_unique hres hok
        exact ⟨.blank, hs, .blank rfl rfl⟩
      | some grant =>
        rcases hsealing.1 rfl with rfl | hnone | ⟨hn, hfirst⟩
        · exact absurd hlt (by decide)
        · exact absurd hnone (Option.some_ne_none grant)
        · have hwrap := toNat_add_one_lt hn
          have hres := stringReserve_fresh hs rfl hlt grant.1 grant.2
          rw [toNat_add_one hwrap] at hres
          obtain ⟨-, rfl⟩ := result_unique hres hok
          refine ⟨_, rfl, .owned ⟨rfl, Function.update_self .., length_resize .., ?_, rfl⟩ hwrap ?_⟩
          · exact Nat.zero_le _
          · show (resize [] (n.toNat + 1) grant.2)[0]? = some 0
            rw [resize_nil_succ, List.getElem?_cons_zero, hfirst grant.1 grant.2 rfl]
    | @owned b block howns hcap hnul =>
      have hwrap := toNat_add_one_lt (hsealing.2 howns.data_ne_none)
      have hfits := howns.fits
      have hlen := howns.size
      cases g with
      | none =>
        have hres := stringReserve_failed hs (.owned howns) hlt hwrap
        obtain ⟨-, rfl⟩ := result_unique hres hok
        exact ⟨s, hs, .owned howns hcap hnul⟩
      | some grant =>
        have hres := stringReserve_grown hs howns.data howns.live hlt hwrap grant.1 grant.2
        obtain ⟨-, rfl⟩ := result_unique hres hok
        refine ⟨_, rfl, .owned ⟨rfl, Function.update_self .., length_resize .., ?_, ?_⟩ hwrap ?_⟩
        · simp only
          omega
        · simp only
          rw [take_resize (by omega) (by omega)]
          exact howns.bytes
        · -- the old block reaches beyond its NUL, so the NUL moves with it
          simp only
          rw [getElem?_resize (by omega) (by omega)]
          exact hnul

end Reserve

/-! ## One call -/

/-- An append appends at least one byte, and no object is larger than a `size_t` counts. -/
def SomeBytes (m : Mem) (op : Op) : Prop :=
  ∀ k, op.IsAppend → op.count m = .ok k → 0 < k ∧ k < 2 ^ 64

/-- A step that keeps the string a C string: only a `string_reserve` can break it. -/
def Sealing (m : Mem) (e : Event) : Prop :=
  ∀ n, e.op = .reserve n → SealingReserve m n e.grant

theorem toNat_ofNat_of_lt {k : Nat} (hk : k < 2 ^ 64) : (UInt64.ofNat k).toNat = k := by
  rw [UInt64.toNat_ofNat']
  exact Nat.mod_eq_of_lt hk

section Exec

variable {m m' : Mem} {s : StringT} {content : List UInt8} {op : Op} {g : Grant} {r : Int32}

/-- An append, given that it comes down to `string_append_buffer` of `n` bytes, which are
its payload if the source is outside the string. -/
theorem sealed_of_append (src : Src) (n : UInt64) (hs : m.s = some s)
    (hsealed : Sealed m.heap s content)
    (happly : Event.apply content ⟨op, g, r⟩ = if r = 0 then content ++ op.payload else content)
    (hexec : op.exec m g = stringAppendBuffer m src n g)
    (hpayload : op.External → ∀ heap bytes, src.load heap n.toNat = .ok bytes →
      bytes = op.payload)
    (hok : op.exec m g = .ok (r, m')) :
    ∃ s' content', m'.s = some s' ∧ Sealed m'.heap s' content'
      ∧ (op.External → content' = Event.apply content ⟨op, g, r⟩) := by
  rw [hexec] at hok
  rcases stringAppendBuffer_sealed hs hsealed.holds hsealed.capacity_lt hok with
    ⟨rfl, rfl⟩ | ⟨rfl, s', heap, bytes, hs', hload, hsealed'⟩
  · refine ⟨s, content, hs, hsealed, fun _ => ?_⟩
    rw [happly, if_neg (by decide)]
  · refine ⟨s', content ++ bytes, hs', hsealed', fun hext => ?_⟩
    rw [happly, if_pos rfl, hpayload hext heap bytes hload]

/-- **One call.** A sealing call that returns leaves a sealed string; its content is what
the event leaves when nothing was read from the string itself. -/
theorem exec_sealed (hs : m.s = some s) (hsealed : Sealed m.heap s content)
    (hsome : SomeBytes m op) (hsealing : Sealing m ⟨op, g, r⟩) (hok : op.exec m g = .ok (r, m')) :
    ∃ s' content', m'.s = some s' ∧ Sealed m'.heap s' content'
      ∧ (op.External → content' = Event.apply content ⟨op, g, r⟩) := by
  cases op with
  -- a reservation is sealing by assumption; an append seals by itself
  | reserve n =>
    obtain ⟨s', hs', hsealed'⟩ := stringReserve_sealed hs hsealed (hsealing n rfl) hok
    refine ⟨s', content, hs', hsealed', fun _ => ?_⟩
    simp [Event.apply, Op.payload]
  | appendBuffer src n =>
    apply sealed_of_append src n hs hsealed rfl rfl ?_ hok
    intro hext heap bytes hload
    cases src with
    | heap p => exact absurd hext id
    | region region => exact Src.eq_take_of_load hload
  -- the number of bytes is the one that `strlen` has found
  | append src =>
    cases hlen : strlen m.heap src with
    | error e => simp [Op.exec, stringAppend, hlen, bind, Except.bind] at hok
    | ok k =>
      have hk := toNat_ofNat_of_lt (hsome k trivial hlen).2
      apply sealed_of_append src (.ofNat k) hs hsealed rfl ?_ ?_ hok
      · simp [Op.exec, stringAppend, hlen, bind, Except.bind]
      · intro hext heap bytes hload
        cases src with
        | heap p => exact absurd hext id
        | region region =>
          have hcut := Except.ok.inj ((strlen_region hext).symm.trans hlen)
          rw [hk, ← hcut] at hload
          rw [Src.eq_take_of_load hload, take_length_cString]
          rfl
  | appendN src n =>
    cases hlen : strnlen m.heap src n.toNat with
    | error e => simp [Op.exec, stringAppendN, hlen, bind, Except.bind] at hok
    | ok k =>
      have hk := toNat_ofNat_of_lt (hsome k trivial hlen).2
      apply sealed_of_append src (.ofNat k) hs hsealed rfl ?_ ?_ hok
      · simp [Op.exec, stringAppendN, hlen, bind, Except.bind]
      · intro hext heap bytes hload
        cases src with
        | heap p => exact absurd hext id
        | region region =>
          have hcut := Except.ok.inj ((strnlen_region hext).symm.trans hlen)
          rw [hk, ← hcut] at hload
          rw [Src.eq_take_of_load hload]
          exact take_min_cString region n.toNat
  -- the content is known to be sealed, but the bytes are those of a block that may have moved
  | appendSelf =>
    apply sealed_of_append (.heap ⟨s.data, 0⟩) s.len hs hsealed rfl ?_ ?_ hok
    · simp [Op.exec, hs, stringAppendString]
    · exact fun hext => absurd hext id
  | destruct =>
    obtain ⟨heap, hfree⟩ := stringDestruct_holds hs hsealed.holds
    simp only [Op.exec, hfree, bind, Except.bind] at hok
    obtain ⟨-, rfl⟩ := Prod.mk.inj (Except.ok.inj hok)
    exact ⟨.blank, [], rfl, .blank rfl rfl, fun _ => rfl⟩

/-- Conversely, a reservation that is not sealing breaks a sealed string: its buffer does
not start with a NUL, or it is gone. -/
theorem sealing_of_terminated {n : UInt64} {s' : StringT} (hs : m.s = some s)
    (hsealed : Sealed m.heap s content) (hok : stringReserve m n g = .ok (r, m'))
    (hs' : m'.s = some s') (hterm : Terminated m' s') : SealingReserve m n g := by
  have hdata : m.data = s.data := by simp [Mem.data, hs]
  rw [SealingReserve, hdata]
  cases hsealed with
  | blank hblank hnil =>
    subst hblank hnil
    refine ⟨fun _ => ?_, fun h => absurd rfl h⟩
    by_cases hn0 : n = 0
    · exact .inl hn0
    cases g with
    | none => exact .inr (.inl rfl)
    | some grant =>
      have hlt : StringT.blank.capacity < n := UInt64.pos_iff_ne_zero.mpr hn0
      have hres := stringReserve_fresh hs rfl hlt grant.1 grant.2
      obtain ⟨-, rfl⟩ := result_unique hres hok
      cases hs'
      have hnul : (resize [] (n + 1).toNat grant.2)[0]? = some 0 :=
        hterm.nul rfl (Function.update_self ..)
      have hpos : n + 1 ≠ 0 := by
        intro h0
        rw [h0] at hnul
        cases hnul
      refine .inr (.inr ⟨hpos, fun b fresh hg => ?_⟩)
      cases hg
      rw [toNat_add_one (toNat_add_one_lt hpos), resize_nil_succ, List.getElem?_cons_zero] at hnul
      exact Option.some.inj hnul
  | @owned b block howns hcap hnul =>
    refine ⟨fun h => absurd h howns.data_ne_none, fun _ h0 => ?_⟩
    -- a request for no bytes frees the buffer and leaves the pointer to it
    have hn := toNat_of_add_one_eq_zero h0
    have hle : ¬ n ≤ s.capacity := by
      rw [UInt64.le_iff_toNat_le]
      omega
    have hfreed := stringReserve_freed hs howns.data howns.live (UInt64.not_le.mp hle) h0 g
    obtain ⟨-, rfl⟩ := result_unique hfreed hok
    obtain rfl : s = s' := Option.some.inj (hs.symm.trans hs')
    exact hterm.live howns.data (Function.update_self ..)

/-- **The step condition is exact.** After a call that returns from a sealed string, the string is
terminated if and only if the call was a sealing one. -/
theorem terminated_iff_sealing (hs : m.s = some s) (hsealed : Sealed m.heap s content)
    (hsome : SomeBytes m op) (hok : op.exec m g = .ok (r, m')) :
    (∃ s', m'.s = some s' ∧ Terminated m' s') ↔ Sealing m ⟨op, g, r⟩ := by
  constructor
  · rintro ⟨s', hs', hterm⟩ n hop
    cases hop
    exact sealing_of_terminated hs hsealed hok hs' hterm
  · intro hsealing
    obtain ⟨s', content', hs', hsealed', -⟩ := exec_sealed hs hsealed hsome hsealing hok
    exact ⟨s', hs', hsealed'.terminated hs'⟩

end Exec

/-! ## Runs -/

/-- A client that appends at least one byte at a time and takes only sealing steps. -/
def sealingClient : System Mem Event where
  init := (client SomeBytes).init
  step m e m' := (client SomeBytes).step m e m' ∧ Sealing m e

/-- **The invariant over runs.** Induction on the run, `exec_sealed` at each call. -/
theorem run_sealed {trace : List Event} {m : Mem} (hrun : sealingClient.Exec trace m) :
    ∃ s content, m.s = some s ∧ Sealed m.heap s content
      ∧ ((∀ e ∈ trace, e.op.External) → content = appended trace) := by
  apply System.exec_induction (P := fun trace m => ∃ s content, m.s = some s
    ∧ Sealed m.heap s content ∧ ((∀ e ∈ trace, e.op.External) → content = appended trace))
    ?_ ?_ hrun
  · rintro m ⟨heap, s, errno, rfl⟩
    exact ⟨.blank, [], rfl, .blank rfl rfl, fun _ => rfl⟩
  · intro trace m e m' _ ⟨s, content, hs, hsealed, happended⟩ ⟨⟨hsome, _, hexec⟩, hsealing⟩
    obtain ⟨s', content', hs', hsealed', hcontent⟩ :=
      exec_sealed hs hsealed hsome hsealing hexec
    refine ⟨s', content', hs', hsealed', fun hext => ?_⟩
    have hbefore : content = appended trace :=
      happended fun e' he' => hext e' (List.mem_append_left _ he')
    rw [hcontent (hext e (by simp)), hbefore, appended, appended, List.foldl_append]
    rfl

/-- **`string_c_str` over runs of any length.** After every run whose steps are sealing, with
every pattern of allocator answers, the pointer it returns leads to the `len` bytes of
content and a NUL inside the block, or to the empty literal; and the content is what was
appended since the last destruct, when every append read from outside the string. -/
theorem c_str_of_sealing {trace : List Event} {m : Mem} (hrun : sealingClient.Exec trace m) :
    ∃ s, m.s = some s ∧ Terminated m s
      ∧ ((∀ e ∈ trace, e.op.External) → m.contents = appended trace) := by
  obtain ⟨s, content, hs, hsealed, happended⟩ := run_sealed hrun
  refine ⟨s, hs, hsealed.terminated hs, fun hext => ?_⟩
  rw [hsealed.holds.contents hs, happended hext]

/-- The fresh string after `string_reserve(s, 1)`, with memory full of `c`. -/
def reservedString (c : UInt8) : Mem :=
  { heap := Function.update Heap.empty 0 (some [c, c]), s := some ⟨some 0, 0, 1⟩ }

/-- The call that leaves it, a step of the client. -/
theorem step_reservedString (c : UInt8) :
    (client SomeBytes).step freshString ⟨.reserve 1, some (0, fun _ => c), 0⟩
      (reservedString c) :=
  ⟨fun _ h _ => h.elim, fun _ _ _ => .inl rfl, rfl⟩

/-- A reservation that gets zeroed memory, and an append of one byte that fits it. -/
theorem c_str_of_sealing_append :
    ∃ m s, sealingClient.Exec
        [⟨.reserve 1, some (0, fun _ => 0), 0⟩, ⟨.append (.region [97, 0]), none, 0⟩] m
      ∧ m.s = some s ∧ Terminated m s := by
  have hreserve : sealingClient.step freshString ⟨.reserve 1, some (0, fun _ => 0), 0⟩
      (reservedString 0) := by
    refine ⟨step_reservedString 0, ?_⟩
    rintro n ⟨⟩
    refine ⟨fun _ => .inr (.inr ⟨by decide, ?_⟩), fun h => absurd rfl h⟩
    rintro b fresh ⟨⟩
    rfl
  obtain ⟨m, hexec⟩ : ∃ m, Op.exec (reservedString 0) none (.append (.region [97, 0]))
      = .ok (0, m) := ⟨_, rfl⟩
  have happend : sealingClient.step (reservedString 0)
      ⟨.append (.region [97, 0]), none, 0⟩ m := by
    refine ⟨⟨?_, ?_, hexec⟩, ?_⟩
    · rintro k - ⟨⟩
      decide
    · rintro b fresh ⟨⟩
    · rintro n ⟨⟩
  have hrun : sealingClient.Exec [_, _] m :=
    ⟨freshString, ⟨Heap.empty, .blank, none, rfl⟩,
      System.Run.cons hreserve (System.Run.single happend)⟩
  obtain ⟨s, hs, hterm, -⟩ := c_str_of_sealing hrun
  exact ⟨_, s, hrun, hs, hterm⟩

/-- The first reservation of a fresh string gets memory full of `255`: the run is one of the
client's, and `string_c_str` then points to a byte that is no NUL. -/
theorem c_str_unterminated_after_reserve :
    ¬ ∀ trace m, (client SomeBytes).Exec trace m → ∃ s, m.s = some s ∧ Terminated m s := by
  intro h
  obtain ⟨s, hs, hterm⟩ :=
    h _ _ ((exec_freshString SomeBytes).extend (System.Run.single (step_reservedString 255)))
  cases hs
  have hnul : [(255 : UInt8), 255][0]? = some 0 := hterm.nul rfl rfl
  exact absurd hnul (by decide)

end HseDev.Utils
