import HseDev.Utils.StringOutcomes

/-!
# HseDev — runs over one string

What the calls of `string.c` do to a string over a run of any length.

* **`exec_spec`** — one allowed call never faults, keeps the representation invariant
  and either appends exactly its payload or, on `-1`, leaves the memory as it was.
* **`run_refines_appended`** — the run form: the content is the concatenation of the
  successful appends since the last destruct, whatever the allocator answered.
* **`exec_holds`** — the same invariant for a client that may also read from the string
  itself and append nothing to a blank string: there a call may fault, but a call that
  returns keeps the invariant.
* **`append_law_iff`** — appending `a` and then `b` is appending `a ++ b` from every
  reachable string, except that an empty append to a string without a buffer writes its
  NUL through the `NULL` pointer.
-/

namespace HseDev.Utils

open BlockHeap Transition

/-! ## Room -/

/-- A count there is room for is a `size_t`. -/
theorem Room.toNat_ofNat {s : StringT} {k : Nat} (h : Room s k) : (UInt64.ofNat k).toNat = k := by
  have hsum := h.1
  rw [UInt64.toNat_ofNat']
  exact Nat.mod_eq_of_lt (by omega)

/-- Room for a longer append is room for a shorter one. -/
theorem Room.mono {s : StringT} {j k : Nat} (h : Room s k) (hjk : j ≤ k) : Room s j := by
  obtain ⟨hsum, hdouble⟩ := h
  exact ⟨by omega, fun hgrow => by have := hdouble (by omega); omega⟩

/-! ## Appending a region -/

section Region

variable {m : Mem} {s : StringT} {content : List UInt8} {n : UInt64}

/-- The memory after `bytes` were appended to a string with the given content. -/
structure Appended (s : StringT) (content bytes : List UInt8) (m' : Mem) (s' : StringT) :
    Prop where
  obj : m'.s = some s'
  holds : Holds m'.heap s' (content ++ bytes)
  buffer : s'.data ≠ none
  len : s'.len.toNat = s.len.toNat + bytes.length
  mono : s.capacity.toNat ≤ s'.capacity.toNat

/-- An append from outside the string that is not an empty append to a blank string
either is refused memory and changes nothing, or appends the region's first `n` bytes. -/
theorem stringAppendBuffer_region (region : List UInt8) (hs : m.s = some s)
    (hold : Holds m.heap s content) (hread : n.toNat ≤ region.length)
    (hroom : Room s n.toNat) (hdest : s.data ≠ none ∨ n ≠ 0) (g : Grant) :
    (g = none ∧ stringAppendBuffer m (.region region) n g = .ok (-1, m))
    ∨ ∃ m' s', stringAppendBuffer m (.region region) n g = .ok (0, m')
      ∧ Appended s content (region.take n.toNat) m' s' := by
  rcases stringAppendBuffer_cases hs hold hroom (.region region) g with
    ⟨hg, _, hfail⟩ | ⟨m₁, s₁, hgrown, hcopy⟩
  · exact Or.inl ⟨hg, hfail⟩
  · right
    obtain ⟨b, block, howns⟩ := hgrown.holds.owned_of_data (hgrown.buffer hdest)
    have htake : (region.take n.toNat).length = n.toNat := by
      rw [List.length_take]
      omega
    obtain ⟨heap, block', happend, howns', _⟩ := appendCopy_spec hgrown.obj howns
      (by rw [hgrown.len]; exact hgrown.room) htake (memcpy_region hread)
    refine ⟨_, _, hcopy.trans happend, rfl, .owned howns', howns'.data_ne_none, ?_, hgrown.mono⟩
    simp only
    rw [hgrown.len, toNat_len_add hroom.1, htake]

end Region

/-! ## One allowed call -/

/-- What an allowed call does: it returns `0` or `-1`, `-1` leaves the memory alone, and
the string then holds what the event leaves of the content. -/
structure Performs (m : Mem) (content : List UInt8) (op : Op) (g : Grant) (ret : Int32)
    (m' : Mem) : Prop where
  exec : op.exec m g = .ok (ret, m')
  returns : ret = 0 ∨ ret = -1
  failed : ret = -1 → m' = m
  holds : ∃ s', m'.s = some s' ∧ Holds m'.heap s' (Event.apply content ⟨op, g, ret⟩)

/-- An allowed append performs, given that it comes down to `string_append_buffer` of the
first `n` bytes of a region. -/
theorem performs_of_append {m : Mem} {s : StringT} {content : List UInt8} {op : Op} {g : Grant}
    (region : List UInt8) (n : UInt64) (hs : m.s = some s) (hold : Holds m.heap s content)
    (happly : ∀ r, Event.apply content ⟨op, g, r⟩
      = if r = 0 then content ++ op.payload else content)
    (hexec : op.exec m g = stringAppendBuffer m (.region region) n g)
    (hpayload : op.payload = region.take n.toNat) (hread : n.toNat ≤ region.length)
    (hroom : Room s n.toNat) (hnonempty : s.data = none → op.payload ≠ []) :
    ∃ ret m', Performs m content op g ret m' := by
  have hdest : s.data ≠ none ∨ n ≠ 0 := by
    by_cases hdata : s.data = none
    · right
      rintro rfl
      exact hnonempty hdata (by simp [hpayload])
    · exact Or.inl hdata
  rcases stringAppendBuffer_region region hs hold hread hroom hdest g with
    ⟨_, hfail⟩ | ⟨m', s', hok, happended⟩
  · refine ⟨-1, m, hexec.trans hfail, Or.inr rfl, fun _ => rfl, s, hs, ?_⟩
    rw [happly, if_neg (by decide)]
    exact hold
  · refine ⟨0, m', hexec.trans hok, Or.inl rfl, fun h => absurd h (by decide), s',
      happended.obj, ?_⟩
    rw [happly, if_pos rfl, hpayload]
    exact happended.holds

/-- **One allowed call.** From a string that holds its content it returns, and what it leaves
behind is described by `Performs`: the content, the answer, and the memory after a failure. -/
theorem exec_spec {m : Mem} {s : StringT} {content : List UInt8} (op : Op) (g : Grant)
    (hs : m.s = some s) (hold : Holds m.heap s content) (hallowed : Allowed m op) :
    ∃ ret m', Performs m content op g ret m' := by
  obtain ⟨hext, hwrap, hnonempty⟩ := hallowed
  have hdata : m.data = s.data := by simp [Mem.data, hs]
  rw [hdata] at hnonempty
  cases op with
  -- a reservation is not an append; it has its own two lemmas
  | reserve n =>
    by_cases hle : n ≤ s.capacity
    · exact ⟨-1, m, stringReserve_of_le hs hle g, Or.inr rfl, fun _ => rfl, s, hs, hold⟩
    · have hlt := UInt64.not_le.mp hle
      have hn : n.toNat + 1 < 2 ^ 64 := hwrap s hs hlt
      cases g with
      | none =>
        exact ⟨-1, m, stringReserve_failed hs hold hlt hn, Or.inr rfl, fun _ => rfl, s, hs, hold⟩
      | some grant =>
        obtain ⟨heap, block, hok, howns, -⟩ :=
          stringReserve_granted hs hold hlt hn grant.1 grant.2
        refine ⟨0, _, hok, Or.inl rfl, fun h => absurd h (by decide), _, rfl, ?_⟩
        simpa [Event.apply, Op.payload] using Holds.owned howns
  -- all appends are `string_append_buffer` with the number of bytes that they find
  | appendBuffer src n =>
    cases src with
    | heap p => exact absurd hext id
    | region region =>
      exact performs_of_append region n hs hold (fun _ => rfl) rfl rfl hext (hwrap s _ hs rfl)
        (fun h => hnonempty h trivial)
  | append src =>
    cases src with
    | heap p => exact absurd hext id
    | region region =>
      -- the number that `strlen` finds is that of the bytes before the first NUL
      have hlen := strlen_region (h := m.heap) hext
      have hroom := hwrap s _ hs hlen
      have hofNat := hroom.toNat_ofNat
      refine performs_of_append region (.ofNat (cString region).length) hs hold
        (fun _ => rfl) ?_ ?_ ?_ ?_ (fun h => hnonempty h trivial)
      · simp [Op.exec, stringAppend, hlen, bind, Except.bind]
      · rw [hofNat, take_length_cString]
        rfl
      · rw [hofNat]
        exact length_cString_le region
      · rw [hofNat]
        exact hroom
  | appendN src n =>
    cases src with
    | heap p => exact absurd hext id
    | region region =>
      -- `strnlen` looks at no more than `n` bytes, so the region need not be terminated
      have hlen := strnlen_region (h := m.heap) hext
      have hroom := hwrap s _ hs hlen
      set k := min n.toNat (cString region).length with hk
      have hofNat := hroom.toNat_ofNat
      have hcut := length_cString_le region
      refine performs_of_append region (.ofNat k) hs hold (fun _ => rfl)
        ?_ ?_ ?_ ?_ (fun h => hnonempty h trivial)
      · simp [Op.exec, stringAppendN, hlen, bind, Except.bind]
      · rw [hofNat]
        exact (take_min_cString region n.toNat).symm
      · omega
      · rw [hofNat]
        exact hroom
  | appendSelf => exact absurd hext id
  | destruct =>
    obtain ⟨heap, hfree⟩ := stringDestruct_holds hs hold
    refine ⟨0, { m with heap, s := some .blank }, ?_, Or.inl rfl,
      fun h => absurd h (by decide), .blank, rfl, .blank rfl rfl⟩
    simp [Op.exec, hfree, bind, Except.bind]

/-! ## Runs of an allowed client -/

/-- **The run refines its trace.** After every run of an allowed client the string holds
what the successful appends since the last destruct have appended. Induction on the run,
`exec_spec` at each call. -/
theorem run_refines_appended {trace : List Event} {m : Mem}
    (hrun : (client Allowed).Exec trace m) :
    ∃ s, m.s = some s ∧ Holds m.heap s (appended trace) := by
  refine System.exec_induction (P := fun trace m => ∃ s, m.s = some s
    ∧ Holds m.heap s (appended trace)) ?_ ?_ hrun
  · rintro m ⟨heap, s, errno, rfl⟩
    exact ⟨.blank, rfl, .blank rfl rfl⟩
  · rintro trace m e m' _ ⟨s, hs, hold⟩ ⟨hallowed, _, hexec⟩
    obtain ⟨ret, m'', hperforms⟩ := exec_spec e.op e.grant hs hold hallowed
    obtain ⟨hret, hm⟩ := result_unique hexec hperforms.exec
    subst hm
    obtain ⟨s', hs', hold'⟩ := hperforms.holds
    refine ⟨s', hs', ?_⟩
    rw [appended, List.foldl_append]
    rw [← hret] at hold'
    exact hold'

/-- **Safety of `string_t` over runs of any length.** After every run of an allowed
client, with every pattern of allocator answers, the string is blank or owns a block of
`capacity + 1` bytes that starts with the `len` bytes appended since the last destruct;
and the next allowed call accesses no byte outside a live block, returns `0` or `-1`, and
with `-1` leaves the memory as it was. -/
theorem string_client_safe {trace : List Event} {m : Mem}
    (hrun : (client Allowed).Exec trace m) :
    (∃ s, m.s = some s ∧ Holds m.heap s (appended trace))
    ∧ ∀ op g, Allowed m op → Grant.Fits m.heap m.data g →
      ∃ ret m', op.exec m g = .ok (ret, m') ∧ (ret = 0 ∨ ret = -1) ∧ (ret = -1 → m' = m) := by
  obtain ⟨s, hs, hold⟩ := run_refines_appended hrun
  refine ⟨⟨s, hs, hold⟩, fun op g hallowed _ => ?_⟩
  obtain ⟨ret, m', hperforms⟩ := exec_spec op g hs hold hallowed
  exact ⟨ret, m', hperforms.exec, hperforms.returns, hperforms.failed⟩

/-- The string right after `string_init`. -/
def freshString : Mem :=
  stringInit { heap := Heap.empty, s := some .blank }

theorem exec_freshString (allowed : Mem → Op → Prop) : (client allowed).Exec [] freshString :=
  ⟨freshString, ⟨Heap.empty, .blank, none, rfl⟩, .refl⟩

/-- A string after one append of two bytes. -/
theorem string_client_safe_append :
    ∃ m s, (client Allowed).Exec
        [⟨.append (.region [97, 98, 0]), some (0, fun _ => 255), 0⟩] m
      ∧ m.s = some s ∧ Holds m.heap s [97, 98] := by
  have hallowed : Allowed freshString (.append (.region [97, 98, 0])) := by
    refine ⟨?_, ?_, fun _ _ => by decide⟩
    · show (0 : UInt8) ∈ [97, 98, 0]
      decide
    · rintro s k ⟨⟩ ⟨⟩
      decide
  have hstep : (client Allowed).step freshString
      ⟨.append (.region [97, 98, 0]), some (0, fun _ => 255), 0⟩ _ :=
    ⟨hallowed, fun b _ _ => Or.inl rfl, rfl⟩
  have hrun := (exec_freshString Allowed).extend (System.Run.single hstep)
  obtain ⟨⟨s, hs, hold⟩, _⟩ := string_client_safe hrun
  exact ⟨_, s, hrun, hs, hold⟩

/-! ## Clients that read from the string itself -/

/-- An append that returns keeps the invariant, wherever its source lies. -/
theorem stringAppendBuffer_holds {m m' : Mem} {s : StringT} {content : List UInt8}
    {n : UInt64} {src : Src} {g : Grant} {r : Int32} (hs : m.s = some s)
    (hold : Holds m.heap s content) (hroom : Room s n.toNat)
    (hok : stringAppendBuffer m src n g = .ok (r, m')) :
    ∃ s' content', m'.s = some s' ∧ Holds m'.heap s' content' := by
  rcases stringAppendBuffer_cases hs hold hroom src g with
    ⟨_, _, hfail⟩ | ⟨m₁, s₁, hgrown, hcopy⟩
  · obtain ⟨-, rfl⟩ := result_unique hfail hok
    exact ⟨s, content, hs, hold⟩
  · rw [hcopy] at hok
    -- the copy returned, so there is a buffer by now
    have hdata₁ : s₁.data ≠ none := fun h => appendCopy_null hgrown.obj h src n _ hok
    obtain ⟨b, block, howns⟩ := hgrown.holds.owned_of_data hdata₁
    cases hmem : memcpy m₁.heap ⟨s₁.data, s₁.len.toNat⟩ src n.toNat with
    | error e => simp [appendCopy, hgrown.obj, hmem, bind, Except.bind] at hok
    | ok heap =>
      obtain ⟨bytes, hbytes, hstore⟩ := memcpy_ok hmem
      obtain ⟨heap', block', happend, howns', _⟩ := appendCopy_spec hgrown.obj howns
        (by rw [hgrown.len]; exact hgrown.room) hbytes (hmem.trans hstore.symm)
      obtain ⟨-, rfl⟩ := result_unique happend hok
      exact ⟨_, _, rfl, .owned howns'⟩

theorem Op.isAppend_or (op : Op) : op.IsAppend ∨ (∃ n, op = .reserve n) ∨ op = .destruct := by
  cases op with
  | reserve n => exact .inr (.inl ⟨n, rfl⟩)
  | destruct => exact .inr (.inr rfl)
  | appendBuffer src n => exact .inl trivial
  | append src => exact .inl trivial
  | appendN src n => exact .inl trivial
  | appendSelf => exact .inl trivial

/-- Every append that returns is a `string_append_buffer` of the bytes it counts. -/
theorem Op.IsAppend.buffer {m : Mem} {op : Op} {g : Grant} {out : Int32 × Mem}
    (happend : op.IsAppend) (hok : op.exec m g = .ok out) :
    ∃ src k, op.count m = .ok k
      ∧ op.exec m g = stringAppendBuffer m src (UInt64.ofNat k) g := by
  cases op with
  | reserve n => exact happend.elim
  | appendBuffer src n => exact ⟨src, n.toNat, rfl, by rw [UInt64.ofNat_toNat]; rfl⟩
  | append src =>
    cases hlen : strlen m.heap src with
    | error e => simp [Op.exec, stringAppend, hlen, bind, Except.bind] at hok
    | ok k => exact ⟨src, k, hlen, by simp [Op.exec, stringAppend, hlen, bind, Except.bind]⟩
  | appendN src n =>
    cases hlen : strnlen m.heap src n.toNat with
    | error e => simp [Op.exec, stringAppendN, hlen, bind, Except.bind] at hok
    | ok k => exact ⟨src, k, hlen, by simp [Op.exec, stringAppendN, hlen, bind, Except.bind]⟩
  | appendSelf =>
    cases hs : m.s with
    | none => simp [Op.exec, hs] at hok
    | some s =>
      refine ⟨.heap ⟨s.data, 0⟩, s.len.toNat, by simp [Op.count, hs], ?_⟩
      rw [UInt64.ofNat_toNat]
      simp [Op.exec, hs, stringAppendString]
  | destruct => exact happend.elim

theorem NoWrap.room {m : Mem} {s : StringT} {op : Op} {k : Nat} (hwrap : NoWrap m op)
    (happend : op.IsAppend) (hs : m.s = some s) (hcount : op.count m = .ok k) : Room s k := by
  cases op with
  | reserve n => exact happend.elim
  | destruct => exact happend.elim
  | appendBuffer src n => exact hwrap s k hs hcount
  | append src => exact hwrap s k hs hcount
  | appendN src n => exact hwrap s k hs hcount
  | appendSelf => exact hwrap s k hs hcount

/-- **One call of any client.** A call that does not wrap a size and returns keeps the
invariant, for sources inside the string and for empty appends too. -/
theorem exec_holds {m m' : Mem} {s : StringT} {content : List UInt8} {op : Op} {g : Grant}
    {r : Int32} (hs : m.s = some s) (hold : Holds m.heap s content) (hwrap : NoWrap m op)
    (hok : op.exec m g = .ok (r, m')) :
    ∃ s' content', m'.s = some s' ∧ Holds m'.heap s' content' := by
  have hother : op.External → (m.data = none → op.IsAppend → op.payload ≠ []) →
      ∃ s' content', m'.s = some s' ∧ Holds m'.heap s' content' := by
    intro hext hnonempty
    obtain ⟨ret, m'', hperforms⟩ := exec_spec op g hs hold ⟨hext, hwrap, hnonempty⟩
    obtain ⟨-, rfl⟩ := result_unique hperforms.exec hok
    obtain ⟨s', hs', hold'⟩ := hperforms.holds
    exact ⟨s', _, hs', hold'⟩
  rcases op.isAppend_or with happend | ⟨n, rfl⟩ | rfl
  · obtain ⟨src, k, hcount, hbuffer⟩ := happend.buffer hok
    have hroom := hwrap.room happend hs hcount
    refine stringAppendBuffer_holds hs hold ?_ (hbuffer.symm.trans hok)
    rw [hroom.toNat_ofNat]
    exact hroom
  · exact hother trivial fun _ h => h.elim
  · exact hother trivial fun _ h => h.elim

/-- After every run of a client that wraps no size, the representation invariant holds. -/
theorem run_holds {trace : List Event} {m : Mem} (hrun : (client NoWrap).Exec trace m) :
    ∃ s content, m.s = some s ∧ Holds m.heap s content := by
  refine System.invariant (P := fun m => ∃ s content, m.s = some s ∧ Holds m.heap s content)
    ?_ ?_ hrun.reachable
  · rintro m ⟨heap, s, errno, rfl⟩
    exact ⟨.blank, [], rfl, .blank rfl rfl⟩
  · rintro m e m' ⟨s, content, hs, hold⟩ ⟨hwrap, _, hexec⟩
    exact exec_holds hs hold hwrap hexec

/-! ## Appending is an action -/

/-- Appending `bytes` from outside the string, with a `realloc` that succeeds. -/
def appendBytes (m : Mem) (bytes : List UInt8) (grant : Nat × (Nat → UInt8)) :
    Except Fault (Int32 × Mem) :=
  stringAppendBuffer m (.region bytes) (UInt64.ofNat bytes.length) (some grant)

/-- **The monoid law at a state.** Appending `a` and then `b` succeeds twice and leaves the
contents one append of `a ++ b` leaves; an append extends the contents by its bytes. -/
def AppendLaw (m : Mem) (a b : List UInt8) : Prop :=
  ∀ g₁ g₂ g : Nat × (Nat → UInt8), ∃ m₁ m₂ m',
    appendBytes m a g₁ = .ok (0, m₁) ∧ appendBytes m₁ b g₂ = .ok (0, m₂)
    ∧ appendBytes m (a ++ b) g = .ok (0, m')
    ∧ m₁.contents = m.contents ++ a ∧ m₂.contents = m'.contents

/-- An append to a string with a buffer, or of at least one byte. -/
theorem appendBytes_spec {m : Mem} {s : StringT} {content bytes : List UInt8}
    (hs : m.s = some s) (hold : Holds m.heap s content) (hroom : Room s bytes.length)
    (hdest : s.data ≠ none ∨ bytes ≠ []) (grant : Nat × (Nat → UInt8)) :
    ∃ m' s', appendBytes m bytes grant = .ok (0, m') ∧ Appended s content bytes m' s' := by
  have hofNat := hroom.toNat_ofNat
  have hdest' : s.data ≠ none ∨ UInt64.ofNat bytes.length ≠ 0 := by
    refine hdest.imp_right fun hne h0 => hne (List.length_eq_zero_iff.mp ?_)
    rw [← hofNat, h0]
    rfl
  rcases stringAppendBuffer_region bytes hs hold (by omega)
      (by rw [hofNat]; exact hroom) hdest' (some grant) with
    ⟨hg, _⟩ | ⟨m', s', hok, happended⟩
  · exact absurd hg (by simp)
  · rw [hofNat, List.take_length] at happended
    exact ⟨m', s', hok, happended⟩

/-- Room for `a` and `b` together leaves room for `b` once `a` is appended. -/
theorem Appended.room {s s' : StringT} {content a : List UInt8} {m' : Mem} {k : Nat}
    (h : Appended s content a m' s') (hroom : Room s (a.length + k)) : Room s' k := by
  obtain ⟨hsum, hdouble⟩ := hroom
  have hlen := h.len
  have hmono := h.mono
  exact ⟨by omega, fun hgrow => by have := hdouble (by omega); omega⟩

/-- An empty append to a string without a buffer is an access through `NULL`. -/
theorem appendBytes_nil_null {m : Mem} {s : StringT} {content : List UInt8}
    (hs : m.s = some s) (hold : Holds m.heap s content) (hdata : s.data = none)
    (grant : Nat × (Nat → UInt8)) (r : Int32 × Mem) : appendBytes m [] grant ≠ .ok r := by
  intro hok
  have hroom : Room s (0 : UInt64).toNat := by
    have hlt := s.len.toNat_lt
    have hle := hold.len_le_capacity
    refine ⟨by simpa using hlt, fun h => absurd h ?_⟩
    simpa using hle
  rcases stringAppendBuffer_cases hs hold hroom (.region []) (some grant) with
    ⟨hg, _⟩ | ⟨m₁, s₁, hgrown, hcopy⟩
  · exact absurd hg (by simp)
  · -- `0 > capacity` is false: nothing is reserved
    have hsame := hgrown.same ⟨hdata, rfl⟩
    subst hsame
    exact appendCopy_null hs hdata (.region []) 0 r (hcopy.symm.trans hok)

/-- **Appending is an action of the byte sequences, exactly on the strings it can write
to.** For every string a run reaches and all `a` and `b` with room for both, appending `a`
and then `b` returns `0` twice and leaves the contents of one append of `a ++ b` if and
only if the string has a buffer or `a` is not empty. -/
theorem append_law_iff {trace : List Event} {m : Mem} (hrun : (client NoWrap).Exec trace m)
    (a b : List UInt8) (hroom : ∀ s, m.s = some s → Room s (a.length + b.length)) :
    AppendLaw m a b ↔ m.data ≠ none ∨ a ≠ [] := by
  obtain ⟨s, content, hs, hold⟩ := run_holds hrun
  have hdata : m.data = s.data := by simp [Mem.data, hs]
  have hroom := hroom s hs
  rw [hdata]
  constructor
  · -- an empty `a` on a string without a buffer does not even return
    intro hlaw
    by_contra hnot
    obtain ⟨hnull, hnil⟩ := not_or.mp hnot
    obtain ⟨m₁, _, _, hok, _⟩ := hlaw (0, fun _ => 0) (0, fun _ => 0) (0, fun _ => 0)
    rw [not_not.mp hnil] at hok
    exact appendBytes_nil_null hs hold (not_not.mp hnull) _ _ hok
  · intro hdest g₁ g₂ g
    -- `a`, then `b` at the string it leaves, and `a ++ b` at once
    obtain ⟨m₁, s₁, hok₁, h₁⟩ := appendBytes_spec hs hold (hroom.mono (by omega)) hdest g₁
    obtain ⟨m₂, s₂, hok₂, h₂⟩ :=
      appendBytes_spec h₁.obj h₁.holds (h₁.room hroom) (Or.inl h₁.buffer) g₂
    have hroom' : Room s (a ++ b).length := by
      rw [List.length_append]
      exact hroom
    obtain ⟨m', s', hok, h⟩ := appendBytes_spec hs hold hroom'
      (hdest.imp_right fun hne hnil => hne (List.append_eq_nil_iff.mp hnil).1) g
    refine ⟨m₁, m₂, m', hok₁, hok₂, hok, ?_, ?_⟩
    · rw [h₁.holds.contents h₁.obj, hold.contents hs]
    · rw [h₂.holds.contents h₂.obj, h.holds.contents h.obj, List.append_assoc]

/-- The law for a non-empty first append to the fresh string. -/
theorem append_law_iff_fresh : AppendLaw freshString [97] [] :=
  (append_law_iff (exec_freshString NoWrap) [97] [] (by rintro s ⟨⟩; decide)).mpr
    (Or.inr (by decide))

/-- Appending nothing to the fresh string writes through `NULL`, so the law fails there. -/
theorem append_law_fails_on_fresh :
    (client NoWrap).Exec [] freshString ∧ (∀ s, freshString.s = some s → Room s 1)
    ∧ appendBytes freshString [] (0, fun _ => 0) = .error .nullAccess
    ∧ ¬ AppendLaw freshString [] [97] := by
  refine ⟨exec_freshString NoWrap, by rintro s ⟨⟩; decide, rfl, ?_⟩
  intro hlaw
  obtain ⟨m₁, _, _, hok, _⟩ := hlaw (0, fun _ => 0) (0, fun _ => 0) (0, fun _ => 0)
  exact appendBytes_nil_null rfl (.blank rfl rfl) rfl _ _ hok

end HseDev.Utils
