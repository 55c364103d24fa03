import HseDev.Utils.StringCStr

/-!
# HseDev — the states of a string under any client

The run theorems of `StringRuns` are about clients that wrap no size. `anyClient` makes any
call, with any size and from any source, and the string still is in one of two states only.

* **`Standing.whole`** — the representation invariant holds, and the block is smaller than
  `2 ^ 64` bytes.
* **`Lost`** — the pointer has no byte behind it: `string_reserve(s, SIZE_MAX)` asked for
  `0` bytes, which freed the buffer, or created one of no bytes.
* **`exec_whole`** — one call from a whole string; **`standing_of_run`** — every run.
* **`whole_of_run`** — no other call loses a string.
-/

namespace HseDev.Utils

open BlockHeap Transition

/-- A client that makes any call. -/
def anyClient : System Mem Event :=
  client fun _ _ => True

/-- The string points to a block that is gone, or to one of no bytes under the largest
capacity there is. -/
structure Lost (heap : Heap) (s : StringT) (b : Nat) : Prop where
  data : s.data = some b
  fits : s.len.toNat ≤ s.capacity.toNat
  gone : heap b = none ∨ heap b = some [] ∧ s.capacity.toNat + 1 = 2 ^ 64

inductive Standing (heap : Heap) (s : StringT) : Prop where
  | whole {content : List UInt8} (hold : Holds heap s content)
      (hcap : s.capacity.toNat + 1 < 2 ^ 64)
  | lost {b : Nat} (hlost : Lost heap s b)

/-! ## A lost string -/

section Lost

variable {m m' : Mem} {s : StringT} {b : Nat} {n : UInt64} {src : Src} {g : Grant} {r : Int32}

theorem Lost.empty {heap : Heap} (h : Lost heap s b) : heap b = none ∨ heap b = some [] :=
  h.gone.imp_right And.left

theorem Lost.not_holds {heap : Heap} (h : Lost heap s b) :
    ¬ ∃ content, Holds heap s content := by
  rintro ⟨content, hold⟩
  obtain ⟨b', block, howns⟩ := hold.owned_of_data (by rw [h.data]; exact Option.some_ne_none b)
  obtain rfl : b' = b := Option.some.inj (howns.data.symm.trans h.data)
  have hsize := howns.size
  have hlive := howns.live
  rcases h.empty with hdead | hempty
  · rw [hdead] at hlive
    cases hlive
  · rw [hempty] at hlive
    cases hlive
    simp at hsize

/-- Below the largest capacity a lost string's block is dead. -/
theorem Lost.dead {heap : Heap} (h : Lost heap s b) (hlt : s.capacity < n) : heap b = none := by
  have hlt' := UInt64.lt_iff_toNat_lt.mp hlt
  have hmax := n.toNat_lt
  rcases h.gone with hdead | ⟨_, hcap⟩
  · exact hdead
  · omega

theorem Lost.contents (h : Lost m.heap s b) (hs : m.s = some s) : m.contents = [] := by
  rcases h.empty with hdead | hempty
  · simp [Mem.contents, hs, h.data, hdead]
  · simp [Mem.contents, hs, h.data, hempty]

/-- The NUL of a copy has no place. -/
theorem appendCopy_lost (hs : m.s = some s) (h : Lost m.heap s b) (src : Src) (n : UInt64)
    (out : Int32 × Mem) : appendCopy m src n ≠ .ok out := by
  intro hok
  cases hcopy : memcpy m.heap ⟨some b, s.len.toNat⟩ src n.toNat with
  | error e => simp [appendCopy, hs, h.data, hcopy, bind, Except.bind] at hok
  | ok heap =>
    obtain ⟨bytes, _, hstore⟩ := memcpy_ok hcopy
    by_cases hnil : bytes = []
    · -- nothing was copied, so the NUL goes into the heap as it was
      obtain rfl : m.heap = heap := by
        rw [hnil] at hstore
        simpa [Heap.store] using hstore
      cases hnul : Heap.store m.heap ⟨some b, (s.len + n).toNat⟩ [0] with
      | error e =>
        simp only [appendCopy, hs, h.data, hcopy, hnul, bind, Except.bind] at hok
        cases hok
      | ok heap => exact Heap.store_gone h.empty (by simp) hnul
    · exact Heap.store_gone h.empty hnil hstore

/-- A request the capacity does not cover frees the block a second time. -/
theorem stringReserve_lost (hs : m.s = some s) (h : Lost m.heap s b) (hlt : s.capacity < n)
    (g : Grant) : stringReserve m n g = .error .deadBlock := by
  have hle : ¬ n ≤ s.capacity := UInt64.not_le.mpr hlt
  simp [stringReserve, hs, hle, Heap.realloc, h.data, h.dead hlt, bind, Except.bind]

theorem stringReserve_of_lost (hs : m.s = some s) (h : Lost m.heap s b)
    (hok : stringReserve m n g = .ok (r, m')) : r = -1 ∧ m' = m := by
  by_cases hle : n ≤ s.capacity
  · rw [stringReserve_of_le hs hle g] at hok
    obtain ⟨rfl, rfl⟩ := Prod.mk.inj (Except.ok.inj hok)
    exact ⟨rfl, rfl⟩
  · rw [stringReserve_lost hs h (UInt64.not_le.mp hle) g] at hok
    cases hok

/-- An append to a lost string returns only when its doubled size wraps to a request that is
refused. -/
theorem stringAppendBuffer_of_lost (hs : m.s = some s) (h : Lost m.heap s b)
    (hok : stringAppendBuffer m src n g = .ok (r, m')) : r = -1 ∧ m' = m := by
  by_cases hgrow : s.capacity < s.len + n
  · cases hres : stringReserve m ((s.len + n) <<< 1) g with
    | error e =>
      simp [stringAppendBuffer_eq, appendGrow_of_lt hs hgrow, hres, bind, Except.bind] at hok
    | ok out =>
      obtain ⟨r₁, m₁⟩ := out
      obtain ⟨rfl, rfl⟩ := stringReserve_of_lost hs h hres
      simp [stringAppendBuffer_eq, appendGrow_of_lt hs hgrow, hres, bind, Except.bind] at hok
      exact ⟨hok.1.symm, hok.2.symm⟩
  · have hfits := appendGrow_of_le hs (UInt64.not_lt.mp hgrow) g
    rw [stringAppendBuffer_of_grow hfits] at hok
    exact absurd hok (appendCopy_lost hs h src n _)

end Lost

/-! ## One call -/

section Exec

variable {m m' : Mem} {s : StringT} {content : List UInt8} {op : Op} {g : Grant} {r : Int32}

/-- **One call from a whole string.** If it returns, the string is whole again, unless the
call is `string_reserve(s, SIZE_MAX)`. -/
theorem exec_whole (hs : m.s = some s) (hold : Holds m.heap s content)
    (hcap : s.capacity.toNat + 1 < 2 ^ 64) (hok : op.exec m g = .ok (r, m')) :
    ∃ s', m'.s = some s'
      ∧ ((∃ content', Holds m'.heap s' content' ∧ s'.capacity.toNat + 1 < 2 ^ 64)
        ∨ ∃ n b, op = .reserve n ∧ n + 1 = 0 ∧ Lost m'.heap s' b) := by
  rcases op.isAppend_or with happend | ⟨n, rfl⟩ | rfl
  · obtain ⟨src, k, _, hbuffer⟩ := happend.buffer hok
    rcases stringAppendBuffer_sealed hs hold hcap (hbuffer.symm.trans hok) with
      ⟨_, rfl⟩ | ⟨_, s', heap, bytes, hs', _, hsealed⟩
    · exact ⟨s, hs, .inl ⟨content, hold, hcap⟩⟩
    · exact ⟨s', hs', .inl ⟨content ++ bytes, hsealed.holds, hsealed.capacity_lt⟩⟩
  · obtain ⟨out, hres, hout⟩ := stringReserve_outcome hs hold n g
    obtain rfl : out = (r, m') := Except.ok.inj (hres.symm.trans hok)
    cases hout with
    | covered _ => exact ⟨s, hs, .inl ⟨content, hold, hcap⟩⟩
    | failed _ _ _ => exact ⟨s, hs, .inl ⟨content, hold, hcap⟩⟩
    | granted _ hsize _ howns _ =>
      exact ⟨_, rfl, .inl ⟨content, .owned howns, toNat_add_one_lt hsize⟩⟩
    -- a size of `SIZE_MAX + 1` bytes is none, which frees the block
    | @freed hlt hsize b hdata =>
      exact ⟨s, hs, .inr ⟨n, b, rfl, hsize, hdata, hold.len_le_capacity,
        .inl (Function.update_self ..)⟩⟩
    -- without a block it gives one of no bytes, with the largest capacity
    | @empty hlt hsize hdata b fresh hg =>
      have hmax := toNat_of_add_one_eq_zero hsize
      have hlen := hold.len_le_capacity
      have hlt' := UInt64.lt_iff_toNat_lt.mp hlt
      refine ⟨_, rfl, .inr ⟨n, b, rfl, hsize, rfl, ?_, .inr ⟨Function.update_self .., hmax⟩⟩⟩
      simp only
      omega
  · obtain ⟨heap, hfree⟩ := stringDestruct_holds hs hold
    simp only [Op.exec, hfree, bind, Except.bind] at hok
    obtain ⟨-, rfl⟩ := Prod.mk.inj (Except.ok.inj hok)
    exact ⟨.blank, rfl, .inl ⟨[], .blank rfl rfl, by decide⟩⟩

/-- A call from a lost string: it refuses, or it is the `string_destruct` of an empty block. -/
theorem exec_lost {b : Nat} (hs : m.s = some s) (hlost : Lost m.heap s b)
    (hok : op.exec m g = .ok (r, m')) : ∃ s', m'.s = some s' ∧ Standing m'.heap s' := by
  rcases op.isAppend_or with happend | ⟨n, rfl⟩ | rfl
  · obtain ⟨src, k, _, hbuffer⟩ := happend.buffer hok
    obtain ⟨-, rfl⟩ := stringAppendBuffer_of_lost hs hlost (hbuffer.symm.trans hok)
    exact ⟨s, hs, .lost hlost⟩
  · obtain ⟨-, rfl⟩ := stringReserve_of_lost hs hlost hok
    exact ⟨s, hs, .lost hlost⟩
  · rcases hlost.empty with hdead | hempty
    · simp [Op.exec, stringDestruct, hs, hlost.data, Heap.free, hdead, bind, Except.bind] at hok
    · simp only [Op.exec, stringDestruct, hs, hlost.data, Heap.free, hempty, bind,
        Except.bind] at hok
      obtain ⟨-, rfl⟩ := Prod.mk.inj (Except.ok.inj hok)
      exact ⟨.blank, rfl, .whole (.blank rfl rfl) (by decide)⟩

end Exec

/-! ## Runs -/

/-- **Every run of any client** leaves a whole string or a lost one. Nothing else can become of a
string, whatever the arguments are and whatever is granted, as long as the calls return. -/
theorem standing_of_run {trace : List Event} {m : Mem} (hrun : anyClient.Exec trace m) :
    ∃ s, m.s = some s ∧ Standing m.heap s := by
  refine System.invariant (P := fun m => ∃ s, m.s = some s ∧ Standing m.heap s)
    ?_ ?_ hrun.reachable
  · rintro m ⟨heap, s, errno, rfl⟩
    exact ⟨.blank, rfl, .whole (.blank rfl rfl) (by decide)⟩
  · rintro m e m' ⟨s, hs, hstanding⟩ ⟨-, -, hexec⟩
    cases hstanding with
    | whole hold hcap =>
      obtain ⟨s', hs', ⟨content, hold', hcap'⟩ | ⟨n, b, _, _, hlost⟩⟩ :=
        exec_whole hs hold hcap hexec
      · exact ⟨s', hs', .whole hold' hcap'⟩
      · exact ⟨s', hs', .lost hlost⟩
    | lost hlost => exact exec_lost hs hlost hexec

theorem Standing.of_run {trace : List Event} {m : Mem} {s : StringT}
    (hrun : anyClient.Exec trace m) (hs : m.s = some s) : Standing m.heap s := by
  obtain ⟨s', hs', hstanding⟩ := standing_of_run hrun
  obtain rfl : s' = s := Option.some.inj (hs'.symm.trans hs)
  exact hstanding

/-- A string that holds bytes owns its block. -/
theorem owns_of_contents {trace : List Event} {m : Mem} {s : StringT}
    (hrun : anyClient.Exec trace m) (hs : m.s = some s) (hne : m.contents ≠ []) :
    ∃ b block, Owns m.heap s b block m.contents ∧ s.capacity.toNat + 1 < 2 ^ 64 := by
  cases Standing.of_run hrun hs with
  | whole hold hcap =>
    obtain rfl := hold.contents hs
    cases hold with
    | blank _ hnil => exact absurd hnil hne
    | owned howns => exact ⟨_, _, howns, hcap⟩
  | lost hlost => exact absurd (hlost.contents hs) hne

/-- **Only `string_reserve(s, SIZE_MAX)` loses a string.** A client that never asks for it has
whole strings only, in every state of every run. -/
theorem whole_of_run {trace : List Event} {m : Mem}
    (hrun : (client fun _ op => ∀ n, op = .reserve n → n + 1 ≠ 0).Exec trace m) :
    ∃ s content, m.s = some s ∧ Holds m.heap s content ∧ s.capacity.toNat + 1 < 2 ^ 64 := by
  refine System.invariant (P := fun m => ∃ s content, m.s = some s ∧ Holds m.heap s content
    ∧ s.capacity.toNat + 1 < 2 ^ 64) ?_ ?_ hrun.reachable
  · rintro m ⟨heap, s, errno, rfl⟩
    exact ⟨.blank, [], rfl, .blank rfl rfl, by decide⟩
  · rintro m e m' ⟨s, content, hs, hold, hcap⟩ ⟨hallowed, -, hexec⟩
    obtain ⟨s', hs', ⟨content', hold', hcap'⟩ | ⟨n, b, hop, hsize, _⟩⟩ :=
      exec_whole hs hold hcap hexec
    · exact ⟨s', content', hs', hold', hcap'⟩
    · exact absurd hsize (hallowed n hop)

/-- A run to a full string of one byte: `string_reserve(s, 1)` and an append that fits. -/
theorem exec_oneByte : ∃ m, anyClient.Exec
      [⟨.reserve 1, some (0, fun _ => 0), 0⟩, ⟨.append (.region [97, 0]), none, 0⟩] m
    ∧ m.s = some ⟨some 0, 1, 1⟩ ∧ m.heap 0 = some [97, 0] ∧ m.heap 1 = none := by
  have hreserve : anyClient.step freshString ⟨.reserve 1, some (0, fun _ => 0), 0⟩
      (reservedString 0) := ⟨trivial, fun _ _ _ => .inl rfl, rfl⟩
  obtain ⟨m, hexec, hfull⟩ : ∃ m,
      Op.exec (reservedString 0) none (.append (.region [97, 0])) = .ok (0, m)
      ∧ m.s = some ⟨some 0, 1, 1⟩ ∧ m.heap 0 = some [97, 0] ∧ m.heap 1 = none :=
    ⟨_, rfl, rfl, rfl, rfl⟩
  have happend : anyClient.step (reservedString 0) ⟨.append (.region [97, 0]), none, 0⟩ m :=
    ⟨trivial, Grant.fits_none, hexec⟩
  have hrun := (exec_freshString fun _ _ => True).extend
    (System.Run.cons hreserve (System.Run.single happend))
  exact ⟨m, hrun, hfull⟩

end HseDev.Utils
