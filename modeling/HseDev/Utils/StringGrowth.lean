import HseDev.Lib.Growth
import HseDev.Utils.StringRuns

/-!
# HseDev — the growth of the buffer is geometric

`string_append_buffer` doubles what an append needs. Over a run of appends this makes the
string a growable array with factor 2, and what such an array costs is known.

* **`exec_sizes`** — what an append leaves of the length and the capacity.
* **`growingClient`** — a client that only appends, with the growths written down: the length
  and the capacity before the growth, and the capacity after it.
* **`run_refines_growth`** — its runs are runs of `Growth.system 2`.
* **`growth_geometric`** — every growth more than doubles the capacity, the capacity is at most
  twice the length, and so is the sum of the lengths at all growths.
-/

namespace HseDev.Utils

open BlockHeap Transition Growth

/-! ## The sizes after an append -/

/-- The capacity test of `string_append_buffer`. -/
def Grows (m : Mem) (op : Op) : Prop :=
  ∃ s k, m.s = some s ∧ op.count m = .ok k ∧ s.capacity < s.len + UInt64.ofNat k

section Exec

variable {m m' : Mem} {s : StringT} {content : List UInt8} {op : Op} {g : Grant} {r : Int32}

/-- Without a wrapping size the test compares the numbers. -/
theorem grows_iff {k : Nat} (hs : m.s = some s) (hcount : op.count m = .ok k)
    (hroom : Room s k) : Grows m op ↔ s.capacity.toNat < s.len.toNat + k := by
  have hofNat := hroom.toNat_ofNat
  have hsum : (s.len + UInt64.ofNat k).toNat = s.len.toNat + k := by
    rw [toNat_len_add (by rw [hofNat]; exact hroom.1), hofNat]
  rw [← hsum, ← UInt64.lt_iff_toNat_lt]
  constructor
  · rintro ⟨s', k', hs', hcount', hgrow⟩
    cases hs.symm.trans hs'
    cases hcount.symm.trans hcount'
    exact hgrow
  · intro hgrow
    exact ⟨s, k, hs, hcount, hgrow⟩

/-- **One append.** When it returns and a growth was granted, the length has grown by the
bytes counted, and the capacity is twice the new length or what it was. -/
theorem exec_sizes (hs : m.s = some s) (hold : Holds m.heap s content) (happend : op.IsAppend)
    (hwrap : NoWrap m op) (hg : Grows m op → g ≠ none) (hok : op.exec m g = .ok (r, m')) :
    ∃ k s', op.count m = .ok k ∧ Room s k ∧ m'.s = some s'
      ∧ s'.len.toNat = s.len.toNat + k
      ∧ s'.capacity.toNat
        = if s.capacity.toNat < s.len.toNat + k then 2 * (s.len.toNat + k)
          else s.capacity.toNat := by
  obtain ⟨src, k, hcount, hbuffer⟩ := happend.buffer hok
  have hroom := hwrap.room happend hs hcount
  have hofNat := hroom.toNat_ofNat
  have hroom' : Room s (UInt64.ofNat k).toNat := by
    rw [hofNat]
    exact hroom
  have hgrows := grows_iff hs hcount hroom
  have hsum : (s.len + UInt64.ofNat k).toNat = s.len.toNat + k := by
    rw [toNat_len_add hroom'.1, hofNat]
  rw [hbuffer] at hok
  obtain ⟨out, hgrow, hout⟩ := appendGrow_outcome hs hold (UInt64.ofNat k) g
  cases hout with
  | fits hle =>
    rw [stringAppendBuffer_of_grow hgrow] at hok
    have hnot : ¬ s.capacity.toNat < s.len.toNat + k := by
      rw [← hsum]
      exact Nat.not_lt.mpr (UInt64.le_iff_toNat_le.mp hle)
    exact ⟨k, _, hcount, hroom, (appendCopy_obj hs hok).2, hsum, by rw [if_neg hnot]⟩
  | failed hlt hwhy =>
    -- neither reason is left: the double does not wrap, and the growth was granted
    have hdouble := (toNat_required hroom' hlt).2.2
    rcases hwhy with hle | hnone
    · exact absurd hdouble (UInt64.not_lt.mpr hle)
    · exact absurd hnone (hg ⟨s, k, hs, hcount, hlt⟩)
  | granted hlt _ _ _ _ _ =>
    rw [stringAppendBuffer_of_grow hgrow] at hok
    obtain ⟨hshift, -, -⟩ := toNat_required hroom' hlt
    have hexact : s.capacity.toNat < s.len.toNat + k := hgrows.mp ⟨s, k, hs, hcount, hlt⟩
    obtain ⟨-, hobj⟩ := appendCopy_obj rfl hok
    refine ⟨k, _, hcount, hroom, hobj, hsum, ?_⟩
    rw [if_pos hexact]
    simp only
    rw [hshift, hofNat]

end Exec

/-! ## Runs of appends -/

/-- The length and the capacity of the string. -/
def Mem.len (m : Mem) : Nat := (m.s.map (·.len.toNat)).getD 0

def Mem.capacity (m : Mem) : Nat := (m.s.map (·.capacity.toNat)).getD 0

/-- A client that only appends, without wrapping a size, and gets every growth it asks for.
The growths are written down as they happen. -/
def growingClient : System (Mem × List Resize) Event where
  init st := (client fun m op => op.IsAppend ∧ NoWrap m op).init st.1 ∧ st.2 = []
  step st e st' :=
    (client fun m op => op.IsAppend ∧ NoWrap m op).step st.1 e st'.1
    ∧ (Grows st.1 e.op → e.grant ≠ none)
    ∧ (Grows st.1 e.op ∧ st'.2 = st.2 ++ [⟨st.1.len, st.1.capacity, st'.1.capacity⟩]
      ∨ ¬ Grows st.1 e.op ∧ st'.2 = st.2)

/-- A string with its growths as a growable array. -/
def sizes (st : Mem × List Resize) : Sizes :=
  { used := st.1.len, capacity := st.1.capacity, growths := st.2 }

/-- **One step** is one append to the growable array, of the bytes counted. The abstract array of
the growth library does one step for it, so the bounds of the library are bounds on the code. -/
theorem growing_step {st st' : Mem × List Resize} {e : Event} {s : StringT}
    {content : List UInt8} (hs : st.1.s = some s) (hold : Holds st.1.heap s content)
    (hstep : growingClient.step st e st') :
    (∃ s' content', st'.1.s = some s' ∧ Holds st'.1.heap s' content')
    ∧ ∃ k, (Growth.system 2).step (sizes st) k (sizes st') := by
  obtain ⟨⟨⟨happend, hwrap⟩, -, hexec⟩, hgranted, hrecord⟩ := hstep
  obtain ⟨k, s', hcount, hroom, hs', hlen, hcap⟩ :=
    exec_sizes hs hold happend hwrap hgranted hexec
  refine ⟨exec_holds hs hold hwrap hexec, k, ?_⟩
  have hgrows := grows_iff hs hcount hroom
  rcases hrecord with ⟨hgrow, hlog⟩ | ⟨hstay, hlog⟩
  · have hexact := hgrows.mp hgrow
    rw [if_pos hexact] at hcap
    have hlt : (sizes st).capacity < (sizes st).used + k := by
      simpa [sizes, Mem.len, Mem.capacity, hs] using hexact
    show sizes st' = _
    rw [Sizes.append_of_lt hlt]
    simp [sizes, Mem.len, Mem.capacity, hs, hs', hlen, hcap, hlog]
  · have hexact := fun h => hstay (hgrows.mpr h)
    rw [if_neg hexact] at hcap
    have hle : (sizes st).used + k ≤ (sizes st).capacity := by
      simpa [sizes, Mem.len, Mem.capacity, hs] using hexact
    show sizes st' = _
    rw [Sizes.append_of_le hle]
    simp [sizes, Mem.len, Mem.capacity, hs, hs', hlen, hcap, hlog]

/-- **The refinement.** Every run of appends is a run of a growable array with factor 2. -/
theorem run_refines_growth {trace : List Event} {st : Mem × List Resize}
    (hrun : growingClient.Exec trace st) :
    (∃ s content, st.1.s = some s ∧ Holds st.1.heap s content)
    ∧ ∃ ns, (Growth.system 2).Exec ns (sizes st) := by
  apply System.exec_induction (P := fun _ st =>
    (∃ s content, st.1.s = some s ∧ Holds st.1.heap s content)
    ∧ ∃ ns, (Growth.system 2).Exec ns (sizes st)) ?_ ?_ hrun
  · rintro ⟨m, growths⟩ ⟨⟨heap, s, errno, hm⟩, hlog⟩
    obtain rfl : m = _ := hm
    obtain rfl : growths = [] := hlog
    exact ⟨⟨.blank, [], rfl, .blank rfl rfl⟩, [], .empty, rfl, .refl⟩
  · rintro trace st e st' - ⟨⟨s, content, hs, hold⟩, ns, habs⟩ hstep
    obtain ⟨hholds, k, hseen⟩ := growing_step hs hold hstep
    exact ⟨hholds, ns ++ [k], habs.extend (System.Run.single hseen)⟩

/-- **Geometric growth.** After every run of appends from `string_init` in which no size wraps
and every growth is granted: each growth has set a capacity greater than twice the one before
it, the capacity is at most twice the length, and the lengths held just before the growths
add up to at most twice the length. -/
theorem growth_geometric {trace : List Event} {m : Mem} {growths : List Resize}
    (hrun : growingClient.Exec trace (m, growths)) :
    ∃ s, m.s = some s ∧ (∀ r ∈ growths, 2 * r.before < r.after)
      ∧ s.capacity.toNat ≤ 2 * s.len.toNat ∧ moved growths ≤ 2 * s.len.toNat := by
  obtain ⟨⟨s, content, hobj, -⟩, ns, habs⟩ := run_refines_growth hrun
  have hs : m.s = some s := hobj
  have hgeometric := geometric_of_exec (Nat.le_refl 2) habs
  have htight := hgeometric.tight
  have hmoved := hgeometric.moved_le
  simp only [sizes, Mem.len, Mem.capacity, hs, Option.map_some,
    Option.getD_some] at htight hmoved
  exact ⟨s, hs, hgeometric.grows, htight, hmoved⟩

/-- An append of `bytes` and the NUL that ends them, with room for all of them. -/
theorem growing_append {m m' : Mem} {growths growths' : List Resize} {s : StringT}
    {region : List UInt8} {k : Nat} {g : Grant} {r : Int32} (hs : m.s = some s)
    (hcount : Op.count m (.append (.region region)) = .ok k) (hroom : Room s k)
    (hgrow : s.capacity < s.len + UInt64.ofNat k) (hg : g ≠ none)
    (hfits : Grant.Fits m.heap m.data g)
    (hok : Op.exec m g (.append (.region region)) = .ok (r, m'))
    (hlog : growths' = growths ++ [⟨m.len, m.capacity, m'.capacity⟩]) :
    growingClient.step (m, growths) ⟨.append (.region region), g, r⟩ (m', growths') := by
  refine ⟨⟨⟨trivial, ?_⟩, hfits, hok⟩, fun _ => hg, .inl ⟨⟨s, k, hs, hcount, hgrow⟩, hlog⟩⟩
  intro s' k' hs' hcount'
  cases hs.symm.trans hs'
  cases hcount.symm.trans hcount'
  exact hroom

/-- A run of two appends, of one byte and of two, that both grow the buffer. -/
theorem growth_geometric_two :
    ∃ trace m s, growingClient.Exec trace (m, [⟨0, 0, 2⟩, ⟨1, 2, 6⟩]) ∧ m.s = some s
      ∧ (∀ r ∈ [Resize.mk 0 0 2, ⟨1, 2, 6⟩], 2 * r.before < r.after)
      ∧ s.capacity.toNat ≤ 2 * s.len.toNat ∧ moved [⟨0, 0, 2⟩, ⟨1, 2, 6⟩] ≤ 2 * s.len.toNat := by
  obtain ⟨m₁, m₂, hok₁, hok₂, hs₁, hs₂⟩ : ∃ m₁ m₂,
      Op.exec freshString (some (0, fun _ => 0)) (.append (.region [97, 0])) = .ok (0, m₁)
      ∧ Op.exec m₁ (some (0, fun _ => 0)) (.append (.region [98, 99, 0])) = .ok (0, m₂)
      ∧ m₁.s = some ⟨some 0, 1, 2⟩ ∧ m₂.s = some ⟨some 0, 3, 6⟩ :=
    ⟨_, _, rfl, rfl, rfl, rfl⟩
  have hfirst : growingClient.step (freshString, [])
      ⟨.append (.region [97, 0]), some (0, fun _ => 0), 0⟩ (m₁, [⟨0, 0, 2⟩]) := by
    refine growing_append (k := 1) rfl rfl (by decide) (by decide) (by simp) ?_ hok₁ ?_
    · exact fun _ _ _ => .inl rfl
    · simp [Mem.len, Mem.capacity, hs₁, freshString, stringInit]
  have hsecond : growingClient.step (m₁, [⟨0, 0, 2⟩])
      ⟨.append (.region [98, 99, 0]), some (0, fun _ => 0), 0⟩ (m₂, [⟨0, 0, 2⟩, ⟨1, 2, 6⟩]) := by
    refine growing_append (k := 2) hs₁ rfl (by decide) (by decide) (by simp) ?_ hok₂ ?_
    · rintro b fresh ⟨⟩
      exact .inr (by simp [Mem.data, hs₁])
    · simp [Mem.len, Mem.capacity, hs₁, hs₂]
  have hrun : growingClient.Exec [_, _] (m₂, [⟨0, 0, 2⟩, ⟨1, 2, 6⟩]) :=
    ⟨(freshString, []), ⟨⟨Heap.empty, .blank, none, rfl⟩, rfl⟩,
      System.Run.cons hfirst (System.Run.single hsecond)⟩
  obtain ⟨s, hs, hgrows, hcap, hmoved⟩ := growth_geometric hrun
  exact ⟨_, m₂, s, hrun, hs, hgrows, hcap, hmoved⟩

end HseDev.Utils
