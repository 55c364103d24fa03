import HseDev.Utils.StringRuns

/-!
# HseDev — the footprint of a call on a string

Which blocks a call may change, whatever it is called for.

* **`Footprint`** — only the block of the string has changed; the block the string is in then was
  its own or free, and one it has left is free. Footprints compose (**`Footprint.trans`**).
* **`stringReserve_footprint`**, **`appendCopy_footprint`**, **`stringDestruct_footprint`** — one
  lemma for each function that changes the heap.
* **`exec_footprint`** — every call that returns.
-/

namespace HseDev.Utils

open BlockHeap

/-- From `m` to `m'` only the blocks of the string have changed, and one it has left is free. -/
structure Footprint (m m' : Mem) : Prop where
  frame : ∀ b, m.data ≠ some b → m'.data ≠ some b → m'.heap b = m.heap b
  fresh : ∀ b, m'.data = some b → m.data = some b ∨ m.heap b = none
  gone : ∀ b, m.data = some b → m'.data ≠ some b → m'.heap b = none

section Footprint

variable {m m₁ m' : Mem} {s s' : StringT} {n : UInt64} {g : Grant} {r : Int32} {src : Src}

theorem Footprint.refl (m : Mem) : Footprint m m where
  frame _ _ _ := rfl
  fresh _ h := Or.inl h
  gone _ h h' := absurd h h'

theorem Footprint.trans (h : Footprint m m₁) (h' : Footprint m₁ m') : Footprint m m' where
  frame b hb hb' := by
    by_cases hmid : m₁.data = some b
    · -- a block the string has only passed through is free before and after
      rw [h'.gone b hmid hb', (h.fresh b hmid).resolve_left hb]
    · rw [h'.frame b hmid hb', h.frame b hb hmid]
  fresh b hb := by
    rcases h'.fresh b hb with hmid | hfree
    · exact h.fresh b hmid
    · by_cases hold : m.data = some b
      · exact Or.inl hold
      · by_cases hmid : m₁.data = some b
        · exact h.fresh b hmid
        · exact Or.inr ((h.frame b hold hmid).symm.trans hfree)
  gone b hb hb' := by
    by_cases hmid : m₁.data = some b
    · exact h'.gone b hmid hb'
    · rw [h'.frame b hmid hb', h.gone b hb hmid]

theorem Mem.data_of_obj (hs : m.s = some s) : m.data = s.data := by
  simp [Mem.data, hs]

theorem stringReserve_footprint (hs : m.s = some s) (hfits : Grant.Fits m.heap m.data g)
    (hok : stringReserve m n g = .ok (r, m')) : Footprint m m' := by
  have hdata := Mem.data_of_obj hs
  by_cases hle : n ≤ s.capacity
  · rw [stringReserve_of_le hs hle g] at hok
    cases hok
    exact .refl m
  cases hres : m.heap.realloc s.data (n + 1).toNat g with
  | error e =>
    simp only [stringReserve, hs, hle, hres, if_false, bind, Except.bind] at hok
    cases hok
  | ok out =>
    obtain ⟨heap, memory⟩ := out
    cases memory with
    | none =>
      -- the string keeps its pointer, also to a block that a request for no bytes has freed
      simp only [stringReserve, hs, hle, hres, if_false, bind, Except.bind] at hok
      cases hok
      refine ⟨fun b hb _ => ?_, fun b hb => Or.inl (hdata.trans hb), fun b hb hb' => ?_⟩
      · rw [hdata] at hb
        exact Heap.realloc_other hres hb (Option.some_ne_none b).symm
      · exact absurd (hdata.symm.trans hb) hb'
    | some c =>
      simp only [stringReserve, hs, hle, hres, if_false, bind, Except.bind] at hok
      cases hok
      refine ⟨fun b hb hb' => ?_, fun b hb => ?_, fun b hb hb' => ?_⟩
      · rw [hdata] at hb
        exact Heap.realloc_other hres hb hb'
      · obtain rfl : c = b := Option.some.inj hb
        obtain ⟨fresh, hgrant⟩ := Heap.realloc_granted hres
        exact (hfits c fresh hgrant).symm
      · rw [← hdata, hb] at hres
        exact Heap.realloc_moved hres fun heq => hb' (congrArg some heq.symm)

theorem appendGrow_footprint (hs : m.s = some s) (hfits : Grant.Fits m.heap m.data g)
    (hok : appendGrow m n g = .ok (r, m')) : Footprint m m' := by
  by_cases hgrow : s.capacity < s.len + n
  · rw [appendGrow_of_lt hs hgrow] at hok
    exact stringReserve_footprint hs hfits hok
  · rw [appendGrow_of_le hs (UInt64.not_lt.mp hgrow)] at hok
    cases hok
    exact .refl m

theorem appendCopy_footprint (hs : m.s = some s) (hok : appendCopy m src n = .ok (r, m')) :
    Footprint m m' := by
  have hdata := Mem.data_of_obj hs
  cases hcopy : memcpy m.heap ⟨s.data, s.len.toNat⟩ src n.toNat with
  | error e => simp [appendCopy, hs, hcopy, bind, Except.bind] at hok
  | ok heap =>
    cases hnul : heap.store ⟨s.data, (s.len + n).toNat⟩ [0] with
    | error e =>
      simp only [appendCopy, hs, hcopy, hnul, bind, Except.bind] at hok
      cases hok
    | ok heap' =>
      simp only [appendCopy, hs, hcopy, hnul, bind, Except.bind] at hok
      cases hok
      refine ⟨fun b hb _ => ?_, fun b hb => Or.inl (hdata.trans hb), fun b hb hb' => ?_⟩
      · rw [hdata] at hb
        exact (Heap.store_other hnul hb).trans (memcpy_other hcopy hb)
      · exact absurd (hdata.symm.trans hb) hb'

theorem stringAppendBuffer_footprint (hs : m.s = some s) (hfits : Grant.Fits m.heap m.data g)
    (hok : stringAppendBuffer m src n g = .ok (r, m')) : Footprint m m' := by
  cases hgrow : appendGrow m n g with
  | error e => simp [stringAppendBuffer_eq, hgrow, bind, Except.bind] at hok
  | ok out =>
    obtain ⟨ret, m₁⟩ := out
    have hfirst := appendGrow_footprint hs hfits hgrow
    simp only [stringAppendBuffer_eq, hgrow, bind, Except.bind] at hok
    split at hok
    · cases hok
      exact hfirst
    · cases hs₁ : m₁.s with
      | none => simp [appendCopy, hs₁] at hok
      | some s₁ => exact hfirst.trans (appendCopy_footprint hs₁ hok)

theorem stringDestruct_footprint (hs : m.s = some s) (hok : stringDestruct m = .ok m') :
    Footprint m m' := by
  have hdata := Mem.data_of_obj hs
  cases hbuffer : s.data with
  | none =>
    simp only [stringDestruct, hs, hbuffer] at hok
    cases hok
    exact .refl m
  | some b =>
    cases hlive : m.heap b with
    | none => simp [stringDestruct, hs, hbuffer, Heap.free, hlive, bind, Except.bind] at hok
    | some block =>
      simp only [stringDestruct, hs, hbuffer, Heap.free, hlive, bind, Except.bind] at hok
      cases hok
      rw [hbuffer] at hdata
      refine ⟨fun c hc _ => ?_, fun c hc => ?_, fun c hc _ => ?_⟩
      · have hne : c ≠ b := fun heq => hc (hdata.trans (congrArg some heq.symm))
        exact Function.update_of_ne hne _ _
      · exact absurd hc (Option.some_ne_none c).symm
      · cases hdata.symm.trans hc
        exact Function.update_self ..

/-- **Every call that returns.** It leaves alone all blocks but that of its own string and the one
it has been granted. This holds for every operation, and of calls that fail as well. -/
theorem exec_footprint (op : Op) (hs : m.s = some s) (hfits : Grant.Fits m.heap m.data g)
    (hok : op.exec m g = .ok (r, m')) : Footprint m m' := by
  rcases op.isAppend_or with happend | ⟨n, rfl⟩ | rfl
  · obtain ⟨src, k, -, hbuffer⟩ := happend.buffer hok
    exact stringAppendBuffer_footprint hs hfits (hbuffer.symm.trans hok)
  · exact stringReserve_footprint hs hfits hok
  · cases hdestruct : stringDestruct m with
    | error e => simp [Op.exec, hdestruct, bind, Except.bind] at hok
    | ok m₁ =>
      simp only [Op.exec, hdestruct, bind, Except.bind] at hok
      cases hok
      exact stringDestruct_footprint hs hdestruct

end Footprint

end HseDev.Utils
