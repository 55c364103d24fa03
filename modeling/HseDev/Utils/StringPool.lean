import HseDev.Utils.StringFootprint

/-!
# HseDev — many strings in one heap

A client holds any number of strings and passes one to another by `string_append_string`.

* **`Apart`** — the invariant of a pool: each string holds its content, no two share a block, and
  every live block belongs to a string; **`Apart.set`** — a call on one string keeps it.
* **`stringAppendString_eq`** — appending another string is appending a copy of its bytes, so
  **`exec_external`** brings every call of the client down to the calls of a single string.
* **`pool_refines`** — a run of any length refines the byte sequences of its trace.
* **`destruct_all`** — at the end all memory can be given back.
-/

namespace HseDev.Utils

open BlockHeap Transition

/-! ## A client of many strings -/

/-- The strings of a client, each after its `string_init`. -/
structure Pool (ι : Type) where
  heap : Heap
  str : ι → StringT

/-- What a call on the `i`-th string gets. -/
def Pool.mem {ι : Type} (p : Pool ι) (i : ι) : Mem where
  heap := p.heap
  s := some (p.str i)

/-- What it leaves; `errno` is only set for a `NULL` argument. -/
def Pool.set {ι : Type} [DecidableEq ι] (p : Pool ι) (i : ι) (m : Mem) : Pool ι where
  heap := m.heap
  str := match m.s with
    | none => p.str
    | some s => Function.update p.str i s

/-- `appendString i j` is `string_append_string(&s[i], &s[j])`. -/
inductive Call (ι : Type) where
  | own (i : ι) (op : Op)
  | appendString (i j : ι)
  deriving DecidableEq, Repr

def Call.target {ι : Type} : Call ι → ι
  | .own i _ => i
  | .appendString i _ => i

def Call.exec {ι : Type} (p : Pool ι) (g : Grant) : Call ι → Except Fault (Int32 × Mem)
  | .own i op => op.exec (p.mem i) g
  | .appendString i j => stringAppendString (p.mem i) (p.str j) g

structure PoolEvent (ι : Type) where
  call : Call ι
  grant : Grant
  ret : Int32

/-- The contract of a single string, and for another string as the source: a second one, no
wrapping size, and no empty one for a string without a buffer. -/
def Call.Allowed {ι : Type} (p : Pool ι) : Call ι → Prop
  | .own i op => Utils.Allowed (p.mem i) op
  | .appendString i j =>
    i ≠ j ∧ Room (p.str i) (p.str j).len.toNat ∧ ((p.str i).data = none → (p.str j).len ≠ 0)

def pool (ι : Type) [DecidableEq ι] : System (Pool ι) (PoolEvent ι) where
  init p := p = ⟨Heap.empty, fun _ => .blank⟩
  step p e q :=
    e.call.Allowed p ∧ Grant.Fits p.heap (p.str e.call.target).data e.grant
      ∧ ∃ m, e.call.exec p e.grant = .ok (e.ret, m) ∧ q = p.set e.call.target m

/-- What a call leaves of the contents. -/
def PoolEvent.apply {ι : Type} [DecidableEq ι] (contents : ι → List UInt8) (e : PoolEvent ι) :
    ι → List UInt8 :=
  match e.call with
  | .own i op => Function.update contents i (Event.apply (contents i) ⟨op, e.grant, e.ret⟩)
  | .appendString i j =>
    Function.update contents i (if e.ret = 0 then contents i ++ contents j else contents i)

def held {ι : Type} [DecidableEq ι] (trace : List (PoolEvent ι)) : ι → List UInt8 :=
  trace.foldl PoolEvent.apply fun _ => []

/-! ## The invariant of a pool -/

structure Apart {ι : Type} (p : Pool ι) (contents : ι → List UInt8) : Prop where
  holds : ∀ i, Holds p.heap (p.str i) (contents i)
  separate : ∀ i j b, (p.str i).data = some b → (p.str j).data = some b → i = j
  owned : ∀ b, p.heap b ≠ none → ∃ i, (p.str i).data = some b

section Pool

variable {ι : Type} {p q : Pool ι} {contents : ι → List UInt8} {i j : ι} {m : Mem}
  {s : StringT} {content : List UInt8} {c : Call ι} {g : Grant} {r : Int32}

theorem Holds.length_eq {heap : Heap} (h : Holds heap s content) :
    content.length = s.len.toNat := by
  cases h with
  | blank hblank hnil =>
    rw [hblank, hnil]
    rfl
  | owned howns =>
    have hsize := howns.size
    have hfits := howns.fits
    rw [← howns.bytes, List.length_take]
    omega

theorem Apart.live (h : Apart p contents) {b : Nat} (hdata : (p.str i).data = some b) :
    p.heap b ≠ none := by
  have hbuffer : (p.str i).data ≠ none := by
    rw [hdata]
    exact Option.some_ne_none b
  obtain ⟨b', block, howns⟩ := (h.holds i).owned_of_data hbuffer
  cases hdata.symm.trans howns.data
  rw [howns.live]
  exact Option.some_ne_none block

/-- A call on one string does not reach the block of another. -/
theorem Footprint.other (h : Footprint (p.mem i) m) (hp : Apart p contents) (hij : i ≠ j) {b : Nat}
    (hb : (p.str j).data = some b) : m.data ≠ some b ∧ m.heap b = p.heap b := by
  have hi : (p.mem i).data ≠ some b := fun hi => hij (hp.separate i j b hi hb)
  have hm : m.data ≠ some b := by
    intro hm
    rcases h.fresh b hm with hsame | hfree
    · exact hi hsame
    · exact hp.live hb hfree
  exact ⟨hm, h.frame b hi hm⟩

/-- What another string holds stays where it is. -/
theorem Footprint.holds (h : Footprint (p.mem i) m) (hp : Apart p contents) (hij : i ≠ j) :
    Holds m.heap (p.str j) (contents j) := by
  cases hp.holds j with
  | blank hblank hnil => exact .blank hblank hnil
  | owned howns =>
    obtain ⟨-, hheap⟩ := h.other hp hij howns.data
    exact .owned { howns with live := hheap.trans howns.live }

variable [DecidableEq ι]

/-- **A call on one string keeps the pool.** Its footprint is its own string, so the other strings
have their blocks and their contents still, and no two have come to share one. -/
theorem Apart.set (hp : Apart p contents) (h : Footprint (p.mem i) m) (hs : m.s = some s)
    (hold : Holds m.heap s content) : Apart (p.set i m) (Function.update contents i content) := by
  have hstr : (p.set i m).str = Function.update p.str i s := by
    simp only [Pool.set, hs]
  have hdata : m.data = s.data := Mem.data_of_obj hs
  have hself : (p.set i m).str i = s := by rw [hstr, Function.update_self]
  have hother : ∀ j, i ≠ j → (p.set i m).str j = p.str j := fun j hij => by
    rw [hstr, Function.update_of_ne (Ne.symm hij)]
  have hapart : ∀ j b, i ≠ j → s.data = some b → (p.str j).data ≠ some b := fun j b hij hb hj =>
    (h.other hp hij hj).1 (hdata.trans hb)
  refine ⟨fun j => ?_, fun j k b hj hk => ?_, fun b hb => ?_⟩
  · -- the other strings have kept their blocks
    by_cases hij : i = j
    · subst hij
      rw [hself, Function.update_self]
      exact hold
    · rw [hother j hij, Function.update_of_ne (Ne.symm hij)]
      exact h.holds hp hij
  · -- no two strings share a block: the new one was free or was the string's own
    by_cases hij : i = j
    · by_cases hik : i = k
      · exact hij.symm.trans hik
      · subst hij
        rw [hself] at hj
        rw [hother k hik] at hk
        exact absurd hk (hapart k b hik hj)
    · rw [hother j hij] at hj
      by_cases hik : i = k
      · subst hik
        rw [hself] at hk
        exact absurd hj (hapart j b hij hk)
      · rw [hother k hik] at hk
        exact hp.separate j k b hj hk
  · -- every live block belongs to a string: the old one of this string is gone
    by_cases hnew : m.data = some b
    · exact ⟨i, by rw [hself, ← hdata, hnew]⟩
    by_cases hold : (p.mem i).data = some b
    · exact absurd (h.gone b hold hnew) hb
    · have hlive : p.heap b ≠ none := by
        rw [← show m.heap b = p.heap b from h.frame b hold hnew]
        exact hb
      obtain ⟨j, hj⟩ := hp.owned b hlive
      have hij : i ≠ j := fun heq => hold (heq ▸ hj)
      exact ⟨j, by rw [hother j hij, hj]⟩

end Pool

/-! ## The calls -/

section Calls

variable {ι : Type} {p q : Pool ι} {contents : ι → List UInt8} {i j : ι} {m m' : Mem}
  {c : Call ι} {g : Grant} {r : Int32}

/-- The same call with a copy of the bytes for the other string. -/
def Call.external (p : Pool ι) (contents : ι → List UInt8) : Call ι → Op
  | .own _ op => op
  | .appendString _ j => .appendBuffer (.region (contents j)) (p.str j).len

/-- The copy reads the other string from a memory that the growth has left alone there. -/
theorem appendCopy_other (hp : Apart p contents) (hij : i ≠ j) (h : Footprint (p.mem i) m) :
    appendCopy m (.heap ⟨(p.str j).data, 0⟩) (p.str j).len
      = appendCopy m (.region (contents j)) (p.str j).len := by
  cases hs : m.s with
  | none => simp only [appendCopy, hs]
  | some s =>
    have hcopy : memcpy m.heap ⟨s.data, s.len.toNat⟩ (.heap ⟨(p.str j).data, 0⟩)
          (p.str j).len.toNat
        = memcpy m.heap ⟨s.data, s.len.toNat⟩ (.region (contents j)) (p.str j).len.toNat := by
      cases hp.holds j with
      | blank hblank hnil =>
        rw [hblank, hnil]
        rfl
      | @owned b block howns =>
        obtain ⟨hnew, hheap⟩ := h.other hp hij howns.data
        have hlen : (p.str j).len.toNat ≤ block.length := by
          have hsize := howns.size
          have hfits := howns.fits
          omega
        rw [Mem.data_of_obj hs] at hnew
        rw [howns.data, ← howns.bytes]
        exact memcpy_apart (hheap.trans howns.live) hlen hnew
    simp only [appendCopy, hs, hcopy]

/-- **Appending another string** is appending a copy of its bytes. The other string is apart, so the
growth of this one neither moves nor frees it, and what is copied is its content before the call. -/
theorem stringAppendString_eq (hp : Apart p contents) (hij : i ≠ j)
    (hfits : Grant.Fits p.heap (p.str i).data g) :
    stringAppendString (p.mem i) (p.str j) g
      = stringAppendBuffer (p.mem i) (.region (contents j)) (p.str j).len g := by
  unfold stringAppendString
  rw [stringAppendBuffer_eq, stringAppendBuffer_eq]
  cases hgrow : appendGrow (p.mem i) (p.str j).len g with
  | error e => rfl
  | ok out =>
    obtain ⟨ret, m⟩ := out
    have hfoot : Footprint (p.mem i) m := appendGrow_footprint (s := p.str i) rfl hfits hgrow
    simp only [bind, Except.bind]
    rw [appendCopy_other hp hij hfoot]

theorem exec_external (hp : Apart p contents) (hallowed : c.Allowed p)
    (hfits : Grant.Fits p.heap (p.str c.target).data g) :
    c.exec p g = (c.external p contents).exec (p.mem c.target) g := by
  cases c with
  | own i op => rfl
  | appendString i j => exact stringAppendString_eq hp hallowed.1 hfits

theorem allowed_external (hp : Apart p contents) (hallowed : c.Allowed p) :
    Allowed (p.mem c.target) (c.external p contents) := by
  cases c with
  | own i op => exact hallowed
  | appendString i j =>
    obtain ⟨-, hroom, hnonempty⟩ := hallowed
    have hlen := (hp.holds j).length_eq
    refine ⟨?_, ?_, fun hdata _ hnil => ?_⟩
    · show (p.str j).len.toNat ≤ (contents j).length
      exact Nat.le_of_eq hlen.symm
    · rintro s k ⟨⟩ ⟨⟩
      exact hroom
    · -- no bytes to append, so the other string is empty
      have hpayload : (contents j).take (p.str j).len.toNat = [] := hnil
      rw [← hlen, List.take_length] at hpayload
      rw [hpayload] at hlen
      exact hnonempty hdata (UInt64.toNat_inj.mp hlen.symm)

variable [DecidableEq ι]

theorem apply_external (hp : Apart p contents) :
    PoolEvent.apply contents ⟨c, g, r⟩ = Function.update contents c.target
      (Event.apply (contents c.target) ⟨c.external p contents, g, r⟩) := by
  cases c with
  | own i op => rfl
  | appendString i j =>
    have htake : (contents j).take (p.str j).len.toNat = contents j := by
      rw [← (hp.holds j).length_eq, List.take_length]
    show Function.update contents i _ = Function.update contents i (if r = 0 then
      contents i ++ (contents j).take (p.str j).len.toNat else contents i)
    rw [htake]

/-- **One allowed call** performs, and keeps the pool. On any of the strings: it returns 0 or `-1`,
and `-1` leaves all of them as they were. -/
theorem call_spec (hp : Apart p contents) (hallowed : c.Allowed p)
    (hfits : Grant.Fits p.heap (p.str c.target).data g) :
    ∃ ret m, c.exec p g = .ok (ret, m) ∧ (ret = 0 ∨ ret = -1) ∧ (ret = -1 → p.set c.target m = p) ∧
      Apart (p.set c.target m) (PoolEvent.apply contents ⟨c, g, ret⟩) := by
  obtain ⟨ret, m, hperforms⟩ :=
    exec_spec (c.external p contents) g rfl (hp.holds c.target) (allowed_external hp hallowed)
  have hfoot := exec_footprint (c.external p contents) rfl hfits hperforms.exec
  obtain ⟨s, hs, hold⟩ := hperforms.holds
  refine ⟨ret, m, (exec_external hp hallowed hfits).trans hperforms.exec, hperforms.returns,
    fun hret => ?_, ?_⟩
  · rw [hperforms.failed hret]
    show Pool.mk p.heap (Function.update p.str c.target (p.str c.target)) = p
    rw [Function.update_eq_self]
  · rw [apply_external hp]
    exact hp.set hfoot hs hold

/-! ## Runs -/

theorem apart_of_run {trace : List (PoolEvent ι)} (hrun : (pool ι).Exec trace p) :
    Apart p (held trace) := by
  refine System.exec_induction (P := fun trace p => Apart p (held trace)) ?_ ?_ hrun
  · rintro p rfl
    exact ⟨fun _ => .blank rfl rfl, nofun, fun b hb => absurd rfl hb⟩
  · intro trace p e q _ hp hstep
    obtain ⟨hallowed, hfits, m, hexec, rfl⟩ := hstep
    obtain ⟨ret, m', hexec', -, -, hq⟩ := call_spec hp hallowed hfits
    obtain ⟨hret, rfl⟩ := result_unique hexec hexec'
    rw [held, List.foldl_append]
    rw [← hret] at hq
    exact hq

/-- **The strings of a run.** Whatever the allocator answers, each string holds the bytes that the
trace has given it, no two share a block, and no live block is without its string; the next allowed
call returns `0` or `-1`, and with `-1` nothing has changed. -/
theorem pool_refines {trace : List (PoolEvent ι)} (hrun : (pool ι).Exec trace p) :
    Apart p (held trace) ∧
      ∀ c g, Call.Allowed p c → Grant.Fits p.heap (p.str c.target).data g →
        ∃ ret m, c.exec p g = .ok (ret, m) ∧ (ret = 0 ∨ ret = -1) ∧
          (ret = -1 → p.set c.target m = p) := by
  have hp := apart_of_run hrun
  refine ⟨hp, fun c g hallowed hfits => ?_⟩
  obtain ⟨ret, m, hexec, hreturns, hfailed, -⟩ := call_spec hp hallowed hfits
  exact ⟨ret, m, hexec, hreturns, hfailed⟩

/-- A string without a buffer is blank. -/
theorem Holds.eq_blank {heap : Heap} {s : StringT} {content : List UInt8} (h : Holds heap s content)
    (hdata : s.data = none) : s = .blank := by
  cases h with
  | blank hblank _ => exact hblank
  | owned howns => exact absurd hdata howns.data_ne_none

def destructEvent (i : ι) : PoolEvent ι :=
  ⟨.own i .destruct, none, 0⟩

theorem destruct_step (hp : Apart p contents) (i : ι) :
    ∃ q, (pool ι).step p (destructEvent i) q ∧ Apart q (Function.update contents i []) ∧
      q.str = Function.update p.str i .blank := by
  obtain ⟨heap, hfree⟩ := stringDestruct_holds (m := p.mem i) rfl (hp.holds i)
  have hexec : Op.destruct.exec (p.mem i) none
      = .ok (0, { p.mem i with heap, s := some .blank }) := by
    simp only [Op.exec, hfree, bind, Except.bind]
  have hfoot := stringDestruct_footprint (m := p.mem i) rfl hfree
  have hallowed : (Call.own i Op.destruct).Allowed p := ⟨trivial, trivial, fun _ h => h.elim⟩
  exact ⟨_, ⟨hallowed, Grant.fits_none, _, hexec, rfl⟩, hp.set hfoot rfl (.blank rfl rfl), rfl⟩

/-- Destructing the strings of a list, one after the other. -/
theorem destruct_list (l : List ι) : ∀ {p : Pool ι} {contents : ι → List UInt8}, Apart p contents →
    ∃ q contents', (pool ι).Run p (l.map destructEvent) q ∧ Apart q contents' ∧
      ∀ i, q.str i = if i ∈ l then .blank else p.str i := by
  induction l with
  | nil =>
    intro p contents hp
    exact ⟨p, contents, .refl, hp, fun i => (if_neg List.not_mem_nil).symm⟩
  | cons i l ih =>
    intro p contents hp
    obtain ⟨p₁, hstep, hp₁, hstr⟩ := destruct_step hp i
    obtain ⟨q, contents', hrun, hq, hblank⟩ := ih hp₁
    refine ⟨q, contents', hrun.cons hstep, hq, fun j => ?_⟩
    rw [hblank, hstr]
    by_cases hl : j ∈ l
    · rw [if_pos hl, if_pos (List.mem_cons_of_mem i hl)]
    · by_cases hij : j = i
      · subst hij
        rw [if_neg hl, Function.update_self, if_pos List.mem_cons_self]
      · rw [if_neg hl, Function.update_of_ne hij,
          if_neg fun h => (List.mem_cons.mp h).elim hij hl]

/-- **No leak.** From every state of every run, destructing the strings that have a buffer, in any
order and also twice, gives back all memory. -/
theorem destruct_all {trace : List (PoolEvent ι)} (hrun : (pool ι).Exec trace p) (l : List ι)
    (hl : ∀ i, (p.str i).data ≠ none → i ∈ l) :
    ∃ q, (pool ι).Run p (l.map destructEvent) q ∧ q.heap = Heap.empty ∧
      ∀ i, q.str i = .blank := by
  have hp := apart_of_run hrun
  obtain ⟨q, contents', hdestruct, hq, hstr⟩ := destruct_list l hp
  have hblank : ∀ i, q.str i = .blank := by
    intro i
    rw [hstr]
    by_cases hi : i ∈ l
    · exact if_pos hi
    · rw [if_neg hi]
      exact (hp.holds i).eq_blank (not_not.mp fun hdata => hi (hl i hdata))
  refine ⟨q, hdestruct, funext fun b => ?_, hblank⟩
  -- a live block would have its string
  by_contra hlive
  obtain ⟨i, hi⟩ := hq.owned b hlive
  rw [hblank i] at hi
  exact absurd hi nofun

end Calls

/-! ## Two strings -/

/-- The first string gets two bytes, and the second one the first. -/
def twoStrings : List (PoolEvent Bool) :=
  [⟨.own false (.append (.region [97, 98, 0])), some (0, fun _ => 255), 0⟩,
   ⟨.appendString true false, some (1, fun _ => 255), 0⟩]

theorem exec_twoStrings : ∃ p, (pool Bool).Exec twoStrings p := by
  have hallowed : Allowed freshString (.append (.region [97, 98, 0])) := by
    refine ⟨?_, ?_, fun _ _ => by decide⟩
    · show (0 : UInt8) ∈ [97, 98, 0]
      decide
    · rintro s k ⟨⟩ ⟨⟩
      decide
  exact ⟨_, _, rfl,
    System.Run.cons ⟨hallowed, fun b _ _ => Or.inl rfl, _, rfl, rfl⟩ <|
    System.Run.single ⟨⟨by decide, by decide, fun _ => by decide⟩,
      fun b _ hg => by cases hg; exact Or.inl rfl, _, rfl, rfl⟩⟩

theorem pool_refines_two : ∃ p, (pool Bool).Exec twoStrings p ∧
    Holds p.heap (p.str true) [97, 98] := by
  obtain ⟨p, hrun⟩ := exec_twoStrings
  exact ⟨p, hrun, (pool_refines hrun).1.holds true⟩

theorem destruct_all_two : ∃ p q, (pool Bool).Exec twoStrings p ∧
    (pool Bool).Run p [destructEvent true, destructEvent false] q ∧ q.heap = Heap.empty := by
  obtain ⟨p, hrun⟩ := exec_twoStrings
  obtain ⟨q, hdestruct, hempty, -⟩ := destruct_all hrun [true, false] fun i _ => by
    cases i <;> simp
  exact ⟨p, q, hrun, hdestruct, hempty⟩

end HseDev.Utils
