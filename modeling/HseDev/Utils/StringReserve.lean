import HseDev.Utils.StringStates

/-!
# HseDev — the contract of `string_reserve`

A caller learns one bit from `string_reserve`. The contract that makes the bit useful: `0`
exactly when the string has the room that was asked for, and `-1` with the string as it was.

* **`safeFrom_of_holds`** — "the string is as it was" includes that every later call of an
  allowed client returns.
* **`reserve_contract_iff`** — for every state of every run and every `n`, the contract holds
  exactly when the capacity does not cover the request and `n + 1` does not wrap, and a
  second request for the same `n` gets the first one's answer exactly when the first is `-1`
  and left the string alone.
* **`reserve_contract_fails`** — a request that is already satisfied is answered with `-1`.
-/

namespace HseDev.Utils

open BlockHeap Transition

/-! ## The contract -/

/-- The string owns a block of `capacity + 1` bytes, and its capacity covers `n`. -/
def HasRoom (m : Mem) (n : UInt64) : Prop :=
  ∃ s b block, m.s = some s ∧ s.data = some b ∧ m.heap b = some block
    ∧ block.length = s.capacity.toNat + 1 ∧ n ≤ s.capacity

/-- Every call of every allowed client from here on returns. -/
def SafeFrom (m : Mem) : Prop :=
  ∀ trace m', (client Allowed).Run m trace m' → ∀ op g, Allowed m' op →
    Grant.Fits m'.heap m'.data g → ∃ out, op.exec m' g = .ok out

/-- What `-1` promises: the request was larger than the capacity, the object and the block
it points to are as before, and the string can still be used. -/
structure Refused (m : Mem) (n : UInt64) (m' : Mem) : Prop where
  larger : ∀ s, m.s = some s → s.capacity < n
  obj : m'.s = m.s
  block : ∀ b, m.data = some b → m.heap b ≠ none ∧ m'.heap b = m.heap b
  contents : m'.contents = m.contents
  safe : SafeFrom m'

/-- What the caller may conclude from the answer `r`. -/
structure Honours (m : Mem) (n : UInt64) (r : Int32) (m' : Mem) : Prop where
  returns : r = 0 ∨ r = -1
  zero_iff : r = 0 ↔ HasRoom m' n
  kept : r = 0 → m'.contents = m.contents ∧ m'.s.map (·.len) = m.s.map (·.len)
  refused : r = -1 → Refused m n m'

/-- `string_reserve(s, n)` returns, and its answer is honoured. -/
def ReserveContract (m : Mem) (n : UInt64) (g : Grant) : Prop :=
  ∃ r m', stringReserve m n g = .ok (r, m') ∧ Honours m n r m'

/-- A second `string_reserve(s, n)` gets the answer of the first: always after a `0`, and
after a `-1` when `realloc` answers it as it answered the first. -/
def SameAnswer (m : Mem) (n : UInt64) (g : Grant) : Prop :=
  ∃ r m', stringReserve m n g = .ok (r, m') ∧
    ∀ g', Grant.Fits m'.heap m'.data g' → r = 0 ∨ g' = g →
      ∃ m'', stringReserve m' n g' = .ok (r, m'')

/-! ## Later calls -/

/-- An allowed client keeps the invariant from wherever it starts. Induction on the run. -/
theorem holds_of_allowed_run {m m' : Mem} {trace : List Event}
    (hrun : (client Allowed).Run m trace m')
    (hold : ∃ s content, m.s = some s ∧ Holds m.heap s content) :
    ∃ s content, m'.s = some s ∧ Holds m'.heap s content := by
  induction hrun with
  | refl => exact hold
  | snoc _ hstep ih =>
    obtain ⟨s, content, hs, hold'⟩ := ih
    obtain ⟨hallowed, _, hexec⟩ := hstep
    exact exec_holds hs hold' hallowed.noWrap hexec

/-- From a string that holds its content no allowed call faults. -/
theorem safeFrom_of_holds {m : Mem} {s : StringT} {content : List UInt8} (hs : m.s = some s)
    (hold : Holds m.heap s content) : SafeFrom m := by
  intro trace m' hrun op g hallowed _
  obtain ⟨s', content', hs', hold'⟩ := holds_of_allowed_run hrun ⟨s, content, hs, hold⟩
  obtain ⟨ret, m'', hperforms⟩ := exec_spec op g hs' hold' hallowed
  exact ⟨_, hperforms.exec⟩

section Contract

variable {m m' : Mem} {s : StringT} {content : List UInt8} {n : UInt64} {g : Grant} {r : Int32}

/-- A call with a known result honours the contract when that result does. -/
theorem reserveContract_iff_honours (hok : stringReserve m n g = .ok (r, m')) :
    ReserveContract m n g ↔ Honours m n r m' := by
  constructor
  · rintro ⟨r', m'', hok', h⟩
    obtain ⟨rfl, rfl⟩ := result_unique hok hok'
    exact h
  · intro h
    exact ⟨r, m', hok, h⟩

/-- A `-1` for a request the capacity covers is not honoured. -/
theorem not_honours_of_covered (hs : m.s = some s) (hle : n ≤ s.capacity) :
    ¬ Honours m n (-1) m' := by
  intro h
  exact absurd ((h.refused rfl).larger s hs) (UInt64.not_lt.mpr hle)

theorem HasRoom.of_owns {b : Nat} {block : List UInt8} (hs : m.s = some s)
    (howns : Owns m.heap s b block content) (hle : n ≤ s.capacity) : HasRoom m n :=
  ⟨s, b, block, hs, howns.data, howns.live, howns.size, hle⟩

theorem HasRoom.le_capacity (h : HasRoom m n) (hs : m.s = some s) : n ≤ s.capacity := by
  obtain ⟨s', _, _, hs', _, _, _, hle⟩ := h
  cases hs.symm.trans hs'
  exact hle

theorem honours_of_failed (hs : m.s = some s) (hold : Holds m.heap s content)
    (hlt : s.capacity < n) : Honours m n (-1) m := by
  refine ⟨.inr rfl, ⟨fun h => absurd h (by decide), fun h => ?_⟩, fun h => absurd h (by decide),
    fun _ => ⟨?_, rfl, ?_, rfl, safeFrom_of_holds hs hold⟩⟩
  · exact absurd (h.le_capacity hs) (UInt64.not_le.mpr hlt)
  · intro s' hs'
    cases hs.symm.trans hs'
    exact hlt
  · intro b hb
    have hdata : s.data = some b := by simpa [Mem.data, hs] using hb
    obtain ⟨b', block, howns⟩ := hold.owned_of_data (by rw [hdata]; exact Option.some_ne_none b)
    cases howns.data.symm.trans hdata
    exact ⟨by rw [howns.live]; exact Option.some_ne_none block, rfl⟩

theorem honours_of_granted {b : Nat} {heap : Heap} {block : List UInt8} (hs : m.s = some s)
    (hold : Holds m.heap s content)
    (howns : Owns heap { s with data := some b, capacity := n } b block content) :
    Honours m n 0
      { m with heap, s := some { s with data := some b, capacity := n } } := by
  refine ⟨.inl rfl, ⟨fun _ => .of_owns rfl howns (UInt64.le_refl n), fun _ => rfl⟩,
    fun _ => ⟨?_, ?_⟩, fun h => absurd h (by decide)⟩
  · rw [hold.contents hs]
    exact Holds.contents rfl (.owned howns)
  · rw [hs]
    rfl

/-- The request for `SIZE_MAX` that freed the buffer is not honoured. -/
theorem not_honours_of_freed {b : Nat} (hs : m.s = some s) (hdata : s.data = some b) :
    ¬ Honours m n (-1) { m with heap := Function.update m.heap b none } := by
  intro h
  obtain ⟨hlive, hsame⟩ := (h.refused rfl).block b (by simp [Mem.data, hs, hdata])
  rw [← hsame] at hlive
  exact hlive (Function.update_self ..)

/-- The request for `SIZE_MAX` that got a block of no bytes is not honoured. -/
theorem not_honours_of_empty {b : Nat} :
    ¬ Honours m n 0 { m with
      heap := Function.update m.heap b (some [])
      s := some { s with data := some b, capacity := n } } := by
  intro h
  obtain ⟨s', b', block, hs', hdata', hlive, hsize, _⟩ := h.zero_iff.mp rfl
  cases hs'
  cases hdata'
  cases (Function.update_self ..).symm.trans hlive
  simp at hsize

/-- **The contract at a string that holds its content.** It is met exactly where there is something
to reserve and the size of the block does not wrap around to zero, or there is nothing to lose by
it. -/
theorem reserveContract_iff_of_holds (hs : m.s = some s) (hold : Holds m.heap s content) :
    ReserveContract m n g ↔ s.capacity < n ∧ (n + 1 ≠ 0 ∨ s.data = none ∧ g = none) := by
  obtain ⟨⟨r, m'⟩, hok, hout⟩ := stringReserve_outcome hs hold n g
  rw [reserveContract_iff_honours hok]
  cases hout with
  | covered hle =>
    have hnot : ¬ s.capacity < n := UInt64.not_lt.mpr hle
    simp [not_honours_of_covered hs hle, hnot]
  | failed hlt hg hsize =>
    refine iff_of_true (honours_of_failed hs hold hlt) ⟨hlt, ?_⟩
    exact hsize.imp_right fun hdata => ⟨hdata, hg⟩
  | granted hlt hsize _ howns _ =>
    exact iff_of_true (honours_of_granted hs hold howns) ⟨hlt, .inl hsize⟩
  | freed hlt hsize hdata =>
    refine iff_of_false (not_honours_of_freed hs hdata) ?_
    rintro ⟨-, hne | ⟨hnone, -⟩⟩
    · exact hne hsize
    · rw [hdata] at hnone
      cases hnone
  | empty hlt hsize hdata hg =>
    refine iff_of_false not_honours_of_empty ?_
    rintro ⟨-, hne | ⟨-, hnone⟩⟩
    · exact hne hsize
    · rw [hg] at hnone
      cases hnone

/-- **The second request at a string that holds its content.** The second answer is the first one
where nothing was to be done, and where nothing was granted and nothing was freed. -/
theorem sameAnswer_iff_of_holds (hs : m.s = some s) (hold : Holds m.heap s content)
    (hfits : Grant.Fits m.heap m.data g) :
    SameAnswer m n g
      ↔ n ≤ s.capacity ∨ g = none ∧ (n + 1 ≠ 0 ∨ s.data = none) := by
  obtain ⟨⟨r, m'⟩, hok, hout⟩ := stringReserve_outcome hs hold n g
  constructor
  · rintro ⟨r₁, m₁, hok₁, hagain⟩
    obtain ⟨rfl, rfl⟩ := result_unique hok hok₁
    cases hout with
    | covered hle => exact .inl hle
    | failed hlt hg hsize => exact .inr ⟨hg, hsize⟩
    | granted hlt hsize hg howns hmoved =>
      -- the first answer was `0`, and by now the capacity covers the request
      obtain ⟨m₂, hok₂⟩ := hagain none Grant.fits_none (.inl rfl)
      rw [stringReserve_of_le rfl (UInt64.le_refl n)] at hok₂
      cases hok₂
    | @freed hlt hsize b hdata =>
      -- the block is freed a second time
      have hlost : Lost (Function.update m.heap b none) s b :=
        ⟨hdata, hold.len_le_capacity, .inl (Function.update_self ..)⟩
      have hfits' : Grant.Fits (Function.update m.heap b none) m.data g := by
        intro c fresh hg
        rcases hfits c fresh hg with hdead | hown
        · left
          by_cases hc : c = b
          · rw [hc]
            exact Function.update_self ..
          · exact (Function.update_of_ne hc ..).trans hdead
        · exact .inr hown
      obtain ⟨m₂, hok₂⟩ := hagain g hfits' (.inr rfl)
      rw [stringReserve_lost (m := { m with heap := Function.update m.heap b none }) hs hlost
        hlt] at hok₂
      cases hok₂
    | empty hlt hsize hdata hg =>
      obtain ⟨m₂, hok₂⟩ := hagain none Grant.fits_none (.inl rfl)
      rw [stringReserve_of_le rfl (UInt64.le_refl n)] at hok₂
      cases hok₂
  · rintro (hle | ⟨rfl, hsize⟩)
    · refine ⟨-1, m, stringReserve_of_le hs hle g, fun g' _ _ => ⟨m, ?_⟩⟩
      exact stringReserve_of_le hs hle g'
    · refine ⟨r, m', hok, fun g' _ hg' => ?_⟩
      cases hout with
      | covered hle => exact ⟨m, stringReserve_of_le hs hle g'⟩
      | failed hlt _ _ =>
        rcases hg' with h0 | rfl
        · exact absurd h0 (by decide)
        · exact ⟨m, hok⟩
      | freed hlt hzero hdata =>
        rcases hsize with hne | hnone
        · exact absurd hzero hne
        · rw [hdata] at hnone
          cases hnone
      | granted _ _ hg _ _ => cases hg
      | empty _ _ _ hg => cases hg

/-- **The contract at a lost string.** A request that is not covered faults. A request that is
covered returns `0` without the block that should be there. -/
theorem not_reserveContract_of_lost {b : Nat} (hs : m.s = some s) (hlost : Lost m.heap s b) :
    ¬ ReserveContract m n g := by
  by_cases hle : n ≤ s.capacity
  · rw [reserveContract_iff_honours (stringReserve_of_le hs hle g)]
    exact not_honours_of_covered hs hle
  · rintro ⟨r, m', hok, -⟩
    rw [stringReserve_lost hs hlost (UInt64.not_le.mp hle)] at hok
    cases hok

theorem sameAnswer_iff_of_lost {b : Nat} (hs : m.s = some s) (hlost : Lost m.heap s b) :
    SameAnswer m n g ↔ n ≤ s.capacity := by
  constructor
  · rintro ⟨r, m', hok, -⟩
    by_contra hle
    rw [stringReserve_lost hs hlost (UInt64.not_le.mp hle)] at hok
    cases hok
  · intro hle
    refine ⟨-1, m, stringReserve_of_le hs hle g, fun g' _ _ => ⟨m, ?_⟩⟩
    exact stringReserve_of_le hs hle g'

end Contract

/-! ## Over every run -/

/-- **The contract of `string_reserve`, over every run of any client.** The call honours it
exactly for a string that holds its content and a request larger than its capacity, other
than `SIZE_MAX`; for `SIZE_MAX` only when there is no buffer and `realloc` fails. A second
request for the same `n` is answered as the first exactly when both are refused: the
capacity covers `n`, or `realloc` fails and the first call has not freed the buffer. -/
theorem reserve_contract_iff {trace : List Event} {m : Mem} {s : StringT} {n : UInt64}
    {g : Grant} (hrun : anyClient.Exec trace m) (hs : m.s = some s)
    (hfits : Grant.Fits m.heap m.data g) :
    (ReserveContract m n g ↔ (∃ content, Holds m.heap s content) ∧ s.capacity < n
      ∧ (n + 1 ≠ 0 ∨ s.data = none ∧ g = none))
    ∧ (SameAnswer m n g ↔ n ≤ s.capacity ∨ (∃ content, Holds m.heap s content) ∧ g = none
      ∧ (n + 1 ≠ 0 ∨ s.data = none)) := by
  cases Standing.of_run hrun hs with
  | whole hold _ =>
    have hholds : ∃ content, Holds m.heap s content := ⟨_, hold⟩
    rw [reserveContract_iff_of_holds hs hold, sameAnswer_iff_of_holds hs hold hfits]
    simp only [hholds, true_and, and_self]
  | lost hlost =>
    have hnone := hlost.not_holds
    refine ⟨iff_of_false (not_reserveContract_of_lost hs hlost) fun h => hnone h.1, ?_⟩
    rw [sameAnswer_iff_of_lost hs hlost]
    simp only [hnone, false_and, or_false]

/-- The fresh string honours a request for one byte that is refused, and refuses it again. -/
theorem reserve_contract_iff_fresh :
    ReserveContract freshString 1 none ∧ SameAnswer freshString 1 none := by
  have h := reserve_contract_iff (n := 1) (g := none) (exec_freshString fun _ _ => True) rfl
    Grant.fits_none
  have hold : ∃ content, Holds freshString.heap .blank content := ⟨[], .blank rfl rfl⟩
  exact ⟨h.1.mpr ⟨hold, by decide, .inl (by decide)⟩,
    h.2.mpr (.inr ⟨hold, rfl, .inl (by decide)⟩)⟩

/-- A string with room for one byte is refused a request for one byte, although it has the
room; and the request for `SIZE_MAX` frees its buffer. Reserving one byte on the fresh
string twice gives `0` and then `-1`. -/
theorem reserve_contract_fails :
    anyClient.Exec [⟨.reserve 1, some (0, fun _ => 0), 0⟩] (reservedString 0)
    ∧ HasRoom (reservedString 0) 1
    ∧ stringReserve (reservedString 0) 1 none = .ok (-1, reservedString 0)
    ∧ ¬ ReserveContract (reservedString 0) 1 none
    ∧ ¬ ReserveContract (reservedString 0) (-1) none
    ∧ ¬ SameAnswer freshString 1 (some (0, fun _ => 0)) := by
  have hreserve : stringReserve freshString 1 (some (0, fun _ => 0))
      = .ok (0, reservedString 0) := rfl
  have hagain : ∀ g, stringReserve (reservedString 0) 1 g = .ok (-1, reservedString 0) :=
    stringReserve_of_le rfl (UInt64.le_refl 1)
  have hfreed : stringReserve (reservedString 0) (-1) none
      = .ok (-1, { reservedString 0 with
        heap := Function.update (reservedString 0).heap 0 none }) := rfl
  refine ⟨?_, ⟨_, 0, [0, 0], rfl, rfl, rfl, rfl, UInt64.le_refl 1⟩, hagain none, ?_, ?_, ?_⟩
  · exact (exec_freshString _).extend
      (System.Run.single ⟨trivial, fun _ _ _ => .inl rfl, rfl⟩)
  · rw [reserveContract_iff_honours (hagain none)]
    exact not_honours_of_covered rfl (UInt64.le_refl 1)
  · rw [reserveContract_iff_honours hfreed]
    exact not_honours_of_freed rfl rfl
  · rintro ⟨r, m', hok, hsame⟩
    obtain ⟨rfl, rfl⟩ := result_unique hreserve hok
    obtain ⟨m'', hok'⟩ := hsame none Grant.fits_none (.inl rfl)
    rw [hagain none] at hok'
    cases hok'

end HseDev.Utils
