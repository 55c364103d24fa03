import HseDev.Lib.CInt
import HseDev.Sem21.RunSetup

/-!
# HseDev — the timer of `run` in `sem21/task20_5.c`

`run` turns its timeout, a number of milliseconds, into nanoseconds and leaves the seconds at
zero. The multiplication is one of `int`, and `timerfd_settime` takes less than a second of
nanoseconds.

* **`itimerspec`** — the initializer of `s`; `none` if the multiplication overflows.
* **`Itimerspec.Valid`** — what `timerfd_settime` accepts; **`SetupKernel.timed`** — a kernel
  that refuses the rest.
* **`Converts`** — the conversion is right; **`timer_converts_iff`** — it is, and the set-up
  gets to `fork`, exactly for timeouts below a second.
-/

namespace HseDev.Sem21

open Descriptors

/-! ## The conversion

Milliseconds become nanoseconds by a multiplication of `int`s; the seconds stay zero. -/

/-- `struct timespec` -/
structure Timespec where
  tvSec : Int
  tvNsec : Int
  deriving DecidableEq, Repr

/-- `struct itimerspec` -/
structure Itimerspec where
  itInterval : Timespec
  itValue : Timespec
  deriving DecidableEq, Repr

/-- `{{0, timeout * 1000000}, {0, timeout * 1000000}}` -/
def itimerspec (timeout : Int32) : Option Itimerspec := do
  let interval ← CInt.mul timeout 1000000
  let value ← CInt.mul timeout 1000000
  some ⟨⟨0, interval.toInt⟩, ⟨0, value.toInt⟩⟩

def Timespec.Valid (t : Timespec) : Prop :=
  0 ≤ t.tvSec ∧ 0 ≤ t.tvNsec ∧ t.tvNsec ≤ 999999999

instance (t : Timespec) : Decidable t.Valid :=
  inferInstanceAs (Decidable (_ ∧ _))

/-- `timerfd_settime` returns `EINVAL` for anything else. -/
def Itimerspec.Valid (s : Itimerspec) : Prop :=
  s.itInterval.Valid ∧ s.itValue.Valid

instance (s : Itimerspec) : Decidable s.Valid :=
  inferInstanceAs (Decidable (_ ∧ _))

def einval : Errno := 22

/-- The kernel, with the test of `timerfd_settime`. -/
def SetupKernel.timed (k : SetupKernel) (s : Itimerspec) : SetupKernel :=
  { k with fails := fun call =>
      if call = .timerfdSettime ∧ ¬ s.Valid then some einval else k.fails call }

/-- `run` up to `fork`, with its timeout. -/
def runTimed (k : SetupKernel) (timeout : Int32) (table : Table Int File) (errno : Errno) :
    Option SetupResult := do
  let s ← itimerspec timeout
  some (runSetup (k.timed s) table errno)

/-- **The conversion is right**: no overflow, fields in their range, and the timeout in
nanoseconds. -/
def Converts (timeout : Int32) : Prop :=
  ∃ s, itimerspec timeout = some s ∧ s.itInterval.Valid ∧ s.itValue.Valid
    ∧ s.itValue.tvSec * 10 ^ 9 + s.itValue.tvNsec = timeout.toInt * 10 ^ 6

variable {timeout : Int32} {k : SetupKernel} {s : Itimerspec}

/-! ## Below a second

The conversion is right exactly for timeouts below a second. -/

theorem itimerspec_eq_some (h : itimerspec timeout = some s) :
    s = ⟨⟨0, timeout.toInt * 1000000⟩, ⟨0, timeout.toInt * 1000000⟩⟩ := by
  unfold itimerspec at h
  cases hmul : CInt.mul timeout 1000000 with
  | none =>
    rw [hmul] at h
    cases h
  | some ns =>
    rw [hmul] at h
    cases h
    have hns : timeout.toInt * 1000000 = ns.toInt := CInt.ofInt?_eq_some.mp hmul
    rw [hns]

/-- Below a second the product neither overflows nor reaches a second. -/
theorem itimerspec_of_small (hlo : 0 ≤ timeout.toInt) (hhi : timeout.toInt ≤ 999) :
    itimerspec timeout
      = some ⟨⟨0, timeout.toInt * 1000000⟩, ⟨0, timeout.toInt * 1000000⟩⟩ := by
  have hmul : ∃ ns, CInt.mul timeout 1000000 = some ns ∧ ns.toInt = timeout.toInt * 1000000 := by
    apply CInt.ofInt?_isSome
    · show -2 ^ 31 ≤ timeout.toInt * 1000000
      omega
    · show timeout.toInt * 1000000 < 2 ^ 31
      omega
  obtain ⟨ns, hns, hvalue⟩ := hmul
  unfold itimerspec
  rw [hns, ← hvalue]
  rfl

/-- The nanoseconds of a timer that `timerfd_settime` accepts are those of less than a
second. -/
theorem valid_iff (h : itimerspec timeout = some s) :
    s.Valid ↔ 0 ≤ timeout.toInt ∧ timeout.toInt ≤ 999 := by
  rw [itimerspec_eq_some h]
  unfold Itimerspec.Valid Timespec.Valid
  simp only
  omega

/-- For timeouts that are not negative the timer is the right one exactly up to 999. -/
theorem converts_iff (hlo : 0 ≤ timeout.toInt) : Converts timeout ↔ timeout.toInt ≤ 999 := by
  constructor
  · intro ⟨s, hs, hinterval, hvalue, _⟩
    exact ((valid_iff hs).mp ⟨hinterval, hvalue⟩).2
  · intro hhi
    have hs := itimerspec_of_small hlo hhi
    have hvalid := (valid_iff hs).mpr ⟨hlo, hhi⟩
    refine ⟨_, hs, hvalid.1, hvalid.2, ?_⟩
    show 0 * 10 ^ 9 + timeout.toInt * 1000000 = timeout.toInt * 10 ^ 6
    omega

/-! ## The set-up

A timer with too many nanoseconds is refused by `timerfd_settime`, and the set-up fails. -/

/-- If all other calls succeed, the one of the timer decides. -/
theorem timed_firstFailure (hk : ∀ call, k.fails call = none) :
    (k.timed s).firstFailure = if s.Valid then none else some (.timerfdSettime, einval) := by
  unfold SetupKernel.firstFailure SetupKernel.timed SetupCall.inOrder
  by_cases hvalid : s.Valid <;> simp [hvalid, hk, List.findSome?]

/-- With no other failure the set-up gets to `fork` exactly if the timer is accepted. -/
theorem runTimed_forks_iff (hk : ∀ call, k.fails call = none) (hlo : 0 ≤ timeout.toInt)
    (table : Table Int File) (errno : Errno) :
    (∃ t, runTimed k timeout table errno = some (.forks t)) ↔ timeout.toInt ≤ 999 := by
  unfold runTimed
  constructor
  · intro ⟨t, ht⟩
    cases hs : itimerspec timeout with
    | none =>
      rw [hs] at ht
      cases ht
    | some s =>
      rw [hs] at ht
      have hrun : runSetup (k.timed s) table errno = .forks t := Option.some.inj ht
      have hvalid : s.Valid := by
        by_contra hnot
        have hfirst := (timed_firstFailure hk).trans (if_neg hnot)
        rw [runSetup_failed hfirst] at hrun
        cases hrun
      exact ((valid_iff hs).mp hvalid).2
  · intro hhi
    have hs := itimerspec_of_small hlo hhi
    have hvalid := (valid_iff hs).mpr ⟨hlo, hhi⟩
    have hfirst := (timed_firstFailure hk).trans (if_pos hvalid)
    rw [hs]
    exact ⟨_, congrArg some (runSetup_forks table errno hfirst)⟩

/-- **The timer of `run`.** For a timeout that is not negative the conversion is right, and the
set-up gets to `fork`, exactly if the timeout is less than a second. -/
theorem timer_converts_iff (timeout : Int32) (hlo : 0 ≤ timeout.toInt) :
    (Converts timeout ↔ timeout.toInt ≤ 999)
      ∧ ∀ (k : SetupKernel) (table : Table Int File) (errno : Errno),
        (∀ call, k.fails call = none) →
          ((∃ t, runTimed k timeout table errno = some (.forks t)) ↔ timeout.toInt ≤ 999) :=
  ⟨converts_iff hlo, fun _ table errno hk => runTimed_forks_iff hk hlo table errno⟩

/-- 999 ms. -/
theorem timer_converts_999 : Converts 999 :=
  (timer_converts_iff 999 (by decide)).1.mpr (by decide)

/-- A second is refused, and 2148 ms overflow. -/
theorem timer_refused : ¬ Converts 1000 ∧ ¬ Converts 2148 ∧ itimerspec 2148 = none
    ∧ ∃ t, runTimed ⟨fun _ => none, 3, 4, 5, 6, fun _ => none⟩ 1000 (fun _ => none) 0
      = some (.returned (-1) t) := by
  refine ⟨?_, ?_, by decide, ?_⟩
  · rw [converts_iff (by decide)]
    decide
  · rw [converts_iff (by decide)]
    decide
  · have hs : itimerspec 1000 = some ⟨⟨0, 1000000000⟩, ⟨0, 1000000000⟩⟩ := by decide
    have hvalid : ¬ Itimerspec.Valid ⟨⟨0, 1000000000⟩, ⟨0, 1000000000⟩⟩ := by decide
    have hk : ∀ call,
        (⟨fun _ => none, 3, 4, 5, 6, fun _ => none⟩ : SetupKernel).fails call = none :=
      fun _ => rfl
    have hfirst := (timed_firstFailure hk).trans (if_neg hvalid)
    unfold runTimed
    rw [hs]
    exact ⟨_, congrArg some (runSetup_failed hfirst)⟩

end HseDev.Sem21
