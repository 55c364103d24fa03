import HseDev.Sem23.IsPrime
import HseDev.Sem23.SafeQueue

/-!
# HseDev — the prime stream of `sem23/task22_2.c`

One producer walks over the 64-bit numbers from `base` on and puts the primes into the
queue; `main` takes `count` values out and prints them. The queue is the monitor of
`SafeQueue`, so operations may be taken as atomic (`atomic_induction`).

* **`primesFrom`** — the specification: the primes from a base up to `2 ^ 64`, ascending.
* **`Produced`** — what the producer has stored, seen from the value it is at. Past
  `2 ^ 64 - 1` the value wraps around and small primes follow; by then all of `primesFrom`
  is stored.
* **`StreamInv`** — the producer's side and, for `main`, that the lines and the value in its
  hand are what the queue returned.
* **`prime_stream`** — the lines are the first primes, and the two threads never both sleep.
-/

namespace HseDev.Sem23

open Monitor Transition

/-! ## The program

The two threads as a client of the queue. The test of a value is local to the producer and touches
nothing shared, so a value that is not prime is one silent step. -/

inductive Tid where
  | producer
  | main
  deriving DecidableEq, Repr

/-- The producer's `value`; the `i` of `main`, the value it is about to print and the lines
it has printed. -/
inductive Local where
  | producer (value : UInt64)
  | main (i : UInt64) (value : Option UInt64) (lines : List UInt64)
  deriving DecidableEq, Repr

/-- One round of `thread_func`: the call it makes, if any, before it goes on to `value + 1`;
`none` if `is_prime` does not answer. -/
def threadFunc (value : UInt64) : Option (Option Op) :=
  match isPrime value with
  | some result => some (if result ≠ 0 then some (.release value) else none)
  | none => none

/-- The program after its `scanf`. Its `pthread_cancel` only follows the last line. -/
def primeStream (base count : UInt64) : Client Tid Local Op Result where
  entry
    | .producer => .producer base
    | .main => .main 0 none []
  silent
    | .producer, .producer value, l => threadFunc value = some none ∧ l = .producer (value + 1)
    | .main, .main i (some value) lines, l => l = .main (i + 1) none (lines ++ [value])
    | _, _, _ => False
  calls
    | .producer, .producer value, op => threadFunc value = some (some op)
    | .main, .main i none _, op => i < count ∧ op = .acquire
    | _, _, _ => False
  returns
    | _, .producer value, _, _ => .producer (value + 1)
    | _, .main i _ lines, _, result => .main i result lines

/-- What `main` has printed. -/
def printed (s : State Tid SafeQueue Local Op) : List UInt64 :=
  match s.locals .main with
  | .main _ _ lines => lines
  | .producer _ => []

/-! ## The specification

The primes of an interval, by filtering it. Nothing in it speaks of the queue, of the loop or of 64
bits, except that the interval ends at `2 ^ 64`. -/

/-- The primes in `[base, bound)`, ascending. -/
def primesIn (base bound : Nat) : List Nat :=
  (List.range' base (bound - base)).filter Nat.Prime

/-- The primes from `base` on that a `uint64_t` can hold. -/
def primesFrom (base : Nat) : List Nat :=
  primesIn base (2 ^ 64)

theorem primesIn_self (base : Nat) : primesIn base base = [] := by
  simp [primesIn]

/-- One more number at the end, which is how the producer goes through them. -/
theorem primesIn_succ {base bound : Nat} (h : base ≤ bound) :
    primesIn base (bound + 1) = primesIn base bound ++ if bound.Prime then [bound] else [] := by
  have hlen : bound + 1 - base = (bound - base) + 1 := by omega
  have hlast : base + (bound - base) = bound := by omega
  rw [primesIn, hlen, List.range'_concat, List.filter_append, primesIn, Nat.one_mul, hlast]
  congr 1
  by_cases hprime : bound.Prime <;> simp [hprime]

/-- A longer interval begins with the primes of the shorter. -/
theorem primesIn_prefix {base bound bound' : Nat} (h : bound ≤ bound') :
    primesIn base bound <+: primesIn base bound' := by
  induction bound', h using Nat.le_induction with
  | base => exact List.prefix_rfl
  | succ bound' _ ih =>
    by_cases hbase : base ≤ bound'
    · rw [primesIn_succ hbase]
      exact ih.trans (List.prefix_append _ _)
    · have hempty : primesIn base bound = [] := by
        rw [primesIn, show bound - base = 0 from by omega]
        rfl
      rw [hempty]
      exact List.nil_prefix

/-! ## The producer

The producer never stops by itself: after `2 ^ 64 - 1` its value is 0 again, and what it stores from
then on is not in the specification. Until `main` has taken `count` values this can only happen if
all of `primesFrom` is stored, and then the statement is about a prefix. -/

/-- The producer stores exactly the primes, as `is_prime` answers and answers correctly. -/
theorem threadFunc_eq (value : UInt64) :
    threadFunc value = some (if value.toNat.Prime then some (.release value) else none) := by
  rw [threadFunc, isPrime_eq]
  by_cases hprime : value.toNat.Prime
  · simp [hprime]
  · simp [hprime]

/-- What has been stored when the producer is at `value`. -/
def Produced (base : Nat) (values : List UInt64) (value : UInt64) : Prop :=
  (base ≤ value.toNat ∧ values.map UInt64.toNat = primesIn base value.toNat)
    ∨ primesFrom base <+: values.map UInt64.toNat

/-- The producer goes on to the next value, which may be `0`. -/
theorem Produced.next {base : Nat} {values : List UInt64} {value : UInt64}
    (h : Produced base values value) :
    Produced base (values ++ if value.toNat.Prime then [value] else []) (value + 1) := by
  have hmap : (values ++ if value.toNat.Prime then [value] else []).map UInt64.toNat
      = values.map UInt64.toNat ++ if value.toNat.Prime then [value.toNat] else [] := by
    by_cases hprime : value.toNat.Prime <;> simp [hprime]
  have hlt : value.toNat < 2 ^ 64 := value.toNat_lt
  have hadd : (value + 1).toNat = (value.toNat + 1) % 2 ^ 64 := UInt64.toNat_add value 1
  rcases h with ⟨hbase, hvalues⟩ | hall
  · have hsucc := primesIn_succ hbase
    rw [← hvalues, ← hmap] at hsucc
    by_cases hlast : value.toNat + 1 < 2 ^ 64
    · rw [Nat.mod_eq_of_lt hlast] at hadd
      left
      rw [hadd]
      exact ⟨by omega, hsucc.symm⟩
    · -- the value wraps around: everything has been stored
      right
      have hall : primesFrom base = primesIn base (value.toNat + 1) :=
        congrArg (primesIn base) (by omega)
      exact ⟨[], by rw [hall, hsucc, List.append_nil]⟩
  · right
    rw [hmap]
    exact hall.trans (List.prefix_append _ _)

/-- What the producer stored and the specification agree as far as both go. -/
theorem Produced.comparable {base : Nat} {values : List UInt64} {value : UInt64}
    (h : Produced base values value) :
    values.map UInt64.toNat <+: primesFrom base ∨ primesFrom base <+: values.map UInt64.toNat := by
  rcases h with ⟨_, hvalues⟩ | hall
  · left
    rw [hvalues]
    exact primesIn_prefix value.toNat_lt.le
  · exact Or.inr hall

/-! ## Both threads

The invariant speaks of the log of completed operations, in which those of the two threads are
mixed: the stored values are what the producer has done, the returned ones what `main` has in hand
or has printed. -/

/-- The two threads against the history of the queue. -/
structure StreamInv (base count : UInt64) (log : List (Op × Result)) (locals : Tid → Local) :
    Prop where
  producer : ∃ value, locals .producer = .producer value
    ∧ Produced base.toNat (stored log) value
  main : ∃ i value lines, locals .main = .main i value lines
    ∧ returned log = lines ++ value.toList ∧ i.toNat = lines.length
    ∧ (lines ++ value.toList).length ≤ count.toNat

theorem StreamInv.init (base count : UInt64) :
    StreamInv base count [] (primeStream base count).entry where
  producer := ⟨base, rfl, Or.inl ⟨Nat.le_refl _, (primesIn_self _).symm⟩⟩
  main := ⟨0, none, [], rfl, rfl, rfl, Nat.zero_le _⟩

/-- A step on local variables: a value that is not prime, or a line of `main`. -/
theorem StreamInv.silent {base count : UInt64} {log : List (Op × Result)} {locals : Tid → Local}
    {t : Tid} {l : Local} (h : StreamInv base count log locals)
    (hsilent : (primeStream base count).silent t (locals t) l) :
    StreamInv base count log (Function.update locals t l) := by
  obtain ⟨⟨v, hv, hproduced⟩, i, value, lines, hm, hreturned, hi, hlen⟩ := h
  cases t with
  | producer =>
    -- a number that is not prime
    rw [hv] at hsilent
    obtain ⟨hround, rfl⟩ := hsilent
    rw [threadFunc_eq] at hround
    have hcomposite : ¬ v.toNat.Prime := by
      intro hprime
      simp [hprime] at hround
    have hnext := hproduced.next
    rw [if_neg hcomposite, List.append_nil] at hnext
    exact ⟨⟨v + 1, by simp, hnext⟩, i, value, lines, by simpa using hm, hreturned, hi, hlen⟩
  | main =>
    rw [hm] at hsilent
    cases value with
    | none => exact hsilent.elim
    | some value =>
      -- a line
      obtain rfl : l = _ := hsilent
      have hcount := count.toNat_lt
      simp only [Option.toList_some, List.length_append, List.length_singleton] at hlen
      have hnext : (i + 1).toNat = i.toNat + 1 := by
        rw [UInt64.toNat_add]
        exact Nat.mod_eq_of_lt (show i.toNat + 1 < 2 ^ 64 by omega)
      refine ⟨⟨v, by simpa using hv, hproduced⟩, i + 1, none, lines ++ [value], by simp, ?_, ?_, ?_⟩
      · rw [hreturned, Option.toList_none, List.append_nil, Option.toList_some]
      · rw [hnext, hi, List.length_append, List.length_singleton]
      · simpa using hlen

/-- A completed operation: the producer goes past the prime it has stored, `main` holds the value it
has got. -/
theorem StreamInv.op {base count : UInt64} {log : List (Op × Result)} {locals : Tid → Local}
    {q : SafeQueue} {t : Tid} {op : Op} {d : Done SafeQueue Result}
    (h : StreamInv base count log locals)
    (hcalls : (primeStream base count).calls t (locals t) op) (hdone : safeQueue op q = some d) :
    StreamInv base count (log ++ [(op, d.result)])
      (Function.update locals t ((primeStream base count).returns t (locals t) op d.result)) := by
  obtain ⟨⟨v, hv, hproduced⟩, i, value, lines, hm, hreturned, hi, hlen⟩ := h
  cases t with
  | producer =>
    -- a prime
    rw [hv] at hcalls ⊢
    have hround : threadFunc v = some (some op) := hcalls
    rw [threadFunc_eq] at hround
    have hprime : v.toNat.Prime := by
      by_contra hcomposite
      simp [hcomposite] at hround
    simp only [if_pos hprime, Option.some.injEq] at hround
    subst hround
    have hnext := hproduced.next
    rw [if_pos hprime] at hnext
    refine ⟨⟨v + 1, by simp [primeStream], ?_⟩, i, value, lines, by simpa using hm, ?_, hi, hlen⟩
    · rw [stored_release]
      exact hnext
    · rw [returned_release]
      exact hreturned
  | main =>
    rw [hm] at hcalls ⊢
    cases value with
    | some value => exact hcalls.elim
    | none =>
      -- the next value for `main`
      obtain ⟨hcount, rfl⟩ : i < count ∧ op = .acquire := hcalls
      obtain ⟨_, rfl⟩ := acquire_eq_some.mp hdone
      rw [UInt64.lt_iff_toNat_lt] at hcount
      refine ⟨⟨v, by simpa using hv, ?_⟩, i, some q.value, lines, by simp [primeStream], ?_, hi, ?_⟩
      · rw [stored_acquire]
        exact hproduced
      · rw [returned_acquire, hreturned]
        simp
      · simp only [Option.toList_some, List.length_append, List.length_singleton]
        omega

/-- The run lemma, over whole operations; the monitor allows them to be taken as atomic. -/
theorem exec_streamInv {base count : UInt64} {as : List (Event Tid Op Result)}
    {s : State Tid SafeQueue Local Op}
    (hrun : (system safeQueue safeQueueInit (primeStream base count)).Exec as s) :
    StreamInv base count (completed as) s.locals :=
  atomic_induction (P := fun log _ locals => StreamInv base count log locals) (.init base count)
    (fun _ _ _ _ _ h => h.silent) (fun _ _ _ _ _ _ h => h.op) hrun

/-! ## The lines and the queue

What is printed is a prefix of what was stored, as the queue is first in, first out, and what was
stored is a prefix of the primes or starts with all of them. -/

/-- With two threads a signal always meets the other one. -/
theorem primeStream_wakes {base count : UInt64} {s : State Tid SafeQueue Local Op} :
    WakesWhomItServes safeQueue (primeStream base count) s := by
  intro t l op d u l' op' hattempt hdone hwait
  have hawake := hattempt.not_waiting
  have hsleeps : IsWaiting s u := ⟨l', op', hwait⟩
  refine Or.inr ⟨safeQueue_signals hdone, fun v hv => ?_⟩
  have htu : t ≠ u := by
    rintro rfl
    exact hawake hsleeps
  have htv : t ≠ v := by
    rintro rfl
    exact hawake hv
  cases t <;> cases u <;> cases v <;> first | rfl | exact absurd rfl htu | exact absurd rfl htv

/-- The producer only sleeps on a full queue and `main` on an empty one. -/
theorem not_both_waiting {base count : UInt64} {as : List (Event Tid Op Result)}
    {s : State Tid SafeQueue Local Op}
    (hrun : (system safeQueue safeQueueInit (primeStream base count)).Exec as s) :
    ¬ ∀ t, IsWaiting s t := by
  intro hall
  have hcalled := reachable_called hrun.reachable
  have hblocked := reachable_sleepersBlocked (fun _ _ => primeStream_wakes) hrun.reachable
  obtain ⟨⟨v, hv, _⟩, i, value, lines, hm, _⟩ := exec_streamInv hrun
  obtain ⟨l, op, hproducer⟩ := hall .producer
  obtain ⟨l', op', hmain⟩ := hall .main
  have hl : l = .producer v := by
    rw [State.locals, hproducer] at hv
    exact hv
  have hl' : l' = .main i value lines := by
    rw [State.locals, hmain] at hm
    exact hm
  have hcalls := hcalled _ _ _ (Or.inl hproducer)
  have hcalls' := hcalled _ _ _ (Or.inl hmain)
  -- the slot would be full for the producer and empty for `main`
  have hguard := hblocked _ _ _ hproducer
  have hguard' := hblocked _ _ _ hmain
  subst hl hl'
  have hrelease : op = .release v := by
    have hround : threadFunc v = some (some op) := hcalls
    rw [threadFunc_eq] at hround
    by_cases hprime : v.toNat.Prime
    · simpa [hprime, eq_comm] using hround
    · simp [hprime] at hround
  have hacquire : op' = .acquire := by
    cases value with
    | none => exact hcalls'.2
    | some value => exact hcalls'.elim
  rw [hrelease] at hguard
  rw [hacquire] at hguard'
  exact release_eq_none.mp hguard (acquire_eq_none.mp hguard')

/-- **The prime stream.** If `count` primes are left from `base` on, the lines printed in any
run are the first of them, and the program never hangs with lines still to print. -/
theorem prime_stream (base count : UInt64)
    (hcount : count.toNat ≤ (primesFrom base.toNat).length) :
    ∀ as s, (system safeQueue safeQueueInit (primeStream base count)).Exec as s →
      (printed s).map UInt64.toNat <+: primesFrom base.toNat
        ∧ ¬ ((printed s).length < count.toNat ∧ ∀ t, IsWaiting s t) := by
  intro as s hrun
  refine ⟨?_, fun h => not_both_waiting hrun h.2⟩
  obtain ⟨⟨v, _, hproduced⟩, i, value, lines, hm, hreturned, _, hlen⟩ := exec_streamInv hrun
  have hlines : printed s = lines := by rw [printed, hm]
  have hstored : returned (completed as) <+: stored (completed as) :=
    ⟨_, (exec_slotLaw hrun).balance.symm⟩
  have hprefix : lines <+: stored (completed as) := by
    rw [hreturned] at hstored
    exact (List.prefix_append _ _).trans hstored
  rw [hlines]
  have hmap : lines.map UInt64.toNat <+: (stored (completed as)).map UInt64.toNat :=
    hprefix.map _
  rcases hproduced.comparable with hle | hge
  · exact hmap.trans hle
  · -- everything is stored, and the lines are no more than that
    refine List.prefix_of_prefix_length_le hmap hge ?_
    rw [List.length_map]
    rw [List.length_append] at hlen
    omega

/-- From base `2` on, one line: the producer releases `2`, `main` takes it and prints it. -/
theorem prime_stream_two :
    ∃ as s, (system safeQueue safeQueueInit (primeStream 2 1)).Exec as s ∧ printed s = [2]
      ∧ (printed s).map UInt64.toNat <+: primesFrom 2 := by
  have hquiet : ∀ {s : State Tid SafeQueue Local Op} {l l' : Local},
      s.thread .producer = .running l → s.thread .main = .running l' → ∀ t, ¬ IsWaiting s t := by
    rintro s l l' hp hm (_ | _) ⟨_, _, h⟩
    · rw [hp] at h
      cases h
    · rw [hm] at h
      cases h
  have hround : threadFunc 2 = some (some (.release 2)) := by
    rw [threadFunc_eq]
    exact congrArg some (if_pos Nat.prime_two)
  obtain ⟨s₁, hstep₁, hshared₁, hthread₁⟩ := step_complete_quiet safeQueue (t := .producer)
    (C := primeStream 2 1) (s := ⟨safeQueueInit, fun t => .running ((primeStream 2 1).entry t)⟩)
    (Or.inl ⟨rfl, hround⟩) (release_eq_some.mpr ⟨rfl, rfl⟩) (hquiet rfl rfl)
  have hmain₁ : s₁.thread .main = .running (.main 0 none []) := hthread₁ .main
  have hcount : (0 : UInt64) < 1 := by decide
  obtain ⟨s₂, hstep₂, _, hthread₂⟩ := step_complete_quiet safeQueue (t := .main)
    (C := primeStream 2 1) (s := s₁) (Or.inl ⟨hmain₁, hcount, rfl⟩)
    (acquire_eq_some.mpr ⟨by rw [hshared₁]; decide, rfl⟩) (hquiet (hthread₁ .producer) hmain₁)
  have hmain₂ : s₂.thread .main = .running (.main 0 (some 2) []) := by
    rw [hthread₂, hshared₁]
    rfl
  have hstep₃ : Step safeQueue (primeStream 2 1) s₂ (.silent .main)
      (s₂.set .main (.running (.main 1 none [2]))) := .silent hmain₂ rfl
  have hexec : (system safeQueue safeQueueInit (primeStream 2 1)).Exec _ _ :=
    ⟨_, rfl, ((System.Run.single hstep₁).snoc hstep₂).snoc hstep₃⟩
  have hmem : 2 ∈ primesFrom 2 := by
    have hrange : 2 ∈ List.range' 2 (2 ^ 64 - 2) := List.mem_range'_1.mpr (by omega)
    exact List.mem_filter.mpr ⟨hrange, by simpa using Nat.prime_two⟩
  refine ⟨_, _, hexec, ?_, (prime_stream 2 1 (List.length_pos_of_mem hmem) _ _ hexec).1⟩
  simp [printed, State.locals, Status.local]

end HseDev.Sem23
