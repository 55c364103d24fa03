import HseDev.Lib.ForkJoin
import HseDev.Lib.IntSum
import Mathlib.Algebra.BigOperators.Group.Finset.Piecewise

/-!
# HseDev — `race_condition.c` and `task21_3.c` of `sem22`

Threads that read integers from one standard input and add them up. In `task21_3.c` each has a
variable of its own, in `race_condition.c` all have the same one, so the two `thread_func` are
one definition with the variable as a parameter. `*res += x` is a load and a store, and the
addition is that of the machine, modulo `2 ^ 32`; the stream hands each integer to one call of
`scanf`.

* **`input_eq`** — the threads together read the input in order, and one of them returns only at
  its end.
* **`adding_of_exec`** — a variable that no other thread is given holds what its thread has read.
* **`thread_sums`** — `task21_3.c`: each line is the sum of what that thread read, the last one
  the sum of the input; with integers that fit into `int` together no addition overflows, and the
  sums are exact.
-/

namespace HseDev.Sem22.InputSums

open Transition System ForkJoin CInt

/-- What is left of the input, and the variables. -/
structure Shared where
  input : List Int32
  res : Nat → Int32

/-- Where a thread is in the loop: before its `scanf`, before the load of `*res += x`, before
the store, or returned. -/
inductive Pc where
  | scan
  | load (x : Int32)
  | store (x loaded : Int32)
  | returned
  deriving DecidableEq, Repr

inductive Act where
  | scan (x : Int32)
  | stop
  | load
  | store
  deriving DecidableEq, Repr

/-- One step of a thread whose variable is `res slot`. -/
inductive Step (slot : Nat) : Shared → Pc → Act → Shared → Pc → Prop where
  | scan {d : Shared} {x : Int32} {rest : List Int32} (hinput : d.input = x :: rest) :
      Step slot d .scan (.scan x) { d with input := rest } (.load x)
  | stop {d : Shared} (hinput : d.input = []) : Step slot d .scan .stop d .returned
  | load {d : Shared} {x : Int32} : Step slot d (.load x) .load d (.store x (d.res slot))
  | store {d : Shared} {x loaded : Int32} :
      Step slot d (.store x loaded) .store
        { d with res := Function.update d.res slot (loaded + x) } .scan

/-- `thread_func`, with the variable that each thread is given. -/
def threadFunc (slot : Nat → Nat) : Body Shared Pc Act where
  entry _ := .scan
  step t := Step (slot t)
  returned _ l := l = .returned

/-- A thread that has returned has no step left; the fork-join rules ask this of every body. -/
theorem stuck (slot : Nat → Nat) (t : Nat) (l : Pc) (d : Shared) (a : Act) (d' : Shared) (l' : Pc)
    (hret : (threadFunc slot).returned t l) : ¬ (threadFunc slot).step t d l a d' l' := by
  intro hstep
  cases hret
  cases hstep

/-! ## What has been read

The input is not tracked in the state but read off the events: who read which integer, in the order
of the calls of `scanf`. Each of the lists below grows at a `scan` and at no other event, which is
what the inductions over a run use. -/

/-- Who read what, in the order of the reads. -/
def read (as : List (ForkJoin.Event Act)) : List (Nat × Int32) :=
  as.filterMap fun
    | .run t (.scan x) => some (t, x)
    | _ => none

def pick (p : Nat → Bool) (es : List (Nat × Int32)) : List Int32 :=
  (es.filter fun e => p e.1).map Prod.snd

/-- What the threads with `p` read. -/
def readOf (p : Nat → Bool) (as : List (ForkJoin.Event Act)) : List Int32 :=
  pick p (read as)

def readBy (t : Nat) (as : List (ForkJoin.Event Act)) : List Int32 :=
  readOf (· == t) as

def readAll (as : List (ForkJoin.Event Act)) : List Int32 :=
  (read as).map Prod.snd

section Read

variable (p : Nat → Bool) (as : List (ForkJoin.Event Act)) (t : Nat) (x : Int32)

/-- A read is recorded at the end, under the thread that made it. -/
theorem read_scan : read (as ++ [.run t (.scan x)]) = read as ++ [(t, x)] := by
  simp [read]

theorem read_of_ne {a : ForkJoin.Event Act} (h : ∀ t x, a ≠ .run t (.scan x)) :
    read (as ++ [a]) = read as := by
  rw [read, List.filterMap_append]
  match a with
  | .create | .join | .finish | .run _ .stop | .run _ .load | .run _ .store => simp [read]
  | .run t (.scan x) => exact absurd rfl (h t x)

/-- A read counts for those whom the predicate selects, and for nobody else. -/
theorem readOf_scan :
    readOf p (as ++ [.run t (.scan x)]) = readOf p as ++ if p t then [x] else [] := by
  rw [readOf, read_scan, pick, List.filter_append, List.map_append]
  cases hp : p t with
  | true | false => simp [readOf, pick, hp]

theorem readOf_of_ne {a : ForkJoin.Event Act} (h : ∀ t x, a ≠ .run t (.scan x)) :
    readOf p (as ++ [a]) = readOf p as := by
  rw [readOf, read_of_ne as h]
  rfl

theorem readAll_scan : readAll (as ++ [.run t (.scan x)]) = readAll as ++ [x] := by
  rw [readAll, read_scan, List.map_append]
  rfl

theorem readAll_of_ne {a : ForkJoin.Event Act} (h : ∀ t x, a ≠ .run t (.scan x)) :
    readAll (as ++ [a]) = readAll as := by
  rw [readAll, read_of_ne as h]
  rfl

/-- What some of the threads read is part of what all of them read, in the same order; a bound on
the whole input is therefore one on the part. -/
theorem readOf_sublist : (readOf p as).Sublist (readAll as) := by
  unfold readOf readAll pick
  exact List.filter_sublist.map _

end Read

/-! ## Own variables

With variables of their own the two halves of `*res += x` can be interleaved in any way: nobody else
writes between them. The invariant is `Adding`, one instance for each thread. -/

section Own

variable {ρ : Type*} {slot : Nat → Nat} {M : Main Shared ρ} {d₀ : Shared}
  {s : State Shared Pc ρ} {as : List (ForkJoin.Event Act)}

/-- What a thread has read and not yet added. -/
def Pc.pending : Pc → List Int32
  | .scan | .returned => []
  | .load x | .store x _ => [x]

/-- The input is what has been read and what is left. -/
theorem input_eq (h : (system (threadFunc slot) M d₀).Exec as s) :
    d₀.input = readAll as ++ s.shared.input ∧
      ∀ t, s.thread t = .returned → s.shared.input = [] := by
  refine exec_induction (P := fun as s => d₀.input = readAll as ++ s.shared.input ∧
    ∀ t, s.thread t = .returned → s.shared.input = []) ?_ ?_ h
  · rintro s rfl
    refine ⟨rfl, fun t ht => ?_⟩
    cases ht
  · intro as s a u _ hs hst
    obtain ⟨hinput, hret⟩ := hs
    cases hst with
    | create _ | join _ _ _ | finish _ _ _ =>
      rw [readAll_of_ne as (by simp)]
      exact ⟨hinput, hret⟩
    | @run t a d l ht hrun =>
      generalize hl : s.thread t = l₀ at hrun
      have hother : ∀ v, v ≠ t → Function.update s.thread t l v = .returned →
          s.shared.input = [] := by
        intro v hne hv
        rw [Function.update_of_ne hne] at hv
        exact hret v hv
      cases hrun with
      | @scan x rest hrest =>
        rw [readAll_scan, hinput, hrest]
        refine ⟨by simp, fun v hv => ?_⟩
        rcases eq_or_ne v t with rfl | hne
        · simp at hv
        · have hnil := hother v hne hv
          rw [hrest] at hnil
          cases hnil
      | stop hnil =>
        rw [readAll_of_ne as (by simp)]
        exact ⟨hinput, fun _ _ => hnil⟩
      | load =>
        rw [readAll_of_ne as (by simp)]
        refine ⟨hinput, fun v hv => ?_⟩
        rcases eq_or_ne v t with rfl | hne
        · simp at hv
        · exact hother v hne hv
      | store =>
        rw [readAll_of_ne as (by simp)]
        refine ⟨hinput, fun v hv => ?_⟩
        rcases eq_or_ne v t with rfl | hne
        · simp at hv
        · exact hother v hne hv

/-- A thread has added what it has read but for the last integer, and what it has loaded is
still in its variable. -/
structure Adding (res : Int32) (l : Pc) (xs : List Int32) : Prop where
  added : ∃ ys, xs = ys ++ l.pending ∧ res = ys.sum
  loaded : ∀ x r, l = .store x r → r = res

/-- With nothing pending, that is before a `scanf` or after the return, the variable is the sum of
what was read. -/
theorem Adding.sum {res : Int32} {l : Pc} {xs : List Int32} (h : Adding res l xs)
    (hpending : l.pending = []) : res = xs.sum := by
  obtain ⟨ys, rfl, hres⟩ := h.added
  rw [hpending, List.append_nil]
  exact hres

/-- **No update is lost in a variable of its own.** The variable of each thread is the sum of what
the thread has read and stored, in every state of every run. Two inductions in one: who reads, and
who adds. -/
theorem adding_of_exec (hslot : ∀ t u, t < M.threads → u < M.threads → slot t = slot u → t = u)
    (hzero : ∀ a, d₀.res a = 0) (h : (system (threadFunc slot) M d₀).Exec as s) :
    ∀ t < M.threads, Adding (s.shared.res (slot t)) (s.thread t) (readBy t as) := by
  refine exec_induction (P := fun as s => ∀ t < M.threads,
    Adding (s.shared.res (slot t)) (s.thread t) (readBy t as)) ?_ ?_ h
  · rintro s rfl t _
    exact ⟨⟨[], rfl, hzero _⟩, fun x r hst => by cases hst⟩
  · intro as s a u hexec hs hst v hv
    have hle := created_le_of_reachable hexec.reachable
    cases hst with
    | create _ | join _ _ _ | finish _ _ _ =>
      rw [readBy, readOf_of_ne _ as (by simp)]
      exact hs v hv
    | @run t a d l ht hrun =>
      have hvs := hs v hv
      show Adding (d.res (slot v)) (Function.update s.thread t l v) _
      rcases eq_or_ne v t with rfl | hne
      · rw [Function.update_self]
        generalize s.thread v = l₀ at hrun hvs
        cases hrun with
        | @scan x rest hrest =>
          refine ⟨⟨readBy v as, ?_, hvs.sum rfl⟩, fun x r hst => by cases hst⟩
          rw [readBy, readOf_scan, beq_self_eq_true, if_pos rfl]
          rfl
        | stop _ =>
          rw [readBy, readOf_of_ne _ as (by simp)]
          exact ⟨hvs.added, fun x r hst => by cases hst⟩
        | @load x =>
          rw [readBy, readOf_of_ne _ as (by simp)]
          refine ⟨hvs.added, fun y r hst => ?_⟩
          cases hst
          rfl
        | @store x r =>
          rw [readBy, readOf_of_ne _ as (by simp)]
          obtain ⟨ys, hys, hres⟩ := hvs.added
          refine ⟨⟨ys ++ [x], ?_, ?_⟩, fun x r hst => by cases hst⟩
          · rw [show (Pc.scan).pending = [] from rfl, List.append_nil]
            exact hys
          · rw [hvs.loaded x r rfl, hres]
            simp
      · -- another thread neither reads for `v` nor writes its variable
        rw [Function.update_of_ne hne]
        have hslot' : slot v ≠ slot t := fun heq => hne (hslot v t hv (ht.trans_le hle) heq)
        generalize s.thread t = l₀ at hrun
        cases hrun with
        | @scan x rest hrest =>
          have htv : (t == v) = false := beq_eq_false_iff_ne.mpr (Ne.symm hne)
          rw [readBy, readOf_scan, htv, if_neg Bool.false_ne_true, List.append_nil]
          exact hvs
        | stop _ | load =>
          rw [readBy, readOf_of_ne _ as (by simp)]
          exact hvs
        | store =>
          rw [readBy, readOf_of_ne _ as (by simp)]
          simp only [Function.update_of_ne hslot']
          exact hvs

/-- The selected sum, one read at a time: the recursion step of `sum_readBy`. -/
theorem sum_pick_cons (p : Nat → Bool) (e : Nat × Int32) (es : List (Nat × Int32)) :
    (pick p (e :: es)).sum = (if p e.1 then e.2 else 0) + (pick p es).sum := by
  cases hp : p e.1 with
  | true | false => simp [pick, hp]

theorem sum_readBy (n : Nat) (as : List (ForkJoin.Event Act)) :
    ∑ t ∈ Finset.range n, (readBy t as).sum = (readOf (· < n) as).sum := by
  unfold readBy readOf
  induction read as with
  | nil => simp [pick]
  | cons e es ih =>
    simp only [sum_pick_cons, Finset.sum_add_distrib, ih, beq_iff_eq, decide_eq_true_eq]
    rw [Finset.sum_ite_eq]
    simp only [Finset.mem_range]

theorem readOf_succ (k : Nat) (as : List (ForkJoin.Event Act)) :
    (readOf (· < k) as ++ readBy k as).Perm (readOf (· < k + 1) as) := by
  unfold readBy readOf pick
  induction read as with
  | nil => exact List.Perm.refl _
  | cons e es ih =>
    rcases Nat.lt_trichotomy e.1 k with hlt | heq | hgt
    · have hlt' : e.1 < k + 1 := hlt.trans (Nat.lt_succ_self k)
      have hne : (e.1 == k) = false := beq_eq_false_iff_ne.mpr (Nat.ne_of_lt hlt)
      simp only [List.filter_cons, hlt, hlt', hne, decide_true, if_true]
      exact ih.cons _
    · have hlt' : e.1 < k + 1 := heq ▸ Nat.lt_succ_self _
      have hnot : ¬ e.1 < k := by omega
      have hbeq : (e.1 == k) = true := beq_iff_eq.mpr heq
      simp only [List.filter_cons, hnot, hlt', hbeq, decide_true, decide_false, if_true]
      exact List.perm_middle.trans (ih.cons _)
    · have hnot : ¬ e.1 < k := by omega
      have hnot' : ¬ e.1 < k + 1 := by omega
      have hne : (e.1 == k) = false := beq_eq_false_iff_ne.mpr (Nat.ne_of_gt hgt)
      simp only [List.filter_cons, hnot, hnot', hne, decide_false]
      exact ih

/-- Everything that is read is read by a thread. -/
theorem readOf_threads (h : (system (threadFunc slot) M d₀).Exec as s) :
    readOf (· < M.threads) as = readAll as := by
  refine exec_induction (P := fun as _ => readOf (· < M.threads) as = readAll as) ?_ ?_ h
  · intro s _
    rfl
  · intro as s a u hexec hs hst
    have hle := created_le_of_reachable hexec.reachable
    cases hst with
    | create _ | join _ _ _ | finish _ _ _ =>
      rw [readOf_of_ne _ as (by simp), readAll_of_ne as (by simp)]
      exact hs
    | @run t a d l ht hrun =>
      match a with
      | .scan x =>
        rw [readOf_scan, readAll_scan, hs, decide_eq_true (ht.trans_le hle), if_pos rfl]
      | .stop | .load | .store =>
        rw [readOf_of_ne _ as (by simp), readAll_of_ne as (by simp)]
        exact hs

/-- What has been read fits, if the input does. -/
theorem fits_of_sublist (h : (system (threadFunc slot) M d₀).Exec as s)
    (hfits : Fits (d₀.input : Multiset Int32)) {xs : List Int32}
    (hsub : xs.Sublist (readAll as)) : Fits (xs : Multiset Int32) := by
  refine hfits.mono (Multiset.coe_le.mpr (List.Sublist.subperm ?_))
  rw [(input_eq h).1]
  exact hsub.trans (List.sublist_append_left _ _)

end Own

/-! ## `task21_3.c`

The contexts of the threads are one array with an element each, so `slot` is the identity. What
remains is `main`: it joins the threads in the order of their creation, prints the sum of each and
adds it to its own. -/

section ThreadSums

inductive Line where
  | thread (i : Nat) (sum : Int32)
  | total (res : Int32)
  deriving DecidableEq, Repr

/-- What `main` has printed and its `res`. -/
structure Output where
  lines : List Line
  res : Int32

/-- `main` of `task21_3.c` -/
def main (threadCount : Nat) : Main Shared Output where
  threads := threadCount
  start := ⟨[], 0⟩
  onJoin i d out := ⟨out.lines ++ [.thread i (d.res i)], out.res + d.res i⟩
  onEnd _ out := { out with lines := out.lines ++ [.total out.res] }

/-- `task21_3.c`: thread `i` is given `&sums[i]`, which `calloc` has set to 0. -/
def program (threadCount : Nat) (input : List Int32) :
    System (State Shared Pc Output) (ForkJoin.Event Act) :=
  system (threadFunc id) (main threadCount) ⟨input, fun _ => 0⟩

variable {n : Nat} {input : List Int32} {s : State Shared Pc Output}
  {as : List (ForkJoin.Event Act)}

/-- The general statement at this program: thread `t` has `res t` for itself. -/
theorem adding (h : (program n input).Exec as s) :
    ∀ t < n, Adding (s.shared.res t) (s.thread t) (readBy t as) :=
  adding_of_exec (fun _ _ _ _ h => h) (fun _ => rfl) h

/-- What `main` has after `k` joins. -/
def joined (k : Nat) (as : List (ForkJoin.Event Act)) : Output where
  lines := (List.range k).map fun i => .thread i (readBy i as).sum
  res := (readOf (· < k) as).sum

/-- One more thread joined is one more line, and its sum in the total. -/
theorem joined_succ (k : Nat) (as : List (ForkJoin.Event Act)) :
    joined (k + 1) as = ⟨(joined k as).lines ++ [.thread k (readBy k as).sum],
      (joined k as).res + (readBy k as).sum⟩ := by
  unfold joined
  rw [List.range_succ, List.map_append, ← sum_readBy, Finset.sum_range_succ, sum_readBy]
  rfl

/-- Threads that have been joined read nothing more. -/
theorem joined_snoc {k : Nat} {a : ForkJoin.Event Act} (h : ∀ t x, a = .run t (.scan x) → k ≤ t) :
    joined k (as ++ [a]) = joined k as := by
  by_cases hscan : ∃ t x, a = .run t (.scan x)
  · obtain ⟨t, x, rfl⟩ := hscan
    have hkt := h t x rfl
    have hlines : ∀ i ∈ List.range k, Line.thread i (readBy i (as ++ [.run t (.scan x)])).sum
        = .thread i (readBy i as).sum := by
      intro i hi
      have hne : (t == i) = false := beq_eq_false_iff_ne.mpr (by
        have hlt := List.mem_range.mp hi
        omega)
      rw [readBy, readOf_scan, hne, if_neg Bool.false_ne_true, List.append_nil]
      rfl
    unfold joined
    rw [List.map_congr_left hlines, readOf_scan, decide_eq_false (Nat.not_lt.mpr hkt),
      if_neg Bool.false_ne_true, List.append_nil]
  · have hne : ∀ t x, a ≠ .run t (.scan x) := fun t x heq => hscan ⟨t, x, heq⟩
    unfold joined readBy
    simp only [readOf_of_ne _ as hne]

/-- The output of `main` at every moment, by the number of threads it has joined. A joined thread
has returned, so its variable no longer changes and the line stays true of what it read. -/
theorem main_eq (h : (program n input).Exec as s) :
    s.main = if s.ended then ⟨(joined n as).lines ++ [.total (joined n as).res],
      (joined n as).res⟩ else joined s.joined as := by
  refine exec_induction (P := fun as s => s.main = if s.ended then
    ⟨(joined n as).lines ++ [.total (joined n as).res], (joined n as).res⟩
      else joined s.joined as) ?_ ?_ h
  · rintro s rfl
    rfl
  · intro as s a u hexec hs hst
    have hbounds : Bounds (threadFunc id) (main n) s :=
      Bounds.of_reachable (stuck id) hexec.reachable
    cases hst with
    | create _ =>
      have hkeep : ∀ k, joined k (as ++ [.create]) = joined k as := fun k => joined_snoc (by simp)
      simp only [hkeep]
      exact hs
    | @run t a d l ht hrun =>
      -- the thread has not been joined, so what `main` has is about other threads
      have hjoined : s.joined ≤ t := by
        by_contra hlt
        exact stuck id t _ _ _ _ _ (hbounds.returned t (Nat.not_le.mp hlt)) hrun
      have hended : s.ended = false := by
        by_contra hend
        have hret := returned_of_ended hbounds (by simpa using hend)
          (ht.trans_le hbounds.created_le)
        exact stuck id t _ _ _ _ _ hret hrun
      have hkeep : joined s.joined (as ++ [.run t a]) = joined s.joined as := by
        refine joined_snoc fun v x heq => ?_
        cases heq
        exact hjoined
      simp only [hended] at hs ⊢
      exact hs.trans hkeep.symm
    | join hall hlt hret =>
      have hended : s.ended = false := by
        by_contra hend
        have hall' := hbounds.joined_of_ended (by simpa using hend)
        omega
      have hsum := (adding hexec s.joined hlt).sum (by
        rw [show s.thread s.joined = .returned from hret]
        rfl)
      simp only [hended, if_neg Bool.false_ne_true] at hs ⊢
      rw [joined_snoc (by simp), joined_succ, hs, ← hsum]
      rfl
    | finish hall hjoined hended =>
      simp only [hended, if_neg Bool.false_ne_true] at hs
      have hkeep : ∀ k, joined k (as ++ [.finish]) = joined k as := fun k => joined_snoc (by simp)
      simp only [if_true, hkeep]
      rw [hs, show s.joined = n from hjoined]
      rfl

/-- The addition of a thread that is about to store does not overflow. -/
theorem thread_exact (h : (program n input).Exec as s) (hfits : Fits (input : Multiset Int32))
    {t : Nat} (ht : t < n) {x r : Int32} (hstore : s.thread t = .store x r) :
    (r + x).toInt = r.toInt + x.toInt := by
  have hadding := adding h t ht
  obtain ⟨ys, hys, hres⟩ := hadding.added
  rw [hstore] at hys
  have hr : r = ys.sum := (hadding.loaded x r hstore).trans hres
  have hall : Fits (readBy t as : Multiset Int32) := fits_of_sublist h hfits (readOf_sublist _ as)
  rw [hys] at hall
  have hbefore : Fits (ys : Multiset Int32) :=
    hall.mono (Multiset.coe_le.mpr (List.sublist_append_left _ _).subperm)
  have hsum : (ys ++ (Pc.store x r).pending).sum = r + x := by
    rw [List.sum_append, ← hr]
    exact congrArg (r + ·) (List.sum_singleton (x := x))
  rw [← hsum, ← Multiset.sum_coe, toInt_sum hall, ← Multiset.coe_add, exact_add, hr,
    ← Multiset.sum_coe ys, toInt_sum hbefore]
  exact congrArg (_ + ·) (Multiset.sum_singleton x.toInt)

/-- Neither does the addition of `main` behind a join. -/
theorem main_exact (h : (program n input).Exec as s) (hfits : Fits (input : Multiset Int32))
    (hlt : s.joined < n) (hret : s.thread s.joined = .returned) :
    (s.main.res + s.shared.res s.joined).toInt
      = s.main.res.toInt + (s.shared.res s.joined).toInt := by
  have hbounds : Bounds (threadFunc id) (main n) s := Bounds.of_reachable (stuck id) h.reachable
  have hended : s.ended = false := by
    by_contra hend
    have hall := hbounds.joined_of_ended (by simpa using hend)
    exact absurd hlt (Nat.not_lt.mpr (le_of_eq hall.symm))
  have hmain := main_eq h
  simp only [hended, if_neg Bool.false_ne_true] at hmain
  have hown := (adding h s.joined hlt).sum (by rw [hret]; rfl)
  -- what the joined threads have read and what the next one has are parts of one input
  have hparts : Fits ((readOf (· < s.joined) as : Multiset Int32) + (readBy s.joined as)) := by
    rw [Multiset.coe_add, Multiset.coe_eq_coe.mpr (readOf_succ s.joined as)]
    exact fits_of_sublist h hfits (readOf_sublist _ as)
  have hjoined := toInt_sum (hparts.mono (Multiset.le_add_right _ _))
  have hnext := toInt_sum (hparts.mono (Multiset.le_add_left _ _))
  have hboth := toInt_sum hparts
  rw [Multiset.sum_add, exact_add, ← hjoined, ← hnext] at hboth
  rw [hmain, hown]
  exact hboth

/-- **The sums of the threads.** Each line is the sum of what that thread has read and the last
line that of the whole input, from one thread on. The sums are those of `int`, and exact if the
input fits. -/
theorem thread_sums (h : (program n input).Exec as s) :
    (s.ended = true →
      s.main.lines = (List.range n).map (fun i => .thread i (readBy i as).sum)
        ++ [.total (readAll as).sum] ∧
      (0 < n → readAll as = input)) ∧
    (Fits (input : Multiset Int32) →
      (∀ t < n, ∀ x r, s.thread t = .store x r → (r + x).toInt = r.toInt + x.toInt) ∧
      (s.joined < n → s.thread s.joined = .returned →
        (s.main.res + s.shared.res s.joined).toInt
          = s.main.res.toInt + (s.shared.res s.joined).toInt) ∧
      (∀ t, (readBy t as).sum.toInt = exact (readBy t as : Multiset Int32)) ∧
      (readAll as).sum.toInt = exact (readAll as : Multiset Int32)) := by
  have hbounds : Bounds (threadFunc id) (main n) s := Bounds.of_reachable (stuck id) h.reachable
  refine ⟨fun hended => ⟨?_, fun hn => ?_⟩, fun hfits => ⟨fun t ht x r => ?_, ?_, fun t => ?_, ?_⟩⟩
  · rw [main_eq h, if_pos hended, ← readOf_threads h]
    rfl
  · obtain ⟨hinput, hret⟩ := input_eq h
    rw [hret 0 (returned_of_ended hbounds hended hn), List.append_nil] at hinput
    exact hinput.symm
  · exact thread_exact h hfits ht
  · exact main_exact h hfits
  · exact toInt_sum (fits_of_sublist h hfits (readOf_sublist _ as))
  · exact toInt_sum (fits_of_sublist h hfits (List.Sublist.refl _))

/-- Two threads that read one integer each. -/
def twoReads : List (ForkJoin.Event Act) :=
  [.create, .create, .run 0 (.scan 5), .run 1 (.scan 7), .run 1 .load, .run 0 .load,
    .run 0 .store, .run 1 .store, .run 0 .stop, .run 1 .stop, .join, .join, .finish]

theorem thread_sums_two : ∃ s, (program 2 [5, 7]).Exec twoReads s ∧
    s.main.lines = [.thread 0 5, .thread 1 7, .total 12] ∧
    (readAll twoReads).sum.toInt = exact (readAll twoReads : Multiset Int32) := by
  have hexec : ∃ s, (program 2 [5, 7]).Exec twoReads s ∧ s.ended = true :=
    ⟨_, ⟨_, rfl, Run.cons (.create (by decide)) <| Run.cons (.create (by decide)) <|
      Run.cons (.run Nat.zero_lt_two (.scan rfl)) <|
      Run.cons (.run Nat.one_lt_two (.scan rfl)) <|
      Run.cons (.run Nat.one_lt_two .load) <| Run.cons (.run Nat.zero_lt_two .load) <|
      Run.cons (.run Nat.zero_lt_two .store) <| Run.cons (.run Nat.one_lt_two .store) <|
      Run.cons (.run Nat.zero_lt_two (.stop rfl)) <|
      Run.cons (.run Nat.one_lt_two (.stop rfl)) <|
      Run.cons (.join rfl (by decide) rfl) <| Run.cons (.join rfl (by decide) rfl) <|
      Run.single (.finish rfl rfl rfl)⟩, rfl⟩
  obtain ⟨s, hexec, hended⟩ := hexec
  exact ⟨s, hexec, ((thread_sums hexec).1 hended).1,
    ((thread_sums hexec).2 (by decide)).2.2.2⟩

end ThreadSums

end HseDev.Sem22.InputSums
