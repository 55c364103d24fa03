import HseDev.Sem17.Pipeline

/-!
# HseDev — the redirections of `exec_wrapper` in `sem17/task17_1.c`

`exec_wrapper` is also in `sem17/signals.c`. Its child moves `in_file` to `0` and then `out_file`
to `1`; each move looks out for a number that is already right, but the second one may find its
source overwritten or closed by the first.

* **`Redirected`** — what the child's table should be when it gets to `execlp`.
* **`Disjoint`** — the second move finds its file, and does not take the first one's away.
* **`exec_wrapper_redirects_iff`** — the table is right exactly then.
-/

namespace HseDev.Sem17.Pipeline

open Descriptors

variable {ρ : Type*} {t : Table Int ρ} {inFile outFile fromFd toFd fd : Int} {file : ρ}

/-- The table at `execlp`: the two files are the standard input and output and nothing else is
open for them, and no other descriptor has changed. -/
structure Redirected (t : Table Int ρ) (inFile outFile : Int) (t' : Table Int ρ) : Prop where
  stdin : t' 0 = t inFile
  stdout : t' 1 = t outFile
  inClosed : inFile ≠ 0 → inFile ≠ 1 → t' inFile = none
  outClosed : outFile ≠ 0 → outFile ≠ 1 → t' outFile = none
  other : ∀ fd, fd ≠ 0 → fd ≠ 1 → fd ≠ inFile → fd ≠ outFile → t' fd = t fd

/-- The numbers do not get in each other's way. One file for both is right only if it is already
the standard output. -/
structure Disjoint (t : Table Int ρ) (inFile outFile : Int) : Prop where
  notStdin : outFile ≠ 0
  notBoth : ¬ (inFile = 1 ∧ outFile = 1)
  same : inFile = outFile → t 1 = t inFile

/-! ## One move

A `move_fd` is a `dup2` and a `close`, or nothing if the two numbers are the same. -/

theorem moveFd_apply (hopen : t fromFd = some file) (toFd fd : Int) :
    t.runCalls (moveFd fromFd toFd) fd
      = if fromFd = toFd then t fd
        else if fd = fromFd then none else if fd = toFd then some file else t fd := by
  unfold moveFd
  by_cases heq : fromFd = toFd
  · rw [if_neg (not_not.mpr heq), if_pos heq]
    rfl
  · rw [if_pos heq, if_neg heq]
    exact runCalls_move hopen fd

/-- `move_fd` of a closed one: neither call does anything. -/
theorem moveFd_closed (hclosed : t fromFd = none) (toFd : Int) :
    t.runCalls (moveFd fromFd toFd) = t := by
  have hdup : t.dup2 fromFd toFd = t := by
    unfold Table.dup2
    rw [hclosed]
  have hclose : t.close fromFd = t := by
    unfold Table.close
    rw [← hclosed, Function.update_eq_self]
  unfold moveFd
  split
  · show (t.dup2 fromFd toFd).close fromFd = t
    rw [hdup, hclose]
  · rfl

theorem moveFd_target (hopen : t fromFd = some file) :
    t.runCalls (moveFd fromFd toFd) toFd = t fromFd := by
  rw [moveFd_apply hopen]
  by_cases heq : fromFd = toFd
  · rw [if_pos heq, heq]
  · rw [if_neg heq, if_neg (Ne.symm heq), if_pos rfl, hopen]

/-- The number it was moved from is closed. -/
theorem moveFd_source (hopen : t fromFd = some file) (hne : fromFd ≠ toFd) :
    t.runCalls (moveFd fromFd toFd) fromFd = none := by
  rw [moveFd_apply hopen, if_neg hne, if_pos rfl]

theorem moveFd_other (hopen : t fromFd = some file) (hfrom : fd ≠ fromFd) (hto : fd ≠ toFd) :
    t.runCalls (moveFd fromFd toFd) fd = t fd := by
  rw [moveFd_apply hopen, if_neg hfrom, if_neg hto, ite_self]

/-! ## Both moves

The second move finds what the first has left. If the output file had the number 0, the first move
has closed it or put the input in its place. -/

theorem redirected_of_ne {inp out : ρ} (hin : t inFile = some inp) (hout : t outFile = some out)
    (hne : inFile ≠ outFile) (hzero : outFile ≠ 0) :
    Redirected t inFile outFile (t.runCalls (execWrapper inFile outFile)) := by
  have hopen : t.runCalls (moveFd inFile 0) outFile = some out :=
    (moveFd_other hin (Ne.symm hne) hzero).trans hout
  unfold execWrapper
  rw [runCalls_append]
  refine ⟨?_, ?_, fun h0 h1 => ?_, fun _ h1 => moveFd_source hopen h1,
    fun fd h0 h1 hi ho => ?_⟩
  · rw [moveFd_other hopen (Ne.symm hzero) (by decide)]
    exact moveFd_target hin
  · rw [moveFd_target hopen, hopen, hout]
  · rw [moveFd_other hopen hne h1]
    exact moveFd_source hin h0
  · rw [moveFd_other hopen ho h1]
    exact moveFd_other hin hi h0

/-- With equal numbers the second move finds its file closed. -/
theorem execWrapper_same (hin : t inFile = some file) (hzero : inFile ≠ 0) :
    t.runCalls (execWrapper inFile inFile) = t.runCalls (moveFd inFile 0) := by
  unfold execWrapper
  rw [runCalls_append]
  exact moveFd_closed (moveFd_source hin hzero) 1

/-- The second move takes descriptor `0` away. -/
theorem execWrapper_zero {inp : ρ} (hin : t inFile = some inp) :
    t.runCalls (execWrapper inFile 0) 0 = none := by
  unfold execWrapper
  rw [runCalls_append]
  exact moveFd_source ((moveFd_target hin).trans hin) (by decide)

/-- **The redirections of `exec_wrapper`**: for open descriptors the child's table is right exactly
if the second is not `0`, not both are `1`, and one number for both is already the standard
output's file. -/
theorem exec_wrapper_redirects_iff (t : Table Int ρ) (inFile outFile : Int)
    (hin : t inFile ≠ none) (hout : t outFile ≠ none) :
    Redirected t inFile outFile (t.runCalls (execWrapper inFile outFile))
      ↔ Disjoint t inFile outFile := by
  obtain ⟨inp, hin⟩ := Option.ne_none_iff_exists'.mp hin
  obtain ⟨out, hout⟩ := Option.ne_none_iff_exists'.mp hout
  constructor
  · intro h
    have hzero : outFile ≠ 0 := by
      rintro rfl
      -- the first move's result is closed again
      have hstdin := h.stdin
      rw [execWrapper_zero hin, hin] at hstdin
      cases hstdin
    refine ⟨hzero, ?_, ?_⟩
    · rintro ⟨rfl, rfl⟩
      have hstdout := h.stdout
      rw [execWrapper_same hin hzero, moveFd_source hin hzero, hin] at hstdout
      cases hstdout
    · rintro rfl
      by_cases hone : inFile = 1
      · rw [hone]
      · have hstdout := h.stdout
        rwa [execWrapper_same hin hzero, moveFd_other hin (Ne.symm hone) (by decide)] at hstdout
  · intro h
    by_cases hne : inFile = outFile
    · obtain rfl := hne
      have hone : inFile ≠ 1 := fun heq => h.notBoth ⟨heq, heq⟩
      rw [execWrapper_same hin h.notStdin]
      exact ⟨moveFd_target hin,
        (moveFd_other hin (Ne.symm hone) (by decide)).trans (h.same rfl),
        fun h0 _ => moveFd_source hin h0, fun h0 _ => moveFd_source hin h0,
        fun _ h0 _ hi _ => moveFd_other hin hi h0⟩
    · exact redirected_of_ne hin hout hne h.notStdin

/-- Nothing has to be moved. -/
theorem exec_wrapper_pipe : Redirected stdTable 0 1
    (stdTable.runCalls (execWrapper 0 1)) :=
  (exec_wrapper_redirects_iff stdTable 0 1 (by decide) (by decide)).mpr
    ⟨by decide, by decide, by decide⟩

/-- Input and output exchanged: the child's standard input is closed. -/
theorem exec_wrapper_exchanged : (stdTable.runCalls (execWrapper 1 0)) 0 = none
    ∧ ¬ Redirected stdTable 1 0 (stdTable.runCalls (execWrapper 1 0)) := by
  have hin : stdTable 1 = some 1 := rfl
  have hclosed := execWrapper_zero (t := stdTable) hin
  refine ⟨hclosed, fun h => ?_⟩
  have hstdin := h.stdin
  rw [hclosed, hin] at hstdin
  cases hstdin

end HseDev.Sem17.Pipeline
