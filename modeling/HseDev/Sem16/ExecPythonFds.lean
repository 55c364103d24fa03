import HseDev.Sem16.ExecPython
import HseDev.Sem17.Pipeline

/-!
# HseDev — the descriptors of `exec_python` in `sem16`

`exec_python` opens a pipe, whose ends it uses on the two sides of `fork`: the child moves the
write end to its standard output, the caller reads from the other one. The caller never closes
the read end, and closes nothing if `fork` fails.

* **`execPythonTable`** — what a call does to the caller's table; **`Calls`** — any number of
  calls in a row.
* **`Calls.leaks`** — which descriptors the calls leave behind, and how many;
  **`calls_neutral_iff`** — none exactly if no call has got a pipe.
* **`childCalls`** — what the child does before `execvp`. It closes `fd_pair[0]` last, after
  `dup2` may have replaced it: **`redirected_iff`** says for which tables that leaves the child
  without a standard output.
-/

namespace HseDev.Sem16

open BlockHeap Descriptors
open Sem17.Pipeline (File PipeFd pipeTable pipeTable_fd1 pipeTable_ne)

variable {ρ : Type}

/-! ## The caller

Every call of the function opens a pipe. It closes the write end and leaves the read end open. -/

/-- What `pipe2` opens, if it succeeds. -/
structure PipePair (ρ : Type) where
  fd0 : Int
  fd1 : Int
  readEnd : ρ
  writeEnd : ρ

/-- The two numbers are not in use. -/
structure PipePair.Fits (pipe : PipePair ρ) (t : Table Int ρ) : Prop where
  fd0 : t pipe.fd0 = none
  fd1 : t pipe.fd1 = none
  ne : pipe.fd0 ≠ pipe.fd1

/-- The caller's table after a call; `read_all` and `waitpid` do not change it. -/
def execPythonTable (w : Answers) (pipe : PipePair ρ) (t : Table Int ρ) : Table Int ρ :=
  if !w.pipe2 then t
  else
    let t := (t.install pipe.fd0 pipe.readEnd).install pipe.fd1 pipe.writeEnd
    if !w.fork then t
    else t.close pipe.fd1

/-- The returned pointer and the table, unless the call faults. -/
def execPythonFds (w : Answers) (pipe : PipePair ρ) (t : Table Int ρ) :
    Except Fault (Option Nat × Table Int ρ) := do
  let (_, data) ← execPython w
  .ok (data, execPythonTable w pipe t)

/-- Calls in a row that all return. -/
inductive Calls : Table Int ρ → List Answers → Table Int ρ → Prop where
  | nil (t : Table Int ρ) : Calls t [] t
  | cons {t t₁ t₂ : Table Int ρ} {w : Answers} {ws : List Answers} {pipe : PipePair ρ}
      {data : Option Nat} (hfits : w.pipe2 = true → pipe.Fits t)
      (hcall : execPythonFds w pipe t = .ok (data, t₁)) (hrest : Calls t₁ ws t₂) :
      Calls t (w :: ws) t₂

/-- The descriptors that a call leaves behind. -/
def left (w : Answers) (pipe : PipePair ρ) : List Int :=
  if !w.pipe2 then []
  else if !w.fork then [pipe.fd0, pipe.fd1]
  else [pipe.fd0]

def leaks (w : Answers) : Nat :=
  if !w.pipe2 then 0
  else if !w.fork then 2
  else 1

/-- The table grows by some descriptors. -/
structure Grows (t t' : Table Int ρ) (fds : List Int) : Prop where
  nodup : fds.Nodup
  opened : ∀ fd ∈ fds, t fd = none ∧ t' fd ≠ none
  same : ∀ fd, fd ∉ fds → t' fd = t fd

variable {t t' t'' : Table Int ρ} {fds fds' : List Int} {w : Answers} {ws : List Answers}
  {pipe : PipePair ρ}

theorem Grows.refl (t : Table Int ρ) : Grows t t [] :=
  ⟨List.nodup_nil, nofun, fun _ _ => rfl⟩

/-- What two calls have opened is opened by both together; the second cannot get the same number. -/
theorem Grows.trans (h : Grows t t' fds) (h' : Grows t' t'' fds') : Grows t t'' (fds ++ fds') := by
  -- what the first calls have opened is not free for the later ones
  have hdisjoint : ∀ fd ∈ fds, fd ∉ fds' := by
    intro fd hfd hfd'
    exact (h.opened fd hfd).2 (h'.opened fd hfd').1
  refine ⟨?_, ?_, ?_⟩
  · apply List.nodup_append.mpr
    refine ⟨h.nodup, h'.nodup, fun fd hfd fd' hfd' heq => ?_⟩
    exact hdisjoint fd hfd (heq ▸ hfd')
  · intro fd hfd
    by_cases hmem : fd ∈ fds
    · obtain ⟨hfree, hopen⟩ := h.opened fd hmem
      rw [h'.same fd (hdisjoint fd hmem)]
      exact ⟨hfree, hopen⟩
    · have hmem' : fd ∈ fds' := (List.mem_append.mp hfd).resolve_left hmem
      obtain ⟨hfree, hopen⟩ := h'.opened fd hmem'
      rw [h.same fd hmem] at hfree
      exact ⟨hfree, hopen⟩
  · intro fd hfd
    rw [List.mem_append, not_or] at hfd
    rw [h'.same fd hfd.2, h.same fd hfd.1]

/-- The table is the old one exactly if nothing has been opened. -/
theorem Grows.eq_iff (h : Grows t t' fds) : t' = t ↔ fds = [] := by
  constructor
  · intro heq
    apply List.eq_nil_iff_forall_not_mem.mpr
    intro fd hfd
    obtain ⟨hfree, hopen⟩ := h.opened fd hfd
    exact hopen (heq ▸ hfree)
  · intro hnil
    funext fd
    exact h.same fd (hnil ▸ List.not_mem_nil)

/-- A descriptor at a free number is one that has been opened. -/
theorem Grows.install {fd : Int} (hfree : t fd = none) (file : ρ) :
    Grows t (t.install fd file) [fd] := by
  refine ⟨by simp, ?_, ?_⟩
  · intro fd' hfd'
    rw [List.mem_singleton.mp hfd', install_self]
    exact ⟨hfree, nofun⟩
  · intro fd' hfd'
    exact install_ne fun heq => hfd' (List.mem_singleton.mpr heq)

/-- **One call.** It leaves the descriptors of the caller as they are and adds those that it
forgets to close, as many as the way it takes says. -/
theorem execPythonTable_grows (hfits : w.pipe2 = true → pipe.Fits t) :
    Grows t (execPythonTable w pipe t) (left w pipe) ∧ (left w pipe).length = leaks w := by
  unfold execPythonTable left leaks
  cases hpipe : w.pipe2 with
  | false => exact ⟨.refl t, rfl⟩
  | true =>
    have h := hfits hpipe
    have hfree : t.install pipe.fd0 pipe.readEnd pipe.fd1 = none :=
      (install_ne h.ne.symm).trans h.fd1
    have hread : Grows t (t.install pipe.fd0 pipe.readEnd) [pipe.fd0] := .install h.fd0 _
    cases w.fork with
    | false => exact ⟨hread.trans (.install hfree _), rfl⟩
    | true =>
      -- `close(fd_pair[1])` undoes one half of the pipe
      refine ⟨?_, rfl⟩
      show Grows t (((t.install pipe.fd0 pipe.readEnd).install pipe.fd1 pipe.writeEnd).close
        pipe.fd1) [pipe.fd0]
      rw [close_install hfree]
      exact hread

/-- **Calls in a row.** Each leaves behind what it leaves behind alone. So the descriptors that are
open after a number of calls are those that were open before, and the forgotten ones of each. -/
theorem Calls.grows (h : Calls t ws t') :
    ∃ fds, Grows t t' fds ∧ fds.length = (ws.map leaks).sum := by
  induction h with
  | nil t => exact ⟨[], .refl t, rfl⟩
  | cons hfits hcall _ ih =>
    obtain ⟨fds, hgrows, hlength⟩ := ih
    rename_i t t₁ t₂ w ws pipe data _
    have htable : t₁ = execPythonTable w pipe t := by
      unfold execPythonFds at hcall
      cases hexec : execPython w with
      | error fault =>
        rw [hexec] at hcall
        cases hcall
      | ok res =>
        rw [hexec] at hcall
        cases hcall
        rfl
    obtain ⟨hone, hcount⟩ := execPythonTable_grows hfits
    rw [← htable] at hone
    refine ⟨left w pipe ++ fds, hone.trans hgrows, ?_⟩
    rw [List.length_append, hcount, hlength, List.map_cons, List.sum_cons]

/-- A call leaks nothing only if it could not even make its pipe. -/
theorem leaks_eq_zero : leaks w = 0 ↔ w.pipe2 = false := by
  unfold leaks
  cases w.pipe2 with
  | false => exact iff_of_true rfl rfl
  | true => cases w.fork <;> exact iff_of_false nofun nofun

/-- **The caller's descriptors.** Calls in a row leave the table as it was exactly if none of
them has got a pipe; otherwise it has more descriptors open. -/
theorem calls_neutral_iff (t t' : Table Int ρ) (ws : List Answers) (h : Calls t ws t') :
    (t' = t ↔ ∀ w ∈ ws, w.pipe2 = false)
      ∧ ∃ fds : List Int, fds.length = (ws.map leaks).sum ∧ fds.Nodup
        ∧ ∀ fd, t' fd ≠ none ↔ t fd ≠ none ∨ fd ∈ fds := by
  obtain ⟨fds, hgrows, hlength⟩ := h.grows
  constructor
  · rw [hgrows.eq_iff, ← List.length_eq_zero_iff, hlength, List.sum_eq_zero_iff_forall_eq_nat]
    simp [leaks_eq_zero]
  · refine ⟨fds, hlength, hgrows.nodup, fun fd => ?_⟩
    by_cases hmem : fd ∈ fds
    · exact iff_of_true (hgrows.opened fd hmem).2 (Or.inr hmem)
    · rw [hgrows.same fd hmem]
      exact ⟨Or.inl, fun h => h.resolve_right hmem⟩

/-- The child prints nothing and succeeds. -/
def quiet : Answers where
  pipe2 := true
  fork := true
  malloc := some (0, fun _ => 0)
  reads := []
  childStatus := 0
  waitFailed := none

/-- With `3` and `4` for the pipe. -/
def pipeThreeFour : PipePair Nat :=
  ⟨3, 4, 10, 11⟩

/-- The read end is still there when `exec_python` has returned the child's output. -/
theorem calls_keep_read_end : ∃ t' : Table Int Nat, Calls (fun _ => none) [quiet] t'
    ∧ t' 3 = some 10 ∧ t' ≠ fun _ => none := by
  have hfits : pipeThreeFour.Fits fun _ => none := ⟨rfl, rfl, by decide⟩
  have hcall : execPythonFds quiet pipeThreeFour (fun _ => none)
      = .ok (some 0, execPythonTable quiet pipeThreeFour fun _ => none) := rfl
  refine ⟨_, .cons (fun _ => hfits) hcall (.nil _), rfl, ?_⟩
  intro heq
  cases congrFun heq 3

/-- A call that gets no pipe. -/
theorem calls_neutral_one : execPythonTable { quiet with pipe2 := false } pipeThreeFour
    (fun _ => none) = fun _ => none := by
  have hcalls : Calls (fun _ => none) [{ quiet with pipe2 := false }]
      (execPythonTable { quiet with pipe2 := false } pipeThreeFour fun _ => none) :=
    .cons nofun rfl (.nil _)
  apply (calls_neutral_iff _ _ _ hcalls).1.mpr
  intro w hw
  rw [List.mem_singleton.mp hw]

/-! ## The child

The child puts the write end of the pipe in the place of its standard output, unless the pipe was
given that number already. -/

/-- The calls of the child before `execvp`. -/
def childCalls (pipeFd : PipeFd) : List (FdCall Int) :=
  (if pipeFd.fd1 ≠ 1 then [.dup2 pipeFd.fd1 1, .close pipeFd.fd1] else []) ++ [.close pipeFd.fd0]

/-- `pipe2` returns the two lowest numbers that are not in use. -/
structure Lowest (initial : Table Int ρ) (pipeFd : PipeFd) : Prop where
  fd0 : LowestFree (fun fd => (initial fd).map File.initial) pipeFd.fd0
  fd1 : LowestFree (Table.install (fun fd => (initial fd).map File.initial) pipeFd.fd0 .readEnd)
    pipeFd.fd1

/-- The child's table at `execvp`. -/
def execvpTable (initial : Table Int ρ) (pipeFd : PipeFd) : Table Int (File ρ) :=
  (pipeTable initial pipeFd).runCalls (childCalls pipeFd)

/-- **The redirection**: descriptor `1` is the write end, no other one is an end of the pipe, and
all the others are as they were. -/
structure Redirected (initial : Table Int ρ) (t : Table Int (File ρ)) : Prop where
  stdout : t 1 = some .writeEnd
  ends : ∀ fd, fd ≠ 1 → t fd ≠ some .readEnd ∧ t fd ≠ some .writeEnd
  same : ∀ fd, fd ≠ 1 → t fd = (initial fd).map .initial

section Child

variable {initial : Table Int ρ} {pipeFd : PipeFd}

/-- A number that is free in the table of the pipe was free before. -/
theorem initial_of_map {fd : Int} (h : (initial fd).map (File.initial (ρ := ρ)) = none) :
    initial fd = none :=
  Option.map_eq_none_iff.mp h

/-- Whatever the numbers are: `close(fd_pair[0])` comes last. -/
theorem execvpTable_eq (h : Lowest initial pipeFd) (fd : Int) :
    execvpTable initial pipeFd fd = if fd = pipeFd.fd0 then none
      else if fd = 1 then some .writeEnd else (initial fd).map .initial := by
  obtain ⟨hlt, hfree⟩ := h.fd0.lt_next h.fd1
  unfold execvpTable childCalls
  rw [runCalls_append]
  show (Table.runCalls _ _).close pipeFd.fd0 fd = _
  by_cases h0 : fd = pipeFd.fd0
  · rw [if_pos h0, h0, close_self]
  · rw [if_neg h0, close_ne h0]
    by_cases hstd : pipeFd.fd1 = 1
    · -- the write end is the standard output already
      rw [if_neg (not_not_intro hstd), runCalls_nil]
      by_cases h1 : fd = 1
      · rw [if_pos h1, h1, ← hstd, pipeTable_fd1]
      · rw [if_neg h1, pipeTable_ne h0 (hstd ▸ h1)]
    · -- `dup2` and `close` move it there
      rw [if_pos hstd, runCalls_move pipeTable_fd1]
      by_cases h1 : fd = 1
      · rw [if_pos h1, if_pos h1, if_neg (h1 ▸ Ne.symm hstd)]
      · rw [if_neg h1, if_neg h1]
        by_cases hend : fd = pipeFd.fd1
        · rw [if_pos hend, hend]
          exact hfree.symm
        · rw [if_neg hend, pipeTable_ne h0 hend]

/-- The read end is descriptor 1 exactly if that is the lowest free number: 0 is open and 1 is not.
-/
theorem fd0_eq_one_iff (h : Lowest initial pipeFd) :
    pipeFd.fd0 = 1 ↔ initial 0 ≠ none ∧ initial 1 = none := by
  constructor
  · intro hone
    have hfree := h.fd0.free
    have hbelow := h.fd0.below 0 (by decide) (by omega)
    rw [hone] at hfree
    exact ⟨fun hnone => hbelow (Option.map_eq_none_iff.mpr hnone), initial_of_map hfree⟩
  · rintro ⟨hopen, hfree⟩
    have hle : pipeFd.fd0 ≤ 1 := h.fd0.le (by decide) (Option.map_eq_none_iff.mpr hfree)
    have hne : pipeFd.fd0 ≠ 0 :=
      h.fd0.ne_of_open fun hnone => hopen (initial_of_map hnone)
    have hpos := h.fd0.nonneg
    omega

/-- **When the child's standard output survives.** The child loses it in one case only: the caller
has a standard input and no standard output, and the pipe takes the number 1 for its read end. -/
theorem redirected_iff (initial : Table Int ρ) (pipeFd : PipeFd) (h : Lowest initial pipeFd) :
    Redirected initial (execvpTable initial pipeFd)
      ↔ ¬ (initial 0 ≠ none ∧ initial 1 = none) := by
  rw [← fd0_eq_one_iff h]
  constructor
  · intro hredirected hone
    have hstdout := hredirected.stdout
    rw [execvpTable_eq h, if_pos hone.symm] at hstdout
    cases hstdout
  · intro hne
    have hsame : ∀ fd, fd ≠ 1 →
        execvpTable initial pipeFd fd = (initial fd).map .initial := by
      intro fd hfd
      rw [execvpTable_eq h]
      by_cases h0 : fd = pipeFd.fd0
      · rw [if_pos h0, h0]
        exact h.fd0.free.symm
      · rw [if_neg h0, if_neg hfd]
    refine ⟨?_, ?_, hsame⟩
    · rw [execvpTable_eq h, if_neg (Ne.symm hne), if_pos rfl]
    · intro fd hfd
      rw [hsame fd hfd]
      cases initial fd with
      | none => exact ⟨nofun, nofun⟩
      | some file => exact ⟨nofun, nofun⟩

end Child

/-- The standard descriptors that are open, by a test on their number. -/
def standard (isOpen : Int → Bool) : Table Int Nat :=
  fun fd => if 0 ≤ fd ∧ fd ≤ 2 ∧ isOpen fd = true then some 0 else none

/-- Only descriptor `1` is closed, so it is the first one that `pipe2` returns. -/
theorem not_redirected_closed : Lowest (standard (· ≠ 1)) ⟨1, 3⟩
    ∧ ¬ Redirected (standard (· ≠ 1)) (execvpTable (standard (· ≠ 1)) ⟨1, 3⟩) := by
  have hlowest : Lowest (standard (· ≠ 1)) ⟨1, 3⟩ :=
    ⟨lowestFree_natCast 1 (by decide) (by decide), lowestFree_natCast 3 (by decide) (by decide)⟩
  refine ⟨hlowest, fun h => ?_⟩
  have hstdout := h.stdout
  rw [execvpTable_eq hlowest] at hstdout
  cases hstdout

/-- All three are open. -/
theorem redirected_open :
    Redirected (standard fun _ => true) (execvpTable (standard fun _ => true) ⟨3, 4⟩) := by
  have hlowest : Lowest (standard fun _ => true) ⟨3, 4⟩ :=
    ⟨lowestFree_natCast 3 (by decide) (by decide), lowestFree_natCast 4 (by decide) (by decide)⟩
  exact (redirected_iff _ _ hlowest).mpr (by decide)

end HseDev.Sem16
