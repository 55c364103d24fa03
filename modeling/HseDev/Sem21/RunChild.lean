import HseDev.Sem21.RunSetup

/-!
# HseDev — the child of `run` in `sem21/task20_5.c`

Between `fork` and `execlp` the child closes the descriptors of the set-up that are not for it
and makes the read end of the pipe its standard input.

* **`childCalls`** — its calls, for the variables of the set-up; **`execlpTable`** — the table
  they lead to.
* **`SetupKernel.Lowest`** — every number that the set-up was given is the lowest free one. The
  read end is the third of them at the earliest, so it is never `0`, whatever was closed before
  (`Lowest.pipeRead_ne`).
* **`run_child_redirects`** — the child's table at `execlp`.
-/

namespace HseDev.Sem21

open Descriptors

/-- The calls of the child before `execlp`. -/
def childCalls (s : SetupState) : List (FdCall Int) :=
  [.close s.efd, .close s.inPipe1, .close s.timeoutFd, .dup2 s.inPipe0 0]
    ++ if 0 ≠ s.inPipe0 then [.close s.inPipe0] else []

/-- The child's table at `execlp`; it begins with a copy of the parent's. -/
def execlpTable (s : SetupState) : Table Int File :=
  s.table.runCalls (childCalls s)

/-- The table of a process that has not called `run`: it refers to nothing that `run` opens. -/
def callerTable (initial : Table Int Nat) : Table Int File :=
  fun fd => (initial fd).map .other

/-- The numbers handed out are the lowest free ones, in the order of the calls. -/
structure SetupKernel.Lowest (k : SetupKernel) (t : Table Int File) : Prop where
  epoll : LowestFree t k.epollFd
  timer : LowestFree (t.install k.epollFd .epoll) k.timerFd
  pipeRead : LowestFree ((t.install k.epollFd .epoll).install k.timerFd .timer) k.pipeReadFd
  pipeWrite : LowestFree (((t.install k.epollFd .epoll).install k.timerFd .timer).install
    k.pipeReadFd .pipeReadEnd) k.pipeWriteFd

/-- **The redirection**: descriptor `0` is the read end, no other descriptor is one that `run`
has opened, and all that were open are as they were. -/
structure Redirected (initial : Table Int Nat) (t : Table Int File) : Prop where
  stdin : t 0 = some .pipeReadEnd
  closed : ∀ fd, t fd ≠ some .epoll ∧ t fd ≠ some .timer ∧ t fd ≠ some .pipeWriteEnd
    ∧ (fd ≠ 0 → t fd ≠ some .pipeReadEnd)
  same : ∀ fd, fd ≠ 0 → initial fd ≠ none → t fd = (initial fd).map .other

variable {k : SetupKernel} {t : Table Int File} {err : Errno} {s : SetupState}
  {initial : Table Int Nat} {fd : Int}

/-- The four numbers grow, and they were free before. -/
theorem SetupKernel.Lowest.order (h : k.Lowest t) :
    0 ≤ k.epollFd ∧ k.epollFd < k.timerFd ∧ k.timerFd < k.pipeReadFd
      ∧ k.pipeReadFd < k.pipeWriteFd := by
  have hfirst := (h.epoll.lt_next h.timer).1
  have hsecond := (h.timer.lt_next h.pipeRead).1
  have hthird := (h.pipeRead.lt_next h.pipeWrite).1
  exact ⟨h.epoll.nonneg, hfirst, hsecond, hthird⟩

/-- Whatever was closed: `epoll_create1` has got the lowest number. -/
theorem SetupKernel.Lowest.pipeRead_ne (h : k.Lowest t) : k.pipeReadFd ≠ 0 := by
  obtain ⟨hpos, hfirst, hsecond, _⟩ := h.order
  omega

/-- The four numbers of the set-up were free before it. -/
theorem SetupKernel.Lowest.free (h : k.Lowest t) (hfd : fd = k.epollFd ∨ fd = k.timerFd
    ∨ fd = k.pipeReadFd ∨ fd = k.pipeWriteFd) : t fd = none := by
  obtain ⟨_, hfirst, hsecond, hthird⟩ := h.order
  rcases hfd with rfl | rfl | rfl | rfl
  · exact h.epoll.free
  · exact (h.epoll.lt_next h.timer).2
  · have hfree := (h.timer.lt_next h.pipeRead).2
    rwa [install_ne (by omega)] at hfree
  · have hfree := (h.pipeRead.lt_next h.pipeWrite).2
    rwa [install_ne (by omega), install_ne (by omega)] at hfree

/-- There is only one state at `fork`. -/
theorem forks_atFork (h : runSetup k t err = .forks s) : s = k.atFork t err := by
  cases hfirst : k.firstFailure with
  | some failure =>
    rw [runSetup_failed hfirst] at h
    cases h
  | none =>
    rw [runSetup_forks t err hfirst] at h
    cases h
    rfl

theorem closed_apply (h : k.Lowest t) (fd : Int) :
    (k.atFork t err).table.closeAll [k.epollFd, k.pipeWriteFd, k.timerFd] fd
      = if fd = k.pipeReadFd then some .pipeReadEnd else t fd := by
  obtain ⟨_, hfirst, hsecond, hthird⟩ := h.order
  show Table.closeAll ((((t.install k.epollFd .epoll).install k.timerFd .timer).install
    k.pipeReadFd .pipeReadEnd).install k.pipeWriteFd .pipeWriteEnd) _ fd = _
  rw [closeAll_apply]
  by_cases hmem : fd ∈ [k.epollFd, k.pipeWriteFd, k.timerFd]
  · -- closed again, and it was free before
    have hcases : fd = k.epollFd ∨ fd = k.pipeWriteFd ∨ fd = k.timerFd := by simpa using hmem
    have hread : fd ≠ k.pipeReadFd := by omega
    have hfree : t fd = none := h.free (by omega)
    rw [if_pos hmem, if_neg hread, hfree]
  · have hne : fd ≠ k.epollFd ∧ fd ≠ k.pipeWriteFd ∧ fd ≠ k.timerFd := by simpa using hmem
    rw [if_neg hmem, install_ne hne.2.1]
    by_cases hread : fd = k.pipeReadFd
    · rw [if_pos hread, hread, install_self]
    · rw [if_neg hread, install_ne hread, install_ne hne.2.2, install_ne hne.1]

/-- **The child's table**: the caller's, with the read end as standard input. The calls between
`fork` and `execlp` close what the set-up has opened, and the last one is not skipped, as the read
end is never number 0. -/
theorem execlpTable_eq (h : k.Lowest t) :
    execlpTable (k.atFork t err) = t.install 0 .pipeReadEnd := by
  have hne := h.pipeRead_ne
  have hcalls : childCalls (k.atFork t err)
      = [k.epollFd, k.pipeWriteFd, k.timerFd].map .close
        ++ [.dup2 k.pipeReadFd 0, .close k.pipeReadFd] := by
    -- the test before the last `close` succeeds
    show _ ++ (if 0 ≠ k.pipeReadFd then _ else _) = _
    rw [if_pos (Ne.symm hne)]
    rfl
  have hopen : (k.atFork t err).table.closeAll [k.epollFd, k.pipeWriteFd, k.timerFd] k.pipeReadFd
      = some .pipeReadEnd := by
    rw [closed_apply h, if_pos rfl]
  funext fd
  unfold execlpTable
  rw [hcalls, runCalls_append, runCalls_close, runCalls_move hopen]
  by_cases hread : fd = k.pipeReadFd
  · rw [if_pos hread, hread, install_ne hne, h.free (Or.inr (Or.inr (Or.inl rfl)))]
  · rw [if_neg hread]
    by_cases hzero : fd = 0
    · rw [if_pos hzero, hzero, install_self]
    · rw [if_neg hzero, closed_apply h, if_neg hread, install_ne hzero]

/-- The table of the caller has no file of the set-up in it. -/
theorem callerTable_ne {file : File} (hfile : ∀ id, file ≠ .other id) (fd : Int) :
    callerTable initial fd ≠ some file := by
  unfold callerTable
  cases initial fd with
  | none => exact nofun
  | some id => exact fun h => hfile id (Option.some.inj h).symm

/-- **The child of `run` gets the read end as its standard input**, and nothing else of what
`run` has opened, whichever of `0`, `1` and `2` were closed. -/
theorem run_child_redirects (k : SetupKernel) (initial : Table Int Nat) (err : Errno)
    (s : SetupState) (hforks : runSetup k (callerTable initial) err = .forks s)
    (hlowest : k.Lowest (callerTable initial)) : Redirected initial (execlpTable s) := by
  rw [forks_atFork hforks, execlpTable_eq hlowest]
  have hother : ∀ {fd : Int} {file : File}, (∀ id, file ≠ .other id) → fd ≠ 0 →
      (callerTable initial).install 0 .pipeReadEnd fd ≠ some file := by
    intro fd file hfile hzero
    rw [install_ne hzero]
    exact callerTable_ne hfile fd
  refine ⟨install_self, fun fd => ?_, fun fd hzero _ => install_ne hzero⟩
  by_cases hzero : fd = 0
  · rw [hzero, install_self]
    exact ⟨nofun, nofun, nofun, fun h => absurd rfl h⟩
  · exact ⟨hother nofun hzero, hother nofun hzero, hother nofun hzero, fun _ => hother nofun hzero⟩

/-- Standard input and output are closed, so the epoll instance is `0` and the timer `1`. -/
theorem run_child_redirects_closed :
    Redirected (fun fd => if fd = 2 then some 7 else none)
      (execlpTable (SetupKernel.atFork ⟨fun _ => none, 0, 1, 3, 4, fun _ => none⟩
        (callerTable fun fd => if fd = 2 then some 7 else none) 0)) := by
  apply run_child_redirects ⟨fun _ => none, 0, 1, 3, 4, fun _ => none⟩ _ 0
  · exact runSetup_forks _ _ (by decide)
  · exact ⟨lowestFree_natCast 0 (by decide) (by decide),
      lowestFree_natCast 1 (by decide) (by decide),
      lowestFree_natCast 3 (by decide) (by decide), lowestFree_natCast 4 (by decide) (by decide)⟩

end HseDev.Sem21
