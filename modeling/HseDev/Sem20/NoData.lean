import HseDev.Lib.Socket
import HseDev.Lib.Transition
import Mathlib.Order.Nat

/-!
# HseDev — the receiving loop of `sem20/main.c`

The socket is non-blocking. Each round waits for at most a second, receives what there is, and
looks at the clock: it writes what it has received, or `no data` when the last line is at least
five seconds old.

* **`Step`** — the calls of a round, or something at the other end.
* **`Spaced`** — no `no data` comes sooner than five seconds after the line before it.
* **`Watched`** — the invariant; **`watched_of_exec`** is its run form.
* **`watch`** — the lines with bytes are what has arrived, in order, and the two bounds on the
  silence of the program.
-/

namespace HseDev.Sem20.NoData

open Transition StreamSocket

/-! ## The program

The loop waits for data with a timeout and looks at the clock. If nothing has been printed for long
enough, it prints that there is no data. -/

/-- The values of `errno` that the loop tells apart. -/
inductive Errno where
  | EAGAIN
  | EWOULDBLOCK
  | other (code : ℕ)
  deriving DecidableEq, Repr

inductive Line where
  | data (b : List UInt8)
  | noData
  deriving DecidableEq, Repr

/-- In front of `wait_poll`, of `recv`, or of `time` with what was received, which is nothing when
`recv_size` is `-1`; or behind the loop. -/
inductive Pc where
  | poll
  | recv
  | time (buf : List UInt8)
  | closed
  | failed
  deriving DecidableEq, Repr

/-- Each line is kept with the value of `now` at which it was written. -/
structure State where
  socket : Socket
  pc : Pc
  lastPrint : ℤ
  stdout : List (ℤ × Line)

/-- `sizeof(buf)` -/
def bufSize : ℕ := 16

/-- The seconds of `now - last_print >= 5`. -/
def patience : ℤ := 5

/-- Behind `recv`. -/
def afterRecv : Result Errno → Pc
  | .data b => .time b
  | .closed => .closed
  | .error .EAGAIN => .time []
  | .error .EWOULDBLOCK => .time []
  | .error (.other _) => .failed

/-- The end of the round: `last_print = now` goes with every line. -/
def State.report (s : State) (buf : List UInt8) (now : ℤ) : State :=
  if buf ≠ [] then
    { s with pc := .poll, lastPrint := now, stdout := s.stdout ++ [(now, .data buf)] }
  else if now - s.lastPrint ≥ patience then
    { s with pc := .poll, lastPrint := now, stdout := s.stdout ++ [(now, .noData)] }
  else { s with pc := .poll }

/-- What `poll` answers makes no difference, since `main` does not look at the result of
`wait_poll`. The clock shows any time. -/
inductive Act where
  | peer
  | poll (res : Int32)
  | recv
  | time (now : ℤ)
  deriving DecidableEq, Repr

inductive Step (s : State) : Act → State → Prop where
  | peer {socket : Socket} (hpeer : Peer s.socket socket) : Step s .peer { s with socket }
  | poll {res : Int32} (hpc : s.pc = .poll) : Step s (.poll res) { s with pc := .recv }
  | recv {r : Result Errno} {socket : Socket} (hpc : s.pc = .recv)
      (hrecv : Recv bufSize s.socket r socket) :
      Step s .recv { s with socket, pc := afterRecv r }
  | time {buf : List UInt8} {now : ℤ} (hpc : s.pc = .time buf) :
      Step s (.time now) (s.report buf now)

/-- In front of the loop, which was reached at the time `start`. -/
def initial (start : ℤ) : State :=
  ⟨.fresh, .poll, start, []⟩

def system (start : ℤ) : System State Act where
  init s := s = initial start
  step := Step

/-! ## The lines

Each line is kept with the time it was printed at; `Spaced` says that a line about missing data
comes long enough after the line before it. -/

/-- The bytes of the lines. -/
def received (stdout : List (ℤ × Line)) : List UInt8 :=
  stdout.flatMap fun
    | (_, .data b) => b
    | (_, .noData) => []

/-- When the last line was written, or the loop was reached. -/
def lastTime (start : ℤ) (stdout : List (ℤ × Line)) : ℤ :=
  (stdout.getLast?.map Prod.fst).getD start

def Spaced (start : ℤ) : List (ℤ × Line) → Prop
  | [] => True
  | (t, l) :: rest => (l = .noData → patience ≤ t - start) ∧ Spaced t rest

section Lines

variable {start t : ℤ} {l : Line} {stdout : List (ℤ × Line)}

@[simp] theorem received_snoc_data (stdout : List (ℤ × Line)) (t : ℤ) (b : List UInt8) :
    received (stdout ++ [(t, .data b)]) = received stdout ++ b := by
  simp [received]

@[simp] theorem received_snoc_noData (stdout : List (ℤ × Line)) (t : ℤ) :
    received (stdout ++ [(t, .noData)]) = received stdout := by
  simp [received]

@[simp] theorem lastTime_snoc (start : ℤ) (stdout : List (ℤ × Line)) (t : ℤ) (l : Line) :
    lastTime start (stdout ++ [(t, l)]) = t := by
  simp [lastTime]

/-- The time to compare with goes on from line to line. -/
theorem lastTime_cons (start t : ℤ) (l : Line) (stdout : List (ℤ × Line)) :
    lastTime start ((t, l) :: stdout) = lastTime t stdout := by
  cases stdout with
  | nil => rfl
  | cons x rest => simp [lastTime, List.getLast?_cons]

/-- One more line. Induction on the lines before it. -/
theorem spaced_snoc (h : Spaced start stdout)
    (hline : l = .noData → patience ≤ t - lastTime start stdout) :
    Spaced start (stdout ++ [(t, l)]) := by
  induction stdout generalizing start with
  | nil => exact ⟨hline, trivial⟩
  | cons x rest ih =>
    obtain ⟨u, k⟩ := x
    obtain ⟨hfirst, hrest⟩ := h
    rw [lastTime_cons] at hline
    exact ⟨hfirst, ih hrest hline⟩

end Lines

/-! ## The invariant

The variables of the loop agree with the lines: what is printed was received, and the time that is
kept is that of the last line. -/

/-- What has been received and not yet written. -/
def Pc.inHand : Pc → List UInt8
  | .time buf => buf
  | _ => []

structure Watched (start : ℤ) (s : State) : Prop where
  delivers : Delivers (received s.stdout ++ s.pc.inHand) s.socket
  last : s.lastPrint = lastTime start s.stdout
  spaced : Spaced start s.stdout
  closed : s.pc = .closed → s.socket.closed = true ∧ s.socket.unread = []

variable {start now : ℤ} {as : List Act} {s t u : State} {a : Act}

/-- A printed line, of either kind, keeps the invariant: the clock is looked at before it. -/
theorem watched_report {buf : List UInt8} (h : Watched start s) (hpc : s.pc = .time buf) :
    Watched start (s.report buf now) := by
  obtain ⟨hdelivers, hlast, hspaced, -⟩ := h
  have hgot : Delivers (received s.stdout ++ buf) s.socket := by
    rw [hpc] at hdelivers
    exact hdelivers
  unfold State.report
  split
  · refine ⟨?_, ?_, spaced_snoc hspaced nofun, nofun⟩
    · show Delivers (received (s.stdout ++ [(now, .data buf)]) ++ []) s.socket
      rw [received_snoc_data, List.append_nil]
      exact hgot
    · exact (lastTime_snoc _ _ _ _).symm
  · next hnil =>
    rw [not_not.mp hnil] at hgot
    split
    · next hold =>
      refine ⟨?_, ?_, spaced_snoc hspaced fun _ => ?_, nofun⟩
      · show Delivers (received (s.stdout ++ [(now, .noData)]) ++ []) s.socket
        rw [received_snoc_noData]
        exact hgot
      · exact (lastTime_snoc _ _ _ _).symm
      · rw [← hlast]
        exact hold
    · exact ⟨hgot, hlast, hspaced, nofun⟩

/-- Every step of the loop keeps it. -/
theorem watched_step (h : Watched start s) (hstep : Step s a t) : Watched start t := by
  obtain ⟨hdelivers, hlast, hspaced, hclosed⟩ := h
  cases hstep with
  | peer hpeer =>
    refine ⟨hdelivers.peer hpeer, hlast, hspaced, fun hpc => ?_⟩
    obtain ⟨hend, hempty⟩ := hclosed hpc
    cases hpeer with
    | arrive b hopen => exact absurd (hopen.symm.trans hend) Bool.false_ne_true
    | close => exact ⟨rfl, hempty⟩
  | poll hpc =>
    rw [hpc] at hdelivers
    exact ⟨hdelivers, hlast, hspaced, nofun⟩
  | @recv r socket hpc hrecv =>
    rw [hpc] at hdelivers
    have hgot := hdelivers.recv hrecv
    rw [show received s.stdout ++ Pc.recv.inHand = received s.stdout from List.append_nil _] at hgot
    cases r with
    | data b => exact ⟨hgot, hlast, hspaced, nofun⟩
    | closed =>
      refine ⟨hgot, hlast, hspaced, fun _ => ?_⟩
      cases hrecv with
      | closed hempty hend => exact ⟨hend, hempty⟩
    | error e =>
      -- no byte has been received, whether the round goes on or the loop is left
      cases e with
      | EAGAIN => exact ⟨hgot, hlast, hspaced, nofun⟩
      | EWOULDBLOCK => exact ⟨hgot, hlast, hspaced, nofun⟩
      | other code => exact ⟨hgot, hlast, hspaced, nofun⟩
  | time hpc => exact watched_report ⟨hdelivers, hlast, hspaced, hclosed⟩ hpc

/-- It holds after every run. -/
theorem watched_of_exec (h : (system start).Exec as s) : Watched start s := by
  refine System.invariant (P := Watched start) ?_ ?_ ⟨as, h⟩
  · rintro s rfl
    exact ⟨delivers_fresh, rfl, trivial, nofun⟩
  · intro s a t hs hstep
    exact watched_step hs hstep

/-! ## The law

The data lines are a prefix of what was sent, and a silent round takes as long as the timeout at
most. -/

/-- A round without a line ends less than five seconds after the last line. -/
theorem silent_round (h : Watched start s) (hstep : Step s (.time now) u)
    (hsilent : u.stdout = s.stdout) : now - lastTime start s.stdout < patience := by
  cases hstep with
  | @time buf _ hpc =>
    unfold State.report at hsilent
    split at hsilent
    · exact absurd hsilent (by simp)
    · split at hsilent
      · exact absurd hsilent (by simp)
      · next hrecent =>
        rw [← h.last]
        exact Int.not_le.mp hrecent

/-- **The watch.** After every run what has been written is a beginning of what has arrived, all of
it when the loop has ended because the peer has closed. Each `no data` comes at least five seconds
after the line before it, and a round without a line less than five seconds. -/
theorem watch (h : (system start).Exec as s) :
    received s.stdout <+: s.socket.arrived ∧
    (s.pc = .closed → s.socket.closed = true ∧ received s.stdout = s.socket.arrived) ∧
    Spaced start s.stdout ∧
    ∀ now u, Step s (.time now) u → u.stdout = s.stdout →
      now - lastTime start s.stdout < patience := by
  have hwatched := watched_of_exec h
  refine ⟨⟨s.pc.inHand ++ s.socket.unread, ?_⟩, fun hpc => ?_, hwatched.spaced,
    fun now u => silent_round hwatched⟩
  · rw [← List.append_assoc]
    exact hwatched.delivers
  · obtain ⟨hend, hempty⟩ := hwatched.closed hpc
    have hall := hwatched.delivers.all hempty
    rw [hpc] at hall
    exact ⟨hend, (List.append_nil _).symm.trans hall⟩

/-- Nothing for seven seconds, then a byte. -/
theorem watch_late : ∃ s, (system 10).Exec [.poll 0, .recv, .time 17, .peer, .poll 1, .recv,
    .time 18] s ∧ Spaced 10 s.stdout ∧ s.stdout = [(17, .noData), (18, .data [65])] := by
  have hrun : ∃ s, (system 10).Exec [.poll 0, .recv, .time 17, .peer, .poll 1, .recv, .time 18] s ∧
      s.stdout = [(17, .noData), (18, .data [65])] :=
    ⟨_, ⟨_, rfl, System.Run.cons (.poll rfl) <| System.Run.cons (.recv rfl (.error .EAGAIN)) <|
      System.Run.cons (.time rfl) <| System.Run.cons (.peer (.arrive [65] rfl)) <|
      System.Run.cons (.poll rfl) <|
      System.Run.cons (.recv rfl (.data 1 (by decide) (by decide) (by decide))) <|
      System.Run.single (.time rfl)⟩, rfl⟩
  obtain ⟨s, hexec, hstdout⟩ := hrun
  exact ⟨s, hexec, (watch hexec).2.2.1, hstdout⟩

end HseDev.Sem20.NoData
