import HseDev.Lib.Socket
import HseDev.Lib.Transition
import Mathlib.Order.Nat

/-!
# HseDev — the receiving loops of `sem19/main.c` and `sem19/server.c`

Both programs end with the same loop over a blocking socket: up to 16 bytes are received and
written to standard output, until `recv` returns `0` or `-1`.

* **`Step`** — one call of `recv`, the `fwrite` behind it, or something at the other end.
* **`Receiving`** — the invariant; **`receiving_of_exec`** is its run form.
* **`receive_copies`** — standard output is a beginning of what has arrived, and at the regular end
  all of it; the loop makes at most one call of `recv` more than bytes have arrived, and it can
  only be kept from going on by a peer that is silent.
-/

namespace HseDev.Sem19.Receive

open Transition StreamSocket

/-! ## The programs

The receive loops of the client and of the server are the same: a `recv` into a buffer, and a
`write` of what it returned, until the peer closes or the connection breaks. -/

/-- In front of `recv`, in front of `fwrite` with what is in `buffer`, or behind the loop, which
was left at `0` or at `-1`. -/
inductive Pc where
  | recv
  | write (buffer : List UInt8)
  | closed
  | failed
  deriving DecidableEq, Repr

structure State where
  socket : Socket
  pc : Pc
  stdout : List UInt8

/-- `sizeof(buffer)` -/
def bufferSize : ℕ := 16

inductive Act where
  | peer
  | recv
  | write
  deriving DecidableEq, Repr

/-- Behind `recv`. `main.c` reports an error on standard error, `server.c` does not. -/
def afterRecv : Result Unit → Pc
  | .data b => .write b
  | .closed => .closed
  | .error _ => .failed

inductive Step (s : State) : Act → State → Prop where
  | peer {socket : Socket} (hpeer : Peer s.socket socket) : Step s .peer { s with socket }
  | recv {r : Result Unit} {socket : Socket} (hpc : s.pc = .recv)
      (hrecv : Recv bufferSize s.socket r socket) :
      Step s .recv { s with socket, pc := afterRecv r }
  | write {b : List UInt8} (hpc : s.pc = .write b) :
      Step s .write { s with pc := .recv, stdout := s.stdout ++ b }

/-- Connected, in front of the loop. -/
def initial : State :=
  ⟨.fresh, .recv, []⟩

def system : System State Act where
  init s := s = initial
  step := Step

/-! ## The invariant

What has been written, and what is in the buffer, is what the socket has delivered so far. -/

/-- What has been received and not yet written. -/
def Pc.inHand : Pc → List UInt8
  | .write b => b
  | _ => []

/-- The calls of `recv` that are spent without a byte. -/
def Pc.spent : Pc → ℕ
  | .closed => 1
  | .failed => 1
  | _ => 0

structure Receiving (as : List Act) (s : State) : Prop where
  delivers : Delivers (s.stdout ++ s.pc.inHand) s.socket
  calls : as.count .recv + s.socket.unread.length ≤ s.socket.arrived.length + s.pc.spent
  closed : s.pc = .closed → s.socket.closed = true ∧ s.socket.unread = []

variable {as : List Act} {s t : State} {a : Act}

/-- Bytes that arrive are unread at first. -/
theorem peer_arrives {u v : Socket} (h : Peer u v) :
    v.unread.length + u.arrived.length = u.unread.length + v.arrived.length := by
  cases h with
  | arrive b _ =>
    simp only [List.length_append]
    omega
  | close => rfl

/-- A peer that has closed sends nothing more. -/
theorem peer_closed {u v : Socket} (h : Peer u v) (hclosed : u.closed = true) :
    v.closed = true ∧ v.unread = u.unread := by
  cases h with
  | arrive b hopen => exact absurd (hopen.symm.trans hclosed) Bool.false_ne_true
  | close => exact ⟨rfl, rfl⟩

/-- Every step keeps the invariant: a `recv` takes bytes into the hand, a `write` puts them out. -/
theorem receiving_step (h : Receiving as s) (hstep : Step s a t) : Receiving (as ++ [a]) t := by
  obtain ⟨hdelivers, hcalls, hclosed⟩ := h
  cases hstep with
  | @peer socket hpeer =>
    refine ⟨hdelivers.peer hpeer, ?_, fun hpc => ?_⟩
    · have hlength := peer_arrives hpeer
      rw [List.count_append, List.count_singleton, if_neg (by decide)]
      show _ + 0 + socket.unread.length ≤ socket.arrived.length + s.pc.spent
      omega
    · obtain ⟨hend, hempty⟩ := hclosed hpc
      obtain ⟨hend', hunread⟩ := peer_closed hpeer hend
      exact ⟨hend', hunread.trans hempty⟩
  | @recv r socket hpc hrecv =>
    rw [hpc] at hdelivers hcalls
    have hgot := hdelivers.recv hrecv
    have hunread := congrArg List.length hrecv.unread
    rw [List.length_append] at hunread
    rw [show s.stdout ++ Pc.recv.inHand = s.stdout from List.append_nil _] at hgot
    have hcount : (as ++ [Act.recv]).count .recv = as.count .recv + 1 := by
      rw [List.count_append, List.count_singleton, if_pos (by decide)]
    have hspent : Pc.recv.spent = 0 := rfl
    cases r with
    | data b =>
      have hpos := hrecv.data_length.1
      have hbytes : (Result.data b : Result Unit).bytes = b := rfl
      refine ⟨hgot, ?_, nofun⟩
      rw [hcount]
      show _ + socket.unread.length ≤ socket.arrived.length + 0
      rw [hrecv.arrived]
      rw [hbytes] at hunread
      omega
    | closed =>
      refine ⟨hgot, ?_, fun _ => ?_⟩
      · rw [hcount]
        show _ + socket.unread.length ≤ socket.arrived.length + 1
        rw [hrecv.arrived]
        omega
      · cases hrecv with
        | closed hempty hend => exact ⟨hend, hempty⟩
    | error e =>
      refine ⟨hgot, ?_, nofun⟩
      rw [hcount]
      show _ + socket.unread.length ≤ socket.arrived.length + 1
      rw [hrecv.arrived]
      omega
  | @write b hpc =>
    rw [hpc] at hdelivers hcalls
    refine ⟨?_, ?_, nofun⟩
    · show Delivers (s.stdout ++ b ++ []) s.socket
      rw [List.append_nil]
      exact hdelivers
    · rw [List.count_append, List.count_singleton, if_neg (by decide)]
      exact hcalls

/-- It holds after every run. -/
theorem receiving_of_exec (h : system.Exec as s) : Receiving as s := by
  refine System.exec_induction (P := Receiving) ?_ ?_ h
  · rintro s rfl
    exact ⟨delivers_fresh, le_rfl, nofun⟩
  · intro as s a t _ hs hstep
    exact receiving_step hs hstep

/-! ## The law

The output is a prefix of what the peer has sent, and all of it once the peer has closed and the
loop has ended. -/

/-- The loop has been left. -/
def Pc.Left (pc : Pc) : Prop :=
  pc = .closed ∨ pc = .failed

/-- Inside the loop the program waits only for a peer that has neither sent nor closed. -/
theorem step_or_silent (s : State) :
    s.pc.Left ∨ (s.socket.unread = [] ∧ s.socket.closed = false) ∨
      ∃ a t, a ≠ .peer ∧ Step s a t ∧ t.pc ≠ .failed := by
  cases hpc : s.pc with
  | closed => exact Or.inl (Or.inl rfl)
  | failed => exact Or.inl (Or.inr rfl)
  | write b => exact Or.inr (Or.inr ⟨.write, _, nofun, .write hpc, nofun⟩)
  | recv =>
    right
    cases hunread : s.socket.unread with
    | cons x rest =>
      have hone : 1 ≤ s.socket.unread.length := by
        rw [hunread, List.length_cons]
        omega
      exact Or.inr ⟨.recv, _, nofun, .recv hpc (.data 1 (by decide) (by decide) hone), nofun⟩
    | nil =>
      cases hclosed : s.socket.closed with
      | false => exact Or.inl ⟨rfl, rfl⟩
      | true => exact Or.inr ⟨.recv, _, nofun, .recv hpc (.closed hunread hclosed), nofun⟩

/-- **The copy.** What comes out is a prefix of what has arrived, and all of it once the peer has
closed; there are no more calls of `recv` than bytes and one; and the program waits for nothing but
a silent peer. -/
theorem receive_copies (h : system.Exec as s) :
    s.stdout <+: s.socket.arrived ∧
    (s.pc = .closed → s.socket.closed = true ∧ s.stdout = s.socket.arrived) ∧
    as.count .recv ≤ s.socket.arrived.length + 1 ∧
    (s.pc.Left ∨ (s.socket.unread = [] ∧ s.socket.closed = false) ∨
      ∃ a t, a ≠ .peer ∧ Step s a t ∧ t.pc ≠ .failed) := by
  obtain ⟨hdelivers, hcalls, hclosed⟩ := receiving_of_exec h
  refine ⟨⟨s.pc.inHand ++ s.socket.unread, ?_⟩, fun hpc => ?_, ?_, step_or_silent s⟩
  · rw [← List.append_assoc]
    exact hdelivers
  · obtain ⟨hend, hempty⟩ := hclosed hpc
    have hall := hdelivers.all hempty
    rw [hpc] at hall
    exact ⟨hend, (List.append_nil s.stdout).symm.trans hall⟩
  · have hspent : s.pc.spent ≤ 1 := by
      cases s.pc <;> simp [Pc.spent]
    omega

/-- Two bytes arrive in two pieces and are received by one call. -/
theorem receive_copies_two : ∃ s, system.Exec [.peer, .peer, .recv, .write, .peer, .recv] s ∧
    s.stdout = [1, 2] ∧ s.pc = .closed := by
  have hrun : ∃ s, system.Exec [.peer, .peer, .recv, .write, .peer, .recv] s ∧
      s.socket.arrived = [1, 2] ∧ s.pc = .closed :=
    ⟨_, ⟨_, rfl, System.Run.cons (.peer (.arrive [1] rfl)) <|
      System.Run.cons (.peer (.arrive [2] rfl)) <|
      System.Run.cons (.recv rfl (.data 2 (by decide) (by decide) (by decide))) <|
      System.Run.cons (.write rfl) <| System.Run.cons (.peer .close) <|
      System.Run.single (.recv rfl (.closed rfl rfl))⟩, rfl, rfl⟩
  obtain ⟨s, hexec, harrived, hpc⟩ := hrun
  exact ⟨s, hexec, ((receive_copies hexec).2.1 hpc).2.trans harrived, hpc⟩

end HseDev.Sem19.Receive
