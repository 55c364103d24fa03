import Mathlib.Data.List.Basic

/-!
# The receiving end of a stream socket

Bytes arrive until the peer closes; a call of `recv` takes a beginning of those that have arrived.

* **`Peer`** — what happens at the other end.
* **`Recv`** — a call of `recv` with room for `size` bytes.
* **`Delivers`** — a reader has got what has arrived, in order, up to what is unread;
  **`Delivers.peer`** and **`Delivers.recv`** keep it.
-/

namespace StreamSocket

/-- `arrived` collects all bytes that have ever arrived. -/
structure Socket where
  unread : List UInt8
  closed : Bool
  arrived : List UInt8
  deriving DecidableEq, Repr

/-- A connection on which nothing has happened. -/
def Socket.fresh : Socket :=
  ⟨[], false, []⟩

inductive Peer (s : Socket) : Socket → Prop where
  | arrive (b : List UInt8) (hopen : s.closed = false) :
      Peer s { s with unread := s.unread ++ b, arrived := s.arrived ++ b }
  | close : Peer s { s with closed := true }

/-- What `recv` returns: a positive number of bytes, `0`, or `-1`. -/
inductive Result (E : Type) where
  | data (b : List UInt8)
  | closed
  | error (e : E)
  deriving DecidableEq, Repr

def Result.bytes {E : Type} : Result E → List UInt8
  | .data b => b
  | _ => []

/-- An error leaves the bytes where they are; `0` is returned when no more will come. -/
inductive Recv {E : Type} (size : ℕ) (s : Socket) : Result E → Socket → Prop where
  | data (n : ℕ) (hpos : 0 < n) (hsize : n ≤ size) (hn : n ≤ s.unread.length) :
      Recv size s (.data (s.unread.take n)) { s with unread := s.unread.drop n }
  | closed (hempty : s.unread = []) (hclosed : s.closed = true) : Recv size s .closed s
  | error (e : E) : Recv size s (.error e) s

def Delivers (got : List UInt8) (s : Socket) : Prop :=
  got ++ s.unread = s.arrived

variable {E : Type} {size : ℕ} {s t : Socket} {r : Result E} {got b : List UInt8}

/-- A fresh connection has delivered nothing. -/
theorem delivers_fresh : Delivers [] .fresh :=
  rfl

/-- What the peer sends has not been delivered yet. -/
theorem Delivers.peer (h : Delivers got s) (hpeer : Peer s t) : Delivers got t := by
  cases hpeer with
  | arrive b _ =>
    show got ++ (s.unread ++ b) = s.arrived ++ b
    rw [← List.append_assoc, h]
  | close => exact h

/-- A `recv` takes the first unread bytes. -/
theorem Recv.unread (h : Recv size s r t) : s.unread = r.bytes ++ t.unread := by
  cases h with
  | data n _ _ _ => exact (List.take_append_drop n s.unread).symm
  | closed _ _ => rfl
  | error e => rfl

/-- It does not change what has arrived. -/
theorem Recv.arrived (h : Recv size s r t) : t.arrived = s.arrived := by
  cases h <;> rfl

/-- What has been delivered grows by what a `recv` returns. -/
theorem Delivers.recv (h : Delivers got s) (hrecv : Recv size s r t) :
    Delivers (got ++ r.bytes) t := by
  unfold Delivers at *
  rw [List.append_assoc, ← hrecv.unread, hrecv.arrived, h]

/-- When everything has been read, the reader has got all. -/
theorem Delivers.all (h : Delivers got s) (hempty : s.unread = []) : got = s.arrived := by
  unfold Delivers at h
  rw [hempty, List.append_nil] at h
  exact h

/-- The bytes of a call fill the buffer at most, and there is at least one. -/
theorem Recv.data_length (h : Recv size s (.data b : Result E) t) :
    0 < b.length ∧ b.length ≤ size := by
  cases h with
  | data n hpos hsize hn =>
    rw [List.length_take, Nat.min_eq_left hn]
    exact ⟨hpos, hsize⟩

end StreamSocket
