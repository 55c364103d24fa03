import HseDev.Lib.CString
import HseDev.Lib.LittleEndian
import Mathlib.Data.Vector.Basic

/-!
# HseDev — the user file of `sem3/io/main.c`

`save_user` writes a packed `struct User` to a file, `load_user` reads it back, `print_user`
prints it. Each of the first two is a chain of three calls that stops at the first failure.

* **`User`** — the struct; **`User.bytes`** / **`User.ofBytes`** — its 67 bytes in memory.
* **`FileCalls`** — how the calls turn out; **`saveUser`** / **`loadUser`** — the chains.
* **`Saved`** / **`Loaded`** — everything they can leave behind.
* **`printUser`** — the line, with the bytes that are read for it.
-/

namespace HseDev.Sem3

open BlockHeap CString LittleEndian

/-! ## The struct

The struct without padding, as its attribute asks for. `bytes` and `ofBytes` are the two directions
of `fwrite` and `fread` on its memory; neither cares where a string in it ends. -/

/-- `struct User`, packed. -/
structure User where
  username : Vector UInt8 32
  password : Vector UInt8 31
  value : UInt32
  deriving DecidableEq

/-- `sizeof(struct User)` -/
def userSize : Nat := 67

def User.bytes (u : User) : List UInt8 :=
  u.username.toList ++ (u.password.toList
    ++ [byte u.value 0, byte u.value 1, byte u.value 2, byte u.value 3])

theorem User.length_bytes (u : User) : u.bytes.length = userSize := by
  simp [User.bytes, userSize]

/-- The struct that some bytes in memory are. -/
def User.ofBytes (bs : List UInt8) (h : bs.length = userSize) : User where
  username := ⟨(bs.take 32).toArray, by simp [h, userSize]⟩
  password := ⟨((bs.drop 32).take 31).toArray, by simp [h, userSize]⟩
  value := word (bs.getD 63 0) (bs.getD 64 0) (bs.getD 65 0) (bs.getD 66 0)

/-- The memory of the struct after its first bytes have been overwritten. -/
def User.overwrite (u : User) (bs : List UInt8) (h : bs.length ≤ userSize) : User :=
  .ofBytes (bs ++ u.bytes.drop bs.length) (by
    rw [List.length_append, List.length_drop, u.length_bytes]
    omega)

/-! ## The calls

The outcomes of the calls of the C library are parameters: whether a file opens, how much is
transferred and what reaches the file before a failed `fclose`. The functions of the source are then
plain functions of these and of the state before. -/

/-- How the calls of one function turn out. `transferred` bounds the bytes that `fread` or
`fwrite` moves, `written` those that the latter has brought to the file; `flushed` bounds the
ones that a failed `fclose` still brings there. -/
structure FileCalls where
  opens : Bool
  transferred : Nat
  written : Nat
  closes : Bool
  flushed : Nat

/-- The file at `path`, `*user`, and the buffer of the stream `f` while it is open. -/
structure World where
  file : Option (List UInt8)
  user : User
  stream : Option (List UInt8)

/-- `fopen(path, "w")`; the `Bool` says that it is not `NULL`. -/
def fopenWrite (c : FileCalls) (w : World) : Bool × World :=
  if c.opens then (true, { w with file := some [], stream := some [] }) else (false, w)

/-- `fopen(path, "r")` -/
def fopenRead (c : FileCalls) (w : World) : Bool × World :=
  if c.opens ∧ w.file ≠ none then (true, { w with stream := some [] }) else (false, w)

/-- `fwrite(user, sizeof(*user), 1, f)` -/
def fwrite (c : FileCalls) (w : World) : Nat × World :=
  let accepted := w.user.bytes.take c.transferred
  let pending := w.stream.getD [] ++ accepted
  (if accepted.length = userSize then 1 else 0,
    { w with file := w.file.map (· ++ pending.take c.written)
             stream := some (pending.drop c.written) })

/-- The bytes that `fread` gets from a file. -/
def FileCalls.delivered (c : FileCalls) (content : List UInt8) : List UInt8 :=
  (content.take userSize).take c.transferred

theorem FileCalls.length_delivered (c : FileCalls) (content : List UInt8) :
    (c.delivered content).length ≤ userSize :=
  Nat.le_trans (List.length_take_le' ..) (List.length_take_le ..)

/-- `fread(user, sizeof(*user), 1, f)` -/
def fread (c : FileCalls) (w : World) : Nat × World :=
  let got := c.delivered (w.file.getD [])
  (if got.length = userSize then 1 else 0,
    { w with user := w.user.overwrite got (c.length_delivered _) })

/-- `fclose(f)`: the stream is gone also if it fails. -/
def fclose (c : FileCalls) (w : World) : Int × World :=
  let pending := w.stream.getD []
  if c.closes then (0, { w with file := w.file.map (· ++ pending), stream := none })
  else (-1, { w with file := w.file.map (· ++ pending.take c.flushed), stream := none })

/-- `save_user` -/
def saveUser (c : FileCalls) (w : World) : Int × World :=
  match fopenWrite c w with
  | (false, w) => (-1, w)
  | (true, w) =>
    match fwrite c w with
    | (n, w) =>
      if n = 1 then
        match fclose c w with
        | (r, w) => (if r ≠ -1 then 0 else -1, w)
      else (-1, w)

/-- `load_user` -/
def loadUser (c : FileCalls) (w : World) : Int × World :=
  match fopenRead c w with
  | (false, w) => (-1, w)
  | (true, w) =>
    match fread c w with
    | (n, w) =>
      if n = 1 then
        match fclose c w with
        | (r, w) => (if r ≠ -1 then 0 else -1, w)
      else (-1, w)

/-- `printf` of a `%.{prec}s`: the bytes up to a NUL, and where it has looked for them. -/
def printfString (mem : List UInt8) (p : Nat) : Nat → List UInt8 × List Nat
  | 0 => ([], [])
  | prec + 1 =>
    if mem.getD p 0 = 0 then ([], [p])
    else
      let (text, reads) := printfString mem (p + 1) prec
      (mem.getD p 0 :: text, p :: reads)

/-- The line of `print_user`, and the offsets in the struct that are read for its two strings. -/
structure Printed where
  line : List UInt8
  usernameReads : List Nat
  passwordReads : List Nat
  deriving DecidableEq

/-- `print_user` -/
def printUser (u : User) : Printed :=
  let (username, usernameReads) := printfString u.bytes 0 32
  let (password, passwordReads) := printfString u.bytes 32 31
  { line := literal "name: " ++ username ++ literal ", password: " ++ password
      ++ literal " value: " ++ literal (toString u.value) ++ literal "\n"
    usernameReads
    passwordReads }

/-! ## The bytes of the struct

A `User` is its bytes: each can be read back from the other. So a round trip through a file is a
statement about lists. -/

variable {u : User} {c : FileCalls} {w : World}

theorem drop_eq_getD_cons {bs : List UInt8} {i : Nat} (h : i < bs.length) :
    bs.drop i = bs.getD i 0 :: bs.drop (i + 1) := by
  rw [List.drop_eq_getElem_cons h, List.getD_eq_getElem?_getD,
    List.getElem?_eq_getElem h, Option.getD_some]

theorem drop_value {bs : List UInt8} (h : bs.length = userSize) :
    bs.drop 63 = [bs.getD 63 0, bs.getD 64 0, bs.getD 65 0, bs.getD 66 0] := by
  have hlength : bs.length = 67 := h
  rw [drop_eq_getD_cons (by omega), drop_eq_getD_cons (by omega), drop_eq_getD_cons (by omega),
    drop_eq_getD_cons (by omega), List.drop_eq_nil_of_le (by omega)]

/-- **Reading back**: the bytes of the struct that some bytes are. -/
theorem bytes_ofBytes (bs : List UInt8) (h : bs.length = userSize) :
    (User.ofBytes bs h).bytes = bs := by
  obtain ⟨h0, h1, h2, h3⟩ := byte_word (bs.getD 63 0) (bs.getD 64 0) (bs.getD 65 0) (bs.getD 66 0)
  show bs.take 32 ++ ((bs.drop 32).take 31 ++ [byte _ 0, byte _ 1, byte _ 2, byte _ 3]) = bs
  unfold User.ofBytes
  rw [h0, h1, h2, h3, ← drop_value h]
  rw [show bs.drop 63 = (bs.drop 32).drop 31 by rw [List.drop_drop]]
  rw [List.take_append_drop, List.take_append_drop]

/-- Two users with the same bytes are the same, the bytes behind a NUL included. -/
theorem bytes_injective {u v : User} (h : u.bytes = v.bytes) : u = v := by
  obtain ⟨husername, hrest⟩ := List.append_inj h (by simp)
  obtain ⟨hpassword, hvalue⟩ := List.append_inj hrest (by simp)
  simp only [List.cons.injEq, and_true] at hvalue
  obtain ⟨h0, h1, h2, h3⟩ := hvalue
  have hword : u.value = v.value := by
    rw [← word_bytes u.value, h0, h1, h2, h3, word_bytes]
  cases u
  cases v
  rw [User.mk.injEq]
  exact ⟨Vector.toList_inj.mp husername, Vector.toList_inj.mp hpassword, hword⟩

/-- An incomplete read leaves the rest of the struct as it was. -/
theorem bytes_overwrite (u : User) (bs : List UInt8) (h : bs.length ≤ userSize) :
    (u.overwrite bs h).bytes = bs ++ u.bytes.drop bs.length :=
  bytes_ofBytes _ _

/-! ## What the functions leave behind

One inversion for each function, with every way out of it. The theorems about failures and about
round trips are by cases of these, and neither unfolds the calls again. -/

/-- Everything that `save_user` can do. -/
inductive Saved (c : FileCalls) (w : World) : Int × World → Prop where
  | notOpened (hopens : c.opens = false) : Saved c w (-1, w)
  | notWritten (hopens : c.opens = true)
      (hshort : (w.user.bytes.take c.transferred).length ≠ userSize) :
      Saved c w (-1, { w with
        file := some ((w.user.bytes.take c.transferred).take c.written)
        stream := some ((w.user.bytes.take c.transferred).drop c.written) })
  | notClosed (n : Nat) (hopens : c.opens = true) (hcloses : c.closes = false) :
      Saved c w (-1, { w with file := some (w.user.bytes.take n), stream := none })
  | saved (hopens : c.opens = true) :
      Saved c w (0, { w with file := some w.user.bytes, stream := none })

/-- `save_user` does one of four things, whatever the calls do. -/
theorem saveUser_saved (c : FileCalls) (w : World) : Saved c w (saveUser c w) := by
  unfold saveUser fopenWrite
  cases hopens : c.opens with
  | false => exact .notOpened hopens
  | true =>
    simp only [if_true, fwrite, Option.getD_some, Option.map_some, List.nil_append]
    by_cases hall : (w.user.bytes.take c.transferred).length = userSize
    · have hwhole : w.user.bytes.take c.transferred = w.user.bytes :=
        (List.take_prefix _ _).eq_of_length (hall.trans w.user.length_bytes.symm)
      simp only [if_pos hall, if_true, fclose, Option.getD_some, Option.map_some]
      rw [hwhole]
      cases hcloses : c.closes with
      | false =>
        simp only [Bool.false_eq_true, if_false, ne_eq, not_true, ← List.take_add]
        exact .notClosed _ hopens hcloses
      | true =>
        simp only [if_true, List.take_append_drop]
        exact .saved hopens
    · simp only [if_neg hall]
      exact .notWritten hopens hall

/-- Everything that `load_user` can do. -/
inductive Loaded (c : FileCalls) (w : World) : Int × World → Prop where
  | notOpened (hopens : c.opens = false ∨ w.file = none) : Loaded c w (-1, w)
  | notRead (content : List UInt8) (hfile : w.file = some content) (hopens : c.opens = true)
      (hshort : (c.delivered content).length ≠ userSize) :
      Loaded c w (-1, { w with
        user := w.user.overwrite (c.delivered content) (c.length_delivered content)
        stream := some [] })
  | read (content : List UInt8) (hfile : w.file = some content) (hopens : c.opens = true)
      (hall : (c.delivered content).length = userSize) :
      Loaded c w (if c.closes then 0 else -1, { w with
        user := w.user.overwrite (c.delivered content) (c.length_delivered content)
        stream := none })

/-- `load_user` does one of three. -/
theorem loadUser_loaded (c : FileCalls) (w : World) : Loaded c w (loadUser c w) := by
  unfold loadUser fopenRead
  by_cases hopens : c.opens = true ∧ w.file ≠ none
  · obtain ⟨hopens, hfile⟩ := hopens
    obtain ⟨content, hfile⟩ := Option.ne_none_iff_exists'.mp hfile
    rw [if_pos ⟨hopens, by rw [hfile]; nofun⟩]
    simp only [fread, hfile, Option.getD_some]
    by_cases hall : (c.delivered content).length = userSize
    · have hread := Loaded.read (c := c) content hfile hopens hall
      rw [hfile] at hread
      simp only [if_pos hall, if_true, fclose, Option.getD_some, List.take_nil, Option.map_some,
        List.append_nil]
      cases hcloses : c.closes with
      | false =>
        rw [hcloses] at hread
        exact hread
      | true =>
        rw [hcloses] at hread
        exact hread
    · have hnotRead := Loaded.notRead (c := c) content hfile hopens hall
      rw [hfile] at hnotRead
      simp only [if_neg hall]
      exact hnotRead
  · rw [if_neg hopens]
    refine .notOpened ?_
    by_contra hnot
    rw [not_or] at hnot
    exact hopens ⟨Bool.not_eq_false _ ▸ hnot.1, hnot.2⟩

/-! ## Failures

What a caller can rely on after a failure, and what it cannot: the old file is gone as soon as it
has been opened for writing, and a part of the struct may have been overwritten. -/

/-- What `load_user` leaves: a file that does not open leaves all as it was; what `fread` has
delivered is in the struct, and a stream is left open only by a failed `fread`. -/
structure LoadOutcome (c : FileCalls) (w : World) (r : Int × World) : Prop where
  code : r.1 = 0 ∨ r.1 = -1
  notOpened : c.opens = false ∨ w.file = none → r = (-1, w)
  file : r.2.file = w.file
  user : ∀ content, c.opens = true → w.file = some content →
    r.2.user.bytes = c.delivered content ++ w.user.bytes.drop (c.delivered content).length
  stream : r.2.stream ≠ none → r.1 = -1 ∧ ∃ content, w.file = some content
    ∧ (c.delivered content).length ≠ userSize

/-- What `save_user` leaves: a file that does not open is as it was; another one holds the
beginning of the struct, and a stream is left open only by a failed `fwrite`. -/
structure SaveOutcome (c : FileCalls) (w : World) (r : Int × World) : Prop where
  code : r.1 = 0 ∨ r.1 = -1
  notOpened : c.opens = false → r = (-1, w)
  user : r.2.user = w.user
  file : c.opens = true → ∃ n, r.2.file = some (w.user.bytes.take n)
  stream : r.2.stream ≠ none → r.1 = -1
    ∧ (w.user.bytes.take c.transferred).length ≠ userSize

/-- Without a file nothing happens to the struct. -/
theorem Loaded.of_not_opens {r : Int × World} (h : Loaded c w r)
    (hnot : c.opens = false ∨ w.file = none) : r = (-1, w) := by
  cases h with
  | notOpened => rfl
  | notRead content hfile hopens | read content hfile hopens =>
    rw [hopens, hfile] at hnot
    rcases hnot with hnot | hnot <;> cases hnot

/-- A file that cannot be opened is not truncated either. -/
theorem Saved.of_not_opens {r : Int × World} (h : Saved c w r) (hnot : c.opens = false) :
    r = (-1, w) := by
  cases h with
  | notOpened => rfl
  | notWritten hopens | notClosed _ hopens | saved hopens =>
    rw [hopens] at hnot
    cases hnot

/-- The inversion in the words of `LoadOutcome`, from a state without an open stream. -/
theorem Loaded.outcome {r : Int × World} (h : Loaded c w r) (hstream : w.stream = none) :
    LoadOutcome c w r := by
  have hnotOpened := h.of_not_opens
  cases h with
  | notOpened hopens =>
    refine ⟨Or.inr rfl, hnotOpened, rfl, fun content ho hfile => ?_, fun hs => absurd hstream hs⟩
    rw [ho, hfile] at hopens
    rcases hopens with hopens | hopens <;> cases hopens
  | notRead content hfile hopens hshort =>
    refine ⟨Or.inr rfl, hnotOpened, rfl, fun content' _ hfile' => ?_,
      fun _ => ⟨rfl, content, hfile, hshort⟩⟩
    cases hfile.symm.trans hfile'
    exact bytes_overwrite w.user _ (c.length_delivered content)
  | read content hfile hopens hall =>
    refine ⟨?_, hnotOpened, rfl, fun content' _ hfile' => ?_, fun hs => absurd rfl hs⟩
    · cases c.closes with
      | false => exact Or.inr rfl
      | true => exact Or.inl rfl
    · cases hfile.symm.trans hfile'
      exact bytes_overwrite w.user _ (c.length_delivered content)

theorem Saved.outcome {r : Int × World} (h : Saved c w r) (hstream : w.stream = none) :
    SaveOutcome c w r := by
  have hnotOpened := h.of_not_opens
  cases h with
  | notOpened hopens =>
    refine ⟨Or.inr rfl, hnotOpened, rfl, fun ho => ?_, fun hs => absurd hstream hs⟩
    rw [hopens] at ho
    cases ho
  | notWritten hopens hshort =>
    exact ⟨Or.inr rfl, hnotOpened, rfl, fun _ => ⟨_, congrArg some List.take_take⟩,
      fun _ => ⟨rfl, hshort⟩⟩
  | notClosed n hopens hcloses =>
    exact ⟨Or.inr rfl, hnotOpened, rfl, fun _ => ⟨n, rfl⟩, fun hs => absurd rfl hs⟩
  | saved hopens =>
    refine ⟨Or.inl rfl, hnotOpened, rfl, fun _ => ⟨userSize, ?_⟩, fun hs => absurd rfl hs⟩
    rw [← w.user.length_bytes, List.take_length]

/-- **The failures of the user file**, for every file and every outcome of the calls. -/
theorem user_file_errors (c : FileCalls) (w : World) (hstream : w.stream = none) :
    LoadOutcome c w (loadUser c w) ∧ SaveOutcome c w (saveUser c w) :=
  ⟨(loadUser_loaded c w).outcome hstream, (saveUser_saved c w).outcome hstream⟩

/-- A file of three bytes and a user of zeros. -/
def shortWorld : World :=
  ⟨some [1, 2, 3], ⟨Vector.replicate 32 0, Vector.replicate 31 0, 0⟩, none⟩

theorem user_file_errors_short : LoadOutcome ⟨true, 67, 67, true, 0⟩ shortWorld
      (loadUser ⟨true, 67, 67, true, 0⟩ shortWorld)
    ∧ SaveOutcome ⟨true, 67, 67, true, 0⟩ shortWorld
      (saveUser ⟨true, 67, 67, true, 0⟩ shortWorld) :=
  user_file_errors _ shortWorld rfl

/-- The short file changes the struct and leaves a stream open; a full disk empties the file. -/
theorem user_file_not_atomic :
    ((loadUser ⟨true, 67, 67, true, 0⟩ shortWorld).1 = -1
      ∧ (loadUser ⟨true, 67, 67, true, 0⟩ shortWorld).2.user ≠ shortWorld.user
      ∧ (loadUser ⟨true, 67, 67, true, 0⟩ shortWorld).2.stream ≠ none)
    ∧ (saveUser ⟨true, 0, 0, true, 0⟩ shortWorld).1 = -1
      ∧ (saveUser ⟨true, 0, 0, true, 0⟩ shortWorld).2.file ≠ shortWorld.file := by
  decide

/-! ## Round trips

If all calls succeed, then what is saved is what is loaded, to the byte. The lines of `print_user`
depend on the bytes up to the first NUL of each string only, so they agree as well. -/

/-- All calls succeed. -/
structure FileCalls.Succeeds (c : FileCalls) : Prop where
  opens : c.opens = true
  transferred : userSize ≤ c.transferred
  closes : c.closes = true

/-- A save that succeeds leaves the bytes of the user as the whole file. -/
theorem saveUser_succeeds (hc : c.Succeeds) (w : World) :
    saveUser c w = (0, { w with file := some w.user.bytes, stream := none }) := by
  have hsaved := saveUser_saved c w
  generalize saveUser c w = r at hsaved
  cases hsaved with
  | notOpened hopens => exact absurd (hopens.symm.trans hc.opens) Bool.false_ne_true
  | notWritten _ hshort =>
    refine absurd ?_ hshort
    rw [List.length_take, w.user.length_bytes]
    exact Nat.min_eq_right hc.transferred
  | notClosed _ _ hcloses => exact absurd (hcloses.symm.trans hc.closes) Bool.false_ne_true
  | saved => rfl

/-- A load that succeeds takes the first bytes of the file; more than that it does not look at. -/
theorem loadUser_succeeds {content : List UInt8} (hc : c.Succeeds) (hfile : w.file = some content)
    (hlong : userSize ≤ content.length) :
    ∃ u, loadUser c w = (0, { w with user := u, stream := none })
      ∧ u.bytes = content.take userSize := by
  have hdelivered : c.delivered content = content.take userSize := by
    unfold FileCalls.delivered
    rw [List.take_take, Nat.min_eq_right hc.transferred]
  have hlength : (c.delivered content).length = userSize := by
    rw [hdelivered, List.length_take, Nat.min_eq_left hlong]
  have hloaded := loadUser_loaded c w
  generalize loadUser c w = r at hloaded
  cases hloaded with
  | notOpened hopens => simp [hc.opens, hfile] at hopens
  | notRead content' hfile' _ hshort =>
    cases hfile.symm.trans hfile'
    exact absurd hlength hshort
  | read content' hfile' _ _ =>
    cases hfile.symm.trans hfile'
    refine ⟨_, by rw [if_pos hc.closes], ?_⟩
    rw [bytes_overwrite, hlength, List.drop_eq_nil_of_le w.user.length_bytes.le, List.append_nil,
      hdelivered]

/-- `%.{prec}s` shows the string in its field, and looks for it nowhere else. Induction on the
precision. -/
theorem printfString_spec (mem : List UInt8) (p prec : Nat) (h : p + prec ≤ mem.length) :
    (printfString mem p prec).1 = cString ((mem.drop p).take prec)
      ∧ ∀ i ∈ (printfString mem p prec).2, p ≤ i ∧ i < p + prec := by
  induction prec generalizing p with
  | zero => exact ⟨rfl, by simp [printfString]⟩
  | succ prec ih =>
    obtain ⟨htext, hreads⟩ := ih (p + 1) (by omega)
    have hfield : (mem.drop p).take (prec + 1)
        = mem.getD p 0 :: (mem.drop (p + 1)).take prec := by
      rw [drop_eq_getD_cons (by omega), List.take_succ_cons]
    unfold printfString
    rw [hfield]
    unfold cString
    split
    · next hnul =>
      rw [List.takeWhile_cons_of_neg (by simpa using hnul)]
      exact ⟨rfl, by simp⟩
    · next hne =>
      rw [List.takeWhile_cons_of_pos (by simpa using hne)]
      refine ⟨congrArg _ htext, fun i hi => ?_⟩
      rcases List.mem_cons.mp hi with rfl | hi
      · omega
      · have hbounds := hreads i hi
        omega

theorem printUser_spec (u : User) :
    (printUser u).line = literal "name: " ++ cString u.username.toList ++ literal ", password: "
        ++ cString u.password.toList ++ literal " value: " ++ literal (toString u.value)
        ++ literal "\n"
      ∧ (∀ i ∈ (printUser u).usernameReads, i < 32)
      ∧ ∀ i ∈ (printUser u).passwordReads, 32 ≤ i ∧ i < 63 := by
  have hlength := u.length_bytes
  have husername : (u.bytes.drop 0).take 32 = u.username.toList := by
    rw [List.drop_zero]
    exact List.take_left' u.username.length_toList
  have hpassword : (u.bytes.drop 32).take 31 = u.password.toList := by
    unfold User.bytes
    rw [List.drop_left' u.username.length_toList]
    exact List.take_left' u.password.length_toList
  obtain ⟨hname, hnameReads⟩ := printfString_spec u.bytes 0 32
    (by rw [hlength]; decide)
  obtain ⟨hpass, hpassReads⟩ := printfString_spec u.bytes 32 31
    (by rw [hlength]; decide)
  rw [husername] at hname
  rw [hpassword] at hpass
  refine ⟨?_, fun i hi => (hnameReads i hi).2, hpassReads⟩
  show literal "name: " ++ (printfString u.bytes 0 32).1 ++ literal ", password: "
    ++ (printfString u.bytes 32 31).1 ++ _ ++ _ ++ _ = _
  rw [hname, hpass]

/-- **The round trips of the user file.** A saved struct is loaded byte for byte, whatever its
fields hold, and printed field by field; a file that is long enough is loaded, and saved again it
is the file's first bytes. -/
theorem user_round_trip (c c' : FileCalls) (hc : c.Succeeds) (hc' : c'.Succeeds) (w : World) :
    (∀ u v : User,
      (saveUser c { w with user := u }).1 = 0
      ∧ (loadUser c' { (saveUser c { w with user := u }).2 with user := v }).1 = 0
      ∧ (loadUser c' { (saveUser c { w with user := u }).2 with user := v }).2.user = u)
    ∧ (∀ u, (printUser u).line = literal "name: " ++ cString u.username.toList
          ++ literal ", password: " ++ cString u.password.toList
          ++ literal " value: " ++ literal (toString u.value) ++ literal "\n"
        ∧ (∀ i ∈ (printUser u).usernameReads, i < 32)
        ∧ ∀ i ∈ (printUser u).passwordReads, 32 ≤ i ∧ i < 63)
    ∧ ∀ content, w.file = some content → userSize ≤ content.length →
      (loadUser c w).1 = 0 ∧ (saveUser c' (loadUser c w).2).1 = 0
      ∧ (saveUser c' (loadUser c w).2).2.file = some (content.take userSize) := by
  refine ⟨fun u v => ?_, printUser_spec, fun content hfile hlong => ?_⟩
  · rw [saveUser_succeeds hc]
    obtain ⟨u', hload, hbytes⟩ := loadUser_succeeds (w := ⟨some u.bytes, v, none⟩) hc' rfl
      u.length_bytes.ge
    rw [← u.length_bytes, List.take_length] at hbytes
    refine ⟨rfl, congrArg Prod.fst hload, ?_⟩
    exact (congrArg (fun r => r.2.user) hload).trans (bytes_injective hbytes)
  · obtain ⟨u, hload, hbytes⟩ := loadUser_succeeds hc hfile hlong
    rw [hload, saveUser_succeeds hc']
    exact ⟨rfl, rfl, congrArg some hbytes⟩

/-- A name that fills its field, and a password with a NUL and more behind it. -/
def fullUser : User where
  username := Vector.replicate 32 97
  password := Vector.ofFn fun i => if i = 3 then 0 else 98
  value := 4294967295

/-- A file of three bytes is replaced by the full user, who is loaded with what stands behind the
NUL and printed without it. -/
theorem user_round_trip_full :
    (saveUser ⟨true, 67, 0, true, 0⟩ { shortWorld with user := fullUser }).1 = 0
    ∧ (loadUser ⟨true, 67, 0, true, 0⟩
        { (saveUser ⟨true, 67, 0, true, 0⟩ { shortWorld with user := fullUser }).2 with
          user := shortWorld.user }).2.user = fullUser
    ∧ (printUser fullUser).line = literal "name: aaaaaaaaaaaaaaaaaaaaaaaaaaaaaaaa"
        ++ literal ", password: bbb value: 4294967295\n" := by
  have hc : FileCalls.Succeeds ⟨true, 67, 0, true, 0⟩ := ⟨rfl, by decide, rfl⟩
  obtain ⟨hsaved, hprinted, -⟩ := user_round_trip _ _ hc hc shortWorld
  obtain ⟨hcode, -, hloaded⟩ := hsaved fullUser shortWorld.user
  exact ⟨hcode, hloaded, (hprinted fullUser).1.trans (by decide)⟩

end HseDev.Sem3
