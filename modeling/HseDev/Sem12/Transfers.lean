import HseDev.Sem12.Commands

/-!
# HseDev — the file transfers of `sem12/main.c`

`func_cat` copies a file to standard output, `func_append` adds a line to one. Neither looks at
everything its calls answer: `func_cat` returns `0` however its loop ended, and `func_append`
takes a short write for a full one.

* **`Reports`** — what a command that reports truthfully does: `0` and the work is done, or `-1`,
  which `process_args` turns into a report and its own `-1`.
* **`left`** — what is left of a file after a number of reads; **`Full`** — before the end every
  read succeeds and the write behind it takes the whole chunk.
* **`cat_eq_iff`** — the loop copies the whole file exactly then.
* **`transfers_report_iff`** — when the two commands report truthfully.
-/

namespace HseDev.Sem12

open CString

variable {k : Kernel} {world : World} {content text unread out : Bytes} {i : Nat}

/-! ## The loop of `func_cat`

The file is read in chunks and each chunk is written. The kernel answers every `read` and every
`write`, with a short count or with an error. -/

/-- The size of the `i`-th read, where the file does not end it. -/
def chunkSize (k : Kernel) (i : Nat) : Nat :=
  match k.reads i with
  | some n => min (n + 1) 4096
  | none => 0

/-- What is left of the file before the `i`-th read, if the reads before it succeed. -/
def left (k : Kernel) (content : Bytes) : Nat → Bytes
  | 0 => content
  | i + 1 => (left k content i).drop (chunkSize k i)

/-- The `i`-th read succeeds and the `i`-th write takes what it has read. -/
def FullRound (k : Kernel) (i : Nat) (unread : Bytes) : Prop :=
  ∃ buf, k.read i unread = some buf ∧ k.write i buf = some buf.length

/-- Until the file has been read, every round is full. -/
def Full (k : Kernel) (content : Bytes) : Prop :=
  ∀ i, left k content i ≠ [] → FullRound k i (left k content i)

/-- A `read` delivers the next bytes, and some of them unless the file has ended. -/
theorem read_eq {buf : Bytes} (h : k.read i unread = some buf) :
    buf = unread.take (chunkSize k i) ∧ (unread ≠ [] → buf ≠ []) := by
  unfold Kernel.read at h
  unfold chunkSize
  cases hread : k.reads i with
  | none =>
    rw [hread] at h
    cases h
  | some n =>
    rw [hread] at h
    cases h
    refine ⟨rfl, fun hne htake => ?_⟩
    have hlength := congrArg List.length htake
    have hpos : 0 < unread.length := List.length_pos_iff.mpr hne
    rw [List.length_take, List.length_nil] at hlength
    omega

/-- A `write` takes no more than it is given. -/
theorem write_le {buf : Bytes} {n : Nat} (h : k.write i buf = some n) : n ≤ buf.length := by
  unfold Kernel.write at h
  cases hwrite : k.writes i with
  | none =>
    rw [hwrite] at h
    cases h
  | some m =>
    rw [hwrite] at h
    cases h
    exact Nat.min_le_right _ _

/-- What has been read to the end stays so. -/
theorem left_add_nil (h : left k content i = []) (j : Nat) : left k content (i + j) = [] := by
  induction j with
  | zero => exact h
  | succ j ih =>
    show (left k content (i + j)).drop _ = []
    rw [ih, List.drop_nil]

/-- From the round on in which nothing is left, nothing is left. -/
theorem left_nil {j : Nat} (h : left k content i = []) (hj : i ≤ j) : left k content j = [] := by
  rw [← Nat.add_sub_cancel' hj]
  exact left_add_nil h _

/-- The rounds from the `i`-th on, and the round itself. -/
theorem full_from_iff (hne : left k content i ≠ []) :
    (∀ j, i ≤ j → left k content j ≠ [] → FullRound k j (left k content j))
      ↔ FullRound k i (left k content i)
        ∧ ∀ j, i + 1 ≤ j → left k content j ≠ [] → FullRound k j (left k content j) := by
  constructor
  · intro h
    exact ⟨h i (Nat.le_refl i) hne, fun j hj => h j (Nat.le_of_succ_le hj)⟩
  · intro h j hj
    cases Nat.eq_or_lt_of_le hj with
    | inl heq =>
      subst heq
      exact fun _ => h.1
    | inr hlt => exact h.2 j hlt

/-- A full round sends a chunk on and goes to the next one. -/
theorem catLoop_full (fuel : Nat) (out : Bytes) (hne : left k content i ≠ [])
    (hfull : FullRound k i (left k content i)) :
    ∃ buf, left k content i = buf ++ left k content (i + 1) ∧ buf ≠ []
      ∧ catLoop k (fuel + 1) i (left k content i) out
        = catLoop k fuel (i + 1) (left k content (i + 1)) (out ++ buf) := by
  obtain ⟨buf, hread, hwrite⟩ := hfull
  obtain ⟨hbuf, hsome⟩ := read_eq hread
  have hpos : buf.length ≠ 0 := fun h => hsome hne (List.length_eq_zero_iff.mp h)
  have hsplit : left k content i = buf ++ left k content (i + 1) := by
    rw [hbuf]
    exact (List.take_append_drop _ _).symm
  have hrest : (left k content i).drop buf.length = left k content (i + 1) := by
    rw [hsplit, List.drop_left]
  refine ⟨buf, hsplit, hsome hne, ?_⟩
  rw [catLoop, hread]
  show (if buf.length = 0 then _ else _) = _
  rw [if_neg hpos, hwrite]
  show (if buf.length ≠ buf.length then _ else _) = _
  rw [if_neg (not_not_intro rfl), List.take_length, hrest]

/-- Any other round ends the loop, before the end of the file. -/
theorem catLoop_stops (fuel : Nat) (out : Bytes) (hne : left k content i ≠ [])
    (hfull : ¬ FullRound k i (left k content i)) :
    ∃ sent, catLoop k (fuel + 1) i (left k content i) out = some (out ++ sent)
      ∧ sent ≠ left k content i := by
  unfold catLoop
  cases hread : k.read i (left k content i) with
  | none => exact ⟨[], congrArg some (List.append_nil out).symm, Ne.symm hne⟩
  | some buf =>
    obtain ⟨hbuf, hsome⟩ := read_eq hread
    have hpos : buf.length ≠ 0 := fun h => hsome hne (List.length_eq_zero_iff.mp h)
    show ∃ sent, (if buf.length = 0 then _ else _) = _ ∧ _
    rw [if_neg hpos]
    cases hwrite : k.write i buf with
    | none => exact ⟨[], congrArg some (List.append_nil out).symm, Ne.symm hne⟩
    | some n =>
      have hn : n ≠ buf.length := by
        intro h
        exact hfull ⟨buf, hread, h ▸ hwrite⟩
      have hle := write_le hwrite
      refine ⟨buf.take n, if_pos hn, fun heq => ?_⟩
      -- what was written is shorter than the chunk, and that is not longer than what is left
      have hlength := congrArg List.length heq
      have hchunk := congrArg List.length hbuf
      rw [List.length_take] at hlength hchunk
      omega

/-- **The loop of `func_cat`.** It ends, and it has written what is left of the file exactly if
the rounds from here on are full. Induction on the rounds. -/
theorem catLoop_spec (k : Kernel) (content : Bytes) (fuel : Nat) :
    ∀ (i : Nat) (out : Bytes), (left k content i).length < fuel →
      ∃ sent, catLoop k fuel i (left k content i) out = some (out ++ sent)
        ∧ (sent = left k content i
          ↔ ∀ j, i ≤ j → left k content j ≠ [] → FullRound k j (left k content j)) := by
  induction fuel with
  | zero => exact fun _ _ hfuel => absurd hfuel (Nat.not_lt_zero _)
  | succ fuel ih =>
    intro i out hfuel
    by_cases hend : left k content i = []
    · -- the end of the file, or an error that makes no difference there
      refine ⟨[], ?_, iff_of_true hend.symm fun j hj hne => absurd (left_nil hend hj) hne⟩
      unfold catLoop
      rw [hend]
      cases hread : k.read i [] with
      | none => exact congrArg some (List.append_nil out).symm
      | some buf =>
        have hnil : buf.length = 0 := by
          rw [(read_eq hread).1, List.take_nil]
          rfl
        show (if buf.length = 0 then some out else _) = _
        rw [if_pos hnil, List.append_nil]
    · rw [full_from_iff hend]
      -- a full round goes on with what is left, any other one is the last
      by_cases hfull : FullRound k i (left k content i)
      · obtain ⟨buf, hsplit, hne, hloop⟩ := catLoop_full fuel out hend hfull
        have hlength := congrArg List.length hsplit
        have hpos : 0 < buf.length := List.length_pos_iff.mpr hne
        rw [List.length_append] at hlength
        obtain ⟨sent, hsent, hiff⟩ := ih (i + 1) (out ++ buf) (by omega)
        refine ⟨buf ++ sent, ?_, ?_⟩
        · rw [hloop, hsent, List.append_assoc]
        · rw [hsplit, List.append_cancel_left_eq, hiff, ← hsplit]
          exact (and_iff_right hfull).symm
      · obtain ⟨sent, hloop, hne⟩ := catLoop_stops fuel out hend hfull
        exact ⟨sent, hloop, iff_of_false hne fun h => hfull h.1⟩

/-- `func_cat` copies the whole file exactly if every round before its end is full. -/
theorem cat_eq_iff (k : Kernel) (content : Bytes) : cat k content = content ↔ Full k content := by
  obtain ⟨sent, hloop, hiff⟩ := catLoop_spec k content (content.length + 1) 0 []
    (Nat.lt_succ_self _)
  have hcat : cat k content = sent := by
    unfold cat
    exact congrArg (·.getD []) hloop
  rw [hcat]
  exact hiff.trans ⟨fun h j => h j (Nat.zero_le j), fun h j _ => h j⟩

/-! ## Truthful reports

A command reports by its return value. The report is truthful if success means that all bytes have
been moved and failure that the caller is told. -/

/-- What `process_args` is told about: the command has done its work and returns `0`, or it
returns `-1`, which is reported. -/
def Reports (k : Kernel) (func : Command) (argv : List Bytes) (world : World)
    (done : World → Prop) : Prop :=
  ((func k argv world).1 = 0 ∧ done (func k argv world).2)
    ∨ ((func k argv world).1 = -1
      ∧ dispatch k argv world = (-1, (func k argv world).2.perror (arg argv 0)))

def catName : Bytes := literal "cat"

def appendName : Bytes := literal "append"

/-- The whole file has been written to standard output. -/
def Copied (k : Kernel) (argv : List Bytes) (world world' : World) : Prop :=
  ∃ content, k.openRead (arg argv 1) world.files = some content
    ∧ world'.written = world.written ++ content

/-- The file is its old content, the text and a newline. -/
def Appended (k : Kernel) (argv : List Bytes) (world world' : World) : Prop :=
  ∃ content, k.openAppend (arg argv 1) world.files = some content
    ∧ world'.files (arg argv 1) = some (content ++ (arg argv 2 ++ [newline]))

/-- The two writes of `func_append` transfer everything, or one of them fails. -/
def WholeOrFailed (k : Kernel) (text : Bytes) : Prop :=
  k.write 0 text = none ∨ k.write 1 [newline] = none
    ∨ (k.write 0 text = some text.length ∧ k.write 1 [newline] = some 1)

/-- The report of a function that has been found. -/
theorem reports_iff {func : Command} {name : Bytes} {ws : List Bytes} {done : World → Prop}
    (hfind : funcTable.find? (fun f => f.name == name) = some ⟨func, name⟩) :
    Reports k func (name :: ws) world done
      ↔ ((func k (name :: ws) world).1 = 0 ∧ done (func k (name :: ws) world).2)
        ∨ (func k (name :: ws) world).1 = -1 := by
  unfold Reports
  rw [dispatch_of_find hfind]
  apply or_congr_right
  apply and_iff_left_of_imp
  intro hret
  rw [if_pos hret]
  rfl

/-- The command `cat` with an argument returns `-1` if it cannot open the file, and `0` otherwise.
-/
theorem funcCat_cons {ws : List Bytes} (name : Bytes) (hne : ws ≠ []) :
    funcCat k (name :: ws) world = match k.openRead (arg (name :: ws) 1) world.files with
      | none => (-1, world)
      | some content => (0, { world with written := world.written ++ cat k content }) := by
  unfold funcCat
  rw [requirePathArg_cons name world hne]
  rfl

/-- So its report is right exactly if it has no argument, or the file it opens is copied in full. -/
theorem reports_cat_iff (k : Kernel) (world : World) (ws : List Bytes) :
    Reports k funcCat (catName :: ws) world (Copied k (catName :: ws) world)
      ↔ ws = [] ∨ ∀ content, k.openRead (arg (catName :: ws) 1) world.files = some content →
        Full k content := by
  rw [reports_iff rfl]
  by_cases hnil : ws = []
  · -- `require_path_arg` returns -1
    subst hnil
    exact iff_of_true (Or.inr rfl) (Or.inl rfl)
  · rw [funcCat_cons catName hnil, or_iff_right hnil]
    unfold Copied
    cases hopen : k.openRead (arg (catName :: ws) 1) world.files with
    | none => exact iff_of_true (Or.inr rfl) nofun
    | some content =>
      show ((0 : Int32) = 0 ∧ (∃ c, some content = some c
        ∧ world.written ++ cat k content = world.written ++ c)) ∨ (0 : Int32) = -1 ↔ _
      simp only [Option.some.injEq, exists_eq_left', List.append_cancel_left_eq, true_and,
        forall_eq', cat_eq_iff]
      exact or_iff_left (by decide)

/-- The command `append` with both arguments, after the file has been opened. -/
theorem funcAppend_cons {ws : List Bytes} (name : Bytes) (hlength : 2 ≤ ws.length) :
    funcAppend k (name :: ws) world = match k.openAppend (arg (name :: ws) 1) world.files with
      | none => (-1, world)
      | some content =>
        let added := append k content (arg (name :: ws) 2)
        (if added.1 then -1 else 0, world.store (arg (name :: ws) 1) added.2) := by
  have hne : ws ≠ [] := by
    intro h
    rw [h] at hlength
    exact absurd hlength (by decide)
  have hcount : ¬ ((0 : Int32) = -1 ∨ (name :: ws).length < 3) := by
    rw [List.length_cons]
    intro h
    cases h with
    | inl h => exact absurd h (by decide)
    | inr h => omega
  unfold funcAppend
  rw [requirePathArg_cons name world hne]
  exact if_neg hcount

/-- What the two writes of `func_append` do. -/
theorem append_iff (k : Kernel) (content text : Bytes) :
    ((append k content text).1 = false ∧ (append k content text).2 = content ++ (text ++ [newline]))
      ∨ (append k content text).1 = true ↔ WholeOrFailed k text := by
  unfold append WholeOrFailed
  cases hfirst : k.write 0 text with
  | none => exact iff_of_true (Or.inr rfl) (Or.inl rfl)
  | some n =>
    cases hsecond : k.write 1 [newline] with
    | none => exact iff_of_true (Or.inr rfl) (Or.inr (Or.inl rfl))
    | some m =>
      have hn := write_le hfirst
      have hm := write_le hsecond
      simp only [List.append_assoc, List.append_cancel_left_eq, true_and, reduceCtorEq, false_or,
        Bool.false_eq_true, or_false, Option.some.injEq]
      -- a short write is no error, but the file then lacks a byte
      constructor
      · intro h
        have hlength := congrArg List.length h
        simp only [List.length_append, List.length_take, List.length_singleton] at hlength hm
        omega
      · intro h
        rw [h.1, h.2, List.take_length]
        rfl

/-- Its report is right exactly if it lacks an argument, or the text is written whole or reported.
-/
theorem reports_append_iff (k : Kernel) (world : World) (ws : List Bytes) :
    Reports k funcAppend (appendName :: ws) world (Appended k (appendName :: ws) world)
      ↔ ws.length < 2 ∨ ∀ content,
        k.openAppend (arg (appendName :: ws) 1) world.files = some content →
          WholeOrFailed k (arg (appendName :: ws) 2) := by
  rw [reports_iff rfl]
  by_cases hshort : ws.length < 2
  · refine iff_of_true (Or.inr ?_) (Or.inl hshort)
    have hcount : (appendName :: ws).length < 3 := by
      rw [List.length_cons]
      omega
    unfold funcAppend
    show (if _ ∨ _ then _ else _ : Int32 × World).1 = -1
    rw [if_pos (Or.inr hcount)]
  · rw [funcAppend_cons appendName (Nat.le_of_not_lt hshort), or_iff_right hshort]
    unfold Appended
    cases hopen : k.openAppend (arg (appendName :: ws) 1) world.files with
    | none => exact iff_of_true (Or.inr rfl) nofun
    | some content =>
      simp only [World.store_files, Option.some.injEq, exists_eq_left', forall_eq']
      rw [← append_iff k content]
      cases (append k content (arg (appendName :: ws) 2)).1 with
      | true => exact iff_of_true (Or.inr rfl) (Or.inr rfl)
      | false => simp

/-- **When the two commands report truthfully.** In terms of what the calls of the kernel answer:
`cat` is right when every `write` takes the whole of what it is given, `append` when its two writes
transfer everything or one of them fails. -/
theorem transfers_report_iff (k : Kernel) (world : World) (ws : List Bytes) :
    (Reports k funcCat (catName :: ws) world (Copied k (catName :: ws) world)
      ↔ ws = [] ∨ ∀ content, k.openRead (arg (catName :: ws) 1) world.files = some content →
        Full k content)
    ∧ (Reports k funcAppend (appendName :: ws) world (Appended k (appendName :: ws) world)
      ↔ ws.length < 2 ∨ ∀ content,
        k.openAppend (arg (appendName :: ws) 1) world.files = some content →
          WholeOrFailed k (arg (appendName :: ws) 2)) :=
  ⟨reports_cat_iff k world ws, reports_append_iff k world ws⟩

/-- The file `f` holds one byte. -/
def oneFile : World :=
  World.empty.store (literal "f") [104]

/-- Every `read` fails; every `write` transfers one byte. -/
def faulty : Kernel :=
  { Kernel.failing with opens := fun _ => true, writes := fun _ => some 1 }

/-- `cat f` copies nothing and reports nothing; `append f hi` loses a byte. -/
theorem transfers_silent :
    ¬ Reports faulty funcCat [catName, literal "f"] oneFile
        (Copied faulty [catName, literal "f"] oneFile)
    ∧ ¬ Reports faulty funcAppend [appendName, literal "f", literal "hi"] oneFile
        (Appended faulty [appendName, literal "f", literal "hi"] oneFile) := by
  constructor
  · rw [reports_cat_iff]
    intro h
    have hfull := h.resolve_left nofun [104] rfl 0 nofun
    obtain ⟨buf, hread, _⟩ := hfull
    cases hread
  · rw [reports_append_iff]
    intro h
    have hwhole := h.resolve_left (by decide) [104] rfl
    revert hwhole
    unfold WholeOrFailed
    decide

end HseDev.Sem12
