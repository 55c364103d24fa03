import HseDev.Sem12.Transfers

/-!
# HseDev — the sessions of `sem12/main.c`

`main` prints a prompt, reads a line and gives it to `process_line`, until a call fails or the
input ends. What the shell leaves on the disk is then a matter of whole sessions: `append` only
ever adds to a file, and `cat` gives back what has been added. The files are the regular ones of
`Files`: finite, each with one path, and none of them standard input or output. Without the first
`cat` could go on for ever, without the others a line could change a file that it does not name.

* **`main`** — the loop over an input, for every answer of its calls; the buffer of `getline`
  holds the line, a NUL, and whatever an earlier line has left behind it.
* **`main_rounds`** — the loop ends, and it has dispatched the tokens of the lines, in order.
* **`dispatch_cat`** / **`dispatch_append`** / **`dispatch_quiet`** — what a command does to the
  files and writes to descriptor `1`.
* **`session_appends`** — no file loses a byte in a session, however its calls fail.
* **`Disk`** — what the shell is for: files that are appended to and shown.
* **`session_refines`** — where no call fails, a session does to the disk what its lines say.
-/

namespace HseDev.Sem12

open CString

/-! ## The loop of `main`

`main` prints a prompt, reads a line and hands it to `process_line`, until the input ends or one of
the calls fails. -/

/-- What the calls of `main` answer in its `i`-th round. -/
structure Terminal where
  kernel : Nat → Kernel
  prompts : Nat → Bool
  getlines : Nat → Bool
  behind : Nat → Bytes

def prompt : Bytes := literal "$~: "

/-- The next line, with its newline if it has one, and the input behind it. -/
def getLine : Bytes → Option (Bytes × Bytes)
  | [] => none
  | c :: s =>
    if c = newline then some ([c], s)
    else
      match getLine s with
      | none => some ([c], [])
      | some (line, rest) => some (c :: line, rest)

/-- `getline(&s, &n, stdin)` -/
def Terminal.getline (t : Terminal) (i : Nat) (stdin : Bytes) : Option (Bytes × Bytes) :=
  if t.getlines i then getLine stdin else none

/-- The loop, from its `i`-th round on. -/
def mainLoop (t : Terminal) : Nat → Nat → Bytes → World → Option World
  | 0, _, _, _ => none
  | fuel + 1, i, stdin, world =>
    if t.prompts i then
      match t.getline i stdin with
      | none => some (world.printf prompt)
      | some (line, rest) => do
        let (_, world) ← processLine (processArgs (t.kernel i)) (line ++ 0 :: t.behind i)
          (world.printf prompt)
        mainLoop t fuel (i + 1) rest world
    else some world

/-- Every round but the last takes a byte of the input. -/
def main (t : Terminal) (stdin : Bytes) (world : World) : Option World :=
  mainLoop t (stdin.length + 1) 0 stdin world

/-! ## A session as a list of rounds

The lines of the input decide the rounds. Each round is one line with the answers of the kernel to
the calls made for it, so that a session is a `List` and its laws are inductions on it. -/

/-- The lines of an input, with their newlines. -/
def linesOf : Bytes → List Bytes
  | [] => []
  | c :: s =>
    if c = newline then [c] :: linesOf s
    else
      match linesOf s with
      | [] => [[c]]
      | line :: lines => (c :: line) :: lines

/-- What a round hands to `process_args`, and the answers it gets. -/
structure Round where
  kernel : Kernel
  argv : List Bytes

/-- The rounds up to the end of the input, or to the first prompt or `getline` that fails. -/
def rounds (t : Terminal) : Nat → List Bytes → List Round
  | _, [] => []
  | i, line :: lines =>
    if t.prompts i ∧ t.getlines i then ⟨t.kernel i, argTokens line⟩ :: rounds t (i + 1) lines
    else []

def session (t : Terminal) (stdin : Bytes) : List Round :=
  rounds t 0 (linesOf stdin)

def World.round (world : World) (r : Round) : World :=
  (dispatch r.kernel r.argv (world.printf prompt)).2

variable {t : Terminal} {k : Kernel} {world : World} {r : Round} {i : Nat}
  {s line rest stdin name p text : Bytes} {ws argv : List Bytes}

/-- There is no line only at the end of the input. -/
theorem getLine_none (h : getLine s = none) : s = [] := by
  cases s with
  | nil => rfl
  | cons c s =>
    unfold getLine at h
    by_cases hc : c = newline
    · rw [if_pos hc] at h
      cases h
    · rw [if_neg hc] at h
      cases hrest : getLine s with
      | none =>
        rw [hrest] at h
        cases h
      | some lr =>
        rw [hrest] at h
        cases h

/-- Induction on the bytes up to the newline. -/
theorem getLine_some (s : Bytes) : ∀ line rest, getLine s = some (line, rest) →
    linesOf s = line :: linesOf rest ∧ rest.length < s.length := by
  induction s with
  | nil => exact fun _ _ h => nomatch h
  | cons c s ih =>
    intro line rest h
    rw [getLine] at h
    rw [linesOf]
    by_cases hc : c = newline
    · rw [if_pos hc] at h ⊢
      cases h
      exact ⟨rfl, Nat.lt_succ_self _⟩
    · rw [if_neg hc] at h ⊢
      cases hrest : getLine s with
      | none =>
        -- the input ends without a newline
        rw [hrest] at h
        cases h
        rw [getLine_none hrest]
        exact ⟨rfl, Nat.lt_succ_self _⟩
      | some lr =>
        rw [hrest] at h
        cases h
        obtain ⟨hlines, hlength⟩ := ih _ _ hrest
        rw [hlines]
        exact ⟨rfl, Nat.lt_succ_of_lt hlength⟩

/-- What `getline` has left behind the NUL does not matter. -/
theorem argTokens_behind (line behind : Bytes) :
    argTokens (line ++ 0 :: behind) = argTokens line := by
  have hline : lineOf (line ++ 0 :: behind) = lineOf line := by
    unfold lineOf
    induction line with
    | nil => rfl
    | cons c line ih => rw [List.cons_append, List.takeWhile_cons, List.takeWhile_cons, ih]
  unfold argTokens
  rw [hline]

theorem World.printf_nil (world : World) : world.printf [] = world := by
  unfold World.printf
  rw [List.append_nil]

theorem mainLoop_succ (fuel : Nat) (hprompt : t.prompts i = true)
    (hline : t.getline i stdin = some (line, rest)) :
    mainLoop t (fuel + 1) i stdin world
      = mainLoop t fuel (i + 1) rest (world.round ⟨t.kernel i, argTokens line⟩) := by
  have hnul : 0 ∈ line ++ 0 :: t.behind i := List.mem_append_right _ List.mem_cons_self
  rw [mainLoop, if_pos hprompt, hline]
  show (processLine _ _ _).bind _ = _
  rw [processLine_dispatch hnul, argTokens_behind]
  rfl

/-- **The loop.** It ends, and apart from a last prompt it has made the rounds. Induction on the
rounds that the rest of the input is enough for. -/
theorem mainLoop_rounds (t : Terminal) (fuel : Nat) : ∀ (i : Nat) (stdin : Bytes) (world : World),
    stdin.length < fuel → ∃ last, mainLoop t fuel i stdin world
      = some (((rounds t i (linesOf stdin)).foldl World.round world).printf last) := by
  induction fuel with
  | zero => exact fun _ _ _ h => absurd h (Nat.not_lt_zero _)
  | succ fuel ih =>
    intro i stdin world hfuel
    cases hprompt : t.prompts i with
    | false =>
      have hnone : rounds t i (linesOf stdin) = [] := by
        cases linesOf stdin with
        | nil => rfl
        | cons line lines => exact if_neg fun h => Bool.false_ne_true (hprompt.symm.trans h.1)
      -- without a prompt there is no round
      rw [hnone, mainLoop, hprompt]
      exact ⟨[], congrArg some world.printf_nil.symm⟩
    | true =>
      cases hline : t.getline i stdin with
      | none =>
        -- the prompt has been printed and there is no line, by an error or at the end
        have hnone : rounds t i (linesOf stdin) = [] := by
          cases hget : t.getlines i with
          | false =>
            cases linesOf stdin with
            | nil => rfl
            | cons line lines => exact if_neg fun h => Bool.false_ne_true (hget.symm.trans h.2)
          | true =>
            unfold Terminal.getline at hline
            rw [if_pos hget] at hline
            rw [getLine_none hline]
            rfl
        rw [hnone, mainLoop, hprompt, hline]
        exact ⟨prompt, rfl⟩
      | some lr =>
        obtain ⟨line, rest⟩ := lr
        have hget : t.getlines i = true ∧ getLine stdin = some (line, rest) := by
          unfold Terminal.getline at hline
          cases hget : t.getlines i with
          | false =>
            rw [hget] at hline
            cases hline
          | true =>
            rw [hget] at hline
            exact ⟨rfl, hline⟩
        -- one round more: the line is the first of the input, and the rest is shorter
        obtain ⟨hlines, hlength⟩ := getLine_some stdin line rest hget.2
        obtain ⟨last, hloop⟩ := ih (i + 1) rest (world.round ⟨t.kernel i, argTokens line⟩)
          (by omega)
        refine ⟨last, ?_⟩
        rw [mainLoop_succ fuel hprompt hline, hloop, hlines, rounds, if_pos ⟨hprompt, hget.1⟩]
        rfl

/-- The loop ends with the files and the output of its rounds. -/
theorem main_rounds (t : Terminal) (stdin : Bytes) (world : World) :
    ∃ last, main t stdin world
      = some (((session t stdin).foldl World.round world).printf last) :=
  mainLoop_rounds t _ 0 stdin world (Nat.lt_succ_self _)

/-! ## What a round does to the disk

Only `append` changes a file. The other commands that are looked at here leave the disk alone, and
`cat` also writes to descriptor 1. -/

/-- What the shell is for: files, and what `cat` has written of them to descriptor `1`. What
`printf` puts there, the prompts and the words of `echo` among it, is no part of it. -/
structure Disk where
  files : Files
  out : Bytes

/-- A file that does not exist has nothing in it. -/
def Disk.content (d : Disk) (p : Bytes) : Bytes :=
  (d.files p).getD []

def Disk.append (d : Disk) (path text : Bytes) : Disk :=
  { d with files := fun p => if p = path then some (d.content path ++ text) else d.files p }

def Disk.cat (d : Disk) (path : Bytes) : Disk :=
  { d with out := d.out ++ d.content path }

/-- One line of a session. -/
def Disk.run (d : Disk) : List Bytes → Disk
  | name :: path :: ws =>
    if name = catName then d.cat path
    else if name = appendName then
      match ws with
      | text :: _ => d.append path (text ++ [newline])
      | [] => d
    else d
  | _ => d

def World.disk (world : World) : Disk :=
  ⟨world.files, world.written⟩

/-- What a round adds to the file `p`: the two writes may be short, or fail. -/
def added (p : Bytes) (r : Round) : Bytes :=
  match r.argv with
  | name :: path :: text :: _ =>
    if name = appendName ∧ path = p ∧ r.kernel.opens path then (append r.kernel [] text).2 else []
  | _ => []

/-- The commands that are one call with a path. -/
def pathNames : List Bytes :=
  [literal "cd", literal "rm", literal "rmdir", literal "mkdir"]

/-- A command that neither changes a file nor calls `write` for descriptor `1`; it may print. -/
def Quiet (func : Command) : Prop :=
  ∀ k argv world, (func k argv world).2.disk = world.disk

/-- A command that leaves the disk alone on both of its paths leaves it alone. -/
theorem ite_disk {c : Prop} [Decidable c] {x y : Int32 × World} (hx : x.2.disk = world.disk)
    (hy : y.2.disk = world.disk) : (if c then x else y).2.disk = world.disk := by
  by_cases hc : c
  · rw [if_pos hc]
    exact hx
  · rw [if_neg hc]
    exact hy

/-- The check of the arguments only prints. -/
theorem requirePathArg_disk (argv : List Bytes) (world : World) :
    (requirePathArg argv world).2.disk = world.disk :=
  ite_disk rfl rfl

theorem funcEcho_quiet : Quiet funcEcho :=
  fun _ _ _ => rfl

theorem funcLs_quiet : Quiet funcLs := by
  intro k argv world
  unfold funcLs
  dsimp only
  cases k.opendir (if argv.length > 1 then arg argv 1 else literal ".") with
  | none => rfl
  | some entries => rfl

theorem funcStat_quiet : Quiet funcStat := by
  intro k argv world
  have hsame := requirePathArg_disk argv world
  unfold funcStat
  generalize requirePathArg argv world = checked at hsame ⊢
  obtain ⟨r, world₁⟩ := checked
  show (if r = -1 then _ else _ : Int32 × World).2.disk = _
  refine ite_disk (x := (-1, world₁)) hsame ?_
  cases k.stat (arg argv 1) with
  | none => exact hsame
  | some values => exact hsame

theorem funcSize_quiet : Quiet funcSize := by
  intro k argv world
  have hsame := requirePathArg_disk argv world
  unfold funcSize
  generalize requirePathArg argv world = checked at hsame ⊢
  obtain ⟨r, world₁⟩ := checked
  show (if r = -1 then _ else _ : Int32 × World).2.disk = _
  refine ite_disk (x := (-1, world₁)) hsame ?_
  cases k.openRead (arg argv 1) world₁.files with
  | none => exact hsame
  | some content => exact ite_disk (x := (-1, world₁)) hsame hsame

/-- A report changes nothing on the disk. -/
theorem dispatch_disk {func : Command}
    (hfind : funcTable.find? (fun f => f.name == name) = some ⟨func, name⟩) (ws : List Bytes) :
    (dispatch k (name :: ws) world).2.disk = (func k (name :: ws) world).2.disk := by
  rw [dispatch_of_find hfind]
  by_cases hret : (func k (name :: ws) world).1 = -1
  · rw [if_pos hret]
    rfl
  · rw [if_neg hret]

/-- The commands that leave the disk alone, the unknown ones among them. -/
theorem dispatch_quiet (hname : arg argv 0 ∉ catName :: appendName :: pathNames) :
    (dispatch k argv world).2.disk = world.disk := by
  cases argv with
  | nil => rfl
  | cons name ws =>
    cases hfind : funcTable.find? (fun f => f.name == name) with
    | none =>
      have hnone : funcTable.find? (fun f => f.name == arg (name :: ws) 0) = none := hfind
      unfold dispatch
      rw [if_neg (List.cons_ne_nil _ _ ∘ List.length_eq_zero_iff.mp), hnone]
      rfl
    | some f =>
      obtain ⟨func, name'⟩ := f
      obtain rfl : name' = name := by simpa using List.find?_some hfind
      rw [dispatch_disk hfind]
      have hmem := List.mem_of_find?_eq_some hfind
      have hne : name' ∉ catName :: appendName :: pathNames := hname
      simp only [pathNames, List.mem_cons, List.not_mem_nil, or_false, not_or] at hne
      simp only [funcTable, List.mem_cons, List.not_mem_nil, or_false, Func.mk.injEq] at hmem
      rcases hmem with h | h | h | h | h | h | h | h | h | h
      · exact h.1 ▸ funcEcho_quiet k _ world
      · exact h.1 ▸ funcLs_quiet k _ world
      · exact absurd h.2 hne.2.2.1
      · exact absurd h.2 hne.2.2.2.1
      · exact absurd h.2 hne.2.2.2.2.1
      · exact absurd h.2 hne.2.2.2.2.2
      · exact absurd h.2 hne.1
      · exact absurd h.2 hne.2.1
      · exact h.1 ▸ funcStat_quiet k _ world
      · exact h.1 ▸ funcSize_quiet k _ world

/-- `cat` with a path; the words behind the path do not matter. -/
theorem dispatch_cat (k : Kernel) (path : Bytes) (ws : List Bytes) (world : World) :
    (dispatch k (catName :: path :: ws) world).2.disk
      = match k.openRead path world.files with
        | none => world.disk
        | some content => { world.disk with out := world.written ++ cat k content } := by
  have hpath : arg (catName :: path :: ws) 1 = path := rfl
  rw [dispatch_disk rfl, funcCat_cons catName (List.cons_ne_nil _ _), hpath]
  cases k.openRead path world.files with
  | none => rfl
  | some content => rfl

/-- `append` with a path and a text. -/
theorem dispatch_append (k : Kernel) (path text : Bytes) (ws : List Bytes) (world : World) :
    (dispatch k (appendName :: path :: text :: ws) world).2.disk
      = if k.opens path then world.disk.append path (append k [] text).2 else world.disk := by
  have hpath : arg (appendName :: path :: text :: ws) 1 = path := rfl
  have htext : arg (appendName :: path :: text :: ws) 2 = text := rfl
  have hlength : 2 ≤ (path :: text :: ws).length := by
    rw [List.length_cons, List.length_cons]
    omega
  have hadded : ∀ content, (append k content text).2 = content ++ (append k [] text).2 := by
    intro content
    unfold append
    cases k.write 0 text with
    | none => exact (List.append_nil content).symm
    | some n =>
      cases k.write 1 [newline] with
      | none => rfl
      | some m => exact List.append_assoc _ _ _
  rw [dispatch_disk rfl, funcAppend_cons appendName hlength, hpath, htext]
  unfold Kernel.openAppend
  cases k.opens path with
  | false => rfl
  | true =>
    show (world.store path (append k ((world.files path).getD []) text).2).disk = _
    rw [hadded]
    rfl

/-- `cat` and `append` without what they need. -/
theorem dispatch_short (hname : name = catName ∧ ws = [] ∨ name = appendName ∧ ws.length < 2) :
    (dispatch k (name :: ws) world).2.disk = world.disk := by
  cases hname with
  | inl h =>
    rw [h.1, h.2, dispatch_disk rfl]
    rfl
  | inr h =>
    have hcount : (appendName :: ws).length < 3 := by
      rw [List.length_cons]
      omega
    rw [h.1, dispatch_disk rfl]
    unfold funcAppend
    show (if _ ∨ _ then _ else _ : Int32 × World).2.disk = _
    rw [if_pos (Or.inr hcount)]
    exact requirePathArg_disk _ world

/-! ## The kinds of rounds

A round is one of `cat`, one of `append`, or one that the disk does not see. The commands that
change directories or remove files are excluded by the hypotheses of the laws. -/

/-- The rounds that are not one of the path commands. -/
inductive Kind : List Bytes → Prop where
  | cat (path : Bytes) (ws : List Bytes) : Kind (catName :: path :: ws)
  | append (path text : Bytes) (ws : List Bytes) : Kind (appendName :: path :: text :: ws)
  | quiet {argv : List Bytes} (disk : ∀ k world, (dispatch k argv world).2.disk = world.disk)
      (run : ∀ d : Disk, d.run argv = d) (added : ∀ p k, added p ⟨k, argv⟩ = []) : Kind argv

/-- The two names differ, so the kinds do not overlap. -/
theorem catName_ne_appendName : catName ≠ appendName := by
  decide

/-- A round of the third kind leaves the disk as it is. -/
theorem run_other (hcat : name ≠ catName) (happend : name ≠ appendName) (d : Disk) :
    d.run (name :: ws) = d := by
  cases ws with
  | nil => rfl
  | cons path ws => exact (if_neg hcat).trans (if_neg happend)

theorem added_other (happend : name ≠ appendName) (p : Bytes) (k : Kernel) :
    added p ⟨k, name :: ws⟩ = [] := by
  match ws with
  | [] => rfl
  | [_] => rfl
  | _ :: _ :: _ => exact if_neg fun h => happend h.1

/-- Every round that names no directory command is of one of the kinds. -/
theorem kind (hname : arg argv 0 ∉ pathNames) : Kind argv := by
  cases argv with
  | nil => exact .quiet (fun _ _ => rfl) (fun _ => rfl) fun _ _ => rfl
  | cons name ws =>
    by_cases hcat : name = catName
    · subst hcat
      cases ws with
      | nil =>
        exact .quiet (fun _ _ => dispatch_short (Or.inl ⟨rfl, rfl⟩)) (fun _ => rfl) fun _ _ => rfl
      | cons path ws => exact .cat path ws
    · by_cases happend : name = appendName
      · subst happend
        match ws with
        | [] =>
          exact .quiet (fun _ _ => dispatch_short (Or.inr ⟨rfl, by decide⟩)) (fun _ => rfl)
            fun _ _ => rfl
        | [path] =>
          exact .quiet (fun _ _ => dispatch_short (Or.inr ⟨rfl, Nat.lt_succ_self _⟩)) (fun _ => rfl)
            fun _ _ => rfl
        | path :: text :: ws => exact .append path text ws
      · have hquiet : arg (name :: ws) 0 ∉ catName :: appendName :: pathNames := by
          rw [List.mem_cons, List.mem_cons]
          exact not_or.mpr ⟨hcat, not_or.mpr ⟨happend, hname⟩⟩
        exact .quiet (fun _ _ => dispatch_quiet hquiet) (run_other hcat happend)
          (added_other happend)

/-! ## No file loses a byte

Files only grow: each round puts what it appends behind the content. -/

/-- An `append` to a path makes the content of that path longer, and no other. -/
theorem Disk.content_append (d : Disk) (path text p : Bytes) :
    (d.append path text).content p = d.content p ++ if path = p then text else [] := by
  show (if p = path then some (d.content path ++ text) else d.files p).getD [] = _
  by_cases hp : path = p
  · rw [if_pos hp.symm, if_pos hp, hp]
    rfl
  · rw [if_neg (Ne.symm hp), if_neg hp, List.append_nil]
    rfl

theorem round_content (world : World) (p : Bytes) (hname : arg r.argv 0 ∉ pathNames) :
    (world.round r).disk.content p = world.disk.content p ++ added p r := by
  obtain ⟨k, argv⟩ := r
  unfold World.round
  cases kind hname with
  | cat path ws =>
    rw [dispatch_cat, added_other catName_ne_appendName, List.append_nil]
    cases k.openRead path (world.printf prompt).files with
    | none => rfl
    | some content => rfl
  | append path text ws =>
    rw [dispatch_append]
    show _ = _ ++ if appendName = appendName ∧ path = p ∧ k.opens path then _ else _
    by_cases hopen : k.opens path = true
    · rw [if_pos hopen, Disk.content_append]
      by_cases hp : path = p
      · rw [if_pos hp, if_pos ⟨rfl, hp, hopen⟩]
        rfl
      · rw [if_neg hp, if_neg fun h => hp h.2.1]
        rfl
    · rw [if_neg hopen, if_neg fun h => hopen h.2.2, List.append_nil]
      rfl
  | quiet disk _ hadded =>
    rw [disk, hadded, List.append_nil]
    rfl

/-- The content after a session is the old one with everything that was appended to it, in order.
Induction on the rounds. -/
theorem rounds_content (p : Bytes) (rs : List Round) (hname : ∀ r ∈ rs, arg r.argv 0 ∉ pathNames) :
    ∀ world : World, (rs.foldl World.round world).disk.content p
      = world.disk.content p ++ rs.flatMap (added p) := by
  induction rs with
  | nil => exact fun _ => (List.append_nil _).symm
  | cons r rs ih =>
    intro world
    rw [List.foldl_cons, ih (fun r hr => hname r (List.mem_cons_of_mem _ hr)),
      round_content world p (hname r List.mem_cons_self), List.flatMap_cons, List.append_assoc]

/-- The rounds are rounds of the lines. -/
theorem mem_rounds (lines : List Bytes) : ∀ i, ∀ r ∈ rounds t i lines,
    ∃ line ∈ lines, ∃ j, r = ⟨t.kernel j, argTokens line⟩ := by
  induction lines with
  | nil => exact fun _ _ h => absurd h List.not_mem_nil
  | cons line lines ih =>
    intro i r hr
    unfold rounds at hr
    by_cases hcalls : t.prompts i = true ∧ t.getlines i = true
    · rw [if_pos hcalls] at hr
      cases List.mem_cons.mp hr with
      | inl h => exact ⟨line, List.mem_cons_self, i, h⟩
      | inr h =>
        obtain ⟨line', hmem, hround⟩ := ih (i + 1) r h
        exact ⟨line', List.mem_cons_of_mem _ hmem, hround⟩
    · rw [if_neg hcalls] at hr
      exact absurd hr List.not_mem_nil

/-- The rounds of a session have the names of its lines. -/
theorem session_name (hname : ∀ line ∈ linesOf stdin, arg (argTokens line) 0 ∉ pathNames) :
    ∀ r ∈ session t stdin, arg r.argv 0 ∉ pathNames := by
  intro r hr
  obtain ⟨line, hmem, j, hround⟩ := mem_rounds _ 0 r hr
  rw [hround]
  exact hname line hmem

/-- **No file loses a byte.** In a session without path commands a file ends with its old content
and, behind it, what each `append` to it has transferred. -/
theorem session_appends (t : Terminal) (stdin : Bytes) (world : World)
    (hname : ∀ line ∈ linesOf stdin, arg (argTokens line) 0 ∉ pathNames) :
    ∃ world', main t stdin world = some world'
      ∧ ∀ p, world'.disk.content p
        = world.disk.content p ++ (session t stdin).flatMap (added p) := by
  obtain ⟨last, hmain⟩ := main_rounds t stdin world
  exact ⟨_, hmain, fun p => rounds_content p _ (session_name hname) world⟩

/-- Every round gets the same answers, and the buffer of `getline` is new. -/
def Terminal.always (k : Kernel) : Terminal where
  kernel _ := k
  prompts _ := true
  getlines _ := true
  behind _ := []

/-- Each write takes one byte, so the file gets the first one of the text, and a newline. -/
theorem session_appends_short : ∃ world',
    main (.always faulty) (literal "append f hi\nappend g\nappend f yo\n") oneFile = some world'
      ∧ world'.disk.content (literal "f") = [104] ++ literal "h\ny\n" := by
  obtain ⟨world', hmain, hcontent⟩ :=
    session_appends (.always faulty) (literal "append f hi\nappend g\nappend f yo\n") oneFile
      (by decide)
  refine ⟨world', hmain, (hcontent _).trans ?_⟩
  decide

/-! ## Sessions without a failing call

If no call fails or writes less than it was asked, a session does what its commands say. The
faithful world then refines the disk, where each command is one operation. -/

/-- No call fails, and a write takes all it is given; a read may stop early. -/
def Whole (r : Round) : Prop :=
  r.kernel.opens (arg r.argv 1) = true
    ∧ ∀ i, ∃ n m, r.kernel.reads i = some n ∧ r.kernel.writes i = some m
      ∧ 4096 ≤ m ∧ (arg r.argv 2).length ≤ m

/-- A `write` that fits is not cut short. -/
theorem Whole.write (h : Whole r) (i : Nat) (buf : Bytes)
    (hbuf : buf.length ≤ 4096 ∨ buf.length ≤ (arg r.argv 2).length) :
    r.kernel.write i buf = some buf.length := by
  obtain ⟨n, m, _, hwrite, hchunk, htext⟩ := h.2 i
  have hle : buf.length ≤ m := by
    cases hbuf with
    | inl hbuf => exact Nat.le_trans hbuf hchunk
    | inr hbuf => exact Nat.le_trans hbuf htext
  unfold Kernel.write
  rw [hwrite]
  exact congrArg some (Nat.min_eq_right hle)

/-- So `cat` writes the whole file. -/
theorem Whole.cat_eq (h : Whole r) (content : Bytes) : cat r.kernel content = content := by
  rw [cat_eq_iff]
  intro i _
  obtain ⟨n, m, hread, _⟩ := h.2 i
  refine ⟨(left r.kernel content i).take (min (n + 1) 4096), ?_, ?_⟩
  · unfold Kernel.read
    rw [hread]
    rfl
  · apply h.write
    left
    rw [List.length_take]
    omega

/-- So `append` puts its whole text and a newline behind the file. -/
theorem Whole.append_eq (h : Whole r) :
    (append r.kernel [] (arg r.argv 2)).2 = arg r.argv 2 ++ [newline] := by
  unfold append
  rw [h.write 0 (arg r.argv 2) (Or.inr (Nat.le_refl _)), h.write 1 [newline] (Or.inl (by decide))]
  show [] ++ (arg r.argv 2).take _ ++ [newline].take _ = _
  rw [List.nil_append, List.take_length, List.take_length]

theorem round_run (world : World) (hname : arg r.argv 0 ∉ pathNames) (h : Whole r) :
    (world.round r).disk = world.disk.run r.argv := by
  obtain ⟨k, argv⟩ := r
  unfold World.round
  cases kind hname with
  | cat path ws =>
    have hopen : k.openRead path (world.printf prompt).files = world.files path := if_pos h.1
    rw [dispatch_cat, hopen]
    show _ = world.disk.cat path
    unfold Disk.cat Disk.content
    show _ = ({ files := _, out := _ ++ (world.files path).getD [] } : Disk)
    cases world.files path with
    | none =>
      rw [Option.getD_none, List.append_nil]
      rfl
    | some content =>
      show ({ files := _, out := _ ++ cat k content } : Disk) = _
      rw [h.cat_eq content]
      rfl
  | append path text ws =>
    have hopen : k.opens path = true := h.1
    have hadded : (append k [] text).2 = text ++ [newline] := h.append_eq
    rw [dispatch_append, if_pos hopen, hadded]
    rfl
  | quiet disk run _ =>
    rw [disk, run]
    rfl

/-- Round for round the world changes as the disk does. Induction on the rounds. -/
theorem rounds_run (rs : List Round) (hname : ∀ r ∈ rs, arg r.argv 0 ∉ pathNames)
    (hwhole : ∀ r ∈ rs, Whole r) : ∀ world : World,
    (rs.foldl World.round world).disk = (rs.map Round.argv).foldl Disk.run world.disk := by
  induction rs with
  | nil => exact fun _ => rfl
  | cons r rs ih =>
    intro world
    rw [List.foldl_cons, ih (fun r hr => hname r (List.mem_cons_of_mem _ hr))
      fun r hr => hwhole r (List.mem_cons_of_mem _ hr),
      round_run world (hname r List.mem_cons_self) (hwhole r List.mem_cons_self)]
    rfl

/-- The rounds of the session have the arguments of its lines, if every prompt and every line is
read. -/
theorem rounds_argv (hcalls : ∀ i, t.prompts i = true ∧ t.getlines i = true)
    (lines : List Bytes) : ∀ i, (rounds t i lines).map Round.argv = lines.map argTokens := by
  induction lines with
  | nil => exact fun _ => rfl
  | cons line lines ih =>
    intro i
    rw [rounds, if_pos (hcalls i), List.map_cons, List.map_cons, ih]

/-- **A session is what its lines say.** If no call fails, the shell has appended and shown what
the lines ask for, one after the other. -/
theorem session_refines (t : Terminal) (stdin : Bytes) (world : World)
    (hname : ∀ line ∈ linesOf stdin, arg (argTokens line) 0 ∉ pathNames)
    (hcalls : ∀ i, t.prompts i = true ∧ t.getlines i = true)
    (hwhole : ∀ r ∈ session t stdin, Whole r) :
    ∃ world', main t stdin world = some world'
      ∧ world'.disk = ((linesOf stdin).map argTokens).foldl Disk.run world.disk := by
  obtain ⟨last, hmain⟩ := main_rounds t stdin world
  refine ⟨_, hmain, ?_⟩
  rw [← rounds_argv hcalls (linesOf stdin) 0]
  exact rounds_run _ (session_name hname) hwhole world

/-- No call fails, and a transfer is at most a page. -/
def Kernel.willing : Kernel :=
  { Kernel.failing with
    opens := fun _ => true, reads := fun _ => some 4095, writes := fun _ => some 4096 }

/-- What has been appended is shown. -/
theorem session_refines_cat : ∃ world',
    main (.always .willing) (literal "append f a\n\nappend f b\ncat f") .empty = some world'
      ∧ world'.disk.out = literal "a\nb\n" := by
  have hwhole : ∀ r ∈ session (.always .willing) (literal "append f a\n\nappend f b\ncat f"),
      Whole r := by
    intro r hr
    obtain ⟨line, hmem, j, hround⟩ := mem_rounds _ 0 r hr
    have hshort : ∀ line ∈ linesOf (literal "append f a\n\nappend f b\ncat f"),
        (arg (argTokens line) 2).length ≤ 4096 := by
      decide
    rw [hround]
    exact ⟨rfl, fun _ => ⟨4095, 4096, rfl, rfl, Nat.le_refl _, hshort line hmem⟩⟩
  obtain ⟨world', hmain, hdisk⟩ :=
    session_refines (.always .willing) (literal "append f a\n\nappend f b\ncat f") .empty
      (by decide) (fun _ => ⟨rfl, rfl⟩) hwhole
  refine ⟨world', hmain, (congrArg Disk.out hdisk).trans ?_⟩
  decide

end HseDev.Sem12
