import HseDev.Sem12.ProcessLine

/-!
# HseDev — the commands of `sem12/main.c`

`process_args` looks the first word up in `func_table` and calls the function it finds; a
function that returns `-1` is reported with `perror`.

* **`Kernel`** — what the calls of one command answer. An answer to `read` or `write` is a count
  that is cut to what the call can transfer, so every sequence of results has one.
* **`World`** — what a command acts on: the text that `printf` has been given, the bytes that
  descriptor `1` has accepted from `write`, the regular files, and the reports of `perror`.
* **`funcTable`** / **`processArgs`** — the dispatch; **`processArgs_of_find`** is its only rule
  below.
-/

namespace HseDev.Sem12

open CString

/-! ## What the commands act on

The world of a command: the files by their paths, what has been written to descriptor 1 and what
`printf` has printed. -/

/-- The contents of the regular files. Each of them is finite and has one path, so `a` and `./a`
are not both in use; and neither standard input nor standard output is one of them, so that a
copy to the output changes no file and an `append` no line that is still to be read. -/
abbrev Files := Bytes → Option Bytes

structure World where
  printed : Bytes
  written : Bytes
  files : Files
  complaints : List Bytes

def World.printf (world : World) (text : Bytes) : World :=
  { world with printed := world.printed ++ text }

/-- The file at the path gets a new content. -/
def World.store (world : World) (path content : Bytes) : World :=
  { world with files := fun p => if p = path then some content else world.files p }

/-- A stored file holds what was stored. -/
theorem World.store_files (world : World) (path content : Bytes) :
    (world.store path content).files path = some content :=
  if_pos rfl

/-- `perror(s)`, without the text of the error. -/
def World.perror (world : World) (s : Bytes) : World :=
  { world with complaints := world.complaints ++ [s] }

/-- The calls that get a path and nothing else. -/
inductive PathCall where
  | chdir
  | remove
  | rmdir
  | mkdir
  deriving DecidableEq, Repr

/-- `unspecified` is the value of a function that ends without a `return`. The `i`-th answer to
`read` and to `write` is `none` for `-1`. -/
structure Kernel where
  unspecified : Int32
  pathCall : PathCall → Bytes → Files → Int32 × Files
  opendir : Bytes → Option (List Bytes)
  stat : Bytes → Option (Int64 × UInt64)
  lseek : Bytes → Int64
  opens : Bytes → Bool
  reads : Nat → Option Nat
  writes : Nat → Option Nat

/-- Every call fails. -/
def Kernel.failing : Kernel where
  unspecified := -1
  pathCall _ _ files := (-1, files)
  opendir _ := none
  stat _ := none
  lseek _ := -1
  opens _ := false
  reads _ := none
  writes _ := none

/-- Nothing printed or written, and no file. -/
def World.empty : World :=
  ⟨[], [], fun _ => none, []⟩

/-- `open(path, O_RDONLY)`: the file's content, if the call succeeds. -/
def Kernel.openRead (k : Kernel) (path : Bytes) (files : Files) : Option Bytes :=
  if k.opens path then files path else none

/-- `open(path, O_APPEND | O_CREAT | O_WRONLY, MODE_CREATE_DEFAULT)` -/
def Kernel.openAppend (k : Kernel) (path : Bytes) (files : Files) : Option Bytes :=
  if k.opens path then some ((files path).getD []) else none

/-- The `i`-th read of a file of which `unread` is left, into a buffer of 4096 bytes: at least
one byte, unless none is left. -/
def Kernel.read (k : Kernel) (i : Nat) (unread : Bytes) : Option Bytes :=
  (k.reads i).map fun n => unread.take (min (n + 1) 4096)

/-- How many bytes of `buf` the `i`-th write transfers. -/
def Kernel.write (k : Kernel) (i : Nat) (buf : Bytes) : Option Nat :=
  (k.writes i).map fun n => min n buf.length

/-! ## The commands -/

abbrev Command := Kernel → List Bytes → World → Int32 × World

/-- `argv[i]`; no command asks for one that it has not counted. -/
def arg (argv : List Bytes) (i : Nat) : Bytes :=
  argv.getD i []

def requirePathArg (argv : List Bytes) (world : World) : Int32 × World :=
  if argv.length = 1 then (-1, world.printf (literal "Usage: " ++ arg argv 0 ++ literal " path\n"))
  else (0, world)

/-- The text of one `printf` of `func_echo`. -/
def echoWord (argv : List Bytes) (i : Nat) : Bytes :=
  if i + 1 = argv.length then arg argv i ++ [newline] else arg argv i ++ [space]

def funcEcho : Command := fun k argv world =>
  (k.unspecified, world.printf ((List.range' 1 (argv.length - 1)).flatMap (echoWord argv)))

def funcLs : Command := fun k argv world =>
  let currentPath := if argv.length > 1 then arg argv 1 else literal "."
  match k.opendir currentPath with
  | none => (-1, world)
  | some entries => (k.unspecified, world.printf (entries.flatMap (· ++ [newline])))

/-- A command that checks its argument and makes one call. -/
def pathCommand (call : PathCall) : Command := fun k argv world =>
  let (r, world) := requirePathArg argv world
  if r = -1 then (-1, world)
  else
    let (r, files) := k.pathCall call (arg argv 1) world.files
    (r, { world with files })

def funcCd : Command := pathCommand .chdir
def funcRm : Command := pathCommand .remove
def funcRmdir : Command := pathCommand .rmdir
def funcMkdir : Command := pathCommand .mkdir

/-- The loop of `func_cat`, from its `i`-th round on: what it adds to descriptor `1`. -/
def catLoop (k : Kernel) : Nat → Nat → Bytes → Bytes → Option Bytes
  | 0, _, _, _ => none
  | fuel + 1, i, unread, out =>
    match k.read i unread with
    | none => some out
    | some buf =>
      if buf.length = 0 then some out
      else
        match k.write i buf with
        | none => some out
        | some n =>
          if n ≠ buf.length then some (out ++ buf.take n)
          else catLoop k fuel (i + 1) (unread.drop buf.length) (out ++ buf.take n)

/-- Every round but the last takes a byte from the file. -/
def cat (k : Kernel) (content : Bytes) : Bytes :=
  (catLoop k (content.length + 1) 0 content []).getD []

def funcCat : Command := fun k argv world =>
  let (r, world) := requirePathArg argv world
  if r = -1 then (-1, world)
  else
    match k.openRead (arg argv 1) world.files with
    | none => (-1, world)
    | some content => (0, { world with written := world.written ++ cat k content })

/-- The two writes of `func_append`, and whether one of them failed: the second one is made only
if the first did not fail. -/
def append (k : Kernel) (content text : Bytes) : Bool × Bytes :=
  match k.write 0 text with
  | none => (true, content)
  | some n =>
    match k.write 1 [newline] with
    | none => (true, content ++ text.take n)
    | some m => (false, content ++ text.take n ++ [newline].take m)

def funcAppend : Command := fun k argv world =>
  let (r, world) := requirePathArg argv world
  if r = -1 ∨ argv.length < 3 then (-1, world)
  else
    match k.openAppend (arg argv 1) world.files with
    | none => (-1, world)
    | some content =>
      let (error, content) := append k content (arg argv 2)
      (if error then -1 else 0, world.store (arg argv 1) content)

/-- A line of `func_stat` and `func_size`. -/
def fieldLine (field value : Bytes) : Bytes :=
  field ++ literal ": " ++ value ++ [newline]

def funcStat : Command := fun k argv world =>
  let (r, world) := requirePathArg argv world
  if r = -1 then (-1, world)
  else
    match k.stat (arg argv 1) with
    | none => (-1, world)
    | some (size, mode) =>
      (0, world.printf (fieldLine (literal "name") (arg argv 1)
        ++ fieldLine (literal "size") (literal (toString size.toInt))
        ++ fieldLine (literal "mode") (literal (toString mode.toNat))))

def funcSize : Command := fun k argv world =>
  let (r, world) := requirePathArg argv world
  if r = -1 then (-1, world)
  else
    match k.openRead (arg argv 1) world.files with
    | none => (-1, world)
    | some _ =>
      let res := k.lseek (arg argv 1)
      if res = -1 then (-1, world)
      else
        (0, world.printf (fieldLine (literal "name") (arg argv 1)
          ++ fieldLine (literal "size") (literal (toString res.toInt))))

/-! ## The dispatch

`process_args` looks its first argument up in `func_table`, and the command it finds does the rest.
-/

structure Func where
  func : Command
  name : Bytes

def funcTable : List Func :=
  [⟨funcEcho, literal "echo"⟩,
   ⟨funcLs, literal "ls"⟩,
   ⟨funcCd, literal "cd"⟩,
   ⟨funcRm, literal "rm"⟩,
   ⟨funcRmdir, literal "rmdir"⟩,
   ⟨funcMkdir, literal "mkdir"⟩,
   ⟨funcCat, literal "cat"⟩,
   ⟨funcAppend, literal "append"⟩,
   ⟨funcStat, literal "stat"⟩,
   ⟨funcSize, literal "size"⟩]

/-- `process_args` with the strings that `argv` points to. -/
def dispatch (k : Kernel) (argv : List Bytes) (world : World) : Int32 × World :=
  if argv.length = 0 then (0, world)
  else
    match funcTable.find? fun f => f.name == arg argv 0 with
    | some f =>
      let (r, world) := f.func k argv world
      if r = -1 then (-1, world.perror (arg argv 0)) else (0, world)
    | none => (0, world.printf (literal "func not found: " ++ arg argv 0 ++ [newline]))

/-- `none`: a pointer in `argv` is not one to a string. -/
def processArgs (k : Kernel) (args : Args) (world : World) : Option (Int32 × World) := do
  let argv ← args.strings
  some (dispatch k argv world)

variable {k : Kernel} {argv : List Bytes} {world : World} {s name : Bytes}
  {func : Command}

/-- What `process_args` does with the result of a function it has found. -/
theorem dispatch_of_find {ws : List Bytes}
    (hfind : funcTable.find? (fun f => f.name == name) = some ⟨func, name⟩) :
    dispatch k (name :: ws) world = if (func k (name :: ws) world).1 = -1
      then (-1, (func k (name :: ws) world).2.perror name)
      else (0, (func k (name :: ws) world).2) := by
  have hname : arg (name :: ws) 0 = name := rfl
  unfold dispatch
  rw [if_neg nofun, hname, hfind]

theorem requirePathArg_cons {ws : List Bytes} (name : Bytes) (world : World) (hne : ws ≠ []) :
    requirePathArg (name :: ws) world = (0, world) := by
  unfold requirePathArg
  apply if_neg
  intro h
  exact hne (List.length_eq_zero_iff.mp (Nat.succ.inj h))

/-- **A line of the shell**: the dispatch gets the tokens of the line. Whatever the buffer holds
behind the line, and whatever the commands then do. The parser and the commands can therefore be
looked at one after the other. -/
theorem processLine_dispatch (hnul : 0 ∈ s) (k : Kernel) (world : World) :
    processLine (processArgs k) s world = some (dispatch k (argTokens s) world) := by
  obtain ⟨st, done, rest, hsplit, h, _⟩ := splitLine_spec hnul
  unfold processLine
  rw [hsplit]
  show processArgs k st.args world = _
  unfold processArgs
  rw [h.strings_eq]
  rfl

end HseDev.Sem12
