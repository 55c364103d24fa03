import HseDev.Sem12.Commands

/-!
# HseDev — `echo` of `sem12/main.c`

`func_echo` ends each word but the last with a space and the last one with a newline. What it
prints for a line is the line with its spaces normalised, cut to the words that fit `buf`; the
same again for the normalised line.

* **`echoText`** — the words joined by single spaces, with a newline behind them.
* **`dispatch_echo`** — what the command prints. Its return value is whatever the caller finds,
  and decides only about a report of `perror`.
* **`argTokens_echo`** — the tokens of the line that `echo` and its own text make up.
* **`echo_idempotent`** — both together.
-/

namespace HseDev.Sem12

open Words CString

variable {k : Kernel} {argv ws : List Bytes} {world : World} {s w : Bytes}

def echoName : Bytes := literal "echo"

/-- Nothing for no words. -/
def echoText (ws : List Bytes) : Bytes :=
  if ws = [] then [] else [space].intercalate ws ++ [newline]

/-! ## What the command prints

The arguments behind the name, with a blank between any two and a newline at the end; without an
argument nothing at all. -/

/-- The calls of `printf` from the word at the index `i` on. Induction on the words left. -/
theorem echoWords_eq (ws : List Bytes) :
    ∀ (argv : List Bytes) (i : Nat), argv.drop i = ws →
      (List.range' i ws.length).flatMap (echoWord argv) = echoText ws := by
  induction ws with
  | nil => exact fun _ _ _ => rfl
  | cons w ws ih =>
    intro argv i hdrop
    have hlength : i + (ws.length + 1) = argv.length := by
      have h := congrArg List.length hdrop
      rw [List.length_drop, List.length_cons] at h
      omega
    -- the word at `i` is the first of those that are left
    have hword : arg argv i = w := by
      have h := congrArg (·[0]?) hdrop
      rw [List.getElem?_drop] at h
      show argv.getD i [] = w
      rw [List.getD_eq_getElem?_getD]
      exact congrArg (·.getD []) h
    have hrest : argv.drop (i + 1) = ws := by
      rw [← List.drop_drop, hdrop]
      rfl
    rw [List.length_cons, List.range'_succ, List.flatMap_cons, ih argv (i + 1) hrest]
    unfold echoWord
    rw [hword]
    cases ws with
    -- the last word has the newline behind it
    | nil =>
      rw [if_pos (by simpa using hlength)]
      show w ++ [newline] ++ [] = [space].intercalate [w] ++ [newline]
      rw [List.append_nil, List.intercalate_singleton]
    | cons v vs =>
      have hnot : i + 1 ≠ argv.length := by
        rw [List.length_cons] at hlength
        omega
      rw [if_neg hnot]
      show w ++ [space] ++ ([space].intercalate (v :: vs) ++ [newline])
        = [space].intercalate (w :: v :: vs) ++ [newline]
      rw [List.intercalate_cons_cons]
      simp only [List.append_assoc]

/-- The command prints the text of its arguments. What it returns is not specified, since the
function ends without a `return`. -/
theorem funcEcho_eq (k : Kernel) (argv : List Bytes) (world : World) :
    funcEcho k argv world = (k.unspecified, world.printf (echoText argv.tail)) := by
  unfold funcEcho
  rw [← List.length_tail, echoWords_eq argv.tail argv 1 List.drop_one]

/-- Whatever `func_echo` returns, the text is the same. -/
theorem dispatch_echo (k : Kernel) (world : World) (ws : List Bytes) :
    (dispatch k (echoName :: ws) world).2.printed = world.printed ++ echoText ws := by
  have hfind : funcTable.find? (fun f => f.name == echoName) = some ⟨funcEcho, echoName⟩ :=
    rfl
  rw [dispatch_of_find hfind, funcEcho_eq]
  by_cases hret : k.unspecified = -1
  · rw [if_pos hret]
    rfl
  · rw [if_neg hret]
    rfl

/-! ## The line made of `echo` and its text

The output of `echo` is made a line again. Its words are the tokens of that line, which is what the
law rests on. -/

/-- A token, as it stands in a line: not empty, without a space, a newline or a NUL. -/
structure Token (w : Bytes) : Prop where
  ne_nil : w ≠ []
  byte : ∀ c ∈ w, c ≠ space ∧ c ≠ 0 ∧ c ≠ newline

/-- A token of a line has no blank, no NUL and no newline in it. -/
theorem token_of_mem_tokens (hw : w ∈ tokens (lineOf s)) : Token w := by
  obtain ⟨hne, hsep, hmem⟩ := mem_words hw
  refine ⟨hne, fun c hc => ⟨?_, mem_lineOf (hmem c hc)⟩⟩
  exact beq_eq_false_iff_ne.mp (hsep c hc)

theorem echoName_eq : echoName = [101, 99, 104, 111] :=
  rfl

theorem token_echo : Token echoName := by
  rw [echoName_eq]
  exact ⟨by decide, by simp [space, newline]⟩

/-- Of a line that starts without a NUL or newline, up to one. -/
theorem lineOf_append {line : Bytes} {stop : UInt8} (hline : ∀ c ∈ line, c ≠ 0 ∧ c ≠ newline)
    (hstop : ¬ (stop ≠ 0 ∧ stop ≠ newline)) (tail : Bytes) :
    lineOf (line ++ stop :: tail) = line := by
  unfold lineOf
  rw [List.takeWhile_append_of_pos (by simpa using hline),
    List.takeWhile_cons_of_neg (by simpa using hstop), List.append_nil]

/-- A byte of the words with blanks between them is a blank or in one of the words. -/
theorem mem_intercalate {c : UInt8} (hc : c ∈ [space].intercalate ws) :
    c = space ∨ ∃ w ∈ ws, c ∈ w := by
  induction ws with
  | nil => exact absurd hc List.not_mem_nil
  | cons w ws ih =>
    cases ws with
    | nil =>
      rw [List.intercalate_singleton] at hc
      exact Or.inr ⟨w, List.mem_cons_self, hc⟩
    | cons v vs =>
      rw [List.intercalate_cons_cons, List.mem_append, List.mem_append] at hc
      rcases hc with (hc | hc) | hc
      · exact Or.inr ⟨w, List.mem_cons_self, hc⟩
      · exact Or.inl (List.mem_singleton.mp hc)
      · cases ih hc with
        | inl hspace => exact Or.inl hspace
        | inr hmem =>
          obtain ⟨u, hu, hcu⟩ := hmem
          exact Or.inr ⟨u, List.mem_cons_of_mem _ hu, hcu⟩

/-- Tokens that are joined by single spaces are found again. -/
theorem tokens_intercalate (hws : ∀ w ∈ ws, Token w) : tokens ([space].intercalate ws) = ws := by
  apply words_intercalate (by decide)
  intro w hw
  exact ⟨(hws w hw).ne_nil, fun c hc => beq_eq_false_iff_ne.mpr ((hws w hw).byte c hc).1⟩

/-- The line up to the newline that `echo` has printed, or to the NUL if it has not. -/
theorem tokens_echo (hws : ∀ w ∈ ws, Token w) (tail : Bytes) :
    tokens (lineOf (literal "echo " ++ echoText ws ++ 0 :: tail)) = echoName :: ws := by
  unfold echoText
  by_cases hnil : ws = []
  · -- nothing has been printed, so the NUL ends the line
    subst hnil
    have hbytes : literal "echo " = [101, 99, 104, 111, 32] := rfl
    have hline : lineOf (literal "echo " ++ [] ++ 0 :: tail) = literal "echo " := by
      rw [List.append_nil, hbytes]
      exact lineOf_append (by simp [newline]) (by decide) tail
    rw [if_pos rfl, hline]
    decide
  · -- the newline that has been printed ends the line
    have htokens : ∀ w ∈ echoName :: ws, Token w := List.forall_mem_cons.mpr ⟨token_echo, hws⟩
    have hbytes : ∀ c ∈ [space].intercalate (echoName :: ws), c ≠ 0 ∧ c ≠ newline := by
      intro c hc
      cases mem_intercalate hc with
      | inl hspace =>
        rw [hspace]
        decide
      | inr hmem =>
        obtain ⟨w, hw, hcw⟩ := hmem
        exact ((htokens w hw).byte c hcw).2
    have hjoin : [space].intercalate (echoName :: ws)
        = literal "echo " ++ [space].intercalate ws := by
      cases ws with
      | nil => exact absurd rfl hnil
      | cons v vs => exact List.intercalate_cons_cons
    have hsplit : literal "echo " ++ ([space].intercalate ws ++ [newline]) ++ 0 :: tail
        = [space].intercalate (echoName :: ws) ++ newline :: 0 :: tail := by
      rw [hjoin]
      simp only [List.append_assoc, List.singleton_append]
    rw [if_neg hnil, hsplit, lineOf_append hbytes (by decide), tokens_intercalate htokens]

/-! ## The law

Whatever the line, what `echo` prints for it is printed again by `echo` of that output. -/

/-- The tokens behind the first one that `process_args` gets. -/
theorem argTokens_cons (hws : tokens (lineOf s) = w :: ws) : argTokens s = w :: ws.take 63 := by
  unfold argTokens
  rw [hws]
  rfl

/-- **`echo` normalises a line, and only once.** The words come out separated by single spaces, up
to the limit on their number; the line that was printed, entered again behind `echo`, prints itself.
-/
theorem echo_idempotent (s : Bytes) (ws : List Bytes) (hnul : 0 ∈ s)
    (hecho : tokens (lineOf s) = echoName :: ws) (k : Kernel) (world : World) :
    (∃ ret world', processLine (processArgs k) s world = some (ret, world')
      ∧ world'.printed = world.printed ++ echoText (ws.take 63))
    ∧ ∀ (tail : Bytes) (k₂ : Kernel) (world₂ : World), ∃ ret world',
        processLine (processArgs k₂) (literal "echo " ++ echoText (ws.take 63) ++ 0 :: tail) world₂
          = some (ret, world')
        ∧ world'.printed = world₂.printed ++ echoText (ws.take 63) := by
  constructor
  · refine ⟨_, _, processLine_dispatch hnul k world, ?_⟩
    rw [argTokens_cons hecho]
    exact dispatch_echo k world (ws.take 63)
  · intro tail k₂ world₂
    have hmem : 0 ∈ literal "echo " ++ echoText (ws.take 63) ++ 0 :: tail :=
      List.mem_append_right _ List.mem_cons_self
    have hrest : ∀ w ∈ ws.take 63, Token w := by
      intro w hw
      apply token_of_mem_tokens (s := s)
      rw [hecho]
      exact List.mem_cons_of_mem _ (List.mem_of_mem_take hw)
    refine ⟨_, _, processLine_dispatch hmem k₂ world₂, ?_⟩
    -- 63 tokens behind `echo` are within the limit, so none is left out this time
    rw [argTokens_cons (tokens_echo hrest tail), List.take_take]
    exact dispatch_echo k₂ world₂ (ws.take 63)

/-- Two words, with spaces around them. -/
theorem echo_idempotent_two : ∃ ret world',
    processLine (processArgs .failing) (literal "echo a b\n" ++ [0]) .empty = some (ret, world')
      ∧ world'.printed = literal "a b\n" := by
  have htokens : tokens (lineOf (literal "  echo  a   b " ++ [0])) = echoName :: [[97], [98]] := by
    decide
  exact (echo_idempotent _ _ (by decide) htokens .failing .empty).2 [] .failing .empty

end HseDev.Sem12
