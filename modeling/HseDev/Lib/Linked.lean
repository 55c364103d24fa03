import Mathlib.Data.List.Basic
import Mathlib.Logic.Function.Basic

/-!
# Lists linked through memory

A memory maps every node to the node its `next` field points to, `none` for `NULL`.
`Linked next p l` says that the nodes from the pointer `p` on are `l` and that the last of
them points to `NULL`.

* **`Linked.unique`** — the memory decides the list; so **`Linked.nodup`**: a list that ends
  has no cycle.
* **`Linked.update`** — a store into a node outside of the list; **`Linked.insert_next`** — a
  node linked in behind another one.
-/

variable {A : Type*}

/-- The list that starts at a pointer. -/
inductive Linked (next : A → Option A) : Option A → List A → Prop where
  | nil : Linked next none []
  | cons {a : A} {l : List A} (rest : Linked next (next a) l) : Linked next (some a) (a :: l)

namespace Linked

variable {next next' : A → Option A} {p : Option A} {a b : A} {l l' : List A}

/-- The `next` fields lead to one list only. -/
theorem unique (h : Linked next p l) (h' : Linked next p l') : l = l' := by
  induction h generalizing l' with
  | nil =>
    cases h'
    rfl
  | cons rest ih =>
    cases h' with
    | cons rest' => rw [ih rest']

/-- From each of its nodes on, a list is linked as well. -/
theorem suffix (h : Linked next p l) (ha : a ∈ l) :
    ∃ l', Linked next (some a) l' ∧ l'.length ≤ l.length := by
  induction h with
  | nil => cases ha
  | @cons c l rest ih =>
    rcases List.mem_cons.mp ha with rfl | hmem
    · exact ⟨_, .cons rest, Nat.le_refl _⟩
    · obtain ⟨l', hl', hle⟩ := ih hmem
      exact ⟨l', hl', Nat.le_succ_of_le hle⟩

/-- **A list that ends has no cycle.** A node that came twice would start two lists of
different lengths. -/
theorem nodup (h : Linked next p l) : l.Nodup := by
  induction h with
  | nil => exact List.nodup_nil
  | @cons a l rest ih =>
    refine List.nodup_cons.mpr ⟨fun hmem => ?_, ih⟩
    obtain ⟨l', hl', hle⟩ := rest.suffix hmem
    have heq : a :: l = l' := unique (.cons rest) hl'
    rw [← heq, List.length_cons] at hle
    omega

/-- The list depends on the fields of its own nodes only. -/
theorem congr (h : Linked next p l) (hnext : ∀ a ∈ l, next' a = next a) : Linked next' p l := by
  induction h with
  | nil => exact .nil
  | @cons a l rest ih =>
    refine .cons ?_
    rw [hnext a List.mem_cons_self]
    exact ih fun b hb => hnext b (List.mem_cons_of_mem a hb)

section Update

variable [DecidableEq A]

/-- A store into a node outside of the list. -/
theorem update (h : Linked next p l) (ha : a ∉ l) (q : Option A) :
    Linked (Function.update next a q) p l :=
  h.congr fun _ hb => Function.update_of_ne (ne_of_mem_of_not_mem hb ha) q next

/-- **A node linked in** behind `a`, whose successor it already points to. -/
theorem insert_next (h : Linked next (next a) l) (hb : b ∉ a :: l) (hlink : next b = next a) :
    Linked (Function.update next a (some b)) (some b) (b :: l) := by
  have hba : b ≠ a := List.ne_of_not_mem_cons hb
  have hnodup : (a :: l).Nodup := nodup (.cons h)
  refine .cons ?_
  rw [Function.update_of_ne hba, hlink]
  exact h.update (List.nodup_cons.mp hnodup).1 _

end Update

end Linked
