import Mathlib.Data.List.Basic

/-!
# Words between separators

A separator is an element of which a predicate says so; the words of a list are its maximal
runs without one. No word is empty, however many separators stand in a row.

* **`words_append_cons`** — a separator splits: the words before it and the words after it.
  With `words_of_forall` this computes the words of any list.
* **`mem_words`** — what a word is made of.
* **`words_intercalate`** — joined by single separators, words are split again.
-/

namespace Words

variable {α : Type*} {sep : α → Bool} {xs ys w : List α} {s : α}

def words (sep : α → Bool) (xs : List α) : List (List α) :=
  (xs.splitOnP sep).filter fun w => !w.isEmpty

@[simp] theorem words_nil : words sep ([] : List α) = [] := by
  simp [words]

/-- A run without a separator is one word. -/
theorem words_of_forall (hw : ∀ x ∈ w, sep x = false) (hne : w ≠ []) : words sep w = [w] := by
  unfold words
  rw [List.splitOnP_eq_singleton hw]
  simp [hne]

/-- The words before a separator and the words after it. -/
theorem words_append_cons (hs : sep s = true) :
    words sep (xs ++ s :: ys) = words sep xs ++ words sep ys := by
  unfold words
  rw [List.splitOnP_append_cons xs ys hs, List.filter_append]

/-- A word is not empty, has no separator, and its elements are from the list. -/
theorem mem_words (hw : w ∈ words sep xs) :
    w ≠ [] ∧ (∀ x ∈ w, sep x = false) ∧ ∀ x ∈ w, x ∈ xs := by
  induction hn : xs.length using Nat.strongRecOn generalizing xs with
  | ind n ih =>
    by_cases hsep : ∃ x ∈ xs, sep x = true
    · -- split at a separator: the word is on one of its sides
      obtain ⟨x, hx, hxsep⟩ := hsep
      obtain ⟨a, b, rfl⟩ := List.append_of_mem hx
      rw [List.length_append, List.length_cons] at hn
      rw [words_append_cons hxsep, List.mem_append] at hw
      cases hw with
      | inl hw =>
        obtain ⟨hne, hnone, hmem⟩ := ih a.length (by omega) hw rfl
        exact ⟨hne, hnone, fun y hy => List.mem_append_left _ (hmem y hy)⟩
      | inr hw =>
        obtain ⟨hne, hnone, hmem⟩ := ih b.length (by omega) hw rfl
        exact ⟨hne, hnone, fun y hy => List.mem_append_right _ (List.mem_cons_of_mem _ (hmem y hy))⟩
    · have hnone : ∀ x ∈ xs, sep x = false := by
        intro x hx
        exact Bool.eq_false_iff.mpr fun h => hsep ⟨x, hx, h⟩
      by_cases hnil : xs = []
      · rw [hnil, words_nil] at hw
        exact absurd hw List.not_mem_nil
      · rw [words_of_forall hnone hnil, List.mem_singleton] at hw
        rw [hw]
        exact ⟨hnil, hnone, fun _ hx => hx⟩

/-- Words that are joined by single separators are the words of the result. -/
theorem words_intercalate (hs : sep s = true) {ws : List (List α)}
    (hws : ∀ w ∈ ws, w ≠ [] ∧ ∀ x ∈ w, sep x = false) : words sep ([s].intercalate ws) = ws := by
  induction ws with
  | nil => exact words_nil
  | cons w ws ih =>
    obtain ⟨hne, hnone⟩ := hws w List.mem_cons_self
    have hrest := ih fun w hw => hws w (List.mem_cons_of_mem _ hw)
    cases ws with
    | nil =>
      rw [List.intercalate_singleton]
      exact words_of_forall hnone hne
    | cons v vs =>
      rw [List.intercalate_cons_cons, List.append_assoc, List.singleton_append,
        words_append_cons hs, words_of_forall hnone hne, hrest, List.singleton_append]

end Words
