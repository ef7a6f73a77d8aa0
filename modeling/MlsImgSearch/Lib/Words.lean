import Mathlib.Algebra.Order.Ring.Int
import Mathlib.Algebra.Order.BigOperators.Group.List
import Mathlib.Algebra.Order.Group.Nat
import Mathlib.Data.List.Basic
import Mathlib.Tactic.Common

/-!
# Words of a line

Words stand between separators, of which there may be several. An empty word is none.
-/

namespace MlsImgSearch.Lib.Words

variable {α : Type*} [DecidableEq α]

def words (sep : α) (line : List α) : List (List α) := (line.splitOn sep).filter (· ≠ [])

variable {sep : α} {word : List α}

/-- A word at the end, which may be empty. -/
theorem words_plain (plain : sep ∉ word) : words sep word = if word = [] then [] else [word] := by
  rw [words, List.splitOn_eq_singleton plain]
  by_cases empty : word = [] <;> simp [empty]

theorem words_append (plain : sep ∉ word) (rest : List α) :
    words sep (word ++ sep :: rest) = (if word = [] then [] else [word]) ++ words sep rest := by
  rw [words, List.splitOn_append_cons_self_of_not_mem plain, List.filter_cons]
  by_cases empty : word = [] <;> simp [empty, words]

omit [DecidableEq α] in
/-- Where the first separator stands is clear. -/
theorem append_sep_inj {word' rest rest' : List α} (plain : sep ∉ word) (plain' : sep ∉ word')
    (same : word ++ sep :: rest = word' ++ sep :: rest') : word = word' ∧ rest = rest' := by
  induction word generalizing word' with
  | nil =>
      cases word' with
      | nil => exact ⟨rfl, (List.cons.inj same).2⟩
      | cons x word' => exact absurd ((List.cons.inj same).1 ▸ List.mem_cons_self) plain'
  | cons x word ih =>
      cases word' with
      | nil => exact absurd ((List.cons.inj same).1 ▸ List.mem_cons_self) plain
      | cons y word' =>
          obtain ⟨rfl, later⟩ := List.cons.inj same
          obtain ⟨rfl, rfl⟩ := ih (fun member => plain (List.mem_cons_of_mem _ member))
            (fun member => plain' (List.mem_cons_of_mem _ member)) later
          exact ⟨rfl, rfl⟩

theorem words_ne_nil {line : List α} (member : word ∈ words sep line) : word ≠ [] :=
  of_decide_eq_true (List.mem_filter.mp member).2

/-- Words with a separator before each. -/
theorem words_flatMap (plain : sep ∉ word) (nonempty : word ≠ []) {more : List (List α)}
    (plainMore : ∀ other ∈ more, sep ∉ other) (nonemptyMore : ∀ other ∈ more, other ≠ []) :
    words sep (word ++ more.flatMap fun other => sep :: other) = word :: more := by
  induction more generalizing word with
  | nil => rw [List.flatMap_nil, List.append_nil, words_plain plain, if_neg nonempty]
  | cons other more ih =>
      have later := ih (plainMore other List.mem_cons_self) (nonemptyMore other List.mem_cons_self)
        (fun next member => plainMore next (List.mem_cons_of_mem _ member))
        fun next member => nonemptyMore next (List.mem_cons_of_mem _ member)
      rw [List.flatMap_cons, List.cons_append, words_append plain, if_neg nonempty, later]
      rfl

omit [DecidableEq α] in
theorem sum_intercalate (sep : α) {parts : List (List α)} (some' : parts ≠ []) :
    (parts.map fun part => part.length + 1).sum = (List.intercalate [sep] parts).length + 1 := by
  induction parts with
  | nil => exact absurd rfl some'
  | cons part parts ih =>
      cases parts with
      | nil => simp
      | cons next parts =>
          rw [List.map_cons, List.sum_cons, ih (List.cons_ne_nil _ _), List.intercalate_cons_cons]
          simp only [List.length_append, List.length_singleton]
          omega

/-- The words of a line and their separators are not longer than the line. -/
theorem length_words (sep : α) (line : List α) :
    ((words sep line).map fun word => word.length + 1).sum ≤ line.length + 1 := by
  have whole := sum_intercalate sep (List.splitOn_ne_nil sep line)
  rw [List.intercalate_splitOn] at whole
  have fewer : (words sep line).Sublist (line.splitOn sep) := List.filter_sublist
  rw [← whole]
  exact (fewer.map _).sum_le_sum fun _ _ => Nat.zero_le _

end MlsImgSearch.Lib.Words
