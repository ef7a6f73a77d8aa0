import Mathlib.Algebra.Order.Ring.Int
import Mathlib.Data.List.Basic
import Mathlib.Tactic.Common

/-!
# Lines of a sequence

A separator ends a line and belongs to it. A sequence is a list of finished lines
and an unfinished rest; more elements go on with the rest.
-/

namespace MlsImgSearch.Lib.Lines

variable {α : Type*} [DecidableEq α]

/-- The lines that end in a sequence, when `rest` came before it, and what is left unfinished. -/
def linesFrom (sep : α) : List α → List α → List (List α) × List α
  | rest, [] => ([], rest)
  | rest, x :: xs =>
      if x = sep then
        ((rest ++ [x]) :: (linesFrom sep [] xs).1, (linesFrom sep [] xs).2)
      else linesFrom sep (rest ++ [x]) xs

/-- The finished lines of a sequence, and its unfinished last one. -/
def lines (sep : α) (xs : List α) : List (List α) × List α := linesFrom sep [] xs

variable {sep : α}

@[simp]
theorem linesFrom_nil (rest : List α) : linesFrom sep rest [] = ([], rest) := rfl

theorem linesFrom_sep (rest xs : List α) :
    linesFrom sep rest (sep :: xs) =
      ((rest ++ [sep]) :: (linesFrom sep [] xs).1, (linesFrom sep [] xs).2) :=
  if_pos rfl

theorem linesFrom_other {x : α} (other : x ≠ sep) (rest xs : List α) :
    linesFrom sep rest (x :: xs) = linesFrom sep (rest ++ [x]) xs :=
  if_neg other

/-- A sequence without separator is all rest. -/
theorem linesFrom_plain {plain : List α} (noSep : sep ∉ plain) (rest xs : List α) :
    linesFrom sep rest (plain ++ xs) = linesFrom sep (rest ++ plain) xs := by
  induction plain generalizing rest with
  | nil => rw [List.append_nil, List.nil_append]
  | cons x plain ih =>
      obtain ⟨other, noSep⟩ := not_or.mp (mt List.mem_cons.mpr noSep)
      rw [List.cons_append, linesFrom_other (Ne.symm other), ih noSep, List.append_assoc]
      rfl

theorem linesFrom_append (rest xs ys : List α) :
    linesFrom sep rest (xs ++ ys) =
      ((linesFrom sep rest xs).1 ++ (linesFrom sep (linesFrom sep rest xs).2 ys).1,
        (linesFrom sep (linesFrom sep rest xs).2 ys).2) := by
  induction xs generalizing rest with
  | nil => rfl
  | cons x xs ih =>
      by_cases isSep : x = sep
      · subst isSep
        rw [List.cons_append, linesFrom_sep, linesFrom_sep, ih]
        rfl
      · rw [List.cons_append, linesFrom_other isSep, linesFrom_other isSep, ih]

/-- The lines and the rest are the sequence. -/
theorem flatten_linesFrom (rest xs : List α) :
    (linesFrom sep rest xs).1.flatten ++ (linesFrom sep rest xs).2 = rest ++ xs := by
  induction xs generalizing rest with
  | nil => rw [linesFrom_nil, List.flatten_nil, List.nil_append, List.append_nil]
  | cons x xs ih =>
      by_cases isSep : x = sep
      · subst isSep
        rw [linesFrom_sep, List.flatten_cons, List.append_assoc, ih, List.append_assoc]
        rfl
      · rw [linesFrom_other isSep, ih, List.append_assoc]
        rfl

/-- The rest has no separator. -/
theorem sep_not_mem_rest {rest : List α} (noSep : sep ∉ rest) (xs : List α) :
    sep ∉ (linesFrom sep rest xs).2 := by
  induction xs generalizing rest with
  | nil => exact noSep
  | cons x xs ih =>
      by_cases isSep : x = sep
      · subst isSep
        rw [linesFrom_sep]
        exact ih List.not_mem_nil
      · rw [linesFrom_other isSep]
        refine ih fun member => ?_
        rcases List.mem_append.mp member with before | isLast
        · exact noSep before
        · exact isSep (List.mem_singleton.mp isLast).symm

/-- A line has its separator at the end only. -/
theorem sep_not_mem_dropLast {rest line : List α} (noSep : sep ∉ rest) {xs : List α}
    (member : line ∈ (linesFrom sep rest xs).1) : sep ∉ line.dropLast := by
  induction xs generalizing rest with
  | nil => exact absurd member List.not_mem_nil
  | cons x xs ih =>
      by_cases isSep : x = sep
      · subst isSep
        rw [linesFrom_sep] at member
        rcases List.mem_cons.mp member with rfl | later
        · rwa [List.dropLast_concat]
        · exact ih List.not_mem_nil later
      · rw [linesFrom_other isSep] at member
        refine ih (fun inRest => ?_) member
        rcases List.mem_append.mp inRest with before | isLast
        · exact noSep before
        · exact isSep (List.mem_singleton.mp isLast).symm

/-- Lines that are written one after the other are found again. -/
theorem lines_flatMap {texts : List (List α)} (noSep : ∀ text ∈ texts, sep ∉ text) :
    lines sep (texts.flatMap fun text => text ++ [sep]) =
      (texts.map fun text => text ++ [sep], []) := by
  induction texts with
  | nil => rfl
  | cons text texts ih =>
      have later := ih fun other member => noSep other (List.mem_cons_of_mem _ member)
      rw [lines] at later ⊢
      rw [List.flatMap_cons, List.append_assoc, linesFrom_plain (noSep text List.mem_cons_self),
        List.nil_append, List.singleton_append, linesFrom_sep, later]
      rfl

/-- There is one line for each separator. -/
theorem length_linesFrom (rest xs : List α) : (linesFrom sep rest xs).1.length = xs.count sep := by
  induction xs generalizing rest with
  | nil => rfl
  | cons x xs ih =>
      by_cases isSep : x = sep
      · subst isSep
        rw [linesFrom_sep, List.length_cons, ih, List.count_cons_self]
      · rw [linesFrom_other isSep, ih, List.count_cons_of_ne isSep]

/-- Nothing is left exactly behind a separator, or when there was nothing. -/
theorem rest_eq_nil_iff (rest xs : List α) :
    (linesFrom sep rest xs).2 = [] ↔ if xs = [] then rest = [] else xs.getLast? = some sep := by
  induction xs generalizing rest with
  | nil => rw [linesFrom_nil, if_pos rfl]
  | cons x xs ih =>
      rw [if_neg (List.cons_ne_nil x xs)]
      by_cases isSep : x = sep
      · subst isSep
        rw [linesFrom_sep, ih]
        cases xs with
        | nil => simp
        | cons y ys => rw [if_neg (List.cons_ne_nil y ys), List.getLast?_cons_cons]
      · rw [linesFrom_other isSep, ih]
        cases xs with
        | nil => simpa using isSep
        | cons y ys => rw [if_neg (List.cons_ne_nil y ys), List.getLast?_cons_cons]

/-- Behind a separator nothing is left. -/
theorem getLast?_ne_of_rest {rest xs : List α} (left : (linesFrom sep rest xs).2 ≠ []) :
    xs.getLast? ≠ some sep := by
  intro last
  have nonempty : xs ≠ [] := by
    rintro rfl
    cases last
  exact left ((rest_eq_nil_iff rest xs).mpr (by rwa [if_neg nonempty]))

/-! ## Short lines -/

/-- All lines and the rest are shorter than a bound. -/
def Short (bound : Nat) (parts : List (List α) × List α) : Prop :=
  (∀ line ∈ parts.1, line.length < bound) ∧ parts.2.length < bound

instance decidableShort (bound : Nat) (parts : List (List α) × List α) :
    Decidable (Short bound parts) :=
  inferInstanceAs (Decidable (_ ∧ _))

/-- What is unfinished is the beginning of a line. -/
theorem rest_length_lt {bound : Nat} {rest xs : List α} (short : Short bound (linesFrom sep rest xs)) :
    rest.length < bound := by
  induction xs generalizing rest with
  | nil => exact short.2
  | cons x xs ih =>
      by_cases isSep : x = sep
      · subst isSep
        rw [linesFrom_sep] at short
        have first := short.1 _ (List.mem_cons_self ..)
        rw [List.length_append] at first
        exact Nat.lt_of_le_of_lt (Nat.le_add_right _ _) first
      · rw [linesFrom_other isSep] at short
        have longer := ih short
        rw [List.length_append] at longer
        exact Nat.lt_of_le_of_lt (Nat.le_add_right _ _) longer

/-- Only the length of what came before counts. -/
theorem short_of_length {bound : Nat} {rest rest' xs : List α} (same : rest'.length = rest.length)
    (short : Short bound (linesFrom sep rest xs)) : Short bound (linesFrom sep rest' xs) := by
  induction xs generalizing rest rest' with
  | nil => exact ⟨fun _ member => absurd member List.not_mem_nil, same ▸ short.2⟩
  | cons x xs ih =>
      have longer : (rest' ++ [x]).length = (rest ++ [x]).length := by
        rw [List.length_append, List.length_append, same]
      by_cases isSep : x = sep
      · subst isSep
        rw [linesFrom_sep] at short ⊢
        refine ⟨fun line member => ?_, short.2⟩
        rcases List.mem_cons.mp member with rfl | later
        · rw [longer]
          exact short.1 _ (List.mem_cons_self ..)
        · exact short.1 _ (List.mem_cons_of_mem _ later)
      · rw [linesFrom_other isSep] at short ⊢
        exact ih longer short

theorem short_append {bound : Nat} {rest xs ys : List α}
    (short : Short bound (linesFrom sep rest (xs ++ ys))) :
    Short bound (linesFrom sep (linesFrom sep rest xs).2 ys) := by
  rw [linesFrom_append] at short
  exact ⟨fun line member => short.1 line (List.mem_append_right _ member), short.2⟩

theorem short_append_left {bound : Nat} {rest xs ys : List α}
    (short : Short bound (linesFrom sep rest (xs ++ ys))) : Short bound (linesFrom sep rest xs) := by
  have later := short_append short
  rw [linesFrom_append] at short
  exact ⟨fun line member => short.1 line (List.mem_append_left _ member), rest_length_lt later⟩

/-! ## Lines as ranges of a block -/

variable {β : Type*}

/-- The lines that end in `rest`, which lies in a block from `iter` on, when the open line began at
`prev`. A line is made of the positions of its first element and its separator. The position behind
the last line comes with them. -/
def scan (sep : α) (line : Nat → Nat → β) : List α → Nat → Nat → List β × Nat
  | [], prev, _ => ([], prev)
  | x :: rest, prev, iter =>
      if x = sep then
        (line prev iter :: (scan sep line rest (iter + 1) (iter + 1)).1,
          (scan sep line rest (iter + 1) (iter + 1)).2)
      else scan sep line rest prev (iter + 1)

omit [DecidableEq α] in
/-- One element more of a block. -/
theorem take_drop_succ {block opened : List α} {prev iter : Nat} (le : prev ≤ iter)
    (inside : iter < block.length) (before : (block.drop prev).take (iter - prev) = opened) :
    (block.drop prev).take (iter + 1 - prev) = opened ++ [block[iter]] := by
  have grown : iter + 1 - prev = iter - prev + 1 := by omega
  have within : iter - prev < (block.drop prev).length := by
    rw [List.length_drop]
    omega
  have position : prev + (iter - prev) = iter := by omega
  rw [grown, List.take_succ_eq_append_getElem within, before, List.getElem_drop]
  simp only [position]

/-- The lines have the texts of the parts, what is left over lies between the new `prev` and the end,
and behind a line `prev` has moved on. -/
structure Cut (block : List α) (text : β → List α) (prev iter stop : Nat)
    (parts : List (List α) × List α) (result : List β × Nat) : Prop where
  texts : result.1.map text = parts.1
  left : (block.drop result.2).take (stop - result.2) = parts.2
  le : result.2 ≤ stop
  stays : parts.1 = [] → result.2 = prev
  moves : parts.1 ≠ [] → iter < result.2

/-- The scan finds the lines when each line has the text of its range. -/
theorem scan_cut {block rest opened : List α} {line : Nat → Nat → β} {text : β → List α}
    (ranges : ∀ prev iter, prev ≤ iter → iter < block.length →
      text (line prev iter) = (block.drop prev).take (iter + 1 - prev))
    {prev iter : Nat} (le : prev ≤ iter)
    (before : (block.drop prev).take (iter - prev) = opened)
    (follows : (block.drop iter).take rest.length = rest) :
    Cut block text prev iter (iter + rest.length) (linesFrom sep opened rest)
      (scan sep line rest prev iter) := by
  induction rest generalizing prev iter opened with
  | nil => exact ⟨rfl, before, le, fun _ => rfl, fun wrong => absurd rfl wrong⟩
  | cons x rest ih =>
      have inside : iter < block.length := by
        by_contra short
        rw [List.drop_eq_nil_of_le (Nat.le_of_not_lt short), List.take_nil] at follows
        cases follows
      rw [List.drop_eq_getElem_cons inside, List.length_cons, List.take_succ_cons] at follows
      obtain ⟨rfl, following⟩ := List.cons.inj follows
      have longer := take_drop_succ le inside before
      have size : iter + (rest.length + 1) = iter + 1 + rest.length := by omega
      rw [List.length_cons, size]
      by_cases isSep : block[iter] = sep
      · have next := ih (Nat.le_refl (iter + 1)) (by rw [Nat.sub_self, List.take_zero]) following
        rw [scan, if_pos isSep, isSep, linesFrom_sep]
        refine ⟨?_, next.left, next.le, fun wrong => absurd wrong (List.cons_ne_nil _ _),
          fun _ => ?_⟩
        · rw [List.map_cons, next.texts, ranges prev iter le inside, longer, isSep]
        · by_cases none' : (linesFrom sep [] rest).1 = []
          · rw [next.stays none']
            exact Nat.lt_succ_self iter
          · exact Nat.lt_of_succ_lt (next.moves none')
      · have next := ih (Nat.le_succ_of_le le) longer following
        rw [linesFrom_other isSep, scan, if_neg isSep]
        exact ⟨next.texts, next.left, next.le, next.stays,
          fun lines => Nat.lt_of_succ_lt (next.moves lines)⟩

end MlsImgSearch.Lib.Lines
