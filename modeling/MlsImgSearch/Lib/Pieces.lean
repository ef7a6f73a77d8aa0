import Mathlib.Algebra.Order.Ring.Int
import Mathlib.Data.List.Infix
import Mathlib.Tactic.Common

/-!
# Sequences cut at a pattern

A sequence is cut at the first occurrence of a pattern, at the first one behind it, and
so on. The pieces and the rest have no occurrence.
-/

namespace MlsImgSearch.Lib.Pieces

variable {α : Type*} [DecidableEq α]

/-- The position of the first occurrence. -/
def search (pattern : List α) : List α → Option Nat
  | [] => if pattern = [] then some 0 else none
  | x :: xs =>
      if pattern <+: x :: xs then some 0 else (search pattern xs).map (· + 1)

/-- `text` is made of pieces that end at a pattern each, and a rest. -/
inductive Cuts (pattern : List α) : List α → List (List α) → List α → Prop where
  | rest {rest : List α} (absent : search pattern rest = none) : Cuts pattern rest [] rest
  | piece {piece text rest : List α} {pieces : List (List α)}
      (found : search pattern (piece ++ (pattern ++ text)) = some piece.length)
      (later : Cuts pattern text pieces rest) :
      Cuts pattern (piece ++ (pattern ++ text)) (piece :: pieces) rest

variable {pattern text rest : List α} {pieces : List (List α)}

theorem search_nil (text : List α) : search [] text = some 0 := by
  cases text with
  | nil => rfl
  | cons x xs => exact if_pos List.nil_prefix

theorem not_infix_of_search (absent : search pattern text = none) : ¬ pattern <:+: text := by
  induction text with
  | nil =>
      intro occurs
      rw [List.infix_nil.mp occurs] at absent
      cases absent
  | cons x xs ih =>
      rw [search] at absent
      split at absent
      · cases absent
      · rename_i other
        intro occurs
        rcases List.infix_cons_iff.mp occurs with starts | later
        · exact other starts
        · exact ih (Option.map_eq_none_iff.mp absent) later

/-- What stands before the first occurrence has none. -/
theorem search_some (nonempty : pattern ≠ []) {i : Nat} (found : search pattern text = some i) :
    ∃ piece behind, text = piece ++ (pattern ++ behind) ∧ piece.length = i ∧
      ¬ pattern <:+: piece := by
  induction text generalizing i with
  | nil =>
      rw [search, if_neg nonempty] at found
      cases found
  | cons x xs ih =>
      rw [search] at found
      split at found
      · rename_i starts
        obtain ⟨behind, same⟩ := starts
        refine ⟨[], behind, same.symm, Option.some.inj found, fun occurs => ?_⟩
        exact nonempty (List.infix_nil.mp occurs)
      · rename_i other
        obtain ⟨j, foundLater, rfl⟩ := Option.map_eq_some_iff.mp found
        obtain ⟨piece, behind, rfl, isLength, clean⟩ := ih foundLater
        refine ⟨x :: piece, behind, rfl, by rw [List.length_cons, isLength], fun occurs => ?_⟩
        rcases List.infix_cons_iff.mp occurs with starts | later
        · exact other (starts.trans ⟨pattern ++ behind, rfl⟩)
        · exact clean later

/-- A pattern that is not empty cuts every sequence. -/
theorem exists_cuts (nonempty : pattern ≠ []) (text : List α) :
    ∃ pieces rest, Cuts pattern text pieces rest := by
  generalize size : text.length = n
  induction n using Nat.strong_induction_on generalizing text with
  | _ n ih =>
      cases found : search pattern text with
      | none => exact ⟨[], text, .rest found⟩
      | some i =>
          obtain ⟨piece, behind, rfl, rfl, -⟩ := search_some nonempty found
          have positive : 0 < pattern.length := List.length_pos_iff.mpr nonempty
          have shorter : behind.length < n := by
            rw [← size, List.length_append, List.length_append]
            omega
          obtain ⟨pieces, rest, later⟩ := ih behind.length shorter behind rfl
          exact ⟨piece :: pieces, rest, .piece found later⟩

namespace Cuts

theorem flatMap_append (cuts : Cuts pattern text pieces rest) :
    pieces.flatMap (fun piece => piece ++ pattern) ++ rest = text := by
  induction cuts with
  | rest absent => rfl
  | piece found later ih => rw [List.flatMap_cons, List.append_assoc, ih, List.append_assoc]

theorem rest_clean (cuts : Cuts pattern text pieces rest) : ¬ pattern <:+: rest := by
  induction cuts with
  | rest absent => exact not_infix_of_search absent
  | piece found later ih => exact ih

theorem pieces_clean (nonempty : pattern ≠ []) (cuts : Cuts pattern text pieces rest) :
    ∀ piece ∈ pieces, ¬ pattern <:+: piece := by
  induction cuts with
  | rest absent => exact nofun
  | @piece piece text rest pieces found later ih =>
      intro other member
      rcases List.mem_cons.mp member with rfl | member
      · obtain ⟨first, behind, same, isLength, clean⟩ := search_some nonempty found
        obtain ⟨rfl, -⟩ := List.append_inj same isLength.symm
        exact clean
      · exact ih other member

/-- There is one way to cut. -/
theorem unique {pieces' : List (List α)} {rest' : List α} (cuts : Cuts pattern text pieces rest)
    (cuts' : Cuts pattern text pieces' rest') : pieces = pieces' ∧ rest = rest' := by
  induction cuts generalizing pieces' with
  | rest absent =>
      cases cuts' with
      | rest _ => exact ⟨rfl, rfl⟩
      | piece found _ =>
          rw [absent] at found
          cases found
  | @piece piece text rest pieces found later ih =>
      generalize whole : piece ++ (pattern ++ text) = other at cuts' found
      cases cuts' with
      | rest absent =>
          rw [absent] at found
          cases found
      | @piece piece' text' _ _ found' later' =>
          have sameLength : piece.length = piece'.length := Option.some.inj (found.symm.trans found')
          obtain ⟨rfl, same⟩ := List.append_inj whole sameLength
          obtain rfl := List.append_cancel_left same
          obtain ⟨rfl, rfl⟩ := ih later'
          exact ⟨rfl, rfl⟩

end Cuts

section Join

variable (pieces : List (List α)) (new : List α)

omit [DecidableEq α]

theorem intercalate_rest (rest : List α) :
    List.intercalate new (pieces ++ [rest]) =
      pieces.flatMap (fun piece => piece ++ new) ++ rest := by
  induction pieces with
  | nil => simp
  | cons piece pieces ih =>
      rw [List.cons_append, List.intercalate_cons_of_ne_nil (by simp), ih]
      simp

/-- Joined pieces lack the last separator. -/
theorem intercalate_append {pieces : List (List α)} (some' : pieces ≠ []) :
    List.intercalate new pieces ++ new = pieces.flatMap fun piece => piece ++ new := by
  have whole := intercalate_rest pieces.dropLast new (pieces.getLast some')
  rw [List.dropLast_append_getLast] at whole
  rw [whole]
  conv_rhs => rw [← List.dropLast_append_getLast some']
  simp

end Join

end MlsImgSearch.Lib.Pieces
