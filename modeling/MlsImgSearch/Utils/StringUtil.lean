import MlsImgSearch.Lib.Int32
import MlsImgSearch.Lib.Pieces
import MlsImgSearch.Lib.Strings

/-!
# Splitting and replacing

A loop searches for the next occurrence and goes on behind it. One loop keeps its
position as a `size_t`, the other one as an `int`.
-/

namespace MlsImgSearch.Utils.StringUtil

open Lib.Strings (Text)
open Lib.Int32 Lib.Pieces

def npos : Nat := 2 ^ 64 - 1

/-! ## The functions -/

/-- `std::string::find`. -/
def find (text det : Text) (pos : Nat) : Option Nat :=
  if pos ≤ text.length then (search det (text.drop pos)).map (pos + ·) else none

/-- The loop of `Split`; `none` if it is still running when the fuel is used up. -/
def splitLoop (src det : Text) : Nat → Option Nat → Nat → List Text → Option (List Text)
  | 0, _, _, _ => none
  | fuel + 1, use, pos, result =>
      match use with
      | none => some (if pos < src.length then result ++ [src.drop pos] else result)
      | some use =>
          let piece := (src.drop pos).take (use - pos)
          let pos := use + det.length
          splitLoop src det fuel (find src det pos) pos (result ++ [piece])

def split (fuel : Nat) (src det : Text) : Option (List Text) :=
  splitLoop src det fuel (find src det 0) 0 []

inductive Outcome where
  | returned (target : Text)
  | outOfRange
  /-- A signed overflow. -/
  | undefined
  deriving DecidableEq

def replaceLoop (oldString newString : Text) : Nat → Text → Int → Option Outcome
  | 0, _, _ => none
  | fuel + 1, target, pos =>
      let pos := int32 ((find target oldString (sizeT pos)).getD npos)
      if sizeT pos = npos then some (.returned target)
      else if target.length < sizeT pos then some .outOfRange
      else
        let size := int32 oldString.length
        let length := int32 newString.length
        let target :=
          target.take (sizeT pos) ++ newString ++ target.drop (sizeT pos + sizeT size)
        if pos + length < -2 ^ 31 ∨ 2 ^ 31 ≤ pos + length then some .undefined
        else replaceLoop oldString newString fuel target (pos + length)

def replaceAll (fuel : Nat) (oldString newString target : Text) : Option Outcome :=
  replaceLoop oldString newString fuel target 0

/-! ## What is wanted -/

/-- The pieces lack the delimiter and are the text when they are joined, but for a delimiter at its
end. -/
structure Splits (src det : Text) (pieces : List Text) : Prop where
  clean : ∀ piece ∈ pieces, ¬ det <:+: piece
  joined : List.intercalate det pieces = src ∨ List.intercalate det pieces ++ det = src

/-- `result` is the pieces of `Split` joined with the new string, and one more if the old one stood
at the end. -/
def Replaces (oldString newString target result : Text) : Prop :=
  ∃ fuel pieces, split fuel target oldString = some pieces ∧
    (List.intercalate oldString pieces = target ∧ result = List.intercalate newString pieces ∨
      List.intercalate oldString pieces ++ oldString = target ∧
        result = List.intercalate newString pieces ++ newString)

/-- Both functions return, and what they return is right if they are not given an empty string to
search for. -/
structure Right (src det oldString newString target : Text) : Prop where
  split : ∃ fuel pieces, split fuel src det = some pieces ∧ (det ≠ [] → Splits src det pieces)
  replaceAll : ∃ fuel result, replaceAll fuel oldString newString target = some (.returned result) ∧
    (oldString ≠ [] → Replaces oldString newString target result)

/-- The strings to search for are not empty; and if there is something to replace, the old string and
the text up to the last one that is put in have lengths that an `int` can hold. -/
structure Fits (det oldString newString target : Text) : Prop where
  someDet : det ≠ []
  someOld : oldString ≠ []
  int : ∀ pieces rest, Cuts oldString target pieces rest → pieces ≠ [] →
    oldString.length < 2 ^ 31 ∧
      (pieces.flatMap fun piece => piece ++ newString).length < 2 ^ 31

/-! ## Splitting -/

section Split

variable {det before text rest : Text} {pieces result : List Text}

theorem find_append (det before text : Text) :
    find (before ++ text) det before.length = (search det text).map (before.length + ·) := by
  rw [find, if_pos (by simp), List.drop_left]

/-- The loop finds the pieces of what is behind its position. -/
theorem splitLoop_cuts (cuts : Cuts det text pieces rest) (before : Text) (result : List Text) :
    splitLoop (before ++ text) det (pieces.length + 1) (find (before ++ text) det before.length)
      before.length result =
      some (result ++ pieces ++ if rest = [] then [] else [rest]) := by
  induction cuts generalizing before result with
  | @rest rest absent =>
      rw [find_append, absent]
      by_cases empty : rest = []
      · simp [splitLoop, empty]
      · have positive : 0 < rest.length := List.length_pos_iff.mpr empty
        simp [splitLoop, empty, positive]
  | @piece piece text rest pieces found later ih =>
      have next := ih (before ++ piece ++ det) (result ++ [piece])
      have whole : before ++ piece ++ det ++ text = before ++ (piece ++ (det ++ text)) := by simp
      have position : (before ++ piece ++ det).length =
          before.length + piece.length + det.length := by
        rw [List.length_append, List.length_append]
      rw [whole, position] at next
      rw [find_append, found, List.length_cons, Option.map_some, splitLoop]
      simp only [List.drop_left, Nat.add_sub_cancel_left, List.take_left]
      rw [next]
      simp

/-- An empty delimiter is found again and again at the same place. -/
theorem splitLoop_empty (src : Text) (fuel : Nat) (result : List Text) :
    splitLoop src [] fuel (find src [] 0) 0 result = none := by
  have here : find src [] 0 = some 0 := by simp [find, search_nil]
  induction fuel generalizing result with
  | zero => rfl
  | succ fuel ih =>
      rw [here] at ih ⊢
      simpa [splitLoop, here] using ih (result ++ [[]])

theorem split_cuts {src : Text} (cuts : Cuts det src pieces rest) :
    split (pieces.length + 1) src det =
      some (pieces ++ if rest = [] then [] else [rest]) := by
  simpa [split] using splitLoop_cuts cuts [] []

/-- What is joined with another separator. -/
theorem intercalate_split (pieces : List Text) (rest newString : Text) :
    List.intercalate newString (pieces ++ if rest = [] then [] else [rest]) ++
        (if rest = [] ∧ pieces ≠ [] then newString else []) =
      pieces.flatMap (fun piece => piece ++ newString) ++ rest := by
  by_cases empty : rest = []
  · rw [if_pos empty, List.append_nil]
    by_cases none' : pieces = []
    · simp [none', empty]
    · rw [if_pos ⟨empty, none'⟩, intercalate_append newString none', empty, List.append_nil]
  · rw [if_neg empty, if_neg fun both => empty both.1, List.append_nil]
    exact intercalate_rest pieces newString rest

theorem splits_cuts {src : Text} (nonempty : det ≠ []) (cuts : Cuts det src pieces rest) :
    Splits src det (pieces ++ if rest = [] then [] else [rest]) := by
  refine ⟨fun piece member => ?_, ?_⟩
  · rcases List.mem_append.mp member with isPiece | isRest
    · exact cuts.pieces_clean nonempty piece isPiece
    · split at isRest
      · cases isRest
      · rw [List.mem_singleton.mp isRest]
        exact cuts.rest_clean
  · have joined := intercalate_split pieces rest det
    rw [cuts.flatMap_append] at joined
    by_cases trailing : rest = [] ∧ pieces ≠ []
    · rw [if_pos trailing] at joined
      exact Or.inr joined
    · rw [if_neg trailing, List.append_nil] at joined
      exact Or.inl joined

end Split

/-! ## Replacing -/

section Replace

variable {oldString newString before text rest : Text} {pieces : List Text}

/-- One occurrence is replaced. -/
theorem replaceLoop_found {piece : Text} (fuel : Nat)
    (found : search oldString (piece ++ (oldString ++ text)) = some piece.length)
    (position : (before ++ piece).length < 2 ^ 31) (start : before.length < 2 ^ 31)
    (size : oldString.length < 2 ^ 31) (length : newString.length < 2 ^ 31) :
    replaceLoop oldString newString (fuel + 1) (before ++ (piece ++ (oldString ++ text)))
        before.length =
      if 2 ^ 31 ≤ (before ++ piece ++ newString).length then some .undefined
      else replaceLoop oldString newString fuel (before ++ piece ++ newString ++ text)
        (before ++ piece ++ newString).length := by
  have notEnd : (before ++ piece).length ≠ npos := by
    rw [npos]
    omega
  have inside : ¬ (before ++ (piece ++ (oldString ++ text))).length < (before ++ piece).length := by
    simp
  have next : ((before ++ piece).length : Int) + newString.length =
      ((before ++ piece ++ newString).length : Nat) := by
    rw [← Int.natCast_add, ← List.length_append]
  have whole : before ++ (piece ++ (oldString ++ text)) =
      before ++ piece ++ (oldString ++ text) := (List.append_assoc ..).symm
  have replaced : (before ++ (piece ++ (oldString ++ text))).take (before ++ piece).length ++
      newString ++ (before ++ (piece ++ (oldString ++ text))).drop
        ((before ++ piece).length + oldString.length) = before ++ piece ++ newString ++ text := by
    rw [whole, List.take_left, ← List.drop_drop, List.drop_left, List.drop_left]
  rw [replaceLoop, sizeT_small start, find_append, found, Option.map_some, Option.getD_some,
    ← List.length_append, int32_small position, sizeT_small position, int32_small size,
    int32_small length]
  dsimp only
  rw [sizeT_small size, if_neg notEnd, if_neg inside, replaced, next]
  by_cases long : 2 ^ 31 ≤ (before ++ piece ++ newString).length
  · rw [if_pos long, if_pos (Or.inr (by omega))]
  · rw [if_neg long, if_neg (by omega)]

theorem replaceLoop_absent (fuel : Nat) (absent : search oldString text = none)
    (start : before.length < 2 ^ 31) :
    replaceLoop oldString newString (fuel + 1) (before ++ text) before.length =
      some (.returned (before ++ text)) := by
  have isEnd : sizeT (int32 npos) = npos := by decide
  rw [replaceLoop, sizeT_small start, find_append, absent, Option.map_none, Option.getD_none]
  exact if_pos isEnd

/-- A position that is too large becomes negative, and then larger than every string. -/
theorem replaceLoop_far {piece : Text} (fuel : Nat)
    (found : search oldString (piece ++ (oldString ++ text)) = some piece.length)
    (start : before.length < 2 ^ 31) (far : 2 ^ 31 ≤ (before ++ piece).length)
    (short : (piece ++ (oldString ++ text)).length < 2 ^ 31) (someOld : oldString ≠ []) :
    replaceLoop oldString newString (fuel + 1) (before ++ (piece ++ (oldString ++ text)))
        before.length = some .outOfRange := by
  have positive : 0 < oldString.length := List.length_pos_iff.mpr someOld
  have total : (piece ++ (oldString ++ text)).length =
      piece.length + (oldString.length + text.length) := by
    rw [List.length_append, List.length_append]
  rw [List.length_append] at far
  have position : sizeT (int32 (before.length + piece.length)) =
      2 ^ 64 - 2 ^ 32 + (before.length + piece.length) := by
    rw [sizeT, int32, Nat.mod_eq_of_lt (by omega), if_neg (by omega)]
    omega
  rw [replaceLoop, sizeT_small start, find_append, found, Option.map_some, Option.getD_some]
  dsimp only
  rw [position, if_neg (by rw [npos]; omega), if_pos]
  rw [List.length_append, total]
  omega

/-- The loop replaces every occurrence behind its position. -/
theorem replaceLoop_cuts (cuts : Cuts oldString text pieces rest) (before : Text)
    (start : before.length < 2 ^ 31)
    (fits : pieces ≠ [] → oldString.length < 2 ^ 31 ∧
      (before ++ pieces.flatMap fun piece => piece ++ newString).length < 2 ^ 31) :
    replaceLoop oldString newString (pieces.length + 1) (before ++ text) before.length =
      some (.returned (before ++ (pieces.flatMap fun piece => piece ++ newString) ++ rest)) := by
  induction cuts generalizing before with
  | rest absent => simpa using replaceLoop_absent 0 absent start
  | @piece piece text rest pieces found later ih =>
      obtain ⟨size, long⟩ := fits (List.cons_ne_nil _ _)
      have split : before ++ ((piece :: pieces).flatMap fun piece => piece ++ newString) =
          before ++ piece ++ newString ++ pieces.flatMap fun piece => piece ++ newString := by
        simp
      rw [split] at long ⊢
      have next : (before ++ piece ++ newString).length < 2 ^ 31 := by
        rw [List.length_append] at long
        omega
      have position := next
      rw [List.length_append] at position
      rw [List.length_cons, replaceLoop_found (pieces.length + 1) found (by omega) start size
        (by omega), if_neg (by omega)]
      exact ih _ next fun _ => ⟨size, long⟩

/-- The loop returns nothing if its positions become too large for an `int`. -/
theorem replaceLoop_overflow (cuts : Cuts oldString text pieces rest) (before result : Text)
    (fuel : Nat) (start : before.length < 2 ^ 31) (short : text.length < 2 ^ 31)
    (size : oldString.length < 2 ^ 31) (length : newString.length < 2 ^ 31)
    (someOld : oldString ≠ []) (some' : pieces ≠ [])
    (long : 2 ^ 31 ≤ (before ++ pieces.flatMap fun piece => piece ++ newString).length) :
    replaceLoop oldString newString fuel (before ++ text) before.length ≠
      some (.returned result) := by
  induction cuts generalizing before fuel with
  | rest absent => exact absurd rfl some'
  | @piece piece text rest pieces found later ih =>
      have split : before ++ ((piece :: pieces).flatMap fun piece => piece ++ newString) =
          before ++ piece ++ newString ++ pieces.flatMap fun piece => piece ++ newString := by
        simp
      rw [split] at long
      cases fuel with
      | zero => exact nofun
      | succ fuel =>
          by_cases far : 2 ^ 31 ≤ (before ++ piece).length
          · rw [replaceLoop_far fuel found start far short someOld]
            exact nofun
          · rw [replaceLoop_found fuel found (by omega) start size length]
            split
            · exact nofun
            · rename_i near
              have shorter : text.length < 2 ^ 31 := by
                rw [List.length_append, List.length_append] at short
                omega
              have more : pieces ≠ [] := by
                rintro rfl
                exact near (by simpa using long)
              exact ih _ fuel (by omega) shorter more long

/-- An empty old string is found at every position. -/
theorem replaceLoop_empty (newString result : Text) (length : newString.length < 2 ^ 31)
    (fuel : Nat) (target : Text) (pos : Nat) (within : pos ≤ target.length) (small : pos < 2 ^ 31) :
    replaceLoop [] newString fuel target pos ≠ some (.returned result) := by
  induction fuel generalizing target pos with
  | zero => exact (Option.some_ne_none _).symm
  | succ fuel ih =>
      have here : find target [] pos = some pos := by simp [find, within, search_nil]
      have notEnd : pos ≠ npos := by
        rw [npos]
        omega
      rw [replaceLoop, sizeT_small small, here, Option.getD_some, int32_small small,
        sizeT_small small, if_neg notEnd, if_neg (by omega), int32_small length]
      dsimp only
      split
      · simp
      · rename_i next
        rw [← Int.natCast_add]
        refine ih _ _ ?_ (by omega)
        simp
        omega

end Replace

/-! ## Both functions -/

section Both

variable {src det oldString newString target : Text}

/-- The pieces joined with either string. -/
theorem replaces_cuts {pieces : List Text} {rest : Text} (cuts : Cuts oldString target pieces rest) :
    Replaces oldString newString target
      ((pieces.flatMap fun piece => piece ++ newString) ++ rest) := by
  refine ⟨_, _, split_cuts cuts, ?_⟩
  have joinedOld := intercalate_split pieces rest oldString
  have joinedNew := intercalate_split pieces rest newString
  rw [cuts.flatMap_append] at joinedOld
  by_cases trailing : rest = [] ∧ pieces ≠ []
  · rw [if_pos trailing] at joinedOld joinedNew
    exact Or.inr ⟨joinedOld, joinedNew.symm⟩
  · rw [if_neg trailing, List.append_nil] at joinedOld joinedNew
    exact Or.inl ⟨joinedOld, joinedNew.symm⟩

theorem right_of_fits (fits : Fits det oldString newString target) :
    Right src det oldString newString target := by
  obtain ⟨pieces, rest, cuts⟩ := exists_cuts fits.someDet src
  obtain ⟨pieces', rest', cuts'⟩ := exists_cuts fits.someOld target
  refine ⟨⟨_, _, split_cuts cuts, fun someDet => splits_cuts someDet cuts⟩, ?_⟩
  have replaced := replaceLoop_cuts cuts' [] (by decide) (fits.int pieces' rest' cuts')
  exact ⟨_, _, replaced, fun _ => replaces_cuts cuts'⟩

/-- The lengths of the strings fit an `int`. -/
structure Short (oldString newString target : Text) : Prop where
  oldString : oldString.length < 2 ^ 31
  newString : newString.length < 2 ^ 31
  target : target.length < 2 ^ 31

theorem fits_of_right (short : Short oldString newString target)
    (right : Right src det oldString newString target) : Fits det oldString newString target := by
  obtain ⟨fuel, result, replaced, -⟩ := right.replaceAll
  have someOld : oldString ≠ [] := by
    rintro rfl
    exact replaceLoop_empty newString result short.newString fuel target 0 (Nat.zero_le _)
      (by decide) replaced
  refine ⟨?_, someOld, fun pieces rest cuts some' => ⟨short.oldString, ?_⟩⟩
  · rintro rfl
    obtain ⟨fuel, pieces, ends, -⟩ := right.split
    rw [split, splitLoop_empty] at ends
    cases ends
  · by_contra long
    exact replaceLoop_overflow cuts [] result fuel (by decide) short.target short.oldString
      short.newString someOld some' (Nat.le_of_not_lt long) replaced

/-- `Split` and `ReplaceAll` are right if they are given something to search for and the positions of
`ReplaceAll` fit an `int`; where the lengths of its strings fit, they are right only then. -/
theorem split_replaceAll_iff (src det oldString newString target : Text) :
    (Fits det oldString newString target → Right src det oldString newString target) ∧
      (Short oldString newString target →
        (Right src det oldString newString target ↔ Fits det oldString newString target)) :=
  ⟨right_of_fits, fun short => ⟨fits_of_right short, right_of_fits⟩⟩

/-- An occurrence at each end. -/
theorem split_replaceAll_ends :
    Right ['a', 'b', 'a'] ['a'] ['a'] ['b', 'c'] ['a', 'b', 'a'] ∧
      replaceAll 3 ['a'] ['b', 'c'] ['a', 'b', 'a'] =
        some (.returned ['b', 'c', 'b', 'b', 'c']) := by
  obtain ⟨right, -⟩ :=
    split_replaceAll_iff ['a', 'b', 'a'] ['a'] ['a'] ['b', 'c'] ['a', 'b', 'a']
  refine ⟨right ⟨by decide, by decide, fun pieces rest cuts _ => ⟨by decide, ?_⟩⟩, by decide⟩
  have last : Cuts ['a'] [] [] [] := .rest (by decide)
  have second : Cuts ['a'] (['b'] ++ (['a'] ++ [])) [['b']] [] := .piece (by decide) last
  have twice : Cuts ['a'] ([] ++ (['a'] ++ ['b', 'a'])) [[], ['b']] [] := .piece (by decide) second
  obtain ⟨rfl, -⟩ := cuts.unique twice
  decide

/-- Neither function returns when it searches for an empty string, be the text empty or not. -/
theorem empty_runs_on :
    (∀ fuel, split fuel [] [] = none) ∧
      (∀ fuel result, replaceAll fuel [] ['x'] [] ≠ some (.returned result)) ∧
      ¬ Right [] [] [] ['x'] [] := by
  have runsOn : ∀ fuel, split fuel [] [] = none := fun fuel => splitLoop_empty [] fuel []
  refine ⟨runsOn, fun fuel result => ?_, fun right => ?_⟩
  · exact replaceLoop_empty ['x'] result (by decide) fuel [] 0 (Nat.le_refl 0) (by decide)
  · obtain ⟨fuel, pieces, ends, -⟩ := right.split
    rw [runsOn] at ends
    cases ends

end Both

end MlsImgSearch.Utils.StringUtil
