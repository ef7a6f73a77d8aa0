import Mathlib.Algebra.Order.Ring.Int
import Mathlib.Data.List.Basic
import Mathlib.Tactic.Common

/-!
# Texts

Strings are lists of characters. Numbers are printed in decimal and read with the
checks of `boost::lexical_cast`.
-/

namespace MlsImgSearch.Lib.Strings

abbrev Text := List Char

/-- What a buffer holds as a string that ends with a zero. -/
def cString (buf : Text) : Text := buf.takeWhile (· ≠ '\x00')

/-- The digits of a number behind its sign. -/
def castDigits (negative : Bool) (digits : Text) : Option Int :=
  if digits ≠ [] ∧ digits.all Char.isDigit then
    let number : Int := Nat.ofDigitChars 10 digits 0
    let value := if negative then -number else number
    if -2 ^ 31 ≤ value ∧ value < 2 ^ 31 then some value else none
  else none

/-- `boost::lexical_cast<int>`; `none` is the exception. -/
def lexicalCastInt : Text → Option Int
  | '-' :: digits => castDigits true digits
  | '+' :: digits => castDigits false digits
  | digits => castDigits false digits

def intText (n : Int) : Text :=
  if n < 0 then '-' :: Nat.toDigits 10 n.natAbs else Nat.toDigits 10 n.natAbs

/-- A condition on all members of a given list is checked by evaluation. -/
theorem forall_mem_of_all {α : Type} {p : α → Prop} [DecidablePred p] {list : List α}
    (all : (list.all fun x => decide (p x)) = true) : ∀ x ∈ list, p x :=
  fun x member => of_decide_eq_true (List.all_eq_true.mp all x member)

theorem length_splitOn (sep : Char) (text : Text) :
    (text.splitOn sep).length = text.count sep + 1 := by
  induction text with
  | nil => rfl
  | cons c text ih =>
      rw [List.splitOn_cons_eq_if_modifyHead]
      by_cases same : c = sep
      · rw [if_pos (by simpa using same), List.length_cons, ih, same, List.count_cons_self]
      · rw [if_neg (by simpa using same), List.length_modifyHead, ih,
          List.count_cons_of_ne same]

theorem cString_plain {text : Text} (plain : '\x00' ∉ text) : cString text = text := by
  induction text with
  | nil => rfl
  | cons c text ih =>
      obtain ⟨other, plain⟩ := not_or.mp (mt List.mem_cons.mpr plain)
      have kept : cString (c :: text) = c :: cString text :=
        List.takeWhile_cons_of_pos (decide_eq_true (Ne.symm other))
      rw [kept, ih plain]

theorem cString_eq_iff {text : Text} : cString text = text ↔ '\x00' ∉ text := by
  refine ⟨fun same zero => ?_, cString_plain⟩
  have kept : (cString text).all (· ≠ '\x00') := List.all_takeWhile
  rw [same, List.all_eq_true] at kept
  exact absurd rfl (of_decide_eq_true (kept _ zero))

theorem intText_mem {n : Int} {c : Char} (member : c ∈ intText n) : c = '-' ∨ c.isDigit := by
  unfold intText at member
  split at member
  · rcases List.mem_cons.mp member with rfl | member
    · exact Or.inl rfl
    · exact Or.inr (Nat.isDigit_of_mem_toDigits (by decide) (by decide) member)
  · exact Or.inr (Nat.isDigit_of_mem_toDigits (by decide) (by decide) member)

theorem length_intText {n : Int} (range : -2 ^ 63 ≤ n ∧ n < 2 ^ 63) : (intText n).length ≤ 21 := by
  have short : (Nat.toDigits 10 n.natAbs).length ≤ 20 :=
    (Nat.length_toDigits_le_iff (by decide) (by decide)).mpr (by omega)
  unfold intText
  split
  · rw [List.length_cons]
    omega
  · omega

/-- Only numbers of 32 bits are read. -/
theorem lexicalCastInt_intText (n : Int) :
    lexicalCastInt (intText n) = if -2 ^ 31 ≤ n ∧ n < 2 ^ 31 then some n else none := by
  have value : Nat.ofDigitChars 10 (Nat.toDigits 10 n.natAbs) 0 = n.natAbs :=
    Nat.ofDigitChars_ten_toDigits
  have digits : Nat.toDigits 10 n.natAbs ≠ [] ∧ (Nat.toDigits 10 n.natAbs).all Char.isDigit :=
    ⟨Nat.toDigits_ne_nil, List.all_eq_true.mpr fun c member =>
      Nat.isDigit_of_mem_toDigits (by decide) (by decide) member⟩
  by_cases negative : n < 0
  · rw [intText, if_pos negative, lexicalCastInt, castDigits, if_pos digits, value]
    dsimp only
    rw [if_pos rfl, Int.ofNat_natAbs_of_nonpos (by omega), Int.neg_neg]
  · have unsigned : lexicalCastInt (Nat.toDigits 10 n.natAbs) =
        castDigits false (Nat.toDigits 10 n.natAbs) := by
      unfold lexicalCastInt
      split
      · next isText =>
          have digit := List.all_eq_true.mp digits.2 '-' (isText ▸ List.mem_cons_self ..)
          cases digit
      · next isText =>
          have digit := List.all_eq_true.mp digits.2 '+' (isText ▸ List.mem_cons_self ..)
          cases digit
      · rfl
    rw [intText, if_neg negative, unsigned, castDigits, if_pos digits, value]
    dsimp only
    rw [if_neg Bool.false_ne_true, Int.natAbs_of_nonneg (by omega)]

/-! ## Digits as bytes -/

def isDigit (c : UInt8) : Bool := 48 ≤ c && c ≤ 57

/-- The decimal digits of a number. -/
def decimal (n : Nat) : List UInt8 := (Nat.toDigits 10 n).map fun c => c.toNat.toUInt8

theorem isDigit_of_mem_decimal {n : Nat} {c : UInt8} (member : c ∈ decimal n) :
    isDigit c = true := by
  obtain ⟨digit, printed, rfl⟩ := List.mem_map.mp member
  have bounds := Nat.isDigit_of_mem_toDigits (by decide) (by decide) printed
  obtain ⟨low, high⟩ := Char.isDigit_iff_toNat.mp bounds
  have small : digit.toNat < 256 := Nat.lt_of_le_of_lt high (by decide)
  have value : digit.toNat.toUInt8.toNat = digit.toNat := Nat.mod_eq_of_lt small
  simp only [isDigit, UInt8.le_iff_toNat_le, value, Bool.and_eq_true, decide_eq_true_eq]
  exact ⟨low, high⟩

theorem decimal_ne_nil (n : Nat) : decimal n ≠ [] :=
  fun nothing => Nat.toDigits_ne_nil (List.map_eq_nil_iff.mp nothing)

end MlsImgSearch.Lib.Strings
