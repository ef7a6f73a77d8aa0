import Mathlib.Data.BitVec
import MlsImgSearch.Lib.Strings
import MlsImgSearch.Blitz.BufferCodec
import MlsImgSearch.Blitz2.HttpResponse

/-!
# Numbers printed into a buffer

`PrintInt` prints a number backwards into an array of 32 bytes, with a character behind it, and
writes what it printed. The digits are those of `abs(v)`, which is computed in `int` or in
`int64_t`, as the headers have it.
-/

namespace MlsImgSearch.Blitz.PrintInt

open Lib.Bytes Lib.Strings

/-! ## Printing -/

/-- The `abs` that is called. -/
inductive Overload where
  | int
  | int64
  deriving DecidableEq

/-- `abs(v)`. There is no result for the smallest number. -/
def abs (overload : Overload) (v : BitVec 64) : Option Nat :=
  match overload with
  | .int =>
      let v := (v.setWidth 32).toInt
      if v = -2 ^ 31 then none else some v.natAbs
  | .int64 => if v.toInt = -2 ^ 63 then none else some v.toInt.natAbs

/-- The loop over the digits; `room` is the number of bytes up to `write_head`. There is no result if
the array is too short. -/
def digitLoop : Nat → Nat → List UInt8 → Option (Nat × List UInt8)
  | 0, _, _ => none
  | room + 1, val, buf =>
      let buf := buf.set room (val % 10 + 48).toUInt8
      if val / 10 = 0 then some (room, buf) else digitLoop room (val / 10) buf

/-- The minus sign of a negative number. -/
def signed (v : BitVec 64) (head : Nat × List UInt8) : Option (Nat × List UInt8) :=
  if v.toInt < 0 then
    match head with
    | (0, _) => none
    | (room + 1, buf) => some (room, buf.set room 45)
  else some head

/-- The part of the array that is written to the buffer. -/
def printed (overload : Overload) (junk : Nat → UInt8) (v : BitVec 64) (end' : UInt8) :
    Option (List UInt8) :=
  (abs overload v).bind fun val =>
    ((digitLoop 31 val ((malloc junk 32).set 31 end')).bind (signed v)).map fun (room, buf) =>
      buf.drop room

/-- `PrintInt` of the list of buffers. -/
def printInt (overload : Overload) (junk : Nat → UInt8) (v : BitVec 64) (end' : UInt8)
    (w : BufferCodec.BufferWriter) : Option BufferCodec.BufferWriter :=
  (printed overload junk v end').bind fun text => BufferCodec.writeData junk text w

/-- `PrintInt` of the single buffer. -/
def printInt2 (overload : Overload) (junk : Nat → UInt8) (v : BitVec 64) (end' : UInt8)
    (w : Blitz2.HttpResponse.BufferWriter) : Option Blitz2.HttpResponse.BufferWriter :=
  (printed overload junk v end').bind fun text => w.writeData junk text

/-! ## What is wanted -/

/-- The decimal representation of a number. -/
def decimalInt (v : Int) : List UInt8 := if v < 0 then 45 :: decimal v.natAbs else decimal v.natAbs

/-- Both writers append the number and the character behind it. -/
structure Prints (overload : Overload) (v : BitVec 64) (end' : UInt8) : Prop where
  list : ∀ junk w bytes, BufferCodec.Holds w bytes →
    ∃ w', printInt overload junk v end' w = some w' ∧
      BufferCodec.Holds w' (bytes ++ (decimalInt v.toInt ++ [end']))
  single : ∀ junk, Blitz2.HttpResponse.Appends (printInt2 overload junk v end')
    (decimalInt v.toInt ++ [end'])

/-- Two numbers are printed, and if they differ, so does what is printed. -/
def Right (overload : Overload) (v v' : BitVec 64) (end' : UInt8) : Prop :=
  Prints overload v end' ∧ Prints overload v' end' ∧
    ∀ junk, v ≠ v' → printed overload junk v end' ≠ printed overload junk v' end'

/-- The number, and its negative, is one of the type that `abs` is computed in. -/
def Fits : Overload → BitVec 64 → Prop
  | .int, v => -2 ^ 31 < v.toInt ∧ v.toInt < 2 ^ 31
  | .int64, v => -2 ^ 63 < v.toInt

/-! ## Digits -/

theorem decimal_eq (n : Nat) :
    decimal n = if n / 10 = 0 then [(n % 10 + 48).toUInt8]
      else decimal (n / 10) ++ [(n % 10 + 48).toUInt8] := by
  have digit : ∀ d < 10, (Nat.digitChar d).toNat.toUInt8 = (d + 48).toUInt8 := by decide
  have last := digit (n % 10) (Nat.mod_lt _ (by decide))
  rw [decimal, Nat.toDigits_eq_if (by decide)]
  by_cases small : n < 10
  · rw [if_pos small, if_pos (Nat.div_eq_of_lt small), List.map_singleton, ← last,
      Nat.mod_eq_of_lt small]
  · rw [if_neg small, if_neg (by omega), List.map_append, List.map_singleton, last]
    rfl

theorem drop_set {buf : List UInt8} {i : Nat} (inside : i < buf.length) (c : UInt8) :
    (buf.set i c).drop i = c :: buf.drop (i + 1) := by
  rw [List.drop_eq_getElem_cons (by rwa [List.length_set]), List.getElem_set_self,
    List.drop_set_of_lt (Nat.lt_succ_self i)]

/-- The digits come to stand in front of what stood behind them. -/
theorem digitLoop_eq {room val : Nat} {buf : List UInt8} (some' : 0 < room) (small : val < 10 ^ room)
    (inside : room ≤ buf.length) :
    ∃ room' buf', digitLoop room val buf = some (room', buf') ∧
      room' + (decimal val).length = room ∧ buf'.length = buf.length ∧
      buf'.drop room' = decimal val ++ buf.drop room := by
  induction room generalizing val buf with
  | zero => exact absurd some' (lt_irrefl 0)
  | succ room ih =>
      rw [digitLoop, decimal_eq]
      by_cases last : val / 10 = 0
      · rw [if_pos last, if_pos last]
        exact ⟨room, _, rfl, rfl, List.length_set, drop_set inside _⟩
      · have less : val / 10 < 10 ^ room := by
          rw [pow_succ] at small
          omega
        have more : 0 < room := by
          by_contra none'
          obtain rfl : room = 0 := by omega
          omega
        obtain ⟨room', buf', looped, count, size, content⟩ := ih more less
          (show room ≤ (buf.set room (val % 10 + 48).toUInt8).length by
            rw [List.length_set]
            omega)
        rw [if_neg last, if_neg last, looped]
        refine ⟨room', buf', rfl, ?_, size.trans List.length_set, ?_⟩
        · rw [List.length_append, List.length_singleton]
          omega
        · rw [content, drop_set inside, List.append_assoc, List.singleton_append]

theorem length_decimal_le {val : Nat} (small : val < 10 ^ 20) : (decimal val).length ≤ 20 := by
  rw [decimal, List.length_map]
  exact (Nat.length_toDigits_le_iff (by decide) (by decide)).mpr small

/-- Digits, a sign and the character behind them are printed inside the array. -/
theorem printed_of_abs {overload : Overload} {v : BitVec 64} {val : Nat}
    (absolute : abs overload v = some val) (small : val < 10 ^ 20) (junk : Nat → UInt8) (end' : UInt8) :
    printed overload junk v end' =
      some ((if v.toInt < 0 then 45 :: decimal val else decimal val) ++ [end']) := by
  have size : ((malloc junk 32).set 31 end').length = 32 := by rw [List.length_set, length_malloc]
  have last : ((malloc junk 32).set 31 end').drop 31 = [end'] := by
    rw [drop_set (by rw [length_malloc]; decide), List.drop_eq_nil_of_le (by rw [length_malloc])]
  obtain ⟨room, buf, looped, count, size', content⟩ := digitLoop_eq (by decide)
    (lt_of_lt_of_le small (by decide : 10 ^ 20 ≤ 10 ^ 31))
    (show 31 ≤ ((malloc junk 32).set 31 end').length by omega)
  have short := length_decimal_le small
  rw [last] at content
  rw [printed, absolute, Option.bind_some, looped, Option.bind_some]
  unfold signed
  by_cases negative : v.toInt < 0
  · rw [if_pos negative, if_pos negative]
    obtain ⟨before, rfl⟩ : ∃ before, room = before + 1 := ⟨room - 1, by omega⟩
    show some ((buf.set before 45).drop before) = _
    rw [drop_set (by omega), content, List.cons_append]
  · rw [if_neg negative, if_neg negative]
    exact congrArg some content

/-! ## The numbers -/

theorem decimal_injective {m n : Nat} (same : decimal m = decimal n) : m = n := by
  rw [← Blitz2.HttpResponse.digitsValue_decimal m, same, Blitz2.HttpResponse.digitsValue_decimal]

/-- No number begins with a minus sign. -/
theorem decimal_ne_minus (n : Nat) (rest : List UInt8) : decimal n ≠ 45 :: rest := by
  intro minus
  have digit := isDigit_of_mem_decimal (minus ▸ List.mem_cons_self : (45 : UInt8) ∈ decimal n)
  cases digit

theorem decimalInt_injective {v v' : Int} (same : decimalInt v = decimalInt v') : v = v' := by
  unfold decimalInt at same
  split at same
  · split at same
    · have digits := decimal_injective (List.cons.inj same).2
      omega
    · exact absurd same.symm (decimal_ne_minus _ _)
  · split at same
    · exact absurd same (decimal_ne_minus _ _)
    · have digits := decimal_injective same
      omega

theorem abs_of_fits {overload : Overload} {v : BitVec 64} (fits : Fits overload v) :
    abs overload v = some v.toInt.natAbs := by
  cases overload with
  | int =>
      obtain ⟨low, high⟩ := fits
      have same : (v.setWidth 32).toInt = v.toInt := by
        rw [BitVec.toInt_setWidth, Int.bmod_def]
        rw [BitVec.toInt_eq_toNat_cond] at low high ⊢
        omega
      unfold abs
      dsimp only
      rw [same, if_neg (by omega)]
  | int64 =>
      have low : -2 ^ 63 < v.toInt := fits
      exact if_neg (by omega)

theorem printed_of_fits {overload : Overload} {v : BitVec 64} (fits : Fits overload v)
    (junk : Nat → UInt8) (end' : UInt8) :
    printed overload junk v end' = some (decimalInt v.toInt ++ [end']) := by
  have low := v.le_toInt
  have high := v.toInt_lt
  exact printed_of_abs (abs_of_fits fits) (by omega) junk end'

theorem prints_of_fits {overload : Overload} {v : BitVec 64} (fits : Fits overload v)
    (end' : UInt8) : Prints overload v end' := by
  have short : (decimalInt v.toInt ++ [end']).length ≤ 22 := by
    have low := v.le_toInt
    have high := v.toInt_lt
    have digits := length_decimal_le (show v.toInt.natAbs < 10 ^ 20 by omega)
    rw [List.length_append, List.length_singleton]
    unfold decimalInt
    split
    · rw [List.length_cons]
      omega
    · omega
  constructor
  · intro junk w bytes holds
    rw [printInt, printed_of_fits fits, Option.bind_some]
    exact BufferCodec.writeData_holds holds (le_trans short (by decide))
  · intro junk w inside
    rw [printInt2, printed_of_fits fits, Option.bind_some]
    exact Blitz2.HttpResponse.appends_writeData junk (lt_of_le_of_lt short (by decide)) w inside

theorem abs_lt {overload : Overload} {v : BitVec 64} {val : Nat} (absolute : abs overload v = some val) :
    val < 10 ^ 20 := by
  cases overload with
  | int =>
      obtain ⟨-, same⟩ := Option.ite_none_left_eq_some.mp absolute
      obtain rfl := Option.some.inj same
      have low := (v.setWidth 32).le_toInt
      have high := (v.setWidth 32).toInt_lt
      omega
  | int64 =>
      obtain ⟨-, same⟩ := Option.ite_none_left_eq_some.mp absolute
      obtain rfl := Option.some.inj same
      have low := v.le_toInt
      have high := v.toInt_lt
      omega

/-- A number that is printed has an absolute value, and it is the right one. -/
theorem abs_of_prints {overload : Overload} {v : BitVec 64} {end' : UInt8}
    (prints : Prints overload v end') : abs overload v = some v.toInt.natAbs := by
  obtain ⟨w', done, -, written⟩ := prints.single (fun _ => 0) {} (le_refl 0)
  obtain ⟨text, isText, wrote⟩ := Option.bind_eq_some_iff.mp done
  obtain ⟨val, absolute, -⟩ := Option.bind_eq_some_iff.mp isText
  have small := abs_lt absolute
  rw [printed_of_abs absolute small] at isText
  obtain rfl := Option.some.inj isText
  have short := length_decimal_le small
  obtain ⟨w'', wrote', -, written'⟩ := Blitz2.HttpResponse.appends_writeData (fun _ => 0)
    (show ((if v.toInt < 0 then 45 :: decimal val else decimal val) ++ [end']).length < 2 ^ 31 by
      rw [List.length_append, List.length_singleton]
      split
      · rw [List.length_cons]
        omega
      · omega) {} (le_refl 0)
  obtain rfl := Option.some.inj (wrote.symm.trans wrote')
  have same := List.append_cancel_right (List.append_cancel_left (written.symm.trans written'))
  rw [absolute, decimalInt] at *
  split at same
  · rw [decimal_injective (List.cons.inj same).2]
  · rw [decimal_injective same]

theorem fits_of_prints {overload : Overload} {v : BitVec 64} {end' : UInt8}
    (prints : Prints overload v end') : Fits overload v := by
  have absolute := abs_of_prints prints
  cases overload with
  | int =>
      obtain ⟨notLeast, same⟩ := Option.ite_none_left_eq_some.mp absolute
      have same := Option.some.inj same
      have low := (v.setWidth 32).le_toInt
      have high := (v.setWidth 32).toInt_lt
      show -2 ^ 31 < v.toInt ∧ v.toInt < 2 ^ 31
      omega
  | int64 =>
      obtain ⟨notLeast, -⟩ := Option.ite_none_left_eq_some.mp absolute
      have low := v.le_toInt
      show -2 ^ 63 < v.toInt
      omega

/-- A length is printed as the responses print it. -/
theorem printInt2_length {n : Nat} (small : n < 2 ^ 63) (junk : Nat → UInt8) (end' : UInt8)
    (w : Blitz2.HttpResponse.BufferWriter) :
    printInt2 .int64 junk (BitVec.ofNat 64 n) end' w = w.printInt junk n end' := by
  have value : (BitVec.ofNat 64 n).toInt = n := by
    rw [BitVec.toInt_eq_toNat_cond, BitVec.toNat_ofNat, Nat.mod_eq_of_lt (by omega), if_pos (by omega)]
  have fits : Fits .int64 (BitVec.ofNat 64 n) := by
    show -2 ^ 63 < (BitVec.ofNat 64 n).toInt
    omega
  have short := length_decimal_le (show n < 10 ^ 20 by omega)
  rw [printInt2, printed_of_fits fits, value, decimalInt, if_neg (by omega), Int.natAbs_natCast]
  unfold Blitz2.HttpResponse.BufferWriter.printInt
  rw [if_neg (by rw [List.length_append, List.length_singleton]; omega)]
  rfl

/-- Two numbers are printed, and differently, exactly if `abs` has a result that is right for both. -/
theorem printInt_right_iff (overload : Overload) (v v' : BitVec 64) (end' : UInt8) :
    Right overload v v' end' ↔ Fits overload v ∧ Fits overload v' := by
  constructor
  · rintro ⟨prints, prints', -⟩
    exact ⟨fits_of_prints prints, fits_of_prints prints'⟩
  · rintro ⟨fits, fits'⟩
    refine ⟨prints_of_fits fits end', prints_of_fits fits' end', fun junk differ same => differ ?_⟩
    rw [printed_of_fits fits, printed_of_fits fits'] at same
    exact BitVec.eq_of_toInt_eq
      (decimalInt_injective (List.append_cancel_right (Option.some.inj same)))

/-- The smallest number has no absolute value; with `abs` for `int`, 2^32 + 1 is printed as 1. -/
theorem smallest_not_printed :
    printed .int64 (fun _ => 0) (BitVec.intMin 64) 13 = none ∧
      ¬ Right .int64 (BitVec.intMin 64) 1 13 ∧
      printed .int (fun _ => 0) 4294967297 13 = some [49, 13] ∧ ¬ Right .int 4294967297 1 13 := by
  refine ⟨by decide, fun right => ?_, by decide, fun right => ?_⟩
  · have fits : -2 ^ 63 < (BitVec.intMin 64).toInt := fits_of_prints right.1
    exact absurd fits (by decide)
  · have fits : -2 ^ 31 < (4294967297 : BitVec 64).toInt ∧ (4294967297 : BitVec 64).toInt < 2 ^ 31 :=
      fits_of_prints right.1
    exact absurd fits (by decide)

end MlsImgSearch.Blitz.PrintInt
