import Mathlib.Algebra.Order.Floor.Ring
import Mathlib.Data.Rat.Floor
import MlsImgSearch.Lib.Strings

/-!
# The text form of a quantized image

`Serialize` writes the words of an image with their weights, numbers in
hexadecimal, and `Unserialize` reads numbers in decimal. The arithmetic of the
weights is exact.
-/

namespace MlsImgSearch.Indexer.ImageQuantizedSerializer

open MlsImgSearch.Lib.Strings

variable {K : Type} [Field K] [LinearOrder K] [FloorRing K]

/-- A `std::map` from word ids to the numbers `q_`, in the order of its keys. -/
structure BOFQuantizeResultMap (K : Type) where
  entries : List (Int × K)
  sorted : (entries.map Prod.fst).Pairwise (· < ·)
  ints : ∀ entry ∈ entries, -2 ^ 31 ≤ entry.1 ∧ entry.1 < 2 ^ 31

structure ImageQuantizedDataItem (K : Type) where
  wordId : Int
  weight : K
  deriving DecidableEq

/-- Conversion to `int`; `none` is a value that does not fit. -/
def toInt (x : K) : Option Int :=
  let n := if 0 ≤ x then ⌊x⌋ else ⌈x⌉
  if -2 ^ 31 ≤ n ∧ n < 2 ^ 31 then some n else none

/-- An `int` printed with `std::hex`. -/
def hexText (n : Int) : Text := Nat.toDigits 16 (BitVec.ofInt 32 n).toNat

/-- The loop over the map. -/
def writeEntries (featureNum : Int) : List (Int × K) → Option Text
  | [] => some []
  | (wordId, q) :: rest =>
      (toInt (q / featureNum * 10000)).bind fun n =>
        let text := hexText wordId ++ ':' :: hexText n
        match rest with
        | [] => some text
        | _ :: _ => (writeEntries featureNum rest).map fun more => text ++ ';' :: more

/-- The return value and `out`; `none` is undefined behaviour. -/
def serialize (out : Text) (featureNum : Int) (result : BOFQuantizeResultMap K) :
    Option (Int × Text) :=
  if featureNum ≤ 0 then some (-1, out)
  else (writeEntries featureNum result.entries).map fun text => (0, text)

/-- The loop over the words; `none` is an exception. -/
def readWords : Bool → ImageQuantizedDataItem K → List Text →
    Option (List (ImageQuantizedDataItem K))
  | _, _, [] => some []
  | false, item, word :: rest =>
      (lexicalCastInt word).bind fun n => readWords true { item with wordId := n } rest
  | true, item, word :: rest =>
      (lexicalCastInt word).bind fun n =>
        let item := { item with weight := (n : K) / 10000 }
        (readWords false item rest).map fun items => item :: items

def isSeparator (c : Char) : Bool := c = ';' ∨ c = ':'

/-- The return value and `data`; `none` is an exception. -/
def unserialize (data : List (ImageQuantizedDataItem K)) (src : Text) :
    Option (Int × List (ImageQuantizedDataItem K)) :=
  let words := src.splitOnP isSeparator
  if words.length ≤ 0 ∨ words.length % 2 ≠ 0 then some (-1, data)
  else (readWords false ⟨0, 0⟩ words).map fun items => (0, items)

/-! ## The contract -/

/-- The number that stands for a weight. -/
def scaled (featureNum : Int) (q : K) : Int := ⌊q / featureNum * 10000⌋

/-- The words come back, with their weights cut to four decimal places. -/
def RoundTrips (featureNum : Int) (result : BOFQuantizeResultMap K) : Prop :=
  ∀ out data, ∃ text, serialize out featureNum result = some (0, text) ∧
    unserialize data text = some (0, result.entries.map fun entry =>
      ⟨entry.1, (scaled featureNum entry.2 : K) / 10000⟩)

/-! ## Digits -/

theorem hexDigit_of_mem {n : Nat} {c : Char} (member : c ∈ Nat.toDigits 16 n) :
    ∃ d < 16, c = Nat.digitChar d := by
  induction n using Nat.strong_induction_on with
  | _ n ih =>
      rw [Nat.toDigits_eq_if (by decide)] at member
      split at member
      · next small => exact ⟨n, small, List.mem_singleton.mp member⟩
      · next large =>
          rcases List.mem_append.mp member with front | last
          · exact ih (n / 16) (by omega) front
          · exact ⟨n % 16, Nat.mod_lt n (by decide), List.mem_singleton.mp last⟩

theorem plain_hexDigit {d : Nat} (small : d < 16) :
    isSeparator (Nat.digitChar d) = false ∧ Nat.digitChar d ≠ '-' ∧ Nat.digitChar d ≠ '+' := by
  revert d
  decide

theorem lt_ten_of_isDigit {d : Nat} (small : d < 16) (digit : (Nat.digitChar d).isDigit) :
    d < 10 := by
  revert d
  decide

theorem isDigit_of_lt_ten {d : Nat} (decimal : d < 10) : [Nat.digitChar d].all Char.isDigit := by
  revert d
  decide

/-- Hexadecimal digits give no larger number in decimal, and another one from two digits on. -/
theorem ofDigitChars_hex {n : Nat} (digits : ∀ c ∈ Nat.toDigits 16 n, c.isDigit) :
    Nat.ofDigitChars 10 (Nat.toDigits 16 n) 0 ≤ n ∧
      (Nat.ofDigitChars 10 (Nat.toDigits 16 n) 0 = n → n < 10) := by
  induction n using Nat.base_induction 16 (by decide) with
  | single m small =>
      rw [Nat.toDigits_of_lt_base small] at digits ⊢
      have decimal := lt_ten_of_isDigit small (digits _ (List.mem_singleton_self _))
      rw [Nat.ofDigitChars_cons_digitChar_of_lt_ten decimal, Nat.ofDigitChars_nil]
      omega
  | digit m k small positive ih =>
      rw [← Nat.toDigits_append_toDigits (by decide) positive small,
        Nat.toDigits_of_lt_base small] at digits ⊢
      have front := (ih fun c member => digits c (List.mem_append_left _ member)).1
      have decimal := lt_ten_of_isDigit small
        (digits _ (List.mem_append_right _ (List.mem_singleton_self _)))
      rw [Nat.ofDigitChars_append, Nat.ofDigitChars_cons_digitChar_of_lt_ten decimal,
        Nat.ofDigitChars_nil]
      omega

theorem castDigits_hex {n : Nat} (small : n < 2 ^ 31) :
    castDigits false (Nat.toDigits 16 n) = some (n : Int) ↔ n < 10 := by
  unfold castDigits
  constructor
  · intro read
    split at read
    · next digits =>
        dsimp only at read
        rw [if_neg Bool.false_ne_true] at read
        split at read
        · have value := Int.ofNat.inj (Option.some.inj read)
          exact (ofDigitChars_hex (List.all_eq_true.mp digits.2)).2 value
        · cases read
    · cases read
  · intro decimal
    rw [Nat.toDigits_of_lt_base (Nat.lt_trans decimal (by decide)),
      if_pos ⟨List.cons_ne_nil _ _, isDigit_of_lt_ten decimal⟩,
      Nat.ofDigitChars_cons_digitChar_of_lt_ten decimal,
      Nat.ofDigitChars_nil]
    dsimp only
    rw [if_neg Bool.false_ne_true, if_pos (by omega)]
    simp

theorem lexicalCastInt_plain {text : Text} (plain : ∀ c ∈ text, c ≠ '-' ∧ c ≠ '+') :
    lexicalCastInt text = castDigits false text := by
  unfold lexicalCastInt
  split
  · exact absurd rfl (plain '-' (List.mem_cons_self ..)).1
  · exact absurd rfl (plain '+' (List.mem_cons_self ..)).2
  · rfl

theorem hexText_eq {n : Int} (natural : 0 ≤ n) (small : n < 2 ^ 31) :
    hexText n = Nat.toDigits 16 n.toNat := by
  rw [hexText, BitVec.toNat_ofInt, Int.emod_eq_of_lt natural (by omega)]

/-- A number comes back if it has one decimal digit. -/
theorem lexicalCastInt_hexText {n : Int} (natural : 0 ≤ n) (small : n < 2 ^ 31) :
    lexicalCastInt (hexText n) = some n ↔ n < 10 := by
  have plain : ∀ c ∈ Nat.toDigits 16 n.toNat, c ≠ '-' ∧ c ≠ '+' := by
    intro c member
    obtain ⟨d, small, rfl⟩ := hexDigit_of_mem member
    exact (plain_hexDigit small).2
  obtain ⟨k, rfl⟩ := Int.eq_ofNat_of_zero_le natural
  rw [hexText_eq natural small, lexicalCastInt_plain plain, Int.toNat_natCast,
    castDigits_hex (by omega)]
  omega

theorem isSeparator_hexText {n : Int} : ∀ c ∈ hexText n, isSeparator c = false := by
  intro c member
  obtain ⟨d, small, rfl⟩ := hexDigit_of_mem member
  exact (plain_hexDigit small).1

/-! ## Words -/

/-- The words that a text is split into. -/
def wordsOf (featureNum : Int) (entries : List (Int × K)) : List Text :=
  entries.flatMap fun entry => [hexText entry.1, hexText (scaled featureNum entry.2)]

variable {featureNum : Int} {entries : List (Int × K)}

theorem splitOnP_entry (wordId n : Int) :
    (hexText wordId ++ ':' :: hexText n).splitOnP isSeparator = [hexText wordId, hexText n] := by
  rw [List.splitOnP_append_cons_of_forall_mem isSeparator_hexText ':' (by decide),
    List.splitOnP_eq_singleton isSeparator_hexText]

theorem splitOnP_entry_append (wordId n : Int) (more : Text) :
    (hexText wordId ++ ':' :: hexText n ++ ';' :: more).splitOnP isSeparator =
      hexText wordId :: hexText n :: more.splitOnP isSeparator := by
  rw [List.append_assoc, List.cons_append,
    List.splitOnP_append_cons_of_forall_mem isSeparator_hexText ':' (by decide),
    List.splitOnP_append_cons_of_forall_mem isSeparator_hexText ';' (by decide)]

theorem weight_inj {m n : Int} : (m : K) / 10000 = n / 10000 ↔ m = n := by
  rw [div_left_inj' (by norm_num), Int.cast_inj]

/-- The items come out right if and only if every number is read right. -/
theorem readWords_iff (item : ImageQuantizedDataItem K) :
    readWords false item (wordsOf featureNum entries) = some (entries.map fun entry =>
        ⟨entry.1, (scaled featureNum entry.2 : K) / 10000⟩) ↔
      ∀ entry ∈ entries, lexicalCastInt (hexText entry.1) = some entry.1 ∧
        lexicalCastInt (hexText (scaled featureNum entry.2)) =
          some (scaled featureNum entry.2) := by
  induction entries generalizing item with
  | nil => exact ⟨fun _ => nofun, fun _ => rfl⟩
  | cons entry rest ih =>
      have words : wordsOf featureNum (entry :: rest) = hexText entry.1 ::
          hexText (scaled featureNum entry.2) :: wordsOf featureNum rest := rfl
      rw [words, List.forall_mem_cons, readWords]
      constructor
      · intro read
        obtain ⟨wordId, isWordId, read⟩ := Option.bind_eq_some_iff.mp read
        obtain ⟨n, isNumber, read⟩ := Option.bind_eq_some_iff.mp read
        obtain ⟨items, later, read⟩ := Option.map_eq_some_iff.mp read
        obtain ⟨first, rfl⟩ := List.cons.inj read
        obtain ⟨rfl, weight⟩ := ImageQuantizedDataItem.mk.inj first
        obtain rfl := weight_inj.mp weight
        exact ⟨⟨isWordId, isNumber⟩, (ih _).mp later⟩
      · rintro ⟨⟨isWordId, isNumber⟩, later⟩
        rw [isWordId, Option.bind_some, readWords, isNumber, Option.bind_some]
        dsimp only
        rw [(ih _).mpr later]
        rfl

theorem length_wordsOf : (wordsOf featureNum entries).length = 2 * entries.length := by
  rw [wordsOf, List.length_flatMap]
  simp [Nat.mul_comm]

theorem unserialize_iff {text : Text} (data : List (ImageQuantizedDataItem K))
    (nonempty : entries ≠ []) (words : text.splitOnP isSeparator = wordsOf featureNum entries) :
    unserialize data text = some (0, entries.map fun entry =>
        ⟨entry.1, (scaled featureNum entry.2 : K) / 10000⟩) ↔
      ∀ entry ∈ entries, lexicalCastInt (hexText entry.1) = some entry.1 ∧
        lexicalCastInt (hexText (scaled featureNum entry.2)) =
          some (scaled featureNum entry.2) := by
  have length := List.length_pos_of_ne_nil nonempty
  have even : ¬ ((wordsOf featureNum entries).length ≤ 0 ∨
      (wordsOf featureNum entries).length % 2 ≠ 0) := by
    rw [length_wordsOf]
    omega
  rw [unserialize, words, if_neg even, ← readWords_iff ⟨0, 0⟩]
  constructor
  · intro read
    obtain ⟨items, found, same⟩ := Option.map_eq_some_iff.mp read
    rw [found, (Prod.mk.inj same).2]
  · intro read
    rw [read]
    rfl

theorem serialize_iff {out text : Text} {result : BOFQuantizeResultMap K}
    (positive : 0 < featureNum) :
    serialize out featureNum result = some (0, text) ↔
      writeEntries featureNum result.entries = some text := by
  rw [serialize, if_neg (by omega)]
  constructor
  · intro written
    obtain ⟨found, isText, same⟩ := Option.map_eq_some_iff.mp written
    rw [isText, (Prod.mk.inj same).2]
  · intro written
    rw [written]
    rfl

/-! ## Weights -/

variable [IsStrictOrderedRing K]

theorem toInt_scaled {q : K} (natural : 0 ≤ q) (positive : 0 < featureNum)
    (small : scaled featureNum q < 2 ^ 31) :
    toInt (q / featureNum * 10000) = some (scaled featureNum q) := by
  have sign : 0 ≤ q / featureNum * 10000 := by positivity
  have floor : 0 ≤ scaled featureNum q := Int.floor_nonneg.mpr sign
  unfold toInt
  dsimp only
  rw [if_pos sign]
  exact if_pos ⟨Int.le_trans (by decide) floor, small⟩

theorem toInt_of_large {q : K} (natural : 0 ≤ q) (positive : 0 < featureNum)
    (large : 2 ^ 31 ≤ scaled featureNum q) : toInt (q / featureNum * 10000) = none := by
  have sign : 0 ≤ q / featureNum * 10000 := by positivity
  unfold toInt
  dsimp only
  rw [if_pos sign]
  exact if_neg fun range => absurd range.2 (not_lt.mpr large)

/-- What is written splits into the words, and every weight fits an `int`. -/
theorem writeEntries_eq_some {text : Text} (naturals : ∀ entry ∈ entries, 0 ≤ entry.2)
    (positive : 0 < featureNum) (nonempty : entries ≠ [])
    (written : writeEntries featureNum entries = some text) :
    text.splitOnP isSeparator = wordsOf featureNum entries ∧
      ∀ entry ∈ entries, scaled featureNum entry.2 < 2 ^ 31 := by
  induction entries generalizing text with
  | nil => exact absurd rfl nonempty
  | cons entry rest ih =>
      obtain ⟨wordId, q⟩ := entry
      have natural := naturals (wordId, q) (List.mem_cons_self ..)
      obtain ⟨n, converted, written⟩ := Option.bind_eq_some_iff.mp written
      have small : scaled featureNum q < 2 ^ 31 := by
        by_contra large
        rw [toInt_of_large natural positive (not_lt.mp large)] at converted
        cases converted
      rw [toInt_scaled natural positive small] at converted
      obtain rfl := Option.some.inj converted
      cases rest with
      | nil =>
          obtain rfl := Option.some.inj written
          refine ⟨splitOnP_entry wordId _, fun entry member => ?_⟩
          rw [List.mem_singleton.mp member]
          exact small
      | cons next rest =>
          obtain ⟨more, later, rfl⟩ := Option.map_eq_some_iff.mp written
          obtain ⟨words, smalls⟩ := ih
            (fun entry member => naturals entry (List.mem_cons_of_mem _ member))
            (List.cons_ne_nil _ _) later
          refine ⟨?_, List.forall_mem_cons.mpr ⟨small, smalls⟩⟩
          rw [splitOnP_entry_append, words]
          rfl

theorem writeEntries_isSome (naturals : ∀ entry ∈ entries, 0 ≤ entry.2)
    (positive : 0 < featureNum) (small : ∀ entry ∈ entries, scaled featureNum entry.2 < 2 ^ 31) :
    ∃ text, writeEntries featureNum entries = some text := by
  induction entries with
  | nil => exact ⟨[], rfl⟩
  | cons entry rest ih =>
      obtain ⟨natural, naturals⟩ := List.forall_mem_cons.mp naturals
      obtain ⟨fits, small⟩ := List.forall_mem_cons.mp small
      obtain ⟨more, later⟩ := ih naturals small
      rw [writeEntries, toInt_scaled natural positive fits, Option.bind_some]
      cases rest with
      | nil => exact ⟨_, rfl⟩
      | cons next rest =>
          dsimp only
          rw [later]
          exact ⟨_, rfl⟩

/--
Text of a quantized image: for every map with words and no negative numbers, the
words and their weights come back if and only if every word id and every weight
in units of 1/10000 has one decimal digit.
-/
theorem roundTrips_iff_one_digit {featureNum : Int} {result : BOFQuantizeResultMap K}
    (nonempty : result.entries ≠ [])
    (naturals : ∀ entry ∈ result.entries, 0 ≤ entry.1 ∧ 0 ≤ entry.2)
    (positive : 0 < featureNum) :
    RoundTrips featureNum result ↔
      ∀ entry ∈ result.entries, entry.1 < 10 ∧ entry.2 / featureNum * 10000 < 10 := by
  have weights : ∀ entry ∈ result.entries, 0 ≤ entry.2 := fun entry member =>
    (naturals entry member).2
  have floors : ∀ entry ∈ result.entries, 0 ≤ scaled featureNum entry.2 := by
    intro entry member
    have natural := weights entry member
    exact Int.floor_nonneg.mpr (by positivity)
  have ten : ∀ q : K, scaled featureNum q < 10 ↔ q / featureNum * 10000 < 10 := fun q =>
    Int.floor_lt.trans (by norm_num)
  constructor
  · intro trips entry member
    obtain ⟨text, written, read⟩ := trips [] []
    obtain ⟨words, small⟩ :=
      writeEntries_eq_some weights positive nonempty ((serialize_iff positive).mp written)
    obtain ⟨wordId, number⟩ := (unserialize_iff [] nonempty words).mp read entry member
    have natural := (naturals entry member).1
    refine ⟨(lexicalCastInt_hexText natural (result.ints entry member).2).mp wordId, ?_⟩
    rw [← ten]
    exact (lexicalCastInt_hexText (floors entry member) (small entry member)).mp number
  · intro digits out data
    have small : ∀ entry ∈ result.entries, scaled featureNum entry.2 < 10 :=
      fun entry member => (ten _).mpr (digits entry member).2
    have fits : ∀ entry ∈ result.entries, scaled featureNum entry.2 < 2 ^ 31 :=
      fun entry member => Int.lt_trans (small entry member) (by decide)
    obtain ⟨text, written⟩ := writeEntries_isSome weights positive fits
    obtain ⟨words, -⟩ := writeEntries_eq_some weights positive nonempty written
    refine ⟨text, (serialize_iff positive).mpr written,
      (unserialize_iff data nonempty words).mpr fun entry member => ⟨?_, ?_⟩⟩
    · exact (lexicalCastInt_hexText (naturals entry member).1 (result.ints entry member).2).mpr
        (digits entry member).1
    · exact (lexicalCastInt_hexText (floors entry member) (fits entry member)).mpr
        (small entry member)

/-- Two words with small weights. -/
def smallWords : BOFQuantizeResultMap Rat where
  entries := [(3, 1 / 2000), (9, 1 / 4000)]
  sorted := by decide
  ints := by decide

theorem roundTrips_small_words : RoundTrips 1 smallWords :=
  (roundTrips_iff_one_digit (by decide) (by decide +kernel) (by decide)).mpr (by decide +kernel)

/-- The word 16 is written as `10`. -/
theorem not_roundTrips_word_sixteen :
    ¬ RoundTrips 4 (⟨[(16, 2)], by decide, by decide⟩ : BOFQuantizeResultMap Rat) := by
  intro trips
  obtain ⟨text, written, read⟩ := trips [] []
  have isText : serialize [] 4 (⟨[(16, 2)], by decide, by decide⟩ : BOFQuantizeResultMap Rat) =
      some (0, "10:1388".toList) := by decide +kernel
  rw [isText] at written
  obtain rfl := (Prod.mk.inj (Option.some.inj written)).2
  revert read
  decide +kernel

end MlsImgSearch.Indexer.ImageQuantizedSerializer
