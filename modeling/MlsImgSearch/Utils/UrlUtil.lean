import Mathlib.Data.List.Basic
import Mathlib.Tactic.Common
import MlsImgSearch.Lib.Int32

/-!
# Escaping in URLs

A table says which bytes are escaped. The decoder replaces escapes in place, and it
replaces `+` as well.
-/

namespace MlsImgSearch.Utils.UrlUtil

open Lib.Int32

/-! ## Encoding -/

def testCharTable : List UInt8 :=
  [0x00, 0x1e, 0x1e, 0x1e, 0x1e, 0x1e, 0x1e, 0x1e,
   0x1e, 0x1e, 0x1f, 0x1e, 0x1e, 0x1e, 0x1e, 0x1e,
   0x1e, 0x1e, 0x1e, 0x1e, 0x1e, 0x1e, 0x1e, 0x1e,
   0x1e, 0x1e, 0x1e, 0x1e, 0x1e, 0x1e, 0x1e, 0x1e,
   0x0e, 0x00, 0x17, 0x06, 0x01, 0x06, 0x01, 0x01,
   0x09, 0x09, 0x01, 0x00, 0x08, 0x00, 0x00, 0x0a,
   0x00, 0x00, 0x00, 0x00, 0x00, 0x00, 0x00, 0x00,
   0x00, 0x00, 0x08, 0x0f, 0x0f, 0x08, 0x0f, 0x0f,
   0x08, 0x00, 0x00, 0x00, 0x00, 0x00, 0x00, 0x00,
   0x00, 0x00, 0x00, 0x00, 0x00, 0x00, 0x00, 0x00,
   0x00, 0x00, 0x00, 0x00, 0x00, 0x00, 0x00, 0x00,
   0x00, 0x00, 0x00, 0x0f, 0x1f, 0x0f, 0x07, 0x00,
   0x07, 0x00, 0x00, 0x00, 0x00, 0x00, 0x00, 0x00,
   0x00, 0x00, 0x00, 0x00, 0x00, 0x00, 0x00, 0x00,
   0x00, 0x00, 0x00, 0x00, 0x00, 0x00, 0x00, 0x00,
   0x00, 0x00, 0x00, 0x0f, 0x07, 0x0f, 0x01, 0x1e] ++ List.replicate 128 0x16

/-- `TEST_CHAR`. -/
def testChar (c f : UInt8) : Bool := testCharTable.getD c.toNat 0 &&& f ≠ 0

/-- The bytes of `0123456789abcdef`. -/
def c2xTable : List UInt8 := [48, 49, 50, 51, 52, 53, 54, 55, 56, 57, 97, 98, 99, 100, 101, 102]

def percent : UInt8 := 37

def plus : UInt8 := 43

def blank : UInt8 := 32

def c2x (what : UInt8) : List UInt8 :=
  [percent, c2xTable.getD (what.toNat / 16) 0, c2xTable.getD (what.toNat % 16) 0]

/-- What the loop of `url_encode` writes for the memory at `src`, with the zero at the end; `none` if
it reads on behind the memory. -/
def encodeLoop : List UInt8 → Option (List UInt8)
  | [] => none
  | c :: rest =>
      if c = 0 then some [0]
      else if testChar c 0x04 then (encodeLoop rest).map (c2x c ++ ·)
      else (encodeLoop rest).map (c :: ·)

def strlen (src : List UInt8) : Nat := (src.takeWhile (· ≠ 0)).length

/-- The number of bytes that are allocated, and what is written into them. -/
def urlEncode (src : List UInt8) (len : Int) : Option (Nat × List UInt8) :=
  let srcLen := if len = 0 then strlen src else 0
  (encodeLoop src).map fun written => (3 * srcLen + 3, written)

/-! ## Decoding -/

def isxdigit (c : UInt8) : Bool := 48 ≤ c ∧ c ≤ 57 ∨ 65 ≤ c ∧ c ≤ 70 ∨ 97 ≤ c ∧ c ≤ 102

def tolower (c : UInt8) : UInt8 := if 65 ≤ c ∧ c ≤ 90 then c + 32 else c

def htoiDigit (c : UInt8) : UInt8 :=
  let c := tolower c
  if 48 ≤ c ∧ c ≤ 57 then c - 48 else c - 97 + 10

def htoi (first second : UInt8) : UInt8 := htoiDigit first * 16 + htoiDigit second

/-- Whether two digits of an escape follow, read one after the other; `none` if the memory ends. -/
def digitsFollow : List UInt8 → Option Bool
  | [] => none
  | first :: rest =>
      if isxdigit first then
        match rest with
        | [] => none
        | second :: _ => some (isxdigit second)
      else some false

/-- The loop of `url_decode` for the memory at `data`, with the bytes that it writes; `none` if it
leaves the memory. -/
def decodeLoop : List UInt8 → Int → Option (List UInt8)
  | [], len => if len = 0 then some [] else none
  | c :: rest, len =>
      if len = 0 then some []
      else if c = plus then (decodeLoop rest (len - 1)).map (blank :: ·)
      else if c = percent ∧ 2 ≤ len - 1 then
        match digitsFollow rest, rest with
        | some true, first :: second :: rest =>
            (decodeLoop rest (len - 1 - 2)).map (htoi first second :: ·)
        | some false, rest => (decodeLoop rest (len - 1)).map (c :: ·)
        | _, _ => none
      else (decodeLoop rest (len - 1)).map (c :: ·)

/-- What is returned, and the memory at `str` afterwards. -/
def urlDecode (str : List UInt8) (len : Int) : Option (Int × List UInt8) :=
  match decodeLoop str len with
  | none => none
  | some dest =>
      if dest.length < str.length then
        some (int32 dest.length, dest ++ 0 :: str.drop (dest.length + 1))
      else none

/-! ## What is wanted -/

/-- Only bytes that need no escaping, and escapes. -/
inductive Escaped : List UInt8 → Prop where
  | nil : Escaped []
  | plain {c : UInt8} {rest : List UInt8} (other : c ≠ 0) (unescaped : testChar c 0x04 = false)
      (later : Escaped rest) : Escaped (c :: rest)
  | escape {first second : UInt8} {rest : List UInt8} (isFirst : isxdigit first)
      (isSecond : isxdigit second) (later : Escaped rest) :
      Escaped (percent :: first :: second :: rest)

/-- The text is written inside the memory that was allocated, it is escaped, and the decoder restores
`s` from it. -/
def Restores (s : List UInt8) (len : Int) : Prop :=
  ∃ allocated text, urlEncode (s ++ [0]) len = some (allocated, text ++ [0]) ∧
    text.length + 1 ≤ allocated ∧ Escaped text ∧
    ∃ memory, urlDecode (text ++ [0]) (int32 text.length) = some ((s.length : Int), memory) ∧
      s ++ [0] <+: memory

/-- The encoded text of `s`. -/
def encode (s : List UInt8) : List UInt8 :=
  s.flatMap fun c => if testChar c 0x04 then c2x c else [c]

/-- No length is given or the text is not longer than two bytes, there is no `+`, and the length of
the text is an `int`. -/
structure Restorable (s : List UInt8) (len : Int) : Prop where
  fits : len = 0 ∨ (encode s).length ≤ 2
  noPlus : plus ∉ s
  int : (encode s).length < 2 ^ 31

/-! ## Bytes -/

section Bytes

variable {c : UInt8} {rest : List UInt8}

theorem hexDigits : ∀ n < 16, isxdigit (c2xTable.getD n 0) = true ∧
    (htoiDigit (c2xTable.getD n 0)).toNat = n ∧ c2xTable.getD n 0 ≠ plus ∧
    c2xTable.getD n 0 ≠ percent := by decide

theorem htoi_c2x (c : UInt8) :
    htoi (c2xTable.getD (c.toNat / 16) 0) (c2xTable.getD (c.toNat % 16) 0) = c := by
  have bound := c.toNat_lt
  obtain ⟨-, high, -⟩ := hexDigits (c.toNat / 16) (by omega)
  obtain ⟨-, low, -⟩ := hexDigits (c.toNat % 16) (Nat.mod_lt _ (by decide))
  refine UInt8.toNat_inj.mp ?_
  rw [htoi, UInt8.toNat_add, UInt8.toNat_mul, high, low]
  have sixteen : (16 : UInt8).toNat = 16 := rfl
  rw [sixteen]
  omega

theorem testChar_percent : testChar percent 0x04 = true := by decide

theorem testChar_plus : testChar plus 0x04 = false := by decide

theorem unescaped_ne_percent (unescaped : testChar c 0x04 = false) : c ≠ percent := by
  rintro rfl
  rw [testChar_percent] at unescaped
  cases unescaped

theorem escaped_ne_plus (escaped : testChar c 0x04 = true) : c ≠ plus := by
  rintro rfl
  rw [testChar_plus] at escaped
  cases escaped

theorem digitsFollow_c2x (c : UInt8) (rest : List UInt8) :
    digitsFollow (c2xTable.getD (c.toNat / 16) 0 :: c2xTable.getD (c.toNat % 16) 0 :: rest) =
      some true := by
  have bound := c.toNat_lt
  obtain ⟨high, -⟩ := hexDigits (c.toNat / 16) (by omega)
  obtain ⟨low, -⟩ := hexDigits (c.toNat % 16) (Nat.mod_lt _ (by decide))
  rw [digitsFollow, if_pos high, low]

end Bytes

/-! ## The encoder -/

section Encode

variable {s : List UInt8}

theorem encode_cons (c : UInt8) (s : List UInt8) :
    encode (c :: s) = (if testChar c 0x04 then c2x c else [c]) ++ encode s :=
  List.flatMap_cons

theorem encodeLoop_eq (zeroFree : 0 ∉ s) : encodeLoop (s ++ [0]) = some (encode s ++ [0]) := by
  induction s with
  | nil => rfl
  | cons c s ih =>
      obtain ⟨other, zeroFree⟩ := not_or.mp (mt List.mem_cons.mpr zeroFree)
      rw [List.cons_append, encodeLoop, if_neg (Ne.symm other), ih zeroFree, encode_cons]
      split
      · rw [Option.map_some, List.append_assoc]
      · rfl

theorem strlen_eq (zeroFree : 0 ∉ s) : strlen (s ++ [0]) = s.length := by
  have all : ∀ c ∈ s, decide (c ≠ 0) = true := fun c member =>
    decide_eq_true fun zero => zeroFree (zero ▸ member)
  rw [strlen, List.takeWhile_append_of_pos all]
  simp

theorem urlEncode_eq (zeroFree : 0 ∉ s) (len : Int) :
    urlEncode (s ++ [0]) len =
      some (3 * (if len = 0 then s.length else 0) + 3, encode s ++ [0]) := by
  rw [urlEncode, encodeLoop_eq zeroFree, strlen_eq zeroFree]
  rfl

theorem escaped_encode (zeroFree : 0 ∉ s) : Escaped (encode s) := by
  induction s with
  | nil => exact .nil
  | cons c s ih =>
      obtain ⟨other, zeroFree⟩ := not_or.mp (mt List.mem_cons.mpr zeroFree)
      rw [encode_cons]
      cases escaped : testChar c 0x04 with
      | true =>
          have bound := c.toNat_lt
          obtain ⟨high, -⟩ := hexDigits (c.toNat / 16) (by omega)
          obtain ⟨low, -⟩ := hexDigits (c.toNat % 16) (Nat.mod_lt _ (by decide))
          exact .escape high low (ih zeroFree)
      | false => exact .plain (Ne.symm other) escaped (ih zeroFree)

theorem length_encode_le (s : List UInt8) : (encode s).length ≤ 3 * s.length := by
  induction s with
  | nil => exact Nat.le_refl 0
  | cons c s ih =>
      rw [encode_cons, List.length_append, List.length_cons]
      split
      · rw [show (c2x c).length = 3 from rfl]
        omega
      · rw [List.length_singleton]
        omega

/-- The text and its zero fit exactly if no length is given or the text is short. -/
theorem encode_fits_iff (s : List UInt8) (len : Int) :
    (encode s).length + 1 ≤ 3 * (if len = 0 then s.length else 0) + 3 ↔
      len = 0 ∨ (encode s).length ≤ 2 := by
  have longest := length_encode_le s
  split
  · rename_i zero
    exact iff_of_true (by omega) (Or.inl zero)
  · rename_i given
    simp only [given, false_or]
    omega

end Encode

/-! ## The decoder -/

section Decode

variable {c : UInt8} {rest tail s out : List UInt8} {len : Int}

/-- What the decoder makes of a byte that is not escaped. -/
def unplus (c : UInt8) : UInt8 := if c = plus then blank else c

theorem decodeLoop_cons : decodeLoop (c :: rest) len =
    if len = 0 then some []
    else if c = plus then (decodeLoop rest (len - 1)).map (blank :: ·)
    else if c = percent ∧ 2 ≤ len - 1 then
      match digitsFollow rest, rest with
      | some true, first :: second :: rest =>
          (decodeLoop rest (len - 1 - 2)).map (htoi first second :: ·)
      | some false, rest => (decodeLoop rest (len - 1)).map (c :: ·)
      | _, _ => none
    else (decodeLoop rest (len - 1)).map (c :: ·) := by
  rw [decodeLoop.eq_def]

theorem decodeLoop_zero (data : List UInt8) : decodeLoop data 0 = some [] := by
  cases data with
  | nil => rfl
  | cons c rest => rw [decodeLoop_cons, if_pos rfl]

/-- A byte is copied if it begins no escape or too few bytes follow. -/
theorem decodeLoop_copy (some' : len ≠ 0) (copied : c ≠ percent ∨ len - 1 < 2) :
    decodeLoop (c :: rest) len = (decodeLoop rest (len - 1)).map (unplus c :: ·) := by
  have noEscape : ¬ (c = percent ∧ 2 ≤ len - 1) := by
    rintro ⟨isPercent, enough⟩
    rcases copied with other | short
    · exact other isPercent
    · omega
  rw [decodeLoop_cons, if_neg some', if_neg noEscape, unplus]
  split <;> rfl

theorem decodeLoop_c2x (c : UInt8) (enough : 3 ≤ len) :
    decodeLoop (c2x c ++ rest) len = (decodeLoop rest (len - 3)).map (c :: ·) := by
  have noPlus : percent ≠ plus := by decide
  rw [c2x, List.cons_append, List.cons_append, List.cons_append, List.nil_append,
    decodeLoop_cons, if_neg (by omega), if_neg noPlus, if_pos ⟨rfl, by omega⟩, digitsFollow_c2x]
  dsimp only
  rw [htoi_c2x, show len - 1 - 2 = len - 3 by omega]

/-- A negative length does not come to zero before the memory ends. -/
theorem decodeLoop_negative (data : List UInt8) (negative : len < 0) :
    decodeLoop data len = none := by
  induction data generalizing len with
  | nil =>
      rw [decodeLoop, if_neg (by omega)]
  | cons c rest ih =>
      rw [decodeLoop_copy (by omega) (Or.inr (by omega)), ih (by omega)]
      rfl

/-- The whole text is decoded but for `+`. -/
theorem decodeLoop_encode (s tail : List UInt8) :
    decodeLoop (encode s ++ tail) (encode s).length = some (s.map unplus) := by
  induction s with
  | nil => exact decodeLoop_zero tail
  | cons c s ih =>
      rw [encode_cons]
      cases escaped : testChar c 0x04 with
      | true =>
          have length : ((c2x c ++ encode s).length : Int) - 3 = (encode s).length := by
            rw [List.length_append, show (c2x c).length = 3 from rfl]
            omega
          have enough : (3 : Int) ≤ ((c2x c ++ encode s).length : Nat) := by omega
          have same : unplus c = c := if_neg (escaped_ne_plus escaped)
          rw [if_pos rfl, List.append_assoc, decodeLoop_c2x c enough, length, ih, List.map_cons,
            same]
          rfl
      | false =>
          have length : (([c] ++ encode s).length : Int) - 1 = (encode s).length := by
            rw [List.length_append, List.length_singleton]
            omega
          have positive : (([c] ++ encode s).length : Int) ≠ 0 := by omega
          rw [if_neg Bool.false_ne_true, List.append_assoc, List.singleton_append]
          rw [decodeLoop_copy positive (Or.inl (unescaped_ne_percent escaped)), length, ih]
          rfl

/-- Less than three bytes are copied. -/
theorem length_decodeLoop_few {first second : UInt8} {k : Nat} (few : k < 3)
    (decoded : decodeLoop (first :: second :: rest) k = some out) : out.length = k := by
  obtain rfl | rfl | rfl : k = 0 ∨ k = 1 ∨ k = 2 := by omega
  · rw [Int.natCast_zero, decodeLoop_zero] at decoded
    obtain rfl := Option.some.inj decoded
    rfl
  · rw [decodeLoop_copy (by decide) (Or.inr (by decide))] at decoded
    rw [show ((1 : Nat) : Int) - 1 = 0 from rfl, decodeLoop_zero] at decoded
    obtain rfl := Option.some.inj decoded
    rfl
  · rw [decodeLoop_copy (by decide) (Or.inr (by decide)),
      show ((2 : Nat) : Int) - 1 = 1 from rfl,
      decodeLoop_copy (by decide) (Or.inr (by decide))] at decoded
    rw [show (1 : Int) - 1 = 0 from rfl, decodeLoop_zero] at decoded
    obtain rfl := Option.some.inj decoded
    rfl

/-- The beginning of a text does not give more than its share. -/
theorem decodeLoop_short (s : List UInt8) (k : Nat) (part : k ≤ (encode s).length)
    (decoded : decodeLoop (encode s ++ tail) k = some out) :
    (encode s).length + 3 * out.length ≤ k + 3 * s.length + 6 := by
  induction s generalizing k out with
  | nil =>
      obtain rfl : k = 0 := Nat.le_zero.mp part
      rw [Int.natCast_zero, decodeLoop_zero] at decoded
      obtain rfl := Option.some.inj decoded
      simp [encode]
  | cons c s ih =>
      by_cases zero : k = 0
      · subst zero
        rw [Int.natCast_zero, decodeLoop_zero] at decoded
        obtain rfl := Option.some.inj decoded
        have longest := length_encode_le (c :: s)
        rw [List.length_nil]
        omega
      · rw [encode_cons] at part decoded ⊢
        cases escaped : testChar c 0x04 with
        | false =>
            rw [escaped, if_neg Bool.false_ne_true, List.length_append,
              List.length_singleton] at part
            rw [escaped, if_neg Bool.false_ne_true, List.append_assoc, List.singleton_append,
              decodeLoop_copy (by omega) (Or.inl (unescaped_ne_percent escaped))] at decoded
            obtain ⟨later, decodedLater, rfl⟩ := Option.map_eq_some_iff.mp decoded
            rw [show (k : Int) - 1 = (k - 1 : Nat) by omega] at decodedLater
            have shorter := ih (k - 1) (by omega) decodedLater
            rw [if_neg Bool.false_ne_true, List.length_append, List.length_singleton,
              List.length_cons, List.length_cons]
            omega
        | true =>
            rw [escaped, if_pos rfl, List.length_append, show (c2x c).length = 3 from rfl] at part
            rw [escaped, if_pos rfl, List.append_assoc] at decoded
            rw [if_pos rfl, List.length_append, show (c2x c).length = 3 from rfl, List.length_cons]
            by_cases whole : 3 ≤ k
            · rw [decodeLoop_c2x c (by omega)] at decoded
              obtain ⟨later, decodedLater, rfl⟩ := Option.map_eq_some_iff.mp decoded
              rw [show (k : Int) - 3 = (k - 3 : Nat) by omega] at decodedLater
              have shorter := ih (k - 3) (by omega) decodedLater
              rw [List.length_cons]
              omega
            · have copied : out.length = k := length_decodeLoop_few (by omega) decoded
              have longest := length_encode_le s
              omega

end Decode

/-! ## Both -/

section Both

variable {s : List UInt8} {len : Int}

theorem length_le_encode (s : List UInt8) : s.length ≤ (encode s).length := by
  induction s with
  | nil => exact Nat.le_refl 0
  | cons c s ih =>
      rw [encode_cons, List.length_append, List.length_cons]
      split
      · rw [show (c2x c).length = 3 from rfl]
        omega
      · rw [List.length_singleton]
        omega

theorem map_unplus_iff : s.map unplus = s ↔ plus ∉ s := by
  induction s with
  | nil => simp
  | cons c s ih =>
      have here : unplus c = c ↔ plus ≠ c := by
        by_cases isPlus : c = plus
        · rw [isPlus]
          decide
        · simp [unplus, isPlus, Ne.symm isPlus]
      rw [List.map_cons, List.cons.injEq, ih, here, List.mem_cons, not_or]

/-- What a text of moderate length is decoded to. -/
theorem urlDecode_encode (s : List UInt8) (small : (encode s).length < 2 ^ 31) :
    urlDecode (encode s ++ [0]) (int32 (encode s).length) =
      some ((s.length : Int), s.map unplus ++ 0 :: (encode s ++ [0]).drop (s.length + 1)) := by
  have shorter := length_le_encode s
  have inside : s.length < (encode s ++ [0]).length := by
    rw [List.length_append, List.length_singleton]
    omega
  rw [urlDecode, int32_small small, decodeLoop_encode]
  dsimp only
  rw [List.length_map, if_pos inside, int32_small (by omega)]

/-- A text that is too long for an `int` gives another length. -/
theorem urlDecode_long {memory : List UInt8} (long : 2 ^ 31 ≤ (encode s).length) :
    urlDecode (encode s ++ [0]) (int32 (encode s).length) ≠ some ((s.length : Int), memory) := by
  obtain ⟨wraps, isLength, low, high⟩ := int32_spec (encode s).length
  unfold urlDecode
  by_cases negative : int32 (encode s).length < 0
  · rw [decodeLoop_negative _ negative]
    exact nofun
  · obtain ⟨k, isNat⟩ := Int.eq_ofNat_of_zero_le (Int.not_lt.mp negative)
    rw [isNat] at isLength high ⊢
    cases decoded : decodeLoop (encode s ++ [0]) k with
    | none => exact nofun
    | some dest =>
        have shorter := decodeLoop_short s k (by omega) decoded
        obtain ⟨wraps', isReturned, -⟩ := int32_spec dest.length
        dsimp only
        split
        · intro same
          have returned := congrArg Prod.fst (Option.some.inj same)
          dsimp only at returned
          omega
        · exact nofun

/-- Encoding stays inside its memory and is undone if and only if no length is given or the text is
short, there is no `+`, and the text is not too long for an `int`. -/
theorem url_restores_iff (s : List UInt8) (len : Int) (zeroFree : 0 ∉ s) :
    Restores s len ↔ Restorable s len := by
  constructor
  · rintro ⟨allocated, text, encoded, inside, -, memory, decoded, restored⟩
    rw [urlEncode_eq zeroFree] at encoded
    obtain ⟨rfl, isText⟩ := Prod.mk.inj (Option.some.inj encoded)
    obtain rfl := List.append_cancel_right isText
    have int : (encode s).length < 2 ^ 31 := by
      by_contra long
      exact urlDecode_long (Nat.le_of_not_lt long) decoded
    refine ⟨(encode_fits_iff s len).mp inside, map_unplus_iff.mp ?_, int⟩
    rw [urlDecode_encode s int] at decoded
    obtain ⟨-, rfl⟩ := Prod.mk.inj (Option.some.inj decoded)
    have begins : s <+: s.map unplus ++ 0 :: (encode s ++ [0]).drop (s.length + 1) :=
      (List.prefix_append s [0]).trans restored
    have taken := List.prefix_iff_eq_take.mp begins
    rw [List.take_left' (List.length_map _)] at taken
    exact taken.symm
  · rintro ⟨fits, noPlus, int⟩
    refine ⟨_, _, urlEncode_eq zeroFree len, (encode_fits_iff s len).mpr fits,
      escaped_encode zeroFree, _, urlDecode_encode s int, ?_⟩
    rw [map_unplus_iff.mpr noPlus]
    exact (List.prefix_append_right_inj s).mpr ⟨_, rfl⟩

/-- The text `a b%`. -/
theorem url_restores_blank : Restores [97, 32, 98, 37] 0 ∧
    urlEncode [97, 32, 98, 37, 0] 0 = some (15, [97, 37, 50, 48, 98, 37, 50, 53, 0]) := by
  refine ⟨(url_restores_iff [97, 32, 98, 37] 0 (by decide)).mpr ?_, by decide⟩
  exact ⟨Or.inl rfl, by decide, by decide⟩

/-- `a+b` becomes `a b`; and `abc` with its length is written with four bytes into three. -/
theorem plus_and_length :
    (urlEncode [97, 43, 98, 0] 0 = some (12, [97, 43, 98, 0]) ∧
      urlDecode [97, 43, 98, 0] 3 = some (3, [97, 32, 98, 0]) ∧ ¬ Restores [97, 43, 98] 0) ∧
    urlEncode [97, 98, 99, 0] 3 = some (3, [97, 98, 99, 0]) ∧ ¬ Restores [97, 98, 99] 3 := by
  refine ⟨⟨by decide, by decide, ?_⟩, by decide, ?_⟩
  · rintro ⟨allocated, text, encoded, -, -, memory, decoded, restored⟩
    obtain ⟨-, isText⟩ := Prod.mk.inj (Option.some.inj encoded)
    have same : [97, 43, 98] ++ [0] = text ++ [0] := isText
    obtain rfl := List.append_cancel_right same
    obtain ⟨-, rfl⟩ := Prod.mk.inj (Option.some.inj decoded)
    exact absurd restored (by decide)
  · rintro ⟨allocated, text, encoded, inside, -⟩
    obtain ⟨rfl, isText⟩ := Prod.mk.inj (Option.some.inj encoded)
    have same : [97, 98, 99] ++ [0] = text ++ [0] := isText
    obtain rfl := List.append_cancel_right same
    exact absurd inside (by decide)

end Both

end MlsImgSearch.Utils.UrlUtil
