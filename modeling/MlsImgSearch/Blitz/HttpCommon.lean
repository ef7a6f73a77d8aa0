import MlsImgSearch.Lib.Segmentation

/-!
# What the HTTP decoders share

Lines, header fields and numbers as both decoders of `http_common.cc` read them,
and the text of a head. The decoder of responses is a copy of the one of
requests: the buffer for lines and the loop over the header lines stand here
once, with what a header field does as a parameter.
-/

namespace MlsImgSearch.Blitz.HttpCommon

open MlsImgSearch.Lib.Bytes
open MlsImgSearch.Lib.Segmentation

/-! ## Strings -/

def crlf : List UInt8 := [13, 10]

/-- `tolower` in the C locale. -/
def toLower (c : UInt8) : UInt8 := if 65 ≤ c ∧ c ≤ 90 then c + 32 else c

/-- `strncasecmp(str, word, strlen(word)) == 0`. -/
def startsWithNoCase (str word : List UInt8) : Bool :=
  (str.take word.length).map toLower == word.map toLower

/-- `isspace` in the C locale. -/
def isSpace (c : UInt8) : Bool := c == 32 || (9 ≤ c && c ≤ 13)

def digitValue (c : UInt8) : Option Nat :=
  if 48 ≤ c ∧ c ≤ 57 then some (c.toNat - 48)
  else if 65 ≤ c ∧ c ≤ 90 then some (c.toNat - 55)
  else if 97 ≤ c ∧ c ≤ 122 then some (c.toNat - 87)
  else none

/-- The digits of `strtol`, on top of what has been read. -/
def readDigits (base : Nat) : List UInt8 → Nat → Nat
  | [], acc => acc
  | c :: rest, acc =>
      match digitValue c with
      | none => acc
      | some d => if d < base then readDigits base rest (acc * base + d) else acc

/-- The prefix `0x` counts when a digit follows. -/
def skipHexMark (base : Nat) : List UInt8 → List UInt8
  | 48 :: x :: c :: rest =>
      if base = 16 ∧ (x = 120 ∨ x = 88) ∧ ((digitValue c).any fun d => d < 16) then c :: rest
      else 48 :: x :: c :: rest
  | str => str

/-- `strtol` with a `long` of 64 bits. -/
def strtol (base : Nat) (str : List UInt8) : Int :=
  match str.dropWhile isSpace with
  | 45 :: rest => max (-(2 ^ 63)) (-(readDigits base (skipHexMark base rest) 0 : Int))
  | 43 :: rest => min (2 ^ 63 - 1) (readDigits base (skipHexMark base rest) 0 : Int)
  | rest => min (2 ^ 63 - 1) (readDigits base (skipHexMark base rest) 0 : Int)

/-- The conversion of a `long` to an `int`. -/
def toInt32 (n : Int) : Int := (BitVec.ofInt 32 n).toInt

def atoi (str : List UInt8) : Int := toInt32 (strtol 10 str)

theorem le_of_digitValue {c : UInt8} {d : Nat} (digit : digitValue c = some d) : 48 ≤ c.toNat := by
  unfold digitValue at digit
  split at digit
  · next range => exact UInt8.le_iff_toNat_le.mp range.1
  · split at digit
    · next range => exact Nat.le_trans (by decide) (UInt8.le_iff_toNat_le.mp range.1)
    · split at digit
      · next range => exact Nat.le_trans (by decide) (UInt8.le_iff_toNat_le.mp range.1)
      · cases digit

theorem not_isSpace_of_digitValue {c : UInt8} {d : Nat} (digit : digitValue c = some d) :
    isSpace c = false := by
  have low := le_of_digitValue digit
  refine Bool.eq_false_iff.mpr fun space => ?_
  rcases Bool.or_eq_true_iff.mp space with blank | control
  · rw [beq_iff_eq.mp blank] at low
    exact absurd low (by decide)
  · have high := UInt8.le_iff_toNat_le.mp (of_decide_eq_true (Bool.and_eq_true_iff.mp control).2)
    exact absurd (Nat.le_trans low high) (by decide)

/-- `strtol` on a text that starts with a digit. -/
theorem strtol_digit {base : Nat} {c : UInt8} {rest : List UInt8} {d : Nat}
    (digit : digitValue c = some d) :
    strtol base (c :: rest) =
      min (2 ^ 63 - 1) (readDigits base (skipHexMark base (c :: rest)) 0 : Int) := by
  have low := le_of_digitValue digit
  have noMinus : c ≠ 45 := fun same => absurd (same ▸ low) (by decide)
  have noPlus : c ≠ 43 := fun same => absurd (same ▸ low) (by decide)
  have same : (c :: rest).dropWhile isSpace = c :: rest := by
    rw [List.dropWhile_cons, not_isSpace_of_digitValue digit]
    rfl
  rw [strtol, same]
  split
  · next same' => exact absurd (List.cons.inj same').1 noMinus
  · next same' => exact absurd (List.cons.inj same').1 noPlus
  · rfl

/-- The value of a text of digits. -/
def digitsValue (base : Nat) (digits : List UInt8) : Nat :=
  digits.foldl (fun acc c => acc * base + (digitValue c).getD 0) 0

def AreDigits (base : Nat) (digits : List UInt8) : Prop :=
  ∀ c ∈ digits, ∃ d < base, digitValue c = some d

/-- The digits are read up to the first other character. -/
theorem readDigits_append {base : Nat} {digits : List UInt8} (all : AreDigits base digits)
    {stop : UInt8} (ends : digitValue stop = none) (rest : List UInt8) (acc : Nat) :
    readDigits base (digits ++ stop :: rest) acc =
      digits.foldl (fun acc c => acc * base + (digitValue c).getD 0) acc := by
  induction digits generalizing acc with
  | nil =>
      rw [List.nil_append, readDigits, ends]
      rfl
  | cons c digits ih =>
      obtain ⟨⟨d, small, digit⟩, tail⟩ := List.forall_mem_cons.mp all
      rw [List.cons_append, readDigits, digit]
      dsimp only
      rw [if_pos small, ih tail, List.foldl_cons, digit]
      rfl

theorem skipHexMark_digits {base : Nat} {digits : List UInt8} (all : AreDigits base digits)
    (some' : digits ≠ []) {stop : UInt8} (ends : digitValue stop = none)
    (rest : List UInt8) :
    skipHexMark base (digits ++ stop :: rest) = digits ++ stop :: rest := by
  unfold skipHexMark
  split
  · next x c rest' same =>
      refine (if_neg fun mark => ?_).trans same.symm
      have value : digitValue x = some 33 := by
        rcases mark.2.1 with rfl | rfl <;> rfl
      cases digits with
      | nil => exact some' rfl
      | cons first digits =>
          have second := (List.cons.inj same).2
          cases digits with
          | nil =>
              rw [(List.cons.inj second).1, value] at ends
              cases ends
          | cons next digits =>
              obtain ⟨d, below, digit⟩ := all next (by simp)
              rw [(List.cons.inj second).1, value] at digit
              have := Option.some.inj digit
              omega
  · rfl

/-- A number in a text. -/
theorem strtol_digits {base : Nat} {digits : List UInt8} (all : AreDigits base digits)
    (some' : digits ≠ []) {stop : UInt8} (ends : digitValue stop = none)
    (rest : List UInt8) (range : digitsValue base digits < 2 ^ 31) :
    toInt32 (strtol base (digits ++ stop :: rest)) = digitsValue base digits := by
  have read : strtol base (digits ++ stop :: rest) =
      min (2 ^ 63 - 1) (readDigits base (digits ++ stop :: rest) 0 : Int) := by
    have skip := skipHexMark_digits all some' ends rest
    cases digits with
    | nil => exact absurd rfl some'
    | cons c digits =>
        obtain ⟨d, _, digit⟩ := all c (List.mem_cons_self ..)
        rw [List.cons_append] at skip ⊢
        rw [strtol_digit digit, skip]
  have value : readDigits base (digits ++ stop :: rest) 0 = digitsValue base digits :=
    readDigits_append all ends rest 0
  have bound : (digitsValue base digits : Int) ≤ 2 ^ 63 - 1 := by omega
  rw [read, value, Int.min_eq_right bound, toInt32, BitVec.toInt_ofInt]
  exact Int.bmod_eq_of_le (by omega) (by omega)
/-! ## Lines -/

/-- `SearchEOL` on the bytes from `parse_pos_` on: the new `parse_pos_`, and `line_end_` when a
line ends. A carriage return at the very end stays unread. -/
def searchEol : List UInt8 → Nat → Nat × Option Nat
  | [], pos => (pos, none)
  | [c], pos => if c = 13 then (pos, none) else (pos + 1, none)
  | c :: d :: rest, pos =>
      if c ≠ 13 then searchEol (d :: rest) (pos + 1)
      else if d = 10 then (pos + 2, some pos)
      else searchEol rest (pos + 2)

/-- The name and the value of a header line, which ends at the first zero byte; `none` without a
colon. One blank after the colon is dropped. -/
def splitHeader (line : List UInt8) : Option (List UInt8 × List UInt8) :=
  let line := line.takeWhile (· != 0)
  match line.dropWhile (· != 58) with
  | [] => none
  | _ :: 32 :: value => some (line.takeWhile (· != 58), value)
  | _ :: value => some (line.takeWhile (· != 58), value)

/-- `SetHeader`; the order of an `unordered_map` does not matter. -/
def setParam (params : List (List UInt8 × List UInt8)) (key value : List UInt8) :
    List (List UInt8 × List UInt8) :=
  params.filter (fun param => param.1 != key) ++ [(key, value)]

/-- `GetHeader`. -/
def getHeader (params : List (List UInt8 × List UInt8)) (key : List UInt8) : Option (List UInt8) :=
  (params.find? fun param => param.1 == key).map Prod.snd

theorem searchEol_found {line : List UInt8} (plain : ∀ c ∈ line, c ≠ 13) (rest : List UInt8)
    (pos : Nat) :
    searchEol (line ++ 13 :: 10 :: rest) pos = (pos + line.length + 2, some (pos + line.length)) := by
  induction line generalizing pos with
  | nil => rfl
  | cons c line ih =>
      obtain ⟨head, tail⟩ := List.forall_mem_cons.mp plain
      have step : searchEol (c :: line ++ 13 :: 10 :: rest) pos =
          searchEol (line ++ 13 :: 10 :: rest) (pos + 1) := by
        cases line <;> exact if_pos head
      rw [step, ih tail, List.length_cons]
      congr 2 <;> omega

/-- Nothing is found in a line without its end, and the carriage return is looked at again. -/
theorem searchEol_open {line : List UInt8} (plain : ∀ c ∈ line, c ≠ 13) (pos : Nat) :
    searchEol line pos = (pos + line.length, none) ∧
      searchEol (line ++ [13]) pos = (pos + line.length, none) := by
  induction line generalizing pos with
  | nil => exact ⟨rfl, rfl⟩
  | cons c line ih =>
      obtain ⟨head, tail⟩ := List.forall_mem_cons.mp plain
      obtain ⟨without, withReturn⟩ := ih tail (pos + 1)
      constructor
      · have step : searchEol (c :: line) pos = searchEol line (pos + 1) := by
          cases line with
          | nil => exact if_neg head
          | cons d line => exact if_pos head
        rw [step, without, List.length_cons]
        congr 1
        omega
      · have step : searchEol (c :: line ++ [13]) pos = searchEol (line ++ [13]) (pos + 1) := by
          cases line <;> exact if_pos head
        rw [step, withReturn, List.length_cons]
        congr 1
        omega

/-- The search goes on where it stopped, in a line whose end has not arrived. -/
theorem searchEol_waits {line text : List UInt8} (plain : ∀ c ∈ line, c ≠ 13)
    (isPart : text <+: line ++ crlf) (short : text.length < line.length + 2) {k : Nat}
    (seen : k ≤ text.length) (pos : Nat) :
    searchEol (text.drop (min k line.length)) (pos + min k line.length) =
      (pos + min text.length line.length, none) := by
  by_cases inside : text.length ≤ line.length
  · have isLine : text <+: line :=
      List.prefix_of_prefix_length_le isPart (List.prefix_append _ _) inside
    have plainText : ∀ c ∈ text.drop (min k line.length), c ≠ 13 := fun c member =>
      plain c (isLine.subset (List.mem_of_mem_drop member))
    rw [(searchEol_open plainText _).1, List.length_drop]
    congr 1
    omega
  · have whole : text = line ++ [13] := by
      obtain ⟨rest, same⟩ := isPart
      have one : text.length = (line ++ [13]).length := by
        rw [List.length_append, List.length_singleton]
        omega
      have split : text ++ rest = (line ++ [13]) ++ [10] := by
        rw [same, crlf, List.append_assoc]
        rfl
      exact (List.append_inj split one).1
    have plainRest : ∀ c ∈ line.drop (min k line.length), c ≠ 13 := fun c member =>
      plain c (List.mem_of_mem_drop member)
    rw [whole, List.drop_append_of_le_length (Nat.min_le_right _ _),
      (searchEol_open plainRest _).2, List.length_drop, List.length_append, List.length_singleton]
    congr 1
    omega

/-- The search finds the end of the line, wherever it goes on. -/
theorem searchEol_finds {line : List UInt8} (plain : ∀ c ∈ line, c ≠ 13) (tail : List UInt8)
    (k pos : Nat) :
    searchEol ((line ++ crlf ++ tail).drop (min k line.length)) (pos + min k line.length) =
      (pos + line.length + 2, some (pos + line.length)) := by
  have plainRest : ∀ c ∈ line.drop (min k line.length), c ≠ 13 := fun c member =>
    plain c (List.mem_of_mem_drop member)
  rw [List.append_assoc, List.drop_append_of_le_length (Nat.min_le_right _ _)]
  refine (searchEol_found plainRest tail _).trans ?_
  rw [List.length_drop]
  congr 2 <;> omega

/-- A piece either stays inside of the line, or completes it. -/
theorem piece_cases {line part piece rest later : List UInt8}
    (stream : part ++ piece ++ rest = line ++ crlf ++ later) :
    ((part ++ piece).length < line.length + 2 ∧ part ++ piece <+: line ++ crlf) ∨
      ∃ tail, part ++ piece = line ++ crlf ++ tail ∧ tail ++ rest = later := by
  have length : (line ++ crlf).length = line.length + 2 := List.length_append
  have first : part ++ piece <+: line ++ crlf ++ later := stream ▸ List.prefix_append _ _
  have second : line ++ crlf <+: line ++ crlf ++ later := List.prefix_append _ _
  by_cases short : (part ++ piece).length < line.length + 2
  · exact Or.inl ⟨short, List.prefix_of_prefix_length_le first second (by omega)⟩
  · obtain ⟨tail, done⟩ := List.prefix_of_prefix_length_le second first (by omega)
    refine Or.inr ⟨tail, done.symm, ?_⟩
    rw [← done, List.append_assoc (line ++ crlf)] at stream
    exact List.append_cancel_left stream

/-! ## The text of a head -/

/-- A header field; names are tokens, and neither part holds a line end or a zero byte. -/
structure HeaderField where
  name : List UInt8
  value : List UInt8
  named : name ≠ []
  nameOk : ∀ c ∈ name, c ≠ 58 ∧ c ≠ 32 ∧ c ≠ 13 ∧ c ≠ 0
  valueOk : ∀ c ∈ value, c ≠ 13 ∧ c ≠ 0

/-- The value `1`, and the path `/`. -/
theorem one_plain : ∀ c ∈ ([49] : List UInt8), c ≠ 13 ∧ c ≠ 0 := by decide +kernel

theorem rootPath_plain : ∀ c ∈ ([47] : List UInt8), c ≠ 32 ∧ c ≠ 13 ∧ c ≠ 0 := by decide +kernel

def minorDigit (minor : Fin 2) : UInt8 := if minor = 0 then 48 else 49

def HeaderField.line (field : HeaderField) : List UInt8 := field.name ++ [58, 32] ++ field.value

/-- The header lines and the blank line. -/
def fieldsText (fields : List HeaderField) : List UInt8 :=
  fields.flatMap (fun field => field.line ++ crlf) ++ crlf

theorem HeaderField.line_ok (field : HeaderField) : ∀ c ∈ field.line, c ≠ 13 ∧ c ≠ 0 := by
  intro c member
  rcases List.mem_append.mp member with front | value
  · rcases List.mem_append.mp front with name | mark
    · exact (field.nameOk c name).2.2
    · exact (by decide +kernel : ∀ c ∈ ([58, 32] : List UInt8), c ≠ 13 ∧ c ≠ 0) c mark
  · exact field.valueOk c value

theorem HeaderField.line_plain (field : HeaderField) : ∀ c ∈ field.line, c ≠ 13 :=
  fun c member => (field.line_ok c member).1

theorem splitHeader_line (field : HeaderField) :
    splitHeader field.line = some (field.name, field.value) := by
  have nameNot0 : ∀ c ∈ field.name, (c != 0) = true := fun c member =>
    bne_iff_ne.mpr (field.nameOk c member).2.2.2
  have nameNot58 : ∀ c ∈ field.name, (c != 58) = true := fun c member =>
    bne_iff_ne.mpr (field.nameOk c member).1
  have valueWhole : field.value.takeWhile (· != 0) = field.value := by
    have all : ∀ c ∈ field.value, (c != 0) = true := fun c member =>
      bne_iff_ne.mpr (field.valueOk c member).2
    rw [← List.append_nil field.value, List.takeWhile_append_of_pos all]
    rfl
  have whole : field.line.takeWhile (· != 0) = field.name ++ 58 :: 32 :: field.value := by
    rw [HeaderField.line, List.append_assoc, List.takeWhile_append_of_pos nameNot0]
    exact congrArg (fun rest => field.name ++ 58 :: 32 :: rest) valueWhole
  rw [splitHeader, whole, List.dropWhile_append_of_pos nameNot58,
    List.takeWhile_append_of_pos nameNot58]
  exact congrArg (fun name => some (name, field.value)) (List.append_nil field.name)

theorem toLower_eq_space {c : UInt8} (space : toLower c = 32) : c = 32 := by
  unfold toLower at space
  split at space
  · next upper =>
      have low : 65 ≤ c.toNat := UInt8.le_iff_toNat_le.mp upper.1
      have high : c.toNat ≤ 90 := UInt8.le_iff_toNat_le.mp upper.2
      have value := congrArg UInt8.toNat space
      rw [UInt8.toNat_add] at value
      have : (32 : UInt8).toNat = 32 := rfl
      omega
  · exact space

/-- No line with a name and a colon starts with a word and a blank. -/
theorem not_startsWithNoCase_name {name word : List UInt8} (noBlank : ∀ c ∈ name, c ≠ 32)
    (letters : ∀ c ∈ word, toLower c ≠ 58) (rest : List UInt8) :
    startsWithNoCase (name ++ 58 :: rest) (word ++ [32]) = false := by
  refine Bool.eq_false_iff.mpr fun starts => ?_
  have same := beq_iff_eq.mp starts
  rcases Nat.lt_or_ge word.length name.length with longer | shorter
  · -- the blank would be a character of the name
    have at' := congrArg (fun xs => xs[word.length]?) same
    simp only [List.map_append, List.getElem?_map, List.length_append, List.length_singleton] at at'
    rw [List.getElem?_take_of_lt (Nat.lt_succ_self _), List.getElem?_append_left longer,
      List.getElem?_eq_getElem longer, List.getElem?_append_right (by simp)] at at'
    have blank : toLower name[word.length] = 32 := by simpa [toLower] using at'
    exact noBlank _ (List.getElem_mem longer) (toLower_eq_space blank)
  · -- the colon would be a character of the word, or the blank
    have at' := congrArg (fun xs => xs[name.length]?) same
    simp only [List.map_append, List.getElem?_map, List.length_append, List.length_singleton] at at'
    rw [List.getElem?_take_of_lt (Nat.lt_succ_of_le shorter), List.getElem?_append_right (Nat.le_refl _),
      Nat.sub_self] at at'
    rcases Nat.lt_or_ge name.length word.length with inside | equal
    · rw [List.getElem?_append_left (by simpa using inside)] at at'
      rw [List.getElem?_map, List.getElem?_eq_getElem inside] at at'
      have colon : toLower word[name.length] = 58 := by
        simpa [toLower] using (Option.some.inj at').symm
      exact letters _ (List.getElem_mem inside) colon
    · have lengths : word.length = name.length := Nat.le_antisymm equal shorter
      rw [List.getElem?_append_right (by simpa using equal)] at at'
      simp [toLower, lengths] at at'

theorem not_startsWithNoCase_line (field : HeaderField) (rest : List UInt8) {word : List UInt8}
    (letters : ∀ c ∈ word, toLower c ≠ 58) :
    startsWithNoCase (field.line ++ rest) (word ++ [32]) = false := by
  have text : field.line ++ rest = field.name ++ 58 :: (32 :: field.value ++ rest) := by
    simp [HeaderField.line]
  rw [text]
  exact not_startsWithNoCase_name (fun c member => (field.nameOk c member).2.1) letters _

/-! ## The buffer for lines -/

/-- `header_` of the one and `buf_` of the other decoder: a block of memory, of which `length` bytes
have arrived. -/
structure LineBuffer where
  block : List UInt8
  length : Nat := 0
  lineStart : Nat := 0
  parsePos : Nat := 0
  deriving DecidableEq

/-- The bytes from `parse_pos_` on. -/
def LineBuffer.unread (b : LineBuffer) : List UInt8 := (b.block.take b.length).drop b.parsePos

/-- The bytes from `line_start_` on. -/
def LineBuffer.current (b : LineBuffer) : List UInt8 := (b.block.take b.length).drop b.lineStart

def LineBuffer.searchEol (b : LineBuffer) : LineBuffer × Option Nat :=
  let (pos, found) := HttpCommon.searchEol b.unread b.parsePos
  ({ b with parsePos := pos }, found)

/-- The reader copies a piece behind the bytes that have arrived. -/
def LineBuffer.copy (b : LineBuffer) (piece : List UInt8) : Option LineBuffer :=
  (writeAt b.block b.length piece).map fun block => { b with block := block }

/-- `Feed` counts the piece. -/
def LineBuffer.grow (b : LineBuffer) (n : Nat) : LineBuffer := { b with length := b.length + n }

/-- How a loop over the header lines ends: with an open line, a line without a colon, or the blank
line. -/
inductive HeaderResult (α : Type) where
  | more (b : LineBuffer) (a : α)
  | bad (b : LineBuffer) (a : α)
  | done (b : LineBuffer) (a : α)

/-- The loop of `ParseHeader`, with at most `fuel` turns. The zero bytes that end a name and a value
lie before `parse_pos_` and are not read again. -/
def headerLoop {α : Type} (apply : α → List UInt8 → List UInt8 → α) :
    Nat → LineBuffer → α → HeaderResult α
  | 0, b, a => .more b a
  | fuel + 1, b, a =>
      match b.searchEol with
      | (b, none) => .more b a
      | (b, some lineEnd) =>
          let line := (b.block.take lineEnd).drop b.lineStart
          let b := { b with lineStart := b.parsePos }
          if line.length = 0 then .done b a
          else
            match splitHeader line with
            | none => .bad b a
            | some (name, value) => headerLoop apply fuel b (apply a name value)

/-- The buffer waits for the end of `line`, of which `part` has arrived. -/
structure Scanning (line part : List UInt8) (b : LineBuffer) : Prop where
  started : b.lineStart + part.length = b.length
  filled : b.length ≤ b.block.length
  slice : b.current = part
  pos : ∃ k ≤ part.length, b.parsePos = b.lineStart + min k line.length
  isPart : part <+: line ++ crlf
  short : part.length < line.length + 2

/-- Nothing has arrived yet. -/
theorem scanning_fresh (block line : List UInt8) : Scanning line [] { block := block } where
  started := rfl
  filled := Nat.zero_le _
  slice := by
    rw [LineBuffer.current, List.take_zero, List.drop_nil]
  pos := ⟨0, Nat.le_refl _, by rw [Nat.zero_min]⟩
  isPart := List.nil_prefix
  short := Nat.succ_pos _

section Scan

variable {line part piece tail : List UInt8} {b : LineBuffer}

/-- The buffer after the copy of the reader. -/
theorem copy_eq (room : b.length + piece.length ≤ b.block.length) :
    ∃ b', b.copy piece = some b' ∧ b'.block.length = b.block.length ∧ b'.length = b.length ∧
      b'.lineStart = b.lineStart ∧ b'.parsePos = b.parsePos ∧
      ∀ p ≤ b.length, (b'.block.take (b.length + piece.length)).drop p =
        (b.block.take b.length).drop p ++ piece := by
  refine ⟨_, congrArg (Option.map _) (writeAt_eq_some room), length_writeAt (writeAt_eq_some room),
    rfl, rfl, rfl, fun p inside => ?_⟩
  have whole := take_writeAt (writeAt_eq_some room)
  have enough : p ≤ (b.block.take b.length).length := by
    rw [List.length_take]
    omega
  dsimp only
  rw [whole, List.drop_append_of_le_length enough]

theorem Scanning.copy_eq (scanning : Scanning line part b)
    (room : b.length + piece.length ≤ b.block.length) :
    ∃ b', b.copy piece = some b' ∧ b'.block.length = b.block.length ∧ b'.length = b.length ∧
      b'.lineStart = b.lineStart ∧ b'.parsePos = b.parsePos ∧
      (b'.grow piece.length).current = part ++ piece := by
  obtain ⟨b', copied, size, length, lineStart, parsePos, grown⟩ := HttpCommon.copy_eq room
  have started := scanning.started
  refine ⟨b', copied, size, length, lineStart, parsePos, ?_⟩
  unfold LineBuffer.current LineBuffer.grow
  dsimp only
  rw [lineStart, length, grown _ (by omega)]
  exact congrArg (· ++ piece) scanning.slice

/-- The search in a buffer that holds `text` from the start of its line on. -/
theorem searchEol_current {text : List UInt8} {k pos : Nat} {lineEnd : Option Nat}
    (slice : b.current = text) (parsePos : b.parsePos = b.lineStart + k)
    (search : searchEol (text.drop k) (b.lineStart + k) = (pos, lineEnd)) :
    b.searchEol = ({ b with parsePos := pos }, lineEnd) := by
  have unread : b.unread = text.drop k := by
    rw [← slice, LineBuffer.unread, LineBuffer.current, parsePos, List.drop_drop]
  rw [LineBuffer.searchEol, unread, parsePos, search]

/-- A piece inside of the line is kept. -/
theorem Scanning.more (scanning : Scanning line part b) (plain : ∀ c ∈ line, c ≠ 13)
    (room : b.length + piece.length ≤ b.block.length) (isPart : part ++ piece <+: line ++ crlf)
    (short : (part ++ piece).length < line.length + 2) :
    ∃ b' b'', b.copy piece = some b' ∧ b'.length = b.length ∧
      (b'.grow piece.length).searchEol = (b'', none) ∧
      Scanning line (part ++ piece) b'' ∧ b''.lineStart = b.lineStart ∧
      b''.parsePos = b.lineStart + min (part ++ piece).length line.length ∧
      b''.length = b.length + piece.length ∧ b''.block.length = b.block.length := by
  obtain ⟨b', copied, size, length, lineStart, parsePos, slice⟩ := scanning.copy_eq room
  obtain ⟨k, seen, pos⟩ := scanning.pos
  have started := scanning.started
  have seenMore : k ≤ (part ++ piece).length := by
    rw [List.length_append]
    omega
  have search := searchEol_waits plain isPart short seenMore b'.lineStart
  rw [← lineStart] at pos started ⊢
  refine ⟨b', _, copied, length, searchEol_current slice (parsePos.trans pos) search,
    ⟨?_, ?_, slice, ⟨_, Nat.le_refl _, rfl⟩, isPart, short⟩, rfl, rfl,
    congrArg (· + piece.length) length, size⟩
  · rw [List.length_append]
    show b'.lineStart + (part.length + piece.length) = b'.length + piece.length
    omega
  · show b'.length + piece.length ≤ b'.block.length
    omega

/-- The piece that completes the line. -/
theorem Scanning.found (scanning : Scanning line part b) (plain : ∀ c ∈ line, c ≠ 13)
    (room : b.length + piece.length ≤ b.block.length)
    (done : part ++ piece = line ++ crlf ++ tail) :
    ∃ b', b.copy piece = some b' ∧ b'.block.length = b.block.length ∧ b'.length = b.length ∧
      b'.lineStart = b.lineStart ∧ (b'.grow piece.length).current = line ++ crlf ++ tail ∧
      (b'.grow piece.length).searchEol =
        ({ b'.grow piece.length with parsePos := b'.lineStart + line.length + 2 },
          some (b'.lineStart + line.length)) := by
  obtain ⟨b', copied, size, length, lineStart, parsePos, slice⟩ := scanning.copy_eq room
  obtain ⟨k, _, pos⟩ := scanning.pos
  rw [done] at slice
  rw [← lineStart] at pos
  exact ⟨b', copied, size, length, lineStart, slice,
    searchEol_current slice (parsePos.trans pos) (searchEol_finds plain tail k b'.lineStart)⟩

end Scan

/-! ## The loop over the header lines -/

/-- The buffer stands at the start of a line, in front of `text`. -/
structure AtLine (text : List UInt8) (b : LineBuffer) : Prop where
  lineStart : b.lineStart = b.parsePos
  unread : b.unread = text
  total : b.parsePos + text.length = b.length

section Header

variable {α : Type} {apply : α → List UInt8 → List UInt8 → α} {a : α} {b : LineBuffer}
  {text left : List UInt8}

theorem AtLine.advance {first : List UInt8} (atLine : AtLine (first ++ text) b) :
    AtLine text { b with
      parsePos := b.parsePos + first.length, lineStart := b.parsePos + first.length } := by
  have total := atLine.total
  rw [List.length_append] at total
  refine ⟨rfl, ?_, by dsimp only; omega⟩
  have unread := atLine.unread
  unfold LineBuffer.unread at unread ⊢
  dsimp only
  rw [← List.drop_drop, unread, List.drop_left' rfl]

/-- The end of the line at hand is found. -/
theorem AtLine.searchEol_eq {line : List UInt8} (atLine : AtLine (line ++ crlf ++ text) b)
    (plain : ∀ c ∈ line, c ≠ 13) :
    b.searchEol = ({ b with parsePos := b.parsePos + (line ++ crlf).length },
      some (b.parsePos + line.length)) := by
  have found := searchEol_finds plain text 0 b.parsePos
  rw [Nat.zero_min, List.drop_zero, Nat.add_zero] at found
  have length : (line ++ crlf).length = line.length + 2 := List.length_append
  rw [LineBuffer.searchEol, atLine.unread, found, length, ← Nat.add_assoc]

theorem AtLine.line_eq {line : List UInt8} (atLine : AtLine (line ++ crlf ++ text) b) :
    (b.block.take (b.parsePos + line.length)).drop b.lineStart = line := by
  rw [atLine.lineStart]
  exact slice_of_drop (by rw [← List.append_assoc]; exact atLine.unread)

/-- A whole line that is not blank. -/
theorem headerLoop_line {line : List UInt8} (fuel : Nat) (atLine : AtLine (line ++ crlf ++ text) b)
    (plain : ∀ c ∈ line, c ≠ 13) (some' : line ≠ []) :
    headerLoop apply (fuel + 1) b a =
      let b' := { b with
        parsePos := b.parsePos + (line ++ crlf).length
        lineStart := b.parsePos + (line ++ crlf).length }
      match splitHeader line with
      | none => .bad b' a
      | some (name, value) => headerLoop apply fuel b' (apply a name value) := by
  rw [headerLoop, atLine.searchEol_eq plain]
  dsimp only
  rw [atLine.line_eq, if_neg (mt List.length_eq_zero_iff.mp some')]

/-- A whole header line. -/
theorem headerLoop_field {field : HeaderField} (fuel : Nat)
    (atLine : AtLine (field.line ++ crlf ++ text) b) :
    headerLoop apply (fuel + 1) b a = headerLoop apply fuel
      { b with
        parsePos := b.parsePos + (field.line ++ crlf).length
        lineStart := b.parsePos + (field.line ++ crlf).length }
      (apply a field.name field.value) := by
  have some' : field.line ≠ [] := by
    rw [HeaderField.line]
    simp
  rw [headerLoop_line fuel atLine field.line_plain some', splitHeader_line]

/-- The blank line. -/
theorem headerLoop_blank (fuel : Nat) (atLine : AtLine (crlf ++ text) b) :
    headerLoop apply (fuel + 1) b a =
      .done { b with parsePos := b.parsePos + crlf.length, lineStart := b.parsePos + crlf.length }
        a := by
  have atLine' : AtLine (([] : List UInt8) ++ crlf ++ text) b := atLine
  rw [headerLoop, atLine'.searchEol_eq fun c member => nomatch member]
  dsimp only
  rw [atLine'.line_eq]
  exact if_pos rfl

theorem length_lt_of_line {line : List UInt8} {fuel : Nat}
    (enough : (line ++ crlf ++ text).length < fuel + 1) : text.length < fuel := by
  have lengths : (line ++ crlf ++ text).length = line.length + 2 + text.length := by
    rw [List.length_append, List.length_append]
    rfl
  omega

theorem fieldsText_cons (field : HeaderField) (fields : List HeaderField) :
    fieldsText (field :: fields) = field.line ++ crlf ++ fieldsText fields := by
  simp [fieldsText]

/-- All header lines and the blank line. -/
theorem headerLoop_complete {fields : List HeaderField} {fuel : Nat}
    (enough : (fieldsText fields ++ left).length < fuel)
    (atLine : AtLine (fieldsText fields ++ left) b) :
    ∃ b', headerLoop apply fuel b a =
        .done b' (fields.foldl (fun a field => apply a field.name field.value) a) ∧
      AtLine left b' ∧ b'.block = b.block ∧ b'.length = b.length := by
  induction fields generalizing a b fuel with
  | nil =>
      obtain ⟨fuel, rfl⟩ := Nat.exists_eq_succ_of_ne_zero (Nat.ne_zero_of_lt enough)
      exact ⟨_, headerLoop_blank _ atLine, atLine.advance, rfl, rfl⟩
  | cons field fields ih =>
      obtain ⟨fuel, rfl⟩ := Nat.exists_eq_succ_of_ne_zero (Nat.ne_zero_of_lt enough)
      rw [fieldsText_cons, List.append_assoc (field.line ++ crlf)] at atLine enough
      rw [headerLoop_field fuel atLine]
      exact ih (length_lt_of_line enough) atLine.advance

/-- The zero that ends the first line of the buffer, and what stands behind it. -/
theorem end_firstLine {line tail : List UInt8} (atStart : b.lineStart = 0)
    (filled : b.length ≤ b.block.length) (nonzero : ∀ c ∈ line, c ≠ 0)
    (text : b.current = line ++ crlf ++ tail) (parsePos : b.parsePos = line.length + 2) :
    ∃ ended, writeAt b.block line.length [0] = some ended ∧ ended.takeWhile (· != 0) = line ∧
      (∀ k < line.length, ended[k]? = (line)[k]?) ∧ ended.length = b.block.length ∧
      AtLine tail { b with block := ended, lineStart := b.parsePos } := by
  rw [LineBuffer.current, atStart, List.drop_zero] at text
  have lengths := congrArg List.length text
  simp only [List.length_take, List.length_append, crlf, List.length_cons, List.length_nil]
    at lengths
  have front : b.block.take line.length = line := by
    have cut := congrArg (List.take line.length) text
    rw [List.take_take, Nat.min_eq_left (by omega), List.append_assoc, List.take_left' rfl] at cut
    exact cut
  have inside : line.length + ([0] : List UInt8).length ≤ b.block.length := by
    rw [List.length_singleton]
    omega
  have written := writeAt_eq_some inside
  obtain ⟨ended, isEnded⟩ : ∃ ended, ended = b.block.take line.length ++ [0] ++
      b.block.drop (line.length + ([0] : List UInt8).length) := ⟨_, rfl⟩
  rw [← isEnded] at written
  have isLine : ended = line ++ 0 :: b.block.drop (line.length + 1) := by
    rw [isEnded, front, List.append_assoc]
    rfl
  refine ⟨ended, written, ?_, ?_, length_writeAt written, rfl, ?_, ?_⟩
  · rw [isLine, List.takeWhile_append_of_pos fun c member => bne_iff_ne.mpr (nonzero c member)]
    exact List.append_nil line
  · intro k inLine
    rw [isLine, List.getElem?_append_left inLine]
  · unfold LineBuffer.unread
    dsimp only
    rw [parsePos, List.drop_take, writeAt_drop written (by rw [List.length_singleton]; omega),
      ← List.drop_take, text]
    exact List.drop_left' (by simp [crlf])
  · rw [parsePos]
    dsimp only
    omega

/-- The zero of a later line that is ended like the first one lies behind its line end. -/
theorem laterLine_text {line tail block : List UInt8} (behind : 2 ≤ b.lineStart)
    (text : b.current = line ++ crlf ++ tail)
    (ended : writeAt b.block (b.lineStart + (b.lineStart + line.length)) [0] = some block) :
    ∃ rest, block.drop b.lineStart = line ++ crlf ++ rest := by
  have front := slice_of_drop text
  have two : (line ++ crlf).length = line.length + 2 := List.length_append
  rw [← writeAt_take ended (by omega)] at front
  refine ⟨block.drop (b.lineStart + (line ++ crlf).length), ?_⟩
  have whole := List.take_append_drop (b.lineStart + (line ++ crlf).length) block
  have inside : b.lineStart ≤ (block.take (b.lineStart + (line ++ crlf).length)).length := by
    have length := congrArg List.length front
    rw [List.length_drop] at length
    omega
  calc block.drop b.lineStart
      = (block.take (b.lineStart + (line ++ crlf).length) ++
          block.drop (b.lineStart + (line ++ crlf).length)).drop b.lineStart := by rw [whole]
    _ = _ := by rw [List.drop_append_of_le_length inside, front]

theorem end_laterLine {line tail block : List UInt8} (nonzero : ∀ c ∈ line, c ≠ 0)
    (behind : 2 ≤ b.lineStart) (text : b.current = line ++ crlf ++ tail)
    (ended : writeAt b.block (b.lineStart + (b.lineStart + line.length)) [0] = some block) :
    ∃ rest, (block.drop b.lineStart).takeWhile (· != 0) = line ++ crlf ++ rest := by
  obtain ⟨rest, lineText⟩ := laterLine_text behind text ended
  have nonzero' : ∀ c ∈ line ++ crlf, (c != 0) = true := by
    intro c member
    rcases List.mem_append.mp member with inLine | inEnd
    · exact bne_iff_ne.mpr (nonzero c inLine)
    · exact (by decide +kernel : ∀ c ∈ crlf, (c != 0) = true) c inEnd
  exact ⟨_, by rw [lineText, List.takeWhile_append_of_pos nonzero']⟩

/-- The lines that can follow a first line. -/
def IsLine (fields : List HeaderField) (line : List UInt8) : Prop :=
  line = [] ∨ ∃ field ∈ fields, line = field.line

theorem IsLine.ok {fields : List HeaderField} {line : List UInt8} (isLine : IsLine fields line) :
    ∀ c ∈ line, c ≠ 13 ∧ c ≠ 0 := by
  rcases isLine with rfl | ⟨field, _, rfl⟩
  · exact fun c member => nomatch member
  · exact field.line_ok

/-- Where the decoder waits for the rest of a line, of which `missing` comes next. -/
def Waits (fields : List HeaderField) (missing : List UInt8) (from' : Nat) (b : LineBuffer) : Prop :=
  ∃ line part later, IsLine fields line ∧ Scanning line part b ∧ from' ≤ b.lineStart ∧
    part ++ missing = line ++ crlf ++ later

/-- The line at hand is open. -/
theorem headerLoop_open {line missing later : List UInt8} (fuel : Nat) (atLine : AtLine text b)
    (filled : b.length ≤ b.block.length) (plain : ∀ c ∈ line, c ≠ 13)
    (stream : text ++ missing = line ++ crlf ++ later)
    (short : text.length < line.length + 2) (isPart : text <+: line ++ crlf) :
    ∃ b', headerLoop apply (fuel + 1) b a = .more b' a ∧
      (Scanning line text b' ∧ b.parsePos ≤ b'.lineStart ∧
        text ++ missing = line ++ crlf ++ later) ∧
      b'.block = b.block ∧ b'.length = b.length := by
  have search := searchEol_waits plain isPart short (Nat.zero_le _) b.parsePos
  rw [Nat.zero_min, List.drop_zero, Nat.add_zero, ← atLine.unread] at search
  refine ⟨{ b with parsePos := b.parsePos + min text.length line.length }, ?_,
    ⟨⟨?_, filled, ?_, ⟨text.length, Nat.le_refl _, ?_⟩, isPart, short⟩,
      Nat.le_of_eq atLine.lineStart.symm, stream⟩, rfl, rfl⟩
  · rw [headerLoop, LineBuffer.searchEol, search, atLine.unread]
  · rw [atLine.lineStart]
    exact atLine.total
  · have unread := atLine.unread
    unfold LineBuffer.unread at unread
    rw [← atLine.lineStart] at unread
    exact unread
  · exact congrArg (· + _) atLine.lineStart.symm

theorem headerLoop_stops {fields : List HeaderField} {line missing later : List UInt8}
    (fuel : Nat) (atLine : AtLine text b) (filled : b.length ≤ b.block.length)
    (isLine : IsLine fields line) (stream : text ++ missing = line ++ crlf ++ later)
    (short : text.length < line.length + 2) (isPart : text <+: line ++ crlf) :
    ∃ b', headerLoop apply (fuel + 1) b a = .more b' a ∧ Waits fields missing b.parsePos b' ∧
      b'.block = b.block ∧ b'.length = b.length := by
  obtain ⟨b', stops, waits, same⟩ := headerLoop_open fuel atLine filled
    (fun c member => (isLine.ok c member).1) stream short isPart
  exact ⟨b', stops, ⟨line, text, later, isLine, waits⟩, same⟩

/-- The head ends somewhere in its header lines. -/
theorem headerLoop_partial {fields : List HeaderField} {fuel : Nat} {missing : List UInt8}
    (enough : text.length < fuel) (atLine : AtLine text b) (filled : b.length ≤ b.block.length)
    (stream : text ++ missing = fieldsText fields) (some' : missing ≠ []) :
    ∃ b' a', headerLoop apply fuel b a = .more b' a' ∧ Waits fields missing b.parsePos b' ∧
      b'.block = b.block ∧ b'.length = b.length := by
  induction fields generalizing a b fuel text with
  | nil =>
      obtain ⟨fuel, rfl⟩ := Nat.exists_eq_succ_of_ne_zero (Nat.ne_zero_of_lt enough)
      have split : text ++ [] ++ missing = [] ++ crlf ++ [] := by
        rw [List.append_nil, stream]
        rfl
      rcases piece_cases split with ⟨short, isPart⟩ | ⟨tail, _, none'⟩
      · rw [List.append_nil] at short isPart split
        obtain ⟨b', stops⟩ := headerLoop_stops fuel atLine filled (Or.inl rfl) split short isPart
        exact ⟨b', a, stops⟩
      · exact absurd (List.append_eq_nil_iff.mp none').2 some'
  | cons field fields ih =>
      obtain ⟨fuel, rfl⟩ := Nat.exists_eq_succ_of_ne_zero (Nat.ne_zero_of_lt enough)
      have split : text ++ [] ++ missing = field.line ++ crlf ++ fieldsText fields := by
        rw [List.append_nil, stream, fieldsText_cons]
      rcases piece_cases split with ⟨short, isPart⟩ | ⟨tail, whole, rest⟩
      · rw [List.append_nil] at short isPart split
        obtain ⟨b', stops⟩ := headerLoop_stops fuel atLine filled
          (Or.inr ⟨field, List.mem_cons_self .., rfl⟩) split short isPart
        exact ⟨b', a, stops⟩
      · rw [List.append_nil] at whole
        rw [whole] at atLine enough
        rw [headerLoop_field fuel atLine]
        obtain ⟨b', a', parsed, ⟨line, part, later, isLine, waits⟩, kept⟩ :=
          ih (length_lt_of_line enough) atLine.advance filled rest
        refine ⟨b', a', parsed, ⟨line, part, later, ?_, waits.1, ?_, waits.2.2⟩, kept⟩
        · exact isLine.imp_right fun ⟨f, member, same⟩ => ⟨f, List.mem_cons_of_mem _ member, same⟩
        · exact Nat.le_trans (Nat.le_add_right _ _) waits.2.1

/-! Lines of any kind, as long as none is blank. -/

/-- Lines and the blank line behind them. -/
def linesText (lines : List (List UInt8)) : List UInt8 := lines.flatMap (· ++ crlf) ++ crlf

theorem linesText_cons (line : List UInt8) (lines : List (List UInt8)) :
    linesText (line :: lines) = line ++ crlf ++ linesText lines := by
  simp [linesText]

/-- All lines are applied; `none` when one has no colon. -/
def applyLines (apply : α → List UInt8 → List UInt8 → α) : List (List UInt8) → α → Option α
  | [], a => some a
  | line :: lines, a =>
      (splitHeader line).bind fun (name, value) => applyLines apply lines (apply a name value)

/-- Lines that a header can have. -/
def PlainLines (lines : List (List UInt8)) : Prop := ∀ line ∈ lines, line ≠ [] ∧ ∀ c ∈ line, c ≠ 13

/-- All lines and the blank line. -/
theorem headerLoop_lines {lines : List (List UInt8)} {fuel : Nat} (plain : PlainLines lines)
    (enough : (linesText lines ++ left).length < fuel) (atLine : AtLine (linesText lines ++ left) b) :
    (∃ b' a', applyLines apply lines a = none ∧ headerLoop apply fuel b a = .bad b' a') ∨
      ∃ b' a', applyLines apply lines a = some a' ∧ headerLoop apply fuel b a = .done b' a' ∧
        AtLine left b' ∧ b'.block = b.block ∧ b'.length = b.length := by
  induction lines generalizing a b fuel with
  | nil =>
      obtain ⟨fuel, rfl⟩ := Nat.exists_eq_succ_of_ne_zero (Nat.ne_zero_of_lt enough)
      exact Or.inr ⟨_, a, rfl, headerLoop_blank _ atLine, atLine.advance, rfl, rfl⟩
  | cons line lines ih =>
      obtain ⟨fuel, rfl⟩ := Nat.exists_eq_succ_of_ne_zero (Nat.ne_zero_of_lt enough)
      obtain ⟨⟨some', noReturn⟩, others⟩ := List.forall_mem_cons.mp plain
      rw [linesText_cons, List.append_assoc (line ++ crlf)] at atLine enough
      rw [headerLoop_line fuel atLine noReturn some', applyLines]
      cases split : splitHeader line with
      | none => exact Or.inl ⟨_, _, rfl, rfl⟩
      | some field => exact ih others (length_lt_of_line enough) atLine.advance

/-- The decoder waits in a line, of which `missing` comes next. -/
def WaitsIn (lines : List (List UInt8)) (missing : List UInt8) (from' : Nat) (b : LineBuffer) :
    Prop :=
  ∃ line part later, (line = [] ∨ line ∈ lines) ∧ Scanning line part b ∧ from' ≤ b.lineStart ∧
    part ++ missing = line ++ crlf ++ later

/-- The head ends somewhere in its lines. -/
theorem headerLoop_lines_partial {lines : List (List UInt8)} {fuel : Nat} {missing : List UInt8}
    (plain : PlainLines lines) (enough : text.length < fuel) (atLine : AtLine text b)
    (filled : b.length ≤ b.block.length) (stream : text ++ missing = linesText lines)
    (some' : missing ≠ []) :
    (∃ b' a', headerLoop apply fuel b a = .bad b' a') ∨
      ∃ b' a', headerLoop apply fuel b a = .more b' a' ∧ WaitsIn lines missing b.parsePos b' ∧
        b'.block = b.block ∧ b'.length = b.length := by
  induction lines generalizing a b fuel text with
  | nil =>
      obtain ⟨fuel, rfl⟩ := Nat.exists_eq_succ_of_ne_zero (Nat.ne_zero_of_lt enough)
      have split : text ++ [] ++ missing = [] ++ crlf ++ [] := by
        rw [List.append_nil, stream]
        rfl
      rcases piece_cases split with ⟨short, isPart⟩ | ⟨tail, _, none'⟩
      · rw [List.append_nil] at short isPart split
        obtain ⟨b', stops, waits, same⟩ := headerLoop_open fuel atLine filled
          (by simp) split short isPart
        exact Or.inr ⟨b', a, stops, ⟨[], text, [], Or.inl rfl, waits⟩, same⟩
      · exact absurd (List.append_eq_nil_iff.mp none').2 some'
  | cons line lines ih =>
      obtain ⟨fuel, rfl⟩ := Nat.exists_eq_succ_of_ne_zero (Nat.ne_zero_of_lt enough)
      obtain ⟨⟨nonempty, noReturn⟩, others⟩ := List.forall_mem_cons.mp plain
      have split : text ++ [] ++ missing = line ++ crlf ++ linesText lines := by
        rw [List.append_nil, stream, linesText_cons]
      rcases piece_cases split with ⟨short, isPart⟩ | ⟨tail, whole, rest⟩
      · rw [List.append_nil] at short isPart split
        obtain ⟨b', stops, waits, same⟩ := headerLoop_open fuel atLine filled noReturn split short isPart
        exact Or.inr ⟨b', a, stops,
          ⟨line, text, _, Or.inr List.mem_cons_self, waits⟩, same⟩
      · rw [List.append_nil] at whole
        rw [whole] at atLine enough
        rw [headerLoop_line fuel atLine noReturn nonempty]
        cases splitLine : splitHeader line with
        | none => exact Or.inl ⟨_, _, rfl⟩
        | some field =>
            rcases ih others (length_lt_of_line enough) atLine.advance filled rest with
              bad | ⟨b', a', parsed, ⟨line', part, later, isLine, waits⟩, kept⟩
            · exact Or.inl bad
            · refine Or.inr ⟨b', a', parsed, ⟨line', part, later, ?_, waits.1, ?_, waits.2.2⟩, kept⟩
              · exact isLine.imp_right (List.mem_cons_of_mem _)
              · exact Nat.le_trans (Nat.le_add_right _ _) waits.2.1

end Header

end MlsImgSearch.Blitz.HttpCommon
