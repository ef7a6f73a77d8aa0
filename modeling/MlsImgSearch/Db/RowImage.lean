import MlsImgSearch.Lib.Bitmap
import MlsImgSearch.Lib.Bytes
import MlsImgSearch.Lib.Int32
import Mathlib.Data.Fintype.Basic
import Mathlib.Tactic.FinCases

/-!
# Row images

The image of a row in the binary log is a bitmap of nulls, and the values of the columns that are
there. The values are read one behind the other; how long each of them is depends on the type of its
column, on what the table map says about the column, and on the value.
-/

namespace MlsImgSearch.Db.RowImage

open Lib.Bitmap Lib.Bytes Lib.Int32

abbrev Bytes := List UInt8

/-! ## Values -/

/-- Of a `DataValueFloat` only the bytes are kept that it is made from. -/
inductive DataValue where
  | null
  | integer (value : Int)
  | float (bytes : Bytes)
  | blob (value : Bytes) (bitsCount : Nat)
  | string (value : Bytes)
  deriving DecidableEq

@[match_pattern] def MYSQL_TYPE_TINY : Nat := 1
@[match_pattern] def MYSQL_TYPE_SHORT : Nat := 2
@[match_pattern] def MYSQL_TYPE_LONG : Nat := 3
@[match_pattern] def MYSQL_TYPE_FLOAT : Nat := 4
@[match_pattern] def MYSQL_TYPE_DOUBLE : Nat := 5
@[match_pattern] def MYSQL_TYPE_TIMESTAMP : Nat := 7
@[match_pattern] def MYSQL_TYPE_LONGLONG : Nat := 8
@[match_pattern] def MYSQL_TYPE_INT24 : Nat := 9
@[match_pattern] def MYSQL_TYPE_DATE : Nat := 10
@[match_pattern] def MYSQL_TYPE_TIME : Nat := 11
@[match_pattern] def MYSQL_TYPE_DATETIME : Nat := 12
@[match_pattern] def MYSQL_TYPE_YEAR : Nat := 13
@[match_pattern] def MYSQL_TYPE_VARCHAR : Nat := 15
@[match_pattern] def MYSQL_TYPE_BIT : Nat := 16
@[match_pattern] def MYSQL_TYPE_NEWDECIMAL : Nat := 246
@[match_pattern] def MYSQL_TYPE_ENUM : Nat := 247
@[match_pattern] def MYSQL_TYPE_SET : Nat := 248
@[match_pattern] def MYSQL_TYPE_BLOB : Nat := 252
@[match_pattern] def MYSQL_TYPE_VAR_STRING : Nat := 253
@[match_pattern] def MYSQL_TYPE_STRING : Nat := 254

/-- `uint1korr` to `uint8korr`; no number if a byte lies behind the end. -/
def uintKorr (k : Nat) (ptr : Bytes) : Option Nat := (readLe k ptr).map Prod.fst

/-- Two's complement in `k` bytes. -/
def signed (k n : Nat) : Int := if 2 * n < 256 ^ k then n else n - (256 ^ k : Nat)

/-- `sint2korr` to `sint8korr` -/
def sintKorr (k : Nat) (ptr : Bytes) : Option Int := (uintKorr k ptr).map (signed k)

/-- `mi_uint4korr_b` -/
def miUint4korrB (ptr : Bytes) : Option Nat :=
  if 4 ≤ ptr.length then some (beNat (ptr.take 4)) else none

/-- The bytes from `ptr + start` on. -/
def bytesFrom (ptr : Bytes) (start length : Nat) : Option Bytes :=
  if start + length ≤ ptr.length then some ((ptr.drop start).take length) else none

/-- A value, if one is made, and the bytes that it takes. Nothing comes out of a read behind the end
of the buffer. -/
abbrev Parsed := Option (Option DataValue × Nat)

def integer (size : Nat) (value : Option Int) : Parsed :=
  value.map fun value => (some (.integer value), size)

def float (size : Nat) (ptr : Bytes) : Parsed :=
  (bytesFrom ptr 0 size).map fun bytes => (some (.float bytes), size)

/-- A length in `k` bytes and the bytes behind it; the sum is one of 32 bits. -/
def prefixed (make : Bytes → DataValue) (k : Nat) (ptr : Bytes) : Parsed :=
  (uintKorr k ptr).bind fun length =>
    (bytesFrom ptr k length).map fun value => (some (make value), (length + k) % 2 ^ 32)

def blob : Nat → Bytes → Parsed := prefixed fun value => .blob value 0

def string : Nat → Bytes → Parsed := prefixed .string

/-- `type` and `length` before the label `beg`; a `MYSQL_TYPE_STRING` may stand for another type. -/
def realType (type tableMeta : Nat) : Option (Nat × Nat) :=
  if type = MYSQL_TYPE_STRING then
    if 256 ≤ tableMeta then
      let byte0 := tableMeta >>> 8
      let byte1 := tableMeta &&& 0xFF
      if byte0 &&& 0x30 ≠ 0x30 then
        some (byte0 ||| 0x30, byte1 ||| (((byte0 &&& 0x30) ^^^ 0x30) <<< 4))
      else if byte0 = MYSQL_TYPE_SET ∨ byte0 = MYSQL_TYPE_ENUM ∨ byte0 = MYSQL_TYPE_STRING then
        some (byte0, byte1)
      else none
    else some (type, tableMeta)
  else some (type, 0)

section Parse

variable (decimal : Nat → Bytes → Parsed)

/-- `ParseValue`; `decimal` is the case of `MYSQL_TYPE_NEWDECIMAL`. -/
def parseValue (ptr : Bytes) (type tableMeta : Nat) : Parsed :=
  match realType type tableMeta with
  | none => some (none, 0)
  | some (type, length) =>
      match type with
      | MYSQL_TYPE_LONG => integer 4 (sintKorr 4 ptr)
      | MYSQL_TYPE_TINY => integer 1 ((uintKorr 1 ptr).map Int.ofNat)
      | MYSQL_TYPE_SHORT => integer 2 (sintKorr 2 ptr)
      | MYSQL_TYPE_INT24 => integer 3 (sintKorr 3 ptr)
      | MYSQL_TYPE_LONGLONG => integer 8 (sintKorr 8 ptr)
      | MYSQL_TYPE_NEWDECIMAL => decimal tableMeta ptr
      | MYSQL_TYPE_FLOAT => float 4 ptr
      | MYSQL_TYPE_DOUBLE => float 8 ptr
      | MYSQL_TYPE_BIT =>
          let nbits := (tableMeta >>> 8) * 8 + (tableMeta &&& 0xFF)
          let length := (nbits + 7) / 8
          (bytesFrom ptr 0 length).map fun value => (some (.blob value nbits), length)
      | 17 => integer 4 ((miUint4korrB ptr).map Int.ofNat)
      | MYSQL_TYPE_TIMESTAMP => integer 4 ((uintKorr 4 ptr).map Int.ofNat)
      -- the number of eight bytes is kept in a `uint8_t`
      | 18 | MYSQL_TYPE_DATETIME =>
          integer 8 ((uintKorr 8 ptr).map fun val => Int.ofNat (val % 256))
      | MYSQL_TYPE_TIME => integer 3 ((uintKorr 3 ptr).map Int.ofNat)
      | MYSQL_TYPE_DATE => integer 3 ((uintKorr 3 ptr).map Int.ofNat)
      | MYSQL_TYPE_YEAR => integer 1 ((uintKorr 1 ptr).map Int.ofNat)
      | MYSQL_TYPE_ENUM =>
          match length with
          | 1 => integer 1 ((uintKorr 1 ptr).map Int.ofNat)
          | 2 => integer 2 ((uintKorr 2 ptr).map Int.ofNat)
          | _ => some (none, 0)
      | MYSQL_TYPE_SET => (bytesFrom ptr 0 length).map fun value => (some (.blob value 0), length)
      | MYSQL_TYPE_BLOB =>
          match tableMeta with
          | 1 | 2 | 3 | 4 => blob tableMeta ptr
          | _ => some (none, 0)
      | MYSQL_TYPE_VARCHAR | MYSQL_TYPE_VAR_STRING => string (if tableMeta < 256 then 1 else 2) ptr
      | MYSQL_TYPE_STRING => string (if length < 256 then 1 else 2) ptr
      | _ => some (none, 0)

/-- `MysqlRow`: the values by the numbers of their columns. -/
abbrev MysqlRow := List (Nat × DataValue)

/-- The loop of `ParseOneRow` from column `i` on. The bit is read before the column is looked at,
and the values begin at `value`. -/
def parseColumns (data : Bytes) (cols : Nat → Bool) :
    List (Nat × Nat) → Nat → Nat → Nat → Option (MysqlRow × Nat)
  | [], _, _, value => some ([], value)
  | (type, tableMeta) :: table, i, nullBitIndex, value =>
      (bitAt data nullBitIndex).bind fun isNull =>
        if cols i = false then parseColumns data cols table (i + 1) nullBitIndex value
        else if isNull then
          (parseColumns data cols table (i + 1) (nullBitIndex + 1) value).map fun (row, length) =>
            ((i, .null) :: row, length)
        else
          (parseValue decimal (data.drop value) type tableMeta).bind fun (val, size) =>
            let here := val.toList.map (Prod.mk i)
            if size = 0 then some (here, 0)
            else
              (parseColumns data cols table (i + 1) (nullBitIndex + 1) (value + size)).map
                fun (row, length) => (here ++ row, length)

/-- `ParseOneRow`. There is no result for numbers of columns that the table or an `int` has no room
for. -/
def parseOneRow (data : Bytes) (columns : Int) (cols : Nat → Bool) (table : List (Nat × Nat)) :
    Option (MysqlRow × Nat) :=
  if columns < 0 ∨ 2 ^ 31 ≤ columns + 7 ∨ table.length < columns.toNat then none
  else parseColumns decimal data cols (table.take columns.toNat) 0 0 ((columns.toNat + 7) / 8)

end Parse

/-! ## The format -/

/-- The type of a column and what the table map says about it. The length of a blob has `more + 1`
bytes. -/
inductive Column where
  | tiny
  | short
  | int24
  | long
  | longlong
  | datetime
  | timestamp
  | varchar (max : Fin 65536)
  | blob (more : Fin 4)
  deriving DecidableEq

inductive Content where
  | number (n : Int)
  | bytes (text : Bytes)
  deriving DecidableEq

namespace Column

def definition : Column → Nat × Nat
  | tiny => (MYSQL_TYPE_TINY, 0)
  | short => (MYSQL_TYPE_SHORT, 0)
  | int24 => (MYSQL_TYPE_INT24, 0)
  | long => (MYSQL_TYPE_LONG, 0)
  | longlong => (MYSQL_TYPE_LONGLONG, 0)
  | datetime => (MYSQL_TYPE_DATETIME, 0)
  | timestamp => (MYSQL_TYPE_TIMESTAMP, 0)
  | varchar max => (MYSQL_TYPE_VARCHAR, max)
  | blob more => (MYSQL_TYPE_BLOB, more + 1)

/-- The bytes of a number, or of a length. -/
def width : Column → Nat
  | tiny => 1
  | short => 2
  | int24 => 3
  | long => 4
  | longlong => 8
  | datetime => 8
  | timestamp => 4
  | varchar max => if max < 256 then 1 else 2
  | blob more => more + 1

inductive Shape where
  | signed
  | unsigned
  | prefixed
  deriving DecidableEq

def shape : Column → Shape
  | tiny | short | int24 | long | longlong => .signed
  | datetime | timestamp => .unsigned
  | varchar _ | blob _ => .prefixed

def maxLength : Column → Nat
  | varchar max => max
  | column => 256 ^ column.width - 1

def Holds (column : Column) : Content → Prop
  | .number n =>
      match column.shape with
      | .signed => -(256 ^ column.width : Nat) ≤ 2 * n ∧ 2 * n < (256 ^ column.width : Nat)
      | .unsigned => 0 ≤ n ∧ n < (256 ^ column.width : Nat)
      | .prefixed => False
  | .bytes text => column.shape = .prefixed ∧ text.length ≤ column.maxLength

def encode (column : Column) : Content → Bytes
  | .number n => leBytes column.width (n % (256 ^ column.width : Nat)).toNat
  | .bytes text => leBytes column.width text.length ++ text

/-- A number as an `int64_t`, or the bytes. -/
def valueOf (column : Column) : Content → DataValue
  | .number n => .integer (signed 8 (n % 2 ^ 64).toNat)
  | .bytes text =>
      match column with
      | varchar _ => .string text
      | _ => .blob text 0

end Column

/-- A value of a column, or NULL. -/
structure Cell where
  column : Column
  content : Option Content
  typed : ∀ c ∈ content, column.Holds c

def Cell.encode (cell : Cell) : Bytes :=
  match cell.content with
  | none => []
  | some content => cell.column.encode content

def Cell.value (cell : Cell) : DataValue :=
  match cell.content with
  | none => .null
  | some content => cell.column.valueOf content

section Image

variable (cols : Nat → Bool)

/-- The cells of the columns that are there, from column `i` on. -/
def present : Nat → List Cell → List (Nat × Cell)
  | _, [] => []
  | i, cell :: row => if cols i then (i, cell) :: present (i + 1) row else present (i + 1) row

def image (row : List Cell) : Bytes :=
  pack ((present cols 0 row).map fun e => e.2.content.isNone) ++
    (present cols 0 row).flatMap fun e => e.2.encode

def expected (row : List Cell) : MysqlRow := (present cols 0 row).map fun e => (e.1, e.2.value)

end Image

/-! ## What is wanted -/

/-- An image is decoded exactly, whatever stands behind it. -/
def Exact (decimal : Nat → Bytes → Parsed) (cols : Nat → Bool) (row : List Cell) : Prop :=
  ∀ rest, parseOneRow decimal (image cols row ++ rest) (int32 row.length) cols
    (row.map fun cell => cell.column.definition) = some (expected cols row, (image cols row).length)

/-! ## When that holds -/

/-- A number that is not changed, or bytes whose length and the length of it fit 32 bits. -/
def Column.Fits : Column → Content → Prop
  | .tiny, .number n => 0 ≤ n
  | .datetime, .number n => n < 256
  | .blob more, .bytes text => text.length + (more + 1) < 2 ^ 32
  | _, _ => True

/-- The bitmap for all columns is as long as the one for those that are there, and all values
fit. -/
structure ImageFits (cols : Nat → Bool) (row : List Cell) : Prop where
  counted : 0 ≤ int32 row.length ∧ int32 row.length + 7 < 2 ^ 31
  within : ∀ e ∈ present cols 0 row, (e.1 : Int) < int32 row.length
  bitmap : ((int32 row.length).toNat + 7) / 8 = ((present cols 0 row).length + 7) / 8
  values : ∀ e ∈ present cols 0 row, ∀ c ∈ e.2.content, e.2.column.Fits c

/-- All bytes of one value of a column. -/
def Column.Whole (column : Column) (bytes : Bytes) : Prop :=
  match column.shape with
  | .signed | .unsigned => bytes.length = column.width
  | .prefixed =>
      ∃ text : Bytes, text.length < 256 ^ column.width ∧
        bytes = leBytes column.width text.length ++ text

section Layout

variable (data : Bytes) (cols : Nat → Bool)

/-- The values of the columns from `i` on stand in the data from `pos` to `stop`; bit `k` is the
next one. A column that is not there has no bit, but the byte of the next one is there. -/
inductive Spans : Nat → Nat → Nat → List Column → Nat → Prop where
  | nil {i k pos : Nat} : Spans i k pos [] pos
  | absent {i k pos stop : Nat} {column : Column} {columns : List Column}
      (notThere : cols i = false) (bit : (bitAt data k).isSome)
      (rest : Spans (i + 1) k pos columns stop) :
      Spans i k pos (column :: columns) stop
  | null {i k pos stop : Nat} {column : Column} {columns : List Column} (there : cols i = true)
      (bit : bitAt data k = some true) (rest : Spans (i + 1) (k + 1) pos columns stop) :
      Spans i k pos (column :: columns) stop
  | value {i k pos stop : Nat} {column : Column} {columns : List Column} {bytes : Bytes}
      (there : cols i = true) (bit : bitAt data k = some false) (whole : column.Whole bytes)
      (stands : bytes <+: data.drop pos)
      (rest : Spans (i + 1) (k + 1) (pos + bytes.length) columns stop) :
      Spans i k pos (column :: columns) stop

end Layout

/-- The data begin with a row whose bitmap has a bit for every column. -/
structure LaidRow (columns : List Column) (cols : Nat → Bool) (data : Bytes) (stop : Nat) :
    Prop where
  counted : 0 ≤ int32 columns.length ∧ int32 columns.length + 7 < 2 ^ 31
  spans : Spans data cols 0 0 (((int32 columns.length).toNat + 7) / 8)
    (columns.take (int32 columns.length).toNat) stop

/-! ## One value -/

section Value

theorem width_pos (column : Column) : 0 < column.width := by
  cases column with
  | varchar max =>
      rw [Column.width]
      split <;> decide
  | blob more => exact Nat.succ_pos _
  | _ => decide

theorem width_le (column : Column) : column.width ≤ 8 := by
  cases column with
  | varchar max =>
      rw [Column.width]
      split <;> decide
  | blob more =>
      have := more.isLt
      rw [Column.width]
      omega
  | _ => decide

/-- The bytes that `ParseValue` says a value takes. -/
def Column.size (column : Column) : DataValue → Nat
  | .string text | .blob text _ => (text.length + column.width) % 2 ^ 32
  | _ => column.width

/-- What `ParseValue` makes of a value. -/
def Column.read : Column → Content → DataValue
  | .tiny, .number n => .integer (n % 256)
  | .datetime, .number n => .integer (n % 256)
  | column, content => column.valueOf content

theorem signed_mod {k : Nat} {n : Int} (low : -(256 ^ k : Nat) ≤ 2 * n)
    (high : 2 * n < (256 ^ k : Nat)) : signed k (n % (256 ^ k : Nat)).toNat = n := by
  have large : 0 < 256 ^ k := Nat.pow_pos (by decide)
  rw [signed]
  generalize 256 ^ k = m at low high large
  by_cases negative : n < 0
  · have same : n % (m : Int) = n + m := by
      rw [← Int.add_emod_right, Int.emod_eq_of_lt (by omega) (by omega)]
    rw [same, if_neg (by omega)]
    omega
  · rw [Int.emod_eq_of_lt (by omega) (by omega), if_pos (by omega)]
    omega

theorem uintKorr_append {k n : Nat} (small : n < 256 ^ k) (rest : Bytes) :
    uintKorr k (leBytes k n ++ rest) = some n := by
  rw [uintKorr, readLe_append small]
  rfl

theorem uintKorr_mod (k : Nat) (n : Int) (rest : Bytes) :
    uintKorr k (leBytes k (n % (256 ^ k : Nat)).toNat ++ rest) =
      some (n % (256 ^ k : Nat)).toNat := by
  have large : 0 < 256 ^ k := Nat.pow_pos (by decide)
  refine uintKorr_append ?_ rest
  generalize 256 ^ k = m at large
  have least := Int.emod_nonneg n (show (m : Int) ≠ 0 by omega)
  have bound := Int.emod_lt_of_pos n (show (0 : Int) < m by omega)
  omega

theorem bytesFrom_append (head text rest : Bytes) :
    bytesFrom (head ++ text ++ rest) head.length text.length = some text := by
  rw [bytesFrom, if_pos (by simp), List.append_assoc, List.drop_left, List.take_left]

/-- Behind a length, the bytes are read as they were written. -/
theorem prefixed_append (make : Bytes → DataValue) {k : Nat} {text : Bytes}
    (small : text.length < 256 ^ k) (rest : Bytes) :
    prefixed make k (leBytes k text.length ++ text ++ rest) =
      some (some (make text), (text.length + k) % 2 ^ 32) := by
  have known : uintKorr k (leBytes k text.length ++ text ++ rest) = some text.length := by
    rw [List.append_assoc]
    exact uintKorr_append small _
  have inside := bytesFrom_append (leBytes k text.length) text rest
  rw [length_leBytes] at inside
  rw [prefixed, known, Option.bind_some, inside]
  rfl

/-- What is read behind a length stands there. -/
theorem prefixed_eq_some {make : Bytes → DataValue} {k : Nat} {ptr : Bytes}
    {val : Option DataValue} {size : Nat} (parsed : prefixed make k ptr = some (val, size)) :
    ∃ text rest : Bytes, text.length < 256 ^ k ∧ ptr = leBytes k text.length ++ text ++ rest ∧
      val = some (make text) ∧ size = (text.length + k) % 2 ^ 32 := by
  obtain ⟨length, known, more⟩ := Option.bind_eq_some_iff.mp parsed
  obtain ⟨text, stands, same⟩ := Option.map_eq_some_iff.mp more
  obtain ⟨⟨n, rest⟩, found, isLength⟩ := Option.map_eq_some_iff.mp known
  obtain ⟨rfl, small⟩ := readLe_eq_some found
  obtain rfl : n = length := isLength
  rw [bytesFrom] at stands
  split at stands
  · next inside =>
      rw [List.length_append, length_leBytes] at inside
      rw [List.drop_left' (length_leBytes k n)] at stands
      cases stands
      have count : (rest.take n).length = n := by
        rw [List.length_take]
        omega
      cases same
      exact ⟨rest.take n, rest.drop n, by rwa [count],
        by rw [count, List.append_assoc, List.take_append_drop], rfl, by rw [count]⟩
  · simp at stands

/-- The cases of `ParseValue` for the types of the format. -/
def Column.parse (column : Column) (ptr : Bytes) : Parsed :=
  match column with
  | .tiny => integer 1 ((uintKorr 1 ptr).map Int.ofNat)
  | .datetime => integer 8 ((uintKorr 8 ptr).map fun val => Int.ofNat (val % 256))
  | .timestamp => integer 4 ((uintKorr 4 ptr).map Int.ofNat)
  | .varchar max => RowImage.string (if max < 256 then 1 else 2) ptr
  | .blob more => RowImage.blob (more + 1) ptr
  | column => integer column.width (sintKorr column.width ptr)

theorem parseValue_eq (decimal : Nat → Bytes → Parsed) (column : Column) (ptr : Bytes) :
    parseValue decimal ptr column.definition.1 column.definition.2 = column.parse ptr := by
  cases column with
  | blob more => fin_cases more <;> rfl
  | _ => rfl

theorem valueOf_signed (column : Column) {n : Int} (low : -(256 ^ column.width : Nat) ≤ 2 * n)
    (high : 2 * n < (256 ^ column.width : Nat)) : column.valueOf (.number n) = .integer n := by
  have most : 256 ^ column.width ≤ 256 ^ 8 := Nat.pow_le_pow_right (by decide) (width_le column)
  exact congrArg DataValue.integer (signed_mod (k := 8) (by omega) (by omega))

/-- Numbers that are read as they were written. -/
theorem parse_signed {column : Column} {n : Int}
    (plain : ∀ ptr, column.parse ptr = integer column.width (sintKorr column.width ptr))
    (read : column.read (.number n) = column.valueOf (.number n))
    (low : -(256 ^ column.width : Nat) ≤ 2 * n) (high : 2 * n < (256 ^ column.width : Nat))
    (rest : Bytes) :
    column.parse (column.encode (.number n) ++ rest) =
      some (some (column.read (.number n)), column.width) := by
  rw [plain, read, valueOf_signed column low high, Column.encode, sintKorr,
    uintKorr_mod column.width n rest, Option.map_some, signed_mod low high]
  rfl

/-- Numbers that are read as unsigned ones. -/
theorem parse_unsigned {k : Nat} {n v : Int} (rest : Bytes) {f : Nat → Int}
    (same : f (n % (256 ^ k : Nat)).toNat = v) :
    integer k ((uintKorr k (leBytes k (n % (256 ^ k : Nat)).toNat ++ rest)).map f) =
      some (some (.integer v), k) := by
  rw [uintKorr_mod k n rest, ← same]
  rfl

theorem parse_number {column : Column} {n : Int} (holds : column.Holds (.number n))
    (rest : Bytes) :
    column.parse (column.encode (.number n) ++ rest) =
      some (some (column.read (.number n)), column.width) := by
  cases column with
  | tiny =>
      have same : Int.ofNat (n % (256 ^ 1 : Nat)).toNat = n % 256 := by
        simp only [Int.ofNat_eq_natCast]
        omega
      exact parse_unsigned rest same
  | datetime =>
      obtain ⟨low, high⟩ : 0 ≤ n ∧ n < (256 ^ 8 : Nat) := holds
      have same : Int.ofNat ((n % (256 ^ 8 : Nat)).toNat % 256) = n % 256 := by
        simp only [Int.ofNat_eq_natCast]
        omega
      exact parse_unsigned (f := fun val => Int.ofNat (val % 256)) rest same
  | timestamp =>
      obtain ⟨low, high⟩ : 0 ≤ n ∧ n < (256 ^ 4 : Nat) := holds
      have same : Int.ofNat (n % (256 ^ 4 : Nat)).toNat = signed 8 (n % 2 ^ 64).toNat := by
        rw [Int.emod_eq_of_lt low high]
        refine Eq.trans ?_ (signed_mod (k := 8) (by omega) (by omega)).symm
        simp only [Int.ofNat_eq_natCast]
        omega
      exact parse_unsigned rest same
  | varchar max => exact holds.elim
  | blob more => exact holds.elim
  | _ => exact parse_signed (fun _ => rfl) rfl holds.1 holds.2 rest

/-- What `ParseValue` makes of the bytes of a value. -/
theorem parse_encode {column : Column} {content : Content} (holds : column.Holds content)
    (rest : Bytes) :
    column.parse (column.encode content ++ rest) =
      some (some (column.read content), column.size (column.valueOf content)) := by
  cases content with
  | bytes text =>
      obtain ⟨prefixed, bound⟩ := holds
      cases column with
      | varchar max =>
          have small : text.length < 256 ^ (Column.varchar max).width := by
            have := max.isLt
            rw [Column.maxLength] at bound
            rw [Column.width]
            split <;> omega
          exact prefixed_append .string small rest
      | blob more =>
          have small : text.length < 256 ^ (Column.blob more).width := by
            have large : 0 < 256 ^ (Column.blob more).width := Nat.pow_pos (by decide)
            rw [Column.maxLength] at bound
            · omega
            · simp
          exact prefixed_append (fun value => .blob value 0) small rest
      | _ => exact absurd prefixed (by decide)
  | number n => exact parse_number holds rest

theorem integer_eq_some {size : Nat} {value : Option Int} {val : Option DataValue} {size' : Nat}
    (made : integer size value = some (val, size')) :
    ∃ n, value = some n ∧ val = some (.integer n) ∧ size' = size := by
  obtain ⟨n, known, same⟩ := Option.map_eq_some_iff.mp made
  cases same
  exact ⟨n, known, rfl, rfl⟩

/-- The value tells how many bytes are counted for it. -/
theorem parse_size {column : Column} {ptr : Bytes} {val : Option DataValue} {size : Nat}
    (parsed : column.parse ptr = some (val, size)) :
    ∃ v, val = some v ∧ v ≠ .null ∧ size = column.size v := by
  cases column with
  | varchar max =>
      obtain ⟨text, rest, -, -, rfl, rfl⟩ := prefixed_eq_some parsed
      exact ⟨_, rfl, by simp, rfl⟩
  | blob more =>
      obtain ⟨text, rest, -, -, rfl, rfl⟩ := prefixed_eq_some parsed
      exact ⟨_, rfl, by simp, rfl⟩
  | _ =>
      obtain ⟨n, -, rfl, rfl⟩ := integer_eq_some parsed
      exact ⟨_, rfl, by simp, rfl⟩

theorem size_valueOf {column : Column} {content : Content} (holds : column.Holds content) :
    column.size (column.valueOf content) = (column.encode content).length % 2 ^ 32 := by
  cases content with
  | number n =>
      have := width_le column
      rw [Column.encode, length_leBytes, Nat.mod_eq_of_lt (by omega)]
      rfl
  | bytes text =>
      rw [Column.encode, List.length_append, length_leBytes, Nat.add_comm]
      cases column with
      | varchar max => rfl
      | blob more => rfl
      | _ => exact absurd holds.1 (by decide)

theorem encode_pos (column : Column) (content : Content) : 0 < (column.encode content).length := by
  have := width_pos column
  cases content with
  | number n => rwa [Column.encode, length_leBytes]
  | bytes text =>
      rw [Column.encode, List.length_append, length_leBytes]
      omega

theorem fits_iff {column : Column} {content : Content} (holds : column.Holds content) :
    column.read content = column.valueOf content ∧ (column.encode content).length < 2 ^ 32 ↔
      column.Fits content := by
  have short := width_le column
  cases content with
  | number n =>
      rw [Column.encode, length_leBytes]
      cases column with
      | tiny =>
          have same := valueOf_signed .tiny holds.1 holds.2
          obtain ⟨low, high⟩ : -(256 ^ 1 : Nat) ≤ 2 * n ∧ 2 * n < (256 ^ 1 : Nat) := holds
          rw [Column.read, same, Column.Fits, DataValue.integer.injEq]
          omega
      | datetime =>
          obtain ⟨low, high⟩ : 0 ≤ n ∧ n < (256 ^ 8 : Nat) := holds
          rw [Column.read, Column.valueOf, Column.Fits, DataValue.integer.injEq, signed]
          split <;> omega
      | varchar max => exact holds.elim
      | blob more => exact holds.elim
      | _ => exact ⟨fun _ => trivial, fun _ => ⟨rfl, by omega⟩⟩
  | bytes text =>
      rw [Column.encode, List.length_append, length_leBytes]
      cases column with
      | varchar max =>
          have bound : text.length ≤ max := holds.2
          have := max.isLt
          exact ⟨fun _ => trivial, fun _ => ⟨rfl, by omega⟩⟩
      | blob more =>
          rw [Column.Fits, Column.width, Nat.add_comm]
          exact ⟨And.right, fun fits => ⟨rfl, fits⟩⟩
      | _ => exact absurd holds.1 (by decide)

theorem uintKorr_isSome {k : Nat} {ptr : Bytes} :
    (∃ n, uintKorr k ptr = some n) ↔ ∃ bytes : Bytes, bytes.length = k ∧ bytes <+: ptr := by
  rw [uintKorr, readLe]
  constructor
  · rintro ⟨n, known⟩
    split at known
    · simp at known
    · exact ⟨ptr.take k, by rw [List.length_take]; omega, List.take_prefix k ptr⟩
  · rintro ⟨bytes, rfl, stands⟩
    have := stands.length_le
    rw [if_neg (by omega)]
    exact ⟨_, rfl⟩

theorem integer_isSome {size : Nat} {value : Option Int} (size' : Nat) :
    (∃ val, integer size value = some (val, size')) ↔ (∃ n, value = some n) ∧ size' = size := by
  constructor
  · rintro ⟨val, made⟩
    obtain ⟨n, known, -, same⟩ := integer_eq_some made
    exact ⟨⟨n, known⟩, same⟩
  · rintro ⟨⟨n, rfl⟩, rfl⟩
    exact ⟨_, rfl⟩

theorem prefixed_whole {make : Bytes → DataValue} {k : Nat} {ptr : Bytes}
    (bounded : ptr.length < 2 ^ 32) (size : Nat) :
    (∃ val, prefixed make k ptr = some (val, size)) ↔
      ∃ bytes : Bytes, (∃ text : Bytes, text.length < 256 ^ k ∧
        bytes = leBytes k text.length ++ text) ∧ bytes <+: ptr ∧ size = bytes.length := by
  constructor
  · rintro ⟨val, parsed⟩
    obtain ⟨text, rest, small, rfl, rfl, rfl⟩ := prefixed_eq_some parsed
    simp only [List.length_append, length_leBytes] at bounded
    refine ⟨_, ⟨text, small, rfl⟩, List.prefix_append _ _, ?_⟩
    rw [List.length_append, length_leBytes, Nat.mod_eq_of_lt (by omega), Nat.add_comm]
  · rintro ⟨bytes, ⟨text, small, rfl⟩, ⟨rest, rfl⟩, rfl⟩
    simp only [List.length_append, length_leBytes] at bounded
    refine ⟨some (make text), (prefixed_append make small rest).trans ?_⟩
    rw [List.length_append, length_leBytes, Nat.mod_eq_of_lt (by omega), Nat.add_comm]

/-- In less than four gigabytes, a value is parsed where all its bytes are there. -/
theorem parse_whole {column : Column} {ptr : Bytes} (bounded : ptr.length < 2 ^ 32) (size : Nat) :
    (∃ val, column.parse ptr = some (val, size)) ↔
      ∃ bytes, column.Whole bytes ∧ bytes <+: ptr ∧ size = bytes.length := by
  have number : ∀ {k : Nat} {f : Nat → Int},
      (∃ val, integer k ((uintKorr k ptr).map f) = some (val, size)) ↔
        ∃ bytes : Bytes, bytes.length = k ∧ bytes <+: ptr ∧ size = bytes.length := by
    intro k f
    rw [integer_isSome]
    constructor
    · rintro ⟨⟨n, known⟩, same⟩
      obtain ⟨m, known, -⟩ := Option.map_eq_some_iff.mp known
      obtain ⟨bytes, whole, stands⟩ := uintKorr_isSome.mp ⟨m, known⟩
      exact ⟨bytes, whole, stands, same.trans whole.symm⟩
    · rintro ⟨bytes, whole, stands, same⟩
      obtain ⟨m, known⟩ := uintKorr_isSome.mpr ⟨bytes, whole, stands⟩
      exact ⟨⟨f m, by rw [known]; rfl⟩, same.trans whole⟩
  cases column with
  | varchar max => exact prefixed_whole bounded size
  | blob more => exact prefixed_whole bounded size
  | _ => exact number

end Value

/-! ## The values of a row -/

section Loop

variable {decimal : Nat → Bytes → Parsed} {data : Bytes} {cols : Nat → Bool}

theorem parseColumns_turn (e : Nat × Nat) (table : List (Nat × Nat)) (i k pos : Nat) :
    parseColumns decimal data cols (e :: table) i k pos =
      (bitAt data k).bind fun isNull =>
        if cols i = false then parseColumns decimal data cols table (i + 1) k pos
        else if isNull then
          (parseColumns decimal data cols table (i + 1) (k + 1) pos).map fun (row, length) =>
            ((i, .null) :: row, length)
        else
          (parseValue decimal (data.drop pos) e.1 e.2).bind fun (val, size) =>
            let here := val.toList.map (Prod.mk i)
            if size = 0 then some (here, 0)
            else
              (parseColumns decimal data cols table (i + 1) (k + 1) (pos + size)).map
                fun (row, length) => (here ++ row, length) :=
  rfl

/-- What one turn of the loop does. -/
theorem parseColumns_cons {column : Column} {table : List (Nat × Nat)} {i k pos length : Nat}
    {row : MysqlRow}
    (parsed : parseColumns decimal data cols (column.definition :: table) i k pos =
      some (row, length)) :
    (cols i = false ∧ (bitAt data k).isSome ∧
      parseColumns decimal data cols table (i + 1) k pos = some (row, length)) ∨
    (cols i = true ∧ bitAt data k = some true ∧ ∃ row', row = (i, .null) :: row' ∧
      parseColumns decimal data cols table (i + 1) (k + 1) pos = some (row', length)) ∨
    (cols i = true ∧ bitAt data k = some false ∧
      ∃ v size, column.parse (data.drop pos) = some (some v, size) ∧ v ≠ .null ∧
        size = column.size v ∧
        (size = 0 ∧ row = [(i, v)] ∧ length = 0 ∨
          0 < size ∧ ∃ row', row = (i, v) :: row' ∧
            parseColumns decimal data cols table (i + 1) (k + 1) (pos + size) =
              some (row', length))) := by
  rw [parseColumns_turn] at parsed
  obtain ⟨isNull, bit, parsed⟩ := Option.bind_eq_some_iff.mp parsed
  cases there : cols i with
  | false =>
      rw [if_pos there] at parsed
      exact .inl ⟨rfl, by rw [bit]; rfl, parsed⟩
  | true =>
      rw [if_neg (by rw [there]; decide)] at parsed
      cases isNull with
      | true =>
          obtain ⟨⟨row', length'⟩, later, same⟩ := Option.map_eq_some_iff.mp parsed
          cases same
          exact .inr (.inl ⟨rfl, bit, row', rfl, later⟩)
      | false =>
          rw [if_neg (by decide), parseValue_eq] at parsed
          obtain ⟨⟨val, size⟩, read, parsed⟩ := Option.bind_eq_some_iff.mp parsed
          obtain ⟨v, rfl, made, isSize⟩ := parse_size read
          refine .inr (.inr ⟨rfl, bit, v, size, read, made, isSize, ?_⟩)
          dsimp only at parsed
          split at parsed
          · next zero =>
              cases parsed
              exact .inl ⟨zero, rfl, rfl⟩
          · next more =>
              obtain ⟨⟨row', length'⟩, later, same⟩ := Option.map_eq_some_iff.mp parsed
              cases same
              exact .inr ⟨Nat.pos_of_ne_zero more, row', rfl, later⟩

section Turn

variable {column : Column} {table : List (Nat × Nat)} {i k pos length : Nat} {row : MysqlRow}

theorem parseColumns_absent (notThere : cols i = false) (bit : (bitAt data k).isSome) :
    parseColumns decimal data cols (column.definition :: table) i k pos =
      parseColumns decimal data cols table (i + 1) k pos := by
  obtain ⟨isNull, bit⟩ := Option.isSome_iff_exists.mp bit
  rw [parseColumns_turn, bit, Option.bind_some, if_pos notThere]

theorem parseColumns_null (there : cols i = true) (bit : bitAt data k = some true)
    (later : parseColumns decimal data cols table (i + 1) (k + 1) pos = some (row, length)) :
    parseColumns decimal data cols (column.definition :: table) i k pos =
      some ((i, .null) :: row, length) := by
  rw [parseColumns_turn, bit, Option.bind_some, if_neg (by rw [there]; decide), if_pos rfl, later]
  rfl

theorem parseColumns_value {v : DataValue} {size : Nat} (there : cols i = true)
    (bit : bitAt data k = some false)
    (parsed : column.parse (data.drop pos) = some (some v, size)) (some : 0 < size)
    (later : parseColumns decimal data cols table (i + 1) (k + 1) (pos + size) =
      .some (row, length)) :
    parseColumns decimal data cols (column.definition :: table) i k pos =
      .some ((i, v) :: row, length) := by
  rw [parseColumns_turn, bit, Option.bind_some, if_neg (by rw [there]; decide),
    if_neg (by decide), parseValue_eq, parsed, Option.bind_some]
  dsimp only
  rw [if_neg (by omega), later]
  rfl

end Turn

/-- The values of the columns from `i` on. -/
def values (cols : Nat → Bool) (i : Nat) (row : List Cell) : MysqlRow :=
  (present cols i row).map fun e => (e.1, e.2.value)

def definitions (row : List Cell) : List (Nat × Nat) := row.map fun cell => cell.column.definition

/-- The bytes of the values of the columns from `i` on. -/
def valueBytes (cols : Nat → Bool) (i : Nat) (row : List Cell) : Bytes :=
  (present cols i row).flatMap fun e => e.2.encode

/-- The bytes that are counted for these values. -/
def counted (cols : Nat → Bool) (i : Nat) (row : List Cell) : Nat :=
  ((present cols i row).map fun e => e.2.encode.length % 2 ^ 32).sum

section Cons

variable {cell : Cell} {row : List Cell} {i : Nat}

theorem present_absent (notThere : cols i = false) :
    present cols i (cell :: row) = present cols (i + 1) row :=
  if_neg (by rw [notThere]; decide)

theorem present_there (there : cols i = true) :
    present cols i (cell :: row) = (i, cell) :: present cols (i + 1) row :=
  if_pos there

theorem values_absent (notThere : cols i = false) :
    values cols i (cell :: row) = values cols (i + 1) row := by
  rw [values, values, present_absent notThere]

theorem values_there (there : cols i = true) :
    values cols i (cell :: row) = (i, cell.value) :: values cols (i + 1) row := by
  rw [values, values, present_there there]
  rfl

theorem valueBytes_absent (notThere : cols i = false) :
    valueBytes cols i (cell :: row) = valueBytes cols (i + 1) row := by
  rw [valueBytes, valueBytes, present_absent notThere]

theorem valueBytes_there (there : cols i = true) :
    valueBytes cols i (cell :: row) = cell.encode ++ valueBytes cols (i + 1) row := by
  rw [valueBytes, valueBytes, present_there there]
  rfl

theorem counted_absent (notThere : cols i = false) :
    counted cols i (cell :: row) = counted cols (i + 1) row := by
  rw [counted, counted, present_absent notThere]

theorem counted_there (there : cols i = true) :
    counted cols i (cell :: row) = cell.encode.length % 2 ^ 32 + counted cols (i + 1) row := by
  rw [counted, counted, present_there there]
  rfl

end Cons

theorem valueOf_ne_null (column : Column) (content : Content) : column.valueOf content ≠ .null := by
  cases content with
  | number n => simp [Column.valueOf]
  | bytes text => cases column <;> simp [Column.valueOf]

theorem encode_of_null {cell : Cell} (isNull : cell.value = .null) : cell.encode = [] := by
  rw [Cell.value] at isNull
  rw [Cell.encode]
  cases known : cell.content with
  | none => rfl
  | some content =>
      rw [known] at isNull
      exact absurd isNull (valueOf_ne_null _ _)

/-- The value of a cell tells how many bytes are counted for it. -/
theorem size_value {cell : Cell} (notNull : cell.value ≠ .null) :
    0 < cell.encode.length ∧ cell.column.size cell.value = cell.encode.length % 2 ^ 32 := by
  have typed := cell.typed
  rw [Cell.value] at notNull ⊢
  rw [Cell.encode]
  cases known : cell.content with
  | none =>
      rw [known] at notNull
      exact absurd rfl notNull
  | some content => exact ⟨encode_pos _ _, size_valueOf (typed content known)⟩

/-- Where the values come out, their bytes have been counted, or the loop has ended at a value that
was counted as none. -/
theorem parseColumns_counted {row : List Cell} {i k pos length : Nat}
    (parsed : parseColumns decimal data cols (definitions row) i k pos =
      some (values cols i row, length)) :
    length = 0 ∧ 0 < (valueBytes cols i row).length ∨ length = pos + counted cols i row := by
  induction row generalizing i k pos with
  | nil =>
      cases parsed
      exact .inr rfl
  | cons cell row ih =>
      rcases parseColumns_cons parsed with ⟨notThere, -, later⟩ | ⟨there, -, row', isRow, later⟩ |
        ⟨there, -, v, size, -, made, isSize, ended⟩
      · rw [values_absent notThere] at later
        rw [valueBytes_absent notThere, counted_absent notThere]
        exact ih later
      · rw [values_there there] at isRow
        obtain ⟨same, rfl⟩ := List.cons.inj isRow
        have isNull : cell.value = .null := congrArg Prod.snd same
        rw [valueBytes_there there, counted_there there, encode_of_null isNull]
        simpa using ih later
      · rw [values_there there] at ended
        rw [valueBytes_there there, counted_there there, List.length_append]
        rcases ended with ⟨zero, isRow, rfl⟩ | ⟨more, row', isRow, later⟩
        · obtain ⟨same, -⟩ := List.cons.inj isRow
          obtain rfl : cell.value = v := congrArg Prod.snd same
          have := (size_value made).1
          exact .inl ⟨rfl, by omega⟩
        · obtain ⟨same, rfl⟩ := List.cons.inj isRow
          obtain rfl : cell.value = v := congrArg Prod.snd same
          rw [← (size_value made).2, ← isSize]
          rcases ih later with ⟨zero, some⟩ | all
          · exact .inl ⟨zero, by omega⟩
          · exact .inr (by omega)

/-- Only columns of the table come out. -/
theorem parseColumns_below {columns : List Column} {i k pos length : Nat} {row : MysqlRow}
    (parsed : parseColumns decimal data cols (columns.map Column.definition) i k pos =
      some (row, length)) : ∀ e ∈ row, e.1 < i + columns.length := by
  induction columns generalizing i k pos row with
  | nil =>
      cases parsed
      simp
  | cons column columns ih =>
      rw [List.length_cons]
      rcases parseColumns_cons parsed with ⟨-, -, later⟩ | ⟨-, -, row', rfl, later⟩ |
        ⟨-, -, v, size, -, -, -, ended⟩
      · intro e member
        have := ih later e member
        omega
      · rintro e (_ | ⟨_, member⟩)
        · dsimp only
          omega
        · have := ih later e member
          omega
      · rcases ended with ⟨-, rfl, -⟩ | ⟨-, row', rfl, later⟩
        · intro e member
          obtain rfl := List.mem_singleton.mp member
          dsimp only
          omega
        · rintro e (_ | ⟨_, member⟩)
          · dsimp only
            omega
          · have := ih later e member
            omega

/-- What `ParseOneRow` makes of a cell. -/
def Cell.read (cell : Cell) : DataValue :=
  match cell.content with
  | none => .null
  | some content => cell.column.read content

/-- The bitmap and the values stand where the loop looks for them. -/
structure Ready (data : Bytes) (cols : Nat → Bool) (i k pos : Nat) (row : List Cell) : Prop where
  nulls : ∀ j, j < (present cols i row).length →
    bitAt data (k + j) = ((present cols i row).map fun e => e.2.content.isNone)[j]?
  bits : ∀ j < k + row.length, (bitAt data j).isSome
  stands : valueBytes cols i row <+: data.drop pos

theorem Ready.absent {cell : Cell} {row : List Cell} {i k pos : Nat}
    (ready : Ready data cols i k pos (cell :: row)) (notThere : cols i = false) :
    (bitAt data k).isSome ∧ Ready data cols (i + 1) k pos row := by
  obtain ⟨nulls, bits, stands⟩ := ready
  rw [valueBytes_absent notThere] at stands
  rw [present_absent notThere] at nulls
  rw [List.length_cons] at bits
  exact ⟨bits k (by omega), nulls, fun j below => bits j (by omega), stands⟩

theorem Ready.there {cell : Cell} {row : List Cell} {i k pos : Nat}
    (ready : Ready data cols i k pos (cell :: row)) (there : cols i = true) :
    bitAt data k = some cell.content.isNone ∧ cell.encode <+: data.drop pos ∧
      Ready data cols (i + 1) (k + 1) (pos + cell.encode.length) row := by
  obtain ⟨nulls, bits, stands⟩ := ready
  rw [valueBytes_there there] at stands
  rw [present_there there, List.length_cons] at nulls
  rw [List.length_cons] at bits
  obtain ⟨rest, whole⟩ := stands
  refine ⟨nulls 0 (Nat.succ_pos _), ⟨_, by rw [← List.append_assoc, whole]⟩, ?_, ?_, ?_⟩
  · intro j below
    rw [Nat.add_assoc, Nat.add_comm 1 j]
    exact nulls (j + 1) (Nat.succ_lt_succ below)
  · intro j below
    exact bits j (by omega)
  · rw [← List.drop_drop, ← whole, List.append_assoc, List.drop_left]
    exact List.prefix_append _ _

/-- Where everything stands in its place, all values are read. -/
theorem Ready.parseColumns {row : List Cell} {i k pos : Nat} (ready : Ready data cols i k pos row)
    (short : ∀ e ∈ present cols i row, e.2.encode.length < 2 ^ 32) :
    RowImage.parseColumns decimal data cols (definitions row) i k pos =
      some ((present cols i row).map fun e => (e.1, e.2.read),
        pos + (valueBytes cols i row).length) := by
  induction row generalizing i k pos with
  | nil => rfl
  | cons cell row ih =>
      rw [definitions, List.map_cons]
      cases there : cols i with
      | false =>
          obtain ⟨bit, rest⟩ := ready.absent there
          rw [present_absent there] at short ⊢
          rw [parseColumns_absent there bit, valueBytes_absent there]
          exact ih rest short
      | true =>
          obtain ⟨bit, stands, rest⟩ := ready.there there
          rw [present_there there] at short ⊢
          obtain ⟨here, short⟩ := List.forall_mem_cons.mp short
          have later := ih rest short
          rw [valueBytes_there there, List.length_append, List.map_cons, ← Nat.add_assoc]
          have typed := cell.typed
          rw [Cell.encode] at later stands here ⊢
          rw [Cell.read]
          cases known : cell.content with
          | none =>
              rw [known] at later bit
              exact parseColumns_null there bit later
          | some content =>
              rw [known] at later bit stands here
              obtain ⟨more, whole⟩ := stands
              have holds := typed content known
              have parsed := parse_encode holds more
              rw [whole, size_valueOf holds, Nat.mod_eq_of_lt here] at parsed
              exact parseColumns_value there bit parsed (encode_pos _ _) later

end Loop

/-! ## Exactly decoded images -/

section Exactly

variable {decimal : Nat → Bytes → Parsed} {cols : Nat → Bool} {row : List Cell}

theorem le_of_present {i : Nat} {row : List Cell} : ∀ e ∈ present cols i row, i ≤ e.1 := by
  induction row generalizing i with
  | nil => simp [present]
  | cons cell row ih =>
      intro e member
      rw [present] at member
      split at member
      · rcases List.mem_cons.mp member with rfl | member
        · exact Nat.le_refl _
        · exact Nat.le_of_succ_le (ih e member)
      · exact Nat.le_of_succ_le (ih e member)

/-- Columns that are not there need not be counted. -/
theorem present_take {i c : Nat} {row : List Cell}
    (within : ∀ e ∈ present cols i row, e.1 < i + c) :
    present cols i (row.take c) = present cols i row := by
  induction row generalizing i c with
  | nil => rw [List.take_nil]
  | cons cell row ih =>
      cases c with
      | zero =>
          rw [List.take_zero]
          symm
          rw [present, List.eq_nil_iff_forall_not_mem]
          intro e member
          have below := within e member
          have := le_of_present e member
          omega
      | succ c =>
          rw [List.take_succ_cons, present, present]
          rw [present] at within
          split
          · next there =>
              rw [if_pos there] at within
              rw [ih fun e member => by have := within e (List.mem_cons_of_mem _ member); omega]
          · next notThere =>
              rw [if_neg notThere] at within
              exact ih fun e member => by have := within e member; omega

/-- What is not counted of long values is a multiple of what 32 bits can hold. -/
theorem counted_spec (cols : Nat → Bool) (i : Nat) (row : List Cell) :
    ∃ m, (valueBytes cols i row).length = counted cols i row + 2 ^ 32 * m ∧
      (m = 0 → ∀ e ∈ present cols i row, e.2.encode.length < 2 ^ 32) := by
  rw [valueBytes, counted]
  induction present cols i row with
  | nil => exact ⟨0, rfl, by simp⟩
  | cons e rest ih =>
      obtain ⟨m, sum, short⟩ := ih
      refine ⟨e.2.encode.length / 2 ^ 32 + m, ?_, fun none => ?_⟩
      · rw [List.flatMap_cons, List.length_append, sum, List.map_cons, List.sum_cons]
        omega
      · exact List.forall_mem_cons.mpr ⟨by omega, short (by omega)⟩

theorem length_image (cols : Nat → Bool) (row : List Cell) :
    (image cols row).length =
      ((present cols 0 row).length + 7) / 8 + (valueBytes cols 0 row).length := by
  rw [image, List.length_append, length_pack, List.length_map]
  rfl

/-- An image stands where the loop looks for it, if the bitmap is as long as the loop expects. -/
theorem ready_image {c : Nat} (taken : present cols 0 (row.take c) = present cols 0 row)
    (bitmap : (c + 7) / 8 = ((present cols 0 row).length + 7) / 8) (rest : Bytes) :
    Ready (image cols row ++ rest) cols 0 0 ((c + 7) / 8) (row.take c) := by
  have size :
      (pack ((present cols 0 row).map fun e => e.2.content.isNone)).length = (c + 7) / 8 := by
    rw [length_pack, List.length_map, bitmap]
  refine ⟨?_, ?_, ?_⟩
  · intro j below
    rw [taken] at below ⊢
    rw [Nat.zero_add, image, List.append_assoc, bitAt_append_left (by omega)]
    exact bitAt_pack (by rwa [List.length_map])
  · intro j below
    rw [List.length_take] at below
    rw [bitAt_isSome, image, List.append_assoc, List.length_append, size]
    omega
  · rw [valueBytes, taken, image, List.append_assoc, List.drop_left' size]
    exact List.prefix_append _ _

theorem cell_fits_iff (cell : Cell) :
    cell.read = cell.value ∧ cell.encode.length < 2 ^ 32 ↔
      ∀ c ∈ cell.content, cell.column.Fits c := by
  have typed := cell.typed
  rw [Cell.read, Cell.value, Cell.encode]
  cases known : cell.content with
  | none => simp
  | some content =>
      rw [known] at typed
      have fits := fits_iff (typed content rfl)
      simpa using fits

/-- If the bitmap is as long as the loop expects, only the values decide. -/
theorem parseColumns_image_iff {c : Nat}
    (taken : present cols 0 (row.take c) = present cols 0 row)
    (bitmap : (c + 7) / 8 = ((present cols 0 row).length + 7) / 8) (rest : Bytes)
    (short : ∀ e ∈ present cols 0 row, e.2.encode.length < 2 ^ 32) :
    parseColumns decimal (image cols row ++ rest) cols (definitions (row.take c)) 0 0
        ((c + 7) / 8) = some (expected cols row, (image cols row).length) ↔
      ∀ e ∈ present cols 0 row, ∀ c ∈ e.2.content, e.2.column.Fits c := by
  have ready := ready_image taken bitmap rest
  rw [ready.parseColumns (by rwa [taken]), valueBytes, taken, length_image, bitmap, expected,
    Option.some_inj, Prod.mk.injEq, List.map_inj_left]
  constructor
  · rintro ⟨same, -⟩ e member
    exact (cell_fits_iff e.2).mp ⟨congrArg Prod.snd (same e member), short e member⟩
  · intro fits
    refine ⟨fun e member => ?_, rfl⟩
    rw [((cell_fits_iff e.2).mpr (fits e member)).1]

/-- A row has columns for all values that were made of it. -/
theorem within_of_parsed {data : Bytes} {c k pos stop : Nat}
    (parsed : parseColumns decimal data cols (definitions (row.take c)) 0 k pos =
      some (expected cols row, stop)) : ∀ e ∈ present cols 0 row, e.1 < c := by
  intro e member
  have isIn : (e.1, e.2.value) ∈ expected cols row := List.mem_map_of_mem member
  have named : definitions (row.take c) =
      ((row.take c).map Cell.column).map Column.definition := by
    rw [List.map_map]
    rfl
  rw [named] at parsed
  have below := parseColumns_below parsed _ isIn
  rw [List.length_map, List.length_take] at below
  dsimp only at below
  omega

/-- The loop goes through all columns that are there. -/
theorem present_counted
    (within : ∀ e ∈ present cols 0 row, (e.1 : Int) < int32 row.length) :
    present cols 0 (row.take (int32 row.length).toNat) = present cols 0 row := by
  refine present_take fun e member => ?_
  have := within e member
  omega

/-- An image with anything behind it is decoded exactly, or it does not fit. -/
theorem parseOneRow_image_iff (decimal : Nat → Bytes → Parsed) (rest : Bytes) :
    parseOneRow decimal (image cols row ++ rest) (int32 row.length) cols (definitions row) =
        some (expected cols row, (image cols row).length) ↔ ImageFits cols row := by
  obtain ⟨m, isInt, -, -⟩ := int32_spec row.length
  have count : (definitions row).length = row.length := List.length_map _
  have tables : (definitions row).take (int32 row.length).toNat =
      definitions (row.take (int32 row.length).toNat) := List.map_take.symm
  rw [parseOneRow, count, tables]
  constructor
  · intro parsed
    split at parsed
    · simp at parsed
    · next possible =>
        have within : ∀ e ∈ present cols 0 row, (e.1 : Int) < int32 row.length := by
          intro e member
          have := within_of_parsed parsed e member
          omega
        have taken := present_counted within
        obtain ⟨extra, sum, short⟩ := counted_spec cols 0 row
        have isValues : expected cols row = values cols 0 (row.take (int32 row.length).toNat) := by
          rw [expected, values, taken]
        have size := length_image cols row
        rw [isValues] at parsed
        rcases parseColumns_counted parsed with ⟨none, some⟩ | all
        · rw [valueBytes, taken, ← valueBytes] at some
          omega
        · rw [counted, taken, ← counted] at all
          have bitmap : ((int32 row.length).toNat + 7) / 8 =
              ((present cols 0 row).length + 7) / 8 := by omega
          have noExtra : extra = 0 := by omega
          rw [← isValues] at parsed
          exact ⟨by omega, within, bitmap,
            (parseColumns_image_iff taken bitmap rest (short noExtra)).mp parsed⟩
  · rintro ⟨⟨low, high⟩, within, bitmap, fits⟩
    have short : ∀ e ∈ present cols 0 row, e.2.encode.length < 2 ^ 32 :=
      fun e member => ((cell_fits_iff e.2).mpr (fits e member)).2
    rw [if_neg (by omega)]
    exact (parseColumns_image_iff (present_counted within) bitmap rest short).mpr fits

theorem exact_iff : Exact decimal cols row ↔ ImageFits cols row :=
  ⟨fun exactly => (parseOneRow_image_iff decimal []).mp (exactly []),
    fun fits rest => (parseOneRow_image_iff decimal rest).mpr fits⟩

end Exactly

/-! ## Any bytes -/

section AnyBytes

variable {decimal : Nat → Bytes → Parsed}

theorem whole_pos {column : Column} {bytes : Bytes} (whole : column.Whole bytes) :
    0 < bytes.length := by
  have some := width_pos column
  rw [Column.Whole] at whole
  split at whole
  · omega
  · omega
  · obtain ⟨text, -, rfl⟩ := whole
    rw [List.length_append, length_leBytes]
    omega

/-- The loop comes to an end where the values stand one behind the other. -/
theorem parseColumns_iff {data : Bytes} (bounded : data.length < 2 ^ 32) {cols : Nat → Bool}
    {columns : List Column} {i k pos stop : Nat} :
    (∃ row, parseColumns decimal data cols (columns.map Column.definition) i k pos =
      some (row, stop)) ↔ Spans data cols i k pos columns stop := by
  have rest : ∀ pos, (data.drop pos).length < 2 ^ 32 := by
    intro pos
    rw [List.length_drop]
    omega
  constructor
  · rintro ⟨row, parsed⟩
    induction columns generalizing i k pos row with
    | nil =>
        cases parsed
        exact .nil
    | cons column columns ih =>
        rcases parseColumns_cons parsed with ⟨notThere, bit, later⟩ |
          ⟨there, bit, row', -, later⟩ | ⟨there, bit, v, size, read, -, -, ended⟩
        · exact .absent notThere bit (ih row later)
        · exact .null there bit (ih row' later)
        · obtain ⟨bytes, whole, stands, rfl⟩ := (parse_whole (rest pos) size).mp ⟨_, read⟩
          have more := whole_pos whole
          rcases ended with ⟨none, -, -⟩ | ⟨-, row', -, later⟩
          · omega
          · exact .value there bit whole stands (ih row' later)
  · intro spans
    induction spans with
    | nil => exact ⟨[], rfl⟩
    | absent notThere bit _ ih =>
        obtain ⟨row, later⟩ := ih
        exact ⟨row, (parseColumns_absent notThere bit).trans later⟩
    | null there bit _ ih =>
        obtain ⟨row, later⟩ := ih
        exact ⟨_, parseColumns_null there bit later⟩
    | @value i k pos stop column columns bytes there bit whole stands _ ih =>
        obtain ⟨row, later⟩ := ih
        obtain ⟨val, read⟩ := (parse_whole (rest pos) bytes.length).mpr ⟨bytes, whole, stands, rfl⟩
        obtain ⟨v, rfl, -, -⟩ := parse_size read
        exact ⟨_, parseColumns_value there bit read (whole_pos whole) later⟩

theorem parseOneRow_iff {data : Bytes} (bounded : data.length < 2 ^ 32) {cols : Nat → Bool}
    {columns : List Column} {stop : Nat} :
    (∃ row, parseOneRow decimal data (int32 columns.length) cols
      (columns.map Column.definition) = some (row, stop)) ↔ LaidRow columns cols data stop := by
  obtain ⟨m, isInt, -, -⟩ := int32_spec columns.length
  have tables : (columns.map Column.definition).take (int32 columns.length).toNat =
      (columns.take (int32 columns.length).toNat).map Column.definition := List.map_take.symm
  rw [parseOneRow, List.length_map, tables]
  constructor
  · rintro ⟨row, parsed⟩
    split at parsed
    · simp at parsed
    · exact ⟨by omega, (parseColumns_iff bounded).mp ⟨row, parsed⟩⟩
  · rintro ⟨⟨low, high⟩, spans⟩
    rw [if_neg (by omega)]
    exact (parseColumns_iff bounded).mpr spans

theorem Spans.le {data : Bytes} {cols : Nat → Bool} {columns : List Column} {i k pos stop : Nat}
    (spans : Spans data cols i k pos columns stop) : pos ≤ stop := by
  induction spans with
  | nil => exact Nat.le_refl _
  | absent _ _ _ ih => exact ih
  | null _ _ _ ih => exact ih
  | value _ _ _ _ _ ih => omega

theorem LaidRow.stop_iff {columns : List Column} {cols : Nat → Bool} {data : Bytes} {stop : Nat}
    (row : LaidRow columns cols data stop) : stop = 0 ↔ int32 columns.length = 0 := by
  obtain ⟨⟨low, -⟩, spans⟩ := row
  constructor
  · intro none
    have := spans.le
    omega
  · intro none
    rw [none] at spans
    cases spans
    rfl

end AnyBytes

end MlsImgSearch.Db.RowImage
