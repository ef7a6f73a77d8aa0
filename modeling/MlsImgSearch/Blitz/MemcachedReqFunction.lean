import MlsImgSearch.Lib.Printf
import MlsImgSearch.Lib.Strings
import MlsImgSearch.Lib.Words

/-!
# Requests to memcached

Each function prints a request of the text protocol into a buffer. Most of them print it
in one call; the one for several keys prints piece by piece and adds up the lengths.
-/

namespace MlsImgSearch.Blitz.MemcachedReqFunction

open Lib.Printf Lib.Words
open Lib.Strings (decimal forall_mem_of_all)

/-! ## Commands -/

/-- The bytes of `get`. -/
def MEMCACHED_COMMAND_GET : List UInt8 := [103, 101, 116]

/-- The bytes of `delete`. -/
def MEMCACHED_COMMAND_DELETE : List UInt8 := [100, 101, 108, 101, 116, 101]

/-- The bytes of `incr`. -/
def MEMCACHED_COMMAND_INCREMENT : List UInt8 := [105, 110, 99, 114]

/-- The bytes of `decr`. -/
def MEMCACHED_COMMAND_DECREMENT : List UInt8 := [100, 101, 99, 114]

inductive MemcachedStorageOp where
  | setOp
  | replaceOp
  | addOp
  | prependOp
  | appendOp
  | casOp
  deriving DecidableEq

/-- The bytes of `set`, `replace`, `add`, `prepend`, `append` and `cas`. -/
def storageOpString : MemcachedStorageOp → List UInt8
  | .setOp => [115, 101, 116]
  | .replaceOp => [114, 101, 112, 108, 97, 99, 101]
  | .addOp => [97, 100, 100]
  | .prependOp => [112, 114, 101, 112, 101, 110, 100]
  | .appendOp => [97, 112, 112, 101, 110, 100]
  | .casOp => [99, 97, 115]

def crlf : List UInt8 := [13, 10]

/-! ## The functions

A result is what is returned and the buffer; there is none if a function leaves it. -/

/-- The format of a command with a key, and with a number behind it. -/
def printKey (buf command key : List UInt8) (number : Option Nat) : Option (Int × List UInt8) :=
  (precision key).bind fun key =>
    snprintf buf 0 buf.length
      (command ++ 32 :: (key ++ (number.elim [] fun n => 32 :: decimal n)) ++ crlf)

def get (buf key : List UInt8) : Option (Int × List UInt8) :=
  printKey buf MEMCACHED_COMMAND_GET key none

/-- The time is printed as an unsigned number. -/
def delete (buf key : List UInt8) (expiration : BitVec 64) : Option (Int × List UInt8) :=
  printKey buf MEMCACHED_COMMAND_DELETE key (some expiration.toNat)

def increase (buf key : List UInt8) (delta : BitVec 64) : Option (Int × List UInt8) :=
  printKey buf MEMCACHED_COMMAND_INCREMENT key (some delta.toNat)

def decrease (buf key : List UInt8) (delta : BitVec 64) : Option (Int × List UInt8) :=
  printKey buf MEMCACHED_COMMAND_DECREMENT key (some delta.toNat)

/-- The sum of two `int` numbers. -/
def addInt (a b : Int) : Option Int :=
  if -2 ^ 31 ≤ a + b ∧ a + b < 2 ^ 31 then some (a + b) else none

/-- Prints `text` behind the first `tlen` bytes and adds to `tlen`. -/
def printMore (text : List UInt8) (tlen : Int) (buf : List UInt8) : Option (Int × List UInt8) :=
  (snprintf buf tlen (sizeSub buf.length tlen) text).bind fun (len, buf) =>
    (addInt tlen len).map fun tlen => (tlen, buf)

def mgetLoop : List (List UInt8) → Int → List UInt8 → Option (Int × List UInt8)
  | [], tlen, buf => some (tlen, buf)
  | key :: rest, tlen, buf =>
      (precision key).bind fun key =>
        (printMore (32 :: key) tlen buf).bind fun (tlen, buf) => mgetLoop rest tlen buf

def mget (buf : List UInt8) (keys : List (List UInt8)) : Option (Int × List UInt8) :=
  (snprintf buf 0 buf.length (MEMCACHED_COMMAND_GET ++ [32])).bind fun (tlen, buf) =>
    (mgetLoop keys tlen buf).bind fun (tlen, buf) => printMore crlf tlen buf

def storage (buf key value : List UInt8) (expiration : BitVec 64) (flags : BitVec 32)
    (cas : BitVec 64) (op : MemcachedStorageOp) : Option (Int × List UInt8) :=
  (precision key).bind fun key =>
    (precision value).bind fun shown =>
      snprintf buf 0 buf.length
        (storageOpString op ++ 32 :: (key ++ 32 :: (decimal flags.toNat ++
          32 :: (decimal expiration.toNat ++ 32 :: (decimal value.length ++
            32 :: decimal (if op = .casOp then cas.toNat else 0))))) ++ crlf ++ shown ++ crlf)

/-! ## Calls -/

inductive Call where
  | get (key : List UInt8)
  | mget (keys : List (List UInt8))
  | delete (key : List UInt8) (expiration : BitVec 64)
  | increase (key : List UInt8) (delta : BitVec 64)
  | decrease (key : List UInt8) (delta : BitVec 64)
  | storage (key value : List UInt8) (expiration : BitVec 64) (flags : BitVec 32) (cas : BitVec 64)
      (op : MemcachedStorageOp)
  deriving DecidableEq

def perform (buf : List UInt8) : Call → Option (Int × List UInt8)
  | .get key => get buf key
  | .mget keys => mget buf keys
  | .delete key expiration => delete buf key expiration
  | .increase key delta => increase buf key delta
  | .decrease key delta => decrease buf key delta
  | .storage key value expiration flags cas op => storage buf key value expiration flags cas op

def Call.keys : Call → List (List UInt8)
  | .get key => [key]
  | .mget keys => keys
  | .delete key _ => [key]
  | .increase key _ => [key]
  | .decrease key _ => [key]
  | .storage key _ _ _ _ _ => [key]

/-- No blank, no control character and no zero. -/
def CleanKey (key : List UInt8) : Prop := ∀ c ∈ key, 32 < c ∧ c ≠ 127

/-! ## What is wanted -/

/-- The digits of a number behind its sign. -/
def decimalInt (n : Int) : List UInt8 := if n < 0 then 45 :: decimal n.natAbs else decimal n.natAbs

/-- One line with these fields. -/
def IsLine (fields : List (List UInt8)) (text : List UInt8) : Prop :=
  ∃ line, text = line ++ crlf ∧ 13 ∉ line ∧ 10 ∉ line ∧ words 32 line = fields

/-- The request of the protocol for a call. -/
def IsRequest : Call → List UInt8 → Prop
  | .get key, text => IsLine [MEMCACHED_COMMAND_GET, key] text
  | .mget keys, text => keys ≠ [] ∧ IsLine (MEMCACHED_COMMAND_GET :: keys) text
  | .delete key expiration, text =>
      IsLine [MEMCACHED_COMMAND_DELETE, key, decimalInt expiration.toInt] text
  | .increase key delta, text =>
      IsLine [MEMCACHED_COMMAND_INCREMENT, key, decimal delta.toNat] text
  | .decrease key delta, text =>
      IsLine [MEMCACHED_COMMAND_DECREMENT, key, decimal delta.toNat] text
  | .storage key value expiration flags cas op, text =>
      ∃ line, text = line ++ value ++ crlf ∧
        IsLine ([storageOpString op, key, decimal flags.toNat, decimalInt expiration.toInt,
          decimal value.length] ++ if op = .casOp then [decimal cas.toNat] else []) line

/-- Nothing is written outside, and a text that fits is the request. -/
def Right (call : Call) (buf : List UInt8) : Prop :=
  ∃ ret buf', perform buf call = some (ret, buf') ∧
    ∀ n : Nat, ret = n → n < buf.length → IsRequest call (buf'.take n)

/-- What is printed of a string whose length becomes an `int`. -/
def shown (bytes : List UInt8) : List UInt8 :=
  (bytes.take (bytes.length % 2 ^ 32)).takeWhile (· ≠ 0)

/-- The length is not negative as an `int`. -/
def Prints (bytes : List UInt8) : Prop := bytes.length % 2 ^ 32 < 2 ^ 31

def Whole (key : List UInt8) : Prop := key ≠ [] ∧ key.length < 2 ^ 31

/-- A text is not longer than an `int` can say, is shorter than the buffer, and is not the request. -/
def Spoils (size length : Nat) (good : Prop) : Prop := length < 2 ^ 31 ∧ length < size ∧ ¬ good

/-- What `Mget` adds up for a key. -/
def keyLength (key : List UInt8) : Int := returned (32 :: shown key)

/-- No piece for a key begins outside the buffer, and the lengths stay in the range of an `int`. -/
def Room (size : Nat) : Int → List (List UInt8) → Prop
  | tlen, [] => 0 ≤ tlen ∧ tlen ≤ size ∧ tlen + 2 < 2 ^ 31
  | tlen, key :: rest =>
      0 ≤ tlen ∧ tlen ≤ size ∧ Prints key ∧ tlen + keyLength key < 2 ^ 31 ∧
        Room size (tlen + keyLength key) rest

/-- When a call does what is wanted, for the size of the buffer. -/
def Fits (size : Nat) : Call → Prop
  | .get key => Prints key ∧ ¬ Spoils size (6 + (shown key).length) (Whole key)
  | .mget keys => Room size 4 keys ∧
      (6 + (keys.map keyLength).sum < size → keys ≠ [] ∧ ∀ key ∈ keys, key ≠ [] ∧
        key.length < 2 ^ 31 - 1)
  | .delete key expiration => Prints key ∧
      ¬ Spoils size (10 + (shown key).length + (decimal expiration.toNat).length)
        (Whole key ∧ 0 ≤ expiration.toInt)
  | .increase key delta => Prints key ∧
      ¬ Spoils size (8 + (shown key).length + (decimal delta.toNat).length) (Whole key)
  | .decrease key delta => Prints key ∧
      ¬ Spoils size (8 + (shown key).length + (decimal delta.toNat).length) (Whole key)
  | .storage key value expiration flags cas op => Prints key ∧ Prints value ∧
      ¬ Spoils size
        (9 + (storageOpString op).length + (shown key).length + (decimal flags.toNat).length +
          (decimal expiration.toNat).length + (decimal value.length).length +
          (decimal (if op = .casOp then cas.toNat else 0)).length + (shown value).length)
        (op = .casOp ∧ Whole key ∧ 0 ≤ expiration.toInt ∧ value.length < 2 ^ 31 ∧ 0 ∉ value)

/-! ## Fields -/

section Fields

variable {key : List UInt8} {n : Nat} {c : UInt8}

theorem mem_shown (member : c ∈ shown key) : c ∈ key :=
  List.mem_of_mem_take ((List.takeWhile_prefix _).subset member)

theorem precision_eq (prints : Prints key) : precision key = some (shown key) := by
  obtain ⟨printed, isPrinted⟩ := (precision_isSome_iff key).mpr prints
  rw [isPrinted, (precision_some isPrinted).2, shown]

theorem precision_none (silent : ¬ Prints key) : precision key = none := by
  rw [← Option.not_isSome_iff_eq_none, Option.isSome_iff_exists]
  exact fun printed => silent ((precision_isSome_iff key).mp printed)

theorem shown_eq_iff (prints : Prints key) : shown key = key ↔ key.length < 2 ^ 31 ∧ 0 ∉ key :=
  precision_whole_iff (precision_eq prints)

theorem CleanKey.not_mem (clean : CleanKey key) (small : c ≤ 32) : c ∉ key := by
  intro member
  have large := (clean c member).1
  exact absurd large (UInt8.not_lt.mpr small)

theorem CleanKey.shown (clean : CleanKey key) : CleanKey (shown key) := fun c member =>
  clean c (mem_shown member)

theorem decimal_not_mem (other : Lib.Strings.isDigit c = false) : c ∉ decimal n := by
  intro member
  rw [Lib.Strings.isDigit_of_mem_decimal member] at other
  cases other

/-- What is printed for a clean key is the key, and a word, if the key is whole. -/
theorem shown_word_iff (clean : CleanKey key) (prints : Prints key) :
    (if shown key = [] then [] else [shown key]) = [key] ↔ Whole key := by
  have whole := shown_eq_iff prints
  have zeroFree : 0 ∉ key := clean.not_mem (by decide)
  constructor
  · intro isWord
    split at isWord
    · cases isWord
    · rename_i nonempty
      have same := List.singleton_inj.mp isWord
      exact ⟨same ▸ nonempty, (whole.mp same).1⟩
  · rintro ⟨nonempty, short⟩
    rw [whole.mpr ⟨short, zeroFree⟩, if_neg nonempty]

/-- A negative number does not begin with a digit. -/
theorem decimalInt_eq_iff (n : BitVec 64) :
    decimal n.toNat = decimalInt n.toInt ↔ 0 ≤ n.toInt := by
  constructor
  · intro same
    by_contra negative
    rw [decimalInt, if_pos (by omega)] at same
    have sign : (45 : UInt8) ∈ decimal n.toNat := same ▸ List.mem_cons_self
    exact decimal_not_mem (by decide) sign
  · intro nonneg
    rw [decimalInt, if_neg (by omega)]
    congr 1
    rw [BitVec.toInt_eq_toNat_cond] at nonneg ⊢
    have bound := n.isLt
    split
    · omega
    · rename_i large
      rw [if_neg large] at nonneg
      omega

end Fields

/-! ## One call of `snprintf` -/

section Single

variable {buf key line text : List UInt8} {fields : List (List UInt8)}

theorem isLine_iff (noReturn : 13 ∉ line) (noFeed : 10 ∉ line) :
    IsLine fields (line ++ crlf) ↔ words 32 line = fields := by
  constructor
  · rintro ⟨other, same, -, -, isFields⟩
    rwa [List.append_cancel_right same]
  · intro isFields
    exact ⟨line, rfl, noReturn, noFeed, isFields⟩

/-- What is printed from the start of the buffer does not leave it, and is read back if it fits. -/
theorem printed_right (good : List UInt8 → Prop) (buf text : List UInt8) :
    (∃ ret buf', snprintf buf 0 buf.length text = some (ret, buf') ∧
      ∀ n : Nat, ret = n → n < buf.length → good (buf'.take n)) ↔
      ¬ Spoils buf.length text.length (good text) := by
  obtain ⟨buf', printed, -, taken⟩ := snprintf_inside text (Nat.zero_le buf.length)
  rw [Int.natCast_zero, Nat.sub_zero] at printed
  rw [List.take_zero, List.nil_append, Nat.zero_add] at taken
  rw [printed]
  constructor
  · rintro ⟨ret, buf'', same, fits⟩ ⟨short, inside, bad⟩
    obtain ⟨rfl, rfl⟩ := Prod.mk.inj (Option.some.inj same)
    refine bad ?_
    rw [← taken inside]
    exact fits _ (by rw [returned, if_pos short]) inside
  · intro fine
    refine ⟨_, _, rfl, fun n isLength inside => ?_⟩
    by_cases short : text.length < 2 ^ 31
    · rw [returned, if_pos short] at isLength
      obtain rfl := Int.ofNat.inj isLength
      rw [taken inside]
      by_contra bad
      exact fine ⟨short, inside, bad⟩
    · rw [returned, if_neg short] at isLength
      omega

/-- The words of a command, a key and a number. -/
theorem words_key {command : List UInt8} (plain : 32 ∉ command) (nonempty : command ≠ [])
    (clean : CleanKey key) (number : Option Nat) :
    words 32 (command ++ 32 :: (shown key ++ number.elim [] fun n => 32 :: decimal n)) =
      command :: ((if shown key = [] then [] else [shown key]) ++
        number.elim [] fun n => [decimal n]) := by
  have plainKey : 32 ∉ shown key := clean.shown.not_mem (by decide)
  rw [words_append plain, if_neg nonempty]
  cases number with
  | none =>
      dsimp only [Option.elim]
      rw [List.append_nil, List.append_nil, words_plain plainKey]
      rfl
  | some n =>
      dsimp only [Option.elim]
      rw [words_append plainKey, words_plain (decimal_not_mem (by decide)),
        if_neg (Lib.Strings.decimal_ne_nil n)]
      rfl

/-- A line that is printed is one line. -/
theorem line_plain {command : List UInt8} {c : UInt8} (plain : c ∉ command) (small : c < 32)
    (clean : CleanKey key) (number : Option Nat) :
    c ∉ command ++ 32 :: (shown key ++ number.elim [] fun n => 32 :: decimal n) := by
  have notBlank : c ≠ 32 := fun isBlank => absurd (isBlank ▸ small) (by decide)
  have noDigit : Lib.Strings.isDigit c = false := by
    rw [Lib.Strings.isDigit, Bool.and_eq_false_iff, decide_eq_false_iff_not]
    refine Or.inl (UInt8.not_le.mpr ?_)
    exact UInt8.lt_trans small (by decide)
  have notKey : c ∉ shown key := clean.shown.not_mem (UInt8.le_of_lt small)
  rw [List.mem_append, List.mem_cons, List.mem_append, not_or, not_or, not_or]
  refine ⟨plain, notBlank, notKey, ?_⟩
  cases number with
  | none => exact List.not_mem_nil
  | some n =>
      rw [Option.elim, List.mem_cons, not_or]
      exact ⟨notBlank, decimal_not_mem noDigit⟩

/-- `printKey` is right exactly if it does not spoil the request with its fields. -/
theorem printKey_right (buf : List UInt8) {command : List UInt8} (number : Option Nat)
    {wanted : List (List UInt8)} (good : Prop)
    (plain : 32 ∉ command ∧ 13 ∉ command ∧ 10 ∉ command) (nonempty : command ≠ [])
    (clean : CleanKey key)
    (isGood : Prints key → ((if shown key = [] then [] else [shown key]) ++
      (number.elim [] fun n => [decimal n]) = wanted ↔ good)) :
    (∃ ret buf', printKey buf command key number = some (ret, buf') ∧
      ∀ n : Nat, ret = n → n < buf.length → IsLine (command :: wanted) (buf'.take n)) ↔
      Prints key ∧ ¬ Spoils buf.length
        (command.length + 3 + (shown key).length +
          (number.elim 0 fun n => (decimal n).length + 1)) good := by
  by_cases prints : Prints key
  · have isLine : IsLine (command :: wanted) (command ++
        32 :: (shown key ++ number.elim [] fun n => 32 :: decimal n) ++ crlf) ↔ good := by
      rw [isLine_iff (line_plain plain.2.1 (by decide) clean number)
        (line_plain plain.2.2 (by decide) clean number), words_key plain.1 nonempty clean,
        List.cons.injEq, ← isGood prints]
      exact and_iff_right rfl
    have length : (command ++ 32 :: (shown key ++ number.elim [] fun n => 32 :: decimal n) ++
        crlf).length = command.length + 3 + (shown key).length +
          (number.elim 0 fun n => (decimal n).length + 1) := by
      cases number with
      | none =>
          simp [crlf]
          omega
      | some n =>
          simp [crlf]
          omega
    rw [printKey, precision_eq prints, Option.bind_some,
      printed_right (IsLine (command :: wanted)), isLine, length]
    exact (and_iff_right prints).symm
  · rw [printKey, precision_none prints]
    exact iff_of_false (fun ⟨_, _, wrong, _⟩ => nomatch wrong) fun both => prints both.1

end Single

/-! ## Storing -/

section Storage

variable {key value : List UInt8} {expiration cas : BitVec 64} {flags : BitVec 32}
  {op : MemcachedStorageOp}

/-- The first line that `Storage` prints. -/
def storageLine (op : MemcachedStorageOp) (key value : List UInt8) (expiration : BitVec 64)
    (flags : BitVec 32) (cas : BitVec 64) : List UInt8 :=
  storageOpString op ++ 32 :: (shown key ++ 32 :: (decimal flags.toNat ++
    32 :: (decimal expiration.toNat ++ 32 :: (decimal value.length ++
      32 :: decimal (if op = .casOp then cas.toNat else 0)))))

theorem storageOpString_plain (op : MemcachedStorageOp) : storageOpString op ≠ [] ∧
    ∀ c ∈ storageOpString op, 33 ≤ c := by
  cases op <;> exact ⟨by decide, forall_mem_of_all (by decide)⟩

theorem storageLine_plain {c : UInt8} (small : c < 32) (clean : CleanKey key) :
    c ∉ storageLine op key value expiration flags cas := by
  have notBlank : c ≠ 32 := fun isBlank => absurd (isBlank ▸ small) (by decide)
  have noDigit : Lib.Strings.isDigit c = false := by
    rw [Lib.Strings.isDigit, Bool.and_eq_false_iff, decide_eq_false_iff_not]
    exact Or.inl (UInt8.not_le.mpr (UInt8.lt_trans small (by decide)))
  have notKey : c ∉ shown key := clean.shown.not_mem (UInt8.le_of_lt small)
  have notOp : c ∉ storageOpString op := fun member =>
    UInt8.not_le.mpr (UInt8.lt_trans small (by decide)) ((storageOpString_plain op).2 c member)
  simp only [storageLine, List.mem_append, List.mem_cons, not_or]
  exact ⟨notOp, notBlank, notKey, notBlank, decimal_not_mem noDigit, notBlank,
    decimal_not_mem noDigit, notBlank, decimal_not_mem noDigit, notBlank, decimal_not_mem noDigit⟩

theorem words_storageLine (clean : CleanKey key) :
    words 32 (storageLine op key value expiration flags cas) =
      storageOpString op :: ((if shown key = [] then [] else [shown key]) ++
        [decimal flags.toNat, decimal expiration.toNat, decimal value.length,
          decimal (if op = .casOp then cas.toNat else 0)]) := by
  have plainOp : 32 ∉ storageOpString op := fun member =>
    absurd ((storageOpString_plain op).2 32 member) (by decide)
  have plainKey : 32 ∉ shown key := clean.shown.not_mem (by decide)
  have digits : ∀ n, 32 ∉ decimal n := fun n => decimal_not_mem (by decide)
  have some' := Lib.Strings.decimal_ne_nil
  rw [storageLine, words_append plainOp, words_append plainKey, words_append (digits _),
    words_append (digits _), words_append (digits _), words_plain (digits _)]
  simp only [if_neg (storageOpString_plain op).1, if_neg (some' _)]
  rfl

/-- A number of 32 bits has few digits. -/
theorem length_decimal_flags (flags : BitVec 32) : (decimal flags.toNat).length ≤ 10 := by
  rw [decimal, List.length_map]
  have bound := flags.isLt
  exact (Nat.length_toDigits_le_iff (by decide) (by decide)).mpr (by omega)

/-- The fields are those of the request only for `cas`: else there is one more. -/
theorem storage_fields_iff (clean : CleanKey key) (prints : Prints key) :
    ((if shown key = [] then [] else [shown key]) ++
        [decimal flags.toNat, decimal expiration.toNat, decimal value.length,
          decimal (if op = .casOp then cas.toNat else 0)] =
      [key, decimal flags.toNat, decimalInt expiration.toInt, decimal value.length] ++
        if op = .casOp then [decimal cas.toNat] else []) ↔
      op = .casOp ∧ Whole key ∧ 0 ≤ expiration.toInt := by
  rw [← shown_word_iff clean prints, ← decimalInt_eq_iff]
  by_cases isCas : op = .casOp
  · simp only [isCas, if_true, true_and]
    constructor
    · intro same
      have parts : (if shown key = [] then [] else [shown key]) ++
          [decimal flags.toNat, decimal expiration.toNat, decimal value.length,
            decimal cas.toNat] =
          [key] ++ [decimal flags.toNat, decimalInt expiration.toInt, decimal value.length,
            decimal cas.toNat] := same
      obtain ⟨isKey, numbers⟩ := List.append_inj' parts rfl
      exact ⟨isKey, (List.cons.inj (List.cons.inj numbers).2).1⟩
    · rintro ⟨isKey, isTime⟩
      rw [isKey, isTime]
      rfl
  · simp only [isCas, if_false, false_and, iff_false, List.append_nil]
    intro same
    split at same
    · rename_i empty
      -- The flags cannot stand for the key, which is too long to have been printed as nothing.
      have isKey := (List.cons.inj same).1
      have few := length_decimal_flags flags
      have whole : shown key = key := by
        refine (shown_eq_iff prints).mpr ⟨?_, clean.not_mem (by decide)⟩
        rw [← isKey]
        omega
      exact Lib.Strings.decimal_ne_nil _ (isKey.trans (whole.symm.trans empty))
    · have lengths := congrArg List.length same
      simp at lengths

/-- The text is the request if its first line is and the value is printed as it is. -/
theorem isRequest_storage_iff (clean : CleanKey key) (prints : Prints key)
    (printsValue : Prints value) :
    IsRequest (.storage key value expiration flags cas op)
        (storageLine op key value expiration flags cas ++ crlf ++ shown value ++ crlf) ↔
      op = .casOp ∧ Whole key ∧ 0 ≤ expiration.toInt ∧ value.length < 2 ^ 31 ∧ 0 ∉ value := by
  have noReturn : 13 ∉ storageLine op key value expiration flags cas :=
    storageLine_plain (by decide) clean
  have noFeed : 10 ∉ storageLine op key value expiration flags cas :=
    storageLine_plain (by decide) clean
  have fields := @storage_fields_iff key value expiration cas flags op clean prints
  rw [← shown_eq_iff printsValue, ← and_assoc, ← and_assoc, and_assoc (a := op = .casOp),
    ← fields]
  constructor
  · rintro ⟨line, same, other, rfl, noReturn', -, isFields⟩
    have cut : storageLine op key value expiration flags cas ++ 13 :: 10 :: (shown value ++ crlf) =
        other ++ 13 :: 10 :: (value ++ crlf) := by
      simpa [crlf] using same
    obtain ⟨rfl, rest⟩ := append_sep_inj noReturn noReturn' cut
    rw [words_storageLine clean] at isFields
    exact ⟨(List.cons.inj isFields).2, List.append_cancel_right (List.cons.inj rest).2⟩
  · rintro ⟨isFields, isValue⟩
    rw [isValue]
    refine ⟨_, rfl, _, rfl, noReturn, noFeed, ?_⟩
    rw [words_storageLine clean, isFields]
    rfl

theorem storage_right (buf : List UInt8) (clean : CleanKey key) :
    Right (.storage key value expiration flags cas op) buf ↔
      Fits buf.length (.storage key value expiration flags cas op) := by
  by_cases prints : Prints key
  · by_cases printsValue : Prints value
    · have isRequest := @isRequest_storage_iff key value expiration cas flags op clean prints
        printsValue
      have printed := printed_right (IsRequest (.storage key value expiration flags cas op)) buf
        (storageLine op key value expiration flags cas ++ crlf ++ shown value ++ crlf)
      have length : (storageLine op key value expiration flags cas ++ crlf ++ shown value ++
          crlf).length = 9 + (storageOpString op).length + (shown key).length +
            (decimal flags.toNat).length + (decimal expiration.toNat).length +
            (decimal value.length).length +
            (decimal (if op = .casOp then cas.toNat else 0)).length + (shown value).length := by
        simp only [storageLine, crlf, List.length_append, List.length_cons, List.length_nil]
        omega
      rw [isRequest, length] at printed
      rw [Right, perform, storage, precision_eq prints, Option.bind_some,
        precision_eq printsValue, Option.bind_some, Fits]
      exact printed.trans ⟨fun fine => ⟨prints, printsValue, fine⟩, fun fits => fits.2.2⟩
    · refine iff_of_false ?_ fun fits => printsValue fits.2.1
      rintro ⟨ret, buf', wrong, -⟩
      rw [perform, storage, precision_eq prints, Option.bind_some, precision_none printsValue]
        at wrong
      cases wrong
  · refine iff_of_false ?_ fun fits => prints fits.1
    rintro ⟨ret, buf', wrong, -⟩
    rw [perform, storage, precision_none prints] at wrong
    cases wrong

end Storage

/-! ## Several keys -/

section Mget

variable {key buf buf' text : List UInt8} {keys : List (List UInt8)} {tlen tlen' : Int}

theorem returned_bounds (text : List UInt8) : -1 ≤ returned text ∧ returned text < 2 ^ 31 := by
  rw [returned]
  split <;> omega

theorem printMore_some {res : Int × List UInt8} (printed : printMore text tlen buf = some res) :
    res.1 = tlen + returned text ∧ res.2.length = buf.length := by
  obtain ⟨⟨len, buf'⟩, isPrinted, later⟩ := Option.bind_eq_some_iff.mp printed
  obtain ⟨rfl, length⟩ := length_snprintf isPrinted
  obtain ⟨sum, isSum, rfl⟩ := Option.map_eq_some_iff.mp later
  obtain ⟨-, isSum⟩ := Option.ite_none_right_eq_some.mp isSum
  exact ⟨(Option.some.inj isSum).symm, length⟩

/-- A piece is printed exactly if it begins inside the buffer and the sum stays an `int`. -/
theorem printMore_isSome_iff (buf text : List UInt8) (int : tlen < 2 ^ 31) :
    (∃ res, printMore text tlen buf = some res) ↔
      0 ≤ tlen ∧ tlen ≤ buf.length ∧ tlen + returned text < 2 ^ 31 := by
  obtain ⟨low, high⟩ := returned_bounds text
  by_cases inside : 0 ≤ tlen ∧ tlen ≤ buf.length
  · obtain ⟨n, rfl⟩ := Int.eq_ofNat_of_zero_le inside.1
    have within : n ≤ buf.length := Int.ofNat_le.mp inside.2
    obtain ⟨buf', printed, -⟩ := snprintf_inside text within
    have size : sizeSub buf.length n = buf.length - n := by
      rw [sizeSub, if_pos inside.2]
      omega
    rw [printMore, size, printed, Option.bind_some]
    by_cases small : (n : Int) + returned text < 2 ^ 31
    · have sum : addInt n (returned text) = some (n + returned text) :=
        if_pos ⟨by omega, small⟩
      dsimp only
      rw [sum]
      exact iff_of_true ⟨_, rfl⟩ ⟨inside.1, inside.2, small⟩
    · have sum : addInt n (returned text) = none := if_neg fun both => small both.2
      dsimp only
      rw [sum]
      exact iff_of_false (fun ⟨_, wrong⟩ => nomatch wrong) fun all => small all.2.2
  · have some' : sizeSub buf.length tlen ≠ 0 := by
      rw [sizeSub]
      split <;> omega
    rw [printMore, snprintf_outside some' (by omega)]
    exact iff_of_false (fun ⟨_, wrong⟩ => nomatch wrong) fun all => inside ⟨all.1, all.2.1⟩

theorem mgetLoop_some {res : Int × List UInt8} (looped : mgetLoop keys tlen buf = some res) :
    res.1 = tlen + (keys.map keyLength).sum ∧ res.2.length = buf.length := by
  induction keys generalizing tlen buf with
  | nil =>
      obtain rfl := Option.some.inj looped
      simp
  | cons key rest ih =>
      obtain ⟨printed, isPrinted, more⟩ := Option.bind_eq_some_iff.mp looped
      obtain ⟨res', isMore, later⟩ := Option.bind_eq_some_iff.mp more
      obtain ⟨first, firstLength⟩ := printMore_some isMore
      obtain ⟨last, lastLength⟩ := ih later
      have isShown : printed = shown key := (precision_some isPrinted).2
      rw [first, isShown] at last
      rw [List.map_cons, List.sum_cons, last, keyLength]
      exact ⟨by omega, lastLength.trans firstLength⟩

/-- The loop and what is printed behind it stay inside the buffer exactly if there is room. -/
theorem mgetLoop_isSome_iff (int : tlen < 2 ^ 31) :
    (∃ res, ((mgetLoop keys tlen buf).bind fun (tlen, buf) => printMore crlf tlen buf) =
      some res) ↔ Room buf.length tlen keys := by
  induction keys generalizing tlen buf with
  | nil =>
      rw [mgetLoop, Option.bind_some, printMore_isSome_iff _ crlf int, Room]
      have two : returned crlf = 2 := by decide
      rw [two]
  | cons key rest ih =>
      rw [Room]
      by_cases prints : Prints key
      · have more := printMore_isSome_iff buf (32 :: shown key) int
        rw [mgetLoop, precision_eq prints, Option.bind_some]
        by_cases fits : 0 ≤ tlen ∧ tlen ≤ buf.length ∧ tlen + returned (32 :: shown key) < 2 ^ 31
        · obtain ⟨⟨tlen', buf'⟩, isMore⟩ := more.mpr fits
          obtain ⟨isSum, length⟩ : tlen' = tlen + keyLength key ∧ buf'.length = buf.length :=
            printMore_some isMore
          have later := @ih buf' tlen' (by rw [isSum]; exact fits.2.2)
          rw [isMore, Option.bind_some, later, isSum, length]
          exact ⟨fun room => ⟨fits.1, fits.2.1, prints, fits.2.2, room⟩, fun all => all.2.2.2.2⟩
        · have none' : printMore (32 :: shown key) tlen buf = none := by
            rw [← Option.not_isSome_iff_eq_none, Option.isSome_iff_exists, more]
            exact fits
          rw [none']
          refine iff_of_false (fun ⟨_, wrong⟩ => nomatch wrong) fun all => ?_
          exact fits ⟨all.1, all.2.1, all.2.2.2.1⟩
      · rw [mgetLoop, precision_none prints]
        exact iff_of_false (fun ⟨_, wrong⟩ => nomatch wrong) fun all => prints all.2.2.1

/-- A piece that ends inside the buffer is there. -/
theorem printMore_text {n : Nat} {res : Int × List UInt8}
    (printed : printMore text n buf = some res) (inside : n + text.length < buf.length) :
    res.2.take (n + text.length) = buf.take n ++ text := by
  obtain ⟨⟨len, buf'⟩, isPrinted, later⟩ := Option.bind_eq_some_iff.mp printed
  obtain ⟨sum, -, rfl⟩ := Option.map_eq_some_iff.mp later
  obtain ⟨buf'', printed', -, taken⟩ :=
    snprintf_inside text (show n ≤ buf.length by omega)
  have size : sizeSub buf.length n = buf.length - n := by
    rw [sizeSub, if_pos (by omega)]
    omega
  rw [size, printed'] at isPrinted
  obtain ⟨-, rfl⟩ := Prod.mk.inj (Option.some.inj isPrinted)
  exact taken inside

/-- What the whole keys of a request add to it. -/
def keysText (keys : List (List UInt8)) : List UInt8 := keys.flatMap fun key => 32 :: key

theorem shown_whole (clean : CleanKey key) (short : key.length < 2 ^ 31 - 1) :
    Prints key ∧ shown key = key ∧ keyLength key = key.length + 1 := by
  have prints : Prints key := by
    rw [Prints, Nat.mod_eq_of_lt (by omega)]
    omega
  have whole := (shown_eq_iff prints).mpr ⟨by omega, clean.not_mem (by decide)⟩
  refine ⟨prints, whole, ?_⟩
  rw [keyLength, whole, returned, List.length_cons, if_pos (by omega)]
  omega

theorem sum_keyLength (clean : ∀ key ∈ keys, CleanKey key)
    (short : ∀ key ∈ keys, key.length < 2 ^ 31 - 1) :
    (keys.map keyLength).sum = (keysText keys).length := by
  induction keys with
  | nil => rfl
  | cons key rest ih =>
      obtain ⟨-, -, length⟩ := shown_whole (clean key List.mem_cons_self)
        (short key List.mem_cons_self)
      have later := ih (fun other member => clean other (List.mem_cons_of_mem _ member))
        fun other member => short other (List.mem_cons_of_mem _ member)
      rw [List.map_cons, List.sum_cons, length, later, keysText, keysText, List.flatMap_cons,
        List.length_append, List.length_cons]
      omega

/-- The loop prints the keys one behind the other. -/
theorem mgetLoop_text {n : Nat} {res : Int × List UInt8}
    (clean : ∀ key ∈ keys, CleanKey key) (short : ∀ key ∈ keys, key.length < 2 ^ 31 - 1)
    (looped : mgetLoop keys n buf = some res)
    (inside : n + (keysText keys).length < buf.length) :
    res.2.take (n + (keysText keys).length) = buf.take n ++ keysText keys := by
  induction keys generalizing n buf with
  | nil =>
      obtain rfl := Option.some.inj looped
      simp [keysText]
  | cons key rest ih =>
      obtain ⟨prints, whole, length⟩ := shown_whole (clean key List.mem_cons_self)
        (short key List.mem_cons_self)
      obtain ⟨printed, isPrinted, more⟩ := Option.bind_eq_some_iff.mp looped
      obtain ⟨⟨tlen', buf'⟩, isMore, later⟩ := Option.bind_eq_some_iff.mp more
      rw [precision_eq prints, whole] at isPrinted
      obtain rfl := Option.some.inj isPrinted
      have split : (keysText (key :: rest)).length = (32 :: key).length + (keysText rest).length := by
        rw [keysText, List.flatMap_cons, List.length_append, keysText]
      obtain ⟨isSum, length'⟩ := printMore_some isMore
      dsimp only at isSum length'
      have taken := printMore_text isMore (by omega)
      have next : tlen' = ((n + (32 :: key).length : Nat) : Int) := by
        rw [keyLength, whole] at length
        rw [isSum, length, List.length_cons]
        omega
      rw [next] at later
      have done := ih (fun other member => clean other (List.mem_cons_of_mem _ member))
        (fun other member => short other (List.mem_cons_of_mem _ member)) later
        (by rw [length']; omega)
      rw [split, ← Nat.add_assoc, done, taken, keysText, keysText, List.flatMap_cons,
        List.append_assoc]

theorem length_shown (clean : CleanKey key) : (shown key).length = key.length % 2 ^ 32 := by
  have whole : shown key = key.take (key.length % 2 ^ 32) := by
    refine List.takeWhile_eq_self_iff.mpr fun c member => decide_eq_true ?_
    rintro rfl
    exact clean.not_mem (by decide) (List.mem_of_mem_take member)
  rw [whole, List.length_take]
  omega

/-- A key that is too long is not added up as it is. -/
theorem keyLength_le (clean : CleanKey key) : keyLength key ≤ key.length + 1 ∧
    (2 ^ 31 - 1 ≤ key.length → keyLength key + 2 ≤ key.length + 1) := by
  rw [keyLength, returned, List.length_cons, length_shown clean]
  split <;> omega

theorem sum_keyLength_le (clean : ∀ key ∈ keys, CleanKey key) :
    (keys.map keyLength).sum ≤ ((keys.map fun key => key.length + 1).sum : Nat) ∧
      ((∃ key ∈ keys, 2 ^ 31 - 1 ≤ key.length) →
        (keys.map keyLength).sum + 2 ≤ ((keys.map fun key => key.length + 1).sum : Nat)) := by
  induction keys with
  | nil => exact ⟨Int.le_refl 0, nofun⟩
  | cons key rest ih =>
      obtain ⟨here, hereLong⟩ := keyLength_le (clean key List.mem_cons_self)
      obtain ⟨later, laterLong⟩ := ih fun other member => clean other (List.mem_cons_of_mem _ member)
      rw [List.map_cons, List.sum_cons, List.map_cons, List.sum_cons]
      refine ⟨by omega, ?_⟩
      rintro ⟨long, member, isLong⟩
      rcases List.mem_cons.mp member with rfl | member
      · have := hereLong isLong
        omega
      · have := laterLong ⟨long, member, isLong⟩
        omega

/-- What is returned is the sum, and no less than the text before the keys and behind them. -/
theorem mget_some {res : Int × List UInt8} (got : mget buf keys = some res) :
    res.1 = 6 + (keys.map keyLength).sum := by
  obtain ⟨⟨tlen, buf'⟩, isFirst, more⟩ := Option.bind_eq_some_iff.mp got
  obtain ⟨⟨tlen', buf''⟩, looped, last⟩ := Option.bind_eq_some_iff.mp more
  obtain ⟨isTlen, -⟩ := length_snprintf isFirst
  obtain ⟨isLoop, -⟩ := mgetLoop_some looped
  obtain ⟨isLast, -⟩ := printMore_some last
  have four : returned (MEMCACHED_COMMAND_GET ++ [32]) = 4 := by decide
  have two : returned crlf = 2 := by decide
  dsimp only at isLoop
  rw [isLast, two, isLoop, isTlen, four]
  omega

theorem mget_isSome_iff : (∃ res, mget buf keys = some res) ↔ Room buf.length 4 keys := by
  obtain ⟨buf', printed, length, -⟩ := snprintf_inside
    (MEMCACHED_COMMAND_GET ++ [32]) (Nat.zero_le buf.length)
  rw [Int.natCast_zero, Nat.sub_zero] at printed
  have four : returned (MEMCACHED_COMMAND_GET ++ [32]) = 4 := by decide
  rw [four] at printed
  rw [mget, printed, Option.bind_some, ← length]
  exact mgetLoop_isSome_iff (by decide)

/-- The whole request is in the buffer if it fits and the keys are whole. -/
theorem mget_text {res : Int × List UInt8} (clean : ∀ key ∈ keys, CleanKey key)
    (short : ∀ key ∈ keys, key.length < 2 ^ 31 - 1) (got : mget buf keys = some res)
    (inside : 6 + (keysText keys).length < buf.length) :
    res.2.take (6 + (keysText keys).length) =
      MEMCACHED_COMMAND_GET ++ [32] ++ keysText keys ++ crlf := by
  obtain ⟨⟨tlen, buf'⟩, isFirst, more⟩ := Option.bind_eq_some_iff.mp got
  obtain ⟨⟨tlen', buf''⟩, looped, last⟩ := Option.bind_eq_some_iff.mp more
  obtain ⟨first, printed, length, taken⟩ := snprintf_inside
    (MEMCACHED_COMMAND_GET ++ [32]) (Nat.zero_le buf.length)
  rw [Int.natCast_zero, Nat.sub_zero] at printed
  rw [printed] at isFirst
  obtain ⟨rfl, rfl⟩ := Prod.mk.inj (Option.some.inj isFirst)
  have start := taken (show 0 + 4 < buf.length by omega)
  rw [List.take_zero, List.nil_append, Nat.zero_add] at start
  have keysDone := mgetLoop_text (n := 4) clean short looped (by rw [length]; omega)
  obtain ⟨isLoop, length'⟩ := mgetLoop_some looped
  rw [sum_keyLength clean short] at isLoop
  have place : tlen' = ((4 + (keysText keys).length : Nat) : Int) := isLoop
  rw [place] at last
  dsimp only at length' keysDone
  have whole := printMore_text last (by
    rw [length', length, show crlf.length = 2 from rfl]
    omega)
  have sum : 4 + (keysText keys).length + crlf.length = 6 + (keysText keys).length := by
    rw [show crlf.length = 2 from rfl]
    omega
  have begin : first.take 4 = MEMCACHED_COMMAND_GET ++ [32] := start
  rw [sum, keysDone, begin] at whole
  exact whole

theorem room_nonneg {size : Nat} (room : Room size tlen keys) :
    0 ≤ tlen + (keys.map keyLength).sum := by
  induction keys generalizing tlen with
  | nil =>
      have := room.1
      simpa using this
  | cons key rest ih =>
      have later := ih room.2.2.2.2
      rw [List.map_cons, List.sum_cons]
      omega

/-- The line for whole keys has them as its words. -/
theorem words_keysText (clean : ∀ key ∈ keys, CleanKey key) (nonempty : ∀ key ∈ keys, key ≠ [])
    (some' : keys ≠ []) :
    words 32 (MEMCACHED_COMMAND_GET ++ [32] ++ keysText keys) = MEMCACHED_COMMAND_GET :: keys := by
  obtain ⟨key, rest, rfl⟩ := List.exists_cons_of_ne_nil some'
  have plain : ∀ other ∈ key :: rest, 32 ∉ other := fun other member =>
    (clean other member).not_mem (by decide)
  have keysWords : words 32 (keysText (key :: rest)) = key :: rest := by
    have first := words_append (show (32 : UInt8) ∉ [] from List.not_mem_nil)
      (key ++ rest.flatMap fun other => 32 :: other)
    have later := words_flatMap (plain key List.mem_cons_self) (nonempty key List.mem_cons_self)
      (fun other member => plain other (List.mem_cons_of_mem _ member))
      fun other member => nonempty other (List.mem_cons_of_mem _ member)
    rw [later] at first
    exact first
  have command := words_append (show (32 : UInt8) ∉ MEMCACHED_COMMAND_GET by decide)
    (keysText (key :: rest))
  rw [keysWords] at command
  rw [List.append_assoc]
  exact command

theorem keysText_plain {c : UInt8} (small : c < 32) (clean : ∀ key ∈ keys, CleanKey key) :
    c ∉ keysText keys := by
  intro member
  obtain ⟨key, isKey, inPiece⟩ := List.mem_flatMap.mp member
  rcases List.mem_cons.mp inPiece with rfl | inKey
  · exact absurd small (by decide)
  · exact (clean key isKey).not_mem (UInt8.le_of_lt small) inKey

theorem mget_right (buf : List UInt8) (clean : ∀ key ∈ keys, CleanKey key) :
    Right (.mget keys) buf ↔ Fits buf.length (.mget keys) := by
  constructor
  · rintro ⟨ret, buf', got, request⟩
    have room := mget_isSome_iff.mp ⟨_, got⟩
    have isRet : ret = 6 + (keys.map keyLength).sum := mget_some got
    refine ⟨room, fun inside => ?_⟩
    have nonneg := room_nonneg room
    obtain ⟨n, isNat⟩ := Int.eq_ofNat_of_zero_le (show 0 ≤ ret by omega)
    obtain ⟨some', line, isText, -, -, isWords⟩ := request n isNat (by omega)
    refine ⟨some', fun key member => ⟨?_, ?_⟩⟩
    · have isWord : key ∈ words 32 line := isWords ▸ List.mem_cons_of_mem _ member
      exact words_ne_nil isWord
    · by_contra long
      have tooLong := (sum_keyLength_le clean).2 ⟨key, member, Nat.le_of_not_lt long⟩
      have shortest := length_words (32 : UInt8) line
      have cut := congrArg List.length isText
      rw [List.length_take, List.length_append, show crlf.length = 2 from rfl] at cut
      rw [isWords, List.map_cons, List.sum_cons,
        show MEMCACHED_COMMAND_GET.length = 3 from rfl] at shortest
      omega
  · rintro ⟨room, whole⟩
    obtain ⟨⟨ret, buf'⟩, got⟩ := mget_isSome_iff.mpr room
    have isRet : ret = 6 + (keys.map keyLength).sum := mget_some got
    refine ⟨ret, buf', got, fun n isNat inside => ?_⟩
    obtain ⟨some', good⟩ := whole (by omega)
    have short : ∀ key ∈ keys, key.length < 2 ^ 31 - 1 := fun key member => (good key member).2
    rw [sum_keyLength clean short] at isRet
    have isLength : n = 6 + (keysText keys).length := by omega
    rw [isLength] at inside ⊢
    rw [mget_text clean short got inside]
    refine ⟨some', (isLine_iff ?_ ?_).mpr ?_⟩
    · exact fun member => by
        rcases List.mem_append.mp member with front | back
        · exact absurd front (by decide)
        · exact keysText_plain (by decide) clean back
    · exact fun member => by
        rcases List.mem_append.mp member with front | back
        · exact absurd front (by decide)
        · exact keysText_plain (by decide) clean back
    · exact words_keysText clean (fun key member => (good key member).1) some'

end Mget

/-! ## All calls -/

/-- A number behind the key that is printed as it should be leaves the key. -/
theorem key_number_iff {key : List UInt8} (clean : CleanKey key) (prints : Prints key)
    (number wanted : List UInt8) :
    ((if shown key = [] then [] else [shown key]) ++ [number] = [key, wanted]) ↔
      Whole key ∧ number = wanted := by
  rw [← shown_word_iff clean prints]
  constructor
  · intro same
    obtain ⟨isKey, isNumber⟩ := List.append_inj'
      (show _ ++ [number] = [key] ++ [wanted] from same) rfl
    exact ⟨isKey, List.singleton_inj.mp isNumber⟩
  · rintro ⟨isKey, rfl⟩
    rw [isKey]
    rfl

/-- A command with a key and a number. -/
theorem printNumber_right (buf : List UInt8) {command key : List UInt8} (number : Nat)
    (wanted : List UInt8) (plain : 32 ∉ command ∧ 13 ∉ command ∧ 10 ∉ command)
    (nonempty : command ≠ []) (clean : CleanKey key) :
    (∃ ret buf', printKey buf command key (some number) = some (ret, buf') ∧
      ∀ n : Nat, ret = n → n < buf.length → IsLine [command, key, wanted] (buf'.take n)) ↔
      Prints key ∧ ¬ Spoils buf.length
        (command.length + 4 + (shown key).length + (decimal number).length)
        (Whole key ∧ decimal number = wanted) := by
  have right := printKey_right buf (some number) (Whole key ∧ decimal number = wanted) plain nonempty
    clean fun prints => key_number_iff clean prints (decimal number) wanted
  have length : command.length + 3 + (shown key).length + ((decimal number).length + 1) =
      command.length + 4 + (shown key).length + (decimal number).length := by omega
  rw [Option.elim, length] at right
  exact right

/-- For clean keys each function stays in its buffer and prints the request of the protocol exactly if
its arguments fit. -/
theorem memcachedReq_right_iff (call : Call) (buf : List UInt8)
    (clean : ∀ key ∈ call.keys, CleanKey key) : Right call buf ↔ Fits buf.length call := by
  cases call with
  | get key =>
      have clean := clean key List.mem_cons_self
      have isGood : Prints key → ((if shown key = [] then [] else [shown key]) ++
          (Option.elim none [] fun n => [decimal n]) = [key] ↔ Whole key) := fun prints => by
        rw [Option.elim, List.append_nil]
        exact shown_word_iff clean prints
      exact printKey_right buf none (Whole key) (by decide) (by decide) clean isGood
  | mget keys => exact mget_right buf clean
  | delete key expiration =>
      have right := printNumber_right buf expiration.toNat (decimalInt expiration.toInt)
        (show _ by decide) (show MEMCACHED_COMMAND_DELETE ≠ [] by decide)
        (clean key List.mem_cons_self)
      rw [decimalInt_eq_iff] at right
      exact right
  | increase key delta =>
      have right := printNumber_right buf delta.toNat (decimal delta.toNat) (show _ by decide)
        (show MEMCACHED_COMMAND_INCREMENT ≠ [] by decide) (clean key List.mem_cons_self)
      rw [and_iff_left rfl] at right
      exact right
  | decrease key delta =>
      have right := printNumber_right buf delta.toNat (decimal delta.toNat) (show _ by decide)
        (show MEMCACHED_COMMAND_DECREMENT ≠ [] by decide) (clean key List.mem_cons_self)
      rw [and_iff_left rfl] at right
      exact right
  | storage key value expiration flags cas op =>
      exact storage_right buf (clean key List.mem_cons_self)

/-- Two keys in a buffer of twelve bytes, of which the request takes eleven. -/
theorem memcachedReq_right_two :
    Right (.mget [[97], [98, 99]]) (List.replicate 12 0) ∧
      (mget (List.replicate 12 0) [[97], [98, 99]]).map Prod.snd =
        some [103, 101, 116, 32, 32, 97, 32, 98, 99, 13, 10, 0] := by
  have clean : ∀ key ∈ (Call.mget [[97], [98, 99]]).keys, CleanKey key := by
    intro key member
    simp only [Call.keys, List.mem_cons, List.not_mem_nil, or_false] at member
    rcases member with rfl | rfl
    · exact forall_mem_of_all (by decide)
    · exact forall_mem_of_all (by decide)
  refine ⟨(memcachedReq_right_iff (.mget [[97], [98, 99]]) _ clean).mpr ⟨?_, by decide⟩, by decide⟩
  unfold Room Room Room Prints keyLength
  decide

/-- A value that is set gets a number behind its length; `Mget` leaves a buffer of three bytes. -/
theorem set_and_short_buffer :
    (storage (List.replicate 20 0) [107] [118] 0 0 7 .setOp).map (fun (ret, buf) =>
        (ret, buf.take 18)) =
      some (18, [115, 101, 116, 32, 107, 32, 48, 32, 48, 32, 49, 32, 48, 13, 10, 118, 13, 10]) ∧
      ¬ Right (.storage [107] [118] 0 0 7 .setOp) (List.replicate 20 0) ∧
      mget [0, 0, 0] [[107]] = none ∧ ¬ Right (.mget [[107]]) [0, 0, 0] := by
  have clean : CleanKey [107] := forall_mem_of_all (by decide)
  have unfit : ¬ Fits 20 (.storage [107] [118] 0 0 7 .setOp) := by
    rintro ⟨-, -, fine⟩
    exact fine ⟨by decide, by decide, fun good => absurd good.1 (by decide)⟩
  have outside : mget [0, 0, 0] [[107]] = none := by decide
  refine ⟨by decide, fun right => unfit ((storage_right _ clean).mp right), outside, ?_⟩
  rintro ⟨ret, buf', done, -⟩
  rw [perform, outside] at done
  cases done

end MlsImgSearch.Blitz.MemcachedReqFunction
