import MlsImgSearch.Lib.Segmentation
import MlsImgSearch.Blitz.HttpCommon

/-!
# The first line of a memcached message

Both memcached decoders collect bytes until they see the end of the first line.
The search for it goes on from a remembered position. The line is then split at
its blanks.
-/

namespace MlsImgSearch.Blitz2.MemcachedCommon

open Lib.Bytes Lib.Segmentation
open Blitz.HttpCommon (digitValue digitsValue AreDigits)

def crlf : List UInt8 := [13, 10]

/-- Lengths are `uint32_t`; `junk` is the content of fresh memory. -/
structure InitParam where
  bufStartLen : Nat
  bufMaxLen : Nat
  junk : Nat → UInt8
  startRange : bufStartLen < 2 ^ 32
  maxRange : bufMaxLen < 2 ^ 32

theorem small_range : 64 < 2 ^ 32 := by decide

/-! ## Lines and tokens -/

/-- The position of the first carriage return that a line feed follows. -/
def searchEol : List UInt8 → Option Nat
  | c :: d :: rest =>
      if d = 10 ∧ c = 13 then some 0 else (searchEol (d :: rest)).map (· + 1)
  | _ => none

/-- The loop of `TokenizerCommand`, with the word at hand and the tokens found so far. The returned
number is the token count; it is -1 as a `uint32_t` when there are too many tokens. -/
def tokenizerCommand (max : Nat) :
    List UInt8 → List UInt8 → List (List UInt8) → Nat × List (List UInt8)
  | [], _, tokens => (tokens.length, tokens)
  | c :: rest, word, tokens =>
      if max ≤ tokens.length then (2 ^ 32 - 1, tokens)
      else if c = 32 then
        tokenizerCommand max rest [] (if word = [] then tokens else tokens ++ [word])
      else if c = 13 ∧ rest.head? = some 10 then (tokens.length + 1, tokens ++ [word])
      else tokenizerCommand max rest (word ++ [c]) tokens

/-- `strncmp(str, word, strlen(word)) == 0` for a token; a shorter token ends with a character that
no word contains. -/
def startsWith (token word : List UInt8) : Bool := token.take word.length == word

/-- `boost::lexical_cast<uint32_t>`; `none` is the exception, a negative number wraps. -/
def lexicalCastUInt32 (text : List UInt8) : Option Nat :=
  let digits := if text.head? = some 45 ∨ text.head? = some 43 then text.tail else text
  if digits ≠ [] ∧ digits.all (fun c => 48 ≤ c && c ≤ 57) ∧ digitsValue 10 digits < 2 ^ 32 then
    some (if text.head? = some 45 then (2 ^ 32 - digitsValue 10 digits) % 2 ^ 32
      else digitsValue 10 digits)
  else none

/-! ## Collecting the first line -/

/-- The buffer and how far it is filled and searched; its length is the capacity. -/
structure Received where
  buffer : List UInt8
  bufferDataLen : Nat
  parsedDataLen : Nat
  recvedDataLen : Nat
  deriving DecidableEq

/-- Fresh memory, as after `Reset` without a buffer. -/
def Received.fresh (p : InitParam) : Received := ⟨malloc p.junk p.bufStartLen, 0, 0, 0⟩

/-- The length that `GetBuffer` offers, at the end of the data. -/
def Received.room (r : Received) : Nat := r.buffer.length - r.bufferDataLen

/-- `length` bytes were stored. -/
def Received.add (r : Received) (length : Nat) : Received :=
  { r with
    recvedDataLen := (r.recvedDataLen + length) % 2 ^ 32
    bufferDataLen := (r.bufferDataLen + length) % 2 ^ 32 }

/-- How the search ends: with the length of the first line, with an error, or with a request for more
data. `past` says that a byte behind the received data was read. -/
inductive Search where
  | line (length : Nat)
  | tooLong
  | more (r : Received) (past : Bool)

/-- The search of `Feed` after `length` bytes were added. -/
def Received.searchFirstLine (r : Received) (length : Nat) : Search :=
  let data := (r.buffer.take r.bufferDataLen).drop r.parsedDataLen
  match searchEol data with
  | some eol => .line (r.parsedDataLen + eol + 2)
  | none =>
      -- the byte that is compared is `length` bytes behind the start of the search
      let last := r.parsedDataLen + length
      let parsed := if r.buffer.getD last 0 = 13 then r.bufferDataLen - 1 else r.bufferDataLen
      if r.buffer.length ≤ r.recvedDataLen then .tooLong
      else .more { r with parsedDataLen := parsed } (decide (r.bufferDataLen ≤ last))

/-! ## Searching -/

section Search

/-- The line feed that was found lies in the text. -/
theorem searchEol_le {text : List UInt8} {eol : Nat} (found : searchEol text = some eol) :
    eol + 2 ≤ text.length := by
  induction text generalizing eol with
  | nil => cases found
  | cons c text ih =>
      cases text with
      | nil => cases found
      | cons d rest =>
          rw [searchEol] at found
          split at found
          · obtain rfl := Option.some.inj found
            exact Nat.le_add_left 2 rest.length
          · obtain ⟨k, later, rfl⟩ := Option.map_eq_some_iff.mp found
            have bound := ih later
            simp only [List.length_cons] at bound ⊢
            omega

/-- The first line end stands behind a line without one. -/
theorem searchEol_line {line : List UInt8} (plain : ¬ crlf <:+: line) (rest : List UInt8) :
    searchEol (line ++ crlf ++ rest) = some line.length := by
  induction line with
  | nil => rfl
  | cons c line ih =>
      have next := ih fun inside => plain (inside.trans (List.suffix_cons c line).isInfix)
      obtain ⟨d, more, isNext, isHead⟩ : ∃ d more, line ++ crlf ++ rest = d :: more ∧
          (d = 13 ∨ ∃ others, line = d :: others) := by
        cases line with
        | nil => exact ⟨13, 10 :: rest, rfl, Or.inl rfl⟩
        | cons d line => exact ⟨d, line ++ crlf ++ rest, rfl, Or.inr ⟨line, rfl⟩⟩
      have notHere : ¬ (d = 10 ∧ c = 13) := by
        rintro ⟨rfl, rfl⟩
        rcases isHead with feed | ⟨others, rfl⟩
        · exact absurd feed (by decide)
        · exact plain ⟨[], others, rfl⟩
      rw [isNext] at next
      rw [List.cons_append, List.cons_append, isNext, searchEol, if_neg notHere, next]
      rfl

theorem searchEol_append {line : List UInt8} (plain : 13 ∉ line) (rest : List UInt8) :
    searchEol (line ++ crlf ++ rest) = some line.length :=
  searchEol_line (fun inside => plain (inside.subset List.mem_cons_self)) rest

theorem searchEol_skip {before text : List UInt8} {eol : Nat} (plain : 13 ∉ before)
    (found : searchEol text = some eol) : searchEol (before ++ text) = some (before.length + eol) := by
  induction before with
  | nil => rwa [List.nil_append, List.length_nil, Nat.zero_add]
  | cons c before ih =>
      obtain ⟨other, plain⟩ := not_or.mp (mt List.mem_cons.mpr plain)
      have next := ih plain
      cases isNext : before ++ text with
      | nil =>
          rw [isNext] at next
          cases next
      | cons d more =>
          rw [isNext] at next
          rw [List.cons_append, isNext, searchEol, if_neg fun both => other both.2.symm, next,
            List.length_cons, Nat.add_right_comm]
          rfl

/-- A line end that was found stays the first one when more data follows. -/
theorem searchEol_append_right {text : List UInt8} {eol : Nat} (found : searchEol text = some eol)
    (more : List UInt8) : searchEol (text ++ more) = some eol := by
  induction text generalizing eol with
  | nil => cases found
  | cons c text ih =>
      cases text with
      | nil => cases found
      | cons d rest =>
          rw [List.cons_append, List.cons_append, searchEol]
          rw [searchEol] at found
          split at found
          · next here => rw [if_pos here, found]
          · next there =>
              obtain ⟨k, later, rfl⟩ := Option.map_eq_some_iff.mp found
              have after := ih later
              rw [List.cons_append] at after
              rw [if_neg there, after]
              rfl

/-- Data that ends before the line end has none. -/
theorem searchEol_part {text part : List UInt8} {eol : Nat} (found : searchEol text = some eol)
    (isPart : part <+: text) (short : part.length < eol + 2) : searchEol part = none := by
  cases early : searchEol part with
  | none => rfl
  | some k =>
      obtain ⟨more, rfl⟩ := isPart
      have same := (searchEol_append_right early more).symm.trans found
      have inside := searchEol_le early
      rw [← Option.some.inj same] at short
      omega

/-- Data that holds the line end is enough to find it. -/
theorem searchEol_whole {text part : List UInt8} {eol : Nat} (found : searchEol text = some eol)
    (isPart : part <+: text) (long : eol + 2 ≤ part.length) : searchEol part = some eol := by
  obtain ⟨more, rfl⟩ := isPart
  induction part generalizing eol with
  | nil => exact absurd long (Nat.not_succ_le_zero _)
  | cons c part ih =>
      cases part with
      | nil => exact absurd (Nat.le_of_succ_le_succ long) (Nat.not_succ_le_zero _)
      | cons d rest =>
          rw [List.cons_append, List.cons_append, searchEol] at found
          rw [searchEol]
          split at found
          · next here => rw [if_pos here, found]
          · next there =>
              obtain ⟨k, later, rfl⟩ := Option.map_eq_some_iff.mp found
              rw [if_neg there, ih (Nat.le_of_succ_le_succ long) later]
              rfl

/-- The search may start anywhere before the line end. -/
theorem searchEol_drop {text : List UInt8} {eol k : Nat} (found : searchEol text = some eol)
    (before : k ≤ eol) : searchEol (text.drop k) = some (eol - k) := by
  induction k with
  | zero => rwa [List.drop_zero, Nat.sub_zero]
  | succ k ih =>
      have previous := ih (Nat.le_of_succ_le before)
      obtain ⟨c, rest, isNext⟩ : ∃ c rest, text.drop k = c :: rest := by
        cases empty : text.drop k with
        | nil =>
            rw [empty] at previous
            cases previous
        | cons c rest => exact ⟨c, rest, rfl⟩
      have isTail : text.drop (k + 1) = rest := by
        rw [← List.drop_drop, isNext, List.drop_succ_cons, List.drop_zero]
      rw [isNext] at previous
      rw [isTail]
      cases rest with
      | nil => cases previous
      | cons d rest =>
          rw [searchEol] at previous
          split at previous
          · have here := Option.some.inj previous
            omega
          · obtain ⟨j, later, same⟩ := Option.map_eq_some_iff.mp previous
            rw [later]
            congr 1
            omega

end Search

section FirstLine

variable {r : Received}

/-- The whole first line is there. -/
theorem searchFirstLine_line {eol : Nat} (length : Nat)
    (found : searchEol ((r.buffer.take r.bufferDataLen).drop r.parsedDataLen) = some eol) :
    r.searchFirstLine length = .line (r.parsedDataLen + eol + 2) := by
  rw [Received.searchFirstLine, found]

/-- The first line is open. -/
theorem searchFirstLine_more (length : Nat) (fits : r.recvedDataLen < r.buffer.length)
    (open' : searchEol ((r.buffer.take r.bufferDataLen).drop r.parsedDataLen) = none) :
    r.searchFirstLine length =
      .more { r with
        parsedDataLen :=
          if r.buffer.getD (r.parsedDataLen + length) 0 = 13 then r.bufferDataLen - 1
          else r.bufferDataLen } (decide (r.bufferDataLen ≤ r.parsedDataLen + length)) := by
  rw [Received.searchFirstLine, open']
  dsimp only
  rw [if_neg (Nat.not_le.mpr fits)]

end FirstLine

/-! ## Splitting -/

section Tokens

variable {max : Nat} {word : List UInt8} {tokens : List (List UInt8)}

/-- A word of a command. -/
def IsWord (word : List UInt8) : Prop := word ≠ [] ∧ ∀ c ∈ word, c ≠ 32 ∧ c ≠ 13

theorem tokenizerCommand_word {more : List UInt8} (plain : ∀ c ∈ more, c ≠ 32 ∧ c ≠ 13)
    (room : tokens.length < max) (rest word : List UInt8) :
    tokenizerCommand max (more ++ rest) word tokens =
      tokenizerCommand max rest (word ++ more) tokens := by
  induction more generalizing word with
  | nil => rw [List.nil_append, List.append_nil]
  | cons c more ih =>
      obtain ⟨first, plain⟩ := List.forall_mem_cons.mp plain
      rw [List.cons_append, tokenizerCommand, if_neg (Nat.not_le.mpr room), if_neg first.1,
        if_neg fun both => first.2 both.1, ih plain, List.append_assoc]
      rfl

theorem tokenizerCommand_blank (some' : word ≠ []) (room : tokens.length < max)
    (rest : List UInt8) :
    tokenizerCommand max (32 :: rest) word tokens =
      tokenizerCommand max rest [] (tokens ++ [word]) := by
  rw [tokenizerCommand, if_neg (Nat.not_le.mpr room), if_pos rfl, if_neg some']

theorem tokenizerCommand_end (room : tokens.length < max) (rest : List UInt8) :
    tokenizerCommand max (crlf ++ rest) word tokens = (tokens.length + 1, tokens ++ [word]) := by
  have notBlank : (13 : UInt8) ≠ 32 := by decide
  show tokenizerCommand max (13 :: 10 :: rest) word tokens = _
  rw [tokenizerCommand, if_neg (Nat.not_le.mpr room), if_neg notBlank, if_pos ⟨rfl, rfl⟩]

/-- A line of words. -/
theorem tokenizerCommand_words {words : List (List UInt8)} (areWords : ∀ word ∈ words, IsWord word)
    (some' : words ≠ []) (room : tokens.length + words.length ≤ max) (rest : List UInt8) :
    tokenizerCommand max ([32].intercalate words ++ crlf ++ rest) [] tokens =
      (tokens.length + words.length, tokens ++ words) := by
  induction words generalizing tokens with
  | nil => exact absurd rfl some'
  | cons word words ih =>
      obtain ⟨first, others⟩ := List.forall_mem_cons.mp areWords
      rw [List.length_cons] at room
      cases words with
      | nil =>
          rw [List.intercalate_singleton, List.append_assoc,
            tokenizerCommand_word first.2 (by omega), List.nil_append,
            tokenizerCommand_end (by omega)]
          rfl
      | cons next words =>
          have line : [32].intercalate (word :: next :: words) ++ crlf ++ rest =
              word ++ (32 :: ([32].intercalate (next :: words) ++ crlf ++ rest)) := by
            rw [List.intercalate_cons_cons]
            simp
          have room' : (tokens ++ [word]).length + (next :: words).length ≤ max := by
            rw [List.length_append, List.length_singleton]
            omega
          rw [line, tokenizerCommand_word first.2 (by omega), List.nil_append,
            tokenizerCommand_blank first.1 (by omega), ih others (List.cons_ne_nil _ _) room',
            List.length_append, List.length_singleton, List.append_assoc]
          have count : tokens.length + 1 + (next :: words).length =
              tokens.length + (word :: next :: words).length := by
            simp only [List.length_cons]
            omega
          rw [count]
          rfl

theorem tokenizerCommand_head (text : List UInt8) (some' : tokens ≠ []) :
    (tokenizerCommand max text word tokens).2.head? = tokens.head? := by
  induction text generalizing word tokens with
  | nil => rfl
  | cons c text ih =>
      have more : ∀ last : List UInt8, (tokens ++ [last]).head? = tokens.head? := by
        intro last
        obtain ⟨first, others, rfl⟩ := List.exists_cons_of_ne_nil some'
        rfl
      rw [tokenizerCommand]
      split
      · rfl
      · split
        · rw [ih (by split <;> simp [some'])]
          split
          · rfl
          · exact more word
        · split
          · exact more word
          · exact ih some'

/-- The first token of a line that starts with a word. -/
theorem tokenizerCommand_first (isWord : IsWord word) (positive : 0 < max) {rest : List UInt8}
    (ends : (∃ more, rest = 32 :: more) ∨ ∃ more, rest = crlf ++ more) :
    (tokenizerCommand max (word ++ rest) [] []).2.head? = some word := by
  rw [tokenizerCommand_word isWord.2 positive, List.nil_append]
  rcases ends with ⟨more, rfl⟩ | ⟨more, rfl⟩
  · rw [tokenizerCommand_blank isWord.1 positive]
    exact tokenizerCommand_head more (List.cons_ne_nil _ _)
  · rw [tokenizerCommand_end positive]
    rfl

theorem isWord_digits {digits : List UInt8} (some' : digits ≠ []) (all : AreDigits 10 digits) :
    IsWord digits := by
  refine ⟨some', fun c member => ?_⟩
  obtain ⟨d, -, value⟩ := all c member
  have low := Blitz.HttpCommon.le_of_digitValue value
  refine ⟨?_, ?_⟩ <;>
  · rintro rfl
    exact absurd low (by decide)

theorem intercalate_plain {words : List (List UInt8)} (areWords : ∀ word ∈ words, IsWord word) :
    13 ∉ [32].intercalate words := by
  induction words with
  | nil => exact List.not_mem_nil
  | cons word words ih =>
      obtain ⟨first, others⟩ := List.forall_mem_cons.mp areWords
      cases words with
      | nil =>
          rw [List.intercalate_singleton]
          exact fun member => (first.2 13 member).2 rfl
      | cons next words =>
          rw [List.intercalate_cons_cons, List.mem_append, List.mem_append, not_or, not_or]
          exact ⟨⟨fun member => (first.2 13 member).2 rfl, by decide⟩, ih others⟩

/-- The digits of a number. -/
theorem lexicalCastUInt32_digits {digits : List UInt8} (some' : digits ≠ [])
    (all : AreDigits 10 digits) (range : digitsValue 10 digits < 2 ^ 32) :
    lexicalCastUInt32 digits = some (digitsValue 10 digits) := by
  have decimal : ∀ c ∈ digits, 48 ≤ c ∧ c ≤ 57 := by
    intro c member
    obtain ⟨d, small, value⟩ := all c member
    unfold digitValue at value
    split at value
    · next range => exact range
    · split at value
      · next range =>
          have low := UInt8.le_iff_toNat_le.mp range.1
          have same := Option.some.inj value
          have least : (65 : UInt8).toNat = 65 := rfl
          omega
      · split at value
        · next range =>
            have low := UInt8.le_iff_toNat_le.mp range.1
            have same := Option.some.inj value
            have least : (97 : UInt8).toNat = 97 := rfl
            omega
        · cases value
  have noSign : ∀ c, digits.head? = some c → c ≠ 45 ∧ c ≠ 43 := by
    intro c isHead
    have low := (decimal c (List.mem_of_mem_head? isHead)).1
    refine ⟨?_, ?_⟩ <;>
    · rintro rfl
      exact absurd low (by decide)
  have notMinus : ¬ digits.head? = some 45 := fun isHead => (noSign 45 isHead).1 rfl
  have notPlus : ¬ digits.head? = some 43 := fun isHead => (noSign 43 isHead).2 rfl
  have plain : digits.all (fun c => 48 ≤ c && c ≤ 57) := by
    rw [List.all_eq_true]
    intro c member
    obtain ⟨low, high⟩ := decimal c member
    simp [low, high]
  rw [lexicalCastUInt32, if_neg (not_or.mpr ⟨notMinus, notPlus⟩), if_pos ⟨some', plain, range⟩,
    if_neg notMinus]

/-- A decimal number below a bound. -/
structure Number (bound : Nat) where
  digits : List UInt8
  some' : digits ≠ []
  all : AreDigits 10 digits
  range : digitsValue 10 digits < bound

theorem Number.isWord {bound : Nat} (n : Number bound) : IsWord n.digits :=
  isWord_digits n.some' n.all

theorem Number.cast {bound : Nat} (n : Number bound) (small : bound ≤ 2 ^ 32) :
    lexicalCastUInt32 n.digits = some (digitsValue 10 n.digits) :=
  lexicalCastUInt32_digits n.some' n.all (Nat.lt_of_lt_of_le n.range small)

end Tokens

end MlsImgSearch.Blitz2.MemcachedCommon
