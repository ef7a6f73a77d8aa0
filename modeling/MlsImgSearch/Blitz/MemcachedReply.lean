import MlsImgSearch.Lib.TextSearch
import MlsImgSearch.Lib.Strings

/-!
# Memcached replies of the first framework

`MemcachedReplyDecoder` keeps all bytes of a connection in one buffer and parses
that buffer from its start after every piece. Whether a reply is complete is decided
by text searches. The bytes behind the received ones are unknown memory: a search or
a read that needs one of them has no result.
-/

namespace MlsImgSearch.Blitz.MemcachedReply

open Lib.TextSearch
open Lib.Strings (isDigit decimal isDigit_of_mem_decimal decimal_ne_nil)

def ascii (text : String) : List UInt8 := text.toList.map fun c => c.toNat.toUInt8

def crlf : List UInt8 := [13, 10]

def endKey : List UInt8 := [69, 78, 68]

def memcachedDefaultCommandSize : Nat := 350

def memcachedMaxBuffer : Nat := 8196

inductive ResultCode where
  | success | protocolError | unknownReadFailure | stat | serverError | stored | deleted | notfound
  | notstored | end' | dataExists | item | clientError | readPartial
  deriving DecidableEq

/-! ## Parsing -/

/-- The loop of `_memcached_read_line`: what is copied, and whether the line is complete. -/
def copyLine : List UInt8 → Nat → List UInt8 × Bool
  | [], _ => ([], false)
  | _ :: _, 0 => ([], false)
  | c :: src, room + 1 =>
      if c = 10 then ([c], true)
      else ((copyLine src room).1.cons c, (copyLine src room).2)

def memcachedReadLine (src : List UInt8) (destLength : Nat) : ResultCode × List UInt8 :=
  let (line, lineComplete) := copyLine src destLength
  if line.length = destLength then (.protocolError, line)
  else if lineComplete then (.success, line)
  else (.readPartial, line)

/-- The valid length from where a search ended, up to `extra` bytes behind that. The `int32_t` length
is stored as a `uint32_t`, so its low 32 bits matter. -/
def validLen (rc : ResultCode) (absent : Option (ResultCode × Nat)) (extra : Nat) :
    Search → Option (ResultCode × Nat)
  | .outside => none
  | .absent => absent
  | .found cur => some (rc, (cur + extra) % 2 ^ 32)

/-- Up to the end of the first `END`. -/
def upToEndKey (src : List UInt8) (rc : ResultCode) : Option (ResultCode × Nat) :=
  validLen rc (some (.readPartial, 0)) 3 (strstr endKey src)

/-- Up to the first line end. -/
def upToEndEscape (src : List UInt8) (rc : ResultCode) : Option (ResultCode × Nat) :=
  validLen rc (some (.readPartial, 0)) 0 (strstr crlf src)

def isSpace (c : UInt8) : Bool := c == 32 || (9 ≤ c && c ≤ 13)

/-- Whether `sscanf` with `%llu` reads a number; `none` when it needs a byte behind the line. -/
def scansNumber (buffer : List UInt8) : Option Bool :=
  match buffer.dropWhile isSpace with
  | [] => none
  | c :: rest =>
      if c = 43 ∨ c = 45 then rest.head?.map isDigit else some (isDigit c)

/-- A number goes up to the line end; the difference to a null pointer is no length. -/
def upToNumberEnd (src : List UInt8) : Option (ResultCode × Nat) :=
  validLen .success none 0 (strstr crlf src)

/-- The switch over the first bytes of the line. Bytes of `buffer` behind the line are unknown. -/
def parseLine (src buffer : List UInt8) : Option (ResultCode × Nat) :=
  match buffer with
  | [] => none
  | first :: _ =>
    if first = 86 then -- VALUE, VERSION
      buffer[1]?.bind fun second =>
        if second = 65 then upToEndKey src .success
        else if second = 69 then upToEndEscape src .success
        else some (.unknownReadFailure, 0)
    else if first = 79 then some (.success, 2) -- OK
    else if first = 83 then -- STAT, SERVER_ERROR, STORED
      buffer[2]?.bind fun third =>
        if third = 65 then upToEndKey src .stat
        else buffer[1]?.bind fun second =>
          if second = 69 then upToEndEscape src .serverError
          else if second = 84 then some (.stored, 6)
          else some (.unknownReadFailure, 0)
    else if first = 68 then some (.deleted, 7) -- DELETED
    else if first = 78 then -- NOT_FOUND, NOT_STORED
      buffer[4]?.bind fun fifth =>
        if fifth = 70 then some (.notfound, 9)
        else if fifth = 83 then some (.notstored, 10)
        else some (.unknownReadFailure, 0)
    else if first = 69 then -- END, ERROR, EXISTS
      buffer[1]?.bind fun second =>
        if second = 78 then some (.end', 3)
        else if second = 82 then some (.protocolError, 5)
        else if second = 88 then some (.dataExists, 6)
        else some (.unknownReadFailure, 0)
    else if first = 73 then upToEndKey src .item -- ITEM
    else if first = 67 then some (.clientError, 12) -- CLIENT_ERROR
    else
      (scansNumber buffer).bind fun number =>
        if number then upToNumberEnd src
        else some (.unknownReadFailure, 0)

def textualParseResponse (src : List UInt8) : Option (ResultCode × Nat) :=
  let (rc, buffer) := memcachedReadLine src memcachedDefaultCommandSize
  if rc ≠ .success then some (rc, 0) else parseLine src buffer

/-! ## The decoder -/

/-- `recvedBufSize` is 0 before the first allocation; `recved` are the bytes written so far. -/
structure MemcachedReplyDecoder where
  recvedBufSize : Nat := 0
  recved : List UInt8 := []
  deriving DecidableEq

/-- The message points to the decoder's buffer. -/
structure InMsg where
  data : List UInt8
  bytesLength : Nat
  deriving DecidableEq

/-- The length of the buffer that `GetBuffer` offers. -/
def getBuffer : Nat := memcachedMaxBuffer

/-- The size of the buffer once it has room for `length` more bytes. -/
def grow (size len length : Nat) : Nat :=
  let start :=
    if size = 0 then
      if memcachedMaxBuffer < length then length + 1 else memcachedMaxBuffer
    else size
  if start - len - 1 < length then start + length + 10 else start

/-- The piece is copied behind the received bytes. -/
def MemcachedReplyDecoder.store (d : MemcachedReplyDecoder) (piece : List UInt8) :
    MemcachedReplyDecoder where
  recvedBufSize := grow d.recvedBufSize d.recved.length piece.length
  recved := d.recved ++ piece

/-- `Feed` with its code and messages; `none` when memory outside the received data is used. -/
def MemcachedReplyDecoder.feed (d : MemcachedReplyDecoder) (piece : List UInt8) :
    Option (MemcachedReplyDecoder × Int × List InMsg) :=
  if piece = [] then some (d, -1, [])
  else if 2 ^ 32 ≤ (d.store piece).recvedBufSize then
    none -- the `uint32_t` size wraps around and the copy leaves the block
  else
    (textualParseResponse (d.store piece).recved).map fun (rc, len) =>
      if rc = .unknownReadFailure ∧ rc = .protocolError then (d.store piece, -3, [])
      else if rc ≠ .readPartial then (d.store piece, 0, [⟨(d.store piece).recved, len⟩])
      else (d.store piece, 1, [])

/-- Feed all pieces, with what each call gives. -/
def MemcachedReplyDecoder.feedAll : MemcachedReplyDecoder → List (List UInt8) →
    Option (MemcachedReplyDecoder × List (Int × List InMsg))
  | d, [] => some (d, [])
  | d, piece :: rest =>
      (d.feed piece).bind fun (d', out) =>
        (feedAll d' rest).map fun (d'', outs) => (d'', out :: outs)

/-! ## Replies -/

/-- Text inside a line. -/
def LineText := { text : List UInt8 // ∀ c ∈ text, c ≠ 13 ∧ c ≠ 10 }

/-- A key has no blanks and no control characters. -/
def Key := { key : List UInt8 // ∀ c ∈ key, 32 < c }

/-- The status lines that the parser knows; a text starts behind the word. -/
inductive Status where
  | ok | stored | deleted | notFound | notStored | end' | exists'
  | version (text : LineText)
  | serverError (text : LineText)
  | clientError (text : LineText)
  | number (n : Nat)

def Status.text : Status → List UInt8
  | .ok => ascii "OK"
  | .stored => ascii "STORED"
  | .deleted => ascii "DELETED"
  | .notFound => ascii "NOT_FOUND"
  | .notStored => ascii "NOT_STORED"
  | .end' => ascii "END"
  | .exists' => ascii "EXISTS"
  | .version t => ascii "VERSION" ++ t.val
  | .serverError t => ascii "SERVER_ERROR" ++ t.val
  | .clientError t => ascii "CLIENT_ERROR" ++ t.val
  | .number n => decimal n

/-- A value with arbitrary data. -/
structure Value where
  key : Key
  flags : Nat
  data : List UInt8

/-- The first line without its end. -/
def Value.head (v : Value) : List UInt8 :=
  ascii "VALUE" ++ 32 :: (v.key.val ++ 32 :: (decimal v.flags ++ 32 :: decimal v.data.length))

def Value.text (v : Value) : List UInt8 :=
  v.head ++ crlf ++ v.data ++ crlf ++ endKey

/-- `ERROR`, or a first byte that the parser does not know. -/
inductive Malformed where
  | error
  | unknown (first : UInt8) (rest : LineText)
      (letter : first ∉ ascii "VOSDNEIC0123456789+-" ∧ 32 < first)

def Malformed.text : Malformed → List UInt8
  | .error => ascii "ERROR"
  | .unknown first rest _ => first :: rest.val

inductive Reply where
  | status (line : Status)
  | value (v : Value)
  | malformed (line : Malformed)

/-- The bytes of a reply without the final line end. -/
def Reply.text : Reply → List UInt8
  | .status line => line.text
  | .value v => v.text
  | .malformed line => line.text

def Reply.isMalformed : Reply → Bool
  | .malformed _ => true
  | _ => false

/-- A reply and the pieces in which it arrives. -/
structure Exchange where
  reply : Reply
  pieces : List (List UInt8)
  whole : pieces.flatten = reply.text ++ crlf
  fits : ∀ piece ∈ pieces, piece ≠ [] ∧ piece.length ≤ getBuffer

/-! ## What is wanted -/

/-- The message holds exactly these bytes. -/
def InMsg.Holds (msg : InMsg) (text : List UInt8) : Prop :=
  msg.bytesLength = text.length ∧ msg.data.take msg.bytesLength = text

/-- One message with the reply, and only with the last piece; a malformed reply gives -3. -/
def Reply.Answered (reply : Reply) (outs : List (Int × List InMsg)) : Prop :=
  if reply.isMalformed then ∃ out ∈ outs, out.1 = -3
  else ∃ front code msg, outs = front ++ [(code, [msg])] ∧ (∀ out ∈ front, out.2 = []) ∧
    msg.Holds reply.text

/-- Every reply of a connection is answered, and no byte outside the received data is used. The
connection ends with a malformed reply. -/
def Framed : MemcachedReplyDecoder → List Exchange → Prop
  | _, [] => True
  | d, ex :: rest =>
      ∃ d' outs, d.feedAll ex.pieces = some (d', outs) ∧ ex.reply.Answered outs ∧
        (ex.reply.isMalformed ∨ Framed d' rest)


/-! ## When the code does it -/

/-- The text of a status line that the parser measures rightly: its end is searched as that of a
string, and of `CLIENT_ERROR` only the word is counted. -/
def Status.Measured : Status → Prop
  | .version t => 0 ∉ t.val
  | .serverError t => 0 ∉ t.val
  | .clientError t => t.val = []
  | _ => True

/-- The first reply of a connection: its first line fits the line buffer, a value has no zero and
no `END` in it, and all of a value behind the first line arrives in one piece. -/
def Exchange.Whole (ex : Exchange) : Prop :=
  match ex.reply with
  | .status line => line.text.length + 2 < memcachedDefaultCommandSize ∧ line.Measured
  | .value v =>
      v.head.length + 2 < memcachedDefaultCommandSize ∧ 0 ∉ v.data ∧
        ¬ endKey <:+: v.key.val ∧ ¬ endKey <:+: v.data ∧
        ex.pieces.dropLast.flatten.length < v.head.length + 2
  | .malformed _ => False

/-- The size of the buffer stays below the bound of its type. -/
def Roomy : MemcachedReplyDecoder → List (List UInt8) → Prop
  | _, [] => True
  | d, piece :: rest => (d.store piece).recvedBufSize < 2 ^ 32 ∧ Roomy (d.store piece) rest

/-- All later replies of a connection are repetitions of the first one, each in one piece. -/
def Allowed : List Exchange → Prop
  | [] => True
  | first :: rest =>
      first.Whole ∧
      (∀ ex ∈ rest, ex.reply.isMalformed = false ∧ ex.reply.text = first.reply.text ∧
        ex.pieces.length = 1) ∧
      Roomy {} ((first :: rest).flatMap Exchange.pieces)

/-! ## One line -/

section Lines

theorem copyLine_open {src : List UInt8} (open' : 10 ∉ src) (room : Nat) :
    copyLine src room = (src.take room, false) := by
  induction src generalizing room with
  | nil => simp [copyLine]
  | cons c src ih =>
      cases room with
      | zero => rfl
      | succ room =>
          obtain ⟨other, later⟩ := not_or.mp (mt List.mem_cons.mpr open')
          rw [copyLine, if_neg (Ne.symm other), ih later]
          rfl

theorem copyLine_closed {line : List UInt8} (open' : 10 ∉ line) (rest : List UInt8) {room : Nat}
    (fits : line.length < room) : copyLine (line ++ 10 :: rest) room = (line ++ [10], true) := by
  induction line generalizing room with
  | nil =>
      cases room with
      | zero => cases fits
      | succ room => rfl
  | cons c line ih =>
      cases room with
      | zero => cases fits
      | succ room =>
          obtain ⟨other, later⟩ := not_or.mp (mt List.mem_cons.mpr open')
          rw [List.cons_append, copyLine, if_neg (Ne.symm other),
            ih later (Nat.lt_of_succ_lt_succ fits)]
          rfl

theorem copyLine_long {line : List UInt8} (open' : 10 ∉ line) (rest : List UInt8) {room : Nat}
    (long : room ≤ line.length) : copyLine (line ++ rest) room = (line.take room, false) := by
  induction line generalizing room with
  | nil =>
      obtain rfl := Nat.le_zero.mp long
      cases rest <;> rfl
  | cons c line ih =>
      cases room with
      | zero => rfl
      | succ room =>
          obtain ⟨other, later⟩ := not_or.mp (mt List.mem_cons.mpr open')
          rw [List.cons_append, copyLine, if_neg (Ne.symm other), ih later (Nat.le_of_succ_le_succ long)]
          rfl

/-- Without a line end more data is waited for. -/
theorem parse_open {src : List UInt8} (open' : 10 ∉ src)
    (short : src.length < memcachedDefaultCommandSize) :
    textualParseResponse src = some (.readPartial, 0) := by
  have size : (src.take memcachedDefaultCommandSize).length ≠ memcachedDefaultCommandSize := by
    rw [List.take_of_length_le (Nat.le_of_lt short)]
    exact Nat.ne_of_lt short
  have copied := copyLine_open open' memcachedDefaultCommandSize
  simp only [textualParseResponse, memcachedReadLine, copied, if_neg size]
  rfl

/-- A line that fits the line buffer is given to the switch. -/
theorem parse_line {line : List UInt8} (open' : 10 ∉ line) (rest : List UInt8)
    (short : line.length + 1 < memcachedDefaultCommandSize) :
    textualParseResponse (line ++ 10 :: rest) = parseLine (line ++ 10 :: rest) (line ++ [10]) := by
  have size : (line ++ [10]).length ≠ memcachedDefaultCommandSize := by
    rw [List.length_append]
    exact Nat.ne_of_lt short
  have copied := copyLine_closed open' rest (Nat.lt_of_succ_lt short)
  simp only [textualParseResponse, memcachedReadLine, copied, if_neg size]
  rfl

/-- A longer line is a protocol error that says nothing about the length. -/
theorem parse_overflow {line : List UInt8} (open' : 10 ∉ line) (rest : List UInt8)
    (long : memcachedDefaultCommandSize ≤ line.length) :
    textualParseResponse (line ++ rest) = some (.protocolError, 0) := by
  have size : (line.take memcachedDefaultCommandSize).length = memcachedDefaultCommandSize := by
    rw [List.length_take]
    omega
  have copied := copyLine_long open' rest long
  simp only [textualParseResponse, memcachedReadLine, copied, if_pos size]
  rfl

theorem parse_long {line : List UInt8} (open' : 10 ∉ line) (rest : List UInt8)
    (long : memcachedDefaultCommandSize ≤ line.length + 1) :
    textualParseResponse (line ++ 10 :: rest) = some (.protocolError, 0) := by
  by_cases exact' : line.length + 1 = memcachedDefaultCommandSize
  · have size : (line ++ [10]).length = memcachedDefaultCommandSize := by
      rw [List.length_append]
      exact exact'
    have copied := copyLine_closed open' rest (Nat.lt_of_succ_le (Nat.le_of_eq exact'))
    simp only [textualParseResponse, memcachedReadLine, copied, if_pos size]
    rfl
  · exact parse_overflow open' (10 :: rest) (by omega)

/-- An answer of the first computation is one of the second. -/
def Kept (before after : Option (ResultCode × Nat)) : Prop :=
  ∀ answer, before = some answer → after = some answer

theorem Kept.same (answer : Option (ResultCode × Nat)) : Kept answer answer :=
  fun _ known => known

theorem Kept.ite {cond : Prop} [Decidable cond] {a b a' b' : Option (ResultCode × Nat)}
    (yes : Kept a a') (no : Kept b b') : Kept (if cond then a else b) (if cond then a' else b') := by
  split
  · exact yes
  · exact no

theorem Kept.bind {α : Type} (x : Option α) {f g : α → Option (ResultCode × Nat)}
    (each : ∀ a, Kept (f a) (g a)) : Kept (x.bind f) (x.bind g) := by
  cases x with
  | none => exact Kept.same none
  | some a => exact each a

theorem kept_validLen (needle src more : List UInt8) (rc : ResultCode)
    (absent : Option (ResultCode × Nat)) (extra : Nat) :
    Kept (validLen rc absent extra (strstr needle src))
      (validLen rc absent extra (strstr needle (src ++ more))) := by
  intro answer known
  have answered : strstr needle src ≠ .outside := by
    intro outside
    rw [outside] at known
    cases known
  rw [strstr_append more answered]
  exact known

/-- The switch uses the data behind the line only through the searches. -/
theorem kept_parseLine (src more buffer : List UInt8) :
    Kept (parseLine src buffer) (parseLine (src ++ more) buffer) := by
  cases buffer with
  | nil => exact Kept.same none
  | cons first rest =>
      have endKeyKept : ∀ rc, Kept (upToEndKey src rc) (upToEndKey (src ++ more) rc) :=
        fun rc => kept_validLen endKey src more rc _ 3
      have escapeKept : ∀ rc, Kept (upToEndEscape src rc) (upToEndEscape (src ++ more) rc) :=
        fun rc => kept_validLen crlf src more rc _ 0
      have numberKept : Kept (upToNumberEnd src) (upToNumberEnd (src ++ more)) :=
        kept_validLen crlf src more .success none 0
      have value : ∀ second : UInt8, Kept
          (if second = 65 then upToEndKey src .success
            else if second = 69 then upToEndEscape src .success
            else some (.unknownReadFailure, 0))
          (if second = 65 then upToEndKey (src ++ more) .success
            else if second = 69 then upToEndEscape (src ++ more) .success
            else some (.unknownReadFailure, 0)) :=
        fun _ => .ite (endKeyKept _) (.ite (escapeKept _) (.same _))
      have stored : ∀ third : UInt8, Kept
          (if third = 65 then upToEndKey src .stat
            else (first :: rest)[1]?.bind fun second =>
              if second = 69 then upToEndEscape src .serverError
              else if second = 84 then some (.stored, 6)
              else some (.unknownReadFailure, 0))
          (if third = 65 then upToEndKey (src ++ more) .stat
            else (first :: rest)[1]?.bind fun second =>
              if second = 69 then upToEndEscape (src ++ more) .serverError
              else if second = 84 then some (.stored, 6)
              else some (.unknownReadFailure, 0)) :=
        fun _ => .ite (endKeyKept _) (.bind _ fun _ => .ite (escapeKept _) (.same _))
      have number : ∀ scanned : Bool, Kept
          (if scanned then upToNumberEnd src else some (.unknownReadFailure, 0))
          (if scanned then upToNumberEnd (src ++ more) else some (.unknownReadFailure, 0)) :=
        fun _ => .ite numberKept (.same _)
      exact .ite (.bind _ value) (.ite (.same _) (.ite (.bind _ stored) (.ite (.same _)
        (.ite (.same _) (.ite (.same _) (.ite (endKeyKept _) (.ite (.same _)
          (.bind _ number))))))))

/-- What was parsed stays when more data follows. -/
theorem parse_append {src : List UInt8} {rc : ResultCode} {n : Nat} (more : List UInt8)
    (known : textualParseResponse src = some (rc, n)) (complete : rc ≠ .readPartial) :
    textualParseResponse (src ++ more) = some (rc, n) := by
  by_cases open' : 10 ∉ src
  · by_cases short : src.length < memcachedDefaultCommandSize
    · rw [parse_open open' short] at known
      cases known
      exact absurd rfl complete
    · have long := Nat.le_of_not_lt short
      have before := parse_overflow open' [] long
      rw [List.append_nil, known] at before
      rw [parse_overflow open' more long, before]
  · obtain ⟨line, rest, rfl, first⟩ := List.eq_append_cons_of_mem (not_not.mp open')
    rw [List.append_assoc, List.cons_append]
    by_cases short : line.length + 1 < memcachedDefaultCommandSize
    · rw [parse_line first rest short] at known
      rw [parse_line first (rest ++ more) short]
      have kept := kept_parseLine (line ++ 10 :: rest) more (line ++ [10]) _ known
      rwa [List.append_assoc, List.cons_append] at kept
    · have long := Nat.le_of_not_lt short
      rw [parse_long first rest long] at known
      rw [parse_long first (rest ++ more) long, known]

end Lines


/-! ## Feeding -/

section Feeding

variable {d d' : MemcachedReplyDecoder} {piece text src : List UInt8} {pieces : List (List UInt8)}

/-- The parser sees a complete reply of exactly this text. -/
def Complete (text src : List UInt8) : Prop :=
  ∃ rc, textualParseResponse src = some (rc, text.length) ∧ rc ≠ .readPartial ∧
    src.take text.length = text

/-- The parser waits for more data. -/
def Open (src : List UInt8) : Prop := ∃ n, textualParseResponse src = some (.readPartial, n)

/-- Behind `src` the pieces complete the text with the last of them. -/
def Delivers (text : List UInt8) : List UInt8 → List (List UInt8) → Prop
  | _, [] => False
  | src, piece :: rest =>
      if rest = [] then Complete text (src ++ piece)
      else Open (src ++ piece) ∧ Delivers text (src ++ piece) rest

/-- What `Feed` says after the parser. -/
def answer (src : List UInt8) (rc : ResultCode) (len : Nat) : Int × List InMsg :=
  if rc = .readPartial then (1, []) else (0, [⟨src, len⟩])

theorem feed_eq_some_iff {out : Int × List InMsg} (nonempty : piece ≠ []) :
    d.feed piece = some (d', out) ↔
      (d.store piece).recvedBufSize < 2 ^ 32 ∧ d' = d.store piece ∧
        ∃ rc len, textualParseResponse (d.recved ++ piece) = some (rc, len) ∧
          out = answer (d.recved ++ piece) rc len := by
  have stored : (d.store piece).recved = d.recved ++ piece := rfl
  unfold MemcachedReplyDecoder.feed
  rw [if_neg nonempty, stored]
  by_cases room : 2 ^ 32 ≤ (d.store piece).recvedBufSize
  · rw [if_pos room]
    constructor
    · intro impossible
      cases impossible
    · rintro ⟨less, -⟩
      exact absurd room (Nat.not_le.mpr less)
  · rw [if_neg room, Option.map_eq_some_iff]
    constructor
    · rintro ⟨⟨rc, len⟩, parsed, same⟩
      have both : ¬ (rc = .unknownReadFailure ∧ rc = .protocolError) := by
        rintro ⟨rfl, impossible⟩
        cases impossible
      simp only [if_neg both] at same
      refine ⟨Nat.lt_of_not_le room, ?_⟩
      by_cases wait : rc = .readPartial
      · rw [if_neg (not_not.mpr wait)] at same
        cases same
        exact ⟨rfl, rc, len, parsed, by rw [answer, if_pos wait]⟩
      · rw [if_pos wait] at same
        cases same
        exact ⟨rfl, rc, len, parsed, by rw [answer, if_neg wait]⟩
    · rintro ⟨-, rfl, rc, len, parsed, rfl⟩
      refine ⟨(rc, len), parsed, ?_⟩
      have both : ¬ (rc = .unknownReadFailure ∧ rc = .protocolError) := by
        rintro ⟨rfl, impossible⟩
        cases impossible
      simp only [if_neg both, answer]
      by_cases wait : rc = .readPartial
      · rw [if_neg (not_not.mpr wait), if_pos wait]
      · rw [if_pos wait, if_neg wait]

/-- No call ever gives the code for a malformed reply. -/
theorem feed_code_ne {out : Int × List InMsg} (nonempty : piece ≠ [])
    (fed : d.feed piece = some (d', out)) : out.1 ≠ -3 := by
  obtain ⟨-, -, rc, len, -, rfl⟩ := (feed_eq_some_iff nonempty).mp fed
  unfold answer
  split
  · exact (by decide : (1 : Int) ≠ -3)
  · exact (by decide : (0 : Int) ≠ -3)

theorem feedAll_cons_eq_some {rest : List (List UInt8)} {outs : List (Int × List InMsg)}
    (fed : d.feedAll (piece :: rest) = some (d', outs)) :
    ∃ middle out later, d.feed piece = some (middle, out) ∧
      middle.feedAll rest = some (d', later) ∧ outs = out :: later := by
  obtain ⟨⟨middle, out⟩, first, next⟩ := Option.bind_eq_some_iff.mp fed
  obtain ⟨⟨last, later⟩, second, same⟩ := Option.map_eq_some_iff.mp next
  cases same
  exact ⟨middle, out, later, first, second, rfl⟩

theorem feedAll_cons_of {rest : List (List UInt8)} {middle : MemcachedReplyDecoder}
    {out : Int × List InMsg} {later : List (Int × List InMsg)}
    (first : d.feed piece = some (middle, out)) (second : middle.feedAll rest = some (d', later)) :
    d.feedAll (piece :: rest) = some (d', out :: later) := by
  rw [MemcachedReplyDecoder.feedAll, first]
  exact Option.map_eq_some_iff.mpr ⟨(d', later), second, rfl⟩

theorem feedAll_code_ne {outs : List (Int × List InMsg)} (nonempty : ∀ piece ∈ pieces, piece ≠ [])
    (fed : d.feedAll pieces = some (d', outs)) : ∀ out ∈ outs, out.1 ≠ -3 := by
  induction pieces generalizing d outs with
  | nil =>
      cases fed
      intro out member
      cases member
  | cons piece rest ih =>
      obtain ⟨middle, first, later, one, others, rfl⟩ := feedAll_cons_eq_some fed
      have tail := ih (fun p member => nonempty p (List.mem_cons_of_mem _ member)) others
      intro out member
      rcases List.mem_cons.mp member with rfl | member
      · exact feed_code_ne (nonempty piece List.mem_cons_self) one
      · exact tail out member

/-- The decoder after all pieces are stored. -/
def MemcachedReplyDecoder.storeAll (d : MemcachedReplyDecoder) (pieces : List (List UInt8)) :
    MemcachedReplyDecoder :=
  pieces.foldl MemcachedReplyDecoder.store d

theorem recved_storeAll (d : MemcachedReplyDecoder) (pieces : List (List UInt8)) :
    (d.storeAll pieces).recved = d.recved ++ pieces.flatten := by
  induction pieces generalizing d with
  | nil => exact (List.append_nil _).symm
  | cons piece rest ih =>
      have next := ih (d.store piece)
      rw [List.flatten_cons, ← List.append_assoc]
      exact next

theorem roomy_append {more : List (List UInt8)} :
    Roomy d (pieces ++ more) ↔ Roomy d pieces ∧ Roomy (d.storeAll pieces) more := by
  induction pieces generalizing d with
  | nil => simp [Roomy, MemcachedReplyDecoder.storeAll]
  | cons piece rest ih =>
      rw [List.cons_append, Roomy, Roomy, ih, and_assoc]
      rfl

/-- One message with this text, with the last of the pieces. -/
def OneMessage (text : List UInt8) (outs : List (Int × List InMsg)) : Prop :=
  ∃ front code msg, outs = front ++ [(code, [msg])] ∧ (∀ out ∈ front, out.2 = []) ∧
    InMsg.Holds msg text

theorem oneMessage_cons {out : Int × List InMsg} {outs : List (Int × List InMsg)}
    (more : outs ≠ []) : OneMessage text (out :: outs) ↔ out.2 = [] ∧ OneMessage text outs := by
  constructor
  · rintro ⟨front, code, msg, same, quiet, holds⟩
    cases front with
    | nil =>
        obtain ⟨-, nothing⟩ := List.cons.inj same
        exact absurd nothing more
    | cons head front =>
        obtain ⟨rfl, rfl⟩ := List.cons.inj same
        refine ⟨quiet _ List.mem_cons_self, front, code, msg, rfl, ?_, holds⟩
        exact fun later member => quiet later (List.mem_cons_of_mem _ member)
  · rintro ⟨silent, front, code, msg, rfl, quiet, holds⟩
    refine ⟨out :: front, code, msg, rfl, ?_, holds⟩
    intro later member
    rcases List.mem_cons.mp member with rfl | member
    · exact silent
    · exact quiet later member

theorem oneMessage_answer {rc : ResultCode} {len : Nat} :
    OneMessage text [answer src rc len] ↔
      rc ≠ .readPartial ∧ len = text.length ∧ src.take text.length = text := by
  unfold answer
  constructor
  · rintro ⟨front, code, msg, same, -, size, holds⟩
    cases front with
    | cons head front => simp at same
    | nil =>
        by_cases wait : rc = .readPartial
        · rw [if_pos wait] at same
          simp at same
        · rw [if_neg wait] at same
          obtain ⟨rfl, rfl⟩ : code = 0 ∧ msg = ⟨src, len⟩ := by simpa using same.symm
          exact ⟨wait, size, by rw [size] at holds; exact holds⟩
  · rintro ⟨wait, rfl, holds⟩
    rw [if_neg wait]
    exact ⟨[], 0, ⟨src, text.length⟩, rfl, by simp, rfl, holds⟩

theorem answer_silent {rc : ResultCode} {len : Nat} :
    (answer src rc len).2 = [] ↔ rc = .readPartial := by
  unfold answer
  split <;> simp_all

theorem feedAll_ne_nil {outs : List (Int × List InMsg)} (some' : pieces ≠ [])
    (fed : d.feedAll pieces = some (d', outs)) : outs ≠ [] := by
  cases pieces with
  | nil => exact absurd rfl some'
  | cons piece rest =>
      obtain ⟨middle, out, later, -, -, rfl⟩ := feedAll_cons_eq_some fed
      exact List.cons_ne_nil _ _

/-- What the calls for one reply give depends on what the parser says at each cut. -/
theorem oneMessage_iff (nonempty : ∀ piece ∈ pieces, piece ≠ []) :
    (∃ outs, d.feedAll pieces = some (d', outs) ∧ OneMessage text outs) ↔
      Roomy d pieces ∧ d' = d.storeAll pieces ∧ Delivers text d.recved pieces := by
  induction pieces generalizing d with
  | nil =>
      constructor
      · rintro ⟨outs, fed, front, code, msg, same, -⟩
        cases fed
        simp at same
      · rintro ⟨-, -, nothing⟩
        cases nothing
  | cons piece rest ih =>
      have here := nonempty piece List.mem_cons_self
      have later := ih (d := d.store piece) fun p member =>
        nonempty p (List.mem_cons_of_mem _ member)
      rw [Roomy, Delivers]
      by_cases last : rest = []
      · subst last
        rw [if_pos rfl]
        constructor
        · rintro ⟨outs, fed, one⟩
          obtain ⟨middle, out, _, first, done, rfl⟩ := feedAll_cons_eq_some fed
          cases done
          obtain ⟨room, rfl, rc, len, parsed, rfl⟩ := (feed_eq_some_iff here).mp first
          obtain ⟨complete, rfl, holds⟩ := oneMessage_answer.mp one
          exact ⟨⟨room, trivial⟩, rfl, rc, parsed, complete, holds⟩
        · rintro ⟨⟨room, -⟩, rfl, rc, parsed, complete, holds⟩
          have first := (feed_eq_some_iff here).mpr ⟨room, rfl, rc, text.length, parsed, rfl⟩
          exact ⟨_, feedAll_cons_of first rfl, oneMessage_answer.mpr ⟨complete, rfl, holds⟩⟩
      · rw [if_neg last]
        constructor
        · rintro ⟨outs, fed, one⟩
          obtain ⟨middle, out, outs', first, others, rfl⟩ := feedAll_cons_eq_some fed
          obtain ⟨room, rfl, rc, len, parsed, rfl⟩ := (feed_eq_some_iff here).mp first
          obtain ⟨silent, one⟩ := (oneMessage_cons (feedAll_ne_nil last others)).mp one
          obtain ⟨roomy, same, delivers⟩ := later.mp ⟨outs', others, one⟩
          rw [answer_silent.mp silent] at parsed
          exact ⟨⟨room, roomy⟩, same, ⟨len, parsed⟩, delivers⟩
        · rintro ⟨⟨room, roomy⟩, same, ⟨len, parsed⟩, delivers⟩
          obtain ⟨outs, others, one⟩ := later.mpr ⟨roomy, same, delivers⟩
          have first := (feed_eq_some_iff here).mpr ⟨room, rfl, .readPartial, len, parsed, rfl⟩
          refine ⟨_, feedAll_cons_of first others, ?_⟩
          exact (oneMessage_cons (feedAll_ne_nil last others)).mpr ⟨rfl, one⟩

/-- The parser waits at every cut but the last, and then it is done. -/
theorem delivers_iff :
    Delivers text src pieces ↔ pieces ≠ [] ∧ Complete text (src ++ pieces.flatten) ∧
      ∀ k, 0 < k → k < pieces.length → Open (src ++ (pieces.take k).flatten) := by
  induction pieces generalizing src with
  | nil => simp [Delivers]
  | cons piece rest ih =>
      rw [Delivers]
      by_cases last : rest = []
      · subst last
        rw [if_pos rfl, List.flatten_cons, List.flatten_nil, List.append_nil]
        constructor
        · intro complete
          refine ⟨List.cons_ne_nil _ _, complete, fun k positive below => ?_⟩
          rw [List.length_singleton] at below
          omega
        · exact fun ⟨_, complete, _⟩ => complete
      · rw [if_neg last, ih, List.flatten_cons, ← List.append_assoc]
        constructor
        · rintro ⟨first, -, complete, later⟩
          refine ⟨List.cons_ne_nil _ _, complete, fun k positive below => ?_⟩
          obtain ⟨k, rfl⟩ := Nat.exists_eq_add_one.mpr positive
          rw [List.take_succ_cons, List.flatten_cons, ← List.append_assoc]
          rw [List.length_cons] at below
          cases k with
          | zero => rwa [List.take_zero, List.flatten_nil, List.append_nil]
          | succ k => exact later (k + 1) (Nat.succ_pos k) (Nat.lt_of_succ_lt_succ below)
        · rintro ⟨-, complete, cuts⟩
          have two := List.length_pos_of_ne_nil last
          refine ⟨?_, last, complete, fun k positive below => ?_⟩
          · have first := cuts 1 Nat.one_pos (by rw [List.length_cons]; omega)
            rwa [List.take_succ_cons, List.take_zero, List.flatten_singleton] at first
          · have next := cuts (k + 1) (Nat.succ_pos k) (by rw [List.length_cons]; omega)
            rwa [List.take_succ_cons, List.flatten_cons, ← List.append_assoc] at next

end Feeding


/-! ## Complete replies -/

section Complete

/-- A search decides: the match has to be where the text ends. -/
theorem complete_iff_found {needle src text : List UInt8} {rc : ResultCode}
    {absent : Option (ResultCode × Nat)} {extra position : Nat}
    (parsed : textualParseResponse src = validLen rc absent extra (strstr needle src))
    (complete : rc ≠ .readPartial) (waits : ∀ r n, absent = some (r, n) → r = .readPartial)
    (holds : src = text ++ crlf) (at' : position + extra = text.length)
    (inside : extra ≤ needle.length) :
    Complete text src ↔ strstr needle src = .found position ∧ text.length < 2 ^ 32 := by
  have size : src.length = text.length + 2 := by
    rw [holds, List.length_append]
    rfl
  constructor
  · rintro ⟨rc', known, done, -⟩
    rw [parsed] at known
    cases search : strstr needle src with
    | outside => rw [search] at known; cases known
    | absent =>
        rw [search] at known
        exact absurd (waits _ _ known) done
    | found cur =>
        have bound := le_length_of_strstr search
        rw [search] at known
        obtain ⟨-, length⟩ := Prod.mk.inj (Option.some.inj known)
        have here : cur = position := by omega
        exact ⟨by rw [here], by omega⟩
  · rintro ⟨search, small⟩
    refine ⟨rc, ?_, complete, ?_⟩
    · rw [parsed, search, validLen, at', Nat.mod_eq_of_lt small]
    · rw [holds, List.take_left]

theorem Status.text_plain (line : Status) : ∀ c ∈ line.text, c ≠ 13 ∧ c ≠ 10 := by
  have word : ∀ (word : List UInt8) (t : LineText), (∀ c ∈ word, c ≠ 13 ∧ c ≠ 10) →
      ∀ c ∈ word ++ t.val, c ≠ 13 ∧ c ≠ 10 := by
    intro word t plain c member
    rcases List.mem_append.mp member with member | member
    · exact plain c member
    · exact t.property c member
  cases line with
  | version t => exact word _ t (by decide +kernel)
  | serverError t => exact word _ t (by decide +kernel)
  | clientError t => exact word _ t (by decide +kernel)
  | number n =>
      intro c member
      have digit := isDigit_of_mem_decimal member
      constructor <;> rintro rfl <;> revert digit <;> decide
  | _ => decide +kernel

theorem Status.text_ne_nil (line : Status) : line.text ≠ [] := by
  cases line with
  | version t => exact List.append_ne_nil_of_left_ne_nil (by decide) _
  | serverError t => exact List.append_ne_nil_of_left_ne_nil (by decide) _
  | clientError t => exact List.append_ne_nil_of_left_ne_nil (by decide) _
  | number n => exact decimal_ne_nil n
  | _ => decide

/-- The end of a plain line is found unless a zero stops the search. -/
theorem strstr_crlf_iff {text : List UInt8} (plain : ∀ c ∈ text, c ≠ 13 ∧ c ≠ 10)
    (some' : text ≠ []) :
    strstr crlf (text ++ crlf) = .found text.length ↔ 0 ∉ text := by
  obtain ⟨front, last, rfl⟩ := (List.eq_nil_or_concat' text).resolve_left some'
  obtain ⟨noReturn, noFeed⟩ := plain last (List.mem_append_right _ List.mem_cons_self)
  have lacks : last ∉ crlf := by
    simp [crlf, noReturn, noFeed]
  have noLine : ¬ crlf <:+: front := fun inside =>
    (plain 13 (List.mem_append_left _ (inside.subset List.mem_cons_self))).1 rfl
  have search := strstr_found_iff front [] (by decide : crlf ≠ []) lacks
  rw [List.append_nil] at search
  rw [List.append_assoc, List.singleton_append, List.length_append, List.length_singleton, search]
  simp only [noLine, not_false_eq_true, and_true, List.mem_append, List.mem_singleton, not_or]
  exact and_congr_right fun _ => ne_comm

/-- The line feed comes last. -/
theorem Status.text_open (line : Status) : 10 ∉ line.text ++ [13] := by
  intro member
  rcases List.mem_append.mp member with member | member
  · exact (line.text_plain 10 member).2 rfl
  · revert member
    decide

/-- The line of a status is given to the switch, unless it is too long. -/
theorem parse_status {line : Status}
    (short : line.text.length + 2 < memcachedDefaultCommandSize) :
    textualParseResponse (line.text ++ crlf) = parseLine (line.text ++ crlf) (line.text ++ crlf) := by
  have size : (line.text ++ [13]).length + 1 < memcachedDefaultCommandSize := by
    rw [List.length_append]
    exact short
  have parsed := parse_line line.text_open [] size
  rwa [List.append_assoc] at parsed

/-- A line that is too long is no message with a text. -/
theorem not_complete_long {line text : List UInt8} (some' : text ≠ []) (open' : 10 ∉ line)
    (rest : List UInt8) (long : memcachedDefaultCommandSize ≤ line.length + 1) :
    ¬ Complete text (line ++ 10 :: rest) := by
  rintro ⟨rc, parsed, -⟩
  rw [parse_long open' rest long] at parsed
  obtain ⟨-, length⟩ := Prod.mk.inj (Option.some.inj parsed)
  exact some' (List.length_eq_zero_iff.mp length.symm)

/-- The first byte of a number is none of the letters. -/
theorem parseLine_number (n : Nat) (src : List UInt8) :
    parseLine src (decimal n ++ crlf) = upToNumberEnd src := by
  cases digits : decimal n with
  | nil => exact absurd digits (decimal_ne_nil n)
  | cons c rest =>
      have digit : isDigit c = true := isDigit_of_mem_decimal (digits ▸ List.mem_cons_self)
      have other : ∀ letter : UInt8, isDigit letter = false → c ≠ letter := by
        rintro letter no rfl
        rw [digit] at no
        cases no
      have noSpace : isSpace c = false := by
        cases space : isSpace c with
        | false => rfl
        | true =>
            simp only [isSpace, isDigit, Bool.or_eq_true, Bool.and_eq_true, beq_iff_eq,
              decide_eq_true_eq, UInt8.le_iff_toNat_le] at space digit
            rcases space with rfl | ⟨-, low⟩
            · exact absurd digit.1 (by decide)
            · exact absurd (Nat.le_trans digit.1 low) (by decide)
      have scanned : scansNumber (c :: (rest ++ crlf)) = some true := by
        rw [scansNumber, List.dropWhile_cons_of_neg (by simp [noSpace])]
        simp [other 43 (by decide), other 45 (by decide), digit]
      rw [List.cons_append]
      simp only [parseLine, if_neg (other 86 (by decide)), if_neg (other 79 (by decide)),
        if_neg (other 83 (by decide)), if_neg (other 68 (by decide)), if_neg (other 78 (by decide)),
        if_neg (other 69 (by decide)), if_neg (other 73 (by decide)), if_neg (other 67 (by decide)),
        scanned]
      rfl

/-- A line whose length is the place of its end. -/
theorem complete_escape {line : Status} {rc : ResultCode} {absent : Option (ResultCode × Nat)}
    (short : line.text.length + 2 < memcachedDefaultCommandSize) (complete : rc ≠ .readPartial)
    (waits : ∀ r n, absent = some (r, n) → r = .readPartial)
    (switch : parseLine (line.text ++ crlf) (line.text ++ crlf) =
      validLen rc absent 0 (strstr crlf (line.text ++ crlf))) :
    Complete line.text (line.text ++ crlf) ↔ 0 ∉ line.text := by
  have size : memcachedDefaultCommandSize ≤ 2 ^ 32 := by decide
  rw [complete_iff_found ((parse_status short).trans switch) complete waits rfl
    (Nat.add_zero line.text.length) (Nat.zero_le _), strstr_crlf_iff line.text_plain line.text_ne_nil]
  exact and_iff_left (by omega)

/-- A status line with a fixed length. -/
theorem complete_fixed {line : Status} {rc : ResultCode} {n : Nat}
    (short : line.text.length + 2 < memcachedDefaultCommandSize) (complete : rc ≠ .readPartial)
    (switch : parseLine (line.text ++ crlf) (line.text ++ crlf) = some (rc, n)) :
    Complete line.text (line.text ++ crlf) ↔ line.text.length = n := by
  have parsed := (parse_status short).trans switch
  constructor
  · rintro ⟨rc', known, -⟩
    rw [parsed] at known
    exact ((Prod.mk.inj (Option.some.inj known)).2).symm
  · rintro rfl
    exact ⟨rc, parsed, complete, List.take_left⟩

theorem waits_partial : ∀ r n, some (ResultCode.readPartial, 0) = some (r, n) → r = .readPartial := by
  rintro r n same
  cases same
  rfl

theorem complete_status_short {line : Status}
    (short : line.text.length + 2 < memcachedDefaultCommandSize) :
    Complete line.text (line.text ++ crlf) ↔ line.Measured := by
  have zero : ∀ (word : List UInt8) (t : LineText), 0 ∉ word → (0 ∉ word ++ t.val ↔ 0 ∉ t.val) := by
    intro word t absent
    simp [absent]
  cases line with
  | version t =>
      rw [complete_escape short (by decide) waits_partial rfl]
      exact zero _ t (by decide)
  | serverError t =>
      rw [complete_escape short (by decide) waits_partial rfl]
      exact zero _ t (by decide)
  | clientError t =>
      rw [complete_fixed short (by decide) rfl, Status.text, List.length_append]
      exact ⟨fun size => List.length_eq_zero_iff.mp (Nat.add_left_cancel size),
        fun empty => by rw [empty]; rfl⟩
  | number n =>
      rw [complete_escape short (by decide) (by simp) (parseLine_number n _)]
      refine ⟨fun _ => trivial, fun _ member => ?_⟩
      have digit := isDigit_of_mem_decimal member
      revert digit
      decide
  | ok => exact (complete_fixed short (by decide) rfl).trans ⟨fun _ => trivial, fun _ => rfl⟩
  | stored => exact (complete_fixed short (by decide) rfl).trans ⟨fun _ => trivial, fun _ => rfl⟩
  | deleted => exact (complete_fixed short (by decide) rfl).trans ⟨fun _ => trivial, fun _ => rfl⟩
  | notFound => exact (complete_fixed short (by decide) rfl).trans ⟨fun _ => trivial, fun _ => rfl⟩
  | notStored => exact (complete_fixed short (by decide) rfl).trans ⟨fun _ => trivial, fun _ => rfl⟩
  | end' => exact (complete_fixed short (by decide) rfl).trans ⟨fun _ => trivial, fun _ => rfl⟩
  | exists' => exact (complete_fixed short (by decide) rfl).trans ⟨fun _ => trivial, fun _ => rfl⟩

theorem complete_status (line : Status) :
    Complete line.text (line.text ++ crlf) ↔
      line.text.length + 2 < memcachedDefaultCommandSize ∧ line.Measured := by
  by_cases short : line.text.length + 2 < memcachedDefaultCommandSize
  · rw [complete_status_short short]
    exact (and_iff_right short).symm
  · refine ⟨fun complete => ?_, fun both => absurd both.1 short⟩
    refine absurd ?_ (not_complete_long line.text_ne_nil line.text_open [] ?_)
    · rwa [List.append_assoc]
    · rw [List.length_append, List.length_singleton]
      omega

/-! A value is complete at the first `END`. -/

theorem Value.text_eq (v : Value) : v.text ++ crlf =
    (v.head ++ [13]) ++ 10 :: (v.data ++ crlf ++ endKey ++ crlf) := by
  simp [Value.text, crlf]

theorem Value.text_eq_endKey (v : Value) : v.text ++ crlf =
    (v.head ++ crlf ++ v.data ++ [13]) ++ 10 :: (endKey ++ crlf) := by
  simp [Value.text, crlf]

theorem Value.text_ne_nil (v : Value) : v.text ≠ [] := by
  simp [Value.text, endKey]

theorem Key.not_mem (key : Key) {c : UInt8} (control : c ≤ 32) : c ∉ key.val := fun member =>
  absurd (key.property c member) (UInt8.not_lt.mpr control)

theorem not_mem_decimal {c : UInt8} (other : isDigit c = false) (n : Nat) : c ∉ decimal n := by
  intro member
  rw [isDigit_of_mem_decimal member] at other
  cases other

theorem Value.not_mem_head (v : Value) {c : UInt8} (control : c < 32)
    (other : isDigit c = false) (word : c ∉ ascii "VALUE") : c ∉ v.head := by
  have blank : c ≠ 32 := fun same => absurd control (by rw [same]; decide)
  have key := v.key.not_mem (UInt8.le_of_lt control)
  have flags := not_mem_decimal other v.flags
  have size := not_mem_decimal other v.data.length
  simp [Value.head, blank, key, flags, size, word]

theorem Value.head_open (v : Value) : 10 ∉ v.head ++ [13] := by
  intro member
  rcases List.mem_append.mp member with member | member
  · exact v.not_mem_head (by decide) (by decide) (by decide) member
  · revert member
    decide

theorem parseLine_value (v : Value) (src : List UInt8) :
    parseLine src (v.head ++ [13] ++ [10]) = upToEndKey src .success :=
  rfl

/-- Digits and blanks are no part of `END`. -/
theorem not_infix_decimal (n : Nat) : ¬ endKey <:+: decimal n := fun inside =>
  not_mem_decimal (by decide) n (inside.subset (List.mem_cons_self : (69 : UInt8) ∈ endKey))

theorem Value.endKey_infix_iff (v : Value) :
    endKey <:+: v.head ++ crlf ++ v.data ++ [13] ↔ endKey <:+: v.key.val ∨ endKey <:+: v.data := by
  have some' : endKey ≠ [] := by decide
  have blank : (32 : UInt8) ∉ endKey := by decide
  have carriage : (13 : UInt8) ∉ endKey := by decide
  have feed : (10 : UInt8) ∉ endKey := by decide
  have word : ¬ endKey <:+: ascii "VALUE" := by decide
  have nothing : ¬ endKey <:+: [] := by decide
  have shape : v.head ++ crlf ++ v.data ++ [13] =
      ascii "VALUE" ++ 32 :: (v.key.val ++ 32 :: (decimal v.flags ++ 32 :: (decimal v.data.length ++
        13 :: ([] ++ 10 :: (v.data ++ 13 :: []))))) := by
    simp [Value.head, crlf]
  rw [shape, infix_append_cons_iff some' blank, infix_append_cons_iff some' blank,
    infix_append_cons_iff some' blank, infix_append_cons_iff some' carriage,
    infix_append_cons_iff some' feed, infix_append_cons_iff some' carriage]
  simp only [word, nothing, not_infix_decimal, false_or, or_false]

theorem Value.zero_mem_iff (v : Value) :
    0 ∈ v.head ++ crlf ++ v.data ++ [13] ↔ 0 ∈ v.data := by
  have head : 0 ∉ v.head := v.not_mem_head (by decide) (by decide) (by decide)
  simp [head, crlf]

theorem Value.strstr_iff (v : Value) :
    strstr endKey (v.text ++ crlf) = .found (v.head ++ crlf ++ v.data ++ crlf).length ↔
      0 ∉ v.data ∧ ¬ endKey <:+: v.key.val ∧ ¬ endKey <:+: v.data := by
  have size : (v.head ++ crlf ++ v.data ++ crlf).length =
      (v.head ++ crlf ++ v.data ++ [13]).length + 1 := by
    simp only [List.length_append]
    rfl
  rw [v.text_eq_endKey, size, strstr_found_iff _ _ (by decide) (by decide), v.zero_mem_iff,
    v.endKey_infix_iff, not_or]
  exact and_congr_left' (and_iff_left (by decide))

theorem complete_value_short {v : Value} (short : v.head.length + 2 < memcachedDefaultCommandSize) :
    Complete v.text (v.text ++ crlf) ↔
      (0 ∉ v.data ∧ ¬ endKey <:+: v.key.val ∧ ¬ endKey <:+: v.data) ∧ v.text.length < 2 ^ 32 := by
  have size : (v.head ++ [13]).length + 1 < memcachedDefaultCommandSize := by
    rw [List.length_append]
    exact short
  have parsed : textualParseResponse (v.text ++ crlf) = upToEndKey (v.text ++ crlf) .success := by
    have known := parse_line v.head_open (v.data ++ crlf ++ endKey ++ crlf) size
    rw [← v.text_eq] at known
    rw [known, parseLine_value]
  have at' : (v.head ++ crlf ++ v.data ++ crlf).length + 3 = v.text.length := by
    simp only [Value.text, List.length_append]
    rfl
  rw [complete_iff_found parsed (by decide) waits_partial rfl at' (Nat.le_refl 3), v.strstr_iff]

end Complete

/-! ## The first reply -/

section FirstReply

variable {line part : List UInt8} {pieces : List (List UInt8)}

/-- Before the first line is complete the parser waits. -/
theorem open_before (rest : List UInt8) (open' : 10 ∉ line) (starts : part <+: line ++ rest)
    (before : part.length ≤ line.length) (short : line.length < memcachedDefaultCommandSize) :
    Open part := by
  have inside : part <+: line :=
    List.prefix_of_prefix_length_le starts (List.prefix_append _ _) before
  exact ⟨0, parse_open (fun member => open' (inside.subset member))
    (Nat.lt_of_le_of_lt before short)⟩

theorem length_take_flatten_le {k : Nat} (below : k < pieces.length) :
    (pieces.take k).flatten.length ≤ pieces.dropLast.flatten.length := by
  have starts : pieces.take k <+: pieces.dropLast := by
    rw [List.dropLast_eq_take]
    exact List.take_prefix_take_left (by omega)
  exact starts.flatten.length_le

theorem flatten_take_prefix (pieces : List (List UInt8)) (k : Nat) :
    (pieces.take k).flatten <+: pieces.flatten :=
  (List.take_prefix k pieces).flatten

theorem length_dropLast_flatten (some' : pieces ≠ []) :
    pieces.flatten.length = pieces.dropLast.flatten.length + (pieces.getLast some').length := by
  have split := congrArg (List.length ∘ List.flatten) (List.dropLast_append_getLast some')
  simpa using split.symm

theorem Exchange.pieces_ne_nil (ex : Exchange) : ex.pieces ≠ [] := by
  intro nothing
  have whole := ex.whole
  rw [nothing] at whole
  simp [crlf] at whole

/-- All pieces but the last stop short of the end. -/
theorem Exchange.length_dropLast (ex : Exchange) :
    ex.pieces.dropLast.flatten.length < ex.reply.text.length + 2 ∧
      ex.reply.text.length + 2 ≤ ex.pieces.dropLast.flatten.length + getBuffer := by
  have size := length_dropLast_flatten ex.pieces_ne_nil
  obtain ⟨nonempty, small⟩ := ex.fits _ (List.getLast_mem ex.pieces_ne_nil)
  have positive := List.length_pos_of_ne_nil nonempty
  rw [ex.whole, List.length_append] at size
  have two : crlf.length = 2 := rfl
  omega

theorem delivers_status {ex : Exchange} {status : Status} (reply : ex.reply = .status status) :
    Delivers ex.reply.text [] ex.pieces ↔ ex.Whole := by
  have whole := ex.whole
  have bound := ex.length_dropLast.1
  unfold Exchange.Whole
  rw [reply] at whole bound ⊢
  rw [delivers_iff, List.nil_append, whole]
  simp only [Reply.text] at whole bound ⊢
  rw [complete_status]
  constructor
  · exact fun ⟨_, complete, _⟩ => complete
  · rintro ⟨short, measured⟩
    refine ⟨ex.pieces_ne_nil, ⟨short, measured⟩, fun k _ below => ?_⟩
    have size : (status.text ++ [13]).length = status.text.length + 1 := List.length_append
    have starts := flatten_take_prefix ex.pieces k
    have less := length_take_flatten_le below
    rw [whole] at starts
    rw [List.nil_append]
    refine open_before [10] status.text_open ?_ (by omega) (by omega)
    rwa [List.append_assoc]

theorem Value.parse_part (v : Value) {more : List UInt8}
    (short : v.head.length + 2 < memcachedDefaultCommandSize) :
    textualParseResponse (v.head ++ crlf ++ more) = upToEndKey (v.head ++ crlf ++ more) .success := by
  have size : (v.head ++ [13]).length + 1 < memcachedDefaultCommandSize := by
    rw [List.length_append]
    exact short
  have parsed := parse_line v.head_open more size
  rw [parseLine_value] at parsed
  have shape : v.head ++ [13] ++ 10 :: more = v.head ++ crlf ++ more := by
    simp [crlf]
  rwa [shape] at parsed

/-- A parser that waits behind the first line of a value waits forever. -/
theorem Value.not_found_of_open (v : Value) {more : List UInt8}
    (short : v.head.length + 2 < memcachedDefaultCommandSize)
    (waits : Open (v.head ++ crlf ++ more)) (later : List UInt8) {position : Nat} :
    strstr endKey (v.head ++ crlf ++ more ++ later) ≠ .found position := by
  obtain ⟨n, waiting⟩ := waits
  rw [v.parse_part short, upToEndKey] at waiting
  cases search : strstr endKey (v.head ++ crlf ++ more) with
  | outside => rw [search] at waiting; cases waiting
  | found cur => rw [search] at waiting; cases waiting
  | absent =>
      rw [strstr_append later (by rw [search]; simp), search]
      simp

theorem delivers_value {ex : Exchange} {v : Value} (reply : ex.reply = .value v) :
    Delivers ex.reply.text [] ex.pieces ↔ ex.Whole := by
  have whole := ex.whole
  have bound := ex.length_dropLast
  unfold Exchange.Whole
  rw [reply] at whole bound ⊢
  rw [delivers_iff, List.nil_append, whole]
  simp only [Reply.text] at whole bound ⊢
  have size : (v.head ++ [13]).length = v.head.length + 1 := List.length_append
  constructor
  · rintro ⟨-, complete, cuts⟩
    have short : v.head.length + 2 < memcachedDefaultCommandSize := by
      by_contra long
      rw [v.text_eq] at complete
      exact not_complete_long v.text_ne_nil v.head_open _ (by omega) complete
    obtain ⟨⟨noZero, noKey, noData⟩, -⟩ := (complete_value_short short).mp complete
    refine ⟨short, noZero, noKey, noData, ?_⟩
    by_contra behind
    -- the last cut lies behind the first line
    have found := v.strstr_iff.mpr ⟨noZero, noKey, noData⟩
    have several : 0 < ex.pieces.length - 1 := by
      have some' := List.length_pos_of_ne_nil ex.pieces_ne_nil
      by_contra single
      have none' : ex.pieces.dropLast = [] := by
        rw [List.dropLast_eq_take, Nat.le_zero.mp (Nat.le_of_not_lt single), List.take_zero]
      rw [none'] at behind
      simp at behind
    have waits := cuts (ex.pieces.length - 1) several (by omega)
    rw [← List.dropLast_eq_take] at waits
    have starts : ex.pieces.dropLast.flatten <+: v.text ++ crlf := by
      rw [List.dropLast_eq_take, ← whole]
      exact flatten_take_prefix _ _
    obtain ⟨later, joined⟩ := starts
    have head : v.head ++ crlf <+: ex.pieces.dropLast.flatten := by
      have first : v.head ++ crlf <+: v.text ++ crlf := by
        simp only [Value.text, List.append_assoc]
        exact List.prefix_append_right_inj _ |>.mpr (List.prefix_append _ _)
      refine List.prefix_of_prefix_length_le first ⟨later, joined⟩ ?_
      rw [List.length_append]
      exact Nat.le_of_not_lt behind
    obtain ⟨more, same⟩ := head
    rw [← same] at waits joined
    rw [← joined] at found
    exact v.not_found_of_open short waits later found
  · rintro ⟨short, noZero, noKey, noData, before⟩
    have small : memcachedDefaultCommandSize + getBuffer ≤ 2 ^ 32 := by decide
    have complete := (complete_value_short short).mpr ⟨⟨noZero, noKey, noData⟩, by omega⟩
    refine ⟨ex.pieces_ne_nil, complete, fun k _ below => ?_⟩
    have starts := flatten_take_prefix ex.pieces k
    have less := length_take_flatten_le below
    rw [whole, v.text_eq] at starts
    rw [List.nil_append]
    exact open_before _ v.head_open starts (by omega) (by omega)

theorem delivers_first {ex : Exchange} (known : ex.reply.isMalformed = false) :
    Delivers ex.reply.text [] ex.pieces ↔ ex.Whole := by
  cases reply : ex.reply with
  | status line => exact reply ▸ delivers_status reply
  | value v => exact reply ▸ delivers_value reply
  | malformed line =>
      rw [reply] at known
      cases known

end FirstReply

/-! ## Whole connections -/

section Connections

variable {d : MemcachedReplyDecoder} {src text text' : List UInt8} {pieces : List (List UInt8)}

/-- A parsed reply is parsed again, whatever follows it. -/
theorem Complete.append (first : Complete text src) (more : List UInt8) :
    Complete text (src ++ more) := by
  obtain ⟨rc, parsed, complete, holds⟩ := first
  refine ⟨rc, parse_append more parsed complete, complete, ?_⟩
  have inside : text.length ≤ src.length := by
    rw [← holds, List.length_take]
    exact Nat.min_le_right _ _
  rw [List.take_append_of_le_length inside, holds]

theorem Complete.unique (first : Complete text src) (second : Complete text' src) :
    text' = text := by
  obtain ⟨rc, parsed, -, holds⟩ := first
  obtain ⟨rc', parsed', -, holds'⟩ := second
  rw [parsed] at parsed'
  obtain ⟨-, size⟩ := Prod.mk.inj (Option.some.inj parsed')
  rw [← holds, ← holds', size]

theorem Complete.not_open (first : Complete text src) : ¬ Open src := by
  obtain ⟨rc, parsed, complete, -⟩ := first
  rintro ⟨n, waiting⟩
  rw [parsed] at waiting
  exact complete (Prod.mk.inj (Option.some.inj waiting)).1

/-- Behind a complete reply every piece gives that reply again. -/
theorem delivers_later (first : Complete text src) (some' : pieces ≠ []) :
    Delivers text' src pieces ↔ text' = text ∧ pieces.length = 1 := by
  rw [delivers_iff]
  constructor
  · rintro ⟨-, complete, cuts⟩
    refine ⟨(first.append _).unique complete, ?_⟩
    have positive := List.length_pos_of_ne_nil some'
    by_contra several
    exact (first.append _).not_open (cuts 1 Nat.one_pos (by omega))
  · rintro ⟨rfl, single⟩
    refine ⟨some', first.append _, fun k positive below => ?_⟩
    omega

theorem framed_cons {ex : Exchange} {rest : List Exchange} :
    Framed d (ex :: rest) ↔ ex.reply.isMalformed = false ∧ Roomy d ex.pieces ∧
      Delivers ex.reply.text d.recved ex.pieces ∧ Framed (d.storeAll ex.pieces) rest := by
  have nonempty : ∀ piece ∈ ex.pieces, piece ≠ [] := fun piece member => (ex.fits piece member).1
  rw [Framed]
  constructor
  · rintro ⟨d', outs, fed, answered, later⟩
    unfold Reply.Answered at answered
    split at answered
    · obtain ⟨out, member, code⟩ := answered
      exact absurd code (feedAll_code_ne nonempty fed out member)
    · next known =>
        obtain ⟨roomy, rfl, delivers⟩ := (oneMessage_iff nonempty).mp ⟨outs, fed, answered⟩
        exact ⟨Bool.eq_false_iff.mpr known, roomy, delivers, later.resolve_left known⟩
  · rintro ⟨known, roomy, delivers, later⟩
    obtain ⟨outs, fed, one⟩ := (oneMessage_iff nonempty).mpr ⟨roomy, rfl, delivers⟩
    refine ⟨_, outs, fed, ?_, Or.inr later⟩
    rw [Reply.Answered, if_neg (Bool.eq_false_iff.mp known)]
    exact one

/-- Once a first reply is complete, only its repetitions are framed. -/
theorem framed_later {rest : List Exchange} (first : Complete text d.recved) :
    Framed d rest ↔
      (∀ ex ∈ rest, ex.reply.isMalformed = false ∧ ex.reply.text = text ∧ ex.pieces.length = 1) ∧
        Roomy d (rest.flatMap Exchange.pieces) := by
  induction rest generalizing d with
  | nil => simp [Framed, Roomy]
  | cons ex rest ih =>
      have again : Complete text (d.storeAll ex.pieces).recved := by
        rw [recved_storeAll]
        exact first.append _
      rw [framed_cons, delivers_later first ex.pieces_ne_nil, ih again, List.flatMap_cons,
        roomy_append, List.forall_mem_cons]
      constructor
      · rintro ⟨known, roomy, ⟨same, single⟩, others, later⟩
        exact ⟨⟨⟨known, same, single⟩, others⟩, roomy, later⟩
      · rintro ⟨⟨⟨known, same, single⟩, others⟩, roomy, later⟩
        exact ⟨known, roomy, ⟨same, single⟩, others, later⟩

/-- A connection is framed exactly when its first reply arrives whole and is then only repeated. -/
theorem framed_iff (exchanges : List Exchange) : Framed {} exchanges ↔ Allowed exchanges := by
  cases exchanges with
  | nil => exact Iff.rfl
  | cons ex rest =>
      rw [framed_cons, Allowed, List.flatMap_cons, roomy_append]
      have complete : Delivers ex.reply.text [] ex.pieces →
          Complete ex.reply.text (MemcachedReplyDecoder.storeAll {} ex.pieces).recved := by
        intro delivers
        rw [recved_storeAll]
        exact (delivers_iff.mp delivers).2.1
      constructor
      · rintro ⟨known, roomy, delivers, later⟩
        obtain ⟨others, room⟩ := (framed_later (complete delivers)).mp later
        exact ⟨(delivers_first known).mp delivers, others, roomy, room⟩
      · rintro ⟨whole, others, roomy, room⟩
        have known : ex.reply.isMalformed = false := by
          unfold Exchange.Whole at whole
          cases reply : ex.reply with
          | malformed line =>
              rw [reply] at whole
              cases whole
          | _ => rfl
        have delivers := (delivers_first known).mpr whole
        exact ⟨known, roomy, delivers, (framed_later (complete delivers)).mpr ⟨others, room⟩⟩

/-- A stored reply, then a value. -/
def storedThenValue : List Exchange :=
  [{ reply := .status .stored
     pieces := [ascii "STOR", ascii "ED\r\n"]
     whole := by decide +kernel
     fits := by decide +kernel },
   { reply := .value ⟨⟨ascii "k", by decide +kernel⟩, 0, ascii "ab"⟩
     pieces := [ascii "VALUE k 0 2\r\nab\r\nEND\r\n"]
     whole := by decide +kernel
     fits := by decide +kernel }]

/-- The reply to the second request is reported as that to the first. -/
theorem second_reply_is_first : ¬ Framed {} storedThenValue := by
  intro framed
  obtain ⟨-, -, delivers, later⟩ := framed_cons.mp framed
  have complete : Complete (ascii "STORED")
      (MemcachedReplyDecoder.storeAll {} [ascii "STOR", ascii "ED\r\n"]).recved :=
    (delivers_iff.mp delivers).2.1
  obtain ⟨repeats, -⟩ := (framed_later complete).mp later
  obtain ⟨-, same, -⟩ := repeats _ List.mem_cons_self
  exact absurd same (by decide)

end Connections

end MlsImgSearch.Blitz.MemcachedReply
