import Mathlib.Data.List.Infix
import MlsImgSearch.Blitz2.MemcachedCommon

/-!
# Memcached replies

`MemcachedRespDecoder` reads one reply at a time: a status line, or a value with
its data block and a closing line. A value that does not fit into the first
buffer is collected as a list of data pieces.
-/

namespace MlsImgSearch.Blitz2.MemcachedResp

open Lib.Bytes Lib.Segmentation MemcachedCommon
open Blitz.HttpCommon (digitsValue AreDigits)

def kMaxTokenCount : Nat := 7

inductive EType where
  | unknown | busy | badclass | clientError | deleted | end' | error | exists' | nospare | notfull
  | notFound | notStored | ok | same | stored | stat | serverError | touched | unsafe' | value
  | version
  deriving DecidableEq

/-- A reported reply with its data pieces. -/
structure MemcachedResp where
  type : EType
  msg : List (List UInt8)
  deriving DecidableEq

/-- `msg_` is only ever a value reply; it is given by its data pieces. -/
structure MemcachedRespDecoder where
  received : Received
  reqTotalLen : Nat
  firstLineLen : Nat
  msg : Option (List (List UInt8))
  deriving DecidableEq

/-- How `Feed` ends. -/
structure Fed where
  code : Int
  decoder : MemcachedRespDecoder
  reported : List MemcachedResp := []

def ascii (text : String) : List UInt8 := text.toList.map fun c => c.toNat.toUInt8

/-- The words that the first token is compared with, in this order. -/
def firstWords : List (List UInt8 × EType) :=
  [(ascii "ERROR", .error),
   (ascii "VALUE", .value),
   (ascii "STORED", .stored),
   (ascii "END", .end'),
   (ascii "SERVER_ERROR", .serverError),
   (ascii "CLIENT_ERROR", .clientError),
   (ascii "SAME", .same),
   (ascii "NOT_STORED", .notStored),
   (ascii "NOSPARE", .nospare),
   (ascii "NOTFULL", .notfull),
   (ascii "EXISTS", .exists'),
   (ascii "NOT_FOUND", .notFound),
   (ascii "DELETED", .deleted),
   (ascii "TOUCHED", .touched),
   (ascii "BADCLASS", .badclass),
   (ascii "BUSY", .busy),
   (ascii "OK", .ok),
   (ascii "UNSAFE", .unsafe'),
   (ascii "VERSION", .version),
   (ascii "STAT", .stat)]

variable (p : InitParam)

/-- After `Init`, and after a `Reset` that finds no buffer. -/
def initial : MemcachedRespDecoder := ⟨.fresh p, 0, 0, none⟩

/-- The data that the buffer holds. -/
def bufferData (d : MemcachedRespDecoder) : List UInt8 :=
  d.received.buffer.take d.received.bufferDataLen

/-- The data pieces of `msg_` are given. -/
def processGet (d : MemcachedRespDecoder) (pieces : List (List UInt8)) : Fed :=
  if d.received.recvedDataLen = d.reqTotalLen then
    { code := 0
      decoder := initial p
      reported := [⟨.value, pieces ++ [bufferData d]⟩] }
  else if d.received.recvedDataLen < d.reqTotalLen then
    if d.received.buffer.length < d.reqTotalLen then
      { code := 0
        decoder := { d with
          received := { d.received with
            buffer := malloc p.junk (d.reqTotalLen - d.received.recvedDataLen)
            bufferDataLen := 0 }
          msg := some (pieces ++ [bufferData d]) } }
    else { code := 0, decoder := { d with msg := some pieces } }
  else { code := -1, decoder := { d with msg := some pieces } }

def processSingleFirstLine (d : MemcachedRespDecoder) (type : EType) : Fed :=
  if d.firstLineLen ≠ d.received.recvedDataLen then { code := -1, decoder := d }
  else
    { code := 0
      decoder := initial p
      reported := [⟨type, [d.received.buffer.take d.firstLineLen]⟩] }

/-- `none` is an exception of `lexical_cast`. -/
def processGetFirstLine (d : MemcachedRespDecoder) (tokens : List (List UInt8)) (count : Nat) :
    Option Fed :=
  if count ≠ 4 then some { code := -1, decoder := d }
  else
    (lexicalCastUInt32 (tokens.getD 3 [])).map fun bytes =>
      let d := { d with reqTotalLen := (d.firstLineLen + bytes + 2 + 5) % 2 ^ 32 }
      if p.bufMaxLen < d.reqTotalLen then { code := -1, decoder := d }
      else processGet p { d with msg := some [] } []

/-- The choice that the first token makes. -/
def dispatch (d : MemcachedRespDecoder) (count : Nat) (tokens : List (List UInt8)) : Option Fed :=
  match (firstWords.find? fun entry => startsWith (tokens.getD 0 []) entry.1).map Prod.snd with
  | some .value => processGetFirstLine p d tokens count
  | some .stat => some { code := -1, decoder := d }
  | some type => some (processSingleFirstLine p d type)
  | none => some { code := -1, decoder := d }

def processFirstLine (d : MemcachedRespDecoder) : Option Fed :=
  let split := tokenizerCommand kMaxTokenCount (d.received.buffer.take d.firstLineLen) [] []
  dispatch p d split.1 split.2

/-- `Feed` after the reader stored `length` bytes. -/
def feed (d : MemcachedRespDecoder) (length : Nat) : Option Fed :=
  if length = 0 then some { code := 0, decoder := d }
  else
    let d := { d with received := d.received.add length }
    match d.msg with
    | some pieces => some (processGet p d pieces)
    | none =>
        match d.received.searchFirstLine length with
        | .tooLong => some { code := -1, decoder := d }
        | .more received _ => some { code := 0, decoder := { d with received } }
        | .line firstLineLen => processFirstLine p { d with firstLineLen }

/-- `GetBuffer`, the reader's copy, `Feed`; `none` is a negative code, an exception or a write past
the buffer. -/
def deliver (d : MemcachedRespDecoder) (piece : List UInt8) :
    Option (MemcachedRespDecoder × List MemcachedResp) :=
  (writeAt d.received.buffer d.received.bufferDataLen piece).bind fun buffer =>
  (feed p { d with received := { d.received with buffer } } piece.length).bind fun fed =>
    if fed.code < 0 then none else some (fed.decoder, fed.reported)

/-- The decoder as its reader drives it. -/
def decoder : Decoder MemcachedRespDecoder MemcachedResp :=
  ⟨fun d => some d.received.room, deliver p⟩

/-! ## Replies -/

/-- A status line: a word that `firstWords` lists for a single line, and an optional text that a blank
separates from it. -/
structure Status where
  word : List UInt8
  type : EType
  known : (word, type) ∈ firstWords
  single : type ≠ .value ∧ type ≠ .stat
  rest : List UInt8
  separated : rest = [] ∨ rest.head? = some 32
  oneLine : ¬ crlf <:+: rest

/-- A value; only the length of its data is read as a number. -/
structure Value where
  key : { word // IsWord word }
  flags : { word // IsWord word }
  bytes : Number (2 ^ 32)
  data : List UInt8
  sized : digitsValue 10 bytes.digits = data.length

inductive Reply where
  | status (s : Status)
  | value (v : Value)

def Value.words (v : Value) : List (List UInt8) :=
  [ascii "VALUE", v.key, v.flags, v.bytes.digits]

namespace Reply

/-- The first line without its end. -/
def line : Reply → List UInt8
  | .status s => s.word ++ s.rest
  | .value v => [32].intercalate v.words

/-- What follows the first line. -/
def block : Reply → List UInt8
  | .status _ => []
  | .value v => v.data ++ crlf ++ (ascii "END" ++ crlf)

def text (r : Reply) : List UInt8 := r.line ++ crlf ++ r.block

def type : Reply → EType
  | .status s => s.type
  | .value _ => .value

/-- The stream offset between the two bytes of the first line's end. -/
def eolCut (r : Reply) : Nat := r.line.length + 1

/-- A reported message has the type of the reply, and its pieces are the reply. -/
def Answers (r : Reply) (m : MemcachedResp) : Prop := m.type = r.type ∧ m.msg.flatten = r.text

end Reply

/-- The lengths that are granted. -/
structure Fitting (r : Reply) : Prop where
  line : r.line.length + 2 < p.bufStartLen
  total : r.text.length ≤ p.bufMaxLen

/-- All pieces are accepted, and the one message that comes out is the reply. -/
def Decodes (r : Reply) (pieces : List (List UInt8)) : Prop :=
  ∃ m, (decoder p).Emits (initial p) pieces [m] ∧ r.Answers m

/-- All pieces are accepted, nothing is reported yet, and there is room for more data. -/
def Waits (pieces : List (List UInt8)) : Prop :=
  ∃ d, (decoder p).feedAll (initial p) pieces = some (d, []) ∧ 0 < d.received.room

/-! ## First lines -/

section FirstLine

variable {p} {r : Reply}

theorem firstWords_spec : ∀ entry ∈ firstWords, (entry.1 ≠ [] ∧ ∀ c ∈ entry.1, c ≠ 32 ∧ c ≠ 13) ∧
    (firstWords.find? fun other => startsWith entry.1 other.1).map Prod.snd = some entry.2 := by
  decide +kernel

theorem Status.isWord (s : Status) : IsWord s.word := (firstWords_spec _ s.known).1

theorem Value.areWords (v : Value) : ∀ word ∈ v.words, IsWord word := by
  have valueWord : IsWord (ascii "VALUE") := by
    unfold IsWord
    decide +kernel
  simp only [Value.words, List.forall_mem_cons]
  exact ⟨valueWord, v.key.2, v.flags.2, v.bytes.isWord, fun _ member => nomatch member⟩

/-- The first line end of a reply. -/
theorem Reply.searchEol_text (r : Reply) : searchEol r.text = some r.line.length := by
  cases r with
  | status s =>
      have plain : 13 ∉ s.word := fun member => (s.isWord.2 13 member).2 rfl
      have found := searchEol_skip plain (searchEol_line s.oneLine [])
      rw [← List.length_append, List.append_nil, ← List.append_assoc] at found
      rw [Reply.text, Reply.block, List.append_nil]
      exact found
  | value v => exact searchEol_append (intercalate_plain v.areWords) _

theorem Reply.length_text (r : Reply) : r.text.length = r.line.length + 2 + r.block.length := by
  rw [Reply.text, List.length_append, List.length_append]
  rfl

theorem Value.length_block (v : Value) : (Reply.value v).block.length = v.data.length + 2 + 5 := by
  rw [Reply.block, List.length_append, List.length_append]
  rfl

/-- The first line of a status reply. -/
theorem processFirstLine_status {s : Status} {received : Received} {total : Nat}
    (recved : received.recvedDataLen = (Reply.status s).text.length)
    (data : received.buffer.take (Reply.status s).text.length = (Reply.status s).text) :
    processFirstLine p ⟨received, total, (Reply.status s).line.length + 2, none⟩ =
      some { code := 0, decoder := initial p, reported := [⟨s.type, [(Reply.status s).text]⟩] } := by
  have size : (Reply.status s).line.length + 2 = (Reply.status s).text.length :=
    (Reply.length_text (.status s)).symm
  have first : (tokenizerCommand kMaxTokenCount (Reply.status s).text [] []).2.head? =
      some s.word := by
    have ends : (∃ more, s.rest ++ crlf = 32 :: more) ∨ ∃ more, s.rest ++ crlf = crlf ++ more := by
      rcases s.separated with empty | blank
      · exact Or.inr ⟨[], by rw [empty]; rfl⟩
      · obtain ⟨more, isRest⟩ := List.head?_eq_some_iff.mp blank
        exact Or.inl ⟨more ++ crlf, by rw [isRest]; rfl⟩
    have some' : 0 < kMaxTokenCount := by decide
    have split := tokenizerCommand_first s.isWord some' ends
    rw [← List.append_assoc] at split
    rw [Reply.text, Reply.block, List.append_nil]
    exact split
  have token : (tokenizerCommand kMaxTokenCount (Reply.status s).text [] []).2.getD 0 [] =
      s.word := by
    rw [List.getD_eq_getElem?_getD, ← List.head?_eq_getElem?, first]
    rfl
  have found := (firstWords_spec _ s.known).2
  rw [size, processFirstLine]
  dsimp only
  rw [data, dispatch, token, found]
  have chosen : processSingleFirstLine p ⟨received, total, (Reply.status s).text.length, none⟩ s.type =
      { code := 0, decoder := initial p, reported := [⟨s.type, [(Reply.status s).text]⟩] } := by
    rw [processSingleFirstLine, if_neg (not_not.mpr recved.symm)]
    dsimp only
    rw [data]
  rw [← chosen]
  have single := s.single
  cases type : s.type with
  | value => exact absurd type single.1
  | stat => exact absurd type single.2
  | _ => rfl

/-- The first line of a value, also when it is taken to be longer than it is. -/
theorem processFirstLine_value {v : Value} {received : Received} {total lineLen : Nat}
    {rest : List UInt8}
    (data : received.buffer.take lineLen = (Reply.value v).line ++ crlf ++ rest) :
    processFirstLine p ⟨received, total, lineLen, none⟩ =
      let total' := (lineLen + v.data.length + 2 + 5) % 2 ^ 32
      some (if p.bufMaxLen < total' then { code := -1, decoder := ⟨received, total', lineLen, none⟩ }
        else processGet p ⟨received, total', lineLen, some []⟩ []) := by
  have tokens : tokenizerCommand kMaxTokenCount ((Reply.value v).line ++ crlf ++ rest) [] [] =
      (4, v.words) :=
    tokenizerCommand_words v.areWords (List.cons_ne_nil _ _) (by decide : 0 + 4 ≤ 7) rest
  have chosen : (firstWords.find? fun entry => startsWith (v.words.getD 0 []) entry.1).map Prod.snd =
      some .value := (firstWords_spec (ascii "VALUE", .value) (by decide)).2
  have bytes : lexicalCastUInt32 (v.words.getD 3 []) = some v.data.length := by
    rw [← v.sized]
    exact v.bytes.cast (Nat.le_refl _)
  rw [processFirstLine]
  dsimp only
  rw [data, tokens, dispatch, chosen]
  dsimp only
  rw [processGetFirstLine, if_neg (not_not.mpr rfl), bytes]
  rfl

end FirstLine

/-! ## Waiting for the first line -/

section Opening

variable {p} {taken piece : List UInt8} {d : MemcachedRespDecoder}

/-- The data so far lies in the first buffer, and no line end was found in it. -/
structure Opening (p : InitParam) (taken : List UInt8) (d : MemcachedRespDecoder) : Prop where
  part : d.received.buffer.take taken.length = taken
  size : d.received.buffer.length = p.bufStartLen
  dataLen : d.received.bufferDataLen = taken.length
  recvedLen : d.received.recvedDataLen = taken.length
  msg : d.msg = none

theorem opening_initial (p : InitParam) : Opening p [] (initial p) :=
  ⟨rfl, length_malloc _ _, rfl, rfl, rfl⟩

/-- One exchange before the first line is known. -/
theorem deliver_opening (opening : Opening p taken d) (nonempty : piece ≠ [])
    (fits : (taken ++ piece).length ≤ p.bufStartLen) :
    ∃ buffer, writeAt d.received.buffer taken.length piece = some buffer ∧
      buffer.take (taken ++ piece).length = taken ++ piece ∧ buffer.length = p.bufStartLen ∧
      deliver p d piece =
        let received : Received :=
          ⟨buffer, (taken ++ piece).length, d.received.parsedDataLen, (taken ++ piece).length⟩
        let fed : Option Fed :=
          match received.searchFirstLine piece.length with
          | .tooLong => some { code := -1, decoder := { d with received } }
          | .more received _ => some { code := 0, decoder := { d with received } }
          | .line firstLineLen =>
              processFirstLine p ⟨received, d.reqTotalLen, firstLineLen, none⟩
        fed.bind fun fed => if fed.code < 0 then none else some (fed.decoder, fed.reported) := by
  have range := p.startRange
  have some' := List.length_pos_of_ne_nil nonempty
  have inside : taken.length + piece.length ≤ d.received.buffer.length := by
    rw [opening.size, ← List.length_append]
    exact fits
  obtain ⟨buffer, stored⟩ : ∃ buffer, writeAt d.received.buffer taken.length piece = some buffer :=
    ⟨_, writeAt_eq_some inside⟩
  refine ⟨buffer, stored, ?_, ?_, ?_⟩
  · rw [List.length_append, take_writeAt stored, opening.part]
  · rw [length_writeAt stored, opening.size]
  · have wrap : (taken.length + piece.length) % 2 ^ 32 = (taken ++ piece).length := by
      rw [← List.length_append, Nat.mod_eq_of_lt (by omega)]
    obtain ⟨received, reqTotalLen, firstLineLen, msg⟩ := d
    obtain rfl : msg = none := opening.msg
    have dataLen : received.bufferDataLen = taken.length := opening.dataLen
    have recvedLen : received.recvedDataLen = taken.length := opening.recvedLen
    rw [deliver]
    dsimp only
    rw [dataLen, stored, Option.bind_some, feed, if_neg (Nat.ne_of_gt some')]
    dsimp only [Received.add]
    rw [recvedLen, wrap]

/-- The line end is not there yet. -/
theorem deliver_more (opening : Opening p taken d) (nonempty : piece ≠ [])
    (fits : (taken ++ piece).length < p.bufStartLen)
    (open' : searchEol ((taken ++ piece).drop d.received.parsedDataLen) = none) :
    ∃ buffer d', writeAt d.received.buffer taken.length piece = some buffer ∧
      deliver p d piece = some (d', []) ∧ Opening p (taken ++ piece) d' ∧
      d'.received.buffer = buffer ∧ d'.received.parsedDataLen =
        if buffer.getD (d.received.parsedDataLen + piece.length) 0 = 13 then (taken ++ piece).length - 1
        else (taken ++ piece).length := by
  obtain ⟨buffer, stored, part, size, step⟩ := deliver_opening opening nonempty (Nat.le_of_lt fits)
  have search := searchFirstLine_more
    (r := ⟨buffer, (taken ++ piece).length, d.received.parsedDataLen, (taken ++ piece).length⟩)
    piece.length (size.symm ▸ fits) (by rwa [part])
  dsimp only at step
  rw [search] at step
  exact ⟨buffer, _, stored, step, ⟨part, size, rfl, rfl, opening.msg⟩, rfl, rfl⟩

/-- The line end is found. -/
theorem deliver_line (opening : Opening p taken d) (nonempty : piece ≠ [])
    (fits : (taken ++ piece).length ≤ p.bufStartLen) {eol : Nat}
    (found : searchEol ((taken ++ piece).drop d.received.parsedDataLen) = some eol) :
    ∃ buffer, buffer.take (taken ++ piece).length = taken ++ piece ∧ buffer.length = p.bufStartLen ∧
      deliver p d piece =
        (processFirstLine p
          ⟨⟨buffer, (taken ++ piece).length, d.received.parsedDataLen, (taken ++ piece).length⟩,
            d.reqTotalLen, d.received.parsedDataLen + eol + 2, none⟩).bind fun fed =>
          if fed.code < 0 then none else some (fed.decoder, fed.reported) := by
  obtain ⟨buffer, stored, part, size, step⟩ := deliver_opening opening nonempty fits
  have search := searchFirstLine_line
    (r := ⟨buffer, (taken ++ piece).length, d.received.parsedDataLen, (taken ++ piece).length⟩)
    piece.length (by rw [part]; exact found)
  dsimp only at step
  rw [search] at step
  exact ⟨buffer, part, size, step⟩

/-- The buffer is full. -/
theorem deliver_full (opening : Opening p taken d) (nonempty : piece ≠ [])
    (full : (taken ++ piece).length = p.bufStartLen)
    (open' : searchEol ((taken ++ piece).drop d.received.parsedDataLen) = none) :
    deliver p d piece = none := by
  obtain ⟨buffer, stored, part, size, step⟩ :=
    deliver_opening opening nonempty (Nat.le_of_eq full)
  have search : Received.searchFirstLine
      ⟨buffer, (taken ++ piece).length, d.received.parsedDataLen, (taken ++ piece).length⟩
      piece.length = .tooLong := by
    rw [Received.searchFirstLine]
    dsimp only
    rw [part, open']
    dsimp only
    rw [if_pos (Nat.le_of_eq (size.trans full.symm))]
  dsimp only at step
  rw [search] at step
  exact step

end Opening

/-! ## Collecting a value -/

section Value

variable {p} {taken piece : List UInt8} {d : MemcachedRespDecoder} {total : Nat}
variable {pieces : List (List UInt8)}

/-- The data of a value so far, with the given pieces in front of the buffer. -/
structure Loaded (total : Nat) (taken : List UInt8) (pieces : List (List UInt8))
    (d : MemcachedRespDecoder) : Prop where
  data : pieces.flatten ++ bufferData d = taken
  inside : d.received.bufferDataLen ≤ d.received.buffer.length
  recvedLen : d.received.recvedDataLen = taken.length
  total : d.reqTotalLen = total

/-- Between two exchanges there is room for the rest. -/
structure Holds (total : Nat) (taken : List UInt8) (d : MemcachedRespDecoder) : Prop where
  loaded : ∃ pieces, d.msg = some pieces ∧ Loaded total taken pieces d
  room : total ≤ taken.length + d.received.room
  open' : taken.length < total

theorem Loaded.dataLen_le (loaded : Loaded total taken pieces d) :
    d.received.bufferDataLen ≤ taken.length := by
  have size := congrArg List.length loaded.data
  rw [List.length_append, bufferData, List.length_take, Nat.min_eq_left loaded.inside] at size
  omega

/-- A complete value is reported, an incomplete one goes on, a longer one is an error. -/
theorem processGet_outcome (loaded : Loaded total taken pieces d) :
    (taken.length = total ∧ ∃ msg, msg.flatten = taken ∧ processGet p d pieces =
        { code := 0, decoder := initial p, reported := [⟨.value, msg⟩] }) ∨
      (∃ d', processGet p d pieces = { code := 0, decoder := d' } ∧ Holds total taken d') ∨
      total < taken.length ∧ ∃ d', processGet p d pieces = { code := -1, decoder := d' } := by
  have joined : (pieces ++ [bufferData d]).flatten = taken := by
    rw [List.flatten_append, List.flatten_singleton, loaded.data]
  unfold processGet
  rw [loaded.recvedLen, loaded.total]
  rcases Nat.lt_trichotomy taken.length total with less | same | more
  · refine Or.inr (Or.inl ?_)
    rw [if_neg (Nat.ne_of_lt less), if_pos less]
    by_cases small : d.received.buffer.length < total
    · rw [if_pos small]
      refine ⟨_, rfl, ⟨_, rfl, ?_, Nat.zero_le _, loaded.recvedLen, rfl⟩, ?_, less⟩
      · exact (List.append_nil _).trans joined
      · dsimp only [Received.room]
        rw [length_malloc]
        omega
    · rw [if_neg small]
      refine ⟨_, rfl, ⟨_, rfl, loaded.data, loaded.inside, loaded.recvedLen, rfl⟩, ?_, less⟩
      have filled := loaded.dataLen_le
      dsimp only [Received.room]
      omega
  · refine Or.inl ⟨same, _, joined, ?_⟩
    rw [if_pos same]
  · refine Or.inr (Or.inr ⟨more, ?_⟩)
    rw [if_neg (Nat.ne_of_gt more), if_neg (Nat.lt_asymm more)]
    exact ⟨_, rfl⟩

/-- One exchange of the data of a value. -/
theorem deliver_data (holds : Holds total taken d) (nonempty : piece ≠ [])
    (fits : piece.length ≤ d.received.room) (range : (taken ++ piece).length < 2 ^ 32) :
    ((taken ++ piece).length = total ∧ ∃ msg, msg.flatten = taken ++ piece ∧
        deliver p d piece = some (initial p, [⟨.value, msg⟩])) ∨
      (∃ d', deliver p d piece = some (d', []) ∧ Holds total (taken ++ piece) d') ∨
      total < (taken ++ piece).length ∧ deliver p d piece = none := by
  obtain ⟨⟨pieces, msg, loaded⟩, -, -⟩ := holds
  have filled := loaded.dataLen_le
  have some' := List.length_pos_of_ne_nil nonempty
  have inside : d.received.bufferDataLen + piece.length ≤ d.received.buffer.length := by
    have known := loaded.inside
    unfold Received.room at fits
    omega
  obtain ⟨buffer, stored⟩ : ∃ buffer,
      writeAt d.received.buffer d.received.bufferDataLen piece = some buffer :=
    ⟨_, writeAt_eq_some inside⟩
  rw [List.length_append] at range
  have wrapData : (d.received.bufferDataLen + piece.length) % 2 ^ 32 =
      d.received.bufferDataLen + piece.length := Nat.mod_eq_of_lt (by omega)
  have wrapRecved : (d.received.recvedDataLen + piece.length) % 2 ^ 32 =
      taken.length + piece.length := by
    rw [loaded.recvedLen, Nat.mod_eq_of_lt range]
  obtain ⟨received, reqTotalLen, firstLineLen, msg'⟩ := d
  obtain rfl : msg' = some pieces := msg
  dsimp only at stored wrapData wrapRecved inside
  have loaded' : Loaded total (taken ++ piece) pieces ⟨⟨buffer, received.bufferDataLen + piece.length,
      received.parsedDataLen, taken.length + piece.length⟩, reqTotalLen, firstLineLen, some pieces⟩ := by
    refine ⟨?_, ?_, List.length_append.symm, loaded.total⟩
    · have known := loaded.data
      dsimp only [bufferData] at known ⊢
      rw [take_writeAt stored, ← List.append_assoc, known]
    · dsimp only
      rwa [length_writeAt stored]
  have step : deliver p ⟨received, reqTotalLen, firstLineLen, some pieces⟩ piece =
      (some (processGet p ⟨⟨buffer, received.bufferDataLen + piece.length, received.parsedDataLen,
        taken.length + piece.length⟩, reqTotalLen, firstLineLen, some pieces⟩ pieces)).bind fun fed =>
          if fed.code < 0 then none else some (fed.decoder, fed.reported) := by
    rw [deliver]
    dsimp only
    rw [stored, Option.bind_some, feed, if_neg (Nat.ne_of_gt some')]
    dsimp only [Received.add]
    rw [wrapData, wrapRecved]
  rw [step]
  rcases processGet_outcome (p := p) loaded' with
    ⟨same, msg, joined, done⟩ | ⟨d', done, holds'⟩ | ⟨more, d', done⟩
  · rw [done]
    exact Or.inl ⟨same, msg, joined, rfl⟩
  · rw [done]
    exact Or.inr (Or.inl ⟨d', rfl, holds'⟩)
  · rw [done]
    exact Or.inr (Or.inr ⟨more, rfl⟩)

end Value

/-! ## Whole replies -/

section Serves

variable {p} {r : Reply} {taken piece : List UInt8} {d d' : MemcachedRespDecoder}
variable {rest : List (List UInt8)}

/-- Pieces that follow the data so far are accepted, and the reply is reported just at its end. -/
structure Serves (p : InitParam) (r : Reply) (taken : List UInt8) (d : MemcachedRespDecoder)
    (pieces : List (List UInt8)) : Prop where
  whole : taken ++ pieces.flatten = r.text → ∃ m, (decoder p).Emits d pieces [m] ∧ r.Answers m
  part : taken ++ pieces.flatten ≠ r.text →
    ∃ d', (decoder p).feedAll d pieces = some (d', []) ∧ 0 < d'.received.room

theorem serves_nil (open' : taken.length < r.text.length) (room : 0 < d.received.room) :
    Serves p r taken d [] := by
  refine ⟨fun whole => ?_, fun _ => ⟨d, rfl, room⟩⟩
  rw [List.flatten_nil, List.append_nil] at whole
  exact absurd (congrArg List.length whole) (Nat.ne_of_lt open')

theorem serves_cons (step : deliver p d piece = some (d', []))
    (later : Serves p r (taken ++ piece) d' rest) : Serves p r taken d (piece :: rest) := by
  have regroup : taken ++ (piece :: rest).flatten = taken ++ piece ++ rest.flatten := by
    rw [List.flatten_cons, List.append_assoc]
  refine ⟨fun whole => ?_, fun part => ?_⟩
  · obtain ⟨m, emits, answers⟩ := later.whole (regroup ▸ whole)
    exact ⟨m, (Decoder.emits_cons_nil step).mpr emits, answers⟩
  · obtain ⟨d'', done, room⟩ := later.part (regroup ▸ part)
    refine ⟨d'', ?_, room⟩
    rw [Decoder.feedAll_cons _ _ step, done]
    rfl

theorem serves_last {m : MemcachedResp} (step : deliver p d piece = some (d', [m]))
    (whole : taken ++ piece = r.text) (answers : r.Answers m)
    (part : taken ++ (piece :: rest).flatten <+: r.text)
    (within : (decoder p).Within d (piece :: rest)) : Serves p r taken d (piece :: rest) := by
  rw [List.flatten_cons, ← List.append_assoc, whole] at part
  have nothing : rest.flatten = [] := by
    have shorter := part.length_le
    rw [List.length_append] at shorter
    exact List.length_eq_zero_iff.mp (by omega)
  obtain rfl := (within.tail step).eq_nil_of_flatten nothing
  refine ⟨fun _ => ⟨m, (Decoder.emits_cons_one step).mpr (Decoder.emits_nil.mpr rfl), answers⟩,
    fun other => ?_⟩
  rw [List.flatten_singleton] at other
  exact absurd whole other

theorem prefix_first (part : taken ++ (piece :: rest).flatten <+: r.text) :
    taken ++ piece <+: r.text := by
  rw [List.flatten_cons, ← List.append_assoc] at part
  exact (List.prefix_append _ _).trans part

/-- The data of a value is collected to its end. -/
theorem serves_data {v : Value} (isValue : r = .value v) (range : r.text.length < 2 ^ 32)
    {pieces : List (List UInt8)} (holds : Holds r.text.length taken d)
    (part : taken ++ pieces.flatten <+: r.text) (within : (decoder p).Within d pieces) :
    Serves p r taken d pieces := by
  induction pieces generalizing taken d with
  | nil =>
      have open' := holds.open'
      have room := holds.room
      exact serves_nil open' (by omega)
  | cons piece rest ih =>
      have first := prefix_first part
      have bound := first.length_le
      rcases deliver_data (p := p) holds within.1.1 (within.1.2 _ rfl) (by omega) with
        ⟨full, msg, joined, done⟩ | ⟨d', done, holds'⟩ | ⟨more, -⟩
      · have whole := first.eq_of_length full
        refine serves_last done whole ⟨?_, joined.trans whole⟩ part within
        rw [isValue]
        rfl
      · rw [List.flatten_cons, ← List.append_assoc] at part
        exact serves_cons done (ih holds' part (within.tail done))
      · omega

/-- The first line is complete with this piece. -/
theorem serves_line (fitting : Fitting p r) (opening : Opening p taken d)
    (before : d.received.parsedDataLen ≤ r.line.length)
    (part : taken ++ (piece :: rest).flatten <+: r.text)
    (within : (decoder p).Within d (piece :: rest)) (fits : (taken ++ piece).length ≤ p.bufStartLen)
    (long : r.line.length + 2 ≤ (taken ++ piece).length) : Serves p r taken d (piece :: rest) := by
  have first := prefix_first part
  have range := p.maxRange
  have total := fitting.total
  have size := r.length_text
  -- the search starts before the line end, so it finds it
  have found : searchEol ((taken ++ piece).drop d.received.parsedDataLen) =
      some (r.line.length - d.received.parsedDataLen) :=
    searchEol_drop (searchEol_whole r.searchEol_text first long) before
  obtain ⟨buffer, data, bufferLen, step⟩ := deliver_line opening within.1.1 fits found
  rw [Nat.add_sub_cancel' before] at step
  cases isReply : r with
  | status s =>
      rw [← isReply]
      have whole : taken ++ piece = r.text := by
        refine first.eq_of_length_le ?_
        rw [size, isReply]
        rwa [isReply] at long
      rw [whole, isReply] at step data
      have single : processFirstLine p ⟨⟨buffer, (Reply.status s).text.length,
          d.received.parsedDataLen, (Reply.status s).text.length⟩, d.reqTotalLen,
          (Reply.status s).line.length + 2, none⟩ = _ := processFirstLine_status rfl data
      rw [single] at step
      refine serves_last step whole ⟨?_, ?_⟩ part within
      · rw [isReply]
        rfl
      · rw [isReply]
        exact List.flatten_singleton
  | value v =>
      rw [← isReply]
      have line : buffer.take (r.line.length + 2) = (Reply.value v).line ++ crlf ++ [] := by
        have shorter : buffer.take (r.line.length + 2) =
            (taken ++ piece).take (r.line.length + 2) := by
          rw [← data, List.take_take, Nat.min_eq_left long]
        obtain ⟨more, isText⟩ := first
        have extended : (taken ++ piece ++ more).take (r.line.length + 2) =
            (taken ++ piece).take (r.line.length + 2) := List.take_append_of_le_length long
        rw [shorter, ← extended, isText, List.append_nil, ← isReply]
        exact List.take_left' List.length_append
      have blockLen : r.block.length = v.data.length + 2 + 5 := by
        rw [isReply, v.length_block]
      have wrap : (r.line.length + 2 + v.data.length + 2 + 5) % 2 ^ 32 = r.text.length := by
        rw [Nat.mod_eq_of_lt (by omega), size, blockLen]
        omega
      have opened : processFirstLine p ⟨⟨buffer, (taken ++ piece).length,
          d.received.parsedDataLen, (taken ++ piece).length⟩, d.reqTotalLen,
          r.line.length + 2, none⟩ = _ := processFirstLine_value line
      dsimp only at opened
      rw [wrap, if_neg (Nat.not_lt.mpr total)] at opened
      rw [opened] at step
      have loaded : Loaded r.text.length (taken ++ piece) [] ⟨⟨buffer, (taken ++ piece).length,
          d.received.parsedDataLen, (taken ++ piece).length⟩, r.text.length, r.line.length + 2,
          some []⟩ := by
        refine ⟨data, ?_, rfl, rfl⟩
        dsimp only
        rwa [bufferLen]
      rcases processGet_outcome (p := p) loaded with
        ⟨full, msg, joined, done⟩ | ⟨d', done, holds⟩ | ⟨more, -⟩
      · rw [done] at step
        have whole := first.eq_of_length full
        refine serves_last step whole ⟨?_, joined.trans whole⟩ part within
        rw [isReply]
        rfl
      · rw [done] at step
        refine serves_cons step (serves_data isReply (by omega) holds ?_ (within.tail step))
        rwa [List.flatten_cons, ← List.append_assoc] at part
      · have bound := first.length_le
        omega

/-- Data that ends before the first line does. -/
theorem searchEol_open {k : Nat} (part : taken <+: r.text) (short : taken.length < r.line.length + 2)
    (before : k ≤ r.line.length) : searchEol (taken.drop k) = none := by
  refine searchEol_part (searchEol_drop r.searchEol_text before) (part.drop k) ?_
  rw [List.length_drop]
  omega

/-- Replies are served when no piece ends inside the line end. -/
theorem serves_opening (fitting : Fitting p r) {pieces : List (List UInt8)}
    (opening : Opening p taken d) (before : d.received.parsedDataLen ≤ r.line.length)
    (short : taken.length ≤ r.line.length) (part : taken ++ pieces.flatten <+: r.text)
    (within : (decoder p).Within d pieces) (cuts : r.eolCut ∉ cutsFrom taken.length pieces) :
    Serves p r taken d pieces := by
  have line := fitting.line
  induction pieces generalizing taken d with
  | nil =>
      have size := r.length_text
      refine serves_nil (by omega) ?_
      rw [Received.room, opening.size, opening.dataLen]
      omega
  | cons piece rest ih =>
      have first := prefix_first part
      have fits : (taken ++ piece).length ≤ p.bufStartLen := by
        have room := within.1.2 _ rfl
        rw [Received.room, opening.size, opening.dataLen] at room
        rw [List.length_append]
        omega
      rcases Nat.lt_or_ge (taken ++ piece).length (r.line.length + 2) with less | long
      · obtain ⟨notHere, notLater⟩ := not_or.mp (mt List.mem_cons.mpr cuts)
        rw [← List.length_append] at notHere notLater
        have shorter : (taken ++ piece).length ≤ r.line.length := by
          rw [Reply.eolCut] at notHere
          omega
        obtain ⟨buffer, d', -, step, opening', -, parsed⟩ := deliver_more opening within.1.1
          (by omega) (searchEol_open first less before)
        have before' : d'.received.parsedDataLen ≤ r.line.length := by
          rw [parsed]
          split <;> omega
        rw [List.flatten_cons, ← List.append_assoc] at part
        exact serves_cons step
          (ih opening' before' shorter part (within.tail step) notLater)
      · exact serves_line fitting opening before part within fits long

end Serves

/-! ## A missed line end -/

section Missed

variable {p} {r : Reply} {taken piece : List UInt8} {d d' : MemcachedRespDecoder}
variable {rest pieces : List (List UInt8)}

/-- The reply does not come out of the pieces. -/
def Misses (p : InitParam) (r : Reply) (d : MemcachedRespDecoder) (pieces : List (List UInt8)) :
    Prop :=
  ∀ m, (decoder p).Emits d pieces [m] → ¬ r.Answers m

theorem misses_nil : Misses p r d [] :=
  fun _ emits => absurd (Decoder.emits_nil.mp emits) (List.cons_ne_nil _ _)

theorem misses_cons (step : deliver p d piece = some (d', [])) (later : Misses p r d' rest) :
    Misses p r d (piece :: rest) :=
  fun m emits => later m ((Decoder.emits_cons_nil step).mp emits)

theorem misses_none (step : deliver p d piece = none) : Misses p r d (piece :: rest) :=
  fun _ emits => absurd emits (Decoder.not_emits step)

/-- A message of another length. -/
theorem misses_wrong {m : MemcachedResp} (step : deliver p d piece = some (d', [m]))
    (other : m.msg.flatten.length ≠ r.text.length) : Misses p r d (piece :: rest) := by
  intro m' emits answers
  obtain ⟨later, joined, -⟩ := (Decoder.emits_cons_iff step).mp emits
  obtain ⟨rfl, -⟩ := List.cons.inj joined
  exact other (congrArg List.length answers.2)

/-- A value that is collected up to another length. -/
theorem misses_data {total : Nat} (range : r.text.length < 2 ^ 32) (other : total ≠ r.text.length)
    (holds : Holds total taken d) (part : taken ++ pieces.flatten <+: r.text)
    (within : (decoder p).Within d pieces) : Misses p r d pieces := by
  induction pieces generalizing taken d with
  | nil => exact misses_nil
  | cons piece rest ih =>
      have first := prefix_first part
      have bound := first.length_le
      rcases deliver_data (p := p) holds within.1.1 (within.1.2 _ rfl) (by omega) with
        ⟨full, msg, joined, done⟩ | ⟨d', done, holds'⟩ | ⟨-, failed⟩
      · refine misses_wrong done ?_
        rwa [joined, full]
      · rw [List.flatten_cons, ← List.append_assoc] at part
        exact misses_cons done (ih holds' part (within.tail done))
      · exact misses_none failed

/-- Behind the line end another one is taken for it. -/
theorem misses_line (fitting : Fitting p r) (opening : Opening p taken d)
    (behind : r.eolCut ≤ d.received.parsedDataLen)
    (part : taken ++ (piece :: rest).flatten <+: r.text)
    (within : (decoder p).Within d (piece :: rest)) (fits : (taken ++ piece).length ≤ p.bufStartLen)
    {eol : Nat} (found : searchEol ((taken ++ piece).drop d.received.parsedDataLen) = some eol) :
    Misses p r d (piece :: rest) := by
  have first := prefix_first part
  have bound := first.length_le
  have range := p.maxRange
  have total := fitting.total
  have size := r.length_text
  have inside := searchEol_le found
  rw [Reply.eolCut] at behind
  rw [List.length_drop] at inside
  obtain ⟨buffer, data, bufferLen, step⟩ := deliver_line opening within.1.1 fits found
  have enough : d.received.parsedDataLen + eol + 2 ≤ (taken ++ piece).length := by omega
  have later : r.line.length + 3 ≤ d.received.parsedDataLen + eol + 2 := by omega
  generalize d.received.parsedDataLen + eol + 2 = lineLen at *
  cases isReply : r with
  | status s =>
      have blockLen : r.block.length = 0 := isReply ▸ rfl
      omega
  | value v =>
      rw [← isReply]
      have blockLen : r.block.length = v.data.length + 2 + 5 := by
        rw [isReply, v.length_block]
      obtain ⟨more, line⟩ : r.line ++ crlf <+: buffer.take lineLen := by
        have front : buffer.take lineLen <+: r.text := by
          have shorter : buffer.take lineLen = (taken ++ piece).take lineLen := by
            rw [← data, List.take_take, Nat.min_eq_left enough]
          rw [shorter]
          exact (List.take_prefix _ _).trans first
        refine List.prefix_of_prefix_length_le (List.prefix_append _ r.block) front ?_
        rw [List.length_append, List.length_take]
        exact Nat.le_min.mpr ⟨by show r.line.length + 2 ≤ _; omega, by
          show r.line.length + 2 ≤ _; omega⟩
      rw [isReply] at line
      have opened : processFirstLine p ⟨⟨buffer, (taken ++ piece).length,
          d.received.parsedDataLen, (taken ++ piece).length⟩, d.reqTotalLen, lineLen, none⟩ = _ :=
        processFirstLine_value line.symm
      dsimp only at opened
      have other : (lineLen + v.data.length + 2 + 5) % 2 ^ 32 ≠ r.text.length := by omega
      generalize (lineLen + v.data.length + 2 + 5) % 2 ^ 32 = total' at opened other
      rw [opened] at step
      by_cases large : p.bufMaxLen < total'
      · rw [if_pos large] at step
        exact misses_none step
      · rw [if_neg large] at step
        have loaded : Loaded total' (taken ++ piece) [] ⟨⟨buffer, (taken ++ piece).length,
            d.received.parsedDataLen, (taken ++ piece).length⟩, total', lineLen, some []⟩ := by
          refine ⟨data, ?_, rfl, rfl⟩
          dsimp only
          rwa [bufferLen]
        rcases processGet_outcome (p := p) loaded with
          ⟨full, msg, joined, done⟩ | ⟨d', done, holds⟩ | ⟨-, d', done⟩
        · rw [done] at step
          refine misses_wrong step ?_
          rwa [joined, full]
        · rw [done] at step
          refine misses_cons step (misses_data (by omega) other holds ?_ (within.tail step))
          rwa [List.flatten_cons, ← List.append_assoc] at part
        · rw [done] at step
          exact misses_none step

/-- Once the search is behind the line end, the reply is missed. -/
theorem misses_behind (fitting : Fitting p r) (opening : Opening p taken d)
    (behind : r.eolCut ≤ d.received.parsedDataLen) (long : r.eolCut ≤ taken.length)
    (part : taken ++ pieces.flatten <+: r.text) (within : (decoder p).Within d pieces) :
    Misses p r d pieces := by
  induction pieces generalizing taken d with
  | nil => exact misses_nil
  | cons piece rest ih =>
      have some' := List.length_pos_of_ne_nil within.1.1
      have joined : (taken ++ piece).length = taken.length + piece.length := List.length_append
      have fits : (taken ++ piece).length ≤ p.bufStartLen := by
        have room := within.1.2 _ rfl
        have line := fitting.line
        rw [Received.room, opening.size, opening.dataLen] at room
        omega
      cases found : searchEol ((taken ++ piece).drop d.received.parsedDataLen) with
      | some eol => exact misses_line fitting opening behind part within fits found
      | none =>
          rcases Nat.lt_or_eq_of_le fits with fewer | full
          · obtain ⟨buffer, d', -, step, opening', -, parsed⟩ :=
              deliver_more opening within.1.1 fewer found
            have behind' : r.eolCut ≤ d'.received.parsedDataLen := by
              rw [parsed]
              split <;> omega
            rw [List.flatten_cons, ← List.append_assoc] at part
            exact misses_cons step
              (ih opening' behind' (by omega) part (within.tail step))
          · exact misses_none (deliver_full opening within.1.1 full found)

/-- With zeros behind the data, a cut inside the line end makes the search go on behind it. -/
theorem misses_cut (fitting : Fitting p r) (opening : Opening p taken d)
    (parsed : d.received.parsedDataLen = taken.length)
    (zeros : ∀ c ∈ d.received.buffer.drop taken.length, c = 0)
    (short : taken.length ≤ r.line.length) (part : taken ++ pieces.flatten <+: r.text)
    (within : (decoder p).Within d pieces) (cut : r.eolCut ∈ cutsFrom taken.length pieces) :
    Misses p r d pieces := by
  have line := fitting.line
  induction pieces generalizing taken d with
  | nil => cases cut
  | cons piece rest ih =>
      have joined : (taken ++ piece).length = taken.length + piece.length := List.length_append
      have first := prefix_first part
      have upTo : (taken ++ piece).length ≤ r.eolCut := by
        rcases List.mem_cons.mp cut with here | later
        · omega
        · have before := le_of_mem_cutsFrom later
          omega
      have less : (taken ++ piece).length < r.line.length + 2 := by
        rw [Reply.eolCut] at upTo
        omega
      obtain ⟨buffer, d', stored, step, opening', isBuffer, parsed'⟩ := deliver_more opening
        within.1.1 (by omega) (searchEol_open first less (by omega))
      have zeros' : ∀ c ∈ d'.received.buffer.drop (taken ++ piece).length, c = 0 := by
        rw [isBuffer, joined, writeAt_drop stored (Nat.le_refl _), ← List.drop_drop]
        exact fun c member => zeros c (List.mem_of_mem_drop member)
      have noReturn : buffer.getD (d.received.parsedDataLen + piece.length) 0 ≠ 13 := by
        rw [parsed, ← joined, ← isBuffer, List.getD_eq_getElem?_getD]
        have isHead : d'.received.buffer[(taken ++ piece).length]? =
            (d'.received.buffer.drop (taken ++ piece).length).head? := by
          rw [List.head?_drop]
        rw [isHead]
        cases empty : (d'.received.buffer.drop (taken ++ piece).length).head? with
        | none => decide
        | some c =>
            rw [Option.getD_some, zeros' c (List.mem_of_mem_head? empty)]
            decide
      rw [if_neg noReturn] at parsed'
      rw [List.flatten_cons, ← List.append_assoc] at part
      refine misses_cons step ?_
      rcases Nat.lt_or_eq_of_le upTo with before | here
      · have later : r.eolCut ∈ cutsFrom (taken ++ piece).length rest := by
          rw [joined]
          rcases List.mem_cons.mp cut with same | later
          · omega
          · exact later
        rw [Reply.eolCut] at before
        exact ih opening' parsed' zeros' (by omega) part (within.tail step) later
      · exact misses_behind fitting opening' (by omega) (by omega) part (within.tail step)

end Missed

/-! ## Segmentation -/

section Segments

variable {p} {r : Reply} {pieces : List (List UInt8)}

theorem serves_initial (fitting : Fitting p r) (part : pieces.flatten <+: r.text)
    (within : (decoder p).Within (initial p) pieces) (uncut : r.eolCut ∉ cutsFrom 0 pieces) :
    Serves p r [] (initial p) pieces :=
  serves_opening fitting (opening_initial p) (Nat.zero_le _) (Nat.zero_le _) part within uncut

theorem misses_initial (fitting : Fitting p r) (zeros : ∀ k, p.junk k = 0)
    (part : pieces.flatten <+: r.text) (within : (decoder p).Within (initial p) pieces)
    (cut : r.eolCut ∈ cutsFrom 0 pieces) : Misses p r (initial p) pieces := by
  refine misses_cut fitting (opening_initial p) rfl ?_ (Nat.zero_le _) part within cut
  intro c member
  obtain ⟨k, -, rfl⟩ := List.mem_map.mp (List.mem_of_mem_drop member)
  exact zeros k

/-- A reply comes out of its pieces, whatever fresh memory holds, just when no piece ends between the
two bytes of the first line's end. Up to its last byte a reply that is not cut there waits for more
data and offers room for it. -/
theorem decodes_iff_uncut (fitting : Fitting p r) :
    (∀ pieces, pieces.flatten = r.text →
      (∀ junk, (decoder { p with junk }).Within (initial { p with junk }) pieces) →
      ((∀ junk, Decodes { p with junk } r pieces) ↔ r.eolCut ∉ cutsFrom 0 pieces)) ∧
    ∀ pieces junk, pieces.flatten <+: r.text → pieces.flatten ≠ r.text →
      (decoder { p with junk }).Within (initial { p with junk }) pieces →
      r.eolCut ∉ cutsFrom 0 pieces → Waits { p with junk } pieces := by
  have fitting' : ∀ junk, Fitting { p with junk } r := fun _ => ⟨fitting.line, fitting.total⟩
  constructor
  · intro pieces stream within
    have part : pieces.flatten <+: r.text := stream ▸ List.prefix_refl _
    constructor
    · intro decodes cut
      obtain ⟨m, emits, answers⟩ := decodes fun _ => 0
      exact misses_initial (fitting' _) (fun _ => rfl) part (within _) cut m emits answers
    · intro uncut junk
      exact (serves_initial (fitting' junk) part (within junk) uncut).whole stream
  · intro pieces junk part other within uncut
    exact (serves_initial (fitting' junk) part within uncut).part other

/-- Buffers of 64 bytes that start with zeros. -/
def smallParam : InitParam := ⟨64, 64, fun _ => 0, small_range, small_range⟩

/-- The reply `STORED`. -/
def stored : Reply :=
  .status ⟨ascii "STORED", .stored, by decide, by decide, [], Or.inl rfl, by decide⟩

/-- The reply in one piece, and its first half. -/
theorem decodes_iff_uncut_stored :
    (∀ junk, Decodes { smallParam with junk } stored [stored.text]) ∧
      Waits smallParam [ascii "STO", ascii "RED"] := by
  have fitting : Fitting smallParam stored := ⟨by decide, by decide⟩
  refine ⟨((decodes_iff_uncut fitting).1 [stored.text] List.flatten_singleton ?_).mpr (by decide),
    (decodes_iff_uncut fitting).2 [ascii "STO", ascii "RED"] (fun _ => 0) ⟨crlf, by decide⟩
      (by decide) (by decide) (by decide)⟩
  intro junk
  refine ⟨⟨by decide, ?_⟩, fun _ _ _ => trivial⟩
  rintro n offered
  obtain rfl := Option.some.inj offered
  have room : (initial { smallParam with junk }).received.room = 64 := length_malloc junk 64
  rw [room]
  decide

/-- A cut between carriage return and line feed. -/
theorem stored_not_decoded :
    Fitting smallParam stored ∧ [ascii "STORED" ++ [13], [10]].flatten = stored.text ∧
      (decoder smallParam).Within (initial smallParam) [ascii "STORED" ++ [13], [10]] ∧
      ¬ Decodes smallParam stored [ascii "STORED" ++ [13], [10]] := by
  refine ⟨⟨by decide, by decide⟩, by decide, by decide, ?_⟩
  rintro ⟨m, ⟨d, done⟩, -⟩
  have ran : ((decoder smallParam).feedAll (initial smallParam) [ascii "STORED" ++ [13], [10]]).map
      Prod.snd = some [] := by
    decide
  rw [done] at ran
  cases ran

end Segments

end MlsImgSearch.Blitz2.MemcachedResp
