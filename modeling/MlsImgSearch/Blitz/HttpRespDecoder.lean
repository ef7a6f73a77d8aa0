import MlsImgSearch.Blitz.HttpCommon

/-!
# The decoder of HTTP responses

A copy of the decoder of requests, with chunked bodies. The status line, the
header lines and the chunks go through one buffer that grows between chunks, and
the chunk data is appended to the body. As in the decoder of requests nothing
sets the state `kHeader`; a body of known length is read as it should be.
-/

namespace MlsImgSearch.Blitz.HttpRespDecoder

open MlsImgSearch.Lib.Bytes
open MlsImgSearch.Lib.Segmentation
open MlsImgSearch.Blitz.HttpCommon

/-! ## Data -/

structure HttpResponse where
  code : Int := 200
  versionMinor : Nat := 1
  contentLength : Int := 0
  params : List (List UInt8 × List UInt8) := []
  content : Option (List UInt8) := none
  deriving DecidableEq

inductive Status where
  | firstLine
  | header
  | body
  | chunkSize
  | chunkData
  | chunkTrailer
  deriving DecidableEq

/-- `buf_capacity_` is the length of the block of `lines`; `body` is `none` for a null pointer. -/
structure RespDecoder where
  response : HttpResponse := {}
  status : Status := .firstLine
  lines : LineBuffer
  body : Option (List UInt8) := none
  bodyLength : Nat := 0
  bodyRead : Nat := 0
  chunkSize : Int := 0
  chunkLeft : Int := 0
  deriving DecidableEq

/-- `Reset` keeps the buffers. -/
def RespDecoder.reset (s : RespDecoder) : RespDecoder :=
  { lines := { block := s.lines.block }, body := s.body }

/-- A position in the block `buf_` or in the block `body_`. -/
inductive Place where
  | buf (off : Nat)
  | body (off : Nat)
  deriving DecidableEq

/-- The result of an `int` computation; `none` is an overflow. -/
def checked (n : Int) : Option Int :=
  if -(2 ^ 31) ≤ n ∧ n < 2 ^ 31 then some n else none

/-! ## Chunks -/

/-- Room for `length` more bytes of the body. -/
def reserve (junk : Nat → UInt8) (s : RespDecoder) (length : Nat) : Option RespDecoder :=
  match s.body with
  | none =>
      (checked (length * 4)).map fun n =>
        { s with body := some (malloc junk n.toNat), bodyLength := n.toNat, bodyRead := 0 }
  | some block =>
      if s.bodyLength < s.bodyRead + length then
        (checked (s.bodyLength + length + 4096)).bind fun n =>
          (writeAt (malloc junk n.toNat) 0 (block.take s.bodyRead)).map fun block =>
            { s with body := some block, bodyLength := n.toNat }
      else some s

/-- `AppendBody`; a negative length is undefined behaviour. -/
def appendBody (junk : Nat → UInt8) (s : RespDecoder) (data : List UInt8) : Option RespDecoder :=
  (reserve junk s data.length).bind fun s =>
    (s.body.bind fun block => writeAt block s.bodyRead data).map fun block =>
      { s with body := some block, bodyRead := s.bodyRead + data.length }

/-- The end of a chunk; `next` reads the size of the next one. With less than two bytes the last
byte of the buffer is kept. -/
def readChunkTrailer (next : RespDecoder → Option (Int × RespDecoder)) (s : RespDecoder) :
    Option (Int × RespDecoder) :=
  let left := s.lines.length - s.lines.parsePos
  if 2 ≤ left then
    if s.chunkSize = 0 then some (if 2 < left then -1 else 1, s)
    else
      next { s with
        status := .chunkSize
        lines := { s.lines with
          parsePos := s.lines.parsePos + 2, lineStart := s.lines.parsePos + 2 } }
  else if s.lines.length = 0 then none
  else
    (s.lines.block[s.lines.length - 1]?).bind fun last =>
      (writeAt s.lines.block 0 [last]).map fun block =>
        (0, { s with lines := { block := block, length := 1 } })

/-- The data of a chunk, as far as it is in the buffer. -/
def readChunkData (junk : Nat → UInt8) (next : RespDecoder → Option (Int × RespDecoder))
    (s : RespDecoder) : Option (Int × RespDecoder) :=
  if s.chunkLeft < 0 then none
  else if s.chunkLeft ≤ s.lines.unread.length then
    (appendBody junk s (s.lines.unread.take s.chunkLeft.toNat)).bind fun s =>
      readChunkTrailer next { s with
        status := .chunkTrailer, chunkLeft := 0
        lines := { s.lines with parsePos := s.lines.parsePos + s.chunkLeft.toNat } }
  else
    (appendBody junk s s.lines.unread).map fun s' =>
      (0, { s' with
        chunkLeft := s.chunkLeft - s.lines.unread.length, lines := { block := s.lines.block } })

/-- The line with the size of a chunk, and the chunks that follow in the buffer, at most `fuel` of
them. -/
def readChunkSize (junk : Nat → UInt8) : Nat → RespDecoder → Option (Int × RespDecoder)
  | 0, s => some (0, s)
  | fuel + 1, s =>
      match s.lines.searchEol with
      | (lines, none) => some (0, { s with lines := lines })
      | (lines, some _) =>
          let size := toInt32 (strtol 16 (lines.block.drop lines.lineStart))
          readChunkData junk (readChunkSize junk fuel) { s with
            lines := lines, status := .chunkData, chunkSize := size, chunkLeft := size }

/-- A chunk takes two bytes or more, so that this fuel is enough. -/
def chunkFuel (s : RespDecoder) : Nat := s.lines.length + 1

/-! ## Parsing -/

def readBody (s : RespDecoder) : Int :=
  if s.bodyRead = s.bodyLength then 1 else if s.bodyLength < s.bodyRead then -1 else 0

/-- "Transfer-Encoding" -/
def transferEncodingName : List UInt8 :=
  [84, 114, 97, 110, 115, 102, 101, 114, 45, 69, 110, 99, 111, 100, 105, 110, 103]

theorem transferEncodingName_ne_nil : transferEncodingName ≠ [] := by decide

theorem transferEncodingName_plain :
    ∀ c ∈ transferEncodingName, c ≠ 58 ∧ c ≠ 32 ∧ c ≠ 13 ∧ c ≠ 0 := by decide +kernel

/-- "Content-Length" -/
def contentLengthName : List UInt8 :=
  [67, 111, 110, 116, 101, 110, 116, 45, 76, 101, 110, 103, 116, 104]

/-- "chunked" -/
def chunkedMark : List UInt8 := [99, 104, 117, 110, 107, 101, 100]

/-- `strcasecmp(str, word) == 0`. -/
def equalsNoCase (str word : List UInt8) : Bool := str.map toLower == word.map toLower

/-- `SetHeader`. -/
def applyHeader (response : HttpResponse) (name value : List UInt8) : HttpResponse :=
  { response with params := setParam response.params name value }

def isChunked (response : HttpResponse) : Bool :=
  (getHeader response.params transferEncodingName).any (equalsNoCase · chunkedMark)

/-- The length that the header gives, if any. -/
def withLength (response : HttpResponse) : HttpResponse :=
  match getHeader response.params contentLengthName with
  | some str => { response with contentLength := atoi str }
  | none => response

/-- The blank line. `none` is the assertion that the rest of the buffer belongs to the body. -/
def endHeader (junk : Nat → UInt8) (s : RespDecoder) : Option (Int × RespDecoder) :=
  if isChunked s.response then readChunkSize junk (chunkFuel s) { s with status := .chunkSize }
  else
    let s := { s with response := withLength s.response }
    if 0 < s.response.contentLength then
      let bodyLength := s.response.contentLength.toNat
      let left := s.lines.unread
      if bodyLength < left.length then none
      else
        (writeAt (malloc junk bodyLength) 0 left).map fun body =>
          let s := { s with
            status := .body, body := some body, bodyLength := bodyLength, bodyRead := left.length }
          (readBody s, s)
    else some (1, s)

/-- Each turn of the loop reads two bytes or more, so that this fuel is enough. -/
def parseHeader (junk : Nat → UInt8) (s : RespDecoder) : Option (Int × RespDecoder) :=
  match headerLoop applyHeader (s.lines.length + 1) s.lines s.response with
  | .more lines response => some (0, { s with lines := lines, response := response })
  | .bad lines response => some (-1, { s with lines := lines, response := response })
  | .done lines response => endHeader junk { s with lines := lines, response := response }

/-- "HTTP/1." -/
def httpMark : List UInt8 := [72, 84, 84, 80, 47, 49, 46]

/-- A line has been found. The zero that ends it goes to `line_end_` bytes behind its start; `none`
is an access behind the buffer. -/
def startResponse (junk : Nat → UInt8) (s : RespDecoder) (lineEnd : Nat) :
    Option (Int × RespDecoder) :=
  (writeAt s.lines.block (s.lines.lineStart + lineEnd) [0]).bind fun block =>
    let text : List UInt8 := block.drop s.lines.lineStart
    let moved := { s with lines := { s.lines with block := block, lineStart := s.lines.parsePos } }
    if startsWithNoCase text httpMark then
      (text[7]?).bind fun (c : UInt8) =>
        if c = 48 ∨ c = 49 then
          parseHeader junk { moved with response := { s.response with
            versionMinor := if c = 49 then 1 else 0, code := atoi (text.drop 9) } }
        else some (-1, moved)
    else some (-1, moved)

def parseFirstLine (junk : Nat → UInt8) (s : RespDecoder) : Option (Int × RespDecoder) :=
  match s.lines.searchEol with
  | (lines, none) => some (0, { s with lines := lines })
  | (lines, some lineEnd) => startResponse junk { s with lines := lines } lineEnd

/-! ## The decoder and its reader -/

/-- The room that the next chunk may need. -/
def needMin (s : RespDecoder) : Option Nat :=
  (checked (s.chunkLeft + 64 + s.chunkSize)).map fun n => (max n 65536).toNat

/-- Between chunks the buffer is replaced by a larger one when the room is not enough: the line at
hand moves to its start, and `parse_pos_` becomes the number of unread bytes. -/
def enlarge (junk : Nat → UInt8) (s : RespDecoder) : Option RespDecoder :=
  (needMin s).bind fun need =>
    if s.lines.block.length - s.lines.length < need then
      (writeAt (malloc junk need) 0 s.lines.current).map fun block =>
        { s with lines := {
          block := block, length := s.lines.length - s.lines.lineStart
          lineStart := 0, parsePos := s.lines.length - s.lines.parsePos } }
    else some s

/-- The state, the place and the length of the buffer. -/
def getBuffer (junk : Nat → UInt8) (s : RespDecoder) : Option (RespDecoder × Place × Nat) :=
  match s.status with
  | .firstLine => some (s, .buf s.lines.length, s.lines.block.length - s.lines.length)
  | .header => some (s, .buf s.lines.length, s.lines.block.length - s.lines.length)
  | .body => some (s, .body s.bodyRead, s.bodyLength - s.bodyRead)
  | .chunkSize | .chunkData | .chunkTrailer =>
      (enlarge junk s).map fun s =>
        (s, .buf s.lines.length, s.lines.block.length - s.lines.length)

/-- The reader copies a piece to the place; `none` is a write behind the block. -/
def store (s : RespDecoder) (place : Place) (piece : List UInt8) : Option RespDecoder :=
  match place with
  | .buf off => (writeAt s.lines.block off piece).map fun block =>
      { s with lines := { s.lines with block := block } }
  | .body off => (s.body.bind fun block => writeAt block off piece).map fun block =>
      { s with body := some block }

/-- The response that is handed over, and the decoder without the body of that response. -/
def message (s : RespDecoder) : HttpResponse × RespDecoder :=
  match s.body with
  | some block =>
      if 0 < s.bodyRead then
        ({ s.response with contentLength := s.bodyRead, content := some (block.take s.bodyRead) },
          { s with body := none })
      else (s.response, s)
  | none => (s.response, s)

/-- What `Feed` does with the piece that lies in the buffer. -/
def parse (junk : Nat → UInt8) (s : RespDecoder) (buf : Place) (length : Nat) :
    Option (Int × RespDecoder) :=
  let grown := { s with lines := s.lines.grow length }
  match s.status with
  | .firstLine => if buf = .buf s.lines.length then parseFirstLine junk grown else some (-1, s)
  | .header => if buf = .buf s.lines.length then parseHeader junk grown else some (-1, s)
  | .body =>
      if buf = .body s.bodyRead then
        let s := { s with bodyRead := s.bodyRead + length }
        some (readBody s, s)
      else some (-1, s)
  | .chunkSize =>
      if buf = .buf s.lines.length then readChunkSize junk (chunkFuel grown) grown
      else some (-1, s)
  | .chunkData | .chunkTrailer =>
      if buf = .buf s.lines.length then
        readChunkData junk (readChunkSize junk (chunkFuel grown)) grown
      else some (-1, s)

/-- The return code, the new state and the messages. -/
def feed (junk : Nat → UInt8) (s : RespDecoder) (buf : Place) (length : Nat) :
    Option (Int × RespDecoder × List HttpResponse) :=
  (parse junk s buf length).map fun (ret, s) =>
    if ret = 0 then (0, s, [])
    else if ret = 1 then (0, (message s).2.reset, [(message s).1])
    else (-1, s.reset, [])

/-- `GetBuffer`, the copy of the reader and `Feed`; `none` is undefined behaviour or a negative
code. -/
def deliver (junk : Nat → UInt8) (s : RespDecoder) (piece : List UInt8) :
    Option (RespDecoder × List HttpResponse) :=
  (getBuffer junk s).bind fun (s, place, _) =>
    (store s place piece).bind fun s =>
      (feed junk s place piece.length).bind fun (code, s, msgs) =>
        if code < 0 then none else some (s, msgs)

def decoder (junk : Nat → UInt8) : Decoder RespDecoder HttpResponse :=
  ⟨fun s => (getBuffer junk s).map fun (_, _, length) => length, deliver junk⟩

/-- A new decoder; its buffer holds what its memory held. -/
def RespDecoder.initial (junk : Nat → UInt8) : RespDecoder :=
  { lines := { block := malloc junk 4096 } }

/-! ## Responses -/

/-- The status line and the header fields of a response. -/
structure ResponseHead where
  minor : Fin 2
  code : Fin 10 × Fin 10 × Fin 10
  reason : List UInt8
  fields : List HeaderField
  reasonOk : ∀ c ∈ reason, c ≠ 13 ∧ c ≠ 0

def digitChar (d : Fin 10) : UInt8 := 48 + UInt8.ofNat d

def ResponseHead.codeText (h : ResponseHead) : List UInt8 :=
  [digitChar h.code.1, digitChar h.code.2.1, digitChar h.code.2.2]

def ResponseHead.codeValue (h : ResponseHead) : Nat :=
  h.code.1 * 100 + h.code.2.1 * 10 + h.code.2.2

def ResponseHead.line (h : ResponseHead) : List UInt8 :=
  httpMark ++ [minorDigit h.minor, 32] ++ h.codeText ++ 32 :: h.reason

def ResponseHead.text (h : ResponseHead) : List UInt8 := h.line ++ crlf ++ fieldsText h.fields

/-- The response after its status line. -/
def ResponseHead.start (h : ResponseHead) : HttpResponse :=
  { code := h.codeValue, versionMinor := h.minor }

/-- The response after its head. -/
def ResponseHead.response (h : ResponseHead) : HttpResponse :=
  h.fields.foldl (fun response field => applyHeader response field.name field.value) h.start

/-- A chunk: its size in hexadecimal digits, and its data. -/
structure Chunk where
  digits : List UInt8
  data : List UInt8
  named : digits ≠ []
  digitsOk : AreDigits 16 digits
  size : digitsValue 16 digits = data.length

def Chunk.text (c : Chunk) : List UInt8 := c.digits ++ crlf ++ c.data ++ crlf

/-- `0`, with no data. -/
def lastChunk : Chunk := ⟨[48], [], by decide, fun c member => ⟨0, by decide, by
  rw [List.mem_singleton.mp member]
  rfl⟩, rfl⟩

theorem append_last_cons (chunks : List Chunk) : ∃ c cs, chunks ++ [lastChunk] = c :: cs := by
  cases chunks with
  | nil => exact ⟨_, _, rfl⟩
  | cons c chunks => exact ⟨_, _, rfl⟩

/-- What follows a head. -/
inductive Payload where
  | length (body : List UInt8)
  | chunked (chunks : List Chunk) (filled : ∀ c ∈ chunks, c.data ≠ [])

def Payload.text : Payload → List UInt8
  | .length body => body
  | .chunked chunks _ => (chunks ++ [lastChunk]).flatMap Chunk.text

def Payload.body : Payload → List UInt8
  | .length body => body
  | .chunked chunks _ => chunks.flatMap Chunk.data

/-- The response with its body. -/
def finish (response : HttpResponse) (body : List UInt8) : HttpResponse :=
  { response with contentLength := body.length, content := if body = [] then none else some body }

end MlsImgSearch.Blitz.HttpRespDecoder
