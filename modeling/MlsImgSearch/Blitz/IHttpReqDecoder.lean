import MlsImgSearch.Blitz.ChunkedBody
import MlsImgSearch.Blitz.HttpReqDecoder
import MlsImgSearch.Lib.TextSearch

/-!
# The decoder of HTTP requests with chunked bodies

`iHttpReqDecoder` is a third copy of the decoder. It gives its buffers back after
every request, reads chunked bodies, and looks at bytes that need not have
arrived: behind an open request line `strstr` looks for the version, and behind
the data of a chunk the line end is skipped by looking at the next byte. The
field `past` says that such a byte was read.
-/

namespace MlsImgSearch.Blitz.IHttpReqDecoder

open MlsImgSearch.Lib.Bytes
open MlsImgSearch.Lib.Segmentation
open MlsImgSearch.Lib.TextSearch
open MlsImgSearch.Blitz.HttpCommon
open MlsImgSearch.Blitz.HttpReqDecoder (Method getMark postMark parseMethod RequestHead)
open MlsImgSearch.Blitz.HttpRespDecoder (Status Place Chunk Payload checked equalsNoCase
  transferEncodingName contentLengthName chunkedMark)

/-! ## Data -/

structure IHttpRequest where
  method : Option Method := none
  uri : List UInt8 := []
  uriHandle : List UInt8 := []
  uriParams : List UInt8 := []
  reqLine : List UInt8 := []
  version : Nat := 1
  contentLength : Int := 0
  params : List (List UInt8 × List UInt8) := []
  content : List UInt8 := []
  deriving DecidableEq

/-- `GetBuffer` creates `m_request` when it is null. An empty block stands for a null `m_buf`; every
block has four bytes more than `m_buf_size` or `m_body_length` says. -/
structure ReqDecoder where
  request : IHttpRequest := {}
  status : Status := .firstLine
  lines : LineBuffer := { block := [] }
  body : Option (List UInt8) := none
  bodyLength : Nat := 0
  bodyRead : Nat := 0
  chunkSize : Int := 0
  chunkLeft : Int := 0
  past : Bool := false
  deriving DecidableEq

/-- `HTTP_BUF_SIZE` -/
def httpBufSize : Nat := 4096

/-- `m_buf_size` -/
def bufSize (b : LineBuffer) : Nat := b.block.length - 4

/-! ## Bodies -/

/-- Room for `length` more bytes of the body. -/
def reserve (junk : Nat → UInt8) (s : ReqDecoder) (length : Nat) : Option ReqDecoder :=
  match s.body with
  | none =>
      (checked ((length : Int) + 4)).map fun n =>
        { s with body := some (malloc junk n.toNat), bodyLength := length, bodyRead := 0 }
  | some block =>
      if s.bodyLength < s.bodyRead + length then
        (checked ((s.bodyRead : Int) + length + 4)).bind fun n =>
          (writeAt (malloc junk n.toNat) 0 (block.take s.bodyRead)).map fun block =>
            { s with body := some block, bodyLength := s.bodyRead + length }
      else some s

/-- `AppendBody`, which ends the body with a zero. -/
def appendBody (junk : Nat → UInt8) (s : ReqDecoder) (data : List UInt8) : Option ReqDecoder :=
  (reserve junk s data.length).bind fun s =>
    (s.body.bind fun block => writeAt block s.bodyRead (data ++ [0])).map fun block =>
      { s with body := some block, bodyRead := s.bodyRead + data.length }

def readBody (s : ReqDecoder) : Option (Int × ReqDecoder) :=
  if s.bodyRead = s.bodyLength then
    (s.body.bind fun block => writeAt block s.bodyRead [0]).map fun block =>
      (1, { s with body := some block })
  else if s.bodyLength < s.bodyRead then some (-1, s)
  else some (0, s)

/-! ## Chunks -/

def isReturn (c : UInt8) : Bool := c == 13 || c == 10

/-- The end of a chunk; `next` reads the size of the next one. When all bytes are skipped, the byte
behind them has been looked at too: if it is a line end, the buffer is emptied, and otherwise its
last byte is kept. -/
def readChunkTrailer (next : ReqDecoder → Option (Int × ReqDecoder)) (s : ReqDecoder) :
    Option (Int × ReqDecoder) :=
  let pos := s.lines.parsePos + (s.lines.unread.takeWhile isReturn).length
  if s.lines.length = pos then
    (s.lines.block[pos]?).bind fun behind =>
      if isReturn behind then some (0, { s with past := true, lines := { block := s.lines.block } })
      else if s.lines.length = 0 then none
      else
        (s.lines.block[s.lines.length - 1]?).bind fun last =>
          (writeAt s.lines.block 0 [last]).map fun block =>
            (0, { s with past := true, lines := { block := block, length := 1 } })
  else
    next { s with
      status := .chunkSize, lines := { s.lines with parsePos := pos, lineStart := pos } }

/-- The data of a chunk, as far as it is in the buffer; a negative size is undefined behaviour. -/
def readChunkData (junk : Nat → UInt8) (next : ReqDecoder → Option (Int × ReqDecoder))
    (s : ReqDecoder) : Option (Int × ReqDecoder) :=
  if s.chunkLeft < 0 then none
  else if s.chunkLeft ≤ s.lines.unread.length then
    (appendBody junk s (s.lines.unread.take s.chunkLeft.toNat)).bind fun s =>
      readChunkTrailer next { s with
        status := .chunkTrailer, chunkLeft := 0
        lines := { s.lines with parsePos := s.lines.parsePos + s.chunkLeft.toNat } }
  else
    (appendBody junk s s.lines.unread).map fun s' =>
      (0, { s' with
        chunkLeft := s.chunkLeft - s.lines.unread.length, lines := { block := s.lines.block } })

/-- The line with the size of a chunk, and the chunks that follow in the buffer, at most `fuel` of
them. A size of zero is the end of the request. -/
def readChunkSize (junk : Nat → UInt8) : Nat → ReqDecoder → Option (Int × ReqDecoder)
  | 0, s => some (0, s)
  | fuel + 1, s =>
      match s.lines.searchEol with
      | (lines, none) => some (0, { s with lines := lines })
      | (lines, some _) =>
          let size := toInt32 (strtol 16 (lines.block.drop lines.lineStart))
          if size = 0 then some (1, { s with lines := lines, chunkSize := size })
          else
            readChunkData junk (readChunkSize junk fuel) { s with
              lines := lines, status := .chunkData, chunkSize := size, chunkLeft := size }

/-- A chunk takes two bytes or more, so that this fuel is enough. -/
def chunkFuel (s : ReqDecoder) : Nat := s.lines.length + 1

/-! ## Heads -/

/-- `SetHeader`, with all blanks in front of the value dropped. -/
def applyHeader (request : IHttpRequest) (name value : List UInt8) : IHttpRequest :=
  { request with params := setParam request.params name (value.dropWhile (· == 32)) }

def isChunked (request : IHttpRequest) : Bool :=
  (getHeader request.params transferEncodingName).any (equalsNoCase · chunkedMark)

/-- The length that the header gives, if any. -/
def withLength (request : IHttpRequest) : IHttpRequest :=
  match getHeader request.params contentLengthName with
  | some str => { request with contentLength := atoi str }
  | none => request

/-- The blank line. -/
def endHeader (junk : Nat → UInt8) (s : ReqDecoder) : Option (Int × ReqDecoder) :=
  if isChunked s.request then readChunkSize junk (chunkFuel s) { s with status := .chunkSize }
  else
    let s := { s with request := withLength s.request }
    if 0 < s.request.contentLength then
      (checked (s.request.contentLength + 4)).bind fun size =>
        let block := malloc junk size.toNat
        let bodyLength := s.request.contentLength.toNat
        let left := s.lines.unread
        if bodyLength < left.length then
          some (-1, { s with body := some block, bodyLength := bodyLength, bodyRead := 0 })
        else
          (writeAt block 0 left).bind fun block => readBody { s with
            status := .body, body := some block, bodyLength := bodyLength, bodyRead := left.length }
    else some (1, s)

/-- Each turn of the loop reads two bytes or more, so that this fuel is enough. -/
def parseHeader (junk : Nat → UInt8) (s : ReqDecoder) : Option (Int × ReqDecoder) :=
  match headerLoop applyHeader (s.lines.length + 1) s.lines s.request with
  | .more lines request => some (0, { s with lines := lines, request := request })
  | .bad lines request => some (-1, { s with lines := lines, request := request })
  | .done lines request => endHeader junk { s with lines := lines, request := request }

/-- The handle stands behind the last slash, its parameters behind a question mark there. -/
def setUri (request : IHttpRequest) (uri : List UInt8) : IHttpRequest :=
  let request := { request with uri := uri }
  if 47 ∈ uri then
    let last := (uri.reverse.takeWhile (· != 47)).reverse
    let handle := last.takeWhile (· != 63)
    if 63 ∈ last then
      if handle = [] then request
      else { request with uriHandle := handle, uriParams := last.drop (handle.length + 1) }
    else { request with uriHandle := last }
  else request

/-- A line has been found. The zero that ends it goes to `m_line_end` bytes behind its start; `none`
is a write behind the buffer. -/
def startRequest (junk : Nat → UInt8) (s : ReqDecoder) (lineEnd : Nat) : Option (Int × ReqDecoder) :=
  (writeAt s.lines.block (s.lines.lineStart + lineEnd) [0]).bind fun block =>
    let start := s.lines.lineStart
    let moved := { s with lines := { s.lines with block := block, lineStart := s.lines.parsePos } }
    match parseMethod ((block.drop start).takeWhile (· != 0)) with
    | none => some (-1, moved)
    | some (method, uri) =>
        let lineLen := lineEnd - start
        let request := { s.request with
          method := some method, reqLine := (block.drop start).take lineLen }
        if 32 ∈ uri then
          let minor := if block[start + (lineLen - 1)]? = some 48 then 0 else 1
          parseHeader junk { moved with
            request := { setUri request (uri.takeWhile (· != 32)) with version := minor } }
        else some (-1, { moved with request := request })

/-- "HTTP/" -/
def httpMark : List UInt8 := [72, 84, 84, 80, 47]

/-- The version is looked for in a line whose end has not arrived. The search starts at `m_buf` and
may run over the bytes that have arrived. The zero of an earlier request line ends it, so that the
zeros of header lines do not matter. -/
def openLine (s : ReqDecoder) : Option (Int × ReqDecoder) :=
  match strstr httpMark (s.lines.block.take s.lines.length) with
  | .found _ => some (0, s)
  | .absent => some (-1, s)
  | .outside =>
      match strstr httpMark s.lines.block with
      | .found _ => some (0, { s with past := true })
      | .absent => some (-1, { s with past := true })
      | .outside => none

def parseFirstLine (junk : Nat → UInt8) (s : ReqDecoder) : Option (Int × ReqDecoder) :=
  match s.lines.searchEol with
  | (lines, none) => openLine { s with lines := lines }
  | (lines, some lineEnd) => startRequest junk { s with lines := lines } lineEnd

/-! ## The decoder and its reader -/

/-- `GetBuffer` makes a buffer when there is none. -/
def prepare (junk : Nat → UInt8) (s : ReqDecoder) : ReqDecoder :=
  if s.lines.block = [] then
    { s with lines := { s.lines with block := malloc junk (httpBufSize + 4) } }
  else s

/-- Between chunks the buffer is replaced by a larger one when the room is not enough: the line at
hand moves to its start, and `m_parse_pos` becomes the number of unread bytes. -/
def enlarge (junk : Nat → UInt8) (s : ReqDecoder) : Option ReqDecoder :=
  (checked (httpBufSize + s.chunkLeft)).bind fun size =>
    if (bufSize s.lines : Int) - s.lines.length < size then
      (checked (size + 4)).bind fun n =>
        (writeAt (malloc junk n.toNat) 0 s.lines.current).map fun block =>
          { s with lines := {
            block := block, length := s.lines.length - s.lines.lineStart
            lineStart := 0, parsePos := s.lines.length - s.lines.parsePos } }
    else some s

/-- The state, the place and the length of the buffer. -/
def getBuffer (junk : Nat → UInt8) (s : ReqDecoder) : Option (ReqDecoder × Place × Nat) :=
  let s := prepare junk s
  match s.status with
  | .firstLine | .header => some (s, .buf s.lines.length, bufSize s.lines - s.lines.length)
  | .body => some (s, .body s.bodyRead, s.bodyLength - s.bodyRead)
  | .chunkSize | .chunkData | .chunkTrailer =>
      (enlarge junk s).map fun s => (s, .buf s.lines.length, bufSize s.lines - s.lines.length)

/-- The reader copies a piece to the place; `none` is a write behind the block. -/
def store (s : ReqDecoder) (place : Place) (piece : List UInt8) : Option ReqDecoder :=
  match place with
  | .buf off => (writeAt s.lines.block off piece).map fun block =>
      { s with lines := { s.lines with block := block } }
  | .body off => (s.body.bind fun block => writeAt block off piece).map fun block =>
      { s with body := some block }

/-- The request that is handed over. The content is a C string. -/
def message (s : ReqDecoder) : IHttpRequest :=
  match s.body with
  | some block =>
      if 0 < s.bodyRead then
        { s.request with contentLength := s.bodyRead, content := block.takeWhile (· != 0) }
      else s.request
  | none => s.request

/-- What `Feed` does with the piece that lies in the buffer. -/
def parse (junk : Nat → UInt8) (s : ReqDecoder) (buf : Place) (length : Nat) :
    Option (Int × ReqDecoder) :=
  let grown := { s with lines := s.lines.grow length }
  match s.status with
  | .firstLine => if buf = .buf s.lines.length then parseFirstLine junk grown else some (-1, s)
  | .header => if buf = .buf s.lines.length then parseHeader junk grown else some (-1, s)
  | .body =>
      if buf = .body s.bodyRead then readBody { s with bodyRead := s.bodyRead + length }
      else some (-1, s)
  | .chunkSize =>
      if buf = .buf s.lines.length then readChunkSize junk (chunkFuel grown) grown
      else some (-1, s)
  | .chunkData | .chunkTrailer =>
      if buf = .buf s.lines.length then
        readChunkData junk (readChunkSize junk (chunkFuel grown)) grown
      else some (-1, s)

/-- What the reader sees of a return code. `Reset` gives the buffers back; a negative code and a read
of a byte that has not arrived are `none`. -/
def conclude (result : Int × ReqDecoder) : Option (ReqDecoder × List IHttpRequest) :=
  if result.2.past then none
  else if result.1 = 0 then some (result.2, [])
  else if result.1 = 1 then some ({}, [message result.2])
  else none

def feed (junk : Nat → UInt8) (s : ReqDecoder) (buf : Place) (length : Nat) :
    Option (ReqDecoder × List IHttpRequest) :=
  (parse junk s buf length).bind conclude

/-- `GetBuffer`, the copy of the reader and `Feed`. -/
def deliver (junk : Nat → UInt8) (s : ReqDecoder) (piece : List UInt8) :
    Option (ReqDecoder × List IHttpRequest) :=
  (getBuffer junk s).bind fun (s, place, _) =>
    (store s place piece).bind fun s => feed junk s place piece.length

def decoder (junk : Nat → UInt8) : Decoder ReqDecoder IHttpRequest :=
  ⟨fun s => (getBuffer junk s).map fun (_, _, length) => length, deliver junk⟩

/-! ## Requests -/

/-- A header line; `text` stands behind the colon. Names are tokens, and neither part holds a line
end or a zero byte. -/
structure HeaderLine where
  name : List UInt8
  text : List UInt8
  named : name ≠ []
  nameOk : ∀ c ∈ name, c ≠ 58 ∧ c ≠ 32 ∧ c ≠ 13 ∧ c ≠ 0
  textOk : ∀ c ∈ text, c ≠ 13 ∧ c ≠ 0

def HeaderLine.line (field : HeaderLine) : List UInt8 := field.name ++ 58 :: field.text

/-- The blanks in front of a value do not belong to it. -/
def HeaderLine.value (field : HeaderLine) : List UInt8 := field.text.dropWhile (· == 32)

/-- The request line and the header lines of a request. -/
structure Head where
  method : Method
  uri : List UInt8
  minor : Fin 2
  fields : List HeaderLine
  uriOk : ∀ c ∈ uri, c ≠ 32 ∧ c ≠ 13 ∧ c ≠ 0

/-- The request line, as the first decoder knows it. -/
def Head.start (h : Head) : RequestHead := ⟨h.method, h.uri, h.minor, [], h.uriOk⟩

def Head.line (h : Head) : List UInt8 := h.start.line

def Head.lines (h : Head) : List (List UInt8) := h.fields.map HeaderLine.line

def Head.text (h : Head) : List UInt8 := h.line ++ crlf ++ linesText h.lines

/-- The request after its request line. -/
def Head.first (h : Head) : IHttpRequest :=
  { setUri { method := some h.method, reqLine := h.line } h.uri with version := h.minor }

/-- The request after its head. -/
def Head.request (h : Head) : IHttpRequest :=
  { h.first with
    params := h.fields.foldl (fun params field => setParam params field.name field.value) [] }

/-- What a decoder has to hand over for a head and the body that follows it. -/
def expected (h : Head) (body : List UInt8) : IHttpRequest :=
  { h.request with contentLength := body.length, content := body }

end MlsImgSearch.Blitz.IHttpReqDecoder
