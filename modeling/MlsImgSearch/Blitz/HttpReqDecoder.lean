import MlsImgSearch.Blitz.HttpCommon

/-!
# The decoder of HTTP requests

The request line and the header lines are collected in a buffer of 4096 bytes,
the body in a block of `content_length` bytes. Nothing ever sets the state
`kHeader`, so that a line which arrives after the request line is taken for a
request line again, and the buffer for the body starts at the wrong offset.
-/

namespace MlsImgSearch.Blitz.HttpReqDecoder

open MlsImgSearch.Lib.Bytes
open MlsImgSearch.Lib.Segmentation
open MlsImgSearch.Blitz.HttpCommon

/-! ## Data -/

inductive Method where
  | get
  | post
  deriving DecidableEq

structure HttpRequest where
  method : Option Method := none
  uri : List UInt8 := []
  versionMinor : Nat := 1
  contentLength : Int := 0
  params : List (List UInt8 × List UInt8) := []
  content : Option (List UInt8) := none
  deriving DecidableEq

inductive Status where
  | firstLine
  | header
  | body
  deriving DecidableEq

/-- `request_` is created by `GetBuffer` when it is null. -/
structure ReqDecoder where
  request : HttpRequest := {}
  status : Status := .firstLine
  lines : LineBuffer
  body : List UInt8 := []
  bodyLength : Nat := 0
  bodyRead : Nat := 0
  deriving DecidableEq

def headerMaxLength : Nat := 4096

def ReqDecoder.reset (s : ReqDecoder) : ReqDecoder := { lines := { block := s.lines.block } }

/-- A position in the block `header_` or in the block `body_`. -/
inductive Place where
  | header (off : Nat)
  | body (off : Nat)
  deriving DecidableEq

/-! ## Parsing -/

/-- "content-length" -/
def contentLengthName : List UInt8 := [99, 111, 110, 116, 101, 110, 116, 45, 108, 101, 110, 103, 116, 104]

/-- A header field: every name that starts with "content-length" sets the length. -/
def applyHeader (request : HttpRequest) (name value : List UInt8) : HttpRequest :=
  if startsWithNoCase name contentLengthName then { request with contentLength := atoi value }
  else { request with params := setParam request.params name value }

def readBody (s : ReqDecoder) : Int :=
  if s.bodyRead = s.bodyLength then 1 else if s.bodyLength < s.bodyRead then -1 else 0

/-- The blank line. `none` is the assertion that the rest of the buffer belongs to the body. -/
def endHeader (junk : Nat → UInt8) (s : ReqDecoder) : Option (Int × ReqDecoder) :=
  let s := { s with status := .body }
  if 0 < s.request.contentLength then
    let bodyLength := s.request.contentLength.toNat
    let left := s.lines.unread
    if bodyLength < left.length then none
    else
      (writeAt (malloc junk bodyLength) 0 left).map fun body =>
        let s := { s with body := body, bodyLength := bodyLength, bodyRead := left.length }
        (readBody s, s)
  else some (1, s)

/-- Each turn of the loop reads two bytes or more, so that this fuel is enough. -/
def parseHeader (junk : Nat → UInt8) (s : ReqDecoder) : Option (Int × ReqDecoder) :=
  match headerLoop applyHeader (s.lines.length + 1) s.lines s.request with
  | .more lines request => some (0, { s with lines := lines, request := request })
  | .bad lines request => some (-1, { s with lines := lines, request := request })
  | .done lines request => endHeader junk { s with lines := lines, request := request }

/-- "GET " -/
def getMark : List UInt8 := [71, 69, 84, 32]

/-- "POST " -/
def postMark : List UInt8 := [80, 79, 83, 84, 32]

/-- The method and what follows it; other methods are not supported. -/
def parseMethod (line : List UInt8) : Option (Method × List UInt8) :=
  if startsWithNoCase line getMark then some (.get, line.drop 4)
  else if startsWithNoCase line postMark then some (.post, line.drop 5)
  else none

/-- A line has been found. The zero that ends it goes to `line_end_` bytes behind its start; `none`
is a write behind the buffer. -/
def startRequest (junk : Nat → UInt8) (s : ReqDecoder) (lineEnd : Nat) : Option (Int × ReqDecoder) :=
  (writeAt s.lines.block (s.lines.lineStart + lineEnd) [0]).bind fun block =>
    let start := s.lines.lineStart
    let moved := { s with lines := { s.lines with block := block, lineStart := s.lines.parsePos } }
    match parseMethod ((block.drop start).takeWhile (· != 0)) with
    | none => some (-1, moved)
    | some (method, uri) =>
        if 32 ∈ uri then
          let lineLen := lineEnd - start
          let minor := if block[start + (lineLen - 1)]? = some 48 then 0 else 1
          parseHeader junk { moved with request := { s.request with
            method := some method, uri := uri.takeWhile (· != 32), versionMinor := minor } }
        else some (-1, { moved with request := { s.request with method := some method } })

def parseFirstLine (junk : Nat → UInt8) (s : ReqDecoder) : Option (Int × ReqDecoder) :=
  match s.lines.searchEol with
  | (lines, none) => some (0, { s with lines := lines })
  | (lines, some lineEnd) => startRequest junk { s with lines := lines } lineEnd

/-! ## The decoder and its reader -/

/-- The place and the length of the buffer. -/
def getBuffer (s : ReqDecoder) : Place × Nat :=
  match s.status with
  | .firstLine => (.header s.lines.length, headerMaxLength - s.lines.length)
  | .header => (.header s.lines.length, headerMaxLength - s.lines.length)
  | .body => (.body (s.bodyLength - s.bodyRead), s.bodyLength - s.bodyRead)

/-- The reader copies a piece to the place; `none` is a write behind the block. -/
def store (s : ReqDecoder) (place : Place) (piece : List UInt8) : Option ReqDecoder :=
  match place with
  | .header off => (writeAt s.lines.block off piece).map fun block =>
      { s with lines := { s.lines with block := block } }
  | .body off => (writeAt s.body off piece).map fun body => { s with body := body }

/-- The request that is handed over. -/
def message (s : ReqDecoder) : HttpRequest :=
  if 0 < s.request.contentLength then { s.request with content := some s.body } else s.request

/-- The return code, the new state and the messages. -/
def feed (junk : Nat → UInt8) (s : ReqDecoder) (buf : Place) (length : Nat) :
    Option (Int × ReqDecoder × List HttpRequest) :=
  let result : Option (Int × ReqDecoder) :=
    match s.status with
    | .firstLine =>
        if buf = .header s.lines.length then
          parseFirstLine junk { s with lines := s.lines.grow length }
        else some (-1, s)
    | .header =>
        if buf = .header s.lines.length then
          parseHeader junk { s with lines := s.lines.grow length }
        else some (-1, s)
    | .body =>
        if buf ≠ .body s.bodyRead then
          let s := { s with bodyRead := s.bodyRead + length }
          some (readBody s, s)
        else some (-1, s)
  result.map fun (ret, s) =>
    if ret = 0 then (0, s, []) else if ret = 1 then (0, s.reset, [message s]) else (-1, s.reset, [])

/-- `GetBuffer`, the copy of the reader and `Feed`; `none` is undefined behaviour or a negative
code. -/
def deliver (junk : Nat → UInt8) (s : ReqDecoder) (piece : List UInt8) :
    Option (ReqDecoder × List HttpRequest) :=
  let place := (getBuffer s).1
  (store s place piece).bind fun s =>
    (feed junk s place piece.length).bind fun (code, s, msgs) =>
      if code < 0 then none else some (s, msgs)

def decoder (junk : Nat → UInt8) : Decoder ReqDecoder HttpRequest :=
  ⟨fun s => some (getBuffer s).2, deliver junk⟩

/-- A new decoder; its buffer holds what its memory held. -/
def ReqDecoder.initial (junk : Nat → UInt8) : ReqDecoder :=
  { lines := { block := malloc junk headerMaxLength } }

/-! ## Requests -/

/-- The request line and the header fields of a request. -/
structure RequestHead where
  method : Method
  uri : List UInt8
  minor : Fin 2
  fields : List HeaderField
  uriOk : ∀ c ∈ uri, c ≠ 32 ∧ c ≠ 13 ∧ c ≠ 0

def Method.mark : Method → List UInt8
  | .get => getMark
  | .post => postMark

/-- " HTTP/1." -/
def versionMark : List UInt8 := [32, 72, 84, 84, 80, 47, 49, 46]

def RequestHead.line (h : RequestHead) : List UInt8 :=
  h.method.mark ++ h.uri ++ versionMark ++ [minorDigit h.minor]

def RequestHead.text (h : RequestHead) : List UInt8 := h.line ++ crlf ++ fieldsText h.fields

/-- The request after its request line. -/
def RequestHead.start (h : RequestHead) : HttpRequest :=
  { method := some h.method, uri := h.uri, versionMinor := h.minor }

/-- The request after its head. -/
def RequestHead.request (h : RequestHead) : HttpRequest :=
  h.fields.foldl (fun request field => applyHeader request field.name field.value) h.start

/-- What a decoder has to hand over for a head and the body that follows it. -/
def expected (h : RequestHead) (body : List UInt8) : HttpRequest :=
  { h.request with contentLength := body.length, content := if body = [] then none else some body }

end MlsImgSearch.Blitz.HttpReqDecoder
