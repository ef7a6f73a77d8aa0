import MlsImgSearch.Blitz.HttpReqSegments
import MlsImgSearch.Blitz2.HttpUri

/-!
# The second decoder of HTTP requests

The successor of the decoder in `blitz` parses the URI and takes the size of its
line buffer as a parameter. It still does not set the state `kHeader`, and no
header field sets the length of the content any more.
-/

namespace MlsImgSearch.Blitz2.HttpReqDecoder

open Lib.Bytes Lib.Segmentation Blitz.HttpCommon HttpUri
open Blitz.HttpReqDecoder (Method Status Place parseMethod contentLengthName RequestHead length_text
  parseMethod_line takeWhile_uri minor_eq parseMethod_isLine)

/-! ## The decoder -/

structure HttpRequest where
  method : Option Method := none
  uri : Uri := {}
  versionMinor : Nat := 1
  headers : List (List UInt8 × List UInt8) := []
  content : List UInt8 := []
  deriving DecidableEq

def HttpRequest.getContentLength (r : HttpRequest) : Nat := r.content.length

/-- `request_` is created by `GetBuffer` when it is null. -/
structure ReqDecoder where
  request : HttpRequest := {}
  status : Status := .firstLine
  lines : LineBuffer
  body : List UInt8 := []
  bodyLength : Nat := 0
  bodyRead : Nat := 0
  deriving DecidableEq

def ReqDecoder.reset (s : ReqDecoder) : ReqDecoder := { lines := { block := s.lines.block } }

/-- A header field; a name that starts with "content-length" does nothing. -/
def applyHeader (request : HttpRequest) (name value : List UInt8) : HttpRequest :=
  if startsWithNoCase name contentLengthName then request
  else { request with headers := setParam request.headers name value }

def readBody (s : ReqDecoder) : Int :=
  if s.bodyRead = s.bodyLength then 1 else if s.bodyLength < s.bodyRead then -1 else 0

/-- The blank line. `none` is a copy past the block for the body. -/
def endHeader (junk : Nat → UInt8) (s : ReqDecoder) : Option (Int × ReqDecoder) :=
  let s := { s with status := .body }
  if 0 < s.request.getContentLength then
    let left := s.lines.unread
    (writeAt (malloc junk s.request.getContentLength) 0 left).map fun body =>
      let s := { s with
        body := body, bodyLength := s.request.getContentLength, bodyRead := left.length }
      (readBody s, s)
  else some (1, s)

/-- Each turn of the loop reads two bytes or more, so that this fuel is enough. -/
def parseHeader (junk : Nat → UInt8) (s : ReqDecoder) : Option (Int × ReqDecoder) :=
  match headerLoop applyHeader (s.lines.length + 1) s.lines s.request with
  | .more lines request => some (0, { s with lines := lines, request := request })
  | .bad lines request => some (-1, { s with lines := lines, request := request })
  | .done lines request => endHeader junk { s with lines := lines, request := request }

/-- A line has been found. The zero that ends it goes to `line_end_` bytes behind its start; `none`
is a write behind the buffer. -/
def startRequest (junk : Nat → UInt8) (s : ReqDecoder) (lineEnd : Nat) : Option (Int × ReqDecoder) :=
  (writeAt s.lines.block (s.lines.lineStart + lineEnd) [0]).bind fun block =>
    let start := s.lines.lineStart
    let moved := { s with lines := { s.lines with block := block, lineStart := s.lines.parsePos } }
    match parseMethod ((block.drop start).takeWhile (· != 0)) with
    | none => some (-1, moved)
    | some (method, rest) =>
        if 32 ∈ rest then
          let lineLen := lineEnd - start
          let minor := if block[start + (lineLen - 1)]? = some 48 then 0 else 1
          parseHeader junk { moved with
            request := { s.request with
              method := some method
              uri := parseUri s.request.uri (rest.takeWhile (· != 32))
              versionMinor := minor } }
        else some (-1, { moved with request := { s.request with method := some method } })

def parseFirstLine (junk : Nat → UInt8) (s : ReqDecoder) : Option (Int × ReqDecoder) :=
  match s.lines.searchEol with
  | (lines, none) => some (0, { s with lines := lines })
  | (lines, some lineEnd) => startRequest junk { s with lines := lines } lineEnd

/-- The place and the length of the buffer, which is a `uint32_t`; `none` is an error. -/
def getBuffer (maxHeaderSize : Nat) (s : ReqDecoder) : Option (Place × Nat) :=
  match s.status with
  | .body => some (.body (s.bodyLength - s.bodyRead), s.bodyLength - s.bodyRead)
  | _ =>
      if maxHeaderSize ≤ s.lines.length then none
      else some (.header s.lines.length, (maxHeaderSize - s.lines.length) % 2 ^ 32)

/-- The reader copies a piece to the place; `none` is a write behind the block. -/
def store (s : ReqDecoder) (place : Place) (piece : List UInt8) : Option ReqDecoder :=
  match place with
  | .header off => (writeAt s.lines.block off piece).map fun block =>
      { s with lines := { s.lines with block := block } }
  | .body off => (writeAt s.body off piece).map fun body => { s with body := body }

/-- `header_length_ += length`. It is an `int`: a sum from 2^31 on turns negative, so that no line is
found and the next `GetBuffer` fails. `none` stands for that. -/
def growHeader (s : ReqDecoder) (length : Nat) : Option ReqDecoder :=
  if s.lines.length + length < 2 ^ 31 then some { s with lines := s.lines.grow length } else none

/-- The request that is handed over. -/
def message (s : ReqDecoder) : HttpRequest :=
  if 0 < s.request.getContentLength then { s.request with content := s.body } else s.request

/-- The state and the messages; `none` is an assertion that fails or a negative code. -/
def feed (junk : Nat → UInt8) (s : ReqDecoder) (buf : Place) (length : Nat) :
    Option (ReqDecoder × List HttpRequest) :=
  let result : Option (Int × ReqDecoder) :=
    match s.status with
    | .firstLine =>
        if buf = .header s.lines.length then (growHeader s length).bind (parseFirstLine junk) else none
    | .header =>
        if buf = .header s.lines.length then (growHeader s length).bind (parseHeader junk) else none
    | .body =>
        if buf = .body s.bodyRead then
          let s := { s with bodyRead := s.bodyRead + length }
          some (readBody s, s)
        else none
  result.bind fun (ret, s) =>
    if ret = 0 then some (s, []) else if ret = 1 then some (s.reset, [message s]) else none

/-- `GetBuffer`, the copy of the reader and `Feed`. -/
def deliver (maxHeaderSize : Nat) (junk : Nat → UInt8) (s : ReqDecoder) (piece : List UInt8) :
    Option (ReqDecoder × List HttpRequest) :=
  (getBuffer maxHeaderSize s).bind fun (place, _) =>
    (store s place piece).bind fun s => feed junk s place piece.length

/-- The decoder as its reader drives it. -/
def decoder (maxHeaderSize : Nat) (junk : Nat → UInt8) : Decoder ReqDecoder HttpRequest :=
  ⟨fun s => (getBuffer maxHeaderSize s).map Prod.snd, deliver maxHeaderSize junk⟩

/-- After `Init`. -/
def initial (maxHeaderSize : Nat) (junk : Nat → UInt8) : ReqDecoder :=
  { lines := { block := malloc junk maxHeaderSize } }

/-! ## Requests -/

/-- The headers of a head, the last value of a name. -/
def headersOf (h : RequestHead) : List (List UInt8 × List UInt8) :=
  h.fields.foldl (fun headers field => setParam headers field.name field.value) []

/-- What is to be reported for a head and the body that follows it. -/
def expected (h : RequestHead) (body : List UInt8) : HttpRequest :=
  { method := some h.method
    uri := parseUri {} h.uri
    versionMinor := h.minor
    headers := headersOf h
    content := body }

/-- All pieces are accepted, and the request is reported with the last one. -/
def Decodes (maxHeaderSize : Nat) (junk : Nat → UInt8) (h : RequestHead) (body : List UInt8)
    (pieces : List (List UInt8)) : Prop :=
  (decoder maxHeaderSize junk).Emits (initial maxHeaderSize junk) pieces [expected h body]

/-- No piece but the last one ends behind the request line, there is no body, no header name starts
with "content-length", and the length of the head is an `int`. -/
structure Clear (h : RequestHead) (body : List UInt8) (pieces : List (List UInt8)) : Prop where
  cuts : ∀ cut ∈ cutsFrom 0 pieces, h.line.length + 2 ≤ cut → h.text.length ≤ cut
  body : body = []
  names : ∀ field ∈ h.fields, startsWithNoCase field.name contentLengthName = false
  range : h.text.length < 2 ^ 31

/-! ## One exchange -/

section Exchange

variable {maxHeaderSize : Nat} {junk : Nat → UInt8} {s : ReqDecoder} {piece : List UInt8}

/-- What the reader sees of a return code. -/
def conclude (result : Int × ReqDecoder) : Option (ReqDecoder × List HttpRequest) :=
  if result.1 = 0 then some (result.2, [])
  else if result.1 = 1 then some (result.2.reset, [message result.2])
  else none

theorem deliver_firstLine {lines : LineBuffer} (status : s.status = .firstLine)
    (space : s.lines.length < maxHeaderSize) (copied : s.lines.copy piece = some lines)
    (range : lines.length + piece.length < 2 ^ 31) :
    deliver maxHeaderSize junk s piece =
      (parseFirstLine junk { s with lines := lines.grow piece.length }).bind conclude := by
  obtain ⟨block, written, rfl⟩ := Option.map_eq_some_iff.mp copied
  obtain ⟨request, status', lines, body, bodyLength, bodyRead⟩ := s
  obtain rfl : status' = .firstLine := status
  have offered : getBuffer maxHeaderSize ⟨request, .firstLine, lines, body, bodyLength, bodyRead⟩ =
      some (.header lines.length, (maxHeaderSize - lines.length) % 2 ^ 32) :=
    if_neg (Nat.not_le.mpr space)
  rw [deliver, offered, Option.bind_some]
  dsimp only at written range ⊢
  rw [store, written, Option.map_some, Option.bind_some, feed]
  dsimp only
  rw [if_pos rfl, growHeader, if_pos range]
  rfl

/-- No room for more header data. -/
theorem deliver_full (status : s.status = .firstLine) (full : maxHeaderSize ≤ s.lines.length) :
    deliver maxHeaderSize junk s piece = none := by
  have failed : getBuffer maxHeaderSize s = none := by
    rw [getBuffer, status]
    exact if_pos full
  rw [deliver, failed]
  rfl

/-- A header length that is no `int`. -/
theorem deliver_overflow (status : s.status = .firstLine)
    (large : 2 ^ 31 ≤ s.lines.length + piece.length) : deliver maxHeaderSize junk s piece = none := by
  by_cases full : maxHeaderSize ≤ s.lines.length
  · exact deliver_full status full
  · obtain ⟨request, status', lines, body, bodyLength, bodyRead⟩ := s
    obtain rfl : status' = .firstLine := status
    have offered : getBuffer maxHeaderSize ⟨request, .firstLine, lines, body, bodyLength, bodyRead⟩ =
        some (.header lines.length, (maxHeaderSize - lines.length) % 2 ^ 32) := if_neg full
    rw [deliver, offered, Option.bind_some]
    dsimp only at large ⊢
    rw [store]
    cases writeAt lines.block lines.length piece with
    | none => rfl
    | some block =>
        rw [Option.map_some, Option.bind_some, feed]
        dsimp only
        rw [if_pos rfl, growHeader, if_neg (Nat.not_lt.mpr large)]
        rfl

end Exchange

/-! ## Lines that are not complete -/

/-- The decoder waits for the end of `line`, of which `part` has arrived. -/
structure Reading (maxHeaderSize : Nat) (line part : List UInt8) (s : ReqDecoder) : Prop where
  status : s.status = .firstLine
  size : s.lines.block.length = maxHeaderSize
  scanning : Scanning line part s.lines

section Read

variable {maxHeaderSize : Nat} {junk : Nat → UInt8} {s : ReqDecoder}
variable {line part piece tail : List UInt8} {pieces : List (List UInt8)}

theorem Reading.room (reading : Reading maxHeaderSize line part s)
    (space : s.lines.length < maxHeaderSize)
    (within : (decoder maxHeaderSize junk).Within s (piece :: pieces)) :
    s.lines.length + piece.length ≤ s.lines.block.length := by
  have offered : (decoder maxHeaderSize junk).offered s =
      some ((maxHeaderSize - s.lines.length) % 2 ^ 32) := by
    show (getBuffer maxHeaderSize s).map Prod.snd = _
    rw [getBuffer, reading.status]
    dsimp only
    rw [if_neg (Nat.not_le.mpr space)]
    rfl
  have bound := within.1.2 _ offered
  have size := reading.size
  have less := Nat.mod_le (maxHeaderSize - s.lines.length) (2 ^ 32)
  omega

/-- A piece inside of the line is kept. -/
theorem Reading.more (reading : Reading maxHeaderSize line part s) (plain : ∀ c ∈ line, c ≠ 13)
    (space : s.lines.length < maxHeaderSize)
    (within : (decoder maxHeaderSize junk).Within s (piece :: pieces))
    (range : s.lines.length + piece.length < 2 ^ 31)
    (isPart : part ++ piece <+: line ++ crlf) (short : (part ++ piece).length < line.length + 2) :
    ∃ s', deliver maxHeaderSize junk s piece = some (s', []) ∧
      Reading maxHeaderSize line (part ++ piece) s' ∧ s'.lines.lineStart = s.lines.lineStart ∧
      s'.request = s.request ∧ s'.lines.length = s.lines.length + piece.length := by
  obtain ⟨b, b', copied, same, search, scanning, lineStart, _, length, size⟩ :=
    reading.scanning.more plain (reading.room space within) isPart short
  refine ⟨{ s with lines := b' }, ?_, ⟨reading.status, size.trans reading.size, scanning⟩, lineStart,
    rfl, length⟩
  rw [deliver_firstLine reading.status space copied (same.symm ▸ range), parseFirstLine, search]
  rfl

end Read

/-! ## A header line in place of a request line -/

section Stuck

variable {maxHeaderSize : Nat} {junk : Nat → UInt8} {s : ReqDecoder} {fields : List HeaderField}
variable {line part piece tail later : List UInt8} {pieces : List (List UInt8)}

theorem startRequest_refuses (isLine : IsLine fields line) (behind : 2 ≤ s.lines.lineStart)
    (text : s.lines.current = line ++ crlf ++ tail) :
    (startRequest junk s (s.lines.lineStart + line.length)).bind conclude = none := by
  rw [startRequest]
  cases ended : writeAt s.lines.block (s.lines.lineStart + (s.lines.lineStart + line.length)) [0] with
  | none => rfl
  | some block =>
      obtain ⟨rest, string⟩ :=
        end_laterLine (fun c member => (isLine.ok c member).2) behind text ended
      rw [Option.bind_some]
      dsimp only
      rw [string, parseMethod_isLine isLine]
      rfl

/-- A decoder that waits for a header line reports nothing any more. -/
theorem Reading.not_emits (reading : Reading maxHeaderSize line part s) (isLine : IsLine fields line)
    (behind : 2 ≤ s.lines.lineStart) (stream : part ++ pieces.flatten = line ++ crlf ++ later)
    (within : (decoder maxHeaderSize junk).Within s pieces) (m : HttpRequest) :
    ¬ (decoder maxHeaderSize junk).Emits s pieces [m] := by
  induction pieces generalizing part s with
  | nil => exact fun emits => absurd (Decoder.emits_nil.mp emits) (List.cons_ne_nil _ _)
  | cons piece rest ih =>
      rcases Nat.lt_or_ge s.lines.length maxHeaderSize with space | full
      · rcases Nat.lt_or_ge (s.lines.length + piece.length) (2 ^ 31) with range | large
        · rw [List.flatten_cons, ← List.append_assoc] at stream
          rcases piece_cases stream with ⟨short, isPart⟩ | ⟨tail, done, -⟩
          · obtain ⟨s', delivered, reading', sameStart, -, -⟩ := reading.more
              (fun c member => (isLine.ok c member).1) space within range isPart short
            rw [Decoder.emits_cons_nil delivered]
            exact ih reading' (by omega) stream (within.tail delivered)
          · obtain ⟨b, copied, -, length, lineStart, text, search⟩ := reading.scanning.found
              (fun c member => (isLine.ok c member).1) (reading.room space within) done
            refine Decoder.not_emits (?_ : deliver maxHeaderSize junk s piece = none)
            rw [deliver_firstLine reading.status space copied (length.symm ▸ range), parseFirstLine,
              search]
            exact startRequest_refuses (s := { s with lines := { b.grow piece.length with
              parsePos := b.lineStart + line.length + 2 } }) isLine (lineStart ▸ behind) text
        · exact Decoder.not_emits (deliver_overflow reading.status large)
      · exact Decoder.not_emits (deliver_full reading.status full)

end Stuck

/-! ## The request line -/

/-- The request after its request line. -/
def startOf (h : RequestHead) : HttpRequest :=
  { method := some h.method, uri := parseUri {} h.uri, versionMinor := h.minor }

/-- The request after its head. -/
def requestOf (h : RequestHead) : HttpRequest :=
  h.fields.foldl (fun request field => applyHeader request field.name field.value) (startOf h)

/-- The decoder stands behind the request line, in front of `tail`. -/
structure AfterLine (maxHeaderSize : Nat) (h : RequestHead) (tail : List UInt8) (s : ReqDecoder) :
    Prop where
  status : s.status = .firstLine
  size : s.lines.block.length = maxHeaderSize
  filled : s.lines.length ≤ s.lines.block.length
  parsePos : s.lines.parsePos = h.line.length + 2
  atLine : AtLine tail s.lines
  request : s.request = startOf h

section LineDone

variable {maxHeaderSize : Nat} {junk : Nat → UInt8} {h : RequestHead} {s : ReqDecoder}
variable {part piece tail : List UInt8} {pieces : List (List UInt8)}

variable (junk) in
/-- The request line, in the buffer from the start on. -/
theorem startRequest_line (atStart : s.lines.lineStart = 0)
    (size : s.lines.block.length = maxHeaderSize) (filled : s.lines.length ≤ s.lines.block.length)
    (fresh : s.request = {}) (status : s.status = .firstLine)
    (text : s.lines.current = h.line ++ crlf ++ tail)
    (parsePos : s.lines.parsePos = h.line.length + 2) :
    ∃ s', startRequest junk s h.line.length = parseHeader junk s' ∧
      AfterLine maxHeaderSize h tail s' := by
  obtain ⟨ended, written, lineString, bytes, length, atLine⟩ := end_firstLine atStart filled
    (fun c member => (h.line_plain c member).2) text parsePos
  obtain ⟨rest, lineEq, last⟩ := h.line_cut
  have lastByte : ended[0 + (h.line.length - 0 - 1)]? = some (minorDigit h.minor) := by
    rw [List.getLast?_eq_getElem?] at last
    have inLine : h.line.length - 1 < h.line.length := by
      rw [lineEq, List.length_append, List.length_append, List.length_cons]
      omega
    rw [Nat.zero_add, Nat.sub_zero, bytes _ inLine]
    exact last
  refine ⟨{ s with
    lines := { s.lines with block := ended, lineStart := s.lines.parsePos }
    request := { s.request with
      method := some h.method, uri := parseUri s.request.uri h.uri, versionMinor := h.minor } },
    ?_, ⟨status, length.trans size, by rw [length]; exact filled, parsePos, atLine,
      by rw [fresh]; rfl⟩⟩
  rw [startRequest, atStart, Nat.zero_add, written, Option.bind_some]
  dsimp only
  rw [List.drop_zero, lineString, lineEq, parseMethod_line, ← lineEq]
  dsimp only
  rw [if_pos (by simp), takeWhile_uri, lastByte, minor_eq]

/-- The piece that completes the request line. -/
theorem Reading.firstLine (reading : Reading maxHeaderSize h.line part s)
    (atStart : s.lines.lineStart = 0) (fresh : s.request = {})
    (space : s.lines.length < maxHeaderSize)
    (within : (decoder maxHeaderSize junk).Within s (piece :: pieces))
    (range : s.lines.length + piece.length < 2 ^ 31)
    (done : part ++ piece = h.line ++ crlf ++ tail) :
    ∃ s', deliver maxHeaderSize junk s piece = (parseHeader junk s').bind conclude ∧
      AfterLine maxHeaderSize h tail s' := by
  have room := reading.room space within
  obtain ⟨b, copied, size, length, lineStart, text, search⟩ :=
    reading.scanning.found (fun c member => (h.line_plain c member).1) room done
  rw [atStart] at lineStart
  rw [lineStart, Nat.zero_add] at search
  obtain ⟨s', started, after⟩ := startRequest_line junk
    (s := { s with lines := { b.grow piece.length with parsePos := h.line.length + 2 } })
    lineStart (size.trans reading.size) (by
      show b.length + piece.length ≤ b.block.length
      omega) fresh reading.status text rfl
  refine ⟨s', ?_, after⟩
  rw [deliver_firstLine reading.status space copied (length.symm ▸ range), parseFirstLine, search]
  exact congrArg (Option.bind · conclude) started

theorem AfterLine.enough (after : AfterLine maxHeaderSize h tail s) :
    tail.length < s.lines.length + 1 := by
  have total := after.atLine.total
  omega

/-- The rest of the header lines is taken for a request line. -/
theorem AfterLine.not_emits {body : List UInt8} (after : AfterLine maxHeaderSize h tail s)
    (inside : tail.length < (fieldsText h.fields).length)
    (stream : tail ++ pieces.flatten = fieldsText h.fields ++ body)
    {first : ReqDecoder}
    (step : deliver maxHeaderSize junk first piece = (parseHeader junk s).bind conclude)
    (within : (decoder maxHeaderSize junk).Within first (piece :: pieces)) (m : HttpRequest) :
    ¬ (decoder maxHeaderSize junk).Emits first (piece :: pieces) [m] := by
  obtain ⟨missing, whole⟩ : tail <+: fieldsText h.fields :=
    List.prefix_of_prefix_length_le (stream ▸ List.prefix_append _ _) (List.prefix_append _ _)
      (Nat.le_of_lt inside)
  have some' : missing ≠ [] := by
    rintro rfl
    rw [List.append_nil] at whole
    rw [whole] at inside
    exact Nat.lt_irrefl _ inside
  obtain ⟨b, request, parsed, ⟨line, part', later, isLine, scanning, behind, next⟩, block, _⟩ :=
    headerLoop_partial after.enough after.atLine after.filled whole some'
  have stays : deliver maxHeaderSize junk first piece =
      some ({ s with lines := b, request := request }, []) := by
    rw [step, parseHeader, parsed]
    rfl
  have reading : Reading maxHeaderSize line part' { s with lines := b, request := request } :=
    ⟨after.status, by rw [block]; exact after.size, scanning⟩
  have ahead : part' ++ pieces.flatten = line ++ crlf ++ (later ++ body) := by
    have rest : pieces.flatten = missing ++ body := by
      rw [← whole, List.append_assoc] at stream
      exact List.append_cancel_left stream
    rw [rest, ← List.append_assoc, next, List.append_assoc]
  have enough : 2 ≤ b.lineStart := by
    have position := after.parsePos
    omega
  rw [Decoder.emits_cons_nil stays]
  exact reading.not_emits isLine enough ahead (within.tail stays) m

theorem applyHeader_content (request : HttpRequest) (name value : List UInt8) :
    (applyHeader request name value).content = request.content := by
  unfold applyHeader
  split <;> rfl

theorem requestOf_content (h : RequestHead) : (requestOf h).content = [] := by
  suffices all : ∀ (fields : List HeaderField) (request : HttpRequest),
      (fields.foldl (fun request field => applyHeader request field.name field.value)
        request).content = request.content from all h.fields (startOf h)
  intro fields
  induction fields with
  | nil => exact fun request => rfl
  | cons field fields ih =>
      intro request
      rw [List.foldl_cons, ih, applyHeader_content]

variable (junk) in
/-- With its whole head the request is reported, without any content. -/
theorem AfterLine.complete {left : List UInt8}
    (after : AfterLine maxHeaderSize h (fieldsText h.fields ++ left) s) :
    ∃ s', (parseHeader junk s).bind conclude = some (s', [requestOf h]) := by
  obtain ⟨b, parsed, -⟩ : ∃ b, headerLoop applyHeader (s.lines.length + 1) s.lines s.request =
      .done b (h.fields.foldl (fun request field => applyHeader request field.name field.value)
        s.request) ∧ _ := headerLoop_complete after.enough after.atLine
  have request : h.fields.foldl (fun request field => applyHeader request field.name field.value)
      s.request = requestOf h := by
    rw [after.request]
    rfl
  rw [request] at parsed
  have empty : ¬ 0 < (requestOf h).getContentLength := by
    rw [HttpRequest.getContentLength, requestOf_content]
    exact Nat.lt_irrefl _
  have ended : endHeader junk { s with lines := b, request := requestOf h } =
      some (1, { s with lines := b, request := requestOf h, status := .body }) := if_neg empty
  rw [parseHeader, parsed]
  dsimp only
  rw [ended]
  exact ⟨_, by
    show some (_, [message _]) = _
    rw [message, if_neg empty]⟩

end LineDone

/-! ## Header fields -/

section Headers

/-- A name that was set stays there. -/
theorem mem_setParam {headers : List (List UInt8 × List UInt8)} {name key value : List UInt8}
    (known : ∃ v, (name, v) ∈ headers) : ∃ v, (name, v) ∈ setParam headers key value := by
  obtain ⟨v, member⟩ := known
  by_cases same : name = key
  · exact ⟨value, List.mem_append_right _ (by rw [same]; exact List.mem_singleton_self _)⟩
  · exact ⟨v, List.mem_append_left _ (List.mem_filter.mpr ⟨member, bne_iff_ne.mpr same⟩)⟩

theorem mem_headers {fields : List HeaderField} {headers : List (List UInt8 × List UInt8)}
    {name : List UInt8} (known : (∃ field ∈ fields, field.name = name) ∨ ∃ v, (name, v) ∈ headers) :
    ∃ v, (name, v) ∈ fields.foldl (fun headers field => setParam headers field.name field.value)
      headers := by
  induction fields generalizing headers with
  | nil => exact known.resolve_left fun ⟨_, member, _⟩ => nomatch member
  | cons field fields ih =>
      rw [List.foldl_cons]
      rcases known with ⟨field', member, isName⟩ | known
      · rcases List.mem_cons.mp member with rfl | later
        · exact ih (Or.inr ⟨field'.value, List.mem_append_right _ (by
            rw [isName]
            exact List.mem_singleton_self _)⟩)
        · exact ih (Or.inl ⟨field', later, isName⟩)
      · exact ih (Or.inr (mem_setParam known))

/-- No name that starts with "content-length" gets into the headers. -/
theorem applyHeader_names {request : HttpRequest} {name value : List UInt8}
    (clean : ∀ header ∈ request.headers, startsWithNoCase header.1 contentLengthName = false) :
    ∀ header ∈ (applyHeader request name value).headers,
      startsWithNoCase header.1 contentLengthName = false := by
  unfold applyHeader
  split
  · exact clean
  · next other =>
      intro header member
      rcases List.mem_append.mp member with kept | new
      · exact clean header (List.mem_filter.mp kept).1
      · rw [List.mem_singleton.mp new]
        exact Bool.eq_false_iff.mpr other

theorem foldl_names {fields : List HeaderField} {request : HttpRequest}
    (clean : ∀ header ∈ request.headers, startsWithNoCase header.1 contentLengthName = false) :
    ∀ header ∈ (fields.foldl (fun request field => applyHeader request field.name field.value)
      request).headers, startsWithNoCase header.1 contentLengthName = false := by
  induction fields generalizing request with
  | nil => exact clean
  | cons field fields ih => exact ih (applyHeader_names clean)

/-- Without such names all fields are kept. -/
theorem foldl_plain {fields : List HeaderField} {request : HttpRequest}
    (names : ∀ field ∈ fields, startsWithNoCase field.name contentLengthName = false) :
    fields.foldl (fun request field => applyHeader request field.name field.value) request =
      { request with
        headers := fields.foldl (fun headers field => setParam headers field.name field.value)
          request.headers } := by
  induction fields generalizing request with
  | nil => rfl
  | cons field fields ih =>
      obtain ⟨first, others⟩ := List.forall_mem_cons.mp names
      have kept : applyHeader request field.name field.value =
          { request with headers := setParam request.headers field.name field.value } :=
        if_neg (Bool.eq_false_iff.mp first)
      rw [List.foldl_cons, kept, ih others]
      rfl

/-- The reported request is the expected one when there is no content to miss and no header to
drop. -/
theorem requestOf_eq_expected_iff (h : RequestHead) (body : List UInt8) :
    requestOf h = expected h body ↔
      body = [] ∧ ∀ field ∈ h.fields, startsWithNoCase field.name contentLengthName = false := by
  constructor
  · intro same
    refine ⟨?_, fun field member => ?_⟩
    · have content := congrArg HttpRequest.content same
      rw [requestOf_content] at content
      exact content.symm
    · obtain ⟨v, there⟩ : ∃ v, (field.name, v) ∈ headersOf h :=
        mem_headers (Or.inl ⟨field, member, rfl⟩)
      have headers : (requestOf h).headers = headersOf h := congrArg HttpRequest.headers same
      have clean : ∀ header ∈ (requestOf h).headers,
          startsWithNoCase header.1 contentLengthName = false :=
        foldl_names fun header member => nomatch member
      exact clean (field.name, v) (headers ▸ there)
  · rintro ⟨rfl, names⟩
    exact foldl_plain names

end Headers

/-! ## Segmentation -/

section Segments

variable {maxHeaderSize : Nat} {junk : Nat → UInt8} {h : RequestHead} {s : ReqDecoder}
variable {body part : List UInt8} {pieces : List (List UInt8)}

/-- What has to hold of the pieces that are still to come, when the first `base` bytes have
arrived. -/
def ClearFrom (h : RequestHead) (body : List UInt8) (base : Nat) (pieces : List (List UInt8)) :
    Prop :=
  (∀ cut ∈ cutsFrom base pieces, h.line.length + 2 ≤ cut → h.text.length ≤ cut) ∧
    requestOf h = expected h body ∧ h.text.length < 2 ^ 31

/-- The piece that completes the request line decides. -/
theorem Reading.emits_iff_last {piece tail : List UInt8} {rest : List (List UInt8)}
    (reading : Reading maxHeaderSize h.line part s) (atStart : s.lines.lineStart = 0)
    (fresh : s.request = {}) (space : s.lines.length < maxHeaderSize)
    (within : (decoder maxHeaderSize junk).Within s (piece :: rest))
    (range : s.lines.length + piece.length < 2 ^ 31)
    (done : part ++ piece = h.line ++ crlf ++ tail)
    (stream : tail ++ rest.flatten = fieldsText h.fields ++ body) :
    (decoder maxHeaderSize junk).Emits s (piece :: rest) [expected h body] ↔
      ClearFrom h body part.length (piece :: rest) := by
  have lengths : part.length + piece.length = h.line.length + 2 + tail.length := by
    rw [← List.length_append, done, List.length_append, List.length_append]
    rfl
  have size := length_text h
  have filled := reading.scanning.started
  rw [atStart, Nat.zero_add] at filled
  obtain ⟨s', step, after⟩ := reading.firstLine atStart fresh space within range done
  rcases Nat.lt_or_ge tail.length (fieldsText h.fields).length with inside | behind
  · constructor
    · intro emits
      exact absurd emits (after.not_emits inside stream step within _)
    · rintro ⟨cuts, -, -⟩
      have here := cuts (part.length + piece.length) List.mem_cons_self (by omega)
      omega
  · obtain ⟨left, rfl⟩ : fieldsText h.fields <+: tail :=
      List.prefix_of_prefix_length_le (List.prefix_append _ _) (stream ▸ List.prefix_append _ _)
        behind
    rw [List.length_append] at lengths
    rw [List.append_assoc] at stream
    have bodyEq : left ++ rest.flatten = body := List.append_cancel_left stream
    obtain ⟨s'', complete⟩ := after.complete junk
    have delivered : deliver maxHeaderSize junk s piece = some (s'', [requestOf h]) :=
      step.trans complete
    rw [Decoder.emits_cons_iff delivered]
    constructor
    · rintro ⟨later, same, -⟩
      refine ⟨fun cut member _ => ?_, (List.cons.inj same).1.symm, by omega⟩
      rcases List.mem_cons.mp member with rfl | later
      · omega
      · have base := le_of_mem_cutsFrom later
        omega
    · rintro ⟨-, same, -⟩
      have empty := ((requestOf_eq_expected_iff h body).mp same).1
      rw [empty] at bodyEq
      obtain rfl := (within.tail delivered).eq_nil_of_flatten (List.append_eq_nil_iff.mp bodyEq).2
      exact ⟨[], by rw [same]; rfl, Decoder.emits_nil.mpr rfl⟩

theorem Reading.emits_iff (reading : Reading maxHeaderSize h.line part s)
    (atStart : s.lines.lineStart = 0) (fresh : s.request = {})
    (fits : h.text.length < maxHeaderSize) (stream : part ++ pieces.flatten = h.text ++ body)
    (within : (decoder maxHeaderSize junk).Within s pieces) :
    (decoder maxHeaderSize junk).Emits s pieces [expected h body] ↔
      ClearFrom h body part.length pieces := by
  have size := length_text h
  induction pieces generalizing part s with
  | nil =>
      have short := reading.scanning.short
      have lengths := congrArg List.length stream
      rw [List.flatten_nil, List.append_nil, List.length_append] at lengths
      omega
  | cons piece rest ih =>
      have short := reading.scanning.short
      have filled := reading.scanning.started
      rw [atStart, Nat.zero_add] at filled
      have space : s.lines.length < maxHeaderSize := by omega
      have joined : (part ++ piece).length = part.length + piece.length := List.length_append
      rw [List.flatten_cons, ← List.append_assoc] at stream
      rcases Nat.lt_or_ge (s.lines.length + piece.length) (2 ^ 31) with range | large
      · have stream' : part ++ piece ++ rest.flatten =
            h.line ++ crlf ++ (fieldsText h.fields ++ body) := by
          rw [stream, RequestHead.text, List.append_assoc]
        rcases piece_cases stream' with ⟨open', isPart⟩ | ⟨tail, done, later⟩
        · obtain ⟨s', delivered, reading', sameStart, sameRequest, -⟩ := reading.more
            (fun c member => (h.line_plain c member).1) space within range isPart open'
          refine (Decoder.emits_cons_nil delivered).trans ((ih reading' (sameStart.trans atStart)
            (sameRequest.trans fresh) stream (within.tail delivered)).trans ?_)
          rw [ClearFrom, ClearFrom, joined, cutsFrom, List.forall_mem_cons]
          have vacuous : h.line.length + 2 ≤ part.length + piece.length →
              h.text.length ≤ part.length + piece.length := by
            intro behind
            omega
          exact and_congr_left fun _ => (and_iff_right vacuous).symm
        · exact reading.emits_iff_last atStart fresh space within range done later
      · constructor
        · intro emits
          exact absurd emits (Decoder.not_emits (deliver_overflow reading.status large))
        · rintro ⟨-, same, small⟩
          have empty := ((requestOf_eq_expected_iff h body).mp same).1
          have lengths := congrArg List.length stream
          rw [empty, List.append_nil, List.length_append] at lengths
          omega

theorem initial_reading (maxHeaderSize : Nat) (junk : Nat → UInt8) (h : RequestHead) :
    Reading maxHeaderSize h.line [] (initial maxHeaderSize junk) where
  status := rfl
  size := length_malloc _ _
  scanning := scanning_fresh (malloc junk maxHeaderSize) h.line

/-- A request is decoded from its pieces just when no piece but the last one ends behind the request
line, it has no body and no field that starts with "content-length", and its length is an `int`. The
parts of a well-formed URI are those of the request. -/
theorem decodes_iff_unambiguous (fits : h.text.length < maxHeaderSize)
    (stream : pieces.flatten = h.text ++ body)
    (within : (decoder maxHeaderSize junk).Within (initial maxHeaderSize junk) pieces) :
    (Decodes maxHeaderSize junk h body pieces ↔ Clear h body pieces) ∧
      ∀ t : Target, h.uri = t.text → (expected h body).uri = t.uri := by
  constructor
  · refine ((initial_reading maxHeaderSize junk h).emits_iff rfl rfl fits stream within).trans ?_
    rw [ClearFrom, requestOf_eq_expected_iff]
    exact ⟨fun ⟨cuts, ⟨body, names⟩, range⟩ => ⟨cuts, body, names, range⟩,
      fun clear => ⟨clear.cuts, ⟨clear.body, clear.names⟩, clear.range⟩⟩
  · intro t isUri
    rw [expected, isUri]
    exact parseUri_text t

/-- `GET /?b=A` with an escaped value. -/
def target : Target :=
  ⟨[47], none, [⟨[98], [.escaped 52 49 4 1 rfl rfl], by decide +kernel⟩], by decide +kernel,
    fun _ found => nomatch found⟩

/-- `GET` for the URI, with version 1.1 and no fields. -/
def getHead : RequestHead := ⟨.get, target.text, 1, [], by decide +kernel⟩

/-- `POST /` with version 1.0 and one byte of content. -/
def postHead : RequestHead :=
  ⟨.post, [47], 0, [⟨contentLengthName, [49], by decide +kernel, by decide +kernel, one_plain⟩],
    rootPath_plain⟩

/-- A cut inside of the request line. -/
theorem decodes_iff_unambiguous_getHead :
    Decodes 64 (fun _ => 0) getHead [] [getHead.text.take 3, getHead.text.drop 3] ∧
      (expected getHead []).uri = target.uri := by
  have fits : getHead.text.length < 64 := by decide
  have stream : [getHead.text.take 3, getHead.text.drop 3].flatten = getHead.text ++ [] := by decide
  have within : (decoder 64 fun _ => 0).Within (initial 64 fun _ => 0)
      [getHead.text.take 3, getHead.text.drop 3] := by decide +kernel
  have clear : Clear getHead [] [getHead.text.take 3, getHead.text.drop 3] :=
    ⟨by decide, rfl, (fun _ member => nomatch member), by decide⟩
  exact ⟨(decodes_iff_unambiguous fits stream within).1.mpr clear,
    (decodes_iff_unambiguous fits stream within).2 target rfl⟩

/-- A cut behind the request line, and a request with content. -/
theorem httpRequests_not_decoded :
    ([(getHead.line ++ crlf), crlf].flatten = getHead.text ++ [] ∧
        (decoder 64 fun _ => 0).Within (initial 64 fun _ => 0) [getHead.line ++ crlf, crlf] ∧
        ¬ Decodes 64 (fun _ => 0) getHead [] [getHead.line ++ crlf, crlf]) ∧
      (decoder 64 fun _ => 0).Within (initial 64 fun _ => 0) [postHead.text ++ [120]] ∧
        ¬ Decodes 64 (fun _ => 0) postHead [120] [postHead.text ++ [120]] := by
  refine ⟨⟨by decide, by decide +kernel, Decoder.not_emits_of_isNone (by decide +kernel)⟩,
    by decide +kernel, ?_⟩
  rintro ⟨s, done⟩
  have reported : ((decoder 64 fun _ => 0).feedAll (initial 64 fun _ => 0)
      [postHead.text ++ [120]]).map (fun result => result.2.map HttpRequest.content) = some [[]] := by
    decide +kernel
  rw [done] at reported
  cases reported

end Segments

end MlsImgSearch.Blitz2.HttpReqDecoder
