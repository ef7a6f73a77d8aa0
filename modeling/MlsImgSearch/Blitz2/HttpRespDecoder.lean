import MlsImgSearch.Blitz.HttpRespSegments

/-!
# The second decoder of HTTP responses

The decoder is that of `blitz` but for the blank line: `chunked` is compared with
its case, and the value of `Content-Length` is used without a look whether there is
one. Nothing sets the state `kHeader` here either.
-/

namespace MlsImgSearch.Blitz2.HttpRespDecoder

open Lib.Bytes Lib.Segmentation Blitz.HttpCommon
open Blitz.HttpRespDecoder (RespDecoder Status Place getBuffer store readChunkSize readChunkData
  chunkFuel readBody applyHeader httpMark transferEncodingName contentLengthName chunkedMark message
  ResponseHead Reading AfterLine Filling finish)

/-! ## The decoder -/

structure HttpResponse where
  versionMinor : Int := 1
  code : Int := 200
  headers : List (List UInt8 × List UInt8) := []
  content : List UInt8 := []
  deriving DecidableEq

/-- The response that the decoder hands over; its content has been attached. -/
def report (m : Blitz.HttpRespDecoder.HttpResponse) : HttpResponse :=
  ⟨m.versionMinor, m.code, m.params, m.content.getD []⟩

def isChunked (response : Blitz.HttpRespDecoder.HttpResponse) : Bool :=
  getHeader response.params transferEncodingName == some chunkedMark

/-- The blank line. `none` is a null pointer for a missing `Content-Length`, or the assertion that
the rest of the buffer belongs to the body. -/
def endHeader (junk : Nat → UInt8) (s : RespDecoder) : Option (Int × RespDecoder) :=
  if isChunked s.response then readChunkSize junk (chunkFuel s) { s with status := .chunkSize }
  else
    (getHeader s.response.params contentLengthName).bind fun str =>
      if 0 < atoi str then
        let left := s.lines.unread
        if (atoi str).toNat < left.length then none
        else
          (writeAt (malloc junk (atoi str).toNat) 0 left).map fun body =>
            let s := { s with
              status := .body, body := some body, bodyLength := (atoi str).toNat
              bodyRead := left.length }
            (readBody s, s)
      else some (1, s)

/-- Each turn of the loop reads two bytes or more, so that this fuel is enough. -/
def parseHeader (junk : Nat → UInt8) (s : RespDecoder) : Option (Int × RespDecoder) :=
  match headerLoop applyHeader (s.lines.length + 1) s.lines s.response with
  | .more lines response => some (0, { s with lines := lines, response := response })
  | .bad lines response => some (-1, { s with lines := lines, response := response })
  | .done lines response => endHeader junk { s with lines := lines, response := response }

/-- A line has been found. The zero that ends it goes to `line_end_` bytes behind its start; `none`
is an access behind the buffer. -/
def startResponse (junk : Nat → UInt8) (s : RespDecoder) (lineEnd : Nat) :
    Option (Int × RespDecoder) :=
  (writeAt s.lines.block (s.lines.lineStart + lineEnd) [0]).bind fun block =>
    let text : List UInt8 := block.drop s.lines.lineStart
    let moved := { s with lines := { s.lines with block := block, lineStart := s.lines.parsePos } }
    if startsWithNoCase text httpMark then
      (text[7]?).bind fun (c : UInt8) =>
        if c = 48 ∨ c = 49 then
          parseHeader junk { moved with response := { s.response with
            versionMinor := if c = 49 then 1 else 0, code := atoi (text.drop 9) } }
        else some (-1, moved)
    else some (-1, moved)

def parseFirstLine (junk : Nat → UInt8) (s : RespDecoder) : Option (Int × RespDecoder) :=
  match s.lines.searchEol with
  | (lines, none) => some (0, { s with lines := lines })
  | (lines, some lineEnd) => startResponse junk { s with lines := lines } lineEnd

/-- What `Feed` does with the piece that lies in the buffer. -/
def parse (junk : Nat → UInt8) (s : RespDecoder) (buf : Place) (length : Nat) :
    Option (Int × RespDecoder) :=
  let grown := { s with lines := s.lines.grow length }
  match s.status with
  | .firstLine => if buf = .buf s.lines.length then parseFirstLine junk grown else some (-1, s)
  | .header => if buf = .buf s.lines.length then parseHeader junk grown else some (-1, s)
  | .body =>
      if buf = .body s.bodyRead then
        let s := { s with bodyRead := s.bodyRead + length }
        some (readBody s, s)
      else some (-1, s)
  | .chunkSize =>
      if buf = .buf s.lines.length then readChunkSize junk (chunkFuel grown) grown
      else some (-1, s)
  | .chunkData | .chunkTrailer =>
      if buf = .buf s.lines.length then
        readChunkData junk (readChunkSize junk (chunkFuel grown)) grown
      else some (-1, s)

/-- What the reader sees of a return code; a negative one is `none`. -/
def conclude (result : Int × RespDecoder) : Option (RespDecoder × List HttpResponse) :=
  if result.1 = 0 then some (result.2, [])
  else if result.1 = 1 then
    some ((message result.2).2.reset, [report (message result.2).1])
  else none

def feed (junk : Nat → UInt8) (s : RespDecoder) (buf : Place) (length : Nat) :
    Option (RespDecoder × List HttpResponse) :=
  (parse junk s buf length).bind conclude

/-- `GetBuffer`, the copy of the reader and `Feed`. -/
def deliver (junk : Nat → UInt8) (s : RespDecoder) (piece : List UInt8) :
    Option (RespDecoder × List HttpResponse) :=
  (getBuffer junk s).bind fun (s, place, _) =>
    (store s place piece).bind fun s => feed junk s place piece.length

def decoder (junk : Nat → UInt8) : Decoder RespDecoder HttpResponse :=
  ⟨fun s => (getBuffer junk s).map fun (_, _, length) => length, deliver junk⟩

/-! ## One exchange -/

section Exchange

variable {junk : Nat → UInt8} {s : RespDecoder} {piece : List UInt8} {lines : LineBuffer}

theorem deliver_firstLine (status : s.status = .firstLine)
    (copied : s.lines.copy piece = some lines) :
    deliver junk s piece =
      (parseFirstLine junk { s with lines := lines.grow piece.length }).bind conclude := by
  obtain ⟨block, written, rfl⟩ := Option.map_eq_some_iff.mp copied
  simp only [deliver, getBuffer, status, store, written, Option.map_some, Option.bind_some, feed]
  simp only [parse, if_true]

theorem deliver_body {block block' : List UInt8} (status : s.status = .body)
    (isBody : s.body = some block) (written : writeAt block s.bodyRead piece = some block') :
    deliver junk s piece =
      conclude (readBody { s with body := some block', bodyRead := s.bodyRead + piece.length },
        { s with body := some block', bodyRead := s.bodyRead + piece.length }) := by
  simp only [deliver, getBuffer, status, store, isBody, written, Option.map_some, Option.bind_some,
    feed]
  simp only [parse, if_true, Option.bind_some]

/-- The reader sees what the reader of the first decoder sees, in another record. -/
theorem conclude_eq (result : Int × RespDecoder) :
    conclude result =
      (Blitz.HttpRespDecoder.conclude result).map fun (s, msgs) => (s, msgs.map report) := by
  unfold conclude Blitz.HttpRespDecoder.conclude
  split
  · rfl
  · split
    · rfl
    · rfl

theorem room_of_within {pieces : List (List UInt8)} (status : s.status = .firstLine)
    (filled : s.lines.length ≤ s.lines.block.length)
    (within : (decoder junk).Within s (piece :: pieces)) :
    s.lines.length + piece.length ≤ s.lines.block.length := by
  have bound := within.1.2 (s.lines.block.length - s.lines.length) (by
    simp only [decoder, getBuffer, status, Option.map_some])
  omega

end Exchange

/-! ## A body of known length -/

section Body

variable {junk : Nat → UInt8} {response : Blitz.HttpRespDecoder.HttpResponse}
  {body rest got piece : List UInt8} {s : RespDecoder} {pieces : List (List UInt8)}

theorem conclude_filling (filling : Filling response body got s) (isPart : got ++ rest = body)
    (nonempty : body ≠ []) :
    conclude (readBody s, s) =
      if rest = [] then some ((message s).2.reset, [report (finish response body)])
      else some (s, []) := by
  rw [conclude_eq, filling.conclude_eq isPart nonempty]
  split
  · rfl
  · rfl

variable (junk) in
/-- A piece of the body. -/
theorem deliver_filling (filling : Filling response body got s)
    (isPart : got ++ (piece ++ rest) = body) :
    ∃ s', deliver junk s piece = conclude (readBody s', s') ∧
      Filling response body (got ++ piece) s' := by
  obtain ⟨block, isBody, length, front⟩ := filling.block
  have lengths := congrArg List.length isPart
  rw [List.length_append, List.length_append] at lengths
  have room : s.bodyRead + piece.length ≤ block.length := by
    rw [filling.bodyRead]
    omega
  obtain ⟨block', written⟩ : ∃ block', writeAt block s.bodyRead piece = some block' :=
    ⟨_, writeAt_eq_some room⟩
  refine ⟨_, deliver_body filling.status isBody written, filling.status, filling.response,
    ⟨block', rfl, (length_writeAt written).trans length, ?_⟩, filling.bodyLength, ?_⟩
  · have whole := take_writeAt written
    rw [filling.bodyRead, front] at whole
    rw [List.length_append, whole]
  · rw [List.length_append, ← filling.bodyRead]

theorem emits_filling (filling : Filling response body got s)
    (isPart : got ++ pieces.flatten = body) (missing : pieces.flatten ≠ [])
    (within : (decoder junk).Within s pieces) :
    (decoder junk).Emits s pieces [report (finish response body)] := by
  induction pieces generalizing got s with
  | nil => exact absurd rfl missing
  | cons piece pieces ih =>
      rw [List.flatten_cons] at isPart
      obtain ⟨s', delivered, filling'⟩ := deliver_filling junk filling isPart
      rw [← List.append_assoc] at isPart
      have nonempty : body ≠ [] := by
        rintro rfl
        exact within.1.1 (List.append_eq_nil_iff.mp (List.append_eq_nil_iff.mp isPart).1).2
      rw [conclude_filling filling' isPart nonempty] at delivered
      by_cases done : pieces.flatten = []
      · rw [if_pos done] at delivered
        obtain rfl := (within.tail delivered).eq_nil_of_flatten done
        exact (Decoder.emits_cons_one delivered).mpr (Decoder.emits_nil.mpr rfl)
      · rw [if_neg done] at delivered
        exact (Decoder.emits_cons_nil delivered).mpr
          (ih filling' isPart done (within.tail delivered))

end Body

/-! ## The status line -/

section StatusLine

variable {junk : Nat → UInt8} {h : ResponseHead} {part piece tail : List UInt8} {s : RespDecoder}

variable (junk) in
/-- A piece inside of a line is kept. -/
theorem deliver_more {line : List UInt8} (status : s.status = .firstLine)
    (scanning : Scanning line part s.lines) (plain : ∀ c ∈ line, c ≠ 13)
    (room : s.lines.length + piece.length ≤ s.lines.block.length)
    (isPart : part ++ piece <+: line ++ crlf) (short : (part ++ piece).length < line.length + 2) :
    ∃ b, deliver junk s piece = some ({ s with lines := b }, []) ∧ Scanning line (part ++ piece) b ∧
      b.lineStart = s.lines.lineStart ∧ b.block.length = s.lines.block.length := by
  obtain ⟨b, b', copied, _, search, scanning', lineStart, _, _, size⟩ :=
    scanning.more plain room isPart short
  refine ⟨b', ?_, scanning', lineStart, size⟩
  rw [deliver_firstLine status copied, parseFirstLine, search]
  rfl

variable (junk) in
/-- The status line, in the buffer from the start on. -/
theorem startResponse_line (atStart : s.lines.lineStart = 0) (size : s.lines.block.length = 4096)
    (filled : s.lines.length ≤ s.lines.block.length)
    (fresh : s.body = none ∧ s.bodyRead = 0 ∧ s.chunkSize = 0 ∧ s.chunkLeft = 0 ∧ s.response = {})
    (text : s.lines.current = h.line ++ crlf ++ tail)
    (parsePos : s.lines.parsePos = h.line.length + 2) (status : s.status = .firstLine) :
    ∃ s', startResponse junk s h.line.length = parseHeader junk s' ∧ AfterLine h tail s' ∧
      s'.status = .firstLine ∧ s'.lines.parsePos = h.line.length + 2 := by
  obtain ⟨ended, written, -, bytes, length, atLine⟩ := end_firstLine atStart filled
    (fun c member => (h.line_plain c member).2) text parsePos
  have front : ended.take h.line.length = h.line := by
    refine List.ext_getElem? fun k => ?_
    rw [List.getElem?_take]
    split
    · next inside => exact bytes k inside
    · next beyond => exact (List.getElem?_eq_none (Nat.le_of_not_lt beyond)).symm
  have isLine := (List.take_append_drop h.line.length ended).symm
  rw [front] at isLine
  obtain ⟨starts, minor, code⟩ := h.line_cut (ended.drop h.line.length)
  rw [← isLine] at starts minor code
  have minors : ∀ m : Fin 2, (minorDigit m = 48 ∨ minorDigit m = 49) ∧
      (if minorDigit m = 49 then 1 else 0) = m.val := by decide +kernel
  refine ⟨{ s with
    lines := { s.lines with block := ended, lineStart := s.lines.parsePos }
    response := { s.response with versionMinor := h.minor, code := h.codeValue } }, ?_,
    ⟨⟨fresh.1, fresh.2.1, fresh.2.2.1, fresh.2.2.2.1⟩, length.trans size,
      by rw [length]; exact filled, atLine, by rw [fresh.2.2.2.2]; rfl⟩, status, parsePos⟩
  rw [startResponse, atStart, Nat.zero_add, written, Option.bind_some, List.drop_zero]
  dsimp only
  rw [if_pos starts, minor, Option.bind_some, if_pos (minors h.minor).1, code, (minors h.minor).2]

variable (junk) in
/-- The piece that completes the status line. -/
theorem deliver_statusLine (reading : Reading h.line part s)
    (room : s.lines.length + piece.length ≤ s.lines.block.length)
    (done : part ++ piece = h.line ++ crlf ++ tail) :
    ∃ s', deliver junk s piece = (parseHeader junk s').bind conclude ∧ AfterLine h tail s' ∧
      s'.status = .firstLine ∧ s'.lines.parsePos = h.line.length + 2 := by
  obtain ⟨b, copied, size, length, lineStart, text, search⟩ :=
    reading.scanning.found (fun c member => (h.line_plain c member).1) room done
  rw [reading.atStart] at lineStart
  rw [lineStart, Nat.zero_add] at search
  obtain ⟨s', started, after⟩ := startResponse_line junk
    (s := { s with lines := { b.grow piece.length with parsePos := h.line.length + 2 } })
    lineStart (size.trans reading.size) (by
      show b.length + piece.length ≤ b.block.length
      omega) reading.fresh text rfl reading.status
  refine ⟨s', ?_, after⟩
  rw [deliver_firstLine reading.status copied, parseFirstLine, search]
  exact congrArg (Option.bind · conclude) started

end StatusLine

/-! ## The header lines -/

section Lines

variable {junk : Nat → UInt8} {h : ResponseHead} {lines : List (List UInt8)}
  {left rest body piece : List UInt8} {s : RespDecoder} {pieces : List (List UInt8)}

variable (junk) in
/-- The whole head, or a line without a colon. -/
theorem parseHeader_lines (plain : PlainLines lines) (after : AfterLine h (linesText lines ++ left) s) :
    (applyLines applyHeader lines h.start = none ∧ (parseHeader junk s).bind conclude = none) ∨
      ∃ response s', applyLines applyHeader lines h.start = some response ∧
        parseHeader junk s = endHeader junk s' ∧ AtLine left s'.lines ∧ s'.response = response ∧
        s'.body = none := by
  have total := after.atLine.total
  have enough : (linesText lines ++ left).length < s.lines.length + 1 := by omega
  rw [← after.response]
  rcases headerLoop_lines plain enough after.atLine with
    ⟨b, response, failed, parsed⟩ | ⟨b, response, applied, parsed, atLine, -⟩
  · refine Or.inl ⟨failed, ?_⟩
    rw [parseHeader, parsed]
    rfl
  · refine Or.inr ⟨response, { s with lines := b, response := response }, applied, ?_, atLine, rfl,
      after.fresh.1⟩
    rw [parseHeader, parsed]

variable (junk) in
/-- The bytes of a body of known length that come with the end of the head. -/
theorem endHeader_length {str : List UInt8} (notChunked : isChunked s.response = false)
    (known : getHeader s.response.params contentLengthName = some str)
    (size : atoi str = body.length) (nonempty : body ≠ []) (atLine : AtLine left s.lines)
    (stream : left ++ rest = body) :
    ∃ s', (endHeader junk s).bind conclude =
        (if rest = [] then some (s', [report (finish s.response body)]) else some (s', [])) ∧
      (rest ≠ [] → Filling s.response body left s') := by
  have lengths := congrArg List.length stream
  rw [List.length_append] at lengths
  have positive := List.length_pos_of_ne_nil nonempty
  have room : 0 + left.length ≤ (malloc junk body.length).length := by
    rw [length_malloc]
    omega
  obtain ⟨block, written⟩ : ∃ block, writeAt (malloc junk body.length) 0 left = some block :=
    ⟨_, writeAt_eq_some room⟩
  have front := take_writeAt written
  rw [Nat.zero_add, List.take_zero, List.nil_append] at front
  have filling : Filling s.response body left { s with
      status := .body, body := some block, bodyLength := body.length, bodyRead := left.length } :=
    ⟨rfl, rfl, ⟨block, rfl, (length_writeAt written).trans (length_malloc _ _), front⟩, rfl, rfl⟩
  have result := conclude_filling filling stream nonempty
  rw [endHeader, if_neg (by rw [notChunked]; exact Bool.false_ne_true), known, Option.bind_some, size,
    if_pos (by omega), Int.toNat_natCast, atLine.unread]
  dsimp only
  rw [if_neg (by omega), written, Option.map_some, Option.bind_some, result]
  by_cases done : rest = []
  · rw [if_pos done]
    exact ⟨_, (if_pos done).symm, fun some' => absurd done some'⟩
  · rw [if_neg done]
    exact ⟨_, (if_neg done).symm, fun _ => filling⟩

/-- A line that does not pass for a status line. -/
def Refused (line : List UInt8) : Prop :=
  ∀ rest, startsWithNoCase (line ++ crlf ++ rest) httpMark = false

theorem startResponse_refuses {line tail : List UInt8} (refused : Refused line)
    (behind : 2 ≤ s.lines.lineStart) (text : s.lines.current = line ++ crlf ++ tail) :
    (startResponse junk s (s.lines.lineStart + line.length)).bind conclude = none := by
  rw [startResponse]
  cases ended : writeAt s.lines.block (s.lines.lineStart + (s.lines.lineStart + line.length)) [0] with
  | none => rfl
  | some block =>
      obtain ⟨rest, lineText⟩ := laterLine_text behind text ended
      rw [Option.bind_some]
      dsimp only
      rw [lineText, if_neg (Bool.eq_false_iff.mp (refused rest))]
      rfl

/-- A decoder that waits for a header line reports nothing any more. -/
theorem not_emits_waiting {line part later : List UInt8} (status : s.status = .firstLine)
    (scanning : Scanning line part s.lines) (plain : ∀ c ∈ line, c ≠ 13) (refused : Refused line)
    (behind : 2 ≤ s.lines.lineStart) (stream : part ++ pieces.flatten = line ++ crlf ++ later)
    (within : (decoder junk).Within s pieces) (m : HttpResponse) :
    ¬ (decoder junk).Emits s pieces [m] := by
  induction pieces generalizing part s with
  | nil => exact fun emits => absurd (Decoder.emits_nil.mp emits) (List.cons_ne_nil _ _)
  | cons piece rest ih =>
      have room := room_of_within status scanning.filled within
      rw [List.flatten_cons, ← List.append_assoc] at stream
      rcases piece_cases stream with ⟨short, isPart⟩ | ⟨tail, done, -⟩
      · obtain ⟨b, delivered, scanning', lineStart, -⟩ :=
          deliver_more junk status scanning plain room isPart short
        rw [Decoder.emits_cons_nil delivered]
        exact ih (s := { s with lines := b }) status scanning' (lineStart ▸ behind) stream
          (within.tail delivered)
      · obtain ⟨b, copied, -, length, lineStart, text, search⟩ := scanning.found plain room done
        refine Decoder.not_emits (?_ : deliver junk s piece = none)
        rw [deliver_firstLine status copied, parseFirstLine, search]
        exact startResponse_refuses (s := { s with lines := { b.grow piece.length with
          parsePos := b.lineStart + line.length + 2 } }) refused (lineStart ▸ behind) text

/-- The rest of the header lines is taken for a status line. -/
theorem not_emits_cut {tail : List UInt8} (plain : PlainLines lines)
    (refused : ∀ line ∈ lines, Refused line) (after : AfterLine h tail s)
    (status : s.status = .firstLine) (position : s.lines.parsePos = h.line.length + 2)
    (inside : tail.length < (linesText lines).length)
    (stream : tail ++ pieces.flatten = linesText lines ++ body) {first : RespDecoder}
    (step : deliver junk first piece = (parseHeader junk s).bind conclude)
    (within : (decoder junk).Within first (piece :: pieces)) (m : HttpResponse) :
    ¬ (decoder junk).Emits first (piece :: pieces) [m] := by
  obtain ⟨missing, whole⟩ : tail <+: linesText lines :=
    List.prefix_of_prefix_length_le (stream ▸ List.prefix_append _ _) (List.prefix_append _ _)
      (Nat.le_of_lt inside)
  have some' : missing ≠ [] := by
    rintro rfl
    rw [List.append_nil] at whole
    rw [whole] at inside
    exact Nat.lt_irrefl _ inside
  have total := after.atLine.total
  rcases headerLoop_lines_partial plain (by omega : tail.length < s.lines.length + 1) after.atLine
    after.filled whole some' with ⟨b, response, parsed⟩ |
      ⟨b, response, parsed, ⟨line, part, later, isLine, scanning, behind, next⟩, block, -⟩
  · refine Decoder.not_emits (?_ : deliver junk first piece = none)
    rw [step, parseHeader, parsed]
    rfl
  · have stays : deliver junk first piece =
        some ({ s with lines := b, response := response }, []) := by
      rw [step, parseHeader, parsed]
      rfl
    have ahead : part ++ pieces.flatten = line ++ crlf ++ (later ++ body) := by
      have rest : pieces.flatten = missing ++ body := by
        rw [← whole, List.append_assoc] at stream
        exact List.append_cancel_left stream
      rw [rest, ← List.append_assoc, next, List.append_assoc]
    have lineOk : (∀ c ∈ line, c ≠ 13) ∧ Refused line := by
      rcases isLine with rfl | member
      · exact ⟨by simp, fun rest => by rfl⟩
      · exact ⟨(plain line member).2, refused line member⟩
    rw [Decoder.emits_cons_nil stays]
    exact not_emits_waiting (s := { s with lines := b, response := response }) status scanning
      lineOk.1 lineOk.2 (by dsimp only; omega) ahead (within.tail stays) m

end Lines

/-! ## Segmentation -/

/-- No piece ends between the end of the status line and the end of the head. -/
def HeadWhole (h : ResponseHead) (lines : List (List UInt8)) (base : Nat)
    (pieces : List (List UInt8)) : Prop :=
  ∀ cut ∈ cutsFrom base pieces,
    h.line.length + 2 ≤ cut → h.line.length + 2 + (linesText lines).length ≤ cut

/-- The piece that completes the status line arrives; `tail` of it lies behind that line. -/
structure Reached (junk : Nat → UInt8) (h : ResponseHead) (lines : List (List UInt8))
    (body tail : List UInt8) (first : RespDecoder) (piece : List UInt8)
    (later : List (List UInt8)) (s : RespDecoder) : Prop where
  step : deliver junk first piece = (parseHeader junk s).bind conclude
  after : AfterLine h tail s
  status : s.status = .firstLine
  position : s.lines.parsePos = h.line.length + 2
  stream : tail ++ later.flatten = linesText lines ++ body
  within : (decoder junk).Within first (piece :: later)

section Segments

variable {junk : Nat → UInt8} {h : ResponseHead} {lines : List (List UInt8)}
  {body part piece tail : List UInt8} {s first : RespDecoder} {pieces later : List (List UInt8)}

/-- Whatever the cuts are, the status line is completed by some piece. -/
theorem reaches_head (reading : Reading h.line part s)
    (stream : part ++ pieces.flatten = h.line ++ crlf ++ (linesText lines ++ body))
    (within : (decoder junk).Within s pieces) :
    ∃ first piece later s' tail, Reached junk h lines body tail first piece later s' ∧
      (∀ out, (decoder junk).Emits s pieces out ↔ (decoder junk).Emits first (piece :: later) out) ∧
      (HeadWhole h lines part.length pieces ↔ (linesText lines).length ≤ tail.length) := by
  have two : (h.line ++ crlf).length = h.line.length + 2 := List.length_append
  induction pieces generalizing part s with
  | nil =>
      have lengths := congrArg List.length stream
      have short := reading.scanning.short
      rw [List.flatten_nil, List.append_nil, List.length_append, two] at lengths
      omega
  | cons piece pieces ih =>
      have room := room_of_within reading.status reading.scanning.filled within
      have stream' : part ++ piece ++ pieces.flatten =
          h.line ++ crlf ++ (linesText lines ++ body) := by
        rw [List.append_assoc, ← List.flatten_cons, stream]
      have size : (part ++ piece).length = part.length + piece.length := List.length_append
      rcases piece_cases stream' with ⟨short, isPart⟩ | ⟨tail, done, ahead⟩
      · obtain ⟨b, delivered, scanning, lineStart, length⟩ := deliver_more junk reading.status
          reading.scanning (fun c member => (h.line_plain c member).1) room isPart short
        have reading' : Reading h.line (part ++ piece) { s with lines := b } :=
          ⟨reading.status, reading.fresh, length.trans reading.size,
            lineStart.trans reading.atStart, scanning⟩
        obtain ⟨first, next, later, s', tail, reached, same, cuts⟩ :=
          ih reading' stream' (within.tail delivered)
        refine ⟨first, next, later, s', tail, reached, fun out => ?_, ?_⟩
        · rw [Decoder.emits_cons_nil delivered, same]
        · rw [← cuts, HeadWhole, HeadWhole, cutsFrom, List.forall_mem_cons, ← size]
          exact and_iff_right fun behind => by omega
      · obtain ⟨s', delivered, after, status, position⟩ :=
          deliver_statusLine junk reading room done
        refine ⟨s, piece, pieces, s', tail, ⟨delivered, after, status, position, ahead, within⟩,
          fun _ => Iff.rfl, ?_⟩
        have lengths := congrArg List.length done
        rw [size, List.length_append, two] at lengths
        rw [HeadWhole, cutsFrom, List.forall_mem_cons]
        constructor
        · rintro ⟨here, -⟩
          have behind := here (by omega)
          omega
        · intro long
          refine ⟨fun _ => by omega, fun cut member _ => ?_⟩
          have beyond := le_of_mem_cutsFrom member
          omega

/-- What is reported when the head is whole. -/
theorem Reached.emits {response : Blitz.HttpRespDecoder.HttpResponse} {str : List UInt8}
    (reached : Reached junk h lines body tail first piece later s) (plain : PlainLines lines)
    (whole : (linesText lines).length ≤ tail.length)
    (applied : applyLines applyHeader lines h.start = some response)
    (notChunked : isChunked response = false)
    (known : getHeader response.params contentLengthName = some str)
    (size : atoi str = body.length) (nonempty : body ≠ []) :
    (decoder junk).Emits first (piece :: later) [report (finish response body)] := by
  obtain ⟨left, rfl⟩ : linesText lines <+: tail :=
    List.prefix_of_prefix_length_le (List.prefix_append _ _)
      (reached.stream ▸ List.prefix_append _ _) whole
  have stream := reached.stream
  rw [List.append_assoc] at stream
  have stream := List.append_cancel_left stream
  rcases parseHeader_lines junk plain reached.after with ⟨failed, -⟩ |
    ⟨response', s', applied', parsed, atLine, isResponse, -⟩
  · rw [applied] at failed
    cases failed
  · rw [applied] at applied'
    obtain rfl := Option.some.inj applied'
    subst isResponse
    obtain ⟨s'', result, filling⟩ :=
      endHeader_length junk notChunked known size nonempty atLine stream
    have delivered := reached.step
    rw [parsed, result] at delivered
    by_cases done : later.flatten = []
    · rw [if_pos done] at delivered
      obtain rfl := (reached.within.tail delivered).eq_nil_of_flatten done
      exact (Decoder.emits_cons_one delivered).mpr (Decoder.emits_nil.mpr rfl)
    · rw [if_neg done] at delivered
      exact (Decoder.emits_cons_nil delivered).mpr
        (emits_filling (filling done) stream done (reached.within.tail delivered))

/-- A head whose lines are not understood is refused. -/
theorem Reached.not_emits_bad (reached : Reached junk h lines body tail first piece later s)
    (plain : PlainLines lines) (whole : (linesText lines).length ≤ tail.length)
    (failed : applyLines applyHeader lines h.start = none) (m : HttpResponse) :
    ¬ (decoder junk).Emits first (piece :: later) [m] := by
  obtain ⟨left, rfl⟩ : linesText lines <+: tail :=
    List.prefix_of_prefix_length_le (List.prefix_append _ _)
      (reached.stream ▸ List.prefix_append _ _) whole
  rcases parseHeader_lines junk plain reached.after with ⟨-, refused⟩ | ⟨response, _, applied, -⟩
  · exact Decoder.not_emits (reached.step.trans refused)
  · rw [applied] at failed
    cases failed

/-- Without a length the blank line is the end. -/
theorem Reached.not_emits_lengthless {response : Blitz.HttpRespDecoder.HttpResponse}
    (reached : Reached junk h lines body tail first piece later s)
    (plain : PlainLines lines) (whole : (linesText lines).length ≤ tail.length)
    (applied : applyLines applyHeader lines h.start = some response)
    (notChunked : isChunked response = false)
    (missing : getHeader response.params contentLengthName = none) (m : HttpResponse) :
    ¬ (decoder junk).Emits first (piece :: later) [m] := by
  obtain ⟨left, rfl⟩ : linesText lines <+: tail :=
    List.prefix_of_prefix_length_le (List.prefix_append _ _)
      (reached.stream ▸ List.prefix_append _ _) whole
  rcases parseHeader_lines junk plain reached.after with ⟨failed, -⟩ |
    ⟨response', s', applied', parsed, -, isResponse, -⟩
  · rw [applied] at failed
    cases failed
  · rw [applied] at applied'
    obtain rfl := Option.some.inj applied'
    subst isResponse
    refine Decoder.not_emits (?_ : deliver junk first piece = none)
    rw [reached.step, parsed, endHeader, if_neg (by rw [notChunked]; exact Bool.false_ne_true),
      missing]
    rfl

end Segments

end MlsImgSearch.Blitz2.HttpRespDecoder
