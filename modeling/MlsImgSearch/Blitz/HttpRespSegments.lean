import MlsImgSearch.Blitz.ChunkedBody

/-!
# Responses in pieces

A response is decoded from all segmentations that do not cut between the end of
the status line and the end of the head, when its framing header is spelled as
the decoder looks it up and its chunks meet the condition on chunked bodies.
-/

namespace MlsImgSearch.Blitz.HttpRespDecoder

open MlsImgSearch.Lib.Bytes
open MlsImgSearch.Lib.Segmentation
open MlsImgSearch.Blitz.HttpCommon

/-! ## A body of known length -/

/-- `got` has been read of a body of known length. -/
structure Filling (response : HttpResponse) (body got : List UInt8) (s : RespDecoder) : Prop where
  status : s.status = .body
  response : s.response = response
  block : ∃ block, s.body = some block ∧ block.length = body.length ∧ block.take got.length = got
  bodyLength : s.bodyLength = body.length
  bodyRead : s.bodyRead = got.length

section Length

variable {junk : Nat → UInt8} {response : HttpResponse} {body rest got piece : List UInt8}
  {s : RespDecoder} {pieces : List (List UInt8)}

/-- What the decoder makes of the bytes that it has. -/
theorem Filling.conclude_eq (filling : Filling response body got s) (isPart : got ++ rest = body)
    (nonempty : body ≠ []) :
    conclude (readBody s, s) =
      if rest = [] then some ((message s).2.reset, [finish response body]) else some (s, []) := by
  obtain ⟨block, isBody, length, front⟩ := filling.block
  have lengths := congrArg List.length isPart
  rw [List.length_append] at lengths
  have positive := List.length_pos_of_ne_nil nonempty
  rw [readBody, filling.bodyLength, filling.bodyRead]
  by_cases done : rest = []
  · rw [done, List.length_nil] at lengths
    rw [done, List.append_nil] at isPart
    have isMessage : (message s).1 = finish response body := by
      unfold message
      rw [isBody]
      dsimp only
      rw [filling.bodyRead, if_pos (by omega), front, isPart, filling.response, finish,
        if_neg nonempty]
    rw [if_pos done, if_pos (by omega), ← isMessage]
    rfl
  · have more := List.length_pos_of_ne_nil done
    rw [if_neg done, if_neg (by omega), if_neg (by omega)]
    rfl

variable (junk) in
/-- A piece of the body. -/
theorem Filling.deliver_eq (filling : Filling response body got s)
    (isPart : got ++ (piece ++ rest) = body) :
    ∃ s', deliver junk s piece = conclude (readBody s', s') ∧
      Filling response body (got ++ piece) s' := by
  obtain ⟨block, isBody, length, front⟩ := filling.block
  have lengths := congrArg List.length isPart
  rw [List.length_append, List.length_append] at lengths
  have room : s.bodyRead + piece.length ≤ block.length := by
    rw [filling.bodyRead]
    omega
  obtain ⟨block', written⟩ : ∃ block', writeAt block s.bodyRead piece = some block' :=
    ⟨_, writeAt_eq_some room⟩
  refine ⟨_, deliver_body filling.status isBody written, filling.status, filling.response,
    ⟨block', rfl, (length_writeAt written).trans length, ?_⟩, filling.bodyLength, ?_⟩
  · have whole := take_writeAt written
    rw [filling.bodyRead, front] at whole
    rw [List.length_append, whole]
  · rw [List.length_append, ← filling.bodyRead]

theorem Filling.feedAll_eq (filling : Filling response body got s)
    (isPart : got ++ pieces.flatten = body) (missing : pieces.flatten ≠ [])
    (within : (decoder junk).Within s pieces) :
    ∃ s', (decoder junk).feedAll s pieces = some (s', [finish response body]) := by
  induction pieces generalizing got s with
  | nil => exact absurd rfl missing
  | cons piece pieces ih =>
      rw [List.flatten_cons] at isPart
      obtain ⟨s', delivered, filling'⟩ := filling.deliver_eq junk isPart
      rw [← List.append_assoc] at isPart
      have nonempty : body ≠ [] := by
        rintro rfl
        exact within.1.1 (List.append_eq_nil_iff.mp (List.append_eq_nil_iff.mp isPart).1).2
      rw [filling'.conclude_eq isPart nonempty] at delivered
      by_cases done : pieces.flatten = []
      · rw [if_pos done] at delivered
        obtain rfl := (within.tail delivered).eq_nil_of_flatten done
        exact ⟨_, (Decoder.feedAll_cons (decoder junk) [] delivered).trans rfl⟩
      · rw [if_neg done] at delivered
        obtain ⟨s'', fed⟩ := ih filling' isPart done (within.tail delivered)
        exact ⟨s'', (Decoder.feedAll_cons (decoder junk) pieces delivered).trans (by rw [fed]; rfl)⟩

end Length

/-! ## The head -/

section StatusLine

variable (h : ResponseHead)

theorem ResponseHead.line_plain : ∀ c ∈ h.line, c ≠ 13 ∧ c ≠ 0 := by
  have minors : ∀ m : Fin 2, ∀ c ∈ [minorDigit m, 32], c ≠ 13 ∧ c ≠ 0 := by decide +kernel
  have digits : ∀ d : Fin 10, digitChar d ≠ 13 ∧ digitChar d ≠ 0 := by decide +kernel
  intro c member
  rcases List.mem_append.mp member with front | reason
  · rcases List.mem_append.mp front with front | code
    · rcases List.mem_append.mp front with mark | minor
      · exact (by decide +kernel : ∀ c ∈ httpMark, c ≠ 13 ∧ c ≠ 0) c mark
      · exact minors h.minor c minor
    · simp only [ResponseHead.codeText, List.mem_cons, List.not_mem_nil, or_false] at code
      rcases code with rfl | rfl | rfl
      · exact digits _
      · exact digits _
      · exact digits _
  · rcases List.mem_cons.mp reason with rfl | reason
    · decide
    · exact h.reasonOk c reason

theorem ResponseHead.atoi_code (rest : List UInt8) :
    atoi (h.codeText ++ 32 :: rest) = h.codeValue := by
  have value : ∀ d : Fin 10, digitValue (digitChar d) = some d.val := by decide +kernel
  have all : AreDigits 10 h.codeText := by
    intro c member
    simp only [ResponseHead.codeText, List.mem_cons, List.not_mem_nil, or_false] at member
    rcases member with rfl | rfl | rfl
    · exact ⟨_, h.code.1.isLt, value _⟩
    · exact ⟨_, h.code.2.1.isLt, value _⟩
    · exact ⟨_, h.code.2.2.isLt, value _⟩
  have number : digitsValue 10 h.codeText = h.codeValue := by
    simp only [digitsValue, ResponseHead.codeText, List.foldl_cons, List.foldl_nil, value,
      Option.getD_some, ResponseHead.codeValue]
    omega
  have bounds := h.code.1.isLt
  have bounds1 := h.code.2.1.isLt
  have bounds2 := h.code.2.2.isLt
  rw [atoi, strtol_digits all (List.cons_ne_nil _ _) (by rfl) rest (by
    rw [number, ResponseHead.codeValue]
    omega), number]

/-- The status line, with anything behind it. -/
theorem ResponseHead.line_cut (rest : List UInt8) :
    startsWithNoCase (h.line ++ rest) httpMark = true ∧
      (h.line ++ rest)[7]? = some (minorDigit h.minor) ∧
      atoi ((h.line ++ rest).drop 9) = h.codeValue := by
  have text : h.line ++ rest =
      httpMark ++ (minorDigit h.minor :: 32 :: (h.codeText ++ 32 :: (h.reason ++ rest))) := by
    simp [ResponseHead.line]
  rw [text]
  refine ⟨?_, rfl, ?_⟩
  · rw [startsWithNoCase, List.take_left' rfl, beq_self_eq_true]
  · exact h.atoi_code _

end StatusLine

/-- The decoder waits for the end of the status line, of which `part` has arrived. -/
structure Reading (line part : List UInt8) (s : RespDecoder) : Prop where
  status : s.status = .firstLine
  fresh : s.body = none ∧ s.bodyRead = 0 ∧ s.chunkSize = 0 ∧ s.chunkLeft = 0 ∧ s.response = {}
  size : s.lines.block.length = 4096
  atStart : s.lines.lineStart = 0
  scanning : Scanning line part s.lines

/-- The decoder stands behind the status line, in front of `tail`. -/
structure AfterLine (h : ResponseHead) (tail : List UInt8) (s : RespDecoder) : Prop where
  fresh : s.body = none ∧ s.bodyRead = 0 ∧ s.chunkSize = 0 ∧ s.chunkLeft = 0
  size : s.lines.block.length = 4096
  filled : s.lines.length ≤ s.lines.block.length
  atLine : AtLine tail s.lines
  response : s.response = h.start

section Head

variable {junk : Nat → UInt8} {h : ResponseHead} {part piece tail : List UInt8} {s : RespDecoder}

theorem Reading.room {line : List UInt8} {pieces : List (List UInt8)} (reading : Reading line part s)
    (within : (decoder junk).Within s (piece :: pieces)) :
    s.lines.length + piece.length ≤ s.lines.block.length := by
  have bound := within.1.2 (s.lines.block.length - s.lines.length) (by
    simp only [decoder, getBuffer, reading.status, Option.map_some])
  have filled := reading.scanning.filled
  omega

variable (junk) in
/-- A piece inside of the status line is kept. -/
theorem Reading.more (reading : Reading h.line part s)
    (room : s.lines.length + piece.length ≤ s.lines.block.length)
    (isPart : part ++ piece <+: h.line ++ crlf)
    (short : (part ++ piece).length < h.line.length + 2) :
    ∃ s', deliver junk s piece = some (s', []) ∧ Reading h.line (part ++ piece) s' := by
  obtain ⟨b, b', copied, _, search, scanning, lineStart, _, _, size⟩ :=
    reading.scanning.more (fun c member => (h.line_plain c member).1) room isPart short
  refine ⟨{ s with lines := b' }, ?_, reading.status, reading.fresh, size.trans reading.size,
    lineStart.trans reading.atStart, scanning⟩
  rw [deliver_firstLine reading.status copied, parseFirstLine, search]
  rfl

variable (junk) in
/-- The status line, in the buffer from the start on. -/
theorem startResponse_line (atStart : s.lines.lineStart = 0) (size : s.lines.block.length = 4096)
    (filled : s.lines.length ≤ s.lines.block.length)
    (fresh : s.body = none ∧ s.bodyRead = 0 ∧ s.chunkSize = 0 ∧ s.chunkLeft = 0 ∧ s.response = {})
    (text : s.lines.current = h.line ++ crlf ++ tail)
    (parsePos : s.lines.parsePos = h.line.length + 2) :
    ∃ s', startResponse junk s h.line.length = parseHeader junk s' ∧ AfterLine h tail s' := by
  rw [LineBuffer.current, atStart, List.drop_zero] at text
  have lengths := congrArg List.length text
  simp only [List.length_take, List.length_append, crlf, List.length_cons, List.length_nil]
    at lengths
  have front : s.lines.block.take h.line.length = h.line := by
    have cut := congrArg (List.take h.line.length) text
    rw [List.take_take, Nat.min_eq_left (by omega), List.append_assoc, List.take_left' rfl] at cut
    exact cut
  have inside : h.line.length + ([0] : List UInt8).length ≤ s.lines.block.length := by
    rw [List.length_singleton]
    omega
  have written := writeAt_eq_some inside
  obtain ⟨ended, isEnded⟩ : ∃ ended, ended = s.lines.block.take h.line.length ++ [0] ++
      s.lines.block.drop (h.line.length + ([0] : List UInt8).length) := ⟨_, rfl⟩
  rw [← isEnded] at written
  have isLine : ended = h.line ++ 0 :: s.lines.block.drop (h.line.length + 1) := by
    rw [isEnded, front, List.append_assoc]
    rfl
  obtain ⟨starts, minor, code⟩ := h.line_cut (0 :: s.lines.block.drop (h.line.length + 1))
  have minors : ∀ m : Fin 2, (minorDigit m = 48 ∨ minorDigit m = 49) ∧
      (if minorDigit m = 49 then 1 else 0) = m.val := by decide +kernel
  refine ⟨{ s with
    lines := { s.lines with block := ended, lineStart := s.lines.parsePos }
    response := { s.response with versionMinor := h.minor, code := h.codeValue } },
    ?_, ⟨⟨fresh.1, fresh.2.1, fresh.2.2.1, fresh.2.2.2.1⟩, (length_writeAt written).trans size,
      by rw [length_writeAt written]; exact filled, ⟨rfl, ?_, ?_⟩,
      by rw [fresh.2.2.2.2]; rfl⟩⟩
  · rw [startResponse, atStart, Nat.zero_add, written, Option.bind_some, List.drop_zero]
    dsimp only
    rw [isLine, if_pos starts, minor, Option.bind_some, if_pos (minors h.minor).1, code,
      (minors h.minor).2]
  · unfold LineBuffer.unread
    dsimp only
    rw [parsePos, List.drop_take, writeAt_drop written (by rw [List.length_singleton]; omega),
      ← List.drop_take, text]
    exact List.drop_left' (by simp [crlf])
  · rw [parsePos]
    dsimp only
    omega

variable (junk) in
/-- The piece that completes the status line. -/
theorem Reading.firstLine (reading : Reading h.line part s)
    (room : s.lines.length + piece.length ≤ s.lines.block.length)
    (done : part ++ piece = h.line ++ crlf ++ tail) :
    ∃ s', deliver junk s piece = (parseHeader junk s').bind conclude ∧ AfterLine h tail s' := by
  obtain ⟨b, copied, size, length, lineStart, text, search⟩ :=
    reading.scanning.found (fun c member => (h.line_plain c member).1) room done
  rw [reading.atStart] at lineStart
  rw [lineStart, Nat.zero_add] at search
  obtain ⟨s', started, after⟩ := startResponse_line junk
    (s := { s with lines := { b.grow piece.length with parsePos := h.line.length + 2 } })
    lineStart (size.trans reading.size) (by
      show b.length + piece.length ≤ b.block.length
      omega) reading.fresh text rfl
  refine ⟨s', ?_, after⟩
  rw [deliver_firstLine reading.status copied, parseFirstLine, search]
  exact congrArg (Option.bind · conclude) started

variable (junk) in
/-- The rest of the head. -/
theorem AfterLine.complete {left : List UInt8} (after : AfterLine h (fieldsText h.fields ++ left) s) :
    ∃ s', parseHeader junk s = endHeader junk s' ∧ AtLine left s'.lines ∧
      s'.response = h.response ∧ s'.lines.length ≤ s'.lines.block.length ∧
      s'.lines.block.length = 4096 ∧
      (s'.body = none ∧ s'.bodyRead = 0 ∧ s'.chunkSize = 0 ∧ s'.chunkLeft = 0) := by
  have total := after.atLine.total
  obtain ⟨b, parsed, atLine, block, length⟩ :=
    headerLoop_complete (by omega : _ < s.lines.length + 1) after.atLine
  refine ⟨{ s with lines := b, response := h.response }, ?_, atLine, rfl, ?_, ?_, after.fresh⟩
  · rw [parseHeader, parsed, after.response]
    rfl
  · rw [block, length]
    exact after.filled
  · rw [block]
    exact after.size

end Head

/-! ## Segmentation -/

/-- The decoder reads the framing of the payload as it is meant: the framing header is spelled as
the decoder looks it up, and a chunked body keeps the `int` computations and the lines for sizes in
range. -/
def Payload.Framed (h : ResponseHead) : Payload → Prop
  | .length body =>
      isChunked h.response = false ∧ (withLength h.response).contentLength = body.length
  | .chunked chunks _ =>
      isChunked h.response = true ∧ SizesOk chunks ∧ 2 * (dataOf chunks).length + 4096 < 2 ^ 31

/-- The decoder accepts all pieces and hands over the response, and nothing else. -/
def Decodes (junk : Nat → UInt8) (h : ResponseHead) (body : List UInt8)
    (pieces : List (List UInt8)) : Prop :=
  ∃ s, (decoder junk).feedAll (.initial junk) pieces = some (s, [finish h.response body])

section Segments

variable {junk : Nat → UInt8} {h : ResponseHead} {payload : Payload} {part left : List UInt8}
  {s : RespDecoder} {piece : List UInt8} {pieces : List (List UInt8)}

theorem ResponseHead.response_plain (h : ResponseHead) :
    h.response.contentLength = 0 ∧ h.response.content = none := by
  suffices all : ∀ (fields : List HeaderField) (response : HttpResponse),
      response.contentLength = 0 ∧ response.content = none →
        (fields.foldl (fun response field => applyHeader response field.name field.value)
          response).contentLength = 0 ∧
        (fields.foldl (fun response field => applyHeader response field.name field.value)
          response).content = none from all h.fields h.start ⟨rfl, rfl⟩
  intro fields
  induction fields with
  | nil => exact fun response plain => plain
  | cons field fields ih => exact fun response plain => ih _ plain

theorem chunksOk_append (chunks : List Chunk) (filled : ∀ c ∈ chunks, c.data ≠ []) :
    ChunksOk (chunks ++ [lastChunk]) := by
  induction chunks with
  | nil => rfl
  | cons c chunks ih =>
      obtain ⟨head, tail⟩ := List.forall_mem_cons.mp filled
      cases chunks with
      | nil => exact ⟨head, rfl⟩
      | cons d chunks => exact ⟨head, ih tail⟩

theorem dataOf_append_last (chunks : List Chunk) :
    dataOf (chunks ++ [lastChunk]) = dataOf chunks := by
  rw [dataOf, dataOf, List.flatMap_append]
  exact List.append_nil _

variable (junk) in
/-- The chunks that come with the end of the head. -/
theorem endHeader_chunked {chunks : List Chunk} {filled : ∀ c ∈ chunks, c.data ≠ []}
    {rest : List UInt8} (framed : (Payload.chunked chunks filled).Framed h)
    (atLine : AtLine left s.lines) (response : s.response = h.response)
    (inBlock : s.lines.length ≤ s.lines.block.length) (size : s.lines.block.length = 4096)
    (fresh : s.body = none ∧ s.bodyRead = 0 ∧ s.chunkSize = 0 ∧ s.chunkLeft = 0)
    (stream : left ++ rest = textOf (chunks ++ [lastChunk])) :
    Outcome h.response (dataOf chunks) rest (endHeader junk s) := by
  obtain ⟨isChunked', sizes, small⟩ := framed
  obtain ⟨c, cs, isCons⟩ := append_last_cons chunks
  have ok := chunksOk_append chunks filled
  have whole := dataOf_append_last chunks
  have allSizes : SizesOk (chunks ++ [lastChunk]) := by
    intro d member
    rcases List.mem_append.mp member with inChunks | isLast
    · exact sizes d inChunks
    · rw [List.mem_singleton.mp isLast]
      decide
  rw [isCons] at ok whole allSizes stream
  have total := atLine.total
  have bound := congrArg List.length whole
  rw [dataOf_cons, List.length_append] at bound
  rw [endHeader, if_pos (by rw [response]; exact isChunked')]
  refine readChunkSize_outcome junk small (by unfold chunkFuel; omega : left.length < chunkFuel s) {
    response := response, ok := ok, sizes := allSizes, bound := by omega
    holds := by
      unfold Holds
      rw [fresh.1]
      exact ⟨rfl, fresh.2.1⟩
    status := rfl
    slice := by
      rw [LineBuffer.current, atLine.lineStart]
      exact atLine.unread
    start := by
      rw [atLine.lineStart]
      exact total
    filled := inBlock
    pos := ⟨0, Nat.zero_le _, by rw [Nat.zero_min]; exact atLine.lineStart.symm⟩
    first := fun _ => ⟨fresh.2.2.1, by rw [size]; decide⟩
    chunkLeft := fresh.2.2.2
    chunkSize := by
      rw [fresh.2.2.1]
      omega
    stream := stream
    whole := whole }

theorem withLength_plain (response : HttpResponse) (body : List UInt8) :
    (withLength response).content = response.content ∧
      finish (withLength response) body = finish response body := by
  unfold withLength
  split
  · exact ⟨rfl, rfl⟩
  · exact ⟨rfl, rfl⟩

variable (junk) in
/-- The bytes of a body of known length that come with the end of the head. -/
theorem endHeader_length {body rest : List UInt8} (framed : (Payload.length body).Framed h)
    (atLine : AtLine left s.lines) (response : s.response = h.response) (fresh : s.body = none)
    (stream : left ++ rest = body) :
    ∃ s', (endHeader junk s).bind conclude =
        (if rest = [] then some (s', [finish h.response body]) else some (s', [])) ∧
      (rest ≠ [] → Filling (withLength h.response) body left s') := by
  obtain ⟨notChunked, length⟩ := framed
  obtain ⟨sameContent, sameFinish⟩ := withLength_plain h.response body
  have lengths := congrArg List.length stream
  rw [List.length_append] at lengths
  have unread := atLine.unread
  rw [endHeader, if_neg (by rw [response, notChunked]; exact Bool.false_ne_true)]
  dsimp only
  rw [response, length, Int.toNat_natCast, unread]
  by_cases empty : body = []
  · rw [empty] at stream
    obtain ⟨rfl, rfl⟩ := List.append_eq_nil_iff.mp stream
    have isMessage : withLength h.response = finish h.response body := by
      rw [← sameFinish, finish, if_pos empty, ← length, ← h.response_plain.2, ← sameContent]
    rw [if_neg (by rw [empty]; decide), ← isMessage, Option.bind_some, conclude, message]
    dsimp only
    rw [fresh]
    exact ⟨_, (if_pos rfl).symm, fun some' => absurd rfl some'⟩
  · have positive := List.length_pos_of_ne_nil empty
    have room : 0 + left.length ≤ (malloc junk body.length).length := by
      rw [length_malloc]
      omega
    obtain ⟨block, written⟩ : ∃ block, writeAt (malloc junk body.length) 0 left = some block :=
      ⟨_, writeAt_eq_some room⟩
    have front := take_writeAt written
    rw [Nat.zero_add, List.take_zero, List.nil_append] at front
    have filling : Filling (withLength h.response) body left { s with
        response := withLength h.response, status := .body, body := some block
        bodyLength := body.length, bodyRead := left.length } :=
      ⟨rfl, rfl, ⟨block, rfl, (length_writeAt written).trans (length_malloc _ _), front⟩, rfl, rfl⟩
    have result := filling.conclude_eq stream empty
    rw [if_pos (by omega), if_neg (by omega), written, Option.map_some, Option.bind_some, result,
      sameFinish]
    by_cases done : rest = []
    · rw [if_pos done]
      exact ⟨_, (if_pos done).symm, fun some' => absurd done some'⟩
    · rw [if_neg done]
      exact ⟨_, (if_neg done).symm, fun _ => filling⟩

/-- The piece that completes the head, and the pieces behind it. -/
theorem AfterLine.feedAll_eq (framed : payload.Framed h)
    (after : AfterLine h (fieldsText h.fields ++ left) s) {s₀ : RespDecoder}
    (delivered : deliver junk s₀ piece = (parseHeader junk s).bind conclude)
    (stream : left ++ pieces.flatten = payload.text)
    (within : (decoder junk).Within s₀ (piece :: pieces))
    (aligned : (decoder junk).Always AlignedPiece s₀ (piece :: pieces)) :
    ∃ s', (decoder junk).feedAll s₀ (piece :: pieces) =
      some (s', [finish h.response payload.body]) := by
  obtain ⟨s', parsed, atLine, response, filled, size, fresh⟩ := after.complete junk
  rw [parsed] at delivered
  cases payload with
  | length body =>
      obtain ⟨s'', result, later⟩ := endHeader_length junk framed atLine response fresh.1 stream
      rw [result] at delivered
      by_cases done : pieces.flatten = []
      · rw [if_pos done] at delivered
        obtain rfl := (within.tail delivered).eq_nil_of_flatten done
        exact ⟨s'', (Decoder.feedAll_cons (decoder junk) [] delivered).trans rfl⟩
      · rw [if_neg done] at delivered
        obtain ⟨s₁, fed⟩ := (later done).feedAll_eq stream done (within.tail delivered)
        rw [(withLength_plain h.response body).2] at fed
        exact ⟨s₁, (Decoder.feedAll_cons (decoder junk) pieces delivered).trans (by rw [fed]; rfl)⟩
  | chunked chunks nonempty =>
      have outcome := endHeader_chunked junk framed atLine response filled size fresh stream
      exact outcome.feedAll_eq h.response_plain delivered within fun s'' first mid =>
        mid.feedAll_eq framed.2.2 h.response_plain (within.tail first) (aligned.2 s'' [] first)

/-- The pieces from the status line on. -/
theorem Reading.feedAll_eq (framed : payload.Framed h) (reading : Reading h.line part s)
    (stream : part ++ pieces.flatten = h.text ++ payload.text)
    (cuts : ∀ cut ∈ cutsFrom part.length pieces, h.line.length + 2 ≤ cut → h.text.length ≤ cut)
    (within : (decoder junk).Within s pieces)
    (aligned : (decoder junk).Always AlignedPiece s pieces) :
    ∃ s', (decoder junk).feedAll s pieces = some (s', [finish h.response payload.body]) := by
  have two : (h.line ++ crlf).length = h.line.length + 2 := List.length_append
  induction pieces generalizing part s with
  | nil =>
      have lengths := congrArg List.length stream
      have short := reading.scanning.short
      rw [List.flatten_nil, List.append_nil, ResponseHead.text, List.length_append,
        List.length_append, two] at lengths
      omega
  | cons piece pieces ih =>
      have room := reading.room within
      have stream' : part ++ piece ++ pieces.flatten =
          h.line ++ crlf ++ (fieldsText h.fields ++ payload.text) := by
        rw [List.append_assoc, ← List.flatten_cons, stream, ResponseHead.text, List.append_assoc]
      rcases piece_cases stream' with ⟨short, isPart⟩ | ⟨tail, done, ahead⟩
      · obtain ⟨s', delivered, reading'⟩ := reading.more junk room isPart short
        have cuts' : ∀ cut ∈ cutsFrom (part ++ piece).length pieces,
            h.line.length + 2 ≤ cut → h.text.length ≤ cut := by
          intro cut member
          rw [List.length_append] at member
          exact cuts cut (List.mem_cons_of_mem _ member)
        rw [List.flatten_cons, ← List.append_assoc] at stream
        obtain ⟨s'', fed⟩ := ih reading' stream cuts' (within.tail delivered)
          (aligned.2 s' [] delivered)
        exact ⟨s'', (Decoder.feedAll_cons (decoder junk) pieces delivered).trans (by rw [fed]; rfl)⟩
      · obtain ⟨s', delivered, after⟩ := reading.firstLine junk room done
        -- the piece ends behind the head, because no cut lies in the header lines
        have lengths := congrArg List.length done
        rw [List.length_append, List.length_append, two] at lengths
        have behind := cuts _ (List.mem_cons_self ..) (by omega)
        rw [ResponseHead.text, List.length_append, two] at behind
        obtain ⟨left, rfl⟩ : fieldsText h.fields <+: tail :=
          List.prefix_of_prefix_length_le (List.prefix_append _ _)
            (ahead ▸ List.prefix_append _ _) (by omega)
        rw [List.append_assoc] at ahead
        exact after.feedAll_eq framed delivered (List.append_cancel_left ahead) within aligned

end Segments

/-- `HTTP/1.1 200 OK` with `Transfer-Encoding: chunked`. -/
def chunkedHead : ResponseHead where
  minor := 1
  code := (2, 0, 0)
  reason := [79, 75]
  fields := [⟨transferEncodingName, chunkedMark, transferEncodingName_ne_nil, transferEncodingName_plain,
    by decide +kernel⟩]
  reasonOk := by decide +kernel

/-- The digit `3` and three bytes. -/
def shortChunk : Chunk where
  digits := [51]
  data := [97, 98, 99]
  named := by decide +kernel
  digitsOk := fun c member => ⟨3, by decide, by
    rw [List.mem_singleton.mp member]
    rfl⟩
  size := rfl

def shortPayload : Payload := .chunked [shortChunk, shortChunk] (by decide +kernel)

/-- `HTTP/1.1 200 OK` with `Content-Length: 1`. -/
def lengthHead : ResponseHead where
  minor := 1
  code := (2, 0, 0)
  reason := [79, 75]
  fields := [⟨contentLengthName, [49], by decide +kernel, by decide +kernel, one_plain⟩]
  reasonOk := by decide +kernel

end MlsImgSearch.Blitz.HttpRespDecoder
