import MlsImgSearch.Blitz.HttpReqDecoder

/-!
# Requests in pieces

A request is decoded from a segmentation when no piece but the last one ends
behind the request line, and from no other segmentation.
-/

namespace MlsImgSearch.Blitz.HttpReqDecoder

open MlsImgSearch.Lib.Bytes
open MlsImgSearch.Lib.Segmentation
open MlsImgSearch.Blitz.HttpCommon

/-! ## One exchange -/

/-- What the reader sees of a return code. -/
def conclude (result : Int × ReqDecoder) : Option (ReqDecoder × List HttpRequest) :=
  if result.1 = 0 then some (result.2, [])
  else if result.1 = 1 then some (result.2.reset, [message result.2])
  else none

theorem feed_conclude (result : Option (Int × ReqDecoder)) :
    ((result.map fun (ret, s) =>
      if ret = 0 then (0, s, []) else if ret = 1 then (0, s.reset, [message s])
      else (-1, s.reset, [])).bind fun (code, s, msgs) =>
        if code < 0 then none else some (s, msgs)) = result.bind conclude := by
  cases result with
  | none => rfl
  | some result =>
      obtain ⟨ret, s⟩ := result
      rw [Option.map_some, Option.bind_some, Option.bind_some, conclude]
      dsimp only
      by_cases zero : ret = 0
      · rw [if_pos zero, if_pos zero]
        rfl
      · rw [if_neg zero, if_neg zero]
        by_cases one : ret = 1
        · rw [if_pos one, if_pos one]
          rfl
        · rw [if_neg one, if_neg one]
          rfl

section Exchange

variable {junk : Nat → UInt8} {s : ReqDecoder} {piece : List UInt8}

theorem deliver_firstLine {lines : LineBuffer} (status : s.status = .firstLine)
    (copied : s.lines.copy piece = some lines) :
    deliver junk s piece =
      (parseFirstLine junk { s with lines := lines.grow piece.length }).bind conclude := by
  obtain ⟨block, written, rfl⟩ := Option.map_eq_some_iff.mp copied
  simp only [deliver, getBuffer, status, store, written, Option.map_some, Option.bind_some, feed,
    if_true]
  exact feed_conclude _

theorem deliver_body {body : List UInt8} (status : s.status = .body)
    (stored : writeAt s.body (s.bodyLength - s.bodyRead) piece = some body) :
    deliver junk s piece =
      if s.bodyLength - s.bodyRead ≠ s.bodyRead then
        conclude (readBody { s with body := body, bodyRead := s.bodyRead + piece.length },
          { s with body := body, bodyRead := s.bodyRead + piece.length })
      else none := by
  simp only [deliver, getBuffer, status, store, stored, Option.map_some, Option.bind_some, feed]
  rw [feed_conclude]
  by_cases apart : s.bodyLength - s.bodyRead ≠ s.bodyRead
  · rw [if_pos apart, if_pos (by simpa using apart)]
    rfl
  · rw [if_neg apart, if_neg (by simpa using apart)]
    rfl

theorem deliver_body_none (status : s.status = .body)
    (outside : writeAt s.body (s.bodyLength - s.bodyRead) piece = none) :
    deliver junk s piece = none := by
  simp only [deliver, getBuffer, status, store, outside, Option.map_none, Option.bind_none]

end Exchange

/-! ## A line that is not complete yet -/

/-- The decoder waits for the end of `line`, of which `part` has arrived. -/
structure Reading (line part : List UInt8) (s : ReqDecoder) : Prop where
  status : s.status = .firstLine
  size : s.lines.block.length = headerMaxLength
  scanning : Scanning line part s.lines

section Read

variable {junk : Nat → UInt8} {line part piece : List UInt8} {s : ReqDecoder}

theorem Reading.room {pieces : List (List UInt8)} (reading : Reading line part s)
    (fits : (decoder junk).Fits s (piece :: pieces)) :
    s.lines.length + piece.length ≤ s.lines.block.length := by
  obtain ⟨_, ⟨n, offer, bound⟩, _⟩ := fits
  have offered : some (getBuffer s).2 = some n := offer
  rw [getBuffer, reading.status] at offered
  have filled := reading.scanning.filled
  have size := reading.size
  have same := Option.some.inj offered
  dsimp only at same
  omega

variable (junk) in
/-- A piece inside of the line is kept. -/
theorem Reading.more (reading : Reading line part s) (plain : ∀ c ∈ line, c ≠ 13)
    (room : s.lines.length + piece.length ≤ s.lines.block.length)
    (isPart : part ++ piece <+: line ++ crlf) (short : (part ++ piece).length < line.length + 2) :
    ∃ s', deliver junk s piece = some (s', []) ∧ Reading line (part ++ piece) s' ∧
      s'.lines.lineStart = s.lines.lineStart ∧ s'.request = s.request ∧
      s'.lines.length = s.lines.length + piece.length := by
  obtain ⟨b, b', copied, _, search, scanning, lineStart, _, length, size⟩ :=
    reading.scanning.more plain room isPart short
  refine ⟨{ s with lines := b' }, ?_, ⟨reading.status, size.trans reading.size, scanning⟩, lineStart,
    rfl, length⟩
  rw [deliver_firstLine reading.status copied, parseFirstLine, search]
  rfl

end Read

/-! ## The request line -/

section RequestLine

variable (h : RequestHead)

theorem RequestHead.line_plain : ∀ c ∈ h.line, c ≠ 13 ∧ c ≠ 0 := by
  have marks : ∀ m : Method, ∀ c ∈ m.mark, c ≠ 13 ∧ c ≠ 0 := by
    intro m
    cases m <;> decide +kernel
  have digits : ∀ m : Fin 2, minorDigit m ≠ 13 ∧ minorDigit m ≠ 0 := by decide +kernel
  intro c member
  rcases List.mem_append.mp member with front | digit
  · rcases List.mem_append.mp front with front | version
    · rcases List.mem_append.mp front with mark | uri
      · exact marks h.method c mark
      · exact (h.uriOk c uri).2
    · exact (by decide +kernel : ∀ c ∈ versionMark, c ≠ 13 ∧ c ≠ 0) c version
  · rw [List.mem_singleton.mp digit]
    exact digits h.minor

theorem RequestHead.line_cut :
    ∃ rest, h.line = h.method.mark ++ (h.uri ++ 32 :: rest) ∧
      h.line.getLast? = some (minorDigit h.minor) := by
  refine ⟨[72, 84, 84, 80, 47, 49, 46] ++ [minorDigit h.minor], ?_, ?_⟩
  · simp [RequestHead.line, versionMark]
  · rw [RequestHead.line, List.getLast?_append]
    rfl

theorem parseMethod_line (rest : List UInt8) :
    parseMethod (h.method.mark ++ rest) = some (h.method, rest) := by
  cases h.method with
  | get => rfl
  | post => rfl

theorem takeWhile_uri (rest : List UInt8) :
    (h.uri ++ 32 :: rest).takeWhile (· != 32) = h.uri := by
  rw [List.takeWhile_append_of_pos fun c member => bne_iff_ne.mpr (h.uriOk c member).1]
  exact List.append_nil h.uri

theorem minor_eq : (if some (minorDigit h.minor) = some 48 then 0 else 1) = h.minor.val := by
  have cases' : ∀ m : Fin 2, (if some (minorDigit m) = some 48 then 0 else 1) = m.val := by decide +kernel
  exact cases' h.minor

end RequestLine

section LineDone

variable {junk : Nat → UInt8} {h : RequestHead} {part piece tail : List UInt8} {s : ReqDecoder}

/-- The decoder stands behind the request line, in front of `tail`. -/
structure AfterLine (h : RequestHead) (tail : List UInt8) (s : ReqDecoder) : Prop where
  status : s.status = .firstLine
  size : s.lines.block.length = headerMaxLength
  filled : s.lines.length ≤ s.lines.block.length
  parsePos : s.lines.parsePos = h.line.length + 2
  atLine : AtLine tail s.lines
  request : s.request = h.start

variable (junk) in
/-- The request line, in the buffer from the start on. -/
theorem startRequest_line (atStart : s.lines.lineStart = 0)
    (size : s.lines.block.length = headerMaxLength) (filled : s.lines.length ≤ s.lines.block.length)
    (fresh : s.request = {}) (status : s.status = .firstLine)
    (text : s.lines.current = h.line ++ crlf ++ tail)
    (parsePos : s.lines.parsePos = h.line.length + 2) :
    ∃ s', startRequest junk s h.line.length = parseHeader junk s' ∧ AfterLine h tail s' := by
  obtain ⟨ended, written, lineString, bytes, length, atLine⟩ := end_firstLine atStart filled
    (fun c member => (h.line_plain c member).2) text parsePos
  obtain ⟨rest, lineEq, last⟩ := h.line_cut
  have lastByte : ended[0 + (h.line.length - 0 - 1)]? = some (minorDigit h.minor) := by
    rw [List.getLast?_eq_getElem?] at last
    have inLine : h.line.length - 1 < h.line.length := by
      rw [lineEq, List.length_append, List.length_append, List.length_cons]
      omega
    rw [Nat.zero_add, Nat.sub_zero, bytes _ inLine]
    exact last
  refine ⟨{ s with
    lines := { s.lines with block := ended, lineStart := s.lines.parsePos }
    request := { s.request with method := some h.method, uri := h.uri, versionMinor := h.minor } },
    ?_, ⟨status, length.trans size, by rw [length]; exact filled, parsePos, atLine,
      by rw [fresh]; rfl⟩⟩
  rw [startRequest, atStart, Nat.zero_add, written, Option.bind_some]
  dsimp only
  rw [List.drop_zero, lineString, lineEq, parseMethod_line, ← lineEq]
  dsimp only
  rw [if_pos (by simp), takeWhile_uri, lastByte, minor_eq]

/-- The piece that completes the request line. -/
theorem Reading.firstLine (reading : Reading h.line part s) (atStart : s.lines.lineStart = 0)
    (fresh : s.request = {}) (room : s.lines.length + piece.length ≤ s.lines.block.length)
    (done : part ++ piece = h.line ++ crlf ++ tail) :
    ∃ s', deliver junk s piece = (parseHeader junk s').bind conclude ∧ AfterLine h tail s' := by
  obtain ⟨b, copied, size, length, lineStart, text, search⟩ :=
    reading.scanning.found (fun c member => (h.line_plain c member).1) room done
  rw [atStart] at lineStart
  rw [lineStart, Nat.zero_add] at search
  obtain ⟨s', started, after⟩ := startRequest_line junk
    (s := { s with lines := { b.grow piece.length with parsePos := h.line.length + 2 } })
    lineStart (size.trans reading.size) (by
      show b.length + piece.length ≤ b.block.length
      omega) fresh reading.status text rfl
  refine ⟨s', ?_, after⟩
  rw [deliver_firstLine reading.status copied, parseFirstLine, search]
  exact congrArg (Option.bind · conclude) started

end LineDone

/-! ## A header line in place of a request line -/

section Stuck

variable {junk : Nat → UInt8} {s : ReqDecoder} {fields : List HeaderField}
  {line part piece tail : List UInt8}

theorem parseMethod_isLine (isLine : IsLine fields line) (rest : List UInt8) :
    parseMethod (line ++ crlf ++ rest) = none := by
  rcases isLine with rfl | ⟨field, _, rfl⟩
  · rfl
  · have noGet : startsWithNoCase (field.line ++ crlf ++ rest) getMark = false := by
      rw [List.append_assoc]
      exact not_startsWithNoCase_line field _ (by decide +kernel : ∀ c ∈ [71, 69, 84], toLower c ≠ 58)
    have noPost : startsWithNoCase (field.line ++ crlf ++ rest) postMark = false := by
      rw [List.append_assoc]
      exact not_startsWithNoCase_line field _ (by decide +kernel : ∀ c ∈ [80, 79, 83, 84], toLower c ≠ 58)
    rw [parseMethod, noGet, noPost]
    rfl

/-- The zero behind a header line that is taken for a request line lies behind its line end. -/
theorem startRequest_refuses (isLine : IsLine fields line) (behind : 2 ≤ s.lines.lineStart)
    (text : s.lines.current = line ++ crlf ++ tail) :
    (startRequest junk s (s.lines.lineStart + line.length)).bind conclude = none := by
  rw [startRequest]
  cases ended : writeAt s.lines.block (s.lines.lineStart + (s.lines.lineStart + line.length)) [0] with
  | none => rfl
  | some block =>
      obtain ⟨rest, string⟩ :=
        end_laterLine (fun c member => (isLine.ok c member).2) behind text ended
      rw [Option.bind_some]
      dsimp only
      rw [string, parseMethod_isLine isLine]
      rfl

/-- The piece that completes a header line is refused. -/
theorem Reading.refused (reading : Reading line part s) (isLine : IsLine fields line)
    (behind : 2 ≤ s.lines.lineStart)
    (room : s.lines.length + piece.length ≤ s.lines.block.length)
    (done : part ++ piece = line ++ crlf ++ tail) : deliver junk s piece = none := by
  obtain ⟨b, copied, _, _, lineStart, text, search⟩ :=
    reading.scanning.found (fun c member => (isLine.ok c member).1) room done
  rw [deliver_firstLine reading.status copied, parseFirstLine, search]
  exact startRequest_refuses (s := { s with lines := { b.grow piece.length with
    parsePos := b.lineStart + line.length + 2 } }) isLine (lineStart ▸ behind) text

/-- A decoder that waits for a header line does not get past it. -/
theorem Reading.feedAll_none {pieces : List (List UInt8)}
    (reading : Reading line part s) (isLine : IsLine fields line) (behind : 2 ≤ s.lines.lineStart)
    {later : List UInt8} (stream : part ++ pieces.flatten = line ++ crlf ++ later)
    (fits : (decoder junk).Fits s pieces) : (decoder junk).feedAll s pieces = none := by
  induction pieces generalizing part s with
  | nil =>
      have length := congrArg List.length stream
      have short := reading.scanning.short
      simp only [List.flatten_nil, List.append_nil, List.length_append, crlf, List.length_cons,
        List.length_nil] at length
      omega
  | cons piece rest ih =>
      have room := reading.room fits
      rw [List.flatten_cons, ← List.append_assoc] at stream
      rcases piece_cases stream with ⟨short, isPart⟩ | ⟨tail, done, _⟩
      · obtain ⟨s', delivered, reading', sameStart, _, _⟩ := reading.more junk
          (fun c member => (isLine.ok c member).1) room isPart short
        rw [Decoder.feedAll_cons (decoder junk) rest delivered,
          ih reading' (by omega) stream (fits.2.2 s' [] delivered)]
        rfl
      · exact Decoder.feedAll_cons_none (reading.refused isLine behind room done)

end Stuck

/-! ## Up to the end of the request line -/

section Reach

variable {junk : Nat → UInt8} {h : RequestHead} {part rest later : List UInt8} {s : ReqDecoder}
  {sizes : List Nat}

/-- The decoder is about to receive the piece that completes the request line; `inner` are the
lengths of the pieces before. -/
structure AtLastPiece (junk : Nat → UInt8) (h : RequestHead) (stream : List UInt8)
    (inner : List Nat) (size : Nat) (outer : List Nat) (part rest : List UInt8)
    (s : ReqDecoder) : Prop where
  reading : Reading h.line part s
  atStart : s.lines.lineStart = 0
  fresh : s.request = {}
  whole : part ++ rest = stream
  length : part.length = inner.sum
  completes : h.line.length + 2 ≤ inner.sum + size
  sum : size + outer.sum = rest.length
  fits : (decoder junk).Fits s (cutInto (size :: outer) rest)

/-- Pieces inside of the request line only move the decoder along. -/
theorem Reading.reach (reading : Reading h.line part s) (before : List Nat)
    (atStart : s.lines.lineStart = 0) (fresh : s.request = {}) (length : part.length = before.sum)
    (stream : part ++ rest = h.line ++ crlf ++ later) (sum : sizes.sum = rest.length)
    (fits : (decoder junk).Fits s (cutInto sizes rest)) :
    ∃ inner size outer part' rest' s', before ++ sizes = inner ++ size :: outer ∧
      AtLastPiece junk h (part ++ rest) inner size outer part' rest' s' ∧
      (decoder junk).feedAll s (cutInto sizes rest) =
        (decoder junk).feedAll s' (cutInto (size :: outer) rest') := by
  induction sizes generalizing part rest s before with
  | nil =>
      have lengths := congrArg List.length stream
      have short := reading.scanning.short
      have none' : rest = [] := List.length_eq_zero_iff.mp sum.symm
      simp only [none', List.append_nil, List.length_append, crlf, List.length_cons,
        List.length_nil] at lengths
      omega
  | cons size sizes ih =>
      rw [List.sum_cons] at sum
      have taken : (rest.take size).length = size := by
        rw [List.length_take]
        omega
      have left : sizes.sum = (rest.drop size).length := by
        rw [List.length_drop]
        omega
      by_cases completes : h.line.length + 2 ≤ before.sum + size
      · exact ⟨before, size, sizes, part, rest, s, rfl,
          ⟨reading, atStart, fresh, rfl, length, completes, sum, fits⟩, rfl⟩
      · have cut : part ++ rest.take size ++ rest.drop size = part ++ rest := by
          rw [List.append_assoc, List.take_append_drop]
        have grown : (part ++ rest.take size).length = before.sum + size := by
          rw [List.length_append, taken, length]
        have isPart : part ++ rest.take size <+: h.line ++ crlf := by
          rcases piece_cases (cut.trans stream) with ⟨_, isPart⟩ | ⟨tail, done, _⟩
          · exact isPart
          · have lengths := congrArg List.length done
            rw [grown, List.length_append, List.length_append] at lengths
            have two : crlf.length = 2 := rfl
            omega
        obtain ⟨s', delivered, reading', sameStart, sameRequest, _⟩ := reading.more junk
          (fun c member => (h.line_plain c member).1) (reading.room fits) isPart (by omega)
        have total : (part ++ rest.take size).length = (before ++ [size]).sum := by
          rw [grown, List.sum_append, List.sum_singleton]
        obtain ⟨inner, size', outer, part', rest', s'', split, last, fed⟩ :=
          ih reading' _ (sameStart.trans atStart) (sameRequest.trans fresh) total
            (cut.trans stream) left (fits.2.2 s' [] delivered)
        refine ⟨inner, size', outer, part', rest', s'', ?_, cut ▸ last, ?_⟩
        · rw [← split, List.append_assoc]
          rfl
        · rw [cutInto, Decoder.feedAll_cons (decoder junk) _ delivered, fed]
          exact Option.map_id'

end Reach

/-! ## The end of the head -/

section Head

variable {junk : Nat → UInt8} {h : RequestHead} {tail missing body part rest : List UInt8}
  {s : ReqDecoder} {inner outer : List Nat} {size : Nat}

theorem AfterLine.enough (after : AfterLine h tail s) : tail.length < s.lines.length + 1 := by
  have total := after.atLine.total
  omega

/-- The piece that completes the request line, cut at the end of that line. -/
theorem AtLastPiece.firstLine (last : AtLastPiece junk h (h.text ++ body) inner size outer part rest s) :
    ∃ s' tail, deliver junk s (rest.take size) = (parseHeader junk s').bind conclude ∧
      AfterLine h tail s' ∧ tail ++ rest.drop size = fieldsText h.fields ++ body ∧
      h.line.length + 2 + tail.length = inner.sum + size := by
  have sum := last.sum
  have taken : (rest.take size).length = size := by
    rw [List.length_take]
    omega
  have stream : part ++ rest.take size ++ rest.drop size =
      h.line ++ crlf ++ (fieldsText h.fields ++ body) := by
    rw [List.append_assoc, List.take_append_drop, last.whole, RequestHead.text, List.append_assoc]
  have completes := last.completes
  rcases piece_cases stream with ⟨short, _⟩ | ⟨tail, done, rest'⟩
  · rw [List.length_append, last.length, taken] at short
    omega
  · obtain ⟨s', delivered, after⟩ :=
      last.reading.firstLine last.atStart last.fresh (last.reading.room last.fits) done
    refine ⟨s', tail, delivered, after, rest', ?_⟩
    have lengths := congrArg List.length done
    rw [List.length_append, last.length, taken, List.length_append, List.length_append] at lengths
    exact lengths.symm

theorem length_text (h : RequestHead) :
    h.text.length = h.line.length + 2 + (fieldsText h.fields).length := by
  rw [RequestHead.text, List.length_append, List.length_append]
  rfl

/-- A piece that ends in the header lines: the rest of them is taken for a request line. -/
theorem AtLastPiece.inHeader
    (last : AtLastPiece junk h (h.text ++ body) inner size outer part rest s)
    (inside : inner.sum + size < h.text.length) :
    (decoder junk).feedAll s (cutInto (size :: outer) rest) = none := by
  obtain ⟨s', tail, delivered, after, stream, lengths⟩ := last.firstLine
  rw [length_text] at inside
  have isPart : tail <+: fieldsText h.fields :=
    List.prefix_of_prefix_length_le (stream ▸ List.prefix_append _ _) (List.prefix_append _ _)
      (by omega)
  obtain ⟨missing, whole⟩ := isPart
  have some' : missing ≠ [] := by
    intro none'
    have same := congrArg List.length whole
    rw [none', List.append_nil] at same
    omega
  obtain ⟨b, request, parsed, ⟨line, part', later, isLine, scanning, behind, next⟩, block, _⟩ :=
    headerLoop_partial after.enough after.atLine after.filled whole some'
  obtain ⟨s'', isS''⟩ : ∃ s'', s'' = { s' with lines := b, request := request } := ⟨_, rfl⟩
  have reading : Reading line part' s'' := by
    rw [isS'']
    exact ⟨after.status, by rw [block]; exact after.size, scanning⟩
  have first : deliver junk s (rest.take size) = some (s'', []) := by
    rw [delivered, parseHeader, parsed, isS'']
    rfl
  have sum := last.sum
  have flat : (cutInto outer (rest.drop size)).flatten = missing ++ body := by
    rw [flatten_cutInto (by rw [List.length_drop]; omega)]
    rw [← whole, List.append_assoc] at stream
    exact List.append_cancel_left stream
  have ahead : part' ++ (cutInto outer (rest.drop size)).flatten =
      line ++ crlf ++ (later ++ body) := by
    rw [flat, ← List.append_assoc, next, List.append_assoc]
  have enough : 2 ≤ s''.lines.lineStart := by
    have position := after.parsePos
    rw [isS'']
    dsimp only
    omega
  rw [cutInto, Decoder.feedAll_cons (decoder junk) _ first,
    reading.feedAll_none isLine enough ahead (last.fits.2.2 s'' [] first)]
  rfl

/-- A piece that holds the rest of the head and the first bytes of the body. -/
theorem AtLastPiece.complete
    (last : AtLastPiece junk h (h.text ++ body) inner size outer part rest s)
    (behind : h.text.length ≤ inner.sum + size) :
    ∃ s', deliver junk s (rest.take size) = (endHeader junk s').bind conclude ∧
      s'.lines.unread = body.take (inner.sum + size - h.text.length) ∧ s'.request = h.request ∧
      rest.drop size = body.drop (inner.sum + size - h.text.length) := by
  obtain ⟨s', tail, delivered, after, stream, lengths⟩ := last.firstLine
  rw [length_text] at behind ⊢
  have isPart : fieldsText h.fields <+: tail :=
    List.prefix_of_prefix_length_le (List.prefix_append _ _) (stream ▸ List.prefix_append _ _)
      (by omega)
  obtain ⟨left, rfl⟩ := isPart
  rw [List.append_assoc] at stream
  have bodyEq : left ++ rest.drop size = body := List.append_cancel_left stream
  rw [List.length_append] at lengths
  have leftLength : inner.sum + size - (h.line.length + 2 + (fieldsText h.fields).length) =
      left.length := by omega
  obtain ⟨b, parsed, atLine, _⟩ := headerLoop_complete after.enough after.atLine
  refine ⟨{ s' with lines := b, request := h.request }, ?_, ?_, rfl, ?_⟩
  · rw [delivered, parseHeader, parsed, after.request]
    rfl
  · rw [leftLength, ← bodyEq, List.take_left' rfl]
    exact atLine.unread
  · rw [leftLength, ← bodyEq, List.drop_left' rfl]

end Head

/-! ## The body -/

/-- The decoder fills the block for the body; `read` bytes have been counted. -/
structure Filling (request : HttpRequest) (read : Nat) (block : List UInt8) (s : ReqDecoder) :
    Prop where
  status : s.status = .body
  positive : 0 < request.contentLength
  bodyLength : s.bodyLength = request.contentLength.toNat
  bodyRead : s.bodyRead = read
  body : s.body = block
  request : s.request = request

section Body

variable {junk : Nat → UInt8} {request : HttpRequest} {read : Nat} {block : List UInt8}
  {s : ReqDecoder}

/-- Without a body the request is complete. -/
theorem endHeader_empty (empty : s.request.contentLength ≤ 0) :
    (endHeader junk s).bind conclude = some (s.reset, [s.request]) := by
  have not' : ¬ 0 < s.request.contentLength := Int.not_lt.mpr empty
  rw [endHeader, if_neg not', Option.bind_some, conclude, message]
  dsimp only
  rw [if_neg not']
  rfl

/-- More bytes than the body has break the assertion. -/
theorem endHeader_long (positive : 0 < s.request.contentLength)
    (long : s.request.contentLength.toNat < s.lines.unread.length) : endHeader junk s = none := by
  rw [endHeader, if_pos positive]
  exact if_pos long

variable (junk) in
/-- The bytes behind the head start the body. -/
theorem endHeader_fill (positive : 0 < s.request.contentLength)
    (inside : s.lines.unread.length ≤ s.request.contentLength.toNat) :
    ∃ s', endHeader junk s = some (readBody s', s') ∧
      Filling s.request s.lines.unread.length
        (s.lines.unread ++ (malloc junk s.request.contentLength.toNat).drop s.lines.unread.length) s' := by
  have room : 0 + s.lines.unread.length ≤ (malloc junk s.request.contentLength.toNat).length := by
    rw [length_malloc]
    omega
  refine ⟨{ s with
    status := .body, bodyLength := s.request.contentLength.toNat, bodyRead := s.lines.unread.length
    body := s.lines.unread ++ (malloc junk s.request.contentLength.toNat).drop s.lines.unread.length },
    ?_, ⟨rfl, positive, rfl, rfl, rfl, rfl⟩⟩
  rw [endHeader, if_pos positive]
  refine (if_neg (Nat.not_lt.mpr inside)).trans ?_
  have written := writeAt_eq_some room
  rw [Nat.zero_add, List.take_zero, List.nil_append] at written
  exact congrArg (Option.map _) written

theorem Filling.conclude_eq (filling : Filling request read block s) :
    conclude (readBody s, s) =
      if read = request.contentLength.toNat then
        some (s.reset, [{ request with content := some block }])
      else if request.contentLength.toNat < read then none
      else some (s, []) := by
  have done : message s = { request with content := some block } := by
    rw [message, filling.request, filling.body, if_pos filling.positive]
  rw [conclude, readBody, filling.bodyLength, filling.bodyRead]
  by_cases full : read = request.contentLength.toNat
  · rw [if_pos full, if_pos full, done]
    rfl
  · rw [if_neg full, if_neg full]
    by_cases exceeds : request.contentLength.toNat < read
    · rw [if_pos exceeds, if_pos exceeds]
      rfl
    · rw [if_neg exceeds, if_neg exceeds]
      rfl

/-- One piece of the body: it is written as far from the start of the block as bytes are missing. -/
theorem Filling.deliver_cases (filling : Filling request read block s) (piece : List UInt8) :
    deliver junk s piece = none ∨
      ∃ block' s', writeAt block (request.contentLength.toNat - read) piece = some block' ∧
        request.contentLength.toNat - read ≠ read ∧ Filling request (read + piece.length) block' s' ∧
        deliver junk s piece = conclude (readBody s', s') := by
  cases written : writeAt s.body (s.bodyLength - s.bodyRead) piece with
  | none => exact Or.inl (deliver_body_none filling.status written)
  | some block' =>
      rw [deliver_body filling.status written]
      by_cases apart : s.bodyLength - s.bodyRead ≠ s.bodyRead
      · rw [if_pos apart]
        rw [filling.bodyLength, filling.bodyRead] at apart
        rw [filling.body, filling.bodyLength, filling.bodyRead] at written
        have counted : s.bodyRead + piece.length = read + piece.length := by rw [filling.bodyRead]
        exact Or.inr ⟨block', { s with body := block', bodyRead := s.bodyRead + piece.length },
          written, apart, ⟨filling.status, filling.positive, filling.bodyLength, counted, rfl,
            filling.request⟩, rfl⟩
      · exact Or.inl (if_neg apart)

/-- Byte `r` of the block is never written with byte `r` of the body, because `2 * read` is not the
length when a piece is accepted. -/
theorem Filling.feedAll_spoiled {r : Nat} {stream : List UInt8} {sizes : List Nat}
    {done : ReqDecoder} {m : HttpRequest} {msgs : List HttpRequest}
    (filling : Filling request read block s) (short : read < request.contentLength.toNat)
    (zero : block[r]? = some 0) (others : ∀ j c, j ≠ r → stream[j]? = some c → c = 0)
    (sum : sizes.sum = (stream.drop read).length)
    (fed : (decoder junk).feedAll s (cutInto sizes (stream.drop read)) = some (done, m :: msgs)) :
    m.contentLength = request.contentLength ∧ ∃ block', m.content = some block' ∧
      block'[r]? = some 0 := by
  induction sizes generalizing read block s with
  | nil => cases fed
  | cons size sizes ih =>
      rw [List.sum_cons, List.length_drop] at sum
      have taken : ((stream.drop read).take size).length = size := by
        rw [List.length_take, List.length_drop]
        omega
      rcases filling.deliver_cases ((stream.drop read).take size) with
        failed | ⟨block', s', written, apart, filling', delivered⟩
      · rw [cutInto, Decoder.feedAll_cons_none failed] at fed
        cases fed
      · have zero' : block'[r]? = some 0 := by
          rw [getElem?_writeAt written r]
          split
          · next within =>
              rw [taken] at within
              obtain ⟨c, found⟩ : ∃ c, ((stream.drop read).take size)[r -
                  (request.contentLength.toNat - read)]? = some c :=
                ⟨_, List.getElem?_eq_getElem (by omega)⟩
              rw [found]
              rw [List.getElem?_take_of_lt (by omega), List.getElem?_drop] at found
              exact congrArg some (others _ c (by omega) found)
          · exact zero
        rw [taken] at filling'
        rw [filling'.conclude_eq] at delivered
        by_cases full : read + size = request.contentLength.toNat
        · rw [if_pos full] at delivered
          rw [cutInto, Decoder.feedAll_cons (decoder junk) _ delivered] at fed
          obtain ⟨⟨_, outs⟩, _, same⟩ := Option.map_eq_some_iff.mp fed
          obtain ⟨rfl, _⟩ := List.cons.inj (Prod.mk.inj same).2
          exact ⟨rfl, block', rfl, zero'⟩
        · rw [if_neg full] at delivered
          by_cases exceeds : request.contentLength.toNat < read + size
          · rw [if_pos exceeds] at delivered
            rw [cutInto, Decoder.feedAll_cons_none delivered] at fed
            cases fed
          · rw [if_neg exceeds] at delivered
            rw [cutInto, Decoder.feedAll_cons (decoder junk) _ delivered, List.drop_drop] at fed
            obtain ⟨⟨_, outs⟩, fed', same⟩ := Option.map_eq_some_iff.mp fed
            obtain ⟨rfl, rfl⟩ := Prod.mk.inj same
            exact ih filling' (by omega) zero' (by rw [List.length_drop]; omega) fed'

end Body

/-! ## Segmentation -/

/-- The decoder accepts all pieces and hands over the request, and nothing else. -/
def Decodes (junk : Nat → UInt8) (h : RequestHead) (body : List UInt8)
    (pieces : List (List UInt8)) : Prop :=
  ∃ s, (decoder junk).feedAll (.initial junk) pieces = some (s, [expected h body])

section Segments

variable {junk : Nat → UInt8} {h : RequestHead} {body part rest : List UInt8} {s : ReqDecoder}
  {sizes inner outer : List Nat} {size : Nat}

theorem applyHeader_content (request : HttpRequest) (name value : List UInt8) :
    (applyHeader request name value).content = request.content := by
  unfold applyHeader
  split <;> rfl

theorem RequestHead.request_content (h : RequestHead) : h.request.content = none := by
  suffices all : ∀ (fields : List HeaderField) (request : HttpRequest),
      (fields.foldl (fun request field => applyHeader request field.name field.value)
        request).content = request.content from all h.fields h.start
  intro fields
  induction fields with
  | nil => exact fun request => rfl
  | cons field fields ih =>
      intro request
      rw [List.foldl_cons, ih, applyHeader_content]

theorem initial_reading (junk : Nat → UInt8) (h : RequestHead) :
    Reading h.line [] (.initial junk) where
  status := rfl
  size := by
    rw [ReqDecoder.initial, length_malloc]
  scanning := scanning_fresh (malloc junk headerMaxLength) h.line

/-- Every segmentation has a piece that completes the request line. -/
theorem reach_line (total : sizes.sum = (h.text ++ body).length)
    (fits : (decoder junk).Fits (.initial junk) (cutInto sizes (h.text ++ body))) :
    ∃ inner size outer part rest s, sizes = inner ++ size :: outer ∧
      AtLastPiece junk h (h.text ++ body) inner size outer part rest s ∧
      (decoder junk).feedAll (.initial junk) (cutInto sizes (h.text ++ body)) =
        (decoder junk).feedAll s (cutInto (size :: outer) rest) := by
  have stream : [] ++ (h.text ++ body) = h.line ++ crlf ++ (fieldsText h.fields ++ body) := by
    rw [List.nil_append, RequestHead.text, List.append_assoc]
  exact (initial_reading junk h).reach [] rfl rfl rfl stream total fits

/-- The whole rest of the request in one piece. -/
theorem AtLastPiece.decodes
    (last : AtLastPiece junk h (h.text ++ body) inner size outer part rest s)
    (length : h.request.contentLength = body.length)
    (all : inner.sum + size = h.text.length + body.length) :
    ∃ s', (decoder junk).feedAll s (cutInto (size :: outer) rest) = some (s', [expected h body]) := by
  obtain ⟨s', delivered, unread, request, left⟩ := last.complete (by omega)
  have count : inner.sum + size - h.text.length = body.length := by omega
  rw [count, List.take_length] at unread
  rw [count, List.drop_length] at left
  obtain ⟨s'', emits⟩ : ∃ s'', (endHeader junk s').bind conclude = some (s'', [expected h body]) := by
    by_cases none' : body = []
    · subst none'
      have empty : s'.request.contentLength = 0 := by
        rw [request, length]
        rfl
      have same : h.request = expected h [] := by
        rw [expected, if_pos rfl, ← length, ← h.request_content]
      refine ⟨s'.reset, ?_⟩
      rw [endHeader_empty (Int.le_of_eq empty), request, ← same]
    · have positive : 0 < s'.request.contentLength := by
        rw [request, length]
        exact Int.natCast_pos.mpr (List.length_pos_of_ne_nil none')
      have size' : s'.request.contentLength.toNat = body.length := by
        rw [request, length, Int.toNat_natCast]
      obtain ⟨s'', done, filling⟩ := endHeader_fill junk positive
        (Nat.le_of_eq (by rw [unread, size']))
      refine ⟨s''.reset, ?_⟩
      rw [done, Option.bind_some, filling.conclude_eq, if_pos (by rw [unread, size']), size', unread,
        List.drop_eq_nil_of_le (Nat.le_of_eq (length_malloc _ _)), List.append_nil, request, expected,
        if_neg none', ← length]
  rw [emits] at delivered
  have empty : outer = [] := by
    have later := last.fits.2.2 s'' _ delivered
    rw [left] at later
    have sum := last.sum
    have none' : outer.sum = ([] : List UInt8).length := by
      have lengths := congrArg List.length left
      rw [List.length_drop] at lengths
      rw [List.length_nil] at lengths ⊢
      omega
    have nothing := later.eq_nil_of_flatten (flatten_cutInto none')
    cases outer with
    | nil => rfl
    | cons k outer => cases nothing
  refine ⟨s'', ?_⟩
  rw [empty, cutInto, Decoder.feedAll_cons (decoder junk) _ delivered]
  rfl

/-- A single message that is handed over with the first piece, or with a later one. -/
theorem feedAll_cons_eq_singleton {d : Decoder ReqDecoder HttpRequest} {piece : List UInt8}
    {pieces : List (List UInt8)} {s' done : ReqDecoder} {out : List HttpRequest} {m : HttpRequest}
    (delivered : d.deliver s piece = some (s', out))
    (fed : d.feedAll s (piece :: pieces) = some (done, [m])) :
    (∀ m', out = [m'] → m' = m) ∧ (out = [] → d.feedAll s' pieces = some (done, [m])) := by
  rw [Decoder.feedAll_cons d _ delivered] at fed
  obtain ⟨⟨done', outs⟩, later, same⟩ := Option.map_eq_some_iff.mp fed
  obtain ⟨rfl, whole⟩ := Prod.mk.inj same
  constructor
  · rintro m' rfl
    exact (List.cons.inj whole).1
  · rintro rfl
    rw [later, ← whole]
    rfl

/-- What a decoded request tells about the piece that completes the request line, when fresh memory
and the body are zero apart from the first byte of the body behind that piece. -/
theorem AtLastPiece.of_decodes
    (last : AtLastPiece (fun _ => 0) h (h.text ++ body) inner size outer part rest s)
    (others : ∀ j c, j ≠ inner.sum + size - h.text.length → body[j]? = some c → c = 0)
    {done : ReqDecoder} (fed : (decoder fun _ => 0).feedAll s (cutInto (size :: outer) rest) =
      some (done, [expected h body])) :
    h.text.length ≤ inner.sum + size ∧ h.request.contentLength = body.length ∧
      (inner.sum + size - h.text.length < body.length →
        body[inner.sum + size - h.text.length]? = some 0) := by
  by_cases inside : inner.sum + size < h.text.length
  · rw [last.inHeader inside] at fed
    cases fed
  refine ⟨Nat.not_lt.mp inside, ?_⟩
  obtain ⟨s', delivered, unread, request, left⟩ := last.complete (Nat.not_lt.mp inside)
  generalize inner.sum + size - h.text.length = r at *
  rw [cutInto] at fed
  by_cases positive : 0 < s'.request.contentLength
  · by_cases long : s'.request.contentLength.toNat < s'.lines.unread.length
    · rw [endHeader_long positive long] at delivered
      rw [Decoder.feedAll_cons_none delivered] at fed
      cases fed
    obtain ⟨s'', ended, filling⟩ := endHeader_fill (fun _ => 0) positive (Nat.not_lt.mp long)
    have counted : s'.lines.unread.length = min r body.length := by rw [unread, List.length_take]
    rw [ended, Option.bind_some, filling.conclude_eq] at delivered
    by_cases full : s'.lines.unread.length = s'.request.contentLength.toNat
    · rw [if_pos full] at delivered
      have same := congrArg HttpRequest.contentLength
        ((feedAll_cons_eq_singleton delivered fed).1 _ rfl)
      have length : h.request.contentLength = body.length := by
        rw [← request]
        exact same
      rw [request, length, Int.toNat_natCast, counted] at full
      exact ⟨length, fun short => by omega⟩
    · rw [if_neg full, if_neg long] at delivered
      have later := (feedAll_cons_eq_singleton delivered fed).2 rfl
      have ahead : rest.drop size = body.drop s'.lines.unread.length := by
        rw [left, counted]
        rcases Nat.le_total r body.length with short | exceeds
        · rw [Nat.min_eq_left short]
        · rw [Nat.min_eq_right exceeds, List.drop_eq_nil_of_le exceeds, List.drop_length]
      have zero : (s'.lines.unread ++ (malloc (fun _ => 0) s'.request.contentLength.toNat).drop
          s'.lines.unread.length)[s'.lines.unread.length]? = some 0 := by
        rw [List.getElem?_append_right (Nat.le_refl _), Nat.sub_self, List.getElem?_drop, malloc,
          List.getElem?_map, List.getElem?_range (by omega)]
        rfl
      have sum := last.sum
      have lengths := congrArg List.length ahead
      rw [List.length_drop] at lengths
      rw [ahead] at later
      obtain ⟨length, block, content, spoiled⟩ := filling.feedAll_spoiled (by omega) zero
        (fun j c apart found => others j c (fun same => apart (by
          have inBody := (List.getElem?_eq_some_iff.mp found).1
          omega)) found) (by omega) later
      refine ⟨by rw [← request]; exact length.symm, fun short => ?_⟩
      rw [counted, Nat.min_eq_left (Nat.le_of_lt short)] at spoiled
      have some' : body ≠ [] := List.ne_nil_of_length_pos (Nat.zero_lt_of_lt short)
      have whole : some body = some block := (if_neg some').symm.trans content
      rw [Option.some.inj whole, spoiled]
  · rw [endHeader_empty (Int.not_lt.mp positive)] at delivered
    have same := congrArg HttpRequest.contentLength
      ((feedAll_cons_eq_singleton delivered fed).1 _ rfl)
    have length : h.request.contentLength = body.length := by
      rw [← request]
      exact same
    rw [request, length] at positive
    exact ⟨length, fun short => absurd (Int.natCast_pos.mpr (Nat.zero_lt_of_lt short)) positive⟩

/-- A cut behind a limit is followed by no first one. -/
theorem completing_first {limit : Nat} {more inner' outer' : List Nat} {size' : Nat}
    (front : inner' = inner ++ more) (back : size :: outer = more ++ size' :: outer')
    (behind : limit ≤ inner.sum + size) (before' : inner'.sum < limit) :
    inner.sum + size = inner'.sum + size' := by
  cases more with
  | nil =>
      obtain ⟨rfl, _⟩ := List.cons.inj back
      rw [front, List.append_nil]
  | cons k more =>
      obtain ⟨rfl, _⟩ := List.cons.inj back
      rw [front, List.sum_append, List.sum_cons] at before'
      omega

/-- The first cut behind a limit depends on the lengths alone. -/
theorem completing_unique {limit : Nat} {inner' outer' : List Nat} {size' : Nat}
    (same : inner ++ size :: outer = inner' ++ size' :: outer')
    (before : inner.sum < limit) (behind : limit ≤ inner.sum + size)
    (before' : inner'.sum < limit) (behind' : limit ≤ inner'.sum + size') :
    inner.sum + size = inner'.sum + size' := by
  rcases List.append_eq_append_iff.mp same with ⟨more, front, back⟩ | ⟨more, front, back⟩
  · exact completing_first front back behind before'
  · exact (completing_first front back behind' before).symm

theorem AtLastPiece.before
    (last : AtLastPiece junk h (h.text ++ body) inner size outer part rest s) :
    inner.sum < h.line.length + 2 := by
  rw [← last.length]
  exact last.reading.scanning.short

end Segments

/-- A segmentation of a request of `n` body bytes gives the request back, for every body and every
fresh memory, when the decoder reads `n` from the header and no piece ends behind the request line
other than the last one. -/
theorem decodes_iff (h : RequestHead) (n : Nat) (sizes : List Nat)
    (total : sizes.sum = h.text.length + n)
    (fits : ∀ junk body, body.length = n →
      (decoder junk).Fits (.initial junk) (cutInto sizes (h.text ++ body))) :
    (∀ junk body, body.length = n → Decodes junk h body (cutInto sizes (h.text ++ body))) ↔
      h.request.contentLength = n ∧
        ∀ cut ∈ sizeCuts 0 sizes, h.line.length + 2 ≤ cut → h.text.length + n ≤ cut := by
  constructor
  · intro decodes
    have zeros : (List.replicate n (0 : UInt8)).length = n := List.length_replicate
    obtain ⟨inner, size, outer, part, rest, s, split, last, _⟩ := reach_line
      (by rw [List.length_append, zeros, total]) (fits (fun _ => 0) _ zeros)
    obtain ⟨r, isR⟩ : ∃ r, r = inner.sum + size - h.text.length := ⟨_, rfl⟩
    have marked : ((List.replicate n (0 : UInt8)).set r 1).length = n := by
      rw [List.length_set, zeros]
    obtain ⟨inner', size', outer', part', rest', s', split', last', fed⟩ := reach_line
      (by rw [List.length_append, marked, total]) (fits (fun _ => 0) _ marked)
    have sameCut := completing_unique (split.symm.trans split') last.before last.completes
      last'.before last'.completes
    obtain ⟨done, all⟩ := decodes (fun _ => 0) _ marked
    have others : ∀ j c, j ≠ inner'.sum + size' - h.text.length →
        ((List.replicate n (0 : UInt8)).set r 1)[j]? = some c → c = 0 := by
      intro j c apart found
      rw [← sameCut, ← isR] at apart
      rw [List.getElem?_set_ne (Ne.symm apart), List.getElem?_replicate] at found
      split at found
      · exact (Option.some.inj found).symm
      · cases found
    obtain ⟨behind, length, clean⟩ := last'.of_decodes others (fed ▸ all)
    rw [marked] at length clean
    rw [← sameCut, ← isR] at clean
    refine ⟨length, fun cut member atLeast => ?_⟩
    have whole : n ≤ r := by
      refine Nat.not_lt.mp fun short => ?_
      have one := clean short
      rw [List.getElem?_set_self (by rwa [zeros])] at one
      cases one
    rw [split, sizeCuts_append, Nat.zero_add] at member
    rcases List.mem_append.mp member with early | late
    · have bounds := mem_sizeCuts_bounds early
      have before := last.before
      omega
    · rw [← sameCut] at behind
      rcases List.mem_cons.mp late with rfl | later
      · omega
      · have bounds := mem_sizeCuts_bounds later
        omega
  · rintro ⟨length, cuts⟩ junk body rfl
    obtain ⟨inner, size, outer, part, rest, s, split, last, fed⟩ := reach_line
      (by rw [List.length_append, total]) (fits junk body rfl)
    have member : inner.sum + size ∈ sizeCuts 0 sizes := by
      rw [split, sizeCuts_append, Nat.zero_add]
      exact List.mem_append_right _ (List.mem_cons_self ..)
    have atEnd := cuts _ member last.completes
    have bounds := mem_sizeCuts_bounds member
    obtain ⟨s', done⟩ := last.decodes length (by omega)
    exact ⟨s', fed.trans done⟩

/-- `POST /q HTTP/1.1` with `Content-Length: 2`. -/
def postHead : RequestHead where
  method := .post
  uri := [47, 113]
  minor := 1
  fields := [⟨[67, 111, 110, 116, 101, 110, 116, 45, 76, 101, 110, 103, 116, 104], [50],
    by decide +kernel, by decide +kernel, by decide +kernel⟩]
  uriOk := by decide +kernel

/-- Two pieces that are cut in the request line. -/
theorem fits_lineCut {junk : Nat → UInt8} {h : RequestHead} {body : List UInt8} {k m : Nat}
    (positive : 0 < k ∧ 0 < m) (inside : k < h.line.length + 2)
    (sum : k + m = h.text.length + body.length) (room : k + m ≤ headerMaxLength) :
    (decoder junk).Fits (.initial junk) (cutInto [k, m] (h.text ++ body)) := by
  have total : (h.text ++ body).length = k + m := by rw [List.length_append, sum]
  have first : ((h.text ++ body).take k).length = k := by
    rw [List.length_take]
    omega
  have second : (((h.text ++ body).drop k).take m).length = m := by
    rw [List.length_take, List.length_drop]
    omega
  have whole : [] ++ (h.text ++ body).take k ++ (h.text ++ body).drop k =
      h.line ++ crlf ++ (fieldsText h.fields ++ body) := by
    rw [List.nil_append, List.take_append_drop, RequestHead.text, List.append_assoc]
  have isPart : [] ++ (h.text ++ body).take k <+: h.line ++ crlf := by
    rcases piece_cases whole with ⟨_, isPart⟩ | ⟨tail, done, _⟩
    · exact isPart
    · have lengths := congrArg List.length done
      rw [List.nil_append, first, List.length_append, List.length_append] at lengths
      have two : crlf.length = 2 := rfl
      omega
  have start : (ReqDecoder.initial junk).lines.length = 0 := rfl
  have reading := initial_reading junk h
  obtain ⟨s, delivered, reading', _, _, filled⟩ := reading.more junk
    (fun c member => (h.line_plain c member).1) (by rw [start, first, reading.size]; omega) isPart
    (by rw [List.nil_append, first]; exact inside)
  have offered : (getBuffer s).2 = headerMaxLength - k := by
    rw [getBuffer, reading'.status, filled, first, start, Nat.zero_add]
  refine Decoder.Fits.cons (List.ne_nil_of_length_pos (by omega)) rfl ?_
    (Or.inr ⟨s, [], delivered, ?_⟩)
  · rw [first]
    exact Nat.le_trans (Nat.le_add_right k m) room
  · refine ⟨List.ne_nil_of_length_pos (by omega), ⟨headerMaxLength - k, ?_, by omega⟩,
      fun _ _ _ => trivial⟩
    exact congrArg some offered

/-- A cut in the request line does no harm. -/
theorem decodes_lineCut :
    Decodes (fun _ => 0) postHead [104, 105] (cutInto [7, 34] (postHead.text ++ [104, 105])) :=
  (decodes_iff postHead 2 [7, 34] (by decide +kernel) fun _ _ length =>
    fits_lineCut (by decide) (by decide +kernel) (by rw [length]; decide +kernel)
      (by decide +kernel)).mpr ⟨by decide +kernel, by decide +kernel⟩ (fun _ => 0) [104, 105] rfl

/-- `GET / HTTP/1.0` without header lines. -/
def plainHead : RequestHead := ⟨.get, [47], 0, [], rootPath_plain⟩

/-- The blank line alone is refused. -/
theorem not_decodes_behindLine :
    plainHead.request.contentLength = 0 ∧
      (cutInto [16, 2] (plainHead.text ++ [])).flatten = plainHead.text ++ [] ∧
      (decoder fun _ => 0).Fits (.initial fun _ => 0) (cutInto [16, 2] (plainHead.text ++ [])) ∧
      ¬ Decodes (fun _ => 0) plainHead [] (cutInto [16, 2] (plainHead.text ++ [])) := by
  refine ⟨by decide +kernel, by decide +kernel, by decide +kernel, ?_⟩
  rintro ⟨s, done⟩
  have refused : ((decoder fun _ => 0).feedAll (.initial fun _ => 0)
      (cutInto [16, 2] (plainHead.text ++ []))).isNone = true := by decide +kernel
  rw [done] at refused
  cases refused

end MlsImgSearch.Blitz.HttpReqDecoder
