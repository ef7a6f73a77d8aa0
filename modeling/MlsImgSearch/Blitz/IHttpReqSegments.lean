import MlsImgSearch.Blitz.IHttpChunkedBody
import MlsImgSearch.Blitz.HttpReqSegments
import MlsImgSearch.Blitz.HttpRespSegments
import Mathlib.Data.List.TakeWhile

/-!
# Segmentation of requests with chunked bodies

Where the pieces of a request may end. The version has to arrive with the first
piece of the request line, the header lines have to arrive together, and no piece
may end behind the data of a chunk.
-/

namespace MlsImgSearch.Blitz.IHttpReqDecoder

open MlsImgSearch.Lib.Bytes
open MlsImgSearch.Lib.Segmentation
open MlsImgSearch.Lib.TextSearch
open MlsImgSearch.Blitz.HttpCommon
open MlsImgSearch.Blitz.HttpReqDecoder (getMark postMark parseMethod parseMethod_line takeWhile_uri
  minor_eq)
open MlsImgSearch.Blitz.HttpRespDecoder (Chunk Payload lastChunk textOf dataOf checked_eq
  transferEncodingName transferEncodingName_ne_nil transferEncodingName_plain chunkedMark
  dataOf_append_last chunksOk_append append_last_cons)

/-! ## The request line -/

section RequestLine

variable {junk : Nat → UInt8} {h : Head} {line part piece tail : List UInt8} {s : ReqDecoder}

variable (junk) in
/-- The line stays open. -/
theorem deliver_scan (made : s.lines.block ≠ []) (status : s.status = .firstLine)
    (scanning : Scanning line part s.lines) (plain : ∀ c ∈ line, c ≠ 13)
    (room : s.lines.length + piece.length ≤ s.lines.block.length)
    (isPart : part ++ piece <+: line ++ crlf) (short : (part ++ piece).length < line.length + 2) :
    ∃ b, deliver junk s piece = (openLine { s with lines := b }).bind conclude ∧
      Scanning line (part ++ piece) b ∧ b.lineStart = s.lines.lineStart ∧
      b.block.length = s.lines.block.length := by
  obtain ⟨b, b', copied, _, search, scanning', lineStart, _, _, size⟩ :=
    scanning.more plain room isPart short
  refine ⟨b', ?_, scanning', lineStart, size⟩
  rw [deliver_firstLine made status copied, parseFirstLine, search]

theorem openLine_cases (arrived : s.past = false) :
    (openLine s).bind conclude = some (s, []) ∨ (openLine s).bind conclude = none := by
  rw [openLine]
  cases strstr httpMark (s.lines.block.take s.lines.length) with
  | found position =>
      refine Or.inl ?_
      rw [Option.bind_some, conclude, arrived]
      rfl
  | absent =>
      refine Or.inr ?_
      rw [Option.bind_some, conclude, arrived]
      rfl
  | outside =>
      refine Or.inr ?_
      cases strstr httpMark s.lines.block with
      | found position => exact conclude_past rfl
      | absent => exact conclude_past rfl
      | outside => rfl

theorem openLine_fails (outside : strstr httpMark (s.lines.block.take s.lines.length) = .outside) :
    (openLine s).bind conclude = none := by
  rw [openLine, outside]
  cases strstr httpMark s.lines.block with
  | found position => exact conclude_past rfl
  | absent => exact conclude_past rfl
  | outside => rfl

/-- In the first line of the buffer the version has to be there. -/
theorem openLine_first {text : List UInt8} (arrived : s.past = false)
    (atStart : s.lines.lineStart = 0) (current : s.lines.current = text) (nonzero : 0 ∉ text) :
    (httpMark <:+: text ∧ (openLine s).bind conclude = some (s, [])) ∨
      (¬ httpMark <:+: text ∧ (openLine s).bind conclude = none) := by
  rw [LineBuffer.current, atStart, List.drop_zero] at current
  rcases strstr_nonzero nonzero (by decide : httpMark ≠ []) with
    ⟨inside, position, found⟩ | ⟨missing, outside⟩
  · refine Or.inl ⟨inside, ?_⟩
    rw [openLine, current, found, Option.bind_some, conclude, arrived]
    rfl
  · refine Or.inr ⟨missing, openLine_fails ?_⟩
    rw [current, outside]

/-- `part` of a line has arrived, and nothing before it. -/
structure Reading (line part : List UInt8) (s : ReqDecoder) : Prop where
  status : s.status = .firstLine
  fresh : s.request = {} ∧ s.body = none ∧ s.bodyRead = 0 ∧ s.chunkLeft = 0 ∧ s.past = false
  size : s.lines.block.length = httpBufSize + 4
  atStart : s.lines.lineStart = 0
  scanning : Scanning line part s.lines

theorem Reading.made (reading : Reading line part s) : s.lines.block ≠ [] := by
  have size := reading.size
  exact List.ne_nil_of_length_pos (by omega)

theorem reading_fresh {block : List UInt8} (size : block.length = httpBufSize + 4) :
    Reading line [] { lines := { block := block } } where
  status := rfl
  fresh := ⟨rfl, rfl, rfl, rfl, rfl⟩
  size := size
  atStart := rfl
  scanning := scanning_fresh block line

variable (junk) in
/-- A piece inside of the first line. -/
theorem Reading.deliver_open (reading : Reading line part s) (plain : ∀ c ∈ line, c ≠ 13 ∧ c ≠ 0)
    (room : s.lines.length + piece.length ≤ s.lines.block.length)
    (isPart : part ++ piece <+: line ++ crlf) (short : (part ++ piece).length < line.length + 2) :
    (httpMark <:+: part ++ piece ∧ ∃ s', deliver junk s piece = some (s', []) ∧
        Reading line (part ++ piece) s') ∨
      (¬ httpMark <:+: part ++ piece ∧ deliver junk s piece = none) := by
  obtain ⟨b, delivered, scanning, lineStart, size⟩ := deliver_scan junk reading.made reading.status
    reading.scanning (fun c member => (plain c member).1) room isPart short
  have nonzero : 0 ∉ part ++ piece := by
    intro member
    rcases List.mem_append.mp (isPart.subset member) with inLine | inEnd
    · exact (plain 0 inLine).2 rfl
    · exact absurd inEnd (by decide)
  have atStart := lineStart.trans reading.atStart
  rcases openLine_first (s := { s with lines := b }) reading.fresh.2.2.2.2 atStart scanning.slice
    nonzero with ⟨inside, stays⟩ | ⟨missing, failed⟩
  · exact Or.inl ⟨inside, _, delivered.trans stays, reading.status, reading.fresh,
      size.trans reading.size, atStart, scanning⟩
  · exact Or.inr ⟨missing, delivered.trans failed⟩

variable (junk) in
/-- The piece that completes the first line. -/
theorem Reading.deliver_line (reading : Reading line part s) (plain : ∀ c ∈ line, c ≠ 13 ∧ c ≠ 0)
    (room : s.lines.length + piece.length ≤ s.lines.block.length)
    (done : part ++ piece = line ++ crlf ++ tail) :
    ∃ b ended, deliver junk s piece =
        (startRequest junk { s with lines := b } line.length).bind conclude ∧
      b.lineStart = 0 ∧ b.parsePos = line.length + 2 ∧
      writeAt b.block line.length [0] = some ended ∧ ended.takeWhile (· != 0) = line ∧
      (∀ k < line.length, ended[k]? = (line)[k]?) ∧ ended.length = httpBufSize + 4 ∧
      b.length ≤ ended.length ∧
      AtLine tail { b with block := ended, lineStart := b.parsePos } := by
  obtain ⟨b, copied, size, length, lineStart, text, search⟩ :=
    reading.scanning.found (fun c member => (plain c member).1) room done
  have atStart := lineStart.trans reading.atStart
  rw [atStart, Nat.zero_add] at search
  have filled : b.length + piece.length ≤ b.block.length := by omega
  obtain ⟨ended, written, string, bytes, same, atLine⟩ := end_firstLine
    (b := { b.grow piece.length with parsePos := line.length + 2 }) atStart filled
    (fun c member => (plain c member).2) text rfl
  refine ⟨{ b.grow piece.length with parsePos := line.length + 2 }, ended, ?_, atStart, rfl, written,
    string, bytes, ?_, ?_, atLine⟩
  · rw [deliver_firstLine reading.made reading.status copied, parseFirstLine, search]
  · exact same.trans (size.trans reading.size)
  · exact Nat.le_trans filled (Nat.le_of_eq same.symm)

/-- What is left of the last line end is refused as a request. -/
theorem deliver_leftover {block : List UInt8} (size : block.length = httpBufSize + 4)
    (some' : piece ≠ []) (isEnd : piece <:+: crlf) :
    deliver junk { lines := { block := block } } piece = none := by
  have lone : ∀ (line : List UInt8) (byte : UInt8), (∀ c ∈ line, c ≠ 13 ∧ c ≠ 0) →
      [byte] <+: line ++ crlf → ¬ httpMark <:+: [byte] →
      deliver junk { lines := { block := block } } [byte] = none := by
    intro line byte plain isPart lacks
    have short : ([] ++ [byte]).length < line.length + 2 := by
      rw [List.nil_append, List.length_singleton]
      omega
    rcases (reading_fresh size).deliver_open junk plain (by
        show 0 + 1 ≤ block.length
        omega) isPart short with ⟨inside, -⟩ | ⟨-, failed⟩
    · exact absurd inside lacks
    · exact failed
  have cases' : piece = [13] ∨ piece = [10] ∨ piece = crlf := by
    rw [crlf, List.infix_cons_iff, List.prefix_cons_iff, List.infix_cons_iff, List.infix_nil] at isEnd
    rcases isEnd with (none' | ⟨front, rfl, isFront⟩) | isFront | none'
    · exact absurd none' some'
    · rcases List.prefix_cons_iff.mp isFront with rfl | ⟨front', rfl, none'⟩
      · exact Or.inl rfl
      · rw [List.prefix_nil.mp none']
        exact Or.inr (Or.inr rfl)
    · rcases List.prefix_cons_iff.mp isFront with none' | ⟨front', rfl, none'⟩
      · exact absurd none' some'
      · rw [List.prefix_nil.mp none']
        exact Or.inr (Or.inl rfl)
    · exact absurd none' some'
  rcases cases' with rfl | rfl | rfl
  · exact lone [] 13 (by simp) (by decide +kernel) (by decide +kernel)
  · exact lone [10] 10 (by decide +kernel) (by decide +kernel) (by decide +kernel)
  · -- an empty line is no request line
    have reading : Reading [] [] { lines := { block := block } } := reading_fresh size
    have done : [] ++ crlf = [] ++ crlf ++ [] := rfl
    obtain ⟨b, ended, delivered, atStart, -, written, string, -⟩ := reading.deliver_line junk
      (by simp) (by
        show 0 + 2 ≤ block.length
        omega) done
    rw [delivered, startRequest]
    dsimp only
    rw [atStart, Nat.zero_add, written, Option.bind_some, List.drop_zero, string]
    rfl

/-- Bytes that are left behind a request keep it from being the only one. -/
theorem not_emits_leftover {rest : List UInt8} {pieces : List (List UInt8)}
    {out : List IHttpRequest} (stream : pieces.flatten = rest) (isEnd : rest <:+ crlf)
    (some' : rest ≠ []) (within : (decoder junk).Within {} pieces) :
    ¬ (decoder junk).Emits {} pieces out := by
  cases pieces with
  | nil => exact absurd stream.symm some'
  | cons piece pieces =>
      rw [List.flatten_cons] at stream
      have front : piece <+: rest := stream ▸ List.prefix_append _ _
      refine Decoder.not_emits (?_ : deliver junk {} piece = none)
      rw [← deliver_prepare]
      exact deliver_leftover (length_malloc _ _) within.1.1 (front.isInfix.trans isEnd.isInfix)

end RequestLine

/-! ## All pieces of a chunked body -/

section Run

variable {junk : Nat → UInt8} {request : IHttpRequest} {all : List Chunk}
  {body rest piece : List UInt8} {s : ReqDecoder} {pieces : List (List UInt8)} {m : IHttpRequest}
  {base total : Nat}

theorem not_endsChunk_zero (chunks : List Chunk) : ¬ EndsChunk 0 chunks := by
  induction chunks with
  | nil => exact id
  | cons c cs ih =>
      rintro (⟨positive, _⟩ | later)
      · exact Nat.lt_irrefl 0 positive
      · exact ih later

theorem Mid.past (mid : Mid request all body rest s) : s.past = false := by
  rcases mid with ⟨c, cs, got, part, atSize⟩ | ⟨c, cs, got, left, inData⟩
  · exact atSize.past
  · exact inData.past

/-- No piece ends behind the data of a chunk; `total` bytes are the whole stream. -/
def ChunksWhole (all : List Chunk) (total : Nat) (cuts : List Nat) : Prop :=
  ∀ cut ∈ cuts, ¬ EndsChunk (total - cut) all

/-- What a reader sees of a piece and of those behind it. -/
theorem Outcome.emits_iff {result : Option (Int × ReqDecoder)}
    (outcome : Outcome request all body pieces.flatten result)
    (plain : request.contentLength = 0 ∧ request.content = [])
    (delivered : deliver junk s piece = result.bind conclude)
    (within : (decoder junk).Within s (piece :: pieces))
    (size : base + pieces.flatten.length = total)
    (later : ∀ s', deliver junk s piece = some (s', []) → Mid request all body pieces.flatten s' →
      ((decoder junk).Emits s' pieces [m] ↔
        ChunksWhole all total (cutsFrom base pieces) ∧ m = finish request body)) :
    (decoder junk).Emits s (piece :: pieces) [m] ↔
      ChunksWhole all total (base :: cutsFrom base pieces) ∧ m = finish request body := by
  have missing : total - base = pieces.flatten.length := by omega
  rw [ChunksWhole, List.forall_mem_cons, missing, and_assoc]
  cases outcome with
  | waits s' taken mid inside =>
      rw [taken, Option.bind_some, conclude, mid.past, if_neg Bool.false_ne_true, if_pos rfl]
        at delivered
      rw [Decoder.emits_cons_nil delivered, later s' delivered mid, ChunksWhole]
      exact (and_iff_right inside).symm
  | done s' taken isRequest past holds left ends =>
      have isMessage := message_of_holds holds (by rw [isRequest]; exact plain)
      rw [isRequest] at isMessage
      have notZero : ¬ ((1 : Int), s').1 = 0 := (by decide : ¬ (1 : Int) = 0)
      rw [taken, Option.bind_some, conclude, past, if_neg Bool.false_ne_true, if_neg notZero,
        if_pos rfl, isMessage] at delivered
      rw [Decoder.emits_cons_iff delivered]
      by_cases none' : pieces.flatten = []
      · obtain rfl := (within.tail delivered).eq_nil_of_flatten none'
        constructor
        · rintro ⟨_, same, -⟩
          exact ⟨not_endsChunk_zero all, by simp [cutsFrom], (List.cons.inj same).1⟩
        · rintro ⟨-, -, rfl⟩
          exact ⟨[], rfl, Decoder.emits_nil.mpr rfl⟩
      · constructor
        · rintro ⟨_, -, emits⟩
          exact absurd emits (not_emits_leftover rfl left none' (within.tail delivered))
        · rintro ⟨inside, -⟩
          exact absurd (ends none') inside
  | fails failed ends =>
      constructor
      · exact fun emits => absurd emits (Decoder.not_emits (delivered.trans failed))
      · rintro ⟨inside, -⟩
        exact absurd ends inside

/-- All pieces of the rest of a chunked body. -/
theorem Mid.emits_iff (mid : Mid request all body pieces.flatten s)
    (small : body.length + 4100 < 2 ^ 31)
    (plain : request.contentLength = 0 ∧ request.content = [])
    (within : (decoder junk).Within s pieces) (size : base + pieces.flatten.length = total) :
    (decoder junk).Emits s pieces [m] ↔
      ChunksWhole all total (cutsFrom base pieces) ∧ m = finish request body := by
  induction pieces generalizing s base with
  | nil => exact absurd rfl mid.rest_ne_nil
  | cons piece pieces ih =>
      rw [List.flatten_cons] at mid
      rw [List.flatten_cons, List.length_append, ← Nat.add_assoc] at size
      obtain ⟨result, delivered, outcome⟩ := mid.deliver_outcome junk small within.1.2
      exact outcome.emits_iff plain delivered within size fun s' taken mid' =>
        ih mid' (within.tail taken) size

end Run

/-! ## The head -/

section Head

variable {junk : Nat → UInt8} {h : Head} {part piece tail left : List UInt8} {s : ReqDecoder}

theorem HeaderLine.line_plain (field : HeaderLine) : ∀ c ∈ field.line, c ≠ 13 ∧ c ≠ 0 := by
  intro c member
  rcases List.mem_append.mp member with inName | inText
  · exact (field.nameOk c inName).2.2
  · rcases List.mem_cons.mp inText with rfl | inText
    · decide
    · exact field.textOk c inText

/-- One blank is dropped with the colon, the others by `SetHeader`. -/
theorem HeaderLine.split_eq (field : HeaderLine) :
    ∃ value, splitHeader field.line = some (field.name, value) ∧
      value.dropWhile (· == 32) = field.value := by
  have noColon : ∀ c ∈ field.name, (c != 58) = true := fun c member =>
    bne_iff_ne.mpr (field.nameOk c member).1
  have whole : field.line.takeWhile (· != 0) = field.name ++ 58 :: field.text := by
    have nonzero : ∀ c ∈ field.line, (c != 0) = true := fun c member =>
      bne_iff_ne.mpr (field.line_plain c member).2
    rw [← List.append_nil field.line, List.takeWhile_append_of_pos nonzero]
    exact List.append_nil field.line
  have name : (field.name ++ 58 :: field.text).takeWhile (· != 58) = field.name := by
    rw [List.takeWhile_append_of_pos noColon]
    exact List.append_nil field.name
  have value : (field.name ++ 58 :: field.text).dropWhile (· != 58) = 58 :: field.text := by
    rw [List.dropWhile_append_of_pos noColon]
    rfl
  rw [splitHeader, whole, HeaderLine.value, name, value]
  cases field.text with
  | nil => exact ⟨[], rfl, rfl⟩
  | cons c text =>
      by_cases blank : c = 32
      · subst blank
        exact ⟨text, rfl, rfl⟩
      · refine ⟨c :: text, ?_, rfl⟩
        split
        · next same => cases same
        · next same => exact absurd (List.cons.inj (List.cons.inj same).2).1 blank
        · next same => rw [(List.cons.inj same).2]

theorem applyLines_fields (fields : List HeaderLine) (request : IHttpRequest) :
    applyLines applyHeader (fields.map HeaderLine.line) request =
      some { request with
        params := fields.foldl (fun params field => setParam params field.name field.value)
          request.params } := by
  induction fields generalizing request with
  | nil => rfl
  | cons field fields ih =>
      obtain ⟨value, split, dropped⟩ := field.split_eq
      rw [List.map_cons, applyLines, split, Option.bind_some]
      dsimp only
      rw [ih, applyHeader, dropped]
      rfl

theorem setUri_params (request : IHttpRequest) (uri : List UInt8) :
    (setUri request uri).params = request.params ∧
      (setUri request uri).contentLength = request.contentLength ∧
      (setUri request uri).content = request.content := by
  unfold setUri
  dsimp only
  split
  · split
    · split
      · exact ⟨rfl, rfl, rfl⟩
      · exact ⟨rfl, rfl, rfl⟩
    · exact ⟨rfl, rfl, rfl⟩
  · exact ⟨rfl, rfl, rfl⟩

theorem Head.applyLines_eq (h : Head) : applyLines applyHeader h.lines h.first = some h.request := by
  have params : h.first.params = [] := (setUri_params _ _).1
  rw [Head.lines, applyLines_fields, params]
  rfl

theorem Head.request_plain (h : Head) : h.request.contentLength = 0 ∧ h.request.content = [] :=
  (setUri_params { method := some h.method, reqLine := h.line } h.uri).2

theorem Head.lines_plain (h : Head) : PlainLines h.lines := by
  intro line member
  obtain ⟨field, -, rfl⟩ := List.mem_map.mp member
  refine ⟨?_, fun c inLine => (field.line_plain c inLine).1⟩
  exact List.append_ne_nil_of_left_ne_nil field.named _

theorem Head.line_plain (h : Head) : ∀ c ∈ h.line, c ≠ 13 ∧ c ≠ 0 := h.start.line_plain

/-- A header line is no request line. -/
theorem HeaderLine.parseMethod_eq (field : HeaderLine) (rest : List UInt8) :
    parseMethod (field.line ++ crlf ++ rest) = none := by
  have text : field.line ++ crlf ++ rest = field.name ++ 58 :: (field.text ++ crlf ++ rest) := by
    simp [HeaderLine.line]
  have noBlank : ∀ c ∈ field.name, c ≠ 32 := fun c member => (field.nameOk c member).2.1
  have noGet : startsWithNoCase (field.line ++ crlf ++ rest) getMark = false := by
    rw [text]
    exact not_startsWithNoCase_name noBlank
      (by decide +kernel : ∀ c ∈ [71, 69, 84], toLower c ≠ 58) _
  have noPost : startsWithNoCase (field.line ++ crlf ++ rest) postMark = false := by
    rw [text]
    exact not_startsWithNoCase_name noBlank
      (by decide +kernel : ∀ c ∈ [80, 79, 83, 84], toLower c ≠ 58) _
  rw [parseMethod, noGet, noPost]
  rfl

/-- The decoder stands behind the request line, in front of `tail`. -/
structure AfterLine (h : Head) (tail : List UInt8) (s : ReqDecoder) : Prop where
  status : s.status = .firstLine
  fresh : s.body = none ∧ s.bodyRead = 0 ∧ s.chunkLeft = 0 ∧ s.past = false
  size : s.lines.block.length = httpBufSize + 4
  filled : s.lines.length ≤ s.lines.block.length
  parsePos : s.lines.parsePos = h.line.length + 2
  atLine : AtLine tail s.lines
  request : s.request = h.first

variable (junk) in
/-- The piece that completes the request line. -/
theorem Reading.deliver_requestLine (reading : Reading h.line part s)
    (room : s.lines.length + piece.length ≤ s.lines.block.length)
    (done : part ++ piece = h.line ++ crlf ++ tail) :
    ∃ s', deliver junk s piece = (parseHeader junk s').bind conclude ∧ AfterLine h tail s' := by
  obtain ⟨b, ended, delivered, atStart, parsePos, written, string, bytes, length, filled, atLine⟩ :=
    reading.deliver_line junk h.line_plain room done
  obtain ⟨rest, lineEq, last⟩ := h.start.line_cut
  have isLine : h.start.line = h.line := rfl
  rw [isLine] at lineEq last
  have lastByte : ended[0 + (h.line.length - 1)]? = some (minorDigit h.start.minor) := by
    rw [List.getLast?_eq_getElem?] at last
    have inLine : h.line.length - 1 < h.line.length := by
      rw [lineEq, List.length_append, List.length_append, List.length_cons]
      omega
    rw [Nat.zero_add, bytes _ inLine]
    exact last
  have front : ended.take h.line.length = h.line := by
    refine List.ext_getElem? fun k => ?_
    rw [List.getElem?_take]
    split
    · next inside => exact bytes k inside
    · next beyond => exact (List.getElem?_eq_none (Nat.le_of_not_lt beyond)).symm
  refine ⟨{ s with
    lines := { b with block := ended, lineStart := b.parsePos }, request := h.first }, ?_,
    reading.status, reading.fresh.2, length, filled, parsePos, atLine, rfl⟩
  rw [delivered, startRequest]
  dsimp only
  rw [atStart, Nat.zero_add, written, Option.bind_some, List.drop_zero, string, Nat.sub_zero, front,
    lineEq, parseMethod_line h.start, ← lineEq]
  dsimp only
  rw [if_pos (by simp), takeWhile_uri h.start, lastByte, minor_eq h.start, reading.fresh.1]
  rfl

theorem startRequest_refuses {line : List UInt8} (nonzero : ∀ c ∈ line, c ≠ 0)
    (refused : ∀ rest, parseMethod (line ++ crlf ++ rest) = none) (arrived : s.past = false)
    (behind : 2 ≤ s.lines.lineStart) (text : s.lines.current = line ++ crlf ++ tail) :
    (startRequest junk s (s.lines.lineStart + line.length)).bind conclude = none := by
  rw [startRequest]
  cases ended : writeAt s.lines.block (s.lines.lineStart + (s.lines.lineStart + line.length)) [0] with
  | none => rfl
  | some block =>
      obtain ⟨rest, string⟩ := end_laterLine nonzero behind text ended
      rw [Option.bind_some]
      dsimp only
      rw [string, refused rest, Option.bind_some, conclude, arrived]
      rfl

/-- A decoder that waits for a header line reports nothing any more. -/
theorem not_emits_waiting {line later : List UInt8} {pieces : List (List UInt8)}
    (made : s.lines.block ≠ []) (status : s.status = .firstLine) (arrived : s.past = false)
    (scanning : Scanning line part s.lines) (plain : ∀ c ∈ line, c ≠ 13 ∧ c ≠ 0)
    (refused : ∀ rest, parseMethod (line ++ crlf ++ rest) = none) (behind : 2 ≤ s.lines.lineStart)
    (stream : part ++ pieces.flatten = line ++ crlf ++ later)
    (within : (decoder junk).Within s pieces) (m : IHttpRequest) :
    ¬ (decoder junk).Emits s pieces [m] := by
  induction pieces generalizing part s with
  | nil => exact fun emits => absurd (Decoder.emits_nil.mp emits) (List.cons_ne_nil _ _)
  | cons piece pieces ih =>
      have room := room_of_within made status scanning.filled within
      have noReturn : ∀ c ∈ line, c ≠ 13 := fun c member => (plain c member).1
      rw [List.flatten_cons, ← List.append_assoc] at stream
      rcases piece_cases stream with ⟨short, isPart⟩ | ⟨tail, done, -⟩
      · obtain ⟨b, delivered, scanning', lineStart, size⟩ :=
          deliver_scan junk made status scanning noReturn room isPart short
        rcases openLine_cases (s := { s with lines := b }) arrived with stays | failed
        · have taken := delivered.trans stays
          rw [Decoder.emits_cons_nil taken]
          refine ih (s := { s with lines := b }) ?_ status arrived scanning' (lineStart ▸ behind)
            stream (within.tail taken)
          rw [← List.length_pos_iff] at made ⊢
          dsimp only
          omega
        · exact Decoder.not_emits (delivered.trans failed)
      · obtain ⟨b, copied, -, length, lineStart, text, search⟩ := scanning.found noReturn room done
        refine Decoder.not_emits (?_ : deliver junk s piece = none)
        rw [deliver_firstLine made status copied, parseFirstLine, search]
        exact startRequest_refuses (s := { s with lines := { b.grow piece.length with
          parsePos := b.lineStart + line.length + 2 } }) (fun c member => (plain c member).2) refused
          arrived (lineStart ▸ behind) text

/-- A piece ends in the header lines, and the rest of them is taken for a request line. -/
theorem AfterLine.not_emits_cut {body : List UInt8} {pieces : List (List UInt8)} {first : ReqDecoder}
    (after : AfterLine h tail s)
    (inside : tail.length < (linesText h.lines).length)
    (stream : tail ++ pieces.flatten = linesText h.lines ++ body)
    (step : deliver junk first piece = (parseHeader junk s).bind conclude)
    (within : (decoder junk).Within first (piece :: pieces)) (m : IHttpRequest) :
    ¬ (decoder junk).Emits first (piece :: pieces) [m] := by
  obtain ⟨missing, whole⟩ : tail <+: linesText h.lines :=
    List.prefix_of_prefix_length_le (stream ▸ List.prefix_append _ _) (List.prefix_append _ _)
      (Nat.le_of_lt inside)
  have some' : missing ≠ [] := by
    rintro rfl
    rw [List.append_nil] at whole
    rw [whole] at inside
    exact Nat.lt_irrefl _ inside
  have total := after.atLine.total
  have arrived := after.fresh.2.2.2
  rcases headerLoop_lines_partial h.lines_plain (by omega : tail.length < s.lines.length + 1)
    after.atLine after.filled whole some' with ⟨b, request, parsed⟩ |
      ⟨b, request, parsed, ⟨line, part, later, isLine, scanning, behind, next⟩, block, -⟩
  · refine Decoder.not_emits (?_ : deliver junk first piece = none)
    rw [step, parseHeader, parsed, Option.bind_some, conclude, arrived]
    rfl
  · have stays : deliver junk first piece =
        some ({ s with lines := b, request := request }, []) := by
      rw [step, parseHeader, parsed, Option.bind_some, conclude, arrived]
      rfl
    have ahead : part ++ pieces.flatten = line ++ crlf ++ (later ++ body) := by
      have rest : pieces.flatten = missing ++ body := by
        rw [← whole, List.append_assoc] at stream
        exact List.append_cancel_left stream
      rw [rest, ← List.append_assoc, next, List.append_assoc]
    have lineOk : (∀ c ∈ line, c ≠ 13 ∧ c ≠ 0) ∧
        ∀ rest, parseMethod (line ++ crlf ++ rest) = none := by
      rcases isLine with rfl | member
      · exact ⟨by simp, fun rest => by rfl⟩
      · obtain ⟨field, -, rfl⟩ := List.mem_map.mp member
        exact ⟨field.line_plain, field.parseMethod_eq⟩
    have position := after.parsePos
    have size := after.size
    rw [Decoder.emits_cons_nil stays]
    refine not_emits_waiting (s := { s with lines := b, request := request })
      (List.ne_nil_of_length_pos ?_) after.status arrived scanning lineOk.1 lineOk.2 ?_ ahead
      (within.tail stays) m
    · dsimp only
      rw [block]
      omega
    · dsimp only
      omega

variable (junk) in
/-- The whole head. -/
theorem AfterLine.complete (after : AfterLine h (linesText h.lines ++ left) s) :
    ∃ s', parseHeader junk s = endHeader junk s' ∧ AtLine left s'.lines ∧ s'.request = h.request ∧
      s'.lines.length ≤ s'.lines.block.length ∧ s'.lines.block.length = httpBufSize + 4 ∧
      s'.body = none ∧ s'.bodyRead = 0 ∧ s'.chunkLeft = 0 ∧ s'.past = false := by
  have total := after.atLine.total
  have enough : (linesText h.lines ++ left).length < s.lines.length + 1 := by omega
  have applied := h.applyLines_eq
  rw [← after.request] at applied
  rcases headerLoop_lines h.lines_plain enough after.atLine with
    ⟨b, request, failed, -⟩ | ⟨b, request, applied', parsed, atLine, block, length⟩
  · rw [failed] at applied
    cases applied
  · rw [applied'] at applied
    obtain rfl := Option.some.inj applied
    refine ⟨{ s with lines := b, request := h.request }, ?_, atLine, rfl, ?_, ?_, after.fresh⟩
    · rw [parseHeader, parsed]
    · dsimp only
      rw [block, length]
      exact after.filled
    · dsimp only
      rw [block]
      exact after.size

end Head

/-! ## Behind the head -/

section EndOfHead

variable {junk : Nat → UInt8} {body left rest : List UInt8} {s : ReqDecoder}

theorem withLength_plain (request : IHttpRequest) (body : List UInt8) :
    (withLength request).content = request.content ∧
      finish (withLength request) body = finish request body := by
  unfold withLength
  split
  · exact ⟨rfl, rfl⟩
  · exact ⟨rfl, rfl⟩

variable (junk) in
/-- The bytes of a body of known length that come with the end of the head. -/
theorem endHeader_length (notChunked : isChunked s.request = false)
    (length : (withLength s.request).contentLength = body.length)
    (small : body.length + 4100 < 2 ^ 31) (made : s.lines.block ≠ []) (fresh : s.body = none)
    (arrived : s.past = false) (empty : s.request.content = []) (atLine : AtLine left s.lines)
    (stream : left ++ rest = body) :
    (rest = [] ∧ (endHeader junk s).bind conclude = some ({}, [finish s.request body])) ∨
      (rest ≠ [] ∧ ∃ s', (endHeader junk s).bind conclude = some (s', []) ∧
        Filling (withLength s.request) body left s') := by
  obtain ⟨sameContent, sameFinish⟩ := withLength_plain s.request body
  have lengths := congrArg List.length stream
  rw [List.length_append] at lengths
  rw [endHeader, if_neg (by rw [notChunked]; exact Bool.false_ne_true)]
  dsimp only
  rw [length, Int.toNat_natCast, atLine.unread]
  by_cases none' : body = []
  · rw [none'] at stream
    obtain ⟨rfl, rfl⟩ := List.append_eq_nil_iff.mp stream
    have isMessage : withLength s.request = finish s.request body := by
      rw [← sameFinish, finish, ← length, none', List.takeWhile_nil, ← empty, ← sameContent]
    refine Or.inl ⟨rfl, ?_⟩
    rw [if_neg (by rw [none']; decide), Option.bind_some, conclude, arrived, message]
    dsimp only
    rw [fresh]
    exact congrArg (fun request => some (({} : ReqDecoder), [request])) isMessage
  · have positive := List.length_pos_of_ne_nil none'
    have sum : (body.length : Int) + 4 = ((body.length + 4 : Nat) : Int) := by omega
    have room : 0 + left.length ≤ (malloc junk (body.length + 4)).length := by
      rw [length_malloc]
      omega
    obtain ⟨block, written⟩ : ∃ block, writeAt (malloc junk (body.length + 4)) 0 left = some block :=
      ⟨_, writeAt_eq_some room⟩
    have front := take_writeAt written
    rw [Nat.zero_add, List.take_zero, List.nil_append] at front
    have filling : Filling (withLength s.request) body left { s with
        request := withLength s.request, status := .body, body := some block
        bodyLength := body.length, bodyRead := left.length } :=
      ⟨made, rfl, rfl, arrived, ⟨block, rfl, (length_writeAt written).trans (length_malloc _ _), front⟩,
        rfl, rfl⟩
    rw [if_pos (by omega), sum, checked_eq (by omega), Option.bind_some, Int.toNat_natCast,
      if_neg (by omega), written, Option.bind_some, filling.readBody_eq stream none', sameFinish]
    by_cases done : rest = []
    · exact Or.inl ⟨done, if_pos done⟩
    · exact Or.inr ⟨done, _, if_neg done, filling⟩

variable (junk) in
/-- The chunks that come with the end of the head. -/
theorem endHeader_chunked {chunks : List Chunk} (filled : ∀ c ∈ chunks, c.data ≠ [])
    (chunked : isChunked s.request = true) (sizes : SizesOk (chunks ++ [lastChunk]))
    (small : (dataOf chunks).length + 4100 < 2 ^ 31) (atLine : AtLine left s.lines)
    (inBlock : s.lines.length ≤ s.lines.block.length) (size : s.lines.block.length = httpBufSize + 4)
    (fresh : s.body = none ∧ s.bodyRead = 0 ∧ s.chunkLeft = 0 ∧ s.past = false)
    (stream : left ++ rest = textOf (chunks ++ [lastChunk])) :
    Outcome s.request (chunks ++ [lastChunk]) (dataOf chunks) rest (endHeader junk s) := by
  obtain ⟨c, cs, isCons⟩ := append_last_cons chunks
  have ok := chunksOk_append chunks filled
  have whole := dataOf_append_last chunks
  have total := atLine.total
  rw [isCons] at ok whole sizes stream ⊢
  rw [endHeader, if_pos chunked]
  have ready : Ready s.request (c :: cs) (dataOf chunks) rest c cs [] left
      { s with status := .chunkSize } := {
    request := rfl, past := fresh.2.2.2, ok := ok, sizes := sizes
    holds := by
      unfold Holds
      dsimp only
      rw [fresh.1]
      exact ⟨rfl, fresh.2.1⟩
    made := by
      dsimp only
      omega
    filled := inBlock
    ends := fun _ _ => Iff.rfl
    status := rfl
    slice := by
      rw [LineBuffer.current, atLine.lineStart]
      exact atLine.unread
    start := by
      rw [atLine.lineStart]
      exact total
    pos := ⟨0, Nat.zero_le _, by rw [Nat.zero_min]; exact atLine.lineStart.symm⟩
    chunkLeft := fresh.2.2.1
    stream := stream
    whole := whole }
  exact readChunkSize_outcome junk small (by unfold chunkFuel; omega : left.length < chunkFuel s) ready

end EndOfHead

/-! ## Segmentation -/

/-- The chunks of a payload, with the last one. -/
def chunkList : Payload → List Chunk
  | .length _ => []
  | .chunked chunks _ => chunks ++ [lastChunk]

/-- The header fields give the framing in the words that the decoder looks for. -/
def Framed (h : Head) : Payload → Prop
  | .length body =>
      isChunked h.request = false ∧ (withLength h.request).contentLength = body.length
  | .chunked _ _ => isChunked h.request = true

/-- The sizes are in the range of an `int`, and their lines fit into a buffer. -/
def Small (payload : Payload) : Prop :=
  payload.body.length + 4100 < 2 ^ 31 ∧ SizesOk (chunkList payload)

/-- Where a piece may end: in the request line when the version has arrived, behind the head, and
not behind the data of a chunk. -/
def CutOk (h : Head) (payload : Payload) (cut : Nat) : Prop :=
  (cut < h.line.length + 2 → httpMark <:+: h.text.take cut) ∧
    (h.line.length + 2 ≤ cut → h.text.length ≤ cut) ∧
    ¬ EndsChunk ((h.text ++ payload.text).length - cut) (chunkList payload)

instance (h : Head) (payload : Payload) (cut : Nat) : Decidable (CutOk h payload cut) :=
  inferInstanceAs (Decidable (_ ∧ _ ∧ _))

/-- All cuts are allowed, and the body is free of zeros. -/
def Clear (h : Head) (payload : Payload) (pieces : List (List UInt8)) : Prop :=
  (∀ cut ∈ cutsFrom 0 pieces, CutOk h payload cut) ∧ 0 ∉ payload.body

/-- Every piece is taken, and exactly the request of the stream is handed over. -/
def Decodes (junk : Nat → UInt8) (h : Head) (payload : Payload) (pieces : List (List UInt8)) : Prop :=
  (decoder junk).Emits {} pieces [expected h payload.body]

section Segments

variable {junk : Nat → UInt8} {h : Head} {payload : Payload} {part piece tail left : List UInt8}
  {s first : ReqDecoder} {pieces : List (List UInt8)} {m : IHttpRequest}

theorem textOf_chunkList (payload : Payload) :
    (textOf (chunkList payload)).length ≤ payload.text.length := by
  cases payload with
  | length body => exact Nat.zero_le _
  | chunked chunks filled => exact Nat.le_refl _

/-- Behind the head only the chunks matter. -/
theorem cutOk_behind {cut : Nat} (behind : h.text.length ≤ cut) :
    CutOk h payload cut ↔
      ¬ EndsChunk ((h.text ++ payload.text).length - cut) (chunkList payload) := by
  have two : (h.line ++ crlf).length = h.line.length + 2 := List.length_append
  have length : h.text.length = h.line.length + 2 + (linesText h.lines).length := by
    rw [Head.text, List.length_append, two]
  constructor
  · exact fun ok => ok.2.2
  · exact fun inside => ⟨fun early => by omega, fun _ => behind, inside⟩

/-- In the request line only the version matters. -/
theorem cutOk_inside {cut : Nat} (inside : cut < h.line.length + 2) :
    CutOk h payload cut ↔ httpMark <:+: h.text.take cut := by
  have two : (h.line ++ crlf).length = h.line.length + 2 := List.length_append
  have length : h.text.length = h.line.length + 2 + (linesText h.lines).length := by
    rw [Head.text, List.length_append, two]
  constructor
  · exact fun ok => ok.1 inside
  · refine fun arrived => ⟨fun _ => arrived, fun late => by omega, fun ends => ?_⟩
    have bound := ends.le_length
    have text := textOf_chunkList payload
    rw [List.length_append] at bound
    omega

/-- The piece that completes the head, and the pieces behind it. -/
theorem AfterLine.emits_iff (after : AfterLine h (linesText h.lines ++ left) s)
    (framed : Framed h payload) (small : Small payload)
    (step : deliver junk first piece = (parseHeader junk s).bind conclude)
    (stream : left ++ pieces.flatten = payload.text)
    (within : (decoder junk).Within first (piece :: pieces)) {base total : Nat}
    (size : base + pieces.flatten.length = total) :
    (decoder junk).Emits first (piece :: pieces) [m] ↔
      ChunksWhole (chunkList payload) total (base :: cutsFrom base pieces) ∧
        m = finish h.request payload.body := by
  obtain ⟨s', parsed, atLine, request, inBlock, length, fresh⟩ := after.complete junk
  have made : s'.lines.block ≠ [] := List.ne_nil_of_length_pos (by omega)
  rw [parsed] at step
  rw [← request]
  cases payload with
  | length body =>
      have free : ChunksWhole (chunkList (.length body)) total (base :: cutsFrom base pieces) :=
        fun _ _ ends => ends
      rw [and_iff_right free]
      obtain ⟨notChunked, isLength⟩ := framed
      rw [← request] at notChunked isLength
      rcases endHeader_length junk notChunked isLength small.1 made fresh.1 fresh.2.2.2
          (by rw [request]; exact h.request_plain.2) atLine stream with
        ⟨none', result⟩ | ⟨some', s'', result, filling⟩
      · have taken := step.trans result
        obtain rfl := (within.tail taken).eq_nil_of_flatten none'
        rw [Decoder.emits_cons_iff taken]
        constructor
        · rintro ⟨later, same, -⟩
          exact (List.cons.inj same).1
        · rintro rfl
          exact ⟨[], rfl, Decoder.emits_nil.mpr rfl⟩
      · have taken := step.trans result
        rw [Decoder.emits_cons_nil taken, filling.emits_iff stream some' (within.tail taken),
          (withLength_plain s'.request body).2]
        rfl
  | chunked chunks filled =>
      have chunked : isChunked s'.request = true := by
        rw [request]
        exact framed
      have outcome := endHeader_chunked junk filled chunked small.2 small.1 atLine inBlock length fresh
        stream
      have plain : s'.request.contentLength = 0 ∧ s'.request.content = [] := by
        rw [request]
        exact h.request_plain
      exact outcome.emits_iff plain step within size fun s'' taken mid =>
        mid.emits_iff small.1 plain (within.tail taken) size

/-- The pieces from the request line on. -/
theorem Reading.emits_iff (framed : Framed h payload) (small : Small payload)
    (reading : Reading h.line part s)
    (stream : part ++ pieces.flatten = h.text ++ payload.text)
    (within : (decoder junk).Within s pieces) :
    (decoder junk).Emits s pieces [m] ↔
      (∀ cut ∈ cutsFrom part.length pieces, CutOk h payload cut) ∧
        m = finish h.request payload.body := by
  have two : (h.line ++ crlf).length = h.line.length + 2 := List.length_append
  have length : h.text.length = h.line.length + 2 + (linesText h.lines).length := by
    rw [Head.text, List.length_append, two]
  induction pieces generalizing part s with
  | nil =>
      have lengths := congrArg List.length stream
      have short := reading.scanning.short
      rw [List.flatten_nil, List.append_nil, List.length_append] at lengths
      omega
  | cons piece pieces ih =>
      have room := room_of_within reading.made reading.status reading.scanning.filled within
      rw [List.flatten_cons, ← List.append_assoc] at stream
      have lines : part ++ piece ++ pieces.flatten =
          h.line ++ crlf ++ (linesText h.lines ++ payload.text) := by
        rw [stream, Head.text, List.append_assoc]
      have arrived : (part ++ piece).length = part.length + piece.length := List.length_append
      have total := congrArg List.length stream
      rw [List.length_append, arrived] at total
      rw [cutsFrom]
      rcases piece_cases lines with ⟨short, isPart⟩ | ⟨tail, done, ahead⟩
      · -- the request line is still open
        have received : h.text.take (part.length + piece.length) = part ++ piece := by
          rw [← arrived]
          refine (List.prefix_iff_eq_take.mp ?_).symm
          exact isPart.trans (List.prefix_append _ _)
        rw [List.forall_mem_cons, cutOk_inside (by omega), received, and_assoc]
        rcases reading.deliver_open junk h.line_plain room isPart short with
          ⟨inside, s', taken, reading'⟩ | ⟨missing, failed⟩
        · have later := ih reading' stream (within.tail taken)
          rw [arrived] at later
          exact (Decoder.emits_cons_nil taken).trans (later.trans (and_iff_right inside).symm)
        · constructor
          · exact fun emits => absurd emits (Decoder.not_emits failed)
          · exact fun ok => absurd ok.1 missing
      · obtain ⟨s', step, after⟩ := reading.deliver_requestLine junk room done
        have lengths := congrArg List.length done
        rw [arrived, List.length_append, two] at lengths
        by_cases inside : tail.length < (linesText h.lines).length
        · constructor
          · exact fun emits => absurd emits (after.not_emits_cut inside ahead step within m)
          · intro ok
            have late := (ok.1 _ List.mem_cons_self).2.1 (by omega)
            omega
        · obtain ⟨left, rfl⟩ : linesText h.lines <+: tail :=
            List.prefix_of_prefix_length_le (List.prefix_append _ _)
              (ahead ▸ List.prefix_append _ _) (by omega)
          rw [List.append_assoc] at ahead
          rw [after.emits_iff framed small step (List.append_cancel_left ahead) within total]
          refine and_congr_left fun _ => forall₂_congr fun cut member => ?_
          have behind : part.length + piece.length ≤ cut := by
            rcases List.mem_cons.mp member with rfl | later
            · exact Nat.le_refl _
            · exact le_of_mem_cutsFrom later
          exact (cutOk_behind (by rw [List.length_append] at lengths; omega)).symm

theorem finish_eq_iff (h : Head) (body : List UInt8) :
    expected h body = finish h.request body ↔ 0 ∉ body := by
  have content : expected h body = finish h.request body ↔ body = body.takeWhile (· != 0) :=
    ⟨congrArg IHttpRequest.content, fun same => congrArg (fun content => { h.request with
      contentLength := (body.length : Int), content := content }) same⟩
  rw [content, eq_comm, List.takeWhile_eq_self_iff]
  constructor
  · intro all member
    exact absurd (all 0 member) (by decide)
  · intro free c member
    refine bne_iff_ne.mpr ?_
    rintro rfl
    exact free member

end Segments

/-- `POST /q?a HTTP/1.1` with `Transfer-Encoding: chunked`. -/
def chunkedPost : Head where
  method := .post
  uri := [47, 113, 63, 97]
  minor := 1
  fields := [⟨transferEncodingName, 32 :: chunkedMark, transferEncodingName_ne_nil,
    transferEncodingName_plain, by decide +kernel⟩]
  uriOk := by decide +kernel

/-- `GET / HTTP/1.0` without header lines. -/
def plainGet : Head := ⟨.get, [47], 0, [], rootPath_plain⟩

end MlsImgSearch.Blitz.IHttpReqDecoder
