import Mathlib.Data.List.TakeWhile
import MlsImgSearch.Lib.Strings
import MlsImgSearch.Blitz2.HttpRespDecoder

/-!
# HTTP responses that are written and read back

`CreateOutMsg` writes a response to a growing buffer. The status line goes through
an array of 32 bytes, and `Content-Length` is only written when there is content. The
decoder reads that back when the text of the code is short, the content is not empty,
no header has a zero byte, and no cut lies in the header lines.
-/

namespace MlsImgSearch.Blitz2.HttpResponse

open Lib.Bytes Lib.Segmentation Lib.Strings Blitz.HttpCommon HttpRespDecoder
open Blitz.HttpRespDecoder (RespDecoder ResponseHead Reading httpMark transferEncodingName
  contentLengthName chunkedMark applyHeader finish checked)

/-! ## Writing -/

/-- A block of memory, of which `length` bytes are written; the length of the block is the
capacity. -/
structure BufferWriter where
  block : List UInt8 := []
  length : Nat := 0

namespace BufferWriter

def written (w : BufferWriter) : List UInt8 := w.block.take w.length

/-- `Reserve` for a new writer; an allocation of a negative size fails. -/
def reserve (junk : Nat → UInt8) (hintLength : Int) : BufferWriter :=
  if hintLength < 0 then {} else ⟨malloc junk hintLength.toNat, 0⟩

def extend (junk : Nat → UInt8) (w : BufferWriter) (len : Nat) : Option BufferWriter :=
  if w.length + len < w.block.length then some w
  else (writeAt (malloc junk (w.length + len)) 0 w.written).map fun block => ⟨block, w.length⟩

/-- `WriteData`. The number of bytes is an `int`; `none` is a negative one, or a write behind the
block. -/
def writeData (junk : Nat → UInt8) (data : List UInt8) (w : BufferWriter) : Option BufferWriter :=
  let length := toInt32 data.length
  if length < 0 then none
  else
    (w.extend junk length.toNat).bind fun w =>
      (writeAt w.block w.length (data.take length.toNat)).map fun block =>
        ⟨block, w.length + length.toNat⟩

/-- `PrintInt` of a number that is not negative; its digits and the end go through 32 bytes. -/
def printInt (junk : Nat → UInt8) (v : Nat) (end' : UInt8) (w : BufferWriter) :
    Option BufferWriter :=
  let text := decimal v ++ [end']
  if 32 < text.length then none else w.writeData junk text

end BufferWriter

/-- "OK" -/
def okText : List UInt8 := [79, 75]

/-- "Not Found" -/
def notFoundText : List UInt8 := [78, 111, 116, 32, 70, 111, 117, 110, 100]

/-- "Internal Server Error" -/
def serverErrorText : List UInt8 :=
  [73, 110, 116, 101, 114, 110, 97, 108, 32, 83, 101, 114, 118, 101, 114, 32, 69, 114, 114, 111, 114]

def getCodeStr (code : Int) : List UInt8 :=
  if code = 200 then okText else if code = 404 then notFoundText else serverErrorText

/-- The format `%d`. -/
def printed (n : Int) : List UInt8 := (intText n).map fun c => c.toNat.toUInt8

/-- What `sprintf` prints for the status line. -/
def firstLine (r : HttpResponse) : List UInt8 :=
  httpMark ++ printed r.versionMinor ++ 32 :: printed r.code ++ 32 :: getCodeStr r.code ++ crlf

def colonBlank : List UInt8 := [58, 32]

/-- A line of the header. -/
def writeHeader (junk : Nat → UInt8) (w : BufferWriter) (header : List UInt8 × List UInt8) :
    Option BufferWriter :=
  (w.writeData junk header.1).bind fun w =>
    (w.writeData junk colonBlank).bind fun w =>
      (w.writeData junk header.2).bind (BufferWriter.writeData junk crlf)

/-- The line with the length, when there is content. -/
def writeContentLength (junk : Nat → UInt8) (content : List UInt8) (w : BufferWriter) :
    Option BufferWriter :=
  if 0 < content.length then
    (w.writeData junk (contentLengthName ++ colonBlank)).bind fun w =>
      (w.printInt junk content.length 13).bind (BufferWriter.writeData junk [10])
  else some w

/-- The content, when there is any. -/
def writeContent (junk : Nat → UInt8) (content : List UInt8) (w : BufferWriter) :
    Option BufferWriter :=
  if 0 < content.length then w.writeData junk content else some w

/-- All writes in their order. -/
def writeResponse (junk : Nat → UInt8) (r : HttpResponse) (w : BufferWriter) :
    Option BufferWriter :=
  (w.writeData junk (firstLine r)).bind fun w =>
    (r.headers.foldlM (writeHeader junk) w).bind fun w =>
      (writeContentLength junk r.content w).bind fun w =>
        (w.writeData junk crlf).bind (writeContent junk r.content)

/-- `CreateOutMsg`. `none` is an overflow of the reserved size, a status line behind its 32 bytes
(one of them is the zero at its end), or a write that fails. -/
def createOutMsg (junk : Nat → UInt8) (r : HttpResponse) : Option (List UInt8) :=
  (checked (toInt32 r.content.length + 1024)).bind fun size =>
    if 32 < (firstLine r).length + 1 then none
    else (writeResponse junk r (.reserve junk size)).map BufferWriter.written

/-! ## Responses -/

/-- A header field without line ends; its name has no colon, and its value does not start with a
blank. -/
structure Field where
  name : List UInt8
  value : List UInt8
  nameOk : ∀ c ∈ name, c ≠ 13 ∧ c ≠ 10 ∧ c ≠ 58
  valueOk : ∀ c ∈ value, c ≠ 13 ∧ c ≠ 10
  noBlank : value.head? ≠ some 32

def Field.pair (f : Field) : List UInt8 × List UInt8 := (f.name, f.value)

def headerLine (header : List UInt8 × List UInt8) : List UInt8 := header.1 ++ colonBlank ++ header.2

/-- A response with a code of three digits. Its headers are those of a map, in the order of their
iteration; none of them tells the length. -/
structure Response where
  versionMinor : Fin 2
  code : Nat
  headers : List Field
  content : List UInt8
  codeOk : 100 ≤ code ∧ code ≤ 999
  distinct : (headers.map Field.name).Nodup
  reserved : ∀ f ∈ headers, f.name ≠ contentLengthName ∧ f.name ≠ transferEncodingName

namespace Response

def toHttpResponse (r : Response) : HttpResponse where
  versionMinor := r.versionMinor.val
  code := r.code
  headers := r.headers.map Field.pair
  content := r.content

/-- The header lines, with the one for the length. -/
def lines (r : Response) : List (List UInt8) :=
  (r.headers.map fun f => headerLine f.pair) ++
    if r.content = [] then [] else [headerLine (contentLengthName, decimal r.content.length)]

/-- The bytes that a response has on the wire. -/
def wire (r : Response) : List UInt8 :=
  firstLine r.toHttpResponse ++ linesText r.lines ++ r.content

end Response

/-- Version, code and content are the same, and so are all headers but `Content-Length`. -/
structure Same (m : HttpResponse) (r : Response) : Prop where
  versionMinor : m.versionMinor = r.versionMinor.val
  code : m.code = r.code
  content : m.content = r.content
  headers : ∀ name, name ≠ contentLengthName →
    getHeader m.headers name = getHeader r.toHttpResponse.headers name

/-- The response is written inside of its buffers, and the decoder reports it once, from these
pieces. -/
def RoundTrips (junk : Nat → UInt8) (r : Response) (pieces : List (List UInt8)) : Prop :=
  createOutMsg junk r.toHttpResponse = some pieces.flatten ∧
    ∃ m, (decoder junk).Emits (.initial junk) pieces [m] ∧ Same m r

/-- The status line ends here. -/
def lineEnd (r : Response) : Nat := (firstLine r.toHttpResponse).length

/-- A code with a short text, some content whose length leaves room in an `int`, headers without zero
bytes, and no cut between the end of the status line and the end of the head. -/
structure Clear (r : Response) (pieces : List (List UInt8)) : Prop where
  code : r.code = 200 ∨ r.code = 404
  content : r.content ≠ []
  size : r.content.length + 1024 < 2 ^ 31
  zero : ∀ f ∈ r.headers, 0 ∉ f.name ∧ 0 ∉ f.value
  cuts : ∀ cut ∈ cutsFrom 0 pieces, lineEnd r ≤ cut → lineEnd r + (linesText r.lines).length ≤ cut

/-! ## What is written -/

section Writing

variable {junk : Nat → UInt8} {f g : BufferWriter → Option BufferWriter} {text more data : List UInt8}

theorem toInt32_natCast {n : Nat} (small : n < 2 ^ 31) : toInt32 n = n := by
  rw [toInt32, BitVec.toInt_ofInt]
  exact Int.bmod_eq_of_le (by omega) (by omega)

theorem toInt32_natCast_le (n : Nat) : (toInt32 n).toNat ≤ n := by
  rw [toInt32, BitVec.toInt_ofInt]
  have less : (n : Int).bmod (2 ^ 32) ≤ n := by
    rw [Int.bmod_def]
    split
    · omega
    · omega
  omega

theorem toInt32_lt (n : Int) : toInt32 n < 2 ^ 31 := by
  have bound := (BitVec.ofInt 32 n).toInt_lt
  exact bound

/-- A write that puts a text behind what is written. -/
def Appends (f : BufferWriter → Option BufferWriter) (text : List UInt8) : Prop :=
  ∀ w, w.length ≤ w.block.length →
    ∃ w', f w = some w' ∧ w'.length ≤ w'.block.length ∧ w'.written = w.written ++ text

theorem Appends.bind (first : Appends f text) (second : Appends g more) :
    Appends (fun w => (f w).bind g) (text ++ more) := by
  intro w inside
  obtain ⟨w', done, inside', written⟩ := first w inside
  obtain ⟨w'', done', inside'', written'⟩ := second w' inside'
  refine ⟨w'', ?_, inside'', ?_⟩
  · exact Option.bind_eq_some_iff.mpr ⟨w', done, done'⟩
  · rw [written', written, List.append_assoc]

theorem appends_nothing : Appends some [] :=
  fun w inside => ⟨w, rfl, inside, (List.append_nil _).symm⟩

variable (junk) in
/-- There is room for the bytes to come. -/
theorem extend_eq {w : BufferWriter} (inside : w.length ≤ w.block.length) (len : Nat) :
    ∃ w', w.extend junk len = some w' ∧ w'.length = w.length ∧ w'.written = w.written ∧
      w'.length + len ≤ w'.block.length := by
  unfold BufferWriter.extend
  by_cases room : w.length + len < w.block.length
  · exact ⟨w, if_pos room, rfl, rfl, Nat.le_of_lt room⟩
  · have size : w.written.length = w.length := by
      rw [BufferWriter.written, List.length_take]
      omega
    have fits : 0 + w.written.length ≤ (malloc junk (w.length + len)).length := by
      rw [length_malloc]
      omega
    obtain ⟨block, copied⟩ : ∃ block, writeAt (malloc junk (w.length + len)) 0 w.written =
        some block := ⟨_, writeAt_eq_some fits⟩
    refine ⟨⟨block, w.length⟩, by rw [if_neg room, copied]; rfl, rfl, ?_, ?_⟩
    · have front := take_writeAt copied
      rw [Nat.zero_add, List.take_zero, List.nil_append, size] at front
      exact front
    · have size' := length_writeAt copied
      rw [length_malloc] at size'
      exact Nat.le_of_eq size'.symm

variable (junk) in
theorem appends_writeData (small : data.length < 2 ^ 31) :
    Appends (BufferWriter.writeData junk data) data := by
  intro w inside
  obtain ⟨w', extended, length, same, room⟩ := extend_eq junk inside data.length
  have size : (toInt32 data.length).toNat = data.length := by
    rw [toInt32_natCast small]
    exact Int.toNat_natCast _
  obtain ⟨block, copied⟩ : ∃ block, writeAt w'.block w'.length data = some block :=
    ⟨_, writeAt_eq_some room⟩
  refine ⟨⟨block, w'.length + data.length⟩, ?_, ?_, ?_⟩
  · unfold BufferWriter.writeData
    rw [if_neg (by rw [toInt32_natCast small]; omega), size, extended, Option.bind_some,
      List.take_length, copied]
    rfl
  · rw [length_writeAt copied]
    exact room
  · rw [← same]
    exact take_writeAt copied

theorem appends_foldlM {α : Type} {step : BufferWriter → α → Option BufferWriter}
    {textOf : α → List UInt8} {items : List α}
    (each : ∀ item ∈ items, Appends (step · item) (textOf item)) :
    Appends (items.foldlM step) (items.flatMap textOf) := by
  induction items with
  | nil => exact appends_nothing
  | cons item items ih =>
      obtain ⟨head, tail⟩ := List.forall_mem_cons.mp each
      exact head.bind (ih tail)

/-- A write that adds at most so many bytes. -/
def Adds (f : BufferWriter → Option BufferWriter) (n : Nat) : Prop :=
  ∀ w w', f w = some w' → w'.length ≤ w.length + n

theorem Adds.bind {m n : Nat} (first : Adds f m) (second : Adds g n) :
    Adds (fun w => (f w).bind g) (m + n) := by
  intro w w'' done
  obtain ⟨w', one, two⟩ := Option.bind_eq_some_iff.mp done
  have bound := first w w' one
  have bound' := second w' w'' two
  omega

theorem length_extend {w w' : BufferWriter} {len : Nat} (extended : w.extend junk len = some w') :
    w'.length = w.length := by
  unfold BufferWriter.extend at extended
  split at extended
  · cases extended
    rfl
  · obtain ⟨block, -, rfl⟩ := Option.map_eq_some_iff.mp extended
    rfl

variable (junk) in
theorem adds_writeData (data : List UInt8) :
    Adds (BufferWriter.writeData junk data) (toInt32 data.length).toNat := by
  intro w w' done
  unfold BufferWriter.writeData at done
  dsimp only at done
  split at done
  · cases done
  · obtain ⟨w'', extended, copied⟩ := Option.bind_eq_some_iff.mp done
    obtain ⟨block, -, rfl⟩ := Option.map_eq_some_iff.mp copied
    exact Nat.le_of_eq (congrArg (· + _) (length_extend extended))

variable (junk) in
theorem adds_writeData_length (data : List UInt8) :
    Adds (BufferWriter.writeData junk data) data.length := fun w w' done =>
  Nat.le_trans (adds_writeData junk data w w' done)
    (Nat.add_le_add_left (toInt32_natCast_le data.length) _)

theorem adds_foldlM {α : Type} {step : BufferWriter → α → Option BufferWriter}
    {textOf : α → List UInt8} {items : List α}
    (each : ∀ item ∈ items, Adds (step · item) (textOf item).length) :
    Adds (items.foldlM step) (items.flatMap textOf).length := by
  induction items with
  | nil =>
      intro w w' done
      cases done
      exact Nat.le_refl _
  | cons item items ih =>
      obtain ⟨head, tail⟩ := List.forall_mem_cons.mp each
      rw [List.flatMap_cons, List.length_append]
      exact head.bind (ih tail)

variable (junk) in
theorem appends_writeHeader {header : List UInt8 × List UInt8} (name : header.1.length < 2 ^ 31)
    (value : header.2.length < 2 ^ 31) :
    Appends (writeHeader junk · header) (headerLine header ++ crlf) := by
  have mark : Appends (BufferWriter.writeData junk colonBlank) colonBlank :=
    appends_writeData junk (by decide)
  have line : Appends (BufferWriter.writeData junk crlf) crlf := appends_writeData junk (by decide)
  have all := (appends_writeData junk name).bind
    (mark.bind ((appends_writeData junk value).bind line))
  rw [headerLine, List.append_assoc, List.append_assoc]
  exact all

variable (junk) in
theorem adds_writeHeader (header : List UInt8 × List UInt8) :
    Adds (writeHeader junk · header) (headerLine header ++ crlf).length := by
  have all := (adds_writeData_length junk header.1).bind
    ((adds_writeData_length junk colonBlank).bind
      ((adds_writeData_length junk header.2).bind (adds_writeData_length junk crlf)))
  rw [headerLine, List.append_assoc, List.append_assoc, List.length_append, List.length_append,
    List.length_append]
  exact all

/-- The text of the line with the length. -/
def contentLengthText (content : List UInt8) : List UInt8 :=
  if content = [] then [] else headerLine (contentLengthName, decimal content.length) ++ crlf

theorem contentLengthText_some {content : List UInt8} (some' : content ≠ []) :
    contentLengthText content =
      contentLengthName ++ colonBlank ++ (decimal content.length ++ [13] ++ [10]) := by
  rw [contentLengthText, if_neg some', headerLine, List.append_assoc _ (decimal _) crlf,
    List.append_assoc (decimal _)]
  rfl

theorem length_decimal_le {n : Nat} (small : n < 2 ^ 31) : (decimal n).length ≤ 10 := by
  rw [decimal, List.length_map]
  exact (Nat.length_toDigits_le_iff (by decide) (by decide)).mpr (by omega)

variable (junk) in
theorem appends_writeContentLength {content : List UInt8} (small : content.length < 2 ^ 31) :
    Appends (writeContentLength junk content) (contentLengthText content) := by
  by_cases empty : content = []
  · rw [contentLengthText, if_pos empty, empty]
    exact appends_nothing
  · have digits := length_decimal_le small
    have size : (decimal content.length ++ [13]).length = (decimal content.length).length + 1 :=
      List.length_append
    have printed : Appends (fun w => BufferWriter.printInt junk content.length 13 w)
        (decimal content.length ++ [13]) := by
      have fits : ¬ 32 < (decimal content.length ++ [13]).length := by omega
      intro w inside
      unfold BufferWriter.printInt
      dsimp only
      rw [if_neg fits]
      exact appends_writeData junk (by omega) w inside
    have all := (appends_writeData junk
      (by decide : (contentLengthName ++ colonBlank).length < 2 ^ 31)).bind
        (printed.bind (appends_writeData junk (by decide : ([10] : List UInt8).length < 2 ^ 31)))
    rw [contentLengthText_some empty]
    intro w inside
    unfold writeContentLength
    rw [if_pos (List.length_pos_of_ne_nil empty)]
    exact all w inside

variable (junk) in
theorem adds_writeContentLength (content : List UInt8) :
    Adds (writeContentLength junk content) (contentLengthText content).length := by
  by_cases empty : content = []
  · rw [contentLengthText, if_pos empty, empty]
    intro w w' done
    cases done
    exact Nat.le_refl _
  · have printed : Adds (fun w => BufferWriter.printInt junk content.length 13 w)
        (decimal content.length ++ [13]).length := by
      intro w w' done
      unfold BufferWriter.printInt at done
      dsimp only at done
      split at done
      · cases done
      · exact adds_writeData_length junk _ w w' done
    have all := (adds_writeData_length junk (contentLengthName ++ colonBlank)).bind
      (printed.bind (adds_writeData_length junk [10]))
    rw [contentLengthText_some empty]
    simp only [List.length_append] at all ⊢
    intro w w' done
    unfold writeContentLength at done
    rw [if_pos (List.length_pos_of_ne_nil empty)] at done
    exact all w w' done

end Writing

/-! ## The bytes of a response -/

section Wire

variable {junk : Nat → UInt8} {r : Response}

theorem linesText_lines (r : Response) : linesText r.lines =
    (r.toHttpResponse.headers.flatMap fun header => headerLine header ++ crlf) ++
      (contentLengthText r.content ++ crlf) := by
  have own : (r.headers.map fun f => headerLine f.pair).flatMap (· ++ crlf) =
      r.toHttpResponse.headers.flatMap fun header => headerLine header ++ crlf := by
    simp [Response.toHttpResponse, List.flatMap_map]
  rw [linesText, Response.lines, List.flatMap_append, own, List.append_assoc, contentLengthText]
  split
  · rfl
  · rw [List.flatMap_singleton]

/-- No header part is longer than the head. -/
theorem length_le_of_mem {header : List UInt8 × List UInt8}
    (member : header ∈ r.toHttpResponse.headers) :
    header.1.length ≤ (linesText r.lines).length ∧ header.2.length ≤ (linesText r.lines).length := by
  have inside := List.sublist_flatten_of_mem (List.mem_map_of_mem (f := fun header =>
    headerLine header ++ crlf) member)
  have bound := inside.length_le
  rw [linesText_lines, List.length_append, List.flatMap]
  rw [headerLine, List.length_append, List.length_append, List.length_append] at bound
  omega

variable (junk) in
theorem appends_writeResponse (first : (firstLine r.toHttpResponse).length < 2 ^ 31)
    (head : (linesText r.lines).length < 2 ^ 31) (small : r.content.length < 2 ^ 31) :
    Appends (writeResponse junk r.toHttpResponse) r.wire := by
  have headers : Appends (r.toHttpResponse.headers.foldlM (writeHeader junk))
      (r.toHttpResponse.headers.flatMap fun header => headerLine header ++ crlf) := by
    refine appends_foldlM fun header member => ?_
    obtain ⟨name, value⟩ := length_le_of_mem member
    exact appends_writeHeader junk (by omega) (by omega)
  have content : Appends (writeContent junk r.content) r.content := by
    intro w inside
    unfold writeContent
    by_cases some' : 0 < r.content.length
    · rw [if_pos some']
      exact appends_writeData junk small w inside
    · rw [if_neg some', List.length_eq_zero_iff.mp (Nat.eq_zero_of_not_pos some')]
      exact appends_nothing w inside
  have all := (appends_writeData junk first).bind (headers.bind
    ((appends_writeContentLength junk small).bind
      ((appends_writeData junk (by decide : crlf.length < 2 ^ 31)).bind content)))
  rw [Response.wire, linesText_lines]
  simp only [List.append_assoc] at all ⊢
  exact all

variable (junk) in
/-- Only as much content is written as its length says when it is taken for an `int`. -/
theorem adds_writeResponse (r : Response) :
    Adds (writeResponse junk r.toHttpResponse)
      ((firstLine r.toHttpResponse).length + (linesText r.lines).length +
        (toInt32 r.content.length).toNat) := by
  have headers : Adds (r.toHttpResponse.headers.foldlM (writeHeader junk))
      (r.toHttpResponse.headers.flatMap fun header => headerLine header ++ crlf).length :=
    adds_foldlM fun header _ => adds_writeHeader junk header
  have content : Adds (writeContent junk r.content) (toInt32 r.content.length).toNat := by
    intro w w' done
    unfold writeContent at done
    split at done
    · exact adds_writeData junk r.content w w' done
    · cases done
      exact Nat.le_add_right _ _
  have all := (adds_writeData_length junk (firstLine r.toHttpResponse)).bind (headers.bind
    ((adds_writeContentLength junk r.content).bind ((adds_writeData_length junk crlf).bind content)))
  rw [linesText_lines]
  simp only [List.length_append]
  intro w w' done
  have bound := all w w' done
  omega

theorem length_reserve (junk : Nat → UInt8) (n : Int) : (BufferWriter.reserve junk n).length = 0 := by
  unfold BufferWriter.reserve
  split
  · rfl
  · rfl

variable (junk) in
theorem createOutMsg_eq (short : (firstLine r.toHttpResponse).length < 32)
    (head : (linesText r.lines).length < 2 ^ 31) (size : r.content.length + 1024 < 2 ^ 31) :
    createOutMsg junk r.toHttpResponse = some r.wire := by
  have reserved : checked (toInt32 r.toHttpResponse.content.length + 1024) =
      some ((r.content.length + 1024 : Nat) : Int) := by
    show checked (toInt32 r.content.length + 1024) = _
    rw [toInt32_natCast (by omega)]
    exact Blitz.HttpRespDecoder.checked_eq size
  have empty : BufferWriter.written (.reserve junk (r.content.length + 1024 : Nat)) = [] := by
    rw [BufferWriter.written, length_reserve, List.take_zero]
  obtain ⟨w, done, -, written⟩ := appends_writeResponse junk (Nat.lt_trans short (by decide)) head
    (by omega : r.content.length < 2 ^ 31) (.reserve junk (r.content.length + 1024 : Nat))
    (by rw [length_reserve]; exact Nat.zero_le _)
  rw [createOutMsg, reserved, Option.bind_some, if_neg (by omega), done, Option.map_some, written,
    empty, List.nil_append]

/-- What the encoder needs. -/
theorem of_createOutMsg (done : createOutMsg junk r.toHttpResponse = some r.wire) :
    (firstLine r.toHttpResponse).length < 32 ∧ r.content.length + 1024 < 2 ^ 31 := by
  obtain ⟨size, reserved, rest⟩ := Option.bind_eq_some_iff.mp done
  split at rest
  · cases rest
  · next short =>
      obtain ⟨w, all, written⟩ := Option.map_eq_some_iff.mp rest
      have bound := adds_writeResponse junk r _ w all
      have length := congrArg List.length written
      rw [length_reserve] at bound
      rw [BufferWriter.written, List.length_take, Response.wire, List.length_append,
        List.length_append] at length
      have whole : r.content.length ≤ (toInt32 r.content.length).toNat := by omega
      have top := toInt32_lt r.content.length
      refine ⟨by omega, ?_⟩
      have small : r.content.length < 2 ^ 31 := by omega
      have range : toInt32 r.toHttpResponse.content.length = r.content.length :=
        toInt32_natCast small
      rw [range, checked] at reserved
      split at reserved
      · next inside => omega
      · cases reserved

end Wire

/-! ## The status line -/

section StatusLine

variable {r : Response}

/-- The status line as the decoder reads it. -/
def statusHead (r : Response) : ResponseHead where
  minor := r.versionMinor
  code := (Fin.ofNat 10 (r.code / 100), Fin.ofNat 10 (r.code / 10), Fin.ofNat 10 r.code)
  reason := getCodeStr r.code
  fields := []
  reasonOk := by
    unfold getCodeStr
    split
    · decide +kernel
    · split
      · decide +kernel
      · decide +kernel

theorem codeValue_statusHead (r : Response) : (statusHead r).codeValue = r.code := by
  have bounds := r.codeOk
  simp only [ResponseHead.codeValue, statusHead, Fin.ofNat]
  omega

theorem printed_minor (m : Fin 2) : printed (m.val : Int) = [minorDigit m] := by
  revert m
  decide +kernel

/-- Only the two short texts go through the array for the status line. -/
theorem firstLine_short (r : Response) :
    (firstLine r.toHttpResponse).length < 32 ↔ r.code = 200 ∨ r.code = 404 := by
  have size : (firstLine r.toHttpResponse).length =
      7 + 1 + 1 + (printed (r.code : Int)).length + 1 + (getCodeStr (r.code : Int)).length + 2 := by
    have marks : httpMark.length = 7 ∧ crlf.length = 2 := ⟨rfl, rfl⟩
    simp only [firstLine, Response.toHttpResponse, List.length_append, List.length_cons,
      printed_minor, List.length_nil]
    omega
  have texts : okText.length = 2 ∧ notFoundText.length = 9 ∧ serverErrorText.length = 21 :=
    ⟨rfl, rfl, rfl⟩
  rw [size]
  by_cases ok : r.code = 200
  · rw [ok]
    decide +kernel
  · by_cases notFound : r.code = 404
    · rw [notFound]
      decide +kernel
    · have text : getCodeStr (r.code : Int) = serverErrorText := by
        rw [getCodeStr, if_neg (by omega), if_neg (by omega)]
      rw [text, texts.2.2]
      omega

theorem firstLine_eq (code : r.code = 200 ∨ r.code = 404) :
    firstLine r.toHttpResponse = (statusHead r).line ++ crlf := by
  rcases code with ok | notFound
  · simp only [firstLine, Response.toHttpResponse, ResponseHead.line, ResponseHead.codeText, statusHead,
      ok, printed_minor]
    rfl
  · simp only [firstLine, Response.toHttpResponse, ResponseHead.line, ResponseHead.codeText, statusHead,
      notFound, printed_minor]
    rfl

end StatusLine

/-! ## The header lines -/

section Headers

variable {r : Response} {name value : List UInt8} {params : List (List UInt8 × List UInt8)}

/-- A string as a C function sees it. -/
def upToZero (text : List UInt8) : List UInt8 := text.takeWhile (· != 0)

theorem upToZero_eq_iff {text : List UInt8} : upToZero text = text ↔ 0 ∉ text := by
  constructor
  · intro same zero
    have kept : (upToZero text).all (· != 0) := List.all_takeWhile
    rw [same, List.all_eq_true] at kept
    exact bne_iff_ne.mp (kept 0 zero) rfl
  · intro plain
    exact List.takeWhile_eq_self_iff.mpr fun c member => bne_iff_ne.mpr fun zero => plain (zero ▸ member)

/-- A zero in the name hides the colon; a zero in the value ends it. -/
theorem splitHeader_headerLine (colon : 58 ∉ name) :
    splitHeader (headerLine (name, value)) =
      if 0 ∈ name then none else some (name, upToZero value) := by
  have noColon : ∀ c ∈ name, (c != 58) = true := fun c member =>
    bne_iff_ne.mpr fun same => colon (same ▸ member)
  unfold splitHeader headerLine colonBlank
  by_cases zero : 0 ∈ name
  · obtain ⟨front, back, rfl, first⟩ := List.eq_append_cons_of_mem zero
    have stops : (front ++ 0 :: back ++ [58, 32] ++ value).takeWhile (· != 0) = front := by
      have nonzero : ∀ c ∈ front, (c != 0) = true := fun c member =>
        bne_iff_ne.mpr fun same => first (same ▸ member)
      rw [List.append_assoc, List.append_assoc, List.takeWhile_append_of_pos nonzero]
      exact List.append_nil front
    have hidden : front.dropWhile (· != 58) = [] :=
      List.dropWhile_eq_nil_iff.mpr fun c member => noColon c (List.mem_append_left _ member)
    rw [if_pos zero]
    dsimp only
    rw [stops, hidden]
  · have whole : (name ++ [58, 32] ++ value).takeWhile (· != 0) =
        name ++ 58 :: 32 :: upToZero value := by
      have nonzero : ∀ c ∈ name, (c != 0) = true := fun c member =>
        bne_iff_ne.mpr fun same => zero (same ▸ member)
      rw [List.append_assoc, List.takeWhile_append_of_pos nonzero]
      rfl
    rw [if_neg zero]
    dsimp only
    rw [whole, List.dropWhile_append_of_pos noColon, List.takeWhile_append_of_pos noColon]
    exact congrArg (fun n => some (n, upToZero value)) (List.append_nil name)

theorem getHeader_setParam (params : List (List UInt8 × List UInt8)) (key value name : List UInt8) :
    getHeader (setParam params key value) name =
      if name = key then some value else getHeader params name := by
  unfold getHeader setParam
  rw [List.find?_append]
  by_cases same : name = key
  · subst same
    have gone : (params.filter fun param => param.1 != name).find? (fun param => param.1 == name) =
        none := by
      refine List.find?_eq_none.mpr fun param member found => ?_
      have other := (List.mem_filter.mp member).2
      rw [bne, found] at other
      cases other
    rw [gone, if_pos rfl]
    simp
  · have last : [(key, value)].find? (fun param => param.1 == name) = none := by
      simp [Ne.symm same]
    have kept : (params.filter fun param => param.1 != key).find? (fun param => param.1 == name) =
        params.find? fun param => param.1 == name := by
      rw [List.find?_filter]
      refine congrArg (fun p => List.find? p params) (funext fun param => ?_)
      by_cases found : param.1 = name
      · simp [found, same]
      · simp [found]
    rw [if_neg same, last, kept, Option.or_none]

/-- What the decoder has read of the header fields. -/
def readPair (f : Field) : List UInt8 × List UInt8 := (f.name, upToZero f.value)

theorem applyLines_append (first second : List (List UInt8))
    (response : Blitz.HttpRespDecoder.HttpResponse) :
    applyLines applyHeader (first ++ second) response =
      (applyLines applyHeader first response).bind (applyLines applyHeader second) := by
  induction first generalizing response with
  | nil => rfl
  | cons line first ih =>
      rw [List.cons_append, applyLines, applyLines, Option.bind_assoc]
      exact congrArg _ (funext fun pair => ih _)

/-- The fields of a header, one after the other. -/
def applyFields (fields : List (List UInt8 × List UInt8))
    (response : Blitz.HttpRespDecoder.HttpResponse) : Blitz.HttpRespDecoder.HttpResponse :=
  fields.foldl (fun response field => applyHeader response field.1 field.2) response

theorem applyLines_fields (fields : List Field) (response : Blitz.HttpRespDecoder.HttpResponse) :
    applyLines applyHeader (fields.map fun f => headerLine f.pair) response =
      if ∃ f ∈ fields, 0 ∈ f.name then none
      else some (applyFields (fields.map readPair) response) := by
  induction fields generalizing response with
  | nil => simp [applyLines, applyFields]
  | cons f fields ih =>
      have colon : 58 ∉ f.name := fun member => (f.nameOk 58 member).2.2 rfl
      rw [List.map_cons, applyLines, Field.pair, splitHeader_headerLine colon]
      by_cases zero : 0 ∈ f.name
      · rw [if_pos zero, if_pos ⟨f, List.mem_cons_self, zero⟩]
        rfl
      · rw [if_neg zero, Option.bind_some]
        dsimp only
        rw [ih]
        have same : (∃ g ∈ f :: fields, 0 ∈ g.name) ↔ ∃ g ∈ fields, 0 ∈ g.name := by
          simp [zero]
        simp only [same]
        rfl

/-- Looking up a name among fields with distinct names. -/
theorem getHeader_applyFields {fields : List (List UInt8 × List UInt8)}
    (distinct : (fields.map Prod.fst).Nodup) (response : Blitz.HttpRespDecoder.HttpResponse)
    (name : List UInt8) :
    getHeader (applyFields fields response).params name =
      (getHeader fields name).or (getHeader response.params name) := by
  induction fields generalizing response with
  | nil => rfl
  | cons field fields ih =>
      obtain ⟨fresh, distinct⟩ := List.nodup_cons.mp distinct
      have next : getHeader (applyHeader response field.1 field.2).params name =
          if name = field.1 then some field.2 else getHeader response.params name :=
        getHeader_setParam _ _ _ _
      have cons : getHeader (field :: fields) name =
          if field.1 = name then some field.2 else getHeader fields name := by
        unfold getHeader
        by_cases same : field.1 = name <;> simp [same]
      rw [applyFields, List.foldl_cons]
      rw [← applyFields, ih distinct, next, cons]
      by_cases same : field.1 = name
      · have missing : getHeader fields name = none := by
          unfold getHeader
          rw [Option.map_eq_none_iff, List.find?_eq_none]
          intro other member found
          exact fresh (same ▸ beq_iff_eq.mp found ▸ List.mem_map_of_mem member)
        rw [if_pos same, if_pos same.symm, missing]
        rfl
      · rw [if_neg same, if_neg (Ne.symm same)]

theorem params_applyFields (fields : List (List UInt8 × List UInt8))
    (response : Blitz.HttpRespDecoder.HttpResponse) :
    (applyFields fields response).code = response.code ∧
      (applyFields fields response).versionMinor = response.versionMinor := by
  induction fields generalizing response with
  | nil => exact ⟨rfl, rfl⟩
  | cons field fields ih => exact ih _

end Headers

/-! ## Reading back -/

section Read

variable {junk : Nat → UInt8} {r : Response} {pieces : List (List UInt8)}

theorem digitValue_of_isDigit {c : UInt8} (digit : isDigit c = true) :
    digitValue c = some (c.toNat - 48) := by
  obtain ⟨low, high⟩ := Bool.and_eq_true_iff.mp digit
  rw [digitValue, if_pos ⟨of_decide_eq_true low, of_decide_eq_true high⟩]

theorem readDigits_digits {digits : List UInt8} (all : AreDigits 10 digits) (acc : Nat) :
    readDigits 10 digits acc =
      digits.foldl (fun acc c => acc * 10 + (digitValue c).getD 0) acc := by
  induction digits generalizing acc with
  | nil => rfl
  | cons c digits ih =>
      obtain ⟨⟨d, small, digit⟩, tail⟩ := List.forall_mem_cons.mp all
      rw [readDigits, digit]
      dsimp only
      rw [if_pos small, ih tail, List.foldl_cons, digit]
      rfl

theorem digitsValue_decimal (n : Nat) : digitsValue 10 (decimal n) = n := by
  have value : ∀ (chars : List Char), (∀ c ∈ chars, c.isDigit) → ∀ acc : Nat,
      (chars.map fun c => c.toNat.toUInt8).foldl
        (fun acc c => acc * 10 + (digitValue c).getD 0) acc = Nat.ofDigitChars 10 chars acc := by
    intro chars
    induction chars with
    | nil => exact fun _ acc => (Nat.ofDigitChars_nil).symm
    | cons c chars ih =>
        intro all acc
        obtain ⟨digit, others⟩ := List.forall_mem_cons.mp all
        obtain ⟨low, high⟩ := Char.isDigit_iff_toNat.mp digit
        have small : c.toNat < 256 := Nat.lt_of_le_of_lt high (by decide)
        have byte : c.toNat.toUInt8.toNat = c.toNat := Nat.mod_eq_of_lt small
        have isDigit' : isDigit c.toNat.toUInt8 = true := by
          simp only [isDigit, UInt8.le_iff_toNat_le, byte, Bool.and_eq_true, decide_eq_true_eq]
          exact ⟨low, high⟩
        rw [List.map_cons, List.foldl_cons, digitValue_of_isDigit isDigit', byte, ih others,
          Nat.ofDigitChars_cons, Nat.mul_comm acc 10]
        rfl
  rw [digitsValue, decimal, value _ (fun c member =>
    Nat.isDigit_of_mem_toDigits (by decide) (by decide) member) 0]
  exact Nat.ofDigitChars_ten_toDigits

/-- The length is read as it was printed. -/
theorem atoi_decimal {n : Nat} (small : n < 2 ^ 31) : atoi (decimal n) = n := by
  have all : AreDigits 10 (decimal n) := by
    intro c member
    have digit := isDigit_of_mem_decimal member
    obtain ⟨-, high⟩ := Bool.and_eq_true_iff.mp digit
    have bound := UInt8.le_iff_toNat_le.mp (of_decide_eq_true high)
    have nine : (57 : UInt8).toNat = 57 := rfl
    exact ⟨_, by omega, digitValue_of_isDigit digit⟩
  cases digits : decimal n with
  | nil => exact absurd digits (decimal_ne_nil n)
  | cons c rest =>
      obtain ⟨d, -, digit⟩ := all c (digits ▸ List.mem_cons_self)
      have noMark : skipHexMark 10 (c :: rest) = c :: rest := by
        unfold skipHexMark
        split
        · next same =>
            exact (if_neg fun mark => absurd mark.1 (by decide)).trans same.symm
        · rfl
      have value : readDigits 10 (c :: rest) 0 = n := by
        rw [← digits, readDigits_digits all]
        exact digitsValue_decimal n
      have bound : (n : Int) ≤ 2 ^ 63 - 1 := by omega
      rw [atoi, strtol_digit digit, noMark, value, Int.min_eq_right bound]
      exact toInt32_natCast small

theorem mem_headerLine {header : List UInt8 × List UInt8} {c : UInt8}
    (member : c ∈ headerLine header) : c ∈ header.1 ∨ c = 58 ∨ c = 32 ∨ c ∈ header.2 := by
  simp only [headerLine, colonBlank, List.mem_append, List.mem_cons, List.not_mem_nil, or_false]
    at member
  tauto

theorem plainLines_lines (r : Response) : PlainLines r.lines := by
  have nonempty : ∀ header : List UInt8 × List UInt8, headerLine header ≠ [] := by
    simp [headerLine, colonBlank]
  intro line member
  rcases List.mem_append.mp member with own | length
  · obtain ⟨f, -, rfl⟩ := List.mem_map.mp own
    refine ⟨nonempty _, fun c inLine => ?_⟩
    rcases mem_headerLine inLine with name | rfl | rfl | value
    · exact (f.nameOk c name).1
    · decide
    · decide
    · exact (f.valueOk c value).1
  · split at length
    · cases length
    · rw [List.mem_singleton.mp length]
      refine ⟨nonempty _, fun c inLine => ?_⟩
      rcases mem_headerLine inLine with name | rfl | rfl | value
      · exact (by simp [contentLengthName] : ∀ c ∈ contentLengthName, c ≠ 13) c name
      · decide
      · decide
      · rintro rfl
        have digit := isDigit_of_mem_decimal value
        revert digit
        decide

/-- A header line is no status line, unless its name starts like one. -/
theorem refused_headerLine {header : List UInt8 × List UInt8}
    (name : startsWithNoCase header.1 httpMark = false) : Refused (headerLine header) := by
  intro rest
  refine Bool.eq_false_iff.mpr fun starts => Bool.eq_false_iff.mp name ?_
  have same := beq_iff_eq.mp starts
  have text : headerLine header ++ crlf ++ rest = header.1 ++ 58 :: (32 :: header.2 ++ crlf ++ rest) := by
    simp [headerLine, colonBlank]
  have seven : httpMark.length = 7 := rfl
  rw [text, seven] at same
  rcases Nat.lt_or_ge header.1.length 7 with short | long
  · -- the colon of the line would be in the mark
    have colon : (58 : UInt8) ∈ (header.1 ++ 58 :: (32 :: header.2 ++ crlf ++ rest)).take 7 := by
      rw [List.take_append, List.mem_append]
      right
      obtain ⟨k, more⟩ := Nat.exists_eq_add_of_lt short
      rw [show 7 - header.1.length = k + 1 by omega, List.take_succ_cons]
      exact List.mem_cons_self
    have inMark := List.mem_map_of_mem (f := toLower) colon
    rw [same] at inMark
    exact absurd inMark (by decide)
  · rw [List.take_append_of_le_length long] at same
    exact beq_iff_eq.mpr same

/-- The response that the decoder has read. -/
def readResponse (r : Response) : Blitz.HttpRespDecoder.HttpResponse :=
  applyFields (r.headers.map readPair) (statusHead r).start

theorem applyLines_lines (r : Response) :
    applyLines applyHeader r.lines (statusHead r).start =
      if ∃ f ∈ r.headers, 0 ∈ f.name then none
      else if r.content = [] then some (readResponse r)
      else some (applyHeader (readResponse r) contentLengthName (decimal r.content.length)) := by
  have length : splitHeader (headerLine (contentLengthName, decimal r.content.length)) =
      some (contentLengthName, decimal r.content.length) := by
    have plain : 0 ∉ decimal r.content.length := fun member => by
      have digit := isDigit_of_mem_decimal member
      revert digit
      decide
    rw [splitHeader_headerLine (by decide), if_neg (by decide),
      upToZero_eq_iff.mpr plain]
  rw [Response.lines, applyLines_append, applyLines_fields]
  by_cases zero : ∃ f ∈ r.headers, 0 ∈ f.name
  · rw [if_pos zero, if_pos zero]
    rfl
  · rw [if_neg zero, if_neg zero, Option.bind_some]
    by_cases empty : r.content = []
    · rw [if_pos empty, if_pos empty]
      rfl
    · rw [if_neg empty, if_neg empty, applyLines, length]
      rfl

theorem getHeader_readResponse (r : Response) (name : List UInt8) :
    getHeader (readResponse r).params name =
      (getHeader r.toHttpResponse.headers name).map upToZero := by
  have names : (r.headers.map readPair).map Prod.fst = r.headers.map Field.name := by
    rw [List.map_map]
    rfl
  have start : getHeader (statusHead r).start.params name = none := rfl
  rw [readResponse, getHeader_applyFields (names ▸ r.distinct), start, Option.or_none]
  unfold getHeader
  have pairs : r.headers.map readPair =
      r.toHttpResponse.headers.map fun header => (header.1, upToZero header.2) := by
    rw [Response.toHttpResponse, List.map_map]
    rfl
  rw [pairs, List.find?_map, Option.map_map, Option.map_map]
  rfl

theorem getHeader_field {f : Field} (member : f ∈ r.headers) :
    getHeader r.toHttpResponse.headers f.name = some f.value := by
  have distinct := r.distinct
  simp only [Response.toHttpResponse]
  generalize r.headers = headers at member distinct
  induction headers with
  | nil => cases member
  | cons g headers ih =>
      obtain ⟨fresh, distinct⟩ := List.nodup_cons.mp distinct
      unfold getHeader
      rcases List.mem_cons.mp member with rfl | member
      · simp [Field.pair]
      · have other : g.name ≠ f.name := fun same => fresh (same ▸ List.mem_map_of_mem member)
        have skip : ((g.pair).1 == f.name) = false := by
          simp [Field.pair, other]
        rw [List.map_cons, List.find?_cons, skip]
        exact ih member distinct

theorem getHeader_reserved {name : List UInt8}
    (reserved : ∀ f ∈ r.headers, f.name ≠ name) : getHeader r.toHttpResponse.headers name = none := by
  unfold getHeader
  rw [Option.map_eq_none_iff, List.find?_eq_none]
  intro header member found
  obtain ⟨f, inHeaders, rfl⟩ := List.mem_map.mp member
  exact reserved f inHeaders (beq_iff_eq.mp found)

/-- The decoded response is the same one exactly when no value is cut at a zero. -/
theorem same_iff (content : r.content ≠ []) :
    Same (report (finish (applyHeader (readResponse r) contentLengthName
      (decimal r.content.length)) r.content)) r ↔ ∀ f ∈ r.headers, 0 ∉ f.value := by
  obtain ⟨sameCode, sameMinor⟩ := params_applyFields (r.headers.map readPair) (statusHead r).start
  have lookup : ∀ name, name ≠ contentLengthName →
      getHeader (report (finish (applyHeader (readResponse r) contentLengthName
        (decimal r.content.length)) r.content)).headers name =
      (getHeader r.toHttpResponse.headers name).map upToZero := by
    intro name other
    have set := getHeader_setParam (readResponse r).params contentLengthName
      (decimal r.content.length) name
    rw [if_neg other, getHeader_readResponse] at set
    exact set
  constructor
  · intro same f member
    have header := same.headers f.name (r.reserved f member).1
    rw [lookup _ (r.reserved f member).1, getHeader_field member] at header
    exact upToZero_eq_iff.mp (Option.some.inj header)
  · intro plain
    refine ⟨congrArg Nat.cast sameMinor, ?_, ?_, fun name other => ?_⟩
    · refine Eq.trans sameCode ?_
      show ((statusHead r).codeValue : Int) = r.code
      rw [codeValue_statusHead]
    · show (if r.content = [] then none else some r.content).getD [] = r.content
      rw [if_neg content]
      rfl
    · rw [lookup name other]
      cases known : getHeader r.toHttpResponse.headers name with
      | none => rfl
      | some value =>
          obtain ⟨⟨key, value'⟩, found, rfl⟩ := Option.map_eq_some_iff.mp known
          obtain ⟨f, inHeaders, isPair⟩ := List.mem_map.mp (List.mem_of_find?_eq_some found)
          obtain ⟨-, rfl⟩ := Prod.mk.inj isPair
          rw [Option.map_some, upToZero_eq_iff.mpr (plain f inHeaders)]

theorem isChunked_lines {response : Blitz.HttpRespDecoder.HttpResponse}
    (applied : applyLines applyHeader r.lines (statusHead r).start = some response) :
    isChunked response = false := by
  have missing : getHeader (readResponse r).params transferEncodingName = none := by
    rw [getHeader_readResponse, getHeader_reserved fun f member => (r.reserved f member).2]
    rfl
  rw [applyLines_lines] at applied
  split at applied
  · cases applied
  · split at applied
    · cases applied
      rw [isChunked, missing]
      rfl
    · cases applied
      have set := getHeader_setParam (readResponse r).params contentLengthName
        (decimal r.content.length) transferEncodingName
      rw [if_neg (by decide), missing] at set
      rw [isChunked]
      show (getHeader (setParam _ _ _) _ == _) = false
      rw [set]
      rfl

end Read

/-! ## Round trips -/

section RoundTrip

variable {junk : Nat → UInt8} {r : Response} {pieces : List (List UInt8)}

theorem reading_initial (junk : Nat → UInt8) (h : ResponseHead) :
    Reading h.line [] (.initial junk) where
  status := rfl
  fresh := ⟨rfl, rfl, rfl, rfl, rfl⟩
  size := by rw [RespDecoder.initial, length_malloc]
  atStart := rfl
  scanning := scanning_fresh (malloc junk 4096) h.line

theorem wire_eq (code : r.code = 200 ∨ r.code = 404) :
    r.wire = (statusHead r).line ++ crlf ++ (linesText r.lines ++ r.content) := by
  rw [Response.wire, firstLine_eq code, List.append_assoc ((statusHead r).line ++ crlf)]

/-- The decoder reports one response only. -/
theorem emits_unique {s : RespDecoder} {m m' : HttpResponse}
    (first : (decoder junk).Emits s pieces [m]) (second : (decoder junk).Emits s pieces [m']) :
    m = m' := by
  obtain ⟨s', fed⟩ := first
  obtain ⟨s'', fed'⟩ := second
  rw [fed] at fed'
  exact (List.cons.inj (Prod.mk.inj (Option.some.inj fed')).2).1

theorem lineEnd_eq (code : r.code = 200 ∨ r.code = 404) :
    lineEnd r = (statusHead r).line.length + 2 := by
  rw [lineEnd, firstLine_eq code, List.length_append]
  rfl

theorem roundTrips_of_clear (stream : pieces.flatten = r.wire)
    (within : (decoder junk).Within (.initial junk) pieces) (clear : Clear r pieces) :
    RoundTrips junk r pieces := by
  have ahead : [] ++ pieces.flatten =
      (statusHead r).line ++ crlf ++ (linesText r.lines ++ r.content) := by
    rw [List.nil_append, stream, wire_eq clear.code]
  obtain ⟨first, piece, later, s, tail, reached, same, cuts⟩ :=
    reaches_head (reading_initial junk (statusHead r)) ahead within
  have whole : (linesText r.lines).length ≤ tail.length := by
    refine cuts.mp fun cut member behind => ?_
    rw [← lineEnd_eq clear.code] at behind ⊢
    exact clear.cuts cut member behind
  have small : (linesText r.lines).length < 2 ^ 31 := by
    have total := reached.after.atLine.total
    have filled := reached.after.filled
    have size := reached.after.size
    omega
  have noZero : ¬ ∃ f ∈ r.headers, 0 ∈ f.name := fun ⟨f, member, zero⟩ =>
    (clear.zero f member).1 zero
  have applied := applyLines_lines r
  rw [if_neg noZero, if_neg clear.content] at applied
  have length := getHeader_setParam (readResponse r).params contentLengthName
    (decimal r.content.length) contentLengthName
  rw [if_pos rfl] at length
  have size := clear.size
  refine ⟨?_, _, (same _).mpr (reached.emits (plainLines_lines r) whole applied
    (isChunked_lines applied) length (atoi_decimal (by omega)) clear.content), ?_⟩
  · rw [stream]
    exact createOutMsg_eq junk ((firstLine_short r).mpr clear.code) small clear.size
  · exact (same_iff clear.content).mpr fun f member => (clear.zero f member).2

/-- No header name starts like a status line. -/
def Unmistaken (r : Response) : Prop :=
  ∀ f ∈ r.headers, startsWithNoCase f.name httpMark = false

theorem refused_lines (unmistaken : Unmistaken r) : ∀ line ∈ r.lines, Refused line := by
  intro line member
  rcases List.mem_append.mp member with own | length
  · obtain ⟨f, inHeaders, rfl⟩ := List.mem_map.mp own
    exact refused_headerLine (unmistaken f inHeaders)
  · split at length
    · cases length
    · rw [List.mem_singleton.mp length]
      exact refused_headerLine
        (by decide : startsWithNoCase contentLengthName httpMark = false)

theorem clear_of_roundTrips (stream : pieces.flatten = r.wire)
    (within : (decoder junk).Within (.initial junk) pieces) (unmistaken : Unmistaken r)
    (roundTrips : RoundTrips junk r pieces) : Clear r pieces := by
  obtain ⟨created, m, emits, isSame⟩ := roundTrips
  rw [stream] at created
  obtain ⟨short, size⟩ := of_createOutMsg created
  have code := (firstLine_short r).mp short
  have ahead : [] ++ pieces.flatten =
      (statusHead r).line ++ crlf ++ (linesText r.lines ++ r.content) := by
    rw [List.nil_append, stream, wire_eq code]
  obtain ⟨first, piece, later, s, tail, reached, same, cuts⟩ :=
    reaches_head (reading_initial junk (statusHead r)) ahead within
  rw [same] at emits
  have plain := plainLines_lines r
  have whole : (linesText r.lines).length ≤ tail.length := by
    refine Nat.le_of_not_lt fun inside => ?_
    exact not_emits_cut plain (refused_lines unmistaken) reached.after reached.status
      reached.position inside reached.stream reached.step reached.within m emits
  have applied := applyLines_lines r
  have noZero : ¬ ∃ f ∈ r.headers, 0 ∈ f.name := fun zero => by
    rw [if_pos zero] at applied
    exact reached.not_emits_bad plain whole applied m emits
  rw [if_neg noZero] at applied
  have content : r.content ≠ [] := fun empty => by
    rw [if_pos empty] at applied
    have missing : getHeader (readResponse r).params contentLengthName = none := by
      rw [getHeader_readResponse, getHeader_reserved fun f member => (r.reserved f member).1]
      rfl
    exact reached.not_emits_lengthless plain whole applied (isChunked_lines applied) missing m emits
  rw [if_neg content] at applied
  have length := getHeader_setParam (readResponse r).params contentLengthName
    (decimal r.content.length) contentLengthName
  rw [if_pos rfl] at length
  have expected := reached.emits plain whole applied (isChunked_lines applied) length
    (atoi_decimal (by omega)) content
  rw [emits_unique emits expected] at isSame
  refine ⟨code, content, size, fun f member => ⟨fun zero => noZero ⟨f, member, zero⟩,
    (same_iff content).mp isSame f member⟩, fun cut member behind => ?_⟩
  rw [lineEnd_eq code] at behind ⊢
  exact cuts.mpr whole cut member behind

/-- The bytes of a response are read back when they are clear; without a header name that starts like
a status line also only then. -/
theorem roundTrips_iff_clear (junk : Nat → UInt8) (r : Response) (pieces : List (List UInt8))
    (stream : pieces.flatten = r.wire) (within : (decoder junk).Within (.initial junk) pieces) :
    (Clear r pieces → RoundTrips junk r pieces) ∧
      (Unmistaken r → RoundTrips junk r pieces → Clear r pieces) :=
  ⟨roundTrips_of_clear stream within, clear_of_roundTrips stream within⟩

/-- Code 404 with the header `A: b` and the content `x`. -/
def smallResponse : Response where
  versionMinor := 1
  code := 404
  headers := [⟨[65], [98], by decide +kernel, by decide +kernel, by decide +kernel⟩]
  content := [120]
  codeOk := by decide
  distinct := by decide +kernel
  reserved := by decide +kernel

theorem roundTrips_smallResponse :
    RoundTrips (fun _ => 0) smallResponse (cutInto [5, 46, 1] smallResponse.wire) :=
  (roundTrips_iff_clear (fun _ => 0) smallResponse _ (by decide +kernel) (by decide +kernel)).1
    ⟨by decide, by decide, by decide, by decide +kernel, by decide +kernel⟩

/-- A response without headers. -/
def bareResponse (code : Nat) (codeOk : 100 ≤ code ∧ code ≤ 999) (content : List UInt8) :
    Response where
  versionMinor := 1
  code := code
  headers := []
  content := content
  codeOk := codeOk
  distinct := List.nodup_nil
  reserved := by simp

/-- The text of code 500 does not fit the array for the status line, and an empty content of code
200 ends the decoder. -/
theorem responses_not_read_back :
    (∃ pieces, pieces.flatten = (bareResponse 500 (by decide) [120]).wire ∧
      (decoder fun _ => 0).Within (.initial fun _ => 0) pieces ∧
      ¬ RoundTrips (fun _ => 0) (bareResponse 500 (by decide) [120]) pieces) ∧
    ∃ pieces, pieces.flatten = (bareResponse 200 (by decide) []).wire ∧
      (decoder fun _ => 0).Within (.initial fun _ => 0) pieces ∧
      ¬ RoundTrips (fun _ => 0) (bareResponse 200 (by decide) []) pieces := by
  refine ⟨⟨[(bareResponse 500 (by decide) [120]).wire], by decide +kernel, by decide +kernel, ?_⟩,
    [(bareResponse 200 (by decide) []).wire], by decide +kernel, by decide +kernel, ?_⟩
  · rintro ⟨created, -⟩
    have refused : (createOutMsg (fun _ => 0)
        (bareResponse 500 (by decide) [120]).toHttpResponse).isNone = true := by decide +kernel
    rw [created] at refused
    cases refused
  · rintro ⟨-, m, ⟨s, fed⟩, -⟩
    have refused : ((decoder fun _ => 0).feedAll (.initial fun _ => 0)
        [(bareResponse 200 (by decide) []).wire]).isNone = true := by decide +kernel
    rw [fed] at refused
    cases refused

end RoundTrip

end MlsImgSearch.Blitz2.HttpResponse
