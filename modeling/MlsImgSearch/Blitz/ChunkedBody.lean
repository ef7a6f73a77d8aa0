import MlsImgSearch.Blitz.HttpRespDecoder

/-!
# Chunked bodies

Between two pieces the decoder of responses waits in the size of a chunk, in the
data of a chunk, or at its end. A piece leads from one of these states to
another one or to the end of the response, provided that at the end of a chunk
the byte which the decoder has kept is treated as it should be.
-/

namespace MlsImgSearch.Blitz.HttpRespDecoder

open MlsImgSearch.Lib.Bytes
open MlsImgSearch.Lib.Segmentation
open MlsImgSearch.Blitz.HttpCommon

/-! ## The body of a chunked response -/

/-- The decoder has collected `got`. -/
def Holds (s : RespDecoder) (got : List UInt8) : Prop :=
  match s.body with
  | none => got = [] ∧ s.bodyRead = 0
  | some block =>
      block.length = s.bodyLength ∧ s.bodyRead = got.length ∧ got.length ≤ block.length ∧
        block.take got.length = got

/-- Everything but the body is as it was. -/
structure SameButBody (s s' : RespDecoder) : Prop where
  response : s'.response = s.response
  status : s'.status = s.status
  lines : s'.lines = s.lines
  chunkSize : s'.chunkSize = s.chunkSize
  chunkLeft : s'.chunkLeft = s.chunkLeft

section Append

variable {junk : Nat → UInt8} {s : RespDecoder} {got data : List UInt8}

theorem checked_eq {n : Nat} (small : n < 2 ^ 31) : checked n = some (n : Int) :=
  if_pos ⟨by omega, by omega⟩

variable (junk) in
/-- There is room for more bytes, as long as the `int` computations stay in range. -/
theorem reserve_eq (holds : Holds s got) {n : Nat} (small : 2 * (got.length + n) + 4096 < 2 ^ 31)
    (first : s.body = none → n ≤ 65536) :
    ∃ s' block, reserve junk s n = some s' ∧ SameButBody s s' ∧ s'.body = some block ∧
      block.length = s'.bodyLength ∧ s'.bodyRead = got.length ∧ got.length + n ≤ block.length ∧
      block.take got.length = got := by
  unfold Holds at holds
  unfold reserve
  cases isBody : s.body with
  | none =>
      rw [isBody] at holds
      obtain ⟨rfl, _⟩ := holds
      have bound := first isBody
      have cast : ((n : Int) * 4) = ((n * 4 : Nat) : Int) := by omega
      refine ⟨{ s with
        body := some (malloc junk (n * 4)), bodyLength := n * 4, bodyRead := 0 },
        malloc junk (n * 4), ?_, ⟨rfl, rfl, rfl, rfl, rfl⟩, rfl, length_malloc _ _, rfl, ?_, rfl⟩
      · dsimp only
        rw [cast, checked_eq (by omega)]
        rfl
      · rw [length_malloc, List.length_nil]
        omega
  | some block =>
      rw [isBody] at holds
      obtain ⟨length, read, inside, front⟩ := holds
      dsimp only
      by_cases short : s.bodyLength < s.bodyRead + n
      · have cast : ((s.bodyLength : Int) + n + 4096) = ((s.bodyLength + n + 4096 : Nat) : Int) := by
          omega
        have room : 0 + (block.take s.bodyRead).length ≤
            (malloc junk (s.bodyLength + n + 4096)).length := by
          rw [length_malloc, List.length_take]
          omega
        obtain ⟨fresh, written⟩ : ∃ fresh, writeAt (malloc junk (s.bodyLength + n + 4096)) 0
            (block.take s.bodyRead) = some fresh := ⟨_, writeAt_eq_some room⟩
        have taken : (block.take s.bodyRead).length = got.length := by
          rw [List.length_take]
          omega
        refine ⟨{ s with body := some fresh, bodyLength := s.bodyLength + n + 4096 }, fresh, ?_,
          ⟨rfl, rfl, rfl, rfl, rfl⟩, rfl, (length_writeAt written).trans (length_malloc _ _), read, ?_, ?_⟩
        · rw [if_pos short, cast, checked_eq (by omega), Option.bind_some, Int.toNat_natCast, written]
          rfl
        · rw [length_writeAt written, length_malloc]
          omega
        · have whole := take_writeAt written
          rw [Nat.zero_add, taken] at whole
          rw [whole, List.take_zero, List.nil_append, read, front]
      · refine ⟨s, block, if_neg short, ⟨rfl, rfl, rfl, rfl, rfl⟩, isBody, length, read, ?_, front⟩
        omega

variable (junk data) in
theorem appendBody_eq (holds : Holds s got) (small : 2 * (got ++ data).length + 4096 < 2 ^ 31)
    (first : s.body = none → data.length ≤ 65536) :
    ∃ s', appendBody junk s data = some s' ∧ SameButBody s s' ∧ s'.body ≠ none ∧
      Holds s' (got ++ data) := by
  rw [List.length_append] at small
  obtain ⟨s', block, reserved, same, isBody, length, read, room, front⟩ :=
    reserve_eq junk holds small first
  have inside : s'.bodyRead + data.length ≤ block.length := by omega
  obtain ⟨block', written⟩ : ∃ block', writeAt block s'.bodyRead data = some block' :=
    ⟨_, writeAt_eq_some inside⟩
  refine ⟨{ s' with body := some block', bodyRead := s'.bodyRead + data.length }, ?_,
    ⟨same.1, same.2, same.3, same.4, same.5⟩, Option.some_ne_none _, ?_⟩
  · rw [appendBody, reserved, Option.bind_some, isBody, Option.bind_some, written]
    rfl
  · refine ⟨(length_writeAt written).trans length, ?_, ?_, ?_⟩
    · rw [List.length_append, read]
    · rw [length_writeAt written, List.length_append]
      omega
    · have whole := take_writeAt written
      rw [List.length_append, ← read, whole, read, front]

end Append

/-! ## Where a chunked body is cut -/

def textOf (chunks : List Chunk) : List UInt8 := chunks.flatMap Chunk.text

def dataOf (chunks : List Chunk) : List UInt8 := chunks.flatMap Chunk.data

/-- The last chunk is the one without data. -/
def ChunksOk : List Chunk → Prop
  | [] => False
  | [c] => c.data = []
  | c :: d :: cs => c.data ≠ [] ∧ ChunksOk (d :: cs)

/-- A line for a size fits into the smallest buffer. -/
def SizesOk (chunks : List Chunk) : Prop := ∀ c ∈ chunks, c.digits.length + 2 ≤ 65536

/-- The decoder has collected `got` in front of or in chunk `c`, which `cs` follow. -/
structure Collecting (response : HttpResponse) (body : List UInt8) (c : Chunk) (cs : List Chunk)
    (got : List UInt8) (s : RespDecoder) : Prop where
  response : s.response = response
  ok : ChunksOk (c :: cs)
  sizes : SizesOk (c :: cs)
  holds : Holds s got
  bound : c.data.length ≤ body.length

/-- `ReadChunkSize` is entered with `cur` in the buffer. -/
structure Ready (response : HttpResponse) (body rest : List UInt8) (c : Chunk) (cs : List Chunk)
    (got cur : List UInt8) (s : RespDecoder) : Prop
    extends Collecting response body c cs got s where
  status : s.status = .chunkSize
  slice : s.lines.current = cur
  start : s.lines.lineStart + cur.length = s.lines.length
  filled : s.lines.length ≤ s.lines.block.length
  pos : ∃ k ≤ cur.length, s.lines.parsePos = s.lines.lineStart + min k c.digits.length
  first : s.body = none → s.chunkSize = 0 ∧ s.lines.block.length ≤ 65536
  chunkLeft : s.chunkLeft = 0
  chunkSize : 0 ≤ s.chunkSize ∧ s.chunkSize ≤ body.length
  stream : cur ++ rest = textOf (c :: cs)
  whole : got ++ dataOf (c :: cs) = body

/-- The decoder waits for the rest of the size of chunk `c`. -/
structure AtSize (response : HttpResponse) (body rest : List UInt8) (c : Chunk) (cs : List Chunk)
    (got part : List UInt8) (s : RespDecoder) : Prop
    extends Ready response body rest c cs got part s where
  short : part.length < c.digits.length + 2
  scanned : s.lines.parsePos = s.lines.lineStart + min part.length c.digits.length

/-- `ReadChunkData` is entered with `tail` unread and `left` missing. -/
structure Loaded (response : HttpResponse) (body rest : List UInt8) (c : Chunk) (cs : List Chunk)
    (got left tail : List UInt8) (s : RespDecoder) : Prop
    extends Collecting response body c cs got s where
  status : left ≠ [] → s.status = .chunkData
  unread : s.lines.unread = tail
  total : s.lines.parsePos + tail.length = s.lines.length
  positive : 0 < s.lines.length
  filled : s.lines.length ≤ s.lines.block.length
  first : s.body = none → s.lines.block.length ≤ 65536
  chunkLeft : s.chunkLeft = left.length
  chunkSize : s.chunkSize = c.data.length
  stream : tail ++ rest = left ++ crlf ++ textOf cs
  whole : got ++ left ++ dataOf cs = body

/-- The decoder waits for `left`, the rest of the data of chunk `c`. -/
structure InData (response : HttpResponse) (body rest : List UInt8) (c : Chunk) (cs : List Chunk)
    (got left : List UInt8) (s : RespDecoder) : Prop
    extends Collecting response body c cs got s where
  status : s.status = .chunkData
  lines : s.lines = { block := s.lines.block }
  started : s.body ≠ none
  chunkLeft : s.chunkLeft = left.length
  chunkSize : s.chunkSize = c.data.length
  stream : rest = left ++ crlf ++ textOf cs
  whole : got ++ left ++ dataOf cs = body

/-- The decoder waits behind the data of chunk `c` or behind the carriage return there. -/
structure InTrailer (response : HttpResponse) (body rest : List UInt8) (c : Chunk)
    (cs : List Chunk) (got : List UInt8) (s : RespDecoder) : Prop
    extends Collecting response body c cs got s where
  status : s.status = .chunkTrailer
  lines : s.lines = { block := s.lines.block, length := 1 }
  size : 1 ≤ s.lines.block.length
  started : s.body ≠ none
  chunkLeft : s.chunkLeft = 0
  chunkSize : s.chunkSize = c.data.length
  stream : rest = crlf ++ textOf cs ∨ (rest = 10 :: textOf cs ∧ s.lines.block[0]? = some 13)
  whole : got ++ dataOf cs = body

/-- Between two pieces of a chunked body, `rest` of which is still to come. -/
def Mid (response : HttpResponse) (body rest : List UInt8) (s : RespDecoder) : Prop :=
  (∃ c cs got part, AtSize response body rest c cs got part s) ∨
    (∃ c cs got left, InData response body rest c cs got left s) ∨
    ∃ c cs got, InTrailer response body rest c cs got s

/-- A piece leads to another such state, or to the end of the response. -/
def Outcome (response : HttpResponse) (body rest : List UInt8)
    (result : Option (Int × RespDecoder)) : Prop :=
  (∃ s, result = some (0, s) ∧ Mid response body rest s) ∨
    (rest = [] ∧ ∃ s, result = some (1, s) ∧ s.response = response ∧ Holds s body)

section Chunks

variable {junk : Nat → UInt8} {response : HttpResponse} {body rest got left tail cur : List UInt8}
  {c : Chunk} {cs : List Chunk} {s : RespDecoder}
  {next : RespDecoder → Option (Int × RespDecoder)}

theorem textOf_cons (c : Chunk) (cs : List Chunk) :
    textOf (c :: cs) = c.digits ++ crlf ++ (c.data ++ crlf ++ textOf cs) := by
  simp [textOf, Chunk.text]

theorem dataOf_cons (c : Chunk) (cs : List Chunk) : dataOf (c :: cs) = c.data ++ dataOf cs := rfl

/-- Bytes behind `parse_pos_` that are skipped. -/
theorem drop_unread {lines : LineBuffer} {x y : List UInt8} (unread : lines.unread = x ++ y) :
    (lines.block.take lines.length).drop (lines.parsePos + x.length) = y := by
  unfold LineBuffer.unread at unread
  rw [← List.drop_drop, unread, List.drop_left' rfl]

/-- The end of a chunk, with the next one behind it. -/
theorem readChunkTrailer_next {d : Chunk} {ds : List Chunk}
    (loaded : Loaded response body rest c (d :: ds) got [] (crlf ++ tail) s)
    (started : s.body ≠ none) :
    ∃ s', readChunkTrailer next s = next s' ∧ Ready response body rest d ds got tail s' := by
  obtain ⟨some', ok⟩ := loaded.ok
  have nonzero : ¬ s.chunkSize = 0 := by
    have := List.length_pos_of_ne_nil some'
    rw [loaded.chunkSize]
    omega
  have length : (crlf ++ tail).length = 2 + tail.length := List.length_append
  have total := loaded.total
  have whole := loaded.whole
  have ahead : tail ++ rest = textOf (d :: ds) := by
    have stream := loaded.stream
    rw [List.nil_append, List.append_assoc] at stream
    exact List.append_cancel_left stream
  rw [List.append_nil] at whole
  have bounds := congrArg List.length whole
  rw [List.length_append, dataOf_cons, List.length_append] at bounds
  refine ⟨{ s with
    status := .chunkSize
    lines := { s.lines with parsePos := s.lines.parsePos + 2, lineStart := s.lines.parsePos + 2 } },
    ?_, {
      response := loaded.response, ok := ok, holds := loaded.holds, status := rfl,
      sizes := fun c' member => loaded.sizes c' (List.mem_cons_of_mem _ member),
      bound := by omega, slice := drop_unread loaded.unread, start := ?_, filled := loaded.filled,
      pos := ⟨0, Nat.zero_le _, by rw [Nat.zero_min]⟩, first := fun none' => absurd none' started,
      chunkLeft := loaded.chunkLeft, chunkSize := ?_, stream := ahead, whole := whole }⟩
  · unfold readChunkTrailer
    dsimp only
    rw [if_pos (by omega), if_neg nonzero]
  · dsimp only
    omega
  · have bound := loaded.bound
    have same := loaded.chunkSize
    dsimp only
    omega

/-- The end of the last chunk. -/
theorem readChunkTrailer_last (loaded : Loaded response body rest c [] got [] (crlf ++ tail) s) :
    rest = [] ∧ readChunkTrailer next s = some (1, s) ∧ Holds s body := by
  have empty : c.data = [] := loaded.ok
  have stream := loaded.stream
  rw [List.nil_append, List.append_assoc] at stream
  obtain ⟨rfl, none'⟩ := List.append_eq_nil_iff.mp (List.append_cancel_left stream)
  have whole := loaded.whole
  rw [List.append_nil] at whole
  have total := loaded.total
  have two : (crlf ++ ([] : List UInt8)).length = 2 := rfl
  have zero : s.chunkSize = 0 := by
    rw [loaded.chunkSize, empty]
    rfl
  refine ⟨none', ?_, ?_⟩
  · unfold readChunkTrailer
    dsimp only
    rw [if_pos (by omega), if_pos zero, if_neg (by omega)]
  · rw [← whole]
    exact (List.append_nil got).symm ▸ loaded.holds

/-- The last byte of the buffer is kept when a piece ends in front of or in the end of a chunk. -/
theorem readChunkTrailer_keep (loaded : Loaded response body rest c cs got [] tail s)
    (started : s.body ≠ none) (status : s.status = .chunkTrailer) (short : tail.length < 2) :
    ∃ s', readChunkTrailer next s = some (0, s') ∧ InTrailer response body rest c cs got s' := by
  have total := loaded.total
  have positive := loaded.positive
  have filled := loaded.filled
  have whole := loaded.whole
  have stream := loaded.stream
  rw [List.append_nil] at whole
  rw [List.nil_append] at stream
  obtain ⟨last, isLast⟩ : ∃ last, s.lines.block[s.lines.length - 1]? = some last :=
    ⟨_, List.getElem?_eq_getElem (by omega)⟩
  have room : 0 + ([last] : List UInt8).length ≤ s.lines.block.length := by
    rw [List.length_singleton]
    omega
  obtain ⟨block, written⟩ : ∃ block, writeAt s.lines.block 0 [last] = some block :=
    ⟨_, writeAt_eq_some room⟩
  refine ⟨{ s with lines := { block := block, length := 1 } }, ?_, {
    response := loaded.response, ok := loaded.ok, sizes := loaded.sizes, holds := loaded.holds,
    bound := loaded.bound, status := status, lines := rfl, started := started,
    size := by rw [length_writeAt written]; omega,
    chunkLeft := loaded.chunkLeft, chunkSize := loaded.chunkSize, stream := ?_, whole := whole }⟩
  · unfold readChunkTrailer
    dsimp only
    rw [if_neg (by omega), if_neg (by omega), isLast, Option.bind_some, written]
    rfl
  · cases tail with
    | nil => exact Or.inl stream
    | cons byte tail =>
        obtain rfl : tail = [] := List.length_eq_zero_iff.mp (by
          rw [List.length_cons] at short
          omega)
        obtain ⟨rfl, ahead⟩ := List.cons.inj stream
        refine Or.inr ⟨ahead, ?_⟩
        have unread := congrArg (fun xs => xs[0]?) loaded.unread
        unfold LineBuffer.unread at unread
        rw [List.length_singleton] at total
        simp only [List.getElem?_drop, List.getElem?_cons_zero, Nat.add_zero] at unread
        rw [List.getElem?_take_of_lt (by omega)] at unread
        have same : s.lines.length - 1 = s.lines.parsePos := by omega
        rw [same, unread] at isLast
        rw [getElem?_writeAt written 0, if_pos (by rw [List.length_singleton]; omega),
          ← Option.some.inj isLast]
        rfl

/-- The end of a chunk. -/
theorem readChunkTrailer_outcome (loaded : Loaded response body rest c cs got [] tail s)
    (started : s.body ≠ none) (status : s.status = .chunkTrailer)
    (nextOk : ∀ d ds cur s', Ready response body rest d ds got cur s' →
      cur.length ≤ tail.length → Outcome response body rest (next s')) :
    Outcome response body rest (readChunkTrailer next s) := by
  by_cases short : tail.length < 2
  · obtain ⟨s', kept, inTrailer⟩ := readChunkTrailer_keep loaded started status short
    exact Or.inl ⟨s', kept, Or.inr (Or.inr ⟨c, cs, got, inTrailer⟩)⟩
  · obtain ⟨tail', rfl⟩ : crlf <+: tail := by
      have stream := loaded.stream
      rw [List.nil_append] at stream
      exact List.prefix_of_prefix_length_le (List.prefix_append _ _)
        (stream ▸ List.prefix_append _ _) (Nat.not_lt.mp short)
    cases cs with
    | nil =>
        obtain ⟨none', done, holds⟩ := readChunkTrailer_last loaded
        exact Or.inr ⟨none', s, done, loaded.response, holds⟩
    | cons d ds =>
        obtain ⟨s', entered, ready⟩ := readChunkTrailer_next loaded started
        rw [entered]
        refine nextOk d ds tail' s' ready ?_
        rw [List.length_append]
        exact Nat.le_add_left _ _

theorem length_unread_le (lines : LineBuffer) : lines.unread.length ≤ lines.block.length := by
  rw [LineBuffer.unread, List.length_drop, List.length_take]
  omega

variable (junk) in
/-- The data of a chunk. -/
theorem readChunkData_outcome (loaded : Loaded response body rest c cs got left tail s)
    (small : 2 * body.length + 4096 < 2 ^ 31)
    (nextOk : ∀ d ds got' cur s', Ready response body rest d ds got' cur s' →
      cur.length ≤ tail.length → Outcome response body rest (next s')) :
    Outcome response body rest (readChunkData junk next s) := by
  have natural : ¬ s.chunkLeft < 0 := by
    rw [loaded.chunkLeft]
    omega
  have whole := loaded.whole
  have count := congrArg List.length whole
  rw [List.length_append, List.length_append] at count
  have stream := loaded.stream
  unfold readChunkData
  rw [if_neg natural, loaded.chunkLeft, loaded.unread, Int.toNat_natCast]
  by_cases enough : left.length ≤ tail.length
  · -- the data ends in the buffer
    obtain ⟨tail', rfl⟩ : left <+: tail :=
      List.prefix_of_prefix_length_le (by rw [List.append_assoc]; exact List.prefix_append _ _)
        (stream ▸ List.prefix_append _ _) enough
    rw [if_pos (by omega), List.take_left' rfl]
    have fits : left.length ≤ s.lines.block.length := by
      have bound := length_unread_le s.lines
      rw [loaded.unread] at bound
      omega
    obtain ⟨s', appended, same, started, holds⟩ := appendBody_eq junk left loaded.holds
      (by rw [List.length_append]; omega) (fun none' => Nat.le_trans fits (loaded.first none'))
    rw [appended, Option.bind_some, same.lines, same.chunkLeft, loaded.chunkLeft,
      Int.toNat_natCast]
    have total := loaded.total
    rw [List.length_append] at total
    rw [List.append_assoc, List.append_assoc] at stream
    have loaded' : Loaded response body rest c cs (got ++ left) [] tail' { s' with
        status := .chunkTrailer, chunkLeft := 0
        lines := { s.lines with parsePos := s.lines.parsePos + left.length } } := {
      response := same.response.trans loaded.response, ok := loaded.ok, sizes := loaded.sizes,
      holds := holds, bound := loaded.bound, status := fun some' => absurd rfl some',
      unread := drop_unread loaded.unread, total := by dsimp only; omega,
      positive := loaded.positive, filled := loaded.filled,
      first := fun none' => absurd none' started, chunkLeft := rfl,
      chunkSize := same.chunkSize.trans loaded.chunkSize,
      stream := List.append_cancel_left stream, whole := by rw [List.append_nil]; exact whole }
    refine readChunkTrailer_outcome loaded' started rfl fun d ds cur s'' ready bound =>
      nextOk d ds _ cur s'' ready (Nat.le_trans bound ?_)
    rw [List.length_append]
    exact Nat.le_add_left _ _
  · -- the rest of the data comes with later pieces
    obtain ⟨left', rfl⟩ : tail <+: left :=
      List.prefix_of_prefix_length_le (stream ▸ List.prefix_append _ _)
        (by rw [List.append_assoc]; exact List.prefix_append _ _) (by omega)
    rw [List.length_append] at enough count
    rw [if_neg (by rw [List.length_append]; omega)]
    have fits : tail.length ≤ s.lines.block.length := by
      have bound := length_unread_le s.lines
      rwa [loaded.unread] at bound
    obtain ⟨s', appended, same, started, holds⟩ := appendBody_eq junk tail loaded.holds
      (by rw [List.length_append]; omega) (fun none' => Nat.le_trans fits (loaded.first none'))
    rw [appended]
    refine Or.inl ⟨_, rfl, Or.inr (Or.inl ⟨c, cs, got ++ tail, left', {
      response := same.response.trans loaded.response, ok := loaded.ok, sizes := loaded.sizes,
      holds := holds, bound := loaded.bound,
      status := same.status.trans (loaded.status ?_), lines := rfl, started := started,
      chunkLeft := ?_, chunkSize := same.chunkSize.trans loaded.chunkSize, stream := ?_,
      whole := ?_ }⟩)⟩
    · refine List.ne_nil_of_length_pos ?_
      rw [List.length_append]
      omega
    · rw [List.length_append]
      dsimp only
      omega
    · rw [List.append_assoc, List.append_assoc] at stream
      rw [List.append_cancel_left stream, List.append_assoc]
    · rw [← List.append_assoc] at whole
      exact whole

theorem Chunk.digits_plain (c : Chunk) : ∀ b ∈ c.digits, b ≠ 13 := by
  rintro b member rfl
  obtain ⟨d, _, digit⟩ := c.digitsOk 13 member
  cases digit

/-- The block from `line_start_` on. -/
theorem drop_lineStart {lines : LineBuffer} (slice : lines.current = cur)
    (start : lines.lineStart + cur.length = lines.length)
    (filled : lines.length ≤ lines.block.length) :
    lines.block.drop lines.lineStart = cur ++ lines.block.drop lines.length := by
  have whole := List.take_append_drop lines.length lines.block
  have inside : lines.lineStart ≤ (lines.block.take lines.length).length := by
    rw [List.length_take]
    omega
  calc lines.block.drop lines.lineStart
      = (lines.block.take lines.length ++ lines.block.drop lines.length).drop lines.lineStart := by
        rw [whole]
    _ = lines.current ++ lines.block.drop lines.length :=
        List.drop_append_of_le_length inside
    _ = cur ++ lines.block.drop lines.length := by rw [slice]

theorem Chunk.strtol_eq (c : Chunk) (small : c.data.length < 2 ^ 31) (rest : List UInt8) :
    toInt32 (strtol 16 (c.digits ++ crlf ++ rest)) = c.data.length := by
  have read := strtol_digits c.digitsOk c.named (by rfl : digitValue 13 = none) (10 :: rest)
    (by rw [c.size]; exact small)
  rw [c.size] at read
  rw [List.append_assoc]
  exact read

/-- The line for a size is open. -/
theorem Ready.waits (ready : Ready response body rest c cs got cur s)
    (isPart : cur <+: c.digits ++ crlf) (short : cur.length < c.digits.length + 2) :
    ∃ lines, s.lines.searchEol = (lines, none) ∧
      AtSize response body rest c cs got cur { s with lines := lines } := by
  obtain ⟨k, seen, pos⟩ := ready.pos
  have search := searchEol_waits c.digits_plain isPart short seen s.lines.lineStart
  exact ⟨_, searchEol_current ready.slice pos search, {
    toCollecting := ⟨ready.response, ready.ok, ready.sizes, ready.holds, ready.bound⟩
    status := ready.status, slice := ready.slice, start := ready.start, filled := ready.filled
    pos := ⟨cur.length, Nat.le_refl _, rfl⟩, first := ready.first, chunkLeft := ready.chunkLeft
    chunkSize := ready.chunkSize, stream := ready.stream, whole := ready.whole, short := short
    scanned := rfl }⟩

/-- The line for a size is complete. -/
theorem Ready.loaded (ready : Ready response body rest c cs got cur s)
    (small : 2 * body.length + 4096 < 2 ^ 31) (done : cur = c.digits ++ crlf ++ tail)
    (ahead : tail ++ rest = c.data ++ crlf ++ textOf cs) :
    ∃ lines lineEnd, s.lines.searchEol = (lines, some lineEnd) ∧
      toInt32 (strtol 16 (lines.block.drop lines.lineStart)) = c.data.length ∧
      Loaded response body rest c cs got c.data tail { s with
        lines := lines, status := .chunkData
        chunkSize := (c.data.length : Int), chunkLeft := (c.data.length : Int) } := by
  obtain ⟨k, _, pos⟩ := ready.pos
  have slice := ready.slice
  have start := ready.start
  have filled := ready.filled
  rw [done] at slice start
  have search := searchEol_finds c.digits_plain tail k s.lines.lineStart
  have bound := ready.bound
  have length : (c.digits ++ crlf ++ tail).length = c.digits.length + 2 + tail.length := by
    rw [List.length_append, List.length_append]
    rfl
  refine ⟨_, _, searchEol_current slice pos search, ?_, {
    toCollecting := ⟨ready.response, ready.ok, ready.sizes, ready.holds, ready.bound⟩
    status := fun _ => rfl, unread := ?_, total := ?_, positive := ?_, filled := filled
    first := fun none' => (ready.first none').2, chunkLeft := rfl, chunkSize := rfl
    stream := ahead, whole := ?_ }⟩
  · dsimp only
    rw [drop_lineStart slice start filled, List.append_assoc (c.digits ++ crlf)]
    exact c.strtol_eq (by omega) _
  · unfold LineBuffer.unread LineBuffer.current at *
    dsimp only
    rw [Nat.add_assoc, ← List.drop_drop, slice]
    exact List.drop_left' List.length_append
  · dsimp only
    omega
  · dsimp only
    omega
  · rw [List.append_assoc]
    exact ready.whole

variable (junk) in
/-- One chunk, as far as it lies in the buffer. -/
theorem readChunkSize_step (small : 2 * body.length + 4096 < 2 ^ 31) {fuel : Nat}
    (enough : cur.length < fuel + 1) (ready : Ready response body rest c cs got cur s)
    (nextOk : ∀ d ds got' cur' s', Ready response body rest d ds got' cur' s' →
      cur'.length < fuel → Outcome response body rest (readChunkSize junk fuel s')) :
    Outcome response body rest (readChunkSize junk (fuel + 1) s) := by
  have stream : cur ++ [] ++ rest = c.digits ++ crlf ++ (c.data ++ crlf ++ textOf cs) := by
    rw [List.append_nil, ready.stream, textOf_cons]
  rw [readChunkSize]
  rcases piece_cases stream with ⟨short, isPart⟩ | ⟨tail, done, ahead⟩
  · rw [List.append_nil] at short isPart
    obtain ⟨lines, search, atSize⟩ := ready.waits isPart short
    rw [search]
    exact Or.inl ⟨_, rfl, Or.inl ⟨c, cs, got, cur, atSize⟩⟩
  · rw [List.append_nil] at done
    obtain ⟨lines, lineEnd, search, size, loaded⟩ := ready.loaded small done ahead
    rw [search]
    dsimp only
    rw [size]
    rw [done] at enough
    have less := length_lt_of_line enough
    exact readChunkData_outcome junk loaded small fun d ds got' cur' s' ready' bound =>
      nextOk d ds got' cur' s' ready' (Nat.lt_of_le_of_lt bound less)

variable (junk) in
/-- All chunks that lie in the buffer. -/
theorem readChunkSize_outcome (small : 2 * body.length + 4096 < 2 ^ 31) {fuel : Nat}
    (enough : cur.length < fuel) (ready : Ready response body rest c cs got cur s) :
    Outcome response body rest (readChunkSize junk fuel s) := by
  induction fuel generalizing c cs got cur s with
  | zero => exact absurd enough (Nat.not_lt_zero _)
  | succ fuel ih =>
      exact readChunkSize_step junk small enough ready fun d ds got' cur' s' ready' enough' =>
        ih enough' ready'

end Chunks

/-! ## One exchange -/

/-- What the reader sees of a return code. -/
def conclude (result : Int × RespDecoder) : Option (RespDecoder × List HttpResponse) :=
  if result.1 = 0 then some (result.2, [])
  else if result.1 = 1 then some ((message result.2).2.reset, [(message result.2).1])
  else none

/-- The buffer is replaced before the next piece. -/
def grows (s : RespDecoder) : Bool :=
  (needMin s).any fun need => s.lines.block.length - s.lines.length < need

section Exchange

variable {junk : Nat → UInt8} {s : RespDecoder} {piece : List UInt8} {lines : LineBuffer}

theorem feed_conclude (buf : Place) (length : Nat) :
    ((feed junk s buf length).bind fun (code, s, msgs) =>
      if code < 0 then none else some (s, msgs)) = (parse junk s buf length).bind conclude := by
  unfold feed
  cases parse junk s buf length with
  | none => rfl
  | some result =>
      obtain ⟨ret, s⟩ := result
      rw [Option.map_some, Option.bind_some, Option.bind_some, conclude]
      dsimp only
      by_cases zero : ret = 0
      · rw [if_pos zero, if_pos zero]
        rfl
      · rw [if_neg zero, if_neg zero]
        by_cases one : ret = 1
        · rw [if_pos one, if_pos one]
          rfl
        · rw [if_neg one, if_neg one]
          rfl

theorem deliver_firstLine (status : s.status = .firstLine)
    (copied : s.lines.copy piece = some lines) :
    deliver junk s piece =
      (parseFirstLine junk { s with lines := lines.grow piece.length }).bind conclude := by
  obtain ⟨block, written, rfl⟩ := Option.map_eq_some_iff.mp copied
  simp only [deliver, getBuffer, status, store, written, Option.map_some, Option.bind_some]
  rw [feed_conclude]
  simp only [parse, if_true]

theorem deliver_body {block block' : List UInt8} (status : s.status = .body)
    (isBody : s.body = some block) (written : writeAt block s.bodyRead piece = some block') :
    deliver junk s piece =
      conclude (readBody { s with body := some block', bodyRead := s.bodyRead + piece.length },
        { s with body := some block', bodyRead := s.bodyRead + piece.length }) := by
  simp only [deliver, getBuffer, status, store, isBody, written, Option.map_some, Option.bind_some]
  rw [feed_conclude]
  simp only [parse, if_true, Option.bind_some]

theorem deliver_chunkSize {old : LineBuffer} (status : s.status = .chunkSize)
    (enlarged : enlarge junk s = some { s with lines := old })
    (copied : old.copy piece = some lines) :
    deliver junk s piece =
      (readChunkSize junk (old.length + piece.length + 1)
        { s with lines := lines.grow piece.length }).bind conclude := by
  obtain ⟨block, written, rfl⟩ := Option.map_eq_some_iff.mp copied
  simp only [deliver, getBuffer, status, enlarged, store, written, Option.map_some,
    Option.bind_some]
  rw [feed_conclude]
  simp only [parse, if_true]
  rfl

theorem deliver_chunkData {old : LineBuffer}
    (status : s.status = .chunkData ∨ s.status = .chunkTrailer)
    (enlarged : enlarge junk s = some { s with lines := old })
    (copied : old.copy piece = some lines) :
    deliver junk s piece =
      (readChunkData junk (readChunkSize junk (old.length + piece.length + 1))
        { s with lines := lines.grow piece.length }).bind conclude := by
  obtain ⟨block, written, rfl⟩ := Option.map_eq_some_iff.mp copied
  rcases status with status | status
  all_goals
    simp only [deliver, getBuffer, status, enlarged, store, written, Option.map_some,
      Option.bind_some]
    rw [feed_conclude]
    simp only [parse, if_true]
    rfl

variable (junk) in
/-- The buffer for the next piece of a chunked body. -/
theorem enlarge_eq (range : 0 ≤ s.chunkLeft ∧ 0 ≤ s.chunkSize ∧
      s.chunkLeft + 64 + s.chunkSize < 2 ^ 31)
    (inside : s.lines.lineStart ≤ s.lines.length ∧ s.lines.length ≤ s.lines.block.length)
    (small : s.lines.length - s.lines.lineStart ≤ 65536) :
    ∃ lines, enlarge junk s = some { s with lines := lines } ∧
      ((grows s = false ∧ lines = s.lines) ∨
        (grows s = true ∧ lines.length = s.lines.length - s.lines.lineStart ∧
          lines.lineStart = 0 ∧ lines.parsePos = s.lines.length - s.lines.parsePos ∧
          lines.current = s.lines.current ∧
          lines.block.length = (max (s.chunkLeft + 64 + s.chunkSize) 65536).toNat)) := by
  have need : needMin s = some (max (s.chunkLeft + 64 + s.chunkSize) 65536).toNat := by
    rw [needMin, checked, if_pos (by omega)]
    rfl
  have decided : grows s = decide (s.lines.block.length - s.lines.length <
      (max (s.chunkLeft + 64 + s.chunkSize) 65536).toNat) := by
    rw [grows, need]
    rfl
  rw [enlarge, need, Option.bind_some, decided]
  generalize isNeed : (max (s.chunkLeft + 64 + s.chunkSize) 65536).toNat = n
  have atLeast : 65536 ≤ n := by omega
  by_cases short : s.lines.block.length - s.lines.length < n
  · have current : s.lines.current.length = s.lines.length - s.lines.lineStart := by
      rw [LineBuffer.current, List.length_drop, List.length_take]
      omega
    have room : 0 + s.lines.current.length ≤ (malloc junk n).length := by
      rw [length_malloc]
      omega
    obtain ⟨block, written⟩ : ∃ block, writeAt (malloc junk n) 0 s.lines.current = some block :=
      ⟨_, writeAt_eq_some room⟩
    refine ⟨{
      block := block, length := s.lines.length - s.lines.lineStart, lineStart := 0
      parsePos := s.lines.length - s.lines.parsePos }, ?_,
      Or.inr ⟨decide_eq_true short, rfl, rfl, rfl, ?_, ?_⟩⟩
    · rw [if_pos short, written]
      rfl
    · have whole := take_writeAt written
      rw [Nat.zero_add, current, List.take_zero, List.nil_append] at whole
      exact whole
    · exact (length_writeAt written).trans (length_malloc _ _)
  · exact ⟨s.lines, if_neg short, Or.inl ⟨decide_eq_false short, rfl⟩⟩

end Exchange

/-! ## A piece of a chunked body -/

/-- A piece that the decoder receives between the data of a chunk and the end of the chunk: when the
buffer is replaced, the byte that was kept is skipped, otherwise it is read again. -/
def AlignedPiece (s : RespDecoder) (piece : List UInt8) : Prop :=
  s.status = .chunkTrailer → (grows s = true ↔ piece.head? = some 13)

instance (s : RespDecoder) (piece : List UInt8) : Decidable (AlignedPiece s piece) :=
  inferInstanceAs (Decidable (_ → _))

section Pieces

variable {junk : Nat → UInt8} {response : HttpResponse} {body rest got left part piece : List UInt8}
  {c : Chunk} {cs : List Chunk} {s : RespDecoder}

theorem Collecting.of_same {s' : RespDecoder} (collecting : Collecting response body c cs got s)
    (same : s' = { s with lines := s'.lines }) : Collecting response body c cs got s' := by
  rw [same]
  exact ⟨collecting.response, collecting.ok, collecting.sizes, collecting.holds, collecting.bound⟩

theorem offered_eq {lines : LineBuffer} (status : s.status = .chunkSize ∨ s.status = .chunkData ∨
      s.status = .chunkTrailer) (enlarged : enlarge junk s = some { s with lines := lines }) :
    (decoder junk).offered s = some (lines.block.length - lines.length) := by
  rcases status with status | status | status
  all_goals
    simp only [decoder, getBuffer, status, enlarged, Option.map_some]

variable (junk) in
/-- A piece that arrives in a line for a size. -/
theorem AtSize.deliver_outcome (atSize : AtSize response body (piece ++ rest) c cs got part s)
    (small : 2 * body.length + 4096 < 2 ^ 31)
    (room : ∀ n, (decoder junk).offered s = some n → piece.length ≤ n) :
    ∃ result, deliver junk s piece = result.bind conclude ∧
      Outcome response body rest result := by
  have start := atSize.start
  have filled := atSize.filled
  have scanned := atSize.scanned
  have short := atSize.short
  have size := atSize.sizes c (List.mem_cons_self ..)
  have chunkSize := atSize.chunkSize
  have named := List.length_pos_of_ne_nil c.named
  obtain ⟨lines, enlarged, cases'⟩ := enlarge_eq junk
    (by rw [atSize.chunkLeft]; omega) ⟨by omega, filled⟩ (by omega)
  -- after the replacement the search starts at the first or the second character of the line
  have moved : lines.current = part ∧ lines.lineStart + part.length = lines.length ∧
      lines.length ≤ lines.block.length ∧
      (∃ k ≤ part.length, lines.parsePos = lines.lineStart + min k c.digits.length) ∧
      (s.body = none → lines.block.length ≤ 65536) := by
    rcases cases' with ⟨_, rfl⟩ | ⟨_, length, lineStart, parsePos, current, block⟩
    · exact ⟨atSize.slice, start, filled, ⟨part.length, Nat.le_refl _, scanned⟩,
        fun none' => (atSize.first none').2⟩
    · refine ⟨current.trans atSize.slice, by omega, by omega,
        ⟨s.lines.length - s.lines.parsePos, by omega, by omega⟩, fun none' => ?_⟩
      rw [block, atSize.chunkLeft, (atSize.first none').1]
      decide
  obtain ⟨current, start', filled', ⟨k, seen, pos⟩, first⟩ := moved
  have fits := room _ (offered_eq (Or.inl atSize.status) enlarged)
  obtain ⟨b, copied, blockLength, length, lineStart, parsePos, grown⟩ :=
    copy_eq (b := lines) (by omega : lines.length + piece.length ≤ lines.block.length)
  have ready : Ready response body rest c cs got (part ++ piece)
      { s with lines := b.grow piece.length } := {
    toCollecting := atSize.toCollecting.of_same rfl
    status := atSize.status
    slice := by
      unfold LineBuffer.current LineBuffer.grow
      dsimp only
      rw [lineStart, length, grown _ (by omega)]
      exact congrArg (· ++ piece) current
    start := by
      rw [List.length_append]
      show b.lineStart + _ = b.length + piece.length
      omega
    filled := by
      show b.length + piece.length ≤ b.block.length
      omega
    pos := ⟨k, by rw [List.length_append]; omega, by
      show b.parsePos = b.lineStart + _
      rw [parsePos, lineStart, pos]⟩
    first := fun none' => ⟨(atSize.first none').1, Nat.le_trans (Nat.le_of_eq blockLength)
      (first none')⟩
    chunkLeft := atSize.chunkLeft
    chunkSize := atSize.chunkSize
    stream := by
      rw [List.append_assoc]
      exact atSize.stream
    whole := atSize.whole }
  refine ⟨_, deliver_chunkSize atSize.status enlarged copied,
    readChunkSize_outcome junk small ?_ ready⟩
  rw [List.length_append]
  omega

variable (junk) in
/-- `ReadChunkData` with a piece in the buffer. -/
theorem Loaded.deliver_outcome {lines b : LineBuffer} {tail : List UInt8}
    (status : s.status = .chunkData ∨ s.status = .chunkTrailer)
    (small : 2 * body.length + 4096 < 2 ^ 31)
    (enlarged : enlarge junk s = some { s with lines := lines })
    (copied : lines.copy piece = some b) (bound : tail.length ≤ lines.length + piece.length)
    (loaded : Loaded response body rest c cs got left tail
      { s with lines := b.grow piece.length }) :
    ∃ result, deliver junk s piece = result.bind conclude ∧
      Outcome response body rest result := by
  refine ⟨_, deliver_chunkData status enlarged copied,
    readChunkData_outcome junk loaded small fun d ds got' cur s' ready less => ?_⟩
  exact readChunkSize_outcome junk small (Nat.lt_succ_of_le (Nat.le_trans less bound)) ready

variable (junk) in
/-- A piece that arrives in the data of a chunk. -/
theorem InData.deliver_outcome (inData : InData response body (piece ++ rest) c cs got left s)
    (small : 2 * body.length + 4096 < 2 ^ 31) (nonempty : piece ≠ [])
    (room : ∀ n, (decoder junk).offered s = some n → piece.length ≤ n) :
    ∃ result, deliver junk s piece = result.bind conclude ∧
      Outcome response body rest result := by
  have bound := inData.bound
  have count := congrArg List.length inData.whole
  rw [List.length_append, List.length_append] at count
  have empty : s.lines.length = 0 ∧ s.lines.lineStart = 0 ∧ s.lines.parsePos = 0 := by
    rw [inData.lines]
    exact ⟨rfl, rfl, rfl⟩
  obtain ⟨lines, enlarged, cases'⟩ := enlarge_eq junk
    (by rw [inData.chunkLeft, inData.chunkSize]; omega) ⟨by omega, by omega⟩ (by omega)
  have stays : lines.length = 0 ∧ lines.parsePos = 0 := by
    rcases cases' with ⟨_, rfl⟩ | ⟨_, length, _, parsePos, _⟩
    · exact ⟨empty.1, empty.2.2⟩
    · omega
  have fits := room _ (offered_eq (Or.inr (Or.inl inData.status)) enlarged)
  have positive := List.length_pos_of_ne_nil nonempty
  obtain ⟨b, copied, blockLength, length, _, parsePos, grown⟩ :=
    copy_eq (b := lines) (by omega : lines.length + piece.length ≤ lines.block.length)
  refine Loaded.deliver_outcome junk (Or.inl inData.status) small enlarged copied
    (Nat.le_add_left _ _) {
      toCollecting := inData.toCollecting.of_same rfl
      status := fun _ => inData.status, unread := ?_, total := ?_, positive := ?_, filled := ?_
      first := fun none' => absurd none' inData.started, chunkLeft := inData.chunkLeft
      chunkSize := inData.chunkSize, stream := inData.stream, whole := inData.whole }
  · unfold LineBuffer.unread LineBuffer.grow
    dsimp only
    rw [parsePos, length, grown _ (by omega), stays.1, List.take_zero, List.drop_nil,
      List.nil_append]
  · show b.parsePos + piece.length = b.length + piece.length
    omega
  · show 0 < b.length + piece.length
    omega
  · show b.length + piece.length ≤ b.block.length
    omega

variable (junk) in
/-- A piece that arrives in front of or in the end of a chunk. -/
theorem InTrailer.deliver_outcome (inTrailer : InTrailer response body (piece ++ rest) c cs got s)
    (small : 2 * body.length + 4096 < 2 ^ 31) (nonempty : piece ≠ [])
    (room : ∀ n, (decoder junk).offered s = some n → piece.length ≤ n)
    (aligned : AlignedPiece s piece) :
    ∃ result, deliver junk s piece = result.bind conclude ∧
      Outcome response body rest result := by
  have bound := inTrailer.bound
  have size := inTrailer.size
  have one : s.lines.length = 1 ∧ s.lines.lineStart = 0 ∧ s.lines.parsePos = 0 := by
    rw [inTrailer.lines]
    exact ⟨rfl, rfl, rfl⟩
  obtain ⟨lines, enlarged, cases'⟩ := enlarge_eq junk
    (by rw [inTrailer.chunkLeft, inTrailer.chunkSize]; omega) ⟨by omega, by omega⟩ (by omega)
  obtain ⟨first, piece', rfl⟩ := List.exists_cons_of_ne_nil nonempty
  have aligned' := aligned inTrailer.status
  rw [List.head?_cons, Option.some_inj] at aligned'
  -- what the decoder takes for the start of the end of the chunk is the part that has arrived
  obtain ⟨kept, isKept, isLength, total, ahead⟩ : ∃ kept, lines.unread = kept ∧ lines.length = 1 ∧
      lines.parsePos + kept.length = 1 ∧ kept ++ (first :: piece' ++ rest) = crlf ++ textOf cs := by
    rcases cases' with ⟨stays, rfl⟩ | ⟨replaced, length, _, parsePos, _⟩
    · rcases inTrailer.stream with stream | ⟨stream, byte⟩
      · exact absurd (aligned'.mpr (List.cons.inj stream).1) (by rw [stays]; exact Bool.false_ne_true)
      · refine ⟨[13], ?_, one.1, by rw [one.2.2, List.length_singleton], ?_⟩
        · rw [LineBuffer.unread, one.1, one.2.2, List.drop_zero]
          cases isBlock : s.lines.block with
          | nil =>
              rw [isBlock] at byte
              cases byte
          | cons x xs =>
              rw [isBlock] at byte
              rw [Option.some.inj byte]
              rfl
        · rw [stream]
          rfl
    · refine ⟨[], ?_, by omega, by rw [parsePos, List.length_nil]; omega, ?_⟩
      · rw [LineBuffer.unread, parsePos, length]
        refine List.drop_eq_nil_of_le ?_
        rw [List.length_take]
        omega
      · rcases inTrailer.stream with stream | ⟨stream, _⟩
        · exact stream
        · rw [aligned'.mp replaced] at stream
          exact absurd (List.cons.inj stream).1 (by decide)
  have fits := room _ (offered_eq (Or.inr (Or.inr inTrailer.status)) enlarged)
  rw [List.length_cons] at fits
  obtain ⟨b, copied, blockLength, length, _, parsePos, grown⟩ :=
    copy_eq (b := lines) (by rw [List.length_cons]; omega :
      lines.length + (first :: piece').length ≤ lines.block.length)
  refine Loaded.deliver_outcome junk (Or.inr inTrailer.status) small enlarged copied
    (by rw [List.length_append]; omega : (kept ++ first :: piece').length ≤ _) {
      toCollecting := inTrailer.toCollecting.of_same rfl
      status := fun some' => absurd rfl some', unread := ?_, total := ?_, positive := ?_
      filled := ?_, first := fun none' => absurd none' inTrailer.started
      chunkLeft := inTrailer.chunkLeft, chunkSize := inTrailer.chunkSize, stream := ?_, whole := ?_ }
  · unfold LineBuffer.unread LineBuffer.grow
    dsimp only
    rw [parsePos, length, grown _ (by omega)]
    exact congrArg (· ++ _) isKept
  · rw [List.length_append]
    show b.parsePos + _ = b.length + _
    omega
  · show 0 < b.length + _
    omega
  · show b.length + (first :: piece').length ≤ b.block.length
    rw [List.length_cons]
    omega
  · rw [List.append_assoc]
    exact ahead
  · rw [List.append_nil]
    exact inTrailer.whole

end Pieces

/-! ## The end of a response -/

section Finish

variable {junk : Nat → UInt8} {response : HttpResponse} {body rest got : List UInt8}
  {s : RespDecoder} {pieces : List (List UInt8)}

theorem message_of_holds (holds : Holds s body)
    (plain : s.response.contentLength = 0 ∧ s.response.content = none) :
    (message s).1 = finish s.response body := by
  have nothing : finish s.response [] = s.response := by
    rw [finish, if_pos rfl, ← plain.2, List.length_nil, Int.natCast_zero, ← plain.1]
  unfold Holds at holds
  unfold message
  cases isBody : s.body with
  | none =>
      rw [isBody] at holds
      rw [holds.1, nothing]
  | some block =>
      rw [isBody] at holds
      obtain ⟨_, read, _, front⟩ := holds
      dsimp only
      by_cases some' : 0 < s.bodyRead
      · have nonempty : body ≠ [] := List.ne_nil_of_length_pos (by omega)
        rw [if_pos some', read, front, finish, if_neg nonempty]
      · have empty : body = [] := List.length_eq_zero_iff.mp (by omega)
        rw [if_neg some', empty, nothing]

/-- The last piece hands the response over. -/
theorem conclude_one (holds : Holds s body) (isResponse : s.response = response)
    (plain : response.contentLength = 0 ∧ response.content = none) :
    conclude (1, s) = some ((message s).2.reset, [finish response body]) := by
  rw [← isResponse] at plain ⊢
  rw [← message_of_holds holds plain]
  rfl

theorem Mid.rest_ne_nil (mid : Mid response body rest s) : rest ≠ [] := by
  rintro rfl
  rcases mid with ⟨c, cs, got, part, atSize⟩ | ⟨c, cs, got, left, inData⟩ | ⟨c, cs, got, inTrailer⟩
  · have lengths := congrArg List.length atSize.stream
    have short := atSize.short
    rw [textOf_cons, List.append_nil] at lengths
    simp only [List.length_append, crlf, List.length_cons, List.length_nil] at lengths
    omega
  · have lengths := congrArg List.length inData.stream
    simp only [List.length_append, crlf, List.length_cons, List.length_nil] at lengths
    omega
  · rcases inTrailer.stream with stream | ⟨stream, _⟩
    · cases stream
    · cases stream

variable (junk) in
/-- One piece of a chunked body. -/
theorem Mid.deliver_outcome {piece : List UInt8} (mid : Mid response body (piece ++ rest) s)
    (small : 2 * body.length + 4096 < 2 ^ 31) (nonempty : piece ≠ [])
    (room : ∀ n, (decoder junk).offered s = some n → piece.length ≤ n)
    (aligned : AlignedPiece s piece) :
    ∃ result, deliver junk s piece = result.bind conclude ∧
      Outcome response body rest result := by
  rcases mid with ⟨c, cs, got, part, atSize⟩ | ⟨c, cs, got, left, inData⟩ | ⟨c, cs, got, inTrailer⟩
  · exact atSize.deliver_outcome junk small room
  · exact inData.deliver_outcome junk small nonempty room
  · exact inTrailer.deliver_outcome junk small nonempty room aligned

/-- What a reader sees of an outcome, and of the pieces behind it. -/
theorem Outcome.feedAll_eq {piece : List UInt8} {result : Option (Int × RespDecoder)}
    (outcome : Outcome response body pieces.flatten result)
    (plain : response.contentLength = 0 ∧ response.content = none)
    (delivered : deliver junk s piece = result.bind conclude)
    (within : (decoder junk).Within s (piece :: pieces))
    (later : ∀ s', deliver junk s piece = some (s', []) → Mid response body pieces.flatten s' →
      ∃ s'', (decoder junk).feedAll s' pieces = some (s'', [finish response body])) :
    ∃ s', (decoder junk).feedAll s (piece :: pieces) = some (s', [finish response body]) := by
  rcases outcome with ⟨s', rfl, mid⟩ | ⟨none', s', rfl, isResponse, holds⟩
  · have first : deliver junk s piece = some (s', []) := delivered
    obtain ⟨s'', fed⟩ := later s' first mid
    refine ⟨s'', ?_⟩
    rw [Decoder.feedAll_cons (decoder junk) _ first, fed]
    rfl
  · have first : deliver junk s piece = some ((message s').2.reset, [finish response body]) := by
      rw [delivered, Option.bind_some, conclude_one holds isResponse plain]
    obtain rfl := (within.tail first).eq_nil_of_flatten none'
    refine ⟨(message s').2.reset, ?_⟩
    rw [Decoder.feedAll_cons (decoder junk) _ first]
    rfl

/-- All pieces of the rest of a chunked body. -/
theorem Mid.feedAll_eq (mid : Mid response body pieces.flatten s)
    (small : 2 * body.length + 4096 < 2 ^ 31)
    (plain : response.contentLength = 0 ∧ response.content = none)
    (within : (decoder junk).Within s pieces)
    (aligned : (decoder junk).Always AlignedPiece s pieces) :
    ∃ s', (decoder junk).feedAll s pieces = some (s', [finish response body]) := by
  induction pieces generalizing s with
  | nil => exact absurd rfl mid.rest_ne_nil
  | cons piece pieces ih =>
      rw [List.flatten_cons] at mid
      obtain ⟨result, delivered, outcome⟩ := mid.deliver_outcome junk small within.1.1 within.1.2
        aligned.1
      exact outcome.feedAll_eq plain delivered within fun s' first mid' =>
        ih mid' (within.tail first) (aligned.2 s' [] first)

end Finish

end MlsImgSearch.Blitz.HttpRespDecoder
