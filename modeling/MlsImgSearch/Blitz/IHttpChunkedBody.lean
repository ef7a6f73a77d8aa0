import MlsImgSearch.Blitz.IHttpReqDecoder

/-!
# Chunked bodies of requests

Between two pieces of a chunked body the decoder of requests waits in the size or
in the data of a chunk. A piece that ends behind the data of a chunk makes it look
at a byte that has not arrived; every other piece leads to such a state or to the
end of the request.
-/

namespace MlsImgSearch.Blitz.IHttpReqDecoder

open MlsImgSearch.Lib.Bytes
open MlsImgSearch.Lib.Segmentation
open MlsImgSearch.Blitz.HttpCommon
open MlsImgSearch.Blitz.HttpRespDecoder (Chunk textOf dataOf ChunksOk textOf_cons dataOf_cons
  drop_unread drop_lineStart checked_eq)

/-! ## One exchange -/

section Exchange

variable {junk : Nat → UInt8} {s : ReqDecoder} {piece : List UInt8} {lines : LineBuffer}

theorem prepare_eq (made : s.lines.block ≠ []) : prepare junk s = s := if_neg made

theorem getBuffer_prepare : getBuffer junk (prepare junk s) = getBuffer junk s := by
  have again : prepare junk (prepare junk s) = prepare junk s := by
    by_cases made : s.lines.block = []
    · refine prepare_eq (List.ne_nil_of_length_pos ?_)
      rw [prepare, if_pos made]
      dsimp only
      rw [length_malloc]
      exact Nat.succ_pos _
    · rw [prepare_eq made, prepare_eq made]
  rw [getBuffer, again]
  rfl

theorem deliver_prepare : deliver junk (prepare junk s) piece = deliver junk s piece := by
  rw [deliver, getBuffer_prepare]
  rfl

/-- The decoder makes its buffer with the first piece. -/
theorem emits_prepare {rest : List (List UInt8)} {out : List IHttpRequest} :
    (decoder junk).Emits s (piece :: rest) out ↔
      (decoder junk).Emits (prepare junk s) (piece :: rest) out := by
  have same : (decoder junk).deliver (prepare junk s) piece = (decoder junk).deliver s piece :=
    deliver_prepare
  rw [Decoder.Emits, Decoder.Emits, Decoder.feedAll, Decoder.feedAll, same]

theorem within_prepare {rest : List (List UInt8)}
    (within : (decoder junk).Within s (piece :: rest)) :
    (decoder junk).Within (prepare junk s) (piece :: rest) := by
  have same : (decoder junk).offered (prepare junk s) = (decoder junk).offered s := by
    show (getBuffer junk (prepare junk s)).map _ = (getBuffer junk s).map _
    rw [getBuffer_prepare]
  refine ⟨⟨within.1.1, by rw [same]; exact within.1.2⟩, fun s' out taken => ?_⟩
  exact within.2 s' out (deliver_prepare.symm.trans taken)

theorem deliver_firstLine (made : s.lines.block ≠ []) (status : s.status = .firstLine)
    (copied : s.lines.copy piece = some lines) :
    deliver junk s piece =
      (parseFirstLine junk { s with lines := lines.grow piece.length }).bind conclude := by
  obtain ⟨block, written, rfl⟩ := Option.map_eq_some_iff.mp copied
  simp only [deliver, getBuffer, prepare_eq made, status, store, written, Option.map_some,
    Option.bind_some, feed]
  simp only [parse, if_true]

theorem deliver_body {block block' : List UInt8} (made : s.lines.block ≠ [])
    (status : s.status = .body) (isBody : s.body = some block)
    (written : writeAt block s.bodyRead piece = some block') :
    deliver junk s piece =
      (readBody { s with
        body := some block', bodyRead := s.bodyRead + piece.length }).bind conclude := by
  simp only [deliver, getBuffer, prepare_eq made, status, store, isBody, written, Option.map_some,
    Option.bind_some, feed]
  simp only [parse, if_true]

theorem deliver_chunkSize {old : LineBuffer} (made : s.lines.block ≠ [])
    (status : s.status = .chunkSize) (enlarged : enlarge junk s = some { s with lines := old })
    (copied : old.copy piece = some lines) :
    deliver junk s piece =
      (readChunkSize junk (old.length + piece.length + 1)
        { s with lines := lines.grow piece.length }).bind conclude := by
  obtain ⟨block, written, rfl⟩ := Option.map_eq_some_iff.mp copied
  simp only [deliver, getBuffer, prepare_eq made, status, enlarged, store, written, Option.map_some,
    Option.bind_some, feed]
  simp only [parse, if_true]
  rfl

theorem deliver_chunkData {old : LineBuffer} (made : s.lines.block ≠ [])
    (status : s.status = .chunkData) (enlarged : enlarge junk s = some { s with lines := old })
    (copied : old.copy piece = some lines) :
    deliver junk s piece =
      (readChunkData junk (readChunkSize junk (old.length + piece.length + 1))
        { s with lines := lines.grow piece.length }).bind conclude := by
  obtain ⟨block, written, rfl⟩ := Option.map_eq_some_iff.mp copied
  simp only [deliver, getBuffer, prepare_eq made, status, enlarged, store, written, Option.map_some,
    Option.bind_some, feed]
  simp only [parse, if_true]
  rfl

theorem room_of_within {pieces : List (List UInt8)} (made : s.lines.block ≠ [])
    (status : s.status = .firstLine) (filled : s.lines.length ≤ s.lines.block.length)
    (within : (decoder junk).Within s (piece :: pieces)) :
    s.lines.length + piece.length ≤ s.lines.block.length := by
  have bound := within.1.2 (bufSize s.lines - s.lines.length) (by
    simp only [decoder, getBuffer, prepare_eq made, status, Option.map_some])
  unfold bufSize at bound
  omega

/-- A negative code, or a byte read that has not arrived. -/
theorem conclude_past {code : Int} (past : s.past = true) : conclude (code, s) = none := if_pos past

end Exchange

/-! ## Bodies -/

/-- The request with its body as a C string. -/
def finish (request : IHttpRequest) (body : List UInt8) : IHttpRequest :=
  { request with contentLength := body.length, content := body.takeWhile (· != 0) }

/-- The decoder has collected `got`, with a zero behind it. -/
def Holds (s : ReqDecoder) (got : List UInt8) : Prop :=
  match s.body with
  | none => got = [] ∧ s.bodyRead = 0
  | some block =>
      block.length = s.bodyLength + 4 ∧ s.bodyRead = got.length ∧ got.length ≤ s.bodyLength ∧
        block.take (got.length + 1) = got ++ [0]

/-- Everything but the body is as it was. -/
structure SameButBody (s s' : ReqDecoder) : Prop where
  request : s'.request = s.request
  status : s'.status = s.status
  lines : s'.lines = s.lines
  chunkLeft : s'.chunkLeft = s.chunkLeft
  past : s'.past = s.past

section Append

variable {junk : Nat → UInt8} {s : ReqDecoder} {got data body : List UInt8}

variable (junk) in
/-- There is room for more bytes and a zero, as long as the `int` computations stay in range. -/
theorem reserve_eq (holds : Holds s got) {n : Nat} (small : got.length + n + 4 < 2 ^ 31) :
    ∃ s' block, reserve junk s n = some s' ∧ SameButBody s s' ∧ s'.body = some block ∧
      block.length = s'.bodyLength + 4 ∧ s'.bodyRead = got.length ∧ got.length + n ≤ s'.bodyLength ∧
      block.take got.length = got := by
  unfold Holds at holds
  unfold reserve
  cases isBody : s.body with
  | none =>
      rw [isBody] at holds
      obtain ⟨rfl, _⟩ := holds
      rw [List.length_nil] at small
      have cast : ((n : Int) + 4) = ((n + 4 : Nat) : Int) := by omega
      refine ⟨{ s with body := some (malloc junk (n + 4)), bodyLength := n, bodyRead := 0 },
        malloc junk (n + 4), ?_, ⟨rfl, rfl, rfl, rfl, rfl⟩, rfl, length_malloc _ _, rfl, ?_, rfl⟩
      · dsimp only
        rw [cast, checked_eq (by omega)]
        rfl
      · rw [List.length_nil]
        dsimp only
        omega
  | some block =>
      rw [isBody] at holds
      obtain ⟨length, read, inside, front⟩ := holds
      have front' : block.take got.length = got := by
        have cut := congrArg (List.take got.length) front
        rw [List.take_take, Nat.min_eq_left (Nat.le_succ _), List.take_left' rfl] at cut
        exact cut
      dsimp only
      by_cases short : s.bodyLength < s.bodyRead + n
      · have cast : ((s.bodyRead : Int) + n + 4) = ((s.bodyRead + n + 4 : Nat) : Int) := by omega
        have taken : (block.take s.bodyRead).length = got.length := by
          rw [List.length_take]
          omega
        have room : 0 + (block.take s.bodyRead).length ≤
            (malloc junk (s.bodyRead + n + 4)).length := by
          rw [length_malloc, taken]
          omega
        obtain ⟨fresh, written⟩ : ∃ fresh, writeAt (malloc junk (s.bodyRead + n + 4)) 0
            (block.take s.bodyRead) = some fresh := ⟨_, writeAt_eq_some room⟩
        refine ⟨{ s with body := some fresh, bodyLength := s.bodyRead + n }, fresh, ?_,
          ⟨rfl, rfl, rfl, rfl, rfl⟩, rfl, (length_writeAt written).trans (length_malloc _ _), read, ?_, ?_⟩
        · rw [if_pos short, cast, checked_eq (by omega), Option.bind_some, Int.toNat_natCast, written]
          rfl
        · dsimp only
          omega
        · have whole := take_writeAt written
          rw [Nat.zero_add, taken] at whole
          rw [whole, List.take_zero, List.nil_append, read, front']
      · refine ⟨s, block, if_neg short, ⟨rfl, rfl, rfl, rfl, rfl⟩, isBody, length, read, ?_, front'⟩
        omega

variable (junk data) in
theorem appendBody_eq (holds : Holds s got) (small : (got ++ data).length + 4 < 2 ^ 31) :
    ∃ s', appendBody junk s data = some s' ∧ SameButBody s s' ∧ Holds s' (got ++ data) := by
  rw [List.length_append] at small
  obtain ⟨s', block, reserved, same, isBody, length, read, room, front⟩ :=
    reserve_eq junk holds small
  have inside : s'.bodyRead + (data ++ [0]).length ≤ block.length := by
    rw [List.length_append, List.length_singleton]
    omega
  obtain ⟨block', written⟩ : ∃ block', writeAt block s'.bodyRead (data ++ [0]) = some block' :=
    ⟨_, writeAt_eq_some inside⟩
  refine ⟨{ s' with body := some block', bodyRead := s'.bodyRead + data.length }, ?_,
    ⟨same.1, same.2, same.3, same.4, same.5⟩, (length_writeAt written).trans length, ?_, ?_, ?_⟩
  · rw [appendBody, reserved, Option.bind_some, isBody, Option.bind_some, written]
    rfl
  · rw [List.length_append, read]
  · rw [List.length_append]
    exact room
  · have whole := take_writeAt written
    rw [List.length_append, List.length_singleton, read, front, ← Nat.add_assoc] at whole
    rw [List.length_append, whole, List.append_assoc]

/-- A zero ends what is copied from a block. -/
theorem takeWhile_block {block : List UInt8} (front : block.take (body.length + 1) = body ++ [0]) :
    block.takeWhile (· != 0) = body.takeWhile (· != 0) := by
  rw [← List.take_append_drop (body.length + 1) block, front]
  generalize block.drop (body.length + 1) = behind
  clear front
  induction body with
  | nil => rfl
  | cons c body ih =>
      rw [List.cons_append, List.cons_append, List.takeWhile_cons, List.takeWhile_cons]
      split
      · rw [ih]
      · rfl

theorem message_of_holds (holds : Holds s body)
    (plain : s.request.contentLength = 0 ∧ s.request.content = []) :
    message s = finish s.request body := by
  have nothing : finish s.request [] = s.request := by
    rw [finish, List.length_nil, Int.natCast_zero, ← plain.1]
    exact congrArg (fun content => { s.request with content := content }) plain.2.symm
  unfold Holds at holds
  unfold message
  cases isBody : s.body with
  | none =>
      rw [isBody] at holds
      rw [holds.1, nothing]
  | some block =>
      rw [isBody] at holds
      obtain ⟨_, read, _, front⟩ := holds
      dsimp only
      by_cases some' : 0 < s.bodyRead
      · rw [if_pos some', takeWhile_block front, read, finish]
      · have empty : body = [] := List.length_eq_zero_iff.mp (by omega)
        rw [if_neg some', empty, nothing]

end Append

/-! A body of known length. -/

/-- `got` of a body of known length has arrived. -/
structure Filling (request : IHttpRequest) (body got : List UInt8) (s : ReqDecoder) : Prop where
  made : s.lines.block ≠ []
  status : s.status = .body
  request : s.request = request
  past : s.past = false
  block : ∃ block, s.body = some block ∧ block.length = body.length + 4 ∧
    block.take got.length = got
  bodyLength : s.bodyLength = body.length
  bodyRead : s.bodyRead = got.length

section Fill

variable {junk : Nat → UInt8} {request : IHttpRequest} {body rest got piece : List UInt8}
  {s : ReqDecoder} {pieces : List (List UInt8)}

/-- The request is handed over with the last byte of its body. -/
theorem Filling.readBody_eq (filling : Filling request body got s) (isPart : got ++ rest = body)
    (nonempty : body ≠ []) :
    (readBody s).bind conclude =
      if rest = [] then some ({}, [finish request body]) else some (s, []) := by
  have lengths := congrArg List.length isPart
  rw [List.length_append] at lengths
  have positive := List.length_pos_of_ne_nil nonempty
  rw [readBody, filling.bodyRead, filling.bodyLength]
  by_cases done : rest = []
  · obtain ⟨block, isBody, length, front⟩ := filling.block
    rw [done, List.append_nil] at isPart
    subst isPart
    have room : got.length + ([0] : List UInt8).length ≤ block.length := by
      rw [List.length_singleton]
      omega
    obtain ⟨ended, written⟩ : ∃ ended, writeAt block got.length [0] = some ended :=
      ⟨_, writeAt_eq_some room⟩
    have whole := take_writeAt written
    rw [List.length_singleton, front] at whole
    rw [if_pos rfl, if_pos done, isBody, Option.bind_some, written, Option.map_some,
      Option.bind_some, conclude]
    dsimp only
    rw [filling.past, if_neg Bool.false_ne_true, if_neg (by decide), if_pos rfl, message]
    dsimp only
    rw [if_pos positive, takeWhile_block whole, filling.request, finish]
  · have missing := List.length_pos_of_ne_nil done
    rw [if_neg (by omega), if_neg (by omega), if_neg done, Option.bind_some, conclude, filling.past,
      if_neg Bool.false_ne_true, if_pos rfl]

variable (junk) in
/-- A piece of the body. -/
theorem Filling.deliver_eq (filling : Filling request body got s)
    (isPart : got ++ (piece ++ rest) = body) :
    ∃ s', deliver junk s piece = (readBody s').bind conclude ∧
      Filling request body (got ++ piece) s' := by
  obtain ⟨block, isBody, length, front⟩ := filling.block
  have lengths := congrArg List.length isPart
  rw [List.length_append, List.length_append] at lengths
  have room : s.bodyRead + piece.length ≤ block.length := by
    rw [filling.bodyRead]
    omega
  obtain ⟨block', written⟩ : ∃ block', writeAt block s.bodyRead piece = some block' :=
    ⟨_, writeAt_eq_some room⟩
  refine ⟨_, deliver_body filling.made filling.status isBody written, filling.made, filling.status,
    filling.request, filling.past, ⟨block', rfl, (length_writeAt written).trans length, ?_⟩,
    filling.bodyLength, ?_⟩
  · have whole := take_writeAt written
    rw [filling.bodyRead, front] at whole
    rw [List.length_append, whole]
  · rw [List.length_append, ← filling.bodyRead]

/-- All pieces of the body, wherever they end. -/
theorem Filling.emits_iff (filling : Filling request body got s)
    (isPart : got ++ pieces.flatten = body) (missing : pieces.flatten ≠ [])
    (within : (decoder junk).Within s pieces) (m : IHttpRequest) :
    (decoder junk).Emits s pieces [m] ↔ m = finish request body := by
  induction pieces generalizing got s with
  | nil => exact absurd rfl missing
  | cons piece pieces ih =>
      rw [List.flatten_cons] at isPart
      obtain ⟨s', delivered, filling'⟩ := filling.deliver_eq junk isPart
      rw [← List.append_assoc] at isPart
      have nonempty : body ≠ [] := by
        rintro rfl
        exact within.1.1 (List.append_eq_nil_iff.mp (List.append_eq_nil_iff.mp isPart).1).2
      rw [filling'.readBody_eq isPart nonempty] at delivered
      by_cases done : pieces.flatten = []
      · rw [if_pos done] at delivered
        obtain rfl := (within.tail delivered).eq_nil_of_flatten done
        rw [Decoder.emits_cons_iff delivered]
        constructor
        · rintro ⟨later, same, -⟩
          exact (List.cons.inj same).1
        · rintro rfl
          exact ⟨[], rfl, Decoder.emits_nil.mpr rfl⟩
      · rw [if_neg done] at delivered
        rw [Decoder.emits_cons_nil delivered]
        exact ih filling' isPart done (within.tail delivered)

end Fill

/-! ## Where a chunked body is cut -/

/-- A piece behind which `missing` bytes are to come ends behind the data of a chunk: in front of its
line end, in it, or directly behind it. -/
def EndsChunk (missing : Nat) : List Chunk → Prop
  | [] => False
  | _ :: cs =>
      (0 < missing ∧ (textOf cs).length ≤ missing ∧ missing ≤ (textOf cs).length + 2) ∨
        EndsChunk missing cs

instance decidableEndsChunk (missing : Nat) : (chunks : List Chunk) →
    Decidable (EndsChunk missing chunks)
  | [] => isFalse id
  | _ :: cs =>
      have := decidableEndsChunk missing cs
      inferInstanceAs (Decidable (_ ∨ EndsChunk missing cs))

/-- A line for a size fits into the smallest buffer. -/
def SizesOk (chunks : List Chunk) : Prop := ∀ c ∈ chunks, c.digits.length + 2 ≤ httpBufSize

/-- The decoder has collected `got` in front of or in chunk `c`, which `cs` follow. The request has
the chunks `all`, and `rest` of it is still to come. -/
structure Collecting (request : IHttpRequest) (all : List Chunk) (rest : List UInt8) (c : Chunk)
    (cs : List Chunk) (got : List UInt8) (s : ReqDecoder) : Prop where
  request : s.request = request
  past : s.past = false
  ok : ChunksOk (c :: cs)
  sizes : SizesOk (c :: cs)
  holds : Holds s got
  made : 4 ≤ s.lines.block.length
  filled : s.lines.length ≤ s.lines.block.length
  ends : ∀ m ≤ rest.length, EndsChunk m all ↔ EndsChunk m (c :: cs)

/-- `ReadChunkSize` is entered with `cur` in the buffer. -/
structure Ready (request : IHttpRequest) (all : List Chunk) (body rest : List UInt8) (c : Chunk)
    (cs : List Chunk) (got cur : List UInt8) (s : ReqDecoder) : Prop
    extends Collecting request all rest c cs got s where
  status : s.status = .chunkSize
  slice : s.lines.current = cur
  start : s.lines.lineStart + cur.length = s.lines.length
  pos : ∃ k ≤ cur.length, s.lines.parsePos = s.lines.lineStart + min k c.digits.length
  chunkLeft : s.chunkLeft = 0
  stream : cur ++ rest = textOf (c :: cs)
  whole : got ++ dataOf (c :: cs) = body

/-- The decoder waits for the rest of the size of chunk `c`. -/
structure AtSize (request : IHttpRequest) (all : List Chunk) (body rest : List UInt8) (c : Chunk)
    (cs : List Chunk) (got part : List UInt8) (s : ReqDecoder) : Prop
    extends Ready request all body rest c cs got part s where
  short : part.length < c.digits.length + 2
  scanned : s.lines.parsePos = s.lines.lineStart + min part.length c.digits.length

/-- `ReadChunkData` is entered with `tail` unread and `left` missing. -/
structure Loaded (request : IHttpRequest) (all : List Chunk) (body rest : List UInt8) (c : Chunk)
    (cs : List Chunk) (got left tail : List UInt8) (s : ReqDecoder) : Prop
    extends Collecting request all rest c cs got s where
  status : left ≠ [] → s.status = .chunkData
  unread : s.lines.unread = tail
  total : s.lines.parsePos + tail.length = s.lines.length
  some' : cs ≠ []
  chunkLeft : s.chunkLeft = left.length
  stream : tail ++ rest = left ++ crlf ++ textOf cs
  whole : got ++ left ++ dataOf cs = body

/-- The decoder waits for `left`, the rest of the data of chunk `c`. -/
structure InData (request : IHttpRequest) (all : List Chunk) (body rest : List UInt8) (c : Chunk)
    (cs : List Chunk) (got left : List UInt8) (s : ReqDecoder) : Prop
    extends Collecting request all rest c cs got s where
  status : s.status = .chunkData
  lines : s.lines = { block := s.lines.block }
  some' : cs ≠ []
  chunkLeft : s.chunkLeft = left.length
  stream : rest = left ++ crlf ++ textOf cs
  whole : got ++ left ++ dataOf cs = body

/-- Between two pieces of a chunked body. -/
def Mid (request : IHttpRequest) (all : List Chunk) (body rest : List UInt8) (s : ReqDecoder) : Prop :=
  (∃ c cs got part, AtSize request all body rest c cs got part s) ∨
    ∃ c cs got left, InData request all body rest c cs got left s

/-- What a piece comes to: another such state, the end of the request, or a failure. -/
inductive Outcome (request : IHttpRequest) (all : List Chunk) (body rest : List UInt8)
    (result : Option (Int × ReqDecoder)) : Prop where
  | waits (s : ReqDecoder) (taken : result = some (0, s)) (mid : Mid request all body rest s)
      (inside : ¬ EndsChunk rest.length all)
  | done (s : ReqDecoder) (taken : result = some (1, s)) (isRequest : s.request = request)
      (past : s.past = false) (holds : Holds s body) (left : rest <:+ crlf)
      (ends : rest ≠ [] → EndsChunk rest.length all)
  | fails (failed : result.bind conclude = none) (ends : EndsChunk rest.length all)

section Chunks

variable {junk : Nat → UInt8} {request : IHttpRequest} {all : List Chunk}
  {body rest got left tail cur : List UInt8} {c : Chunk} {cs : List Chunk} {s : ReqDecoder}
  {next : ReqDecoder → Option (Int × ReqDecoder)}

theorem length_textOf_cons (c : Chunk) (cs : List Chunk) :
    (textOf (c :: cs)).length = c.digits.length + 2 + c.data.length + 2 + (textOf cs).length := by
  rw [textOf_cons]
  simp only [List.length_append, crlf, List.length_cons, List.length_nil]
  omega

theorem EndsChunk.le_length {missing : Nat} {chunks : List Chunk} (ends : EndsChunk missing chunks) :
    missing ≤ (textOf chunks).length := by
  induction chunks with
  | nil => exact ends.elim
  | cons c cs ih =>
      rw [length_textOf_cons]
      rcases ends with ⟨_, _, here⟩ | later
      · omega
      · have bound := ih later
        omega

/-- Inside of a chunk nothing is looked at too early. -/
theorem not_endsChunk {missing : Nat} (inside : (textOf cs).length + 2 < missing) :
    ¬ EndsChunk missing (c :: cs) := by
  rintro (⟨_, _, here⟩ | later)
  · omega
  · have bound := later.le_length
    omega

/-- The end of the last chunk, unless nothing is missing. -/
theorem endsChunk_here {missing : Nat} (positive : 0 < missing)
    (low : (textOf cs).length ≤ missing) (high : missing ≤ (textOf cs).length + 2) :
    EndsChunk missing (c :: cs) := Or.inl ⟨positive, low, high⟩

/-- Behind a chunk only the chunks that follow matter. -/
theorem endsChunk_cons_iff {missing : Nat} (inside : missing < (textOf cs).length) :
    EndsChunk missing (c :: cs) ↔ EndsChunk missing cs := by
  constructor
  · rintro (⟨_, low, _⟩ | later)
    · omega
    · exact later
  · exact Or.inr

theorem textOf_head (c : Chunk) (cs : List Chunk) :
    ∃ first text, textOf (c :: cs) = first :: text ∧ isReturn first = false := by
  obtain ⟨first, digits, isCons⟩ := List.exists_cons_of_ne_nil c.named
  refine ⟨first, digits ++ crlf ++ (c.data ++ crlf ++ textOf cs), ?_, ?_⟩
  · rw [textOf_cons, isCons]
    rfl
  · obtain ⟨d, _, digit⟩ := c.digitsOk first (by rw [isCons]; exact List.mem_cons_self)
    refine Bool.eq_false_iff.mpr fun isEnd => ?_
    rcases Bool.or_eq_true_iff.mp isEnd with same | same
    · rw [beq_iff_eq.mp same] at digit
      cases digit
    · rw [beq_iff_eq.mp same] at digit
      cases digit

/-- All bytes behind the data are skipped, and one more is looked at. -/
theorem readChunkTrailer_fails (unread : s.lines.unread = tail)
    (total : s.lines.parsePos + tail.length = s.lines.length) (isPart : tail <+: crlf) :
    (readChunkTrailer next s).bind conclude = none := by
  have all : ∀ c ∈ tail, isReturn c = true := fun c member =>
    (by decide +kernel : ∀ c ∈ crlf, isReturn c = true) c (isPart.subset member)
  have skipped : tail.takeWhile isReturn = tail := by
    rw [← List.append_nil tail, List.takeWhile_append_of_pos all]
    rfl
  rw [readChunkTrailer]
  dsimp only
  rw [unread, skipped, if_pos total.symm]
  cases s.lines.block[s.lines.parsePos + tail.length]? with
  | none => rfl
  | some behind =>
      rw [Option.bind_some]
      split
      · exact conclude_past rfl
      · split
        · rfl
        · cases s.lines.block[s.lines.length - 1]? with
          | none => rfl
          | some last =>
              rw [Option.bind_some]
              cases writeAt s.lines.block 0 [last] with
              | none => rfl
              | some block => exact conclude_past rfl

/-- The line end of a chunk and at least one byte of the next size. -/
theorem readChunkTrailer_next {d : Chunk} {ds : List Chunk} (unread : s.lines.unread = crlf ++ cur)
    (ahead : cur ++ rest = textOf (d :: ds)) (some' : cur ≠ [])
    (total : s.lines.parsePos + (crlf ++ cur).length = s.lines.length) :
    readChunkTrailer next s = next { s with
      status := .chunkSize
      lines := { s.lines with parsePos := s.lines.parsePos + 2, lineStart := s.lines.parsePos + 2 } } := by
  obtain ⟨first, text, isText, digit⟩ := textOf_head d ds
  obtain ⟨byte, cur', rfl⟩ := List.exists_cons_of_ne_nil some'
  have same : byte = first := by
    rw [isText] at ahead
    exact (List.cons.inj ahead).1
  have skipped : (crlf ++ byte :: cur').takeWhile isReturn = crlf := by
    rw [List.takeWhile_append_of_pos (by decide +kernel), List.takeWhile_cons, same, digit]
    rfl
  have two : crlf.length = 2 := rfl
  rw [List.length_append, List.length_cons] at total
  rw [readChunkTrailer]
  dsimp only
  rw [unread, skipped, if_neg (by omega)]
  rfl

/-- The end of a chunk. -/
theorem readChunkTrailer_outcome (loaded : Loaded request all body rest c cs got [] tail s)
    (nextOk : ∀ d ds cur s', Ready request all body rest d ds got cur s' →
      cur.length ≤ tail.length → Outcome request all body rest (next s')) :
    Outcome request all body rest (readChunkTrailer next s) := by
  have stream := loaded.stream
  have total := loaded.total
  have whole := loaded.whole
  rw [List.nil_append] at stream
  rw [List.append_nil] at whole
  have lengths := congrArg List.length stream
  rw [List.length_append, List.length_append] at lengths
  have two : crlf.length = 2 := rfl
  obtain ⟨d, ds, rfl⟩ := List.exists_cons_of_ne_nil loaded.some'
  have size := length_textOf_cons d ds
  by_cases short : tail.length ≤ 2
  · have isPart : tail <+: crlf :=
      List.prefix_of_prefix_length_le (stream ▸ List.prefix_append _ _) (List.prefix_append _ _) short
    refine .fails (readChunkTrailer_fails loaded.unread total isPart) ?_
    exact (loaded.ends _ (Nat.le_refl _)).mpr (endsChunk_here (by omega) (by omega) (by omega))
  · obtain ⟨cur, rfl⟩ : crlf <+: tail :=
      List.prefix_of_prefix_length_le (List.prefix_append _ _) (stream ▸ List.prefix_append _ _)
        (by omega)
    rw [List.append_assoc] at stream
    rw [List.length_append] at short lengths
    have ahead := List.append_cancel_left stream
    have some' : cur ≠ [] := List.ne_nil_of_length_pos (by omega)
    rw [readChunkTrailer_next loaded.unread ahead some' total]
    rw [List.length_append] at total
    refine nextOk d ds cur _ {
      request := loaded.request, past := loaded.past, ok := loaded.ok.2
      sizes := fun c' member => loaded.sizes c' (List.mem_cons_of_mem _ member)
      holds := loaded.holds, made := loaded.made, filled := loaded.filled, ends := ?_, status := rfl
      slice := drop_unread loaded.unread, start := ?_
      pos := ⟨0, Nat.zero_le _, by rw [Nat.zero_min]⟩, chunkLeft := loaded.chunkLeft
      stream := ahead, whole := whole } ?_
    · intro m bound
      rw [loaded.ends m bound, endsChunk_cons_iff (by omega)]
    · dsimp only
      omega
    · rw [List.length_append]
      exact Nat.le_add_left _ _

variable (junk) in
/-- The data of a chunk. -/
theorem readChunkData_outcome (loaded : Loaded request all body rest c cs got left tail s)
    (small : body.length + 4100 < 2 ^ 31)
    (nextOk : ∀ d ds got' cur s', Ready request all body rest d ds got' cur s' →
      cur.length ≤ tail.length → Outcome request all body rest (next s')) :
    Outcome request all body rest (readChunkData junk next s) := by
  have natural : ¬ s.chunkLeft < 0 := by
    rw [loaded.chunkLeft]
    omega
  have whole := loaded.whole
  have count := congrArg List.length whole
  rw [List.length_append, List.length_append] at count
  have stream := loaded.stream
  unfold readChunkData
  rw [if_neg natural, loaded.chunkLeft, loaded.unread, Int.toNat_natCast]
  by_cases enough : left.length ≤ tail.length
  · -- the data ends in the buffer
    obtain ⟨tail', rfl⟩ : left <+: tail :=
      List.prefix_of_prefix_length_le (by rw [List.append_assoc]; exact List.prefix_append _ _)
        (stream ▸ List.prefix_append _ _) enough
    rw [if_pos (by omega), List.take_left' rfl]
    obtain ⟨s', appended, same, holds⟩ := appendBody_eq junk left loaded.holds
      (by rw [List.length_append]; omega)
    rw [appended, Option.bind_some, same.lines, same.chunkLeft, loaded.chunkLeft,
      Int.toNat_natCast]
    have total := loaded.total
    rw [List.length_append] at total
    rw [List.append_assoc, List.append_assoc] at stream
    have loaded' : Loaded request all body rest c cs (got ++ left) [] tail' { s' with
        status := .chunkTrailer, chunkLeft := 0
        lines := { s.lines with parsePos := s.lines.parsePos + left.length } } := {
      request := same.request.trans loaded.request, past := same.past.trans loaded.past
      ok := loaded.ok, sizes := loaded.sizes, holds := holds, made := loaded.made
      filled := loaded.filled, ends := loaded.ends, status := fun some' => absurd rfl some'
      unread := drop_unread loaded.unread, total := by dsimp only; omega, some' := loaded.some'
      chunkLeft := rfl, stream := List.append_cancel_left stream
      whole := by rw [List.append_nil]; exact whole }
    refine readChunkTrailer_outcome loaded' fun d ds cur s'' ready bound =>
      nextOk d ds _ cur s'' ready (Nat.le_trans bound ?_)
    rw [List.length_append]
    exact Nat.le_add_left _ _
  · -- the rest of the data comes with later pieces
    obtain ⟨left', rfl⟩ : tail <+: left :=
      List.prefix_of_prefix_length_le (stream ▸ List.prefix_append _ _)
        (by rw [List.append_assoc]; exact List.prefix_append _ _) (by omega)
    rw [List.length_append] at enough count
    rw [if_neg (by rw [List.length_append]; omega)]
    obtain ⟨s', appended, same, holds⟩ := appendBody_eq junk tail loaded.holds
      (by rw [List.length_append]; omega)
    rw [appended]
    rw [List.append_assoc, List.append_assoc] at stream
    have ahead := List.append_cancel_left stream
    rw [← List.append_assoc] at ahead whole
    have lengths := congrArg List.length ahead
    have two : crlf.length = 2 := rfl
    rw [List.length_append, List.length_append] at lengths
    refine .waits _ rfl (Or.inr ⟨c, cs, got ++ tail, left', {
      request := same.request.trans loaded.request, past := same.past.trans loaded.past
      ok := loaded.ok, sizes := loaded.sizes, holds := holds, made := loaded.made
      filled := Nat.zero_le _, ends := loaded.ends
      status := same.status.trans (loaded.status ?_), lines := rfl, some' := loaded.some'
      chunkLeft := ?_, stream := ahead, whole := whole }⟩) ?_
    · refine List.ne_nil_of_length_pos ?_
      rw [List.length_append]
      omega
    · rw [List.length_append]
      dsimp only
      omega
    · rw [loaded.ends _ (Nat.le_refl _)]
      exact not_endsChunk (by omega)

/-- The line for a size is open. -/
theorem Ready.waits (ready : Ready request all body rest c cs got cur s)
    (isPart : cur <+: c.digits ++ crlf) (short : cur.length < c.digits.length + 2) :
    ∃ lines, s.lines.searchEol = (lines, none) ∧
      AtSize request all body rest c cs got cur { s with lines := lines } := by
  obtain ⟨k, seen, pos⟩ := ready.pos
  have search := searchEol_waits c.digits_plain isPart short seen s.lines.lineStart
  exact ⟨_, searchEol_current ready.slice pos search, {
    request := ready.request, past := ready.past, ok := ready.ok, sizes := ready.sizes
    holds := ready.holds, made := ready.made, filled := ready.filled, ends := ready.ends
    status := ready.status, slice := ready.slice, start := ready.start
    pos := ⟨cur.length, Nat.le_refl _, rfl⟩, chunkLeft := ready.chunkLeft, stream := ready.stream
    whole := ready.whole, short := short, scanned := rfl }⟩

/-- The line for a size is complete. -/
theorem Ready.found (ready : Ready request all body rest c cs got cur s)
    (small : body.length + 4100 < 2 ^ 31) (done : cur = c.digits ++ crlf ++ tail) :
    ∃ lines lineEnd, s.lines.searchEol = (lines, some lineEnd) ∧
      toInt32 (strtol 16 (lines.block.drop lines.lineStart)) = c.data.length ∧
      lines.unread = tail ∧ lines.parsePos + tail.length = lines.length ∧
      lines.length = s.lines.length ∧ lines.block = s.lines.block := by
  obtain ⟨k, _, pos⟩ := ready.pos
  have slice := ready.slice
  have start := ready.start
  rw [done] at slice start
  have search := searchEol_finds c.digits_plain tail k s.lines.lineStart
  have bound := congrArg List.length ready.whole
  rw [dataOf_cons, List.length_append, List.length_append] at bound
  have length : (c.digits ++ crlf ++ tail).length = c.digits.length + 2 + tail.length := by
    rw [List.length_append, List.length_append]
    rfl
  refine ⟨_, _, searchEol_current slice pos search, ?_, ?_, ?_, rfl, rfl⟩
  · dsimp only
    rw [drop_lineStart slice start ready.filled, List.append_assoc (c.digits ++ crlf)]
    exact c.strtol_eq (by omega) _
  · unfold LineBuffer.unread LineBuffer.current at *
    dsimp only
    rw [Nat.add_assoc, ← List.drop_drop, slice]
    exact List.drop_left' List.length_append
  · dsimp only
    omega

variable (junk) in
/-- One chunk, as far as it lies in the buffer. -/
theorem readChunkSize_step (small : body.length + 4100 < 2 ^ 31) {fuel : Nat}
    (enough : cur.length < fuel + 1) (ready : Ready request all body rest c cs got cur s)
    (nextOk : ∀ d ds got' cur' s', Ready request all body rest d ds got' cur' s' →
      cur'.length < fuel → Outcome request all body rest (readChunkSize junk fuel s')) :
    Outcome request all body rest (readChunkSize junk (fuel + 1) s) := by
  have stream : cur ++ [] ++ rest = c.digits ++ crlf ++ (c.data ++ crlf ++ textOf cs) := by
    rw [List.append_nil, ready.stream, textOf_cons]
  have two : crlf.length = 2 := rfl
  rw [readChunkSize]
  rcases piece_cases stream with ⟨short, isPart⟩ | ⟨tail, done, ahead⟩
  · rw [List.append_nil] at short isPart
    obtain ⟨lines, search, atSize⟩ := ready.waits isPart short
    rw [search]
    refine .waits _ rfl (Or.inl ⟨c, cs, got, cur, atSize⟩) ?_
    have lengths := congrArg List.length ready.stream
    rw [List.length_append, length_textOf_cons] at lengths
    rw [ready.ends _ (Nat.le_refl _)]
    exact not_endsChunk (by omega)
  · rw [List.append_nil] at done
    obtain ⟨lines, lineEnd, search, size, unread, total, length, block⟩ := ready.found small done
    rw [search]
    dsimp only
    rw [size]
    have whole := ready.whole
    rw [dataOf_cons] at whole
    by_cases last : c.data = []
    · -- a size of zero is the end, whatever follows
      have none' : cs = [] := by
        cases cs with
        | nil => rfl
        | cons d ds => exact absurd last ready.ok.1
      subst none'
      rw [last] at ahead whole
      have lengths := congrArg List.length ahead
      rw [List.length_append, List.nil_append, List.length_append] at lengths
      have nothing : (textOf []).length = 0 := rfl
      rw [if_pos (by rw [last]; rfl)]
      refine .done _ rfl ready.request ready.past ?_ ⟨tail, ?_⟩ ?_
      · have isBody : got = body := by rw [← whole]; exact (List.append_nil got).symm
        rw [← isBody]
        exact ready.holds
      · rw [ahead]
        rfl
      · intro some'
        have positive := List.length_pos_of_ne_nil some'
        rw [ready.ends _ (Nat.le_refl _)]
        exact endsChunk_here positive (by omega) (by omega)
    · have positive := List.length_pos_of_ne_nil last
      have some' : cs ≠ [] := by
        rintro rfl
        exact last ready.ok
      rw [if_neg (by omega)]
      rw [done] at enough
      have less := length_lt_of_line enough
      have loaded : Loaded request all body rest c cs got c.data tail { s with
          lines := lines, status := .chunkData
          chunkSize := (c.data.length : Int), chunkLeft := (c.data.length : Int) } := {
        request := ready.request, past := ready.past, ok := ready.ok, sizes := ready.sizes
        holds := ready.holds, made := by rw [block]; exact ready.made
        filled := by rw [block, length]; exact ready.filled, ends := ready.ends
        status := fun _ => rfl, unread := unread, total := total, some' := some', chunkLeft := rfl
        stream := ahead, whole := by rw [List.append_assoc]; exact whole }
      exact readChunkData_outcome junk loaded small fun d ds got' cur' s' ready' bound =>
        nextOk d ds got' cur' s' ready' (Nat.lt_of_le_of_lt bound less)

variable (junk) in
/-- All chunks that lie in the buffer. -/
theorem readChunkSize_outcome (small : body.length + 4100 < 2 ^ 31) {fuel : Nat}
    (enough : cur.length < fuel) (ready : Ready request all body rest c cs got cur s) :
    Outcome request all body rest (readChunkSize junk fuel s) := by
  induction fuel generalizing c cs got cur s with
  | zero => exact absurd enough (Nat.not_lt_zero _)
  | succ fuel ih =>
      exact readChunkSize_step junk small enough ready fun d ds got' cur' s' ready' enough' =>
        ih enough' ready'

end Chunks

/-! ## One piece of a chunked body -/

section Pieces

variable {junk : Nat → UInt8} {request : IHttpRequest} {all : List Chunk}
  {body rest got left part piece : List UInt8} {c : Chunk} {cs : List Chunk} {s : ReqDecoder}
  {pieces : List (List UInt8)}

variable (junk) in
/-- The buffer before the next piece: as it was, or a new one with the line at hand. -/
theorem enlarge_eq {k : Nat} (left : s.chunkLeft = k) (small : k + 4100 < 2 ^ 31)
    (inside : s.lines.lineStart ≤ s.lines.length) (filled : s.lines.length ≤ s.lines.block.length)
    (fits : s.lines.current.length ≤ httpBufSize) :
    ∃ lines, enlarge junk s = some { s with lines := lines } ∧
      lines.current = s.lines.current ∧ lines.lineStart + lines.current.length = lines.length ∧
      lines.length ≤ lines.block.length ∧ (4 ≤ s.lines.block.length → 4 ≤ lines.block.length) ∧
      (lines = s.lines ∨
        (lines.lineStart = 0 ∧ lines.parsePos = s.lines.length - s.lines.parsePos)) := by
  have size : s.lines.current.length = s.lines.length - s.lines.lineStart := by
    rw [LineBuffer.current, List.length_drop, List.length_take]
    omega
  have value : httpBufSize = 4096 := rfl
  have sum : (httpBufSize : Int) + s.chunkLeft = ((httpBufSize + k : Nat) : Int) := by omega
  have sum' : ((httpBufSize + k : Nat) : Int) + 4 = ((httpBufSize + k + 4 : Nat) : Int) := by omega
  unfold enlarge
  rw [sum, checked_eq (by omega), Option.bind_some]
  by_cases less : (bufSize s.lines : Int) - s.lines.length < ((httpBufSize + k : Nat) : Int)
  · have room : 0 + s.lines.current.length ≤ (malloc junk (httpBufSize + k + 4)).length := by
      rw [length_malloc]
      omega
    obtain ⟨block, written⟩ : ∃ block, writeAt (malloc junk (httpBufSize + k + 4)) 0
        s.lines.current = some block := ⟨_, writeAt_eq_some room⟩
    have length := (length_writeAt written).trans (length_malloc _ _)
    have front := take_writeAt written
    rw [Nat.zero_add, List.take_zero, List.nil_append, size] at front
    refine ⟨{
      block := block, length := s.lines.length - s.lines.lineStart, lineStart := 0
      parsePos := s.lines.length - s.lines.parsePos }, ?_, front, ?_, ?_, fun _ => ?_,
      Or.inr ⟨rfl, rfl⟩⟩
    · rw [if_pos less, sum', checked_eq (by omega), Option.bind_some, Int.toNat_natCast, written]
      rfl
    · refine (congrArg (fun text => 0 + text.length) front).trans ?_
      rw [size, Nat.zero_add]
    · dsimp only
      omega
    · dsimp only
      omega
  · exact ⟨s.lines, if_neg less, rfl, by omega, filled, id, Or.inl rfl⟩

theorem room_of_enlarge {lines : LineBuffer} (made : s.lines.block ≠ [])
    (status : s.status = .chunkSize ∨ s.status = .chunkData)
    (enlarged : enlarge junk s = some { s with lines := lines })
    (filled : lines.length ≤ lines.block.length)
    (room : ∀ n, (decoder junk).offered s = some n → piece.length ≤ n) :
    lines.length + piece.length ≤ lines.block.length := by
  have bound := room (bufSize lines - lines.length) (by
    rcases status with status | status
    · simp only [decoder, getBuffer, prepare_eq made, status, enlarged, Option.map_some]
    · simp only [decoder, getBuffer, prepare_eq made, status, enlarged, Option.map_some])
  unfold bufSize at bound
  omega

theorem Collecting.made_ne_nil (collecting : Collecting request all rest c cs got s) :
    s.lines.block ≠ [] := by
  have made := collecting.made
  exact List.ne_nil_of_length_pos (by omega)

/-- The buffer is another one, and a piece has arrived. -/
theorem Collecting.moved {lines : LineBuffer}
    (collecting : Collecting request all (piece ++ rest) c cs got s)
    (made : 4 ≤ lines.block.length) (filled : lines.length ≤ lines.block.length) :
    Collecting request all rest c cs got { s with lines := lines } where
  request := collecting.request
  past := collecting.past
  ok := collecting.ok
  sizes := collecting.sizes
  holds := collecting.holds
  made := made
  filled := filled
  ends := fun m bound => collecting.ends m (by rw [List.length_append]; omega)

variable (junk) in
/-- A piece that arrives in a line for a size. -/
theorem AtSize.deliver_outcome (atSize : AtSize request all body (piece ++ rest) c cs got part s)
    (small : body.length + 4100 < 2 ^ 31)
    (room : ∀ n, (decoder junk).offered s = some n → piece.length ≤ n) :
    ∃ result, deliver junk s piece = result.bind conclude ∧
      Outcome request all body rest result := by
  have start := atSize.start
  have scanned := atSize.scanned
  have short := atSize.short
  have slice := atSize.slice
  have size := atSize.sizes c (List.mem_cons_self ..)
  have named := List.length_pos_of_ne_nil c.named
  obtain ⟨lines, enlarged, current, start', filled, made, cases'⟩ := enlarge_eq junk
    (k := 0) atSize.chunkLeft (by decide) (by omega) atSize.filled (by rw [slice]; omega)
  rw [slice] at current
  rw [current] at start'
  -- after the replacement the search starts at the first or the second character of the line
  have moved : ∃ k ≤ part.length, lines.parsePos = lines.lineStart + min k c.digits.length := by
    rcases cases' with rfl | ⟨lineStart, parsePos⟩
    · exact ⟨part.length, Nat.le_refl _, scanned⟩
    · exact ⟨s.lines.length - s.lines.parsePos, by omega, by omega⟩
  obtain ⟨k, seen, pos⟩ := moved
  have fits := room_of_enlarge atSize.made_ne_nil (Or.inl atSize.status) enlarged filled room
  obtain ⟨b, copied, blockLength, length, lineStart, parsePos, grown⟩ := copy_eq fits
  have ready : Ready request all body rest c cs got (part ++ piece)
      { s with lines := b.grow piece.length } := {
    toCollecting := atSize.toCollecting.moved
      (Nat.le_trans (made atSize.made) (Nat.le_of_eq blockLength.symm)) (by
        show b.length + piece.length ≤ b.block.length
        omega)
    status := atSize.status
    slice := by
      unfold LineBuffer.current LineBuffer.grow
      dsimp only
      rw [lineStart, length, grown _ (by omega)]
      exact congrArg (· ++ piece) current
    start := by
      rw [List.length_append]
      show b.lineStart + _ = b.length + piece.length
      omega
    pos := ⟨k, by rw [List.length_append]; omega, by
      show b.parsePos = b.lineStart + _
      rw [parsePos, lineStart, pos]⟩
    chunkLeft := atSize.chunkLeft
    stream := by
      rw [List.append_assoc]
      exact atSize.stream
    whole := atSize.whole }
  refine ⟨_, deliver_chunkSize atSize.made_ne_nil atSize.status enlarged copied,
    readChunkSize_outcome junk small ?_ ready⟩
  rw [List.length_append]
  omega

variable (junk) in
/-- A piece that arrives in the data of a chunk. -/
theorem InData.deliver_outcome (inData : InData request all body (piece ++ rest) c cs got left s)
    (small : body.length + 4100 < 2 ^ 31)
    (room : ∀ n, (decoder junk).offered s = some n → piece.length ≤ n) :
    ∃ result, deliver junk s piece = result.bind conclude ∧
      Outcome request all body rest result := by
  have count := congrArg List.length inData.whole
  rw [List.length_append, List.length_append] at count
  have empty : s.lines.length = 0 ∧ s.lines.lineStart = 0 ∧ s.lines.parsePos = 0 := by
    rw [inData.lines]
    exact ⟨rfl, rfl, rfl⟩
  have nothing : s.lines.current = [] := by
    rw [LineBuffer.current, empty.1, List.take_zero, List.drop_nil]
  obtain ⟨lines, enlarged, current, start, filled, made, cases'⟩ := enlarge_eq junk
    inData.chunkLeft (by omega) (by omega) inData.filled (by rw [nothing]; exact Nat.zero_le _)
  rw [current, nothing, List.length_nil] at start
  have stays : lines.length = 0 ∧ lines.parsePos = 0 := by
    rcases cases' with rfl | ⟨_, parsePos⟩
    · exact ⟨empty.1, empty.2.2⟩
    · omega
  have fits := room_of_enlarge inData.made_ne_nil (Or.inr inData.status) enlarged filled room
  obtain ⟨b, copied, blockLength, length, _, parsePos, grown⟩ := copy_eq fits
  have loaded : Loaded request all body rest c cs got left piece
      { s with lines := b.grow piece.length } := {
    toCollecting := inData.toCollecting.moved
      (Nat.le_trans (made inData.made) (Nat.le_of_eq blockLength.symm)) (by
        show b.length + piece.length ≤ b.block.length
        omega)
    status := fun _ => inData.status
    unread := by
      unfold LineBuffer.unread LineBuffer.grow
      dsimp only
      rw [parsePos, length, grown _ (by omega), stays.1, List.take_zero, List.drop_nil,
        List.nil_append]
    total := by
      show b.parsePos + piece.length = b.length + piece.length
      omega
    some' := inData.some'
    chunkLeft := inData.chunkLeft
    stream := inData.stream
    whole := inData.whole }
  refine ⟨_, deliver_chunkData inData.made_ne_nil inData.status enlarged copied,
    readChunkData_outcome junk loaded small fun d ds got' cur s' ready less => ?_⟩
  exact readChunkSize_outcome junk small (by omega) ready

theorem Mid.rest_ne_nil (mid : Mid request all body rest s) : rest ≠ [] := by
  rintro rfl
  rcases mid with ⟨c, cs, got, part, atSize⟩ | ⟨c, cs, got, left, inData⟩
  · have lengths := congrArg List.length atSize.stream
    have short := atSize.short
    rw [List.append_nil, length_textOf_cons] at lengths
    omega
  · have lengths := congrArg List.length inData.stream
    simp only [List.length_append, crlf, List.length_cons, List.length_nil] at lengths
    omega

variable (junk) in
theorem Mid.deliver_outcome (mid : Mid request all body (piece ++ rest) s)
    (small : body.length + 4100 < 2 ^ 31)
    (room : ∀ n, (decoder junk).offered s = some n → piece.length ≤ n) :
    ∃ result, deliver junk s piece = result.bind conclude ∧
      Outcome request all body rest result := by
  rcases mid with ⟨c, cs, got, part, atSize⟩ | ⟨c, cs, got, left, inData⟩
  · exact atSize.deliver_outcome junk small room
  · exact inData.deliver_outcome junk small room

end Pieces

end MlsImgSearch.Blitz.IHttpReqDecoder
