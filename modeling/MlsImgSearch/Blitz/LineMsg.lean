import MlsImgSearch.Lib.Lines
import MlsImgSearch.Lib.Segmentation

/-!
# The line decoder

`LineMsgDecoder` hands its receive buffer out as the message of the first line that
ends in a piece, copies all further lines, and moves what is left over to a new
buffer. In between it stores a zero behind the first message, in the same buffer
from which what is left over is copied afterwards.
-/

namespace MlsImgSearch.Blitz.LineMsg

open Lib.Bytes Lib.Segmentation Lib.Lines

/-- Line feed. -/
def lf : UInt8 := 10

/-- `InMsg` of type "line": its block of memory and how many bytes of it are the message. -/
structure InMsg where
  data : List UInt8
  bytesLength : Nat
  deriving DecidableEq

def InMsg.bytes (msg : InMsg) : List UInt8 := msg.data.take msg.bytesLength

/-- `buffer_` (`none` for `NULL`) and `data_length_`. -/
structure LineMsgDecoder where
  buffer : Option (List UInt8)
  dataLength : Nat
  deriving DecidableEq

def LineMsgDecoder.initial : LineMsgDecoder := ⟨none, 0⟩

/-- The message starts at the start of the buffer and takes it over. -/
def fillInMsg (block : List UInt8) (iter : Nat) : InMsg := ⟨block, iter + 1⟩

/-- A copy with a zero behind it. -/
def allocInMsg (block : List UInt8) (prev iter : Nat) : InMsg :=
  ⟨(block.drop prev).take (iter - prev + 1) ++ [0], iter - prev + 1⟩

/-- The first loop of `Feed`: where the first line ends. -/
def firstLine : List UInt8 → Nat → Option Nat
  | [], _ => none
  | byte :: rest, iter => if byte = lf then some iter else firstLine rest (iter + 1)

/-- The second loop: the lines that are copied, and where the last of them ends. -/
def moreLines (block : List UInt8) : List UInt8 → Nat → Nat → List InMsg × Nat
  | [], prev, _ => ([], prev)
  | byte :: rest, prev, iter =>
      if byte = lf then
        (allocInMsg block prev iter :: (moreLines block rest (iter + 1) (iter + 1)).1,
          (moreLines block rest (iter + 1) (iter + 1)).2)
      else moreLines block rest prev (iter + 1)

section Decoder

variable (junk : Nat → UInt8) (maxLength : Nat)

/-- `PrepareBuffer`: one byte more than is offered. -/
def prepareBuffer (s : LineMsgDecoder) : List UInt8 :=
  s.buffer.getD (malloc junk (maxLength + 1))

def getBuffer (s : LineMsgDecoder) : Option Nat :=
  if maxLength ≤ s.dataLength then none else some (maxLength - s.dataLength)

/-- The zero behind the first message of the vector. With a fresh vector that message is the buffer
itself, so the zero is also in what is copied later. -/
def terminateFirst (block : List UInt8) (iter : Nat) :
    List InMsg → Option (List UInt8 × List InMsg)
  | [] => (writeAt block (iter + 1) [0]).map fun block => (block, [])
  | first :: others =>
      (writeAt first.data first.bytesLength [0]).map fun data =>
        (block, { first with data := data } :: others)

/-- The end of `Feed` behind a first line that ended at `iter`: what is left over is moved to a new
buffer. -/
def leaveLine (block : List UInt8) (iter stop : Nat) (msgs : List InMsg) :
    List InMsg × Nat → Option (LineMsgDecoder × List InMsg)
  | (copied, prev) =>
      if prev < stop then
        (terminateFirst block iter msgs).bind fun (block, msgs) =>
          (writeAt (malloc junk (maxLength + 1)) 0 ((block.drop prev).take (stop - prev))).map
            fun fresh => (⟨some fresh, stop - prev⟩, msgs ++ fillInMsg block iter :: copied)
      else some (⟨none, 0⟩, msgs ++ fillInMsg block iter :: copied)

/-- `Feed`, when `length` bytes have been stored behind the `dataLength` bytes of the buffer; `msgs`
is the vector that the new messages are appended to. `none` is an error code, or an access outside
of a block. -/
def feed (s : LineMsgDecoder) (block : List UInt8) (length : Nat) (msgs : List InMsg) :
    Option (LineMsgDecoder × List InMsg) :=
  let stop := s.dataLength + length
  match firstLine ((block.drop s.dataLength).take length) s.dataLength with
  | none =>
      if 0 < stop then
        if maxLength ≤ stop then none else some (⟨some block, stop⟩, msgs)
      else some (⟨none, 0⟩, msgs)
  | some iter =>
      leaveLine junk maxLength block iter stop msgs
        (moreLines block ((block.drop (iter + 1)).take (stop - (iter + 1))) (iter + 1) (iter + 1))

/-- One exchange as in `TcpConn::OnRead`: a piece is received into the offered buffer and reported
with a fresh vector. -/
def decoder : Decoder LineMsgDecoder InMsg where
  offered := getBuffer maxLength
  deliver s piece :=
    (getBuffer maxLength s).bind fun _ =>
      (writeAt (prepareBuffer junk maxLength s) s.dataLength piece).bind fun block =>
        feed junk maxLength s block piece.length []

/-- What the decoder holds of an unfinished line. -/
def LineMsgDecoder.held (s : LineMsgDecoder) : List UInt8 := (s.buffer.getD []).take s.dataLength

/-! ## The contract -/

/-- Whatever is reported fits into the buffer that was offered. -/
def Received : LineMsgDecoder → List (List UInt8) → Prop :=
  (decoder junk maxLength).Always fun s piece =>
    ∀ n, (decoder junk maxLength).offered s = some n → piece.length ≤ n

/-- The messages are the lines of the stream, and what is held is its unfinished last line. -/
def Decodes (pieces : List (List UInt8)) : Prop :=
  ∃ s msgs, (decoder junk maxLength).feedAll .initial pieces = some (s, msgs) ∧
    msgs.map InMsg.bytes = (lines lf pieces.flatten).1 ∧ s.held = (lines lf pieces.flatten).2

/-- A piece does not hold exactly one line feed with something behind it. -/
def Spared (piece : List UInt8) : Prop := piece.count lf = 1 → piece.getLast? = some lf

instance decidableSpared (piece : List UInt8) : Decidable (Spared piece) :=
  inferInstanceAs (Decidable (_ → _))

instance decidableReceived (s : LineMsgDecoder) (pieces : List (List UInt8)) :
    Decidable (Received junk maxLength s pieces) :=
  inferInstanceAs (Decidable (Decoder.Always _ _ _ _))

end Decoder

/-! ## The loops -/

section Loops

theorem firstLine_plain {text : List UInt8} (noLf : lf ∉ text) (rest : List UInt8) (iter : Nat) :
    firstLine (text ++ rest) iter = firstLine rest (iter + text.length) := by
  induction text generalizing iter with
  | nil => rfl
  | cons byte text ih =>
      obtain ⟨other, noLf⟩ := not_or.mp (mt List.mem_cons.mpr noLf)
      rw [List.cons_append, firstLine, if_neg (Ne.symm other), ih noLf, List.length_cons,
        Nat.add_right_comm, Nat.add_assoc]

theorem firstLine_lf (rest : List UInt8) (iter : Nat) : firstLine (lf :: rest) iter = some iter :=
  if_pos rfl

theorem bytes_allocInMsg {block : List UInt8} {prev iter : Nat} (le : prev ≤ iter)
    (inside : iter < block.length) :
    (allocInMsg block prev iter).bytes = (block.drop prev).take (iter + 1 - prev) := by
  have size : ((block.drop prev).take (iter - prev + 1)).length = iter - prev + 1 := by
    rw [List.length_take, List.length_drop]
    omega
  have grown : iter + 1 - prev = iter - prev + 1 := by omega
  rw [InMsg.bytes, allocInMsg, List.take_left' size, grown]

theorem moreLines_eq_scan (block rest : List UInt8) (prev iter : Nat) :
    moreLines block rest prev iter = scan lf (allocInMsg block) rest prev iter := by
  induction rest generalizing prev iter with
  | nil => rfl
  | cons byte rest ih => rw [moreLines, scan, ih, ih]

theorem moreLines_cut {block rest open' : List UInt8} {prev iter : Nat} (le : prev ≤ iter)
    (opened : (block.drop prev).take (iter - prev) = open')
    (follows : (block.drop iter).take rest.length = rest) :
    Cut block InMsg.bytes prev iter (iter + rest.length) (linesFrom lf open' rest)
      (moreLines block rest prev iter) := by
  rw [moreLines_eq_scan]
  exact scan_cut (fun _ _ => bytes_allocInMsg) le opened follows

end Loops

/-! ## One exchange -/

section Exchange

variable {junk : Nat → UInt8} {maxLength : Nat} {s : LineMsgDecoder} {held : List UInt8}

/-- The decoder holds the bytes of an unfinished line in a buffer of the right size. -/
structure Holds (maxLength : Nat) (s : LineMsgDecoder) (held : List UInt8) : Prop where
  size : ∀ block, s.buffer = some block → block.length = maxLength + 1
  length : s.dataLength = held.length
  content : s.held = held
  plain : lf ∉ held

theorem holds_nil (maxLength : Nat) : Holds maxLength ⟨none, 0⟩ [] :=
  ⟨fun _ found => (nomatch found), rfl, rfl, List.not_mem_nil⟩

theorem Holds.of_block {block bytes : List UInt8} {length : Nat} (size : block.length = maxLength + 1)
    (content : block.take length = bytes) (counted : length = bytes.length) (plain : lf ∉ bytes) :
    Holds maxLength ⟨some block, length⟩ bytes :=
  ⟨fun _ found => Option.some.inj found ▸ size, counted, content, plain⟩

/-- The offered room takes the piece up. -/
theorem Holds.stored (holds : Holds maxLength s held) (junk : Nat → UInt8) {piece : List UInt8}
    (room : held.length + piece.length ≤ maxLength) :
    ∃ block, writeAt (prepareBuffer junk maxLength s) s.dataLength piece = some block ∧
      block.length = maxLength + 1 ∧
      block.take (held.length + piece.length) = held ++ piece :=
  append_held junk holds.size holds.length holds.content (Nat.le_succ_of_le room)

/-- What stays after a piece: behind a single line the first byte of it is lost. -/
def kept (parts : List (List UInt8) × List UInt8) : List UInt8 :=
  if parts.1.length = 1 then parts.2.set 0 0 else parts.2

theorem getBuffer_room (holds : Holds maxLength s held) {piece : List UInt8}
    (short : held.length < maxLength)
    (fits : ∀ n, (decoder junk maxLength).offered s = some n → piece.length ≤ n) :
    getBuffer maxLength s = some (maxLength - s.dataLength) ∧
      held.length + piece.length ≤ maxLength := by
  have offered : getBuffer maxLength s = some (maxLength - s.dataLength) := by
    refine if_neg ?_
    rw [holds.length]
    exact Nat.not_le.mpr short
  have room := fits _ offered
  rw [holds.length] at room
  exact ⟨offered, by omega⟩

/-- A piece without line feed is kept. -/
theorem deliver_plain (holds : Holds maxLength s held) {piece : List UInt8} (noLf : lf ∉ piece)
    (fits : ∀ n, (decoder junk maxLength).offered s = some n → piece.length ≤ n)
    (short : held.length + piece.length < maxLength) :
    ∃ s', (decoder junk maxLength).deliver s piece = some (s', []) ∧
      Holds maxLength s' (held ++ piece) := by
  obtain ⟨offered, room⟩ := getBuffer_room holds (by omega) fits
  obtain ⟨block, written, size, content⟩ := holds.stored junk room
  have noLine : firstLine ((block.drop s.dataLength).take piece.length) s.dataLength = none := by
    have plain := firstLine_plain noLf [] s.dataLength
    rw [List.append_nil] at plain
    rw [holds.length, slice_of_take content, ← holds.length, plain]
    rfl
  have plain : lf ∉ held ++ piece := by
    rw [List.mem_append]
    exact not_or.mpr ⟨holds.plain, noLf⟩
  show ∃ s', ((getBuffer maxLength s).bind fun _ =>
      (writeAt (prepareBuffer junk maxLength s) s.dataLength piece).bind fun block =>
        feed junk maxLength s block piece.length []) = some (s', []) ∧ _
  rw [offered, Option.bind_some, written, Option.bind_some, feed, noLine, holds.length]
  dsimp only
  by_cases some' : 0 < held.length + piece.length
  · rw [if_pos some', if_neg (Nat.not_le.mpr short)]
    exact ⟨_, rfl, Holds.of_block size content (List.length_append).symm plain⟩
  · have nothing : held ++ piece = [] := by
      rw [← List.length_eq_zero_iff, List.length_append]
      omega
    rw [if_neg some', nothing]
    exact ⟨_, rfl, holds_nil maxLength⟩

/-- A zero at a position, seen from there. -/
theorem writeAt_zero_drop {block result : List UInt8} {off : Nat}
    (written : writeAt block off [0] = some result) (n : Nat) :
    (result.drop off).take n = ((block.drop off).take n).set 0 0 := by
  refine List.ext_getElem? fun i => ?_
  have bytes := getElem?_writeAt written (off + i)
  cases i with
  | zero =>
      cases n with
      | zero => simp
      | succ n =>
          have inside : off < block.length := by
            unfold writeAt at written
            split at written
            · next inside => exact inside
            · cases written
          rw [List.drop_eq_getElem_cons inside, List.take_succ_cons, List.set_cons_zero,
            List.getElem?_take_of_lt (Nat.succ_pos n), List.getElem?_drop, bytes, if_pos (by simp)]
          simp
  | succ i =>
      rw [List.getElem?_set_ne (Nat.succ_ne_zero i).symm]
      rw [if_neg (by simp)] at bytes
      simp only [List.getElem?_take, List.getElem?_drop, bytes]

/-- What is moved to the new buffer. -/
theorem moved_eq {block block' : List UInt8} {iter stop : Nat} {parts : List (List UInt8) × List UInt8}
    {result : List InMsg × Nat} (cut : Cut block InMsg.bytes (iter + 1) (iter + 1) stop parts result)
    (written : writeAt block (iter + 1) [0] = some block') (line : List UInt8) :
    (block'.drop result.2).take (stop - result.2) = kept (line :: parts.1, parts.2) := by
  by_cases single : parts.1 = []
  · rw [kept, if_pos (by rw [single]; rfl), cut.stays single, writeAt_zero_drop written,
      ← cut.stays single, cut.left]
  · have several : (line :: parts.1).length ≠ 1 := by
      rw [List.length_cons]
      exact fun one => single (List.length_eq_zero_iff.mp (Nat.succ.inj one))
    rw [kept, if_neg several, writeAt_drop written (cut.moves single), cut.left]

theorem lf_not_mem_kept {parts : List (List UInt8) × List UInt8} (plain : lf ∉ parts.2) :
    lf ∉ kept parts := by
  unfold kept
  split
  · intro member
    rcases List.mem_or_eq_of_mem_set member with before | zero
    · exact plain before
    · exact absurd zero (by decide)
  · exact plain

/-- Behind a first line. -/
theorem leaveLine_spec {block line : List UInt8} {iter stop : Nat}
    {parts : List (List UInt8) × List UInt8} {result : List InMsg × Nat}
    (cut : Cut block InMsg.bytes (iter + 1) (iter + 1) stop parts result)
    (size : block.length = maxLength + 1)
    (within : stop ≤ maxLength) (isLine : block.take (iter + 1) = line) (plain : lf ∉ parts.2) :
    ∃ s' msgs, leaveLine junk maxLength block iter stop [] result = some (s', msgs) ∧
      msgs.map InMsg.bytes = line :: parts.1 ∧
      Holds maxLength s' (kept (line :: parts.1, parts.2)) := by
  obtain ⟨copied, prev⟩ := result
  have texts : ∀ block', block'.take (iter + 1) = line →
      (fillInMsg block' iter :: copied).map InMsg.bytes = line :: parts.1 := by
    intro block' same
    rw [List.map_cons, cut.texts, InMsg.bytes, fillInMsg, same]
  unfold leaveLine
  dsimp only
  by_cases more : prev < stop
  · have moves : iter + 1 ≤ prev := by
      by_cases single : parts.1 = []
      · exact Nat.le_of_eq (cut.stays single).symm
      · exact Nat.le_of_lt (cut.moves single)
    obtain ⟨block', terminated⟩ : ∃ block', writeAt block (iter + 1) [0] = some block' :=
      ⟨_, writeAt_eq_some (by rw [size, List.length_singleton]; omega)⟩
    have moved := moved_eq cut terminated line
    dsimp only at moved
    have counted := congrArg List.length moved
    rw [List.length_take, List.length_drop, length_writeAt terminated, size,
      Nat.min_eq_left (by omega)] at counted
    obtain ⟨fresh, stored⟩ : ∃ fresh, writeAt (malloc junk (maxLength + 1)) 0
        (kept (line :: parts.1, parts.2)) = some fresh :=
      ⟨_, writeAt_eq_some (by rw [length_malloc, ← counted]; omega)⟩
    have filled := take_writeAt stored
    rw [Nat.zero_add, List.take_zero, List.nil_append, ← counted] at filled
    rw [if_pos more, terminateFirst, terminated, Option.map_some, Option.bind_some, moved, stored,
      Option.map_some]
    refine ⟨_, _, rfl, ?_, ?_⟩
    · exact texts block' ((writeAt_take terminated (Nat.le_refl _)).trans isLine)
    · exact Holds.of_block ((length_writeAt stored).trans (length_malloc _ _)) filled counted
        (lf_not_mem_kept plain)
  · have nothing : parts.2 = [] := by
      rw [← cut.left, Nat.sub_eq_zero_of_le (Nat.le_of_not_lt more), List.take_zero]
    rw [if_neg more, kept, nothing, List.set_nil, ite_self]
    exact ⟨_, _, rfl, texts block isLine, holds_nil maxLength⟩

/-- A piece with a line feed gives the lines, and a new buffer with what is left over. -/
theorem deliver_line (holds : Holds maxLength s held) (short : held.length < maxLength)
    {text rest : List UInt8} (noLf : lf ∉ text)
    (fits : ∀ n, (decoder junk maxLength).offered s = some n → (text ++ lf :: rest).length ≤ n) :
    ∃ s' msgs, (decoder junk maxLength).deliver s (text ++ lf :: rest) = some (s', msgs) ∧
      msgs.map InMsg.bytes = (linesFrom lf held (text ++ lf :: rest)).1 ∧
      Holds maxLength s' (kept (linesFrom lf held (text ++ lf :: rest))) := by
  obtain ⟨offered, room⟩ := getBuffer_room holds short fits
  obtain ⟨block, written, size, content⟩ := holds.stored junk room
  have front : (held ++ text ++ [lf]).length = held.length + text.length + 1 := by
    rw [List.length_append, List.length_append, List.length_singleton]
  have total : held.length + (text ++ lf :: rest).length =
      held.length + text.length + 1 + rest.length := by
    rw [List.length_append, List.length_cons]
    omega
  have whole : block.take ((held ++ text ++ [lf]).length + rest.length) =
      (held ++ text ++ [lf]) ++ rest := by
    rw [front, ← total, content]
    simp
  have isLine : block.take (held.length + text.length + 1) = held ++ text ++ [lf] := by
    have cutFront := congrArg (List.take (held.length + text.length + 1)) whole
    rwa [front, List.take_take, Nat.min_eq_left (Nat.le_add_right _ _),
      List.take_left' front] at cutFront
  have behind := slice_of_take whole
  rw [front] at behind
  have first : firstLine ((block.drop s.dataLength).take (text ++ lf :: rest).length)
      s.dataLength = some (held.length + text.length) := by
    rw [holds.length, slice_of_take content, firstLine_plain noLf, firstLine_lf]
  have nothing : (block.drop (held.length + text.length + 1)).take
      (held.length + text.length + 1 - (held.length + text.length + 1)) = [] := by
    rw [Nat.sub_self, List.take_zero]
  have cut := moreLines_cut (Nat.le_refl _) nothing behind
  have fed : (decoder junk maxLength).deliver s (text ++ lf :: rest) =
      leaveLine junk maxLength block (held.length + text.length)
        (held.length + text.length + 1 + rest.length) []
        (moreLines block rest (held.length + text.length + 1) (held.length + text.length + 1)) := by
    show ((getBuffer maxLength s).bind fun _ =>
      (writeAt (prepareBuffer junk maxLength s) s.dataLength (text ++ lf :: rest)).bind fun block =>
        feed junk maxLength s block (text ++ lf :: rest).length []) = _
    rw [offered, Option.bind_some, written, Option.bind_some, feed, first, holds.length, total]
    dsimp only
    rw [Nat.add_sub_cancel_left, behind]
  rw [fed, linesFrom_plain noLf, linesFrom_sep]
  exact leaveLine_spec cut size (by omega) isLine (sep_not_mem_rest List.not_mem_nil rest)

/-- What one exchange does to a short line. -/
theorem deliver_spec (holds : Holds maxLength s held) {piece : List UInt8}
    (fits : ∀ n, (decoder junk maxLength).offered s = some n → piece.length ≤ n)
    (short : Short maxLength (linesFrom lf held piece)) :
    ∃ s' msgs, (decoder junk maxLength).deliver s piece = some (s', msgs) ∧
      msgs.map InMsg.bytes = (linesFrom lf held piece).1 ∧
      Holds maxLength s' (kept (linesFrom lf held piece)) := by
  by_cases line : lf ∈ piece
  · obtain ⟨text, rest, rfl, noLf⟩ := List.eq_append_cons_of_mem line
    exact deliver_line holds (rest_length_lt short) noLf fits
  · have whole := linesFrom_plain line held []
    rw [List.append_nil, linesFrom_nil] at whole
    rw [whole] at short ⊢
    obtain ⟨s', delivered, holds'⟩ := deliver_plain holds line fits
      (by rw [← List.length_append]; exact short.2)
    exact ⟨s', [], delivered, rfl, holds'⟩

end Exchange

/-! ## Whole streams -/

section Streams

variable {junk : Nat → UInt8} {maxLength : Nat} {s : LineMsgDecoder} {held piece : List UInt8}

/-- Nothing is lost from what is left over behind a spared piece. -/
theorem kept_of_spared (held : List UInt8) (spared : Spared piece) :
    kept (linesFrom lf held piece) = (linesFrom lf held piece).2 := by
  unfold kept
  split
  · next single =>
      rw [length_linesFrom] at single
      have some' : piece ≠ [] := by
        rintro rfl
        cases single
      have nothing := (rest_eq_nil_iff held piece).mpr
        (by rw [if_neg some']; exact spared single)
      rw [nothing]
      rfl
  · rfl

/-- Behind a piece that is not spared there is a zero. -/
theorem zero_mem_kept (held : List UInt8) (spoiled : ¬ Spared piece) :
    0 ∈ kept (linesFrom lf held piece) := by
  obtain ⟨single, last⟩ := Classical.not_imp.mp spoiled
  have some' : piece ≠ [] := by
    rintro rfl
    cases single
  have left : (linesFrom lf held piece).2 ≠ [] := by
    rw [Ne, rest_eq_nil_iff, if_neg some']
    exact last
  rw [kept, if_pos ((length_linesFrom held piece).trans single)]
  cases rest : (linesFrom lf held piece).2 with
  | nil => exact absurd rest left
  | cons byte others => exact List.mem_cons_self ..

/-- A zero stays a zero. -/
theorem zero_mem_parts (piece : List UInt8) (zero : 0 ∈ held) :
    0 ∈ (linesFrom lf held piece).1.flatten ∨ 0 ∈ kept (linesFrom lf held piece) := by
  have all : 0 ∈ (linesFrom lf held piece).1.flatten ++ (linesFrom lf held piece).2 := by
    rw [flatten_linesFrom]
    exact List.mem_append_left _ zero
  refine (List.mem_append.mp all).imp_right fun left => ?_
  unfold kept
  split
  · cases rest : (linesFrom lf held piece).2 with
    | nil =>
        rw [rest] at left
        cases left
    | cons byte others => exact List.mem_cons_self ..
  · exact left

theorem length_kept (parts : List (List UInt8) × List UInt8) :
    (kept parts).length = parts.2.length := by
  unfold kept
  split
  · exact List.length_set
  · rfl

/-- A run over short lines: spared pieces give the lines, and a zero that is not of the stream shows
in what comes out. -/
theorem feedAll_spec {pieces : List (List UInt8)} (holds : Holds maxLength s held)
    (received : Received junk maxLength s pieces)
    (short : Short maxLength (linesFrom lf held pieces.flatten)) :
    ∃ s' msgs, (decoder junk maxLength).feedAll s pieces = some (s', msgs) ∧
      ((∀ piece ∈ pieces, Spared piece) →
        msgs.map InMsg.bytes = (linesFrom lf held pieces.flatten).1 ∧
          s'.held = (linesFrom lf held pieces.flatten).2) ∧
      (0 ∈ held ∨ (¬ ∀ piece ∈ pieces, Spared piece) →
        0 ∈ (msgs.map InMsg.bytes).flatten ++ s'.held) := by
  induction pieces generalizing s held with
  | nil =>
      refine ⟨s, [], rfl, fun _ => ⟨rfl, holds.content⟩, ?_⟩
      rintro (zero | spoiled)
      · rw [List.map_nil, List.flatten_nil, List.nil_append, holds.content]
        exact zero
      · exact absurd (fun _ member => absurd member List.not_mem_nil) spoiled
  | cons piece pieces ih =>
      rw [List.flatten_cons] at short ⊢
      obtain ⟨mid, first, delivered, texts, midHolds⟩ :=
        deliver_spec holds received.1 (short_append_left short)
      obtain ⟨last, others, fed, good, bad⟩ := ih midHolds (received.2 mid first delivered)
        (short_of_length (length_kept _) (short_append short))
      refine ⟨last, first ++ others, ?_, fun spared => ?_, fun zero => ?_⟩
      · rw [Decoder.feedAll_cons _ _ delivered, fed]
        rfl
      · obtain ⟨now, later⟩ := List.forall_mem_cons.mp spared
        obtain ⟨laterTexts, laterHeld⟩ := good later
        rw [kept_of_spared held now] at laterTexts laterHeld
        rw [linesFrom_append, List.map_append, texts, laterTexts, laterHeld]
        exact ⟨rfl, rfl⟩
      · rw [List.map_append, List.flatten_append, List.append_assoc, texts]
        by_cases spoiled : 0 ∈ (linesFrom lf held piece).1.flatten
        · exact List.mem_append_left _ spoiled
        · refine List.mem_append_right _ (bad ?_)
          rw [List.forall_mem_cons, not_and_or] at zero
          rcases zero with before | now | later
          · exact Or.inl ((zero_mem_parts piece before).resolve_left spoiled)
          · exact Or.inl (zero_mem_kept held now)
          · exact Or.inr later

end Streams

theorem spared_of_decodes {junk : Nat → UInt8} {maxLength : Nat} {pieces : List (List UInt8)}
    (received : Received junk maxLength .initial pieces) (nonzero : 0 ∉ pieces.flatten)
    (short : Short maxLength (lines lf pieces.flatten)) (decodes : Decodes junk maxLength pieces) :
    ∀ piece ∈ pieces, Spared piece := by
  obtain ⟨s, msgs, fed, -, bad⟩ := feedAll_spec (holds_nil maxLength) received short
  obtain ⟨s', msgs', fed', texts, held⟩ := decodes
  obtain ⟨rfl, rfl⟩ := Prod.mk.inj (Option.some.inj (fed.symm.trans fed'))
  by_contra spoiled
  have zero := bad (Or.inr spoiled)
  rw [texts, held, lines, flatten_linesFrom] at zero
  exact nonzero zero

/-- A stream of short lines without zeros is decoded exactly when no piece holds a single line feed
with something behind it. -/
theorem decodes_iff_spared (junk : Nat → UInt8) {maxLength : Nat} {pieces : List (List UInt8)}
    (received : Received junk maxLength .initial pieces) (nonzero : 0 ∉ pieces.flatten)
    (short : Short maxLength (lines lf pieces.flatten)) :
    Decodes junk maxLength pieces ↔ ∀ piece ∈ pieces, Spared piece := by
  refine ⟨spared_of_decodes received nonzero short, fun spared => ?_⟩
  obtain ⟨s, msgs, fed, good, -⟩ := feedAll_spec (holds_nil maxLength) received short
  exact ⟨s, msgs, fed, good spared⟩

/-- `12345`, then `67` with a line feed. -/
theorem decodes_unfinished_line :
    Decodes (fun _ => 0) 80 [[49, 50, 51, 52, 53], [54, 55, 10]] :=
  (decodes_iff_spared (fun _ => 0) (by decide +kernel) (by decide) (by decide)).mpr (by decide)

/-- One line and the beginning of the next one in a single piece: the beginning is lost. -/
theorem not_decodes_line_and_rest :
    Received (fun _ => 0) 80 .initial [[49, 10, 97, 98, 99]] ∧
      0 ∉ [[49, 10, 97, 98, 99]].flatten ∧
      Short 80 (lines lf [[49, 10, 97, 98, 99]].flatten) ∧
      ¬ Decodes (fun _ => 0) 80 [[49, 10, 97, 98, 99]] := by
  have received : Received (fun _ => 0) 80 .initial [[49, 10, 97, 98, 99]] := by decide +kernel
  refine ⟨received, by decide, by decide, fun decodes => ?_⟩
  have spared := spared_of_decodes received (by decide) (by decide) decodes
  exact absurd spared (by decide)

end MlsImgSearch.Blitz.LineMsg
