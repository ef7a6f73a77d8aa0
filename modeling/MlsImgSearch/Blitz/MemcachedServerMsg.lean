import MlsImgSearch.Blitz.LineMsg

/-!
# The decoder of the memcached server

Every line that ends in a piece is copied into a message of its own. What is left over
behind a line is moved to a new buffer.
-/

namespace MlsImgSearch.Blitz.MemcachedServerMsg

open Lib.Bytes Lib.Segmentation Lib.Lines
open LineMsg (InMsg lf moreLines moreLines_cut)

/-- `buffer_` (`none` for `NULL`) and `data_length_`. -/
structure MemcachedServerMsgDecoder where
  buffer : Option (List UInt8)
  dataLength : Nat
  deriving DecidableEq

def MemcachedServerMsgDecoder.initial : MemcachedServerMsgDecoder := ⟨none, 0⟩

section Decoder

variable (junk : Nat → UInt8) (maxLength : Nat)

/-- One byte more than is offered. -/
def prepareBuffer (s : MemcachedServerMsgDecoder) : List UInt8 :=
  s.buffer.getD (malloc junk (maxLength + 1))

def getBuffer (s : MemcachedServerMsgDecoder) : Option Nat :=
  if maxLength ≤ s.dataLength then none else some (maxLength - s.dataLength)

/-- `Feed`, when `length` bytes have been stored behind the `dataLength` bytes of the buffer. The loop
over them, and the copies that it makes, are those of the line decoder. `none` is an error code, or an
access outside of a block. -/
def feed (s : MemcachedServerMsgDecoder) (block : List UInt8) (length : Nat) :
    Option (MemcachedServerMsgDecoder × List InMsg) :=
  let stop := s.dataLength + length
  let (msgs, prev) := moreLines block ((block.drop s.dataLength).take length) 0 s.dataLength
  if prev < stop then
    if prev = 0 then
      if maxLength ≤ stop then none else some (⟨some block, stop⟩, msgs)
    else
      (writeAt (malloc junk (maxLength + 1)) 0 ((block.drop prev).take (stop - prev))).map
        fun fresh => (⟨some fresh, stop - prev⟩, msgs)
  else some (⟨some block, 0⟩, msgs)

/-- One exchange: a piece is received into the offered buffer and reported. -/
def decoder : Decoder MemcachedServerMsgDecoder InMsg where
  offered := getBuffer maxLength
  deliver s piece :=
    (getBuffer maxLength s).bind fun room =>
      if room < piece.length then none
      else
        (writeAt (prepareBuffer junk maxLength s) s.dataLength piece).bind fun block =>
          feed junk maxLength s block piece.length

end Decoder

/-! ## One exchange -/

section Exchange

variable {junk : Nat → UInt8} {maxLength : Nat} {s : MemcachedServerMsgDecoder}
  {held piece : List UInt8}

/-- The decoder holds the bytes of an unfinished line in a buffer of the right size. -/
structure Holds (maxLength : Nat) (s : MemcachedServerMsgDecoder) (held : List UInt8) : Prop where
  size : ∀ block, s.buffer = some block → block.length = maxLength + 1
  length : s.dataLength = held.length
  content : (s.buffer.getD []).take s.dataLength = held

theorem holds_initial (maxLength : Nat) : Holds maxLength .initial [] :=
  ⟨fun _ found => (nomatch found), rfl, rfl⟩

/-- The offered room takes the piece up. -/
theorem Holds.stored (holds : Holds maxLength s held) (junk : Nat → UInt8)
    (room : held.length + piece.length ≤ maxLength) :
    ∃ block, writeAt (prepareBuffer junk maxLength s) s.dataLength piece = some block ∧
      block.length = maxLength + 1 ∧
      block.take (held.length + piece.length) = held ++ piece :=
  append_held junk holds.size holds.length holds.content (Nat.le_succ_of_le room)

/-- An exchange gives the lines that end in a piece, and what is left over is held. -/
theorem deliver_spec (junk : Nat → UInt8) (holds : Holds maxLength s held)
    (short : held.length + piece.length < maxLength) :
    ∃ s' msgs, (decoder junk maxLength).deliver s piece = some (s', msgs) ∧
      msgs.map InMsg.bytes = (linesFrom lf held piece).1 ∧
      Holds maxLength s' (linesFrom lf held piece).2 := by
  obtain ⟨block, written, size, content⟩ := holds.stored junk (Nat.le_of_lt short)
  have offered : getBuffer maxLength s = some (maxLength - s.dataLength) :=
    if_neg (by rw [holds.length]; omega)
  have follows := slice_of_take content
  have opened : (block.drop 0).take (held.length - 0) = held := by
    have front := congrArg (List.take held.length) content
    rwa [List.take_take, Nat.min_eq_left (Nat.le_add_right _ _), List.take_left' rfl] at front
  have cut := moreLines_cut (Nat.zero_le held.length) opened follows
  show ∃ s' msgs, ((getBuffer maxLength s).bind fun room =>
      if room < piece.length then none
      else (writeAt (prepareBuffer junk maxLength s) s.dataLength piece).bind fun block =>
        feed junk maxLength s block piece.length) = some (s', msgs) ∧ _
  rw [offered, Option.bind_some, if_neg (by rw [holds.length]; omega), written, Option.bind_some,
    feed, holds.length, follows]
  dsimp only
  generalize moreLines block piece 0 held.length = result at cut ⊢
  obtain ⟨msgs, prev⟩ := result
  have left := cut.left
  have le := cut.le
  have count := congrArg List.length left
  rw [List.length_take, List.length_drop, size, Nat.min_eq_left (by omega)] at count
  dsimp only at left le count ⊢
  by_cases more : prev < held.length + piece.length
  · rw [if_pos more]
    by_cases first : prev = 0
    · subst first
      rw [if_pos rfl, if_neg (Nat.not_le.mpr short)]
      exact ⟨_, _, rfl, cut.texts, ⟨fun _ same => Option.some.inj same ▸ size, count, left⟩⟩
    · obtain ⟨fresh, moved⟩ : ∃ fresh, writeAt (malloc junk (maxLength + 1)) 0
          (linesFrom lf held piece).2 = some fresh :=
        ⟨_, writeAt_eq_some (by rw [← count, length_malloc]; omega)⟩
      have filled := take_writeAt moved
      rw [← count, Nat.zero_add, List.take_zero, List.nil_append] at filled
      rw [if_neg first, left, moved]
      refine ⟨_, _, rfl, cut.texts, ⟨fun _ same => ?_, count, filled⟩⟩
      rw [← Option.some.inj same, length_writeAt moved, length_malloc]
  · have nothing : (linesFrom lf held piece).2 = [] := by
      rw [← left, Nat.sub_eq_zero_of_le (Nat.le_of_not_lt more), List.take_zero]
    rw [if_neg more, nothing]
    exact ⟨_, _, rfl, cut.texts, ⟨fun _ same => Option.some.inj same ▸ size, rfl, List.take_zero⟩⟩

end Exchange

/-! ## Any cut -/

section Streams

variable {junk : Nat → UInt8} {maxLength : Nat} {s : MemcachedServerMsgDecoder} {held : List UInt8}

theorem feedAll_spec (junk : Nat → UInt8) (holds : Holds maxLength s held) {pieces : List (List UInt8)}
    (short : held.length + pieces.flatten.length < maxLength) :
    ∃ s' msgs, (decoder junk maxLength).feedAll s pieces = some (s', msgs) ∧
      msgs.map InMsg.bytes = (linesFrom lf held pieces.flatten).1 ∧
      Holds maxLength s' (linesFrom lf held pieces.flatten).2 := by
  induction pieces generalizing s held with
  | nil => exact ⟨s, [], rfl, rfl, holds⟩
  | cons piece rest ih =>
      rw [List.flatten_cons, List.length_append] at short
      obtain ⟨s', first, delivered, firstLines, holds'⟩ := deliver_spec junk holds
        (show held.length + piece.length < maxLength by omega)
      have left : (linesFrom lf held piece).2.length ≤ held.length + piece.length := by
        have whole : ((linesFrom lf held piece).1.flatten ++ (linesFrom lf held piece).2).length =
            (held ++ piece).length := congrArg List.length (flatten_linesFrom held piece)
        rw [List.length_append, List.length_append] at whole
        omega
      obtain ⟨s'', later, fed, laterLines, holds''⟩ := ih holds' (by omega)
      rw [Decoder.feedAll_cons _ rest delivered, fed, List.flatten_cons, linesFrom_append]
      exact ⟨s'', first ++ later, rfl, by rw [List.map_append, firstLines, laterLines], holds''⟩

/-- The messages of a stream that is shorter than the bound are its lines, however it is cut. -/
theorem feedAll_lines (junk : Nat → UInt8) {pieces : List (List UInt8)}
    (short : pieces.flatten.length < maxLength) :
    ∃ s' msgs, (decoder junk maxLength).feedAll .initial pieces = some (s', msgs) ∧
      msgs.map InMsg.bytes = (lines lf pieces.flatten).1 := by
  have held : ([] : List UInt8).length + pieces.flatten.length < maxLength := by
    rwa [List.length_nil, Nat.zero_add]
  obtain ⟨s', msgs, fed, texts, -⟩ := feedAll_spec junk (holds_initial maxLength) held
  exact ⟨s', msgs, fed, texts⟩

end Streams

end MlsImgSearch.Blitz.MemcachedServerMsg
