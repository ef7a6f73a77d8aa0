import MlsImgSearch.Lib.Lines
import MlsImgSearch.Lib.Segmentation

/-!
# The line decoder of blitz2

`LineMsgDecoder` reports the lines of a piece as ranges of its receive buffer, which
it then gives up for a new one. What is left over of an unfinished line is copied,
and `data_length_` is set to its length, but only when something is left over.
-/

namespace MlsImgSearch.Blitz2.LineMsg

open Lib.Bytes Lib.Segmentation Lib.Lines

/-- Line feed. -/
def lf : UInt8 := 10

/-- A range of a buffer that is not written to any more. -/
structure SharedLine where
  mem : List UInt8
  start : Nat
  length : Nat

def SharedLine.line (l : SharedLine) : List UInt8 := (l.mem.drop l.start).take l.length

/-- `buffer_` and `data_length_`. -/
structure LineMsgDecoder where
  buffer : List UInt8
  dataLength : Nat

section Decoder

variable (junk : Nat → UInt8) (maxLength : Nat)

/-- After `Init`. -/
def init : LineMsgDecoder := ⟨malloc junk maxLength, 0⟩

def getBuffer (s : LineMsgDecoder) : Option Nat :=
  if maxLength ≤ s.dataLength then none else some (s.buffer.length - s.dataLength)

/-- The loop of `Feed`: the lines that are reported, and `prev` behind it. -/
def feedLoop (block rest : List UInt8) (prev iter : Nat) : List SharedLine × Nat :=
  scan lf (fun prev iter => ⟨block, prev, iter - prev + 1⟩) rest prev iter

/-- `Feed`, when `length` bytes have been stored behind the `dataLength` bytes of the buffer. `none` is
an error code, or an access outside of a block. -/
def feed (s : LineMsgDecoder) (block : List UInt8) (length : Nat) :
    Option (LineMsgDecoder × List SharedLine) :=
  let stop := s.dataLength + length
  let (reported, prev) := feedLoop block ((block.drop s.dataLength).take length) 0 s.dataLength
  if 0 < reported.length then
    let newBuffer := malloc junk maxLength
    if prev < stop then
      (writeAt newBuffer 0 ((block.drop prev).take (stop - prev))).map fun newBuffer =>
        (⟨newBuffer, stop - prev⟩, reported)
    else some (⟨newBuffer, s.dataLength⟩, reported)
  else if maxLength ≤ stop then none
  else some (⟨block, stop⟩, reported)

/-- `GetBuffer`, a piece that is stored in the buffer, and `Feed`. -/
def decoder : Decoder LineMsgDecoder SharedLine where
  offered := getBuffer maxLength
  deliver s piece :=
    (getBuffer maxLength s).bind fun _ =>
      (writeAt s.buffer s.dataLength piece).bind fun block =>
        feed junk maxLength s block piece.length

/-! ## The contract -/

/-- Whatever is stored fits into the buffer that was offered. -/
def Received : LineMsgDecoder → List (List UInt8) → Prop :=
  (decoder junk maxLength).Always fun s piece =>
    ∀ n, (decoder junk maxLength).offered s = some n → piece.length ≤ n

/-- The first `data_length_` bytes of the buffer. -/
def LineMsgDecoder.held (s : LineMsgDecoder) : List UInt8 := s.buffer.take s.dataLength

/-- After each piece the lines so far have been reported, and the buffer holds the unfinished last
one. -/
def Decodes (pieces : List (List UInt8)) : Prop :=
  ∀ earlier, earlier <+: pieces →
    ∃ s reported, (decoder junk maxLength).feedAll (init junk maxLength) earlier =
        some (s, reported) ∧
      reported.map SharedLine.line = (lines lf earlier.flatten).1 ∧
      s.dataLength = (lines lf earlier.flatten).2.length ∧
      s.held = (lines lf earlier.flatten).2

/-- A piece that ends in a line feed does not go on with a line of earlier pieces. -/
def Clean (earlier : List (List UInt8)) (piece : List UInt8) : Prop :=
  piece.getLast? = some lf → earlier.flatten = [] ∨ earlier.flatten.getLast? = some lf

instance decidableClean (earlier : List (List UInt8)) (piece : List UInt8) :
    Decidable (Clean earlier piece) :=
  inferInstanceAs (Decidable (_ → _))

instance decidableReceived (s : LineMsgDecoder) (pieces : List (List UInt8)) :
    Decidable (Received junk maxLength s pieces) :=
  inferInstanceAs (Decidable (Decoder.Always _ _ _ _))

end Decoder

/-! ## One exchange -/

section Exchange

variable {junk : Nat → UInt8} {maxLength : Nat} {s : LineMsgDecoder} {held piece : List UInt8}

/-- The decoder holds the bytes of an unfinished line. -/
structure Holds (maxLength : Nat) (s : LineMsgDecoder) (held : List UInt8) : Prop where
  size : s.buffer.length = maxLength
  length : s.dataLength = held.length
  content : s.held = held

theorem init_holds (junk : Nat → UInt8) (maxLength : Nat) :
    Holds maxLength (init junk maxLength) [] :=
  ⟨length_malloc junk maxLength, rfl, rfl⟩

/-- What an exchange leaves: the old number when nothing is left over behind a line, else what is left
over. -/
def Leaves (maxLength : Nat) (s : LineMsgDecoder) (piece held : List UInt8) (s' : LineMsgDecoder) :
    Prop :=
  if piece.getLast? = some lf then s'.buffer.length = maxLength ∧ s'.dataLength = s.dataLength
  else Holds maxLength s' held

/-- The loop finds the lines of the piece. -/
theorem feedLoop_cut {block : List UInt8}
    (content : block.take (held.length + piece.length) = held ++ piece) :
    Cut block SharedLine.line 0 held.length (held.length + piece.length) (linesFrom lf held piece)
      (feedLoop block piece 0 held.length) := by
  refine scan_cut (fun prev iter le _ => ?_) (Nat.zero_le _) ?_ (slice_of_take content)
  · rw [SharedLine.line, ← Nat.sub_add_comm le]
  · have front := congrArg (List.take held.length) content
    rwa [List.take_take, Nat.min_eq_left (Nat.le_add_right _ _), List.take_left] at front

/-- `Feed` behind the lines of a piece. -/
theorem feed_spec (junk : Nat → UInt8) {block : List UInt8} (size : block.length = maxLength)
    (length : s.dataLength = held.length)
    (content : block.take (held.length + piece.length) = held ++ piece)
    (room : held.length + piece.length ≤ maxLength)
    (short : Short maxLength (linesFrom lf held piece)) :
    ∃ s' reported, feed junk maxLength s block piece.length = some (s', reported) ∧
      reported.map SharedLine.line = (linesFrom lf held piece).1 ∧
      Leaves maxLength s piece (linesFrom lf held piece).2 s' := by
  have cut := feedLoop_cut content
  have nothing : (linesFrom lf held piece).2 = [] ↔ _ := rest_eq_nil_iff held piece
  rw [feed, length, slice_of_take content]
  cases found : feedLoop block piece 0 held.length with
  | mk reported prev =>
      rw [found] at cut
      have counted : reported.length = (linesFrom lf held piece).1.length := by
        rw [← cut.texts, List.length_map]
      have left := cut.left
      dsimp only at left ⊢
      by_cases none' : (linesFrom lf held piece).1 = []
      · have start : prev = 0 := cut.stays none'
        have whole : (linesFrom lf held piece).2 = held ++ piece := by
          rw [← left, start, List.drop_zero, Nat.sub_zero, content]
        have below := short.2
        rw [whole, List.length_append] at below
        have notLast : piece.getLast? ≠ some lf := by
          by_cases nonempty : piece = []
          · simp [nonempty]
          · have left : (linesFrom lf held piece).2 ≠ [] := by
              rw [whole]
              exact List.append_ne_nil_of_right_ne_nil held nonempty
            exact getLast?_ne_of_rest left
        rw [if_neg (by rw [counted, none']; exact Nat.lt_irrefl 0), if_neg (Nat.not_le.mpr below)]
        refine ⟨_, _, rfl, cut.texts, ?_⟩
        rw [Leaves, if_neg notLast, whole]
        exact ⟨size, (List.length_append ..).symm, content⟩
      · rw [if_pos (by rw [counted]; exact List.length_pos_of_ne_nil none')]
        by_cases more : prev < held.length + piece.length
        · have kept : (linesFrom lf held piece).2.length = held.length + piece.length - prev := by
            rw [← left, List.length_take, List.length_drop, size, Nat.min_eq_left (by omega)]
          have notLast : piece.getLast? ≠ some lf := by
            refine getLast?_ne_of_rest (List.ne_nil_of_length_pos (Nat.lt_of_lt_of_eq ?_ kept.symm))
            omega
          obtain ⟨fresh, stored⟩ : ∃ fresh,
              writeAt (malloc junk maxLength) 0 (linesFrom lf held piece).2 = some fresh :=
            ⟨_, writeAt_eq_some (by rw [length_malloc]; omega)⟩
          rw [if_pos more, left, stored]
          refine ⟨_, _, rfl, cut.texts, ?_⟩
          rw [Leaves, if_neg notLast]
          refine ⟨(length_writeAt stored).trans (length_malloc ..), kept.symm, ?_⟩
          have filled := take_writeAt stored
          rw [Nat.zero_add, List.take_zero, List.nil_append, kept] at filled
          exact filled
        · rw [if_neg more]
          refine ⟨_, _, rfl, cut.texts, ?_⟩
          have empty : (linesFrom lf held piece).2 = [] := by
            rw [← left, Nat.sub_eq_zero_of_le (Nat.le_of_not_lt more), List.take_zero]
          have last := nothing.mp empty
          by_cases nonempty : piece = []
          · rw [nonempty] at none'
            exact absurd rfl none'
          · rw [if_neg nonempty] at last
            rw [Leaves, if_pos last]
            exact ⟨length_malloc .., length.symm⟩

theorem deliver_spec (holds : Holds maxLength s held)
    (fits : ∀ n, (decoder junk maxLength).offered s = some n → piece.length ≤ n)
    (short : Short maxLength (linesFrom lf held piece)) :
    ∃ s' reported, (decoder junk maxLength).deliver s piece = some (s', reported) ∧
      reported.map SharedLine.line = (linesFrom lf held piece).1 ∧
      Leaves maxLength s piece (linesFrom lf held piece).2 s' := by
  have below := rest_length_lt short
  have offered : getBuffer maxLength s = some (maxLength - held.length) := by
    rw [getBuffer, if_neg (by rw [holds.length]; omega), holds.size, holds.length]
  have room := fits _ offered
  obtain ⟨block, written⟩ : ∃ block, writeAt s.buffer s.dataLength piece = some block :=
    ⟨_, writeAt_eq_some (by rw [holds.size, holds.length]; omega)⟩
  have content : block.take (held.length + piece.length) = held ++ piece := by
    rw [← holds.length, take_writeAt written]
    exact congrArg (· ++ piece) holds.content
  obtain ⟨s', reported, fed, rest⟩ := feed_spec junk
    ((length_writeAt written).trans holds.size) holds.length content (by omega) short
  refine ⟨s', reported, ?_, rest⟩
  change ((getBuffer maxLength s).bind fun _ => (writeAt s.buffer s.dataLength piece).bind _) = _
  rw [offered, Option.bind_some, written, Option.bind_some, fed]

/-- The number is left as it is behind a piece that ends in a line feed. -/
theorem deliver_dataLength {s' : LineMsgDecoder} {reported : List SharedLine}
    (delivered : (decoder junk maxLength).deliver s piece = some (s', reported))
    (last : piece.getLast? = some lf) : s'.dataLength = s.dataLength := by
  obtain ⟨n, -, later⟩ := Option.bind_eq_some_iff.mp delivered
  obtain ⟨block, written, fed⟩ := Option.bind_eq_some_iff.mp later
  have inside : s.dataLength + piece.length ≤ s.buffer.length := by
    unfold writeAt at written
    split at written
    · next inside => exact inside
    · cases written
  have size : (s.buffer.take s.dataLength).length = s.dataLength := by
    rw [List.length_take]
    omega
  have content : block.take ((s.buffer.take s.dataLength).length + piece.length) =
      s.buffer.take s.dataLength ++ piece := by
    rw [size, take_writeAt written]
  have nonempty : piece ≠ [] := by
    rintro rfl
    cases last
  have slice := slice_of_take content
  have cut := feedLoop_cut content
  have rest : (linesFrom lf (s.buffer.take s.dataLength) piece).2 = [] :=
    (rest_eq_nil_iff _ piece).mpr (by rwa [if_neg nonempty])
  rw [size] at slice cut
  rw [feed, slice] at fed
  cases found : feedLoop block piece 0 s.dataLength with
  | mk lines prev =>
      rw [found] at cut fed
      have noMore : ¬ prev < s.dataLength + piece.length := by
        intro more
        have left := congrArg List.length (cut.left.trans rest)
        rw [List.length_take, List.length_drop, length_writeAt written, List.length_nil] at left
        omega
      dsimp only at fed
      rw [if_neg noMore] at fed
      split at fed
      · obtain ⟨rfl, -⟩ := Prod.mk.inj (Option.some.inj fed)
        rfl
      · next none' =>
          have noLines : (linesFrom lf (s.buffer.take s.dataLength) piece).1 = [] := by
            rw [← cut.texts, List.map_eq_nil_iff]
            exact List.eq_nil_of_length_eq_zero (Nat.eq_zero_of_not_pos none')
          have whole : (linesFrom lf (s.buffer.take s.dataLength) piece).1.flatten ++ _ = _ :=
            flatten_linesFrom _ piece
          rw [noLines, rest, List.flatten_nil, List.nil_append, eq_comm] at whole
          exact absurd (List.append_eq_nil_iff.mp whole).2 nonempty

end Exchange

/-! ## Whole streams -/

section Streams

variable {junk : Nat → UInt8} {maxLength : Nat} {s : LineMsgDecoder} {held : List UInt8}

/-- The state behind the pieces, and the lines that were reported. -/
def Reaches (junk : Nat → UInt8) (maxLength : Nat) (s : LineMsgDecoder) (held : List UInt8)
    (earlier : List (List UInt8)) : Prop :=
  ∃ s' reported, (decoder junk maxLength).feedAll s earlier = some (s', reported) ∧
    reported.map SharedLine.line = (linesFrom lf held earlier.flatten).1 ∧
    Holds maxLength s' (linesFrom lf held earlier.flatten).2

/-- A piece with nothing left over goes on with a line. -/
def CleanFrom (held : List UInt8) (earlier : List (List UInt8)) (piece : List UInt8) : Prop :=
  piece.getLast? = some lf → (linesFrom lf held earlier.flatten).2 = []

theorem reaches_of_clean {pieces : List (List UInt8)} (holds : Holds maxLength s held)
    (received : (decoder junk maxLength).Always (fun s piece =>
      ∀ n, (decoder junk maxLength).offered s = some n → piece.length ≤ n) s pieces)
    (short : Short maxLength (linesFrom lf held pieces.flatten))
    (clean : ∀ earlier piece, earlier ++ [piece] <+: pieces → CleanFrom held earlier piece) :
    ∀ earlier, earlier <+: pieces → Reaches junk maxLength s held earlier := by
  induction pieces generalizing s held with
  | nil =>
      intro earlier before
      rw [List.prefix_nil.mp before]
      exact ⟨s, [], rfl, rfl, holds⟩
  | cons piece pieces ih =>
      rw [List.flatten_cons] at short
      obtain ⟨mid, reported, delivered, texts, leaves⟩ :=
        deliver_spec holds received.1 (short_append_left short)
      have midHolds : Holds maxLength mid (linesFrom lf held piece).2 := by
        unfold Leaves at leaves
        split at leaves
        · next last =>
            have nonempty : piece ≠ [] := by
              rintro rfl
              cases last
            have empty : (linesFrom lf held piece).2 = [] :=
              (rest_eq_nil_iff held piece).mpr (by rwa [if_neg nonempty])
            have none' : held = [] := clean [] piece (by simp) last
            rw [empty]
            refine ⟨leaves.1, ?_, ?_⟩
            · rw [leaves.2, holds.length, none']
            · rw [LineMsgDecoder.held, leaves.2, holds.length, none']
              rfl
        · exact leaves
      have later := ih midHolds (received.2 mid reported delivered) (short_append short)
        fun earlier next before last => by
          have whole := clean (piece :: earlier) next
            (by rw [List.cons_append]; exact (List.prefix_cons_inj piece).mpr before) last
          rwa [List.flatten_cons, linesFrom_append] at whole
      intro earlier before
      cases earlier with
      | nil => exact ⟨s, [], rfl, rfl, holds⟩
      | cons first earlier =>
          obtain ⟨rfl, inner⟩ := List.cons_prefix_cons.mp before
          obtain ⟨last, others, fed, otherTexts, lastHolds⟩ := later earlier inner
          refine ⟨last, reported ++ others, ?_, ?_, ?_⟩
          · rw [Decoder.feedAll_cons _ _ delivered, fed]
            rfl
          · rw [List.flatten_cons, linesFrom_append, List.map_append, texts, otherTexts]
          · rw [List.flatten_cons, linesFrom_append]
            exact lastHolds

theorem clean_iff (earlier : List (List UInt8)) (piece : List UInt8) :
    Clean earlier piece ↔ CleanFrom [] earlier piece := by
  rw [Clean, CleanFrom, rest_eq_nil_iff]
  by_cases empty : earlier.flatten = []
  · simp [empty]
  · simp [empty]

theorem clean_of_decodes {pieces earlier : List (List UInt8)} {piece : List UInt8}
    (decodes : Decodes junk maxLength pieces) (before : earlier ++ [piece] <+: pieces) :
    Clean earlier piece := by
  rw [clean_iff]
  intro last
  obtain ⟨s, reported, fed, -, length, -⟩ :=
    decodes earlier ((List.prefix_append earlier [piece]).trans before)
  obtain ⟨s', reported', fed', -, length', -⟩ := decodes _ before
  rw [Decoder.feedAll_append, fed, Option.bind_some] at fed'
  obtain ⟨⟨mid, out⟩, fedPiece, same⟩ := Option.map_eq_some_iff.mp fed'
  obtain ⟨⟨final, out'⟩, delivered, ended⟩ := Option.bind_eq_some_iff.mp fedPiece
  obtain ⟨rfl, -⟩ := Prod.mk.inj same
  obtain ⟨rfl, -⟩ := Prod.mk.inj (Option.some.inj ended)
  have nonempty : piece ≠ [] := by
    rintro rfl
    cases last
  have nothing : (lines lf (earlier ++ [piece]).flatten).2 = [] := by
    refine (rest_eq_nil_iff _ _).mpr ?_
    rw [List.flatten_append, List.flatten_singleton,
      if_neg (List.append_ne_nil_of_right_ne_nil _ nonempty), List.getLast?_append, last]
    rfl
  rw [nothing, deliver_dataLength delivered last, length] at length'
  exact List.eq_nil_of_length_eq_zero length'

end Streams

/-- A stream of short lines is decoded exactly when no piece ends in a line feed that ends a line of
earlier pieces. -/
theorem decodes_iff_clean (junk : Nat → UInt8) {maxLength : Nat} {pieces : List (List UInt8)}
    (received : Received junk maxLength (init junk maxLength) pieces)
    (short : Short maxLength (lines lf pieces.flatten)) :
    Decodes junk maxLength pieces ↔
      ∀ k, (inside : k < pieces.length) → Clean (pieces.take k) pieces[k] := by
  refine ⟨fun decodes k inside => clean_of_decodes decodes ?_, fun clean earlier before => ?_⟩
  · rw [← List.take_succ_eq_append_getElem inside]
    exact List.take_prefix _ _
  · have cleanFrom : ∀ earlier piece, earlier ++ [piece] <+: pieces → CleanFrom [] earlier piece := by
      rintro earlier piece ⟨later, rfl⟩
      have here := clean earlier.length (by simp)
      rw [← clean_iff]
      simpa using here
    obtain ⟨s, reported, fed, texts, holds⟩ :=
      reaches_of_clean (init_holds junk maxLength) received short cleanFrom earlier before
    exact ⟨s, reported, fed, texts, holds.length, holds.content⟩

/-- Two lines in three pieces. -/
theorem decodes_three_pieces :
    Decodes (fun _ => 0) 8 [[97, 10, 98], [99], [10, 100]] :=
  (decodes_iff_clean (fun _ => 0) (by decide +kernel) (by decide)).mpr (by decide)

/-- A line feed that arrives as the last byte of the second piece: two bytes of the new buffer count as
an unfinished line. -/
theorem not_decodes_line_end_last :
    Received (fun _ => 0) 8 (init (fun _ => 0) 8) [[97, 98], [99, 10]] ∧
      Short 8 (lines lf [[97, 98], [99, 10]].flatten) ∧
      ¬ Decodes (fun _ => 0) 8 [[97, 98], [99, 10]] := by
  refine ⟨by decide +kernel, by decide, fun decodes => ?_⟩
  have clean : Clean [[97, 98]] [99, 10] := clean_of_decodes decodes (List.prefix_refl _)
  exact absurd clean (by decide)

end MlsImgSearch.Blitz2.LineMsg
