import MlsImgSearch.Blitz.FixHeadMsg

/-!
# Fixed-head message decoding, second version

The decoder of `blitz2` owns its first buffer from `Init` on, has a length limit
of its own and hands a complete buffer over to the message. Whether it is in the
head or in the body of a message is told by comparing `data_len_` with the length
of the head and of the message.
-/

namespace MlsImgSearch.Blitz2.FixHeadMsg

open Lib.Bytes Lib.Segmentation
open Blitz.FixHeadMsg (InHead)

/-- The members of `FixHeadMsgDecoder` that change; the lengths are `uint32_t`. -/
structure FixHeadMsgDecoder where
  buffer : List UInt8
  bufferLen : Nat
  dataLen : Nat
  msgLen : Nat
  deriving DecidableEq

/-- The template and `Init` parameters, and the content of fresh memory. -/
structure Config where
  headLen : Nat
  fnGetBodyLen : List UInt8 → Option Nat
  bufStartLen : Nat
  bufMaxLen : Nat
  junk : Nat → UInt8
  positive : 1 ≤ headLen
  headRange : headLen < 2 ^ 32
  startRange : bufStartLen < 2 ^ 32
  maxRange : bufMaxLen < 2 ^ 32

variable (cfg : Config)

/-- After `Init`, and after every message. -/
def initial : FixHeadMsgDecoder := ⟨malloc cfg.junk cfg.bufStartLen, cfg.bufStartLen, 0, 0⟩

/-- Offset into the buffer and length, or `none` for -1. -/
def getBuffer (d : FixHeadMsgDecoder) : Option (Nat × Nat) :=
  if d.dataLen < cfg.headLen then some (d.dataLen, cfg.headLen - d.dataLen)
  else if d.dataLen < d.msgLen then some (d.dataLen, d.msgLen - d.dataLen)
  else none

/-- `Feed` after the reader stored `length` bytes in the buffer. -/
def feed (d : FixHeadMsgDecoder) (length : Nat) : Int × FixHeadMsgDecoder × List (List UInt8) :=
  if length = 0 then (1, d, [])
  else
    let d := { d with dataLen := (d.dataLen + length) % 2 ^ 32 }
    if d.dataLen = cfg.headLen then
      match cfg.fnGetBodyLen d.buffer with
      | none => (-1, d, [])
      | some bodyLen =>
          let d := { d with msgLen := (bodyLen + cfg.headLen) % 2 ^ 32 }
          if cfg.bufMaxLen < d.msgLen then (-2, d, [])
          else if d.bufferLen < d.msgLen then
            (0, { d with
              buffer := d.buffer.take cfg.headLen ++ (malloc cfg.junk d.msgLen).drop cfg.headLen
              bufferLen := d.msgLen }, [])
          -- an empty body does not go on to the next branch, as the source's comment expects
          else (0, d, [])
    else if d.dataLen = d.msgLen then (0, initial cfg, [d.buffer.take d.dataLen])
    else if d.msgLen < d.dataLen then (-3, d, [])
    else (0, d, [])

/-- `GetBuffer`, the reader's copy, `Feed`; `none` is a negative code or a write past the buffer. -/
def deliver (d : FixHeadMsgDecoder) (piece : List UInt8) :
    Option (FixHeadMsgDecoder × List (List UInt8)) :=
  (getBuffer cfg d).bind fun (off, _) =>
  (writeAt d.buffer off piece).bind fun block =>
    let (code, d, msgs) := feed cfg { d with buffer := block } piece.length
    if code < 0 then none else some (d, msgs)

/-- The decoder as its reader drives it. -/
def decoder : Decoder FixHeadMsgDecoder (List UInt8) :=
  ⟨fun d => (getBuffer cfg d).map Prod.snd, deliver cfg⟩

/-- A message of the framing: its head determines the length of what follows. -/
structure IsFrame (frame : List UInt8) : Prop where
  headLe : cfg.headLen ≤ frame.length
  body : ∀ rest, cfg.fnGetBodyLen (frame.take cfg.headLen ++ rest) =
    some (frame.length - cfg.headLen)
  small : frame.length ≤ cfg.bufMaxLen

/-- The buffer has room for a head, every body is non-empty, and no cut falls inside a head. -/
structure Clear (frames pieces : List (List UInt8)) : Prop where
  room : frames ≠ [] → cfg.headLen ≤ cfg.bufStartLen
  bodies : ∀ frame ∈ frames, cfg.headLen < frame.length
  cuts : ∀ k ∈ cutsFrom 0 pieces, ¬ InHead cfg.headLen 0 frames k

/-! ## One exchange -/

/-- The decoder has taken in `taken`, a part of `frame` that holds the head. -/
structure Holds (frame taken : List UInt8) (d : FixHeadMsgDecoder) : Prop where
  headIn : cfg.headLen ≤ taken.length
  part : d.buffer.take taken.length = taken
  room : frame.length ≤ d.buffer.length
  bufferLen : d.bufferLen = d.buffer.length
  dataLen : d.dataLen = taken.length
  msgLen : d.msgLen = frame.length

/-- Between two exchanges of one frame. -/
def Mid (frame taken : List UInt8) (d : FixHeadMsgDecoder) : Prop :=
  (taken = [] ∧ d = initial cfg) ∨ Holds cfg frame taken d

variable {cfg} {frame taken piece : List UInt8} {d : FixHeadMsgDecoder}

theorem getBuffer_initial : getBuffer cfg (initial cfg) = some (0, cfg.headLen) :=
  if_pos cfg.positive

theorem Holds.getBuffer_eq (holds : Holds cfg frame taken d) :
    getBuffer cfg d =
      if taken.length < frame.length then some (taken.length, frame.length - taken.length)
      else none := by
  rw [getBuffer, holds.dataLen, holds.msgLen, if_neg (Nat.not_lt.mpr holds.headIn)]

theorem deliver_eq {off n : Nat} {block : List UInt8} {code : Int} {d' : FixHeadMsgDecoder}
    {msgs : List (List UInt8)} (offer : getBuffer cfg d = some (off, n))
    (stored : writeAt d.buffer off piece = some block)
    (fed : feed cfg { d with buffer := block } piece.length = (code, d', msgs)) :
    deliver cfg d piece = if code < 0 then none else some (d', msgs) := by
  rw [deliver, offer, Option.bind_some]
  dsimp only
  rw [stored, Option.bind_some, fed]

/-- A first piece that ends inside the head makes `Feed` return -3. -/
theorem deliver_short (nonempty : piece ≠ []) (short : piece.length < cfg.headLen) :
    deliver cfg (initial cfg) piece = none := by
  rw [deliver, getBuffer_initial, Option.bind_some]
  dsimp only
  by_cases inside : 0 + piece.length ≤ (initial cfg).buffer.length
  · have some' := List.length_pos_of_ne_nil nonempty
    have range := cfg.headRange
    have wrap : (0 + piece.length) % 2 ^ 32 = piece.length := by
      rw [Nat.zero_add, Nat.mod_eq_of_lt (by omega)]
    rw [writeAt_eq_some inside, Option.bind_some]
    simp only [feed, initial, if_neg (Nat.ne_of_gt some'), wrap, if_neg (Nat.ne_of_lt short),
      if_pos some']
    rfl
  · rw [writeAt, if_neg inside]
    rfl

/-- Without room for the head the first piece is written past the buffer. -/
theorem deliver_noRoom (whole : piece.length = cfg.headLen) (room : cfg.bufStartLen < cfg.headLen) :
    deliver cfg (initial cfg) piece = none := by
  have outside : ¬ 0 + piece.length ≤ (initial cfg).buffer.length := by
    dsimp only [initial]
    rw [length_malloc]
    omega
  rw [deliver, getBuffer_initial, Option.bind_some]
  dsimp only
  rw [writeAt, if_neg outside]
  rfl

/-- A first piece that is exactly the head. -/
theorem deliver_head (frameOk : IsFrame cfg frame) (room : cfg.headLen ≤ cfg.bufStartLen)
    (part : piece <+: frame) (whole : piece.length = cfg.headLen) :
    ∃ d, deliver cfg (initial cfg) piece = some (d, []) ∧ Holds cfg frame piece d := by
  obtain ⟨headLe, body, small⟩ := frameOk
  have positive := cfg.positive
  have range := cfg.maxRange
  have headEq : frame.take cfg.headLen = piece := by
    rw [← whole]
    exact (List.prefix_iff_eq_take.mp part).symm
  have inside : 0 + piece.length ≤ (malloc cfg.junk cfg.bufStartLen).length := by
    rw [length_malloc]
    omega
  have wrap : (0 + piece.length) % 2 ^ 32 = cfg.headLen := by
    rw [Nat.zero_add, whole, Nat.mod_eq_of_lt cfg.headRange]
  have msgLen : (frame.length - cfg.headLen + cfg.headLen) % 2 ^ 32 = frame.length := by
    rw [Nat.sub_add_cancel headLe, Nat.mod_eq_of_lt (by omega)]
  obtain ⟨rest, isRest⟩ : ∃ rest, rest =
      (malloc cfg.junk cfg.bufStartLen).drop (0 + piece.length) := ⟨_, rfl⟩
  have size : (piece ++ rest).length = cfg.bufStartLen := by
    rw [isRest, List.length_append, List.length_drop, length_malloc]
    omega
  have bodyLen := body rest
  rw [headEq] at bodyLen
  have stored : writeAt (initial cfg).buffer 0 piece = some (piece ++ rest) := by
    dsimp only [initial]
    rw [writeAt_eq_some inside, List.take_zero, List.nil_append, ← isRest]
  have fed : feed cfg { initial cfg with buffer := piece ++ rest } piece.length =
      if cfg.bufStartLen < frame.length then
        (0, ⟨piece ++ (malloc cfg.junk frame.length).drop cfg.headLen, frame.length, cfg.headLen,
          frame.length⟩, [])
      else (0, ⟨piece ++ rest, cfg.bufStartLen, cfg.headLen, frame.length⟩, []) := by
    rw [feed, if_neg (by omega : piece.length ≠ 0)]
    dsimp only [initial]
    rw [wrap, if_pos rfl, bodyLen]
    dsimp only
    rw [msgLen, if_neg (Nat.not_lt.mpr small), List.take_left' whole]
  by_cases grow : cfg.bufStartLen < frame.length
  · rw [if_pos grow] at fed
    refine ⟨_, deliver_eq getBuffer_initial stored fed, Nat.le_of_eq whole.symm,
      List.take_left' rfl, ?_, ?_, whole.symm, rfl⟩ <;>
    · dsimp only
      rw [List.length_append, List.length_drop, length_malloc]
      omega
  · rw [if_neg grow] at fed
    refine ⟨_, deliver_eq getBuffer_initial stored fed, Nat.le_of_eq whole.symm,
      List.take_left' rfl, ?_, size.symm, whole.symm, rfl⟩
    dsimp only
    omega

/-- Every later piece of a frame. -/
theorem deliver_body (frameOk : IsFrame cfg frame) (holds : Holds cfg frame taken d)
    (part : taken ++ piece <+: frame) (nonempty : piece ≠ []) :
    (taken ++ piece = frame ∧ deliver cfg d piece = some (initial cfg, [frame])) ∨
      (taken ++ piece).length < frame.length ∧
        ∃ d', deliver cfg d piece = some (d', []) ∧ Holds cfg frame (taken ++ piece) d' := by
  have some' := List.length_pos_of_ne_nil nonempty
  have fits := part.length_le
  have headIn := holds.headIn
  have small := frameOk.small
  have range := cfg.maxRange
  rw [List.length_append] at fits
  have inside : taken.length + piece.length ≤ d.buffer.length := Nat.le_trans fits holds.room
  have wrap : (taken.length + piece.length) % 2 ^ 32 = taken.length + piece.length :=
    Nat.mod_eq_of_lt (by omega)
  obtain ⟨written, stored⟩ : ∃ written, writeAt d.buffer taken.length piece = some written :=
    ⟨_, writeAt_eq_some inside⟩
  have read : written.take (taken.length + piece.length) = taken ++ piece := by
    rw [take_writeAt stored, holds.part]
  have offer := holds.getBuffer_eq
  rw [if_pos (by omega)] at offer
  have fed : feed cfg { d with buffer := written } piece.length =
      if taken.length + piece.length = frame.length then (0, initial cfg, [taken ++ piece])
      else (0, ⟨written, d.bufferLen, taken.length + piece.length, d.msgLen⟩, []) := by
    rw [feed, if_neg (by omega : piece.length ≠ 0)]
    dsimp only
    rw [holds.dataLen, wrap, if_neg (by omega), holds.msgLen, read]
    by_cases full : taken.length + piece.length = frame.length
    · rw [if_pos full, if_pos full]
    · rw [if_neg full, if_neg full, if_neg (by omega)]
  by_cases full : taken.length + piece.length = frame.length
  · have whole : taken ++ piece = frame :=
      part.eq_of_length (by rw [List.length_append, full])
    rw [if_pos full, whole] at fed
    exact Or.inl ⟨whole, deliver_eq offer stored fed⟩
  · rw [if_neg full] at fed
    refine Or.inr ⟨by rw [List.length_append]; omega, _, deliver_eq offer stored fed,
      ?_, ?_, ?_, ?_, ?_, holds.msgLen⟩
    · rw [List.length_append]
      omega
    · rw [List.length_append]
      exact read
    · rw [length_writeAt stored]
      exact holds.room
    · rw [length_writeAt stored]
      exact holds.bufferLen
    · rw [List.length_append]

/-! ## Whole streams -/

/-- A frame without a body is never handed over. -/
theorem not_emits_empty (holds : Holds cfg frame frame d) (pieces rest : List (List UInt8)) :
    ¬ (decoder cfg).Emits d pieces (frame :: rest) := by
  cases pieces with
  | nil =>
      rw [Decoder.emits_nil]
      exact List.cons_ne_nil _ _
  | cons piece pieces =>
      apply Decoder.not_emits
      show deliver cfg d piece = none
      rw [deliver, holds.getBuffer_eq, if_neg (Nat.lt_irrefl _)]
      rfl

/-- The cuts behind a frame lie in no head before them. -/
theorem inHead_cons_iff {base k : Nat} {frames : List (List UInt8)}
    (headLe : cfg.headLen ≤ frame.length) (behind : base + frame.length ≤ k) :
    InHead cfg.headLen base (frame :: frames) k ↔
      InHead cfg.headLen (base + frame.length) frames k := by
  constructor
  · rintro (⟨-, inside⟩ | beyond)
    · omega
    · exact beyond
  · exact Or.inr

/-- What the pieces of the stream from inside a frame on come to. -/
theorem emits_mid (room : cfg.headLen ≤ cfg.bufStartLen) (base : Nat)
    (pieces rest : List (List UInt8)) (frame taken : List UInt8) (d : FixHeadMsgDecoder)
    (mid : Mid cfg frame taken d) (open' : taken.length < frame.length)
    (framesOk : ∀ f ∈ frame :: rest, IsFrame cfg f)
    (stream : taken ++ pieces.flatten = frame ++ rest.flatten)
    (within : (decoder cfg).Within d pieces) :
    (decoder cfg).Emits d pieces (frame :: rest) ↔
      (∀ f ∈ frame :: rest, cfg.headLen < f.length) ∧
        ∀ k ∈ cutsFrom (base + taken.length) pieces,
          ¬ InHead cfg.headLen base (frame :: rest) k := by
  induction pieces generalizing base rest frame taken d with
  | nil =>
      have lengths := congrArg List.length stream
      simp only [List.flatten_nil, List.append_nil, List.length_append] at lengths
      omega
  | cons piece pieces ih =>
      obtain ⟨nonempty, bound⟩ := within.1
      have some' := List.length_pos_of_ne_nil nonempty
      have frameOk := framesOk frame (List.mem_cons_self ..)
      have headLe := frameOk.headLe
      have stream' : (taken ++ piece) ++ pieces.flatten = frame ++ rest.flatten := by
        simpa using stream
      have cuts : (∀ k ∈ cutsFrom (base + taken.length) (piece :: pieces),
            ¬ InHead cfg.headLen base (frame :: rest) k) ↔
          ¬ InHead cfg.headLen base (frame :: rest) (base + (taken.length + piece.length)) ∧
            ∀ k ∈ cutsFrom (base + (taken.length + piece.length)) pieces,
              ¬ InHead cfg.headLen base (frame :: rest) k := by
        rw [cutsFrom, List.forall_mem_cons, Nat.add_assoc]
      rw [cuts]
      -- a cut that is not in the head of this frame is in no head
      have clear : cfg.headLen ≤ taken.length + piece.length →
          taken.length + piece.length ≤ frame.length →
          ¬ InHead cfg.headLen base (frame :: rest) (base + (taken.length + piece.length)) := by
        rintro past inside (⟨-, wrong⟩ | beyond)
        · omega
        · have := beyond.lt
          omega
      rcases mid with ⟨rfl, rfl⟩ | holds
      · have offer : piece.length ≤ cfg.headLen := bound cfg.headLen (by
          show (getBuffer cfg (initial cfg)).map Prod.snd = _
          rw [getBuffer_initial]
          rfl)
        rw [List.nil_append] at stream'
        rw [List.length_nil, Nat.zero_add] at clear ⊢
        by_cases short : piece.length < cfg.headLen
        · refine iff_of_false (Decoder.not_emits (deliver_short nonempty short)) ?_
          rintro ⟨-, here, -⟩
          exact here (Or.inl ⟨by omega, by omega⟩)
        · have whole : piece.length = cfg.headLen := by omega
          have part : piece <+: frame := by
            have inside := isPrefix_of_flatten stream (by rw [List.length_nil]; omega)
            exact inside
          obtain ⟨d', taken', holds⟩ := deliver_head frameOk room part whole
          rw [Decoder.emits_cons_nil taken']
          by_cases empty : frame.length = cfg.headLen
          · have same : piece = frame := part.eq_of_length (by omega)
            rw [same] at holds
            refine iff_of_false (not_emits_empty holds _ _) fun both => ?_
            have body := both.1 frame (List.mem_cons_self ..)
            omega
          · rw [ih base rest frame piece d' (Or.inr holds) (by omega) framesOk stream'
              (within.tail taken'), and_iff_right (clear (by omega) (by omega))]
      · have headIn := holds.headIn
        have inside : taken.length + piece.length ≤ frame.length := by
          have offer := bound (frame.length - taken.length) (by
            show (getBuffer cfg d).map Prod.snd = _
            rw [holds.getBuffer_eq, if_pos open']
            rfl)
          omega
        have here := clear (by omega) inside
        rw [and_iff_right here]
        rcases deliver_body frameOk holds (isPrefix_of_flatten stream inside) nonempty with
          ⟨complete, result⟩ | ⟨open'', d', result, holds'⟩
        · rw [Decoder.emits_cons_one result]
          have size : taken.length + piece.length = frame.length := by
            rw [← complete, List.length_append]
          have remaining : pieces.flatten = rest.flatten := by
            rw [complete] at stream'
            exact List.append_cancel_left stream'
          have within' := within.tail result
          rw [size]
          cases rest with
          | nil =>
              obtain rfl := within'.eq_nil_of_flatten remaining
              refine iff_of_true (Decoder.emits_nil.mpr rfl) ⟨fun f member => ?_, ?_⟩
              · obtain rfl := List.mem_singleton.mp member
                omega
              · exact fun k member => absurd member List.not_mem_nil
          | cons next rest =>
              have nextOk := framesOk next (List.mem_cons_of_mem _ (List.mem_cons_self ..))
              have some'' : ([] : List UInt8).length < next.length :=
                Nat.lt_of_lt_of_le cfg.positive nextOk.headLe
              rw [ih (base + frame.length) rest next [] (initial cfg) (Or.inl ⟨rfl, rfl⟩) some''
                (fun f member => framesOk f (List.mem_cons_of_mem _ member)) remaining within',
                List.length_nil, Nat.add_zero, List.forall_mem_cons (a := frame),
                and_iff_right (by omega : cfg.headLen < frame.length)]
              refine and_congr_right fun _ => forall₂_congr fun k member => not_congr ?_
              exact (inHead_cons_iff headLe (le_of_mem_cutsFrom member)).symm
        · rw [Decoder.emits_cons_nil result,
            ih base rest frame (taken ++ piece) d' (Or.inr holds') open'' framesOk stream'
              (within.tail result), List.length_append]

/-- The frames come out exactly when the pieces are clear. -/
theorem emits_iff_clear (frames pieces : List (List UInt8)) (framesOk : ∀ f ∈ frames, IsFrame cfg f)
    (stream : pieces.flatten = frames.flatten)
    (within : (decoder cfg).Within (initial cfg) pieces) :
    (decoder cfg).Emits (initial cfg) pieces frames ↔ Clear cfg frames pieces := by
  cases frames with
  | nil =>
      obtain rfl := within.eq_nil_of_flatten stream
      refine iff_of_true (Decoder.emits_nil.mpr rfl) ⟨fun some' => absurd rfl some', ?_, ?_⟩
      · exact fun f member => nomatch member
      · exact fun k member => nomatch member
  | cons frame rest =>
      have frameOk := framesOk frame (List.mem_cons_self ..)
      have positive : ([] : List UInt8).length < frame.length :=
        Nat.lt_of_lt_of_le cfg.positive frameOk.headLe
      by_cases room : cfg.headLen ≤ cfg.bufStartLen
      · have run := emits_mid room 0 pieces rest frame [] (initial cfg) (Or.inl ⟨rfl, rfl⟩) positive
          framesOk stream within
        rw [run]
        exact ⟨fun both => ⟨fun _ => room, both.1, both.2⟩, fun clear => ⟨clear.bodies, clear.cuts⟩⟩
      · refine iff_of_false ?_ fun clear => room (clear.room (List.cons_ne_nil _ _))
        cases pieces with
        | nil =>
            rw [Decoder.emits_nil]
            exact List.cons_ne_nil _ _
        | cons piece pieces =>
            obtain ⟨nonempty, bound⟩ := within.1
            have offer : piece.length ≤ cfg.headLen := bound cfg.headLen (by
              show (getBuffer cfg (initial cfg)).map Prod.snd = _
              rw [getBuffer_initial]
              rfl)
            apply Decoder.not_emits
            rcases Nat.lt_or_eq_of_le offer with short | whole
            · exact deliver_short nonempty short
            · exact deliver_noRoom whole (Nat.lt_of_not_le room)

/-! ## Too long frames -/

/-- `Feed` returns a negative code. -/
def Rejects (cfg : Config) (d : FixHeadMsgDecoder) (length : Nat) : Prop := (feed cfg d length).1 < 0

/-- The next `length` bytes complete a head that announces a body of `bodyLen` bytes. -/
structure Announces (cfg : Config) (d : FixHeadMsgDecoder) (length bodyLen : Nat) : Prop where
  some' : 0 < length
  whole : d.dataLen + length = cfg.headLen
  body : cfg.fnGetBodyLen d.buffer = some bodyLen

theorem rejects_iff {length bodyLen : Nat} (head : Announces cfg d length bodyLen) :
    Rejects cfg d length ↔ cfg.bufMaxLen < (bodyLen + cfg.headLen) % 2 ^ 32 := by
  rw [Rejects, feed, if_neg (Nat.ne_of_gt head.some')]
  dsimp only
  rw [head.whole, Nat.mod_eq_of_lt cfg.headRange, if_pos rfl, head.body]
  dsimp only
  by_cases long : cfg.bufMaxLen < (bodyLen + cfg.headLen) % 2 ^ 32
  · rw [if_pos long]
    exact iff_of_true (by decide : (-2 : Int) < 0) long
  · rw [if_neg long]
    refine iff_of_false ?_ long
    split <;> exact Int.lt_irrefl 0

/-- Heads of two bytes; the second one is the length of the body, and 255 stands for the largest
length. -/
def byteConfig : Config where
  headLen := 2
  fnGetBodyLen
    | _ :: 255 :: _ => some (2 ^ 32 - 1)
    | _ :: b :: _ => some b.toNat
    | _ => none
  bufStartLen := 4
  bufMaxLen := 100
  junk := fun _ => 0
  positive := by decide
  headRange := by decide
  startRange := by decide
  maxRange := by decide

theorem byteConfig_isFrame {b : UInt8} {body : List UInt8} (notLargest : b ≠ 255)
    (size : b.toNat = body.length) (small : body.length ≤ 98) :
    IsFrame byteConfig (9 :: b :: body) := by
  refine ⟨Nat.le_add_left 2 body.length, fun rest => ?_, ?_⟩
  · show byteConfig.fnGetBodyLen (9 :: b :: rest) = some body.length
    unfold byteConfig
    dsimp only
    split
    · next same =>
        exact absurd (List.cons.inj (List.cons.inj same).2).1 notLargest
    · next same =>
        rw [← (List.cons.inj (List.cons.inj same).2).1, size]
    · next _ other => exact absurd rfl (other 9 b rest)
  · show body.length + 1 + 1 ≤ 100
    omega

end MlsImgSearch.Blitz2.FixHeadMsg
