import MlsImgSearch.Lib.Segmentation

/-!
# Fixed-head message decoding

`FixHeadMsgDecoder` reads a head of `head_len_` bytes, asks a function for the
body length, grows its buffer to the whole message and hands the buffer over
when the message is complete.
-/

namespace MlsImgSearch.Blitz.FixHeadMsg

open Lib.Bytes Lib.Segmentation

/-- The members of `FixHeadMsgDecoder` that change; the lengths are `uint32_t`. -/
structure FixHeadMsgDecoder where
  buffer : Option (List UInt8)
  bufferLen : Nat
  dataLen : Nat
  msgLen : Nat
  deriving DecidableEq, Repr

def FixHeadMsgDecoder.initial : FixHeadMsgDecoder := ⟨none, 0, 0, 0⟩

/-- The construction arguments, and the content of fresh memory. -/
structure Config where
  headLen : Nat
  fnGetBodyLen : List UInt8 → Option Nat
  junk : Nat → UInt8

variable (cfg : Config)

/-- `GetBuffer`: offset into the buffer and length, or `none` for -1. -/
def getBuffer (d : FixHeadMsgDecoder) : FixHeadMsgDecoder × Option (Nat × Nat) :=
  let d := if d.buffer.isNone then
      { d with buffer := some (malloc cfg.junk 1024), bufferLen := 1024 }
    else d
  if d.dataLen < cfg.headLen then (d, some (d.dataLen, cfg.headLen - d.dataLen))
  else if d.dataLen < d.msgLen then (d, some (d.dataLen, d.msgLen - d.dataLen))
  else (d, none)

/-- The end of `Feed`: emit a complete message, reject an overlong one, or wait. -/
def finish (d : FixHeadMsgDecoder) (block : List UInt8) :
    Int × FixHeadMsgDecoder × List (List UInt8) :=
  if d.dataLen = d.msgLen then (0, .initial, [block.take d.msgLen])
  else if d.dataLen > d.msgLen then (-3, d, [])
  else (1, d, [])

/-- `Feed` after the reader stored `length` bytes in the buffer. -/
def feed (d : FixHeadMsgDecoder) (length : Nat) : Int × FixHeadMsgDecoder × List (List UInt8) :=
  if length = 0 then (1, d, [])
  else
    let block := d.buffer.getD []
    let d := { d with dataLen := (d.dataLen + length) % 2 ^ 32 }
    if d.dataLen = cfg.headLen then
      match cfg.fnGetBodyLen block with
      | none => (-1, d, [])
      | some bodyLen =>
          let d := { d with msgLen := (bodyLen + cfg.headLen) % 2 ^ 32 }
          if d.msgLen > 256 * 1024 * 1024 then (-2, d, [])
          else if d.bufferLen < d.msgLen then
            let block := block.take cfg.headLen ++ (malloc cfg.junk d.msgLen).drop cfg.headLen
            finish { d with buffer := some block, bufferLen := d.msgLen } block
          else finish d block
    else finish d block

/-- The length that `GetBuffer` offers. -/
def offered (d : FixHeadMsgDecoder) : Option Nat := (getBuffer cfg d).2.map Prod.snd

/-- `GetBuffer`, the reader's copy, `Feed`; `none` is a negative code or a write past the buffer. -/
def deliver (d : FixHeadMsgDecoder) (piece : List UInt8) :
    Option (FixHeadMsgDecoder × List (List UInt8)) :=
  match getBuffer cfg d with
  | (_, none) => none
  | (d, some (off, _)) =>
      (d.buffer.bind fun block => writeAt block off piece).bind fun block =>
        let (code, d, msgs) := feed cfg { d with buffer := some block } piece.length
        if code < 0 then none else some (d, msgs)

/-- The decoder as its reader drives it. -/
def decoder : Decoder FixHeadMsgDecoder (List UInt8) := ⟨offered cfg, deliver cfg⟩

/-! ## One exchange -/

/-- A message of the framing: its head determines the length of what follows. -/
structure IsFrame (frame : List UInt8) : Prop where
  head_le : cfg.headLen ≤ frame.length
  body : ∀ rest, cfg.fnGetBodyLen (frame.take cfg.headLen ++ rest) =
    some (frame.length - cfg.headLen)
  small : frame.length ≤ 256 * 1024 * 1024

/-- The decoder has taken in `taken`, a proper prefix of `frame` that is empty or holds the head. -/
structure Holds (frame taken : List UInt8) (d : FixHeadMsgDecoder) (block : List UInt8) : Prop where
  buffer : d.buffer = some block
  isPrefix : block.take taken.length = taken
  room : frame.length ≤ block.length
  bufferLen : d.bufferLen = block.length
  dataLen : d.dataLen = taken.length
  msgLen : d.msgLen = frame.length

/-- Between two exchanges of one frame. -/
def Mid (frame taken : List UInt8) (d : FixHeadMsgDecoder) : Prop :=
  (taken = [] ∧ d = .initial) ∨ (cfg.headLen ≤ taken.length ∧ ∃ block, Holds frame taken d block)

variable {cfg} {frame taken piece : List UInt8} {d : FixHeadMsgDecoder}

theorem getBuffer_initial (positive : 0 < cfg.headLen) :
    getBuffer cfg .initial =
      (⟨some (malloc cfg.junk 1024), 1024, 0, 0⟩, some (0, cfg.headLen)) := by
  simp [getBuffer, FixHeadMsgDecoder.initial, positive]

theorem offered_initial (positive : 0 < cfg.headLen) :
    (decoder cfg).offered .initial = some cfg.headLen := by
  simp [decoder, offered, getBuffer_initial positive]

theorem decoder_deliver (d : FixHeadMsgDecoder) (piece : List UInt8) :
    (decoder cfg).deliver d piece = deliver cfg d piece := rfl

theorem getBuffer_holds {block : List UInt8} (holds : Holds frame taken d block)
    (headIn : cfg.headLen ≤ taken.length) (open' : taken.length < frame.length) :
    getBuffer cfg d = (d, some (taken.length, frame.length - taken.length)) := by
  have notHead : ¬ taken.length < cfg.headLen := Nat.not_lt.mpr headIn
  simp [getBuffer, holds.buffer, holds.dataLen, holds.msgLen, notHead, open']

/-- A first piece that ends inside the head makes `Feed` return -3. -/
theorem deliver_short (positive : 0 < cfg.headLen) (room : cfg.headLen ≤ 1024)
    (nonempty : piece ≠ []) (short : piece.length < cfg.headLen) :
    deliver cfg .initial piece = none := by
  have some' : 0 < piece.length := List.length_pos_of_ne_nil nonempty
  have inside : 0 + piece.length ≤ (malloc cfg.junk 1024).length := by
    rw [length_malloc]
    omega
  have small : piece.length % 2 ^ 32 = piece.length := Nat.mod_eq_of_lt (by omega)
  have notZero : piece.length ≠ 0 := by omega
  have notHead : piece.length ≠ cfg.headLen := by omega
  rw [deliver, getBuffer_initial positive]
  simp only [Option.bind_some, writeAt_eq_some inside, feed, if_neg notZero, Option.getD_some,
    Nat.zero_add, small, if_neg notHead, finish, if_pos some']
  rfl

/-- How an exchange that took the input of a frame to `taken` ends. -/
def Outcome (cfg : Config) (frame taken : List UInt8)
    (result : Option (FixHeadMsgDecoder × List (List UInt8))) : Prop :=
  (taken = frame ∧ result = some (.initial, [frame])) ∨
    (taken.length < frame.length ∧ ∃ d, result = some (d, []) ∧ Mid cfg frame taken d)

/-- `finish` on a buffer that holds what was taken in of a frame. -/
theorem finish_outcome {block : List UInt8} (holds : Holds frame taken d block)
    (headIn : cfg.headLen ≤ taken.length) (part : taken <+: frame) :
    Outcome cfg frame taken (some (finish d block).2) ∧ ¬ (finish d block).1 < 0 := by
  unfold finish
  rw [holds.dataLen, holds.msgLen]
  rcases Nat.lt_or_ge taken.length frame.length with less | full
  · rw [if_neg (Nat.ne_of_lt less), if_neg (Nat.not_lt.mpr (Nat.le_of_lt less))]
    exact ⟨Or.inr ⟨less, d, rfl, Or.inr ⟨headIn, block, holds⟩⟩, by simp⟩
  · have whole : taken = frame := part.eq_of_length_le full
    subst whole
    rw [if_pos rfl]
    refine ⟨Or.inl ⟨rfl, ?_⟩, by simp⟩
    rw [holds.isPrefix]

/-- A first piece that is exactly the head. -/
theorem deliver_head (frameOk : IsFrame cfg frame) (positive : 0 < cfg.headLen)
    (room : cfg.headLen ≤ 1024) (part : piece <+: frame) (whole : piece.length = cfg.headLen) :
    Outcome cfg frame piece (deliver cfg .initial piece) := by
  obtain ⟨headLe, body, small⟩ := frameOk
  have headEq : frame.take cfg.headLen = piece := by
    rw [← whole]
    exact (List.prefix_iff_eq_take.mp part).symm
  have inside : 0 + piece.length ≤ (malloc cfg.junk 1024).length := by
    rw [length_malloc]
    omega
  have wrap : piece.length % 2 ^ 32 = cfg.headLen := by rw [Nat.mod_eq_of_lt (by omega), whole]
  have notZero : piece.length ≠ 0 := by omega
  have msgLen : (frame.length - cfg.headLen + cfg.headLen) % 2 ^ 32 = frame.length := by
    rw [Nat.sub_add_cancel headLe, Nat.mod_eq_of_lt (by omega)]
  have notLarge : ¬ frame.length > 256 * 1024 * 1024 := Nat.not_lt.mpr small
  have bodyLen := body ((malloc cfg.junk 1024).drop piece.length)
  rw [headEq] at bodyLen
  rw [deliver, getBuffer_initial positive]
  simp only [Option.bind_some, writeAt_eq_some inside, List.take_zero, List.nil_append,
    Nat.zero_add, feed, Option.getD_some, if_neg notZero, wrap, if_true, bodyLen, msgLen,
    if_neg notLarge]
  by_cases grow : 1024 < frame.length
  · rw [if_pos grow]
    have blockTake : (piece ++ (malloc cfg.junk 1024).drop piece.length).take cfg.headLen = piece :=
      List.take_left' whole
    rw [blockTake]
    have holds : Holds frame piece
        ⟨some (piece ++ (malloc cfg.junk frame.length).drop cfg.headLen), frame.length,
          cfg.headLen, frame.length⟩ (piece ++ (malloc cfg.junk frame.length).drop cfg.headLen) := by
      have len : (piece ++ (malloc cfg.junk frame.length).drop cfg.headLen).length = frame.length := by
        rw [List.length_append, List.length_drop, length_malloc]
        omega
      exact ⟨rfl, List.take_left' rfl, Nat.le_of_eq len.symm, len.symm, whole.symm, rfl⟩
    obtain ⟨outcome, nonneg⟩ := finish_outcome holds (Nat.le_of_eq whole.symm) part
    rw [if_neg nonneg]
    exact outcome
  · rw [if_neg grow]
    have holds : Holds frame piece
        ⟨some (piece ++ (malloc cfg.junk 1024).drop piece.length), 1024, cfg.headLen, frame.length⟩
        (piece ++ (malloc cfg.junk 1024).drop piece.length) := by
      have len : (piece ++ (malloc cfg.junk 1024).drop piece.length).length = 1024 := by
        rw [List.length_append, List.length_drop, length_malloc]
        omega
      exact ⟨rfl, List.take_left' rfl, by omega, len.symm, whole.symm, rfl⟩
    obtain ⟨outcome, nonneg⟩ := finish_outcome holds (Nat.le_of_eq whole.symm) part
    rw [if_neg nonneg]
    exact outcome

/-- Every later piece of a frame. -/
theorem deliver_body {block : List UInt8} (frameOk : IsFrame cfg frame)
    (holds : Holds frame taken d block) (headIn : cfg.headLen ≤ taken.length)
    (part : taken ++ piece <+: frame) (nonempty : piece ≠ []) :
    Outcome cfg frame (taken ++ piece) (deliver cfg d piece) := by
  have some' : 0 < piece.length := List.length_pos_of_ne_nil nonempty
  have fits := part.length_le
  rw [List.length_append] at fits
  have inside : taken.length + piece.length ≤ block.length := Nat.le_trans fits holds.room
  have small := frameOk.small
  have wrap : (taken.length + piece.length) % 2 ^ 32 = taken.length + piece.length :=
    Nat.mod_eq_of_lt (by omega)
  have notZero : piece.length ≠ 0 := by omega
  have notHead : taken.length + piece.length ≠ cfg.headLen := by omega
  obtain ⟨written, stored⟩ : ∃ written, writeAt block taken.length piece = some written :=
    ⟨_, writeAt_eq_some inside⟩
  have stays : Holds frame (taken ++ piece)
      { d with buffer := some written, dataLen := taken.length + piece.length } written := by
    refine ⟨rfl, ?_, ?_, ?_, by simp, holds.msgLen⟩
    · rw [List.length_append, take_writeAt stored, holds.isPrefix]
    · rw [length_writeAt stored]
      exact holds.room
    · rw [length_writeAt stored]
      exact holds.bufferLen
  rw [deliver, getBuffer_holds holds headIn (by omega)]
  simp only [holds.buffer, Option.bind_some, stored, feed, if_neg notZero, holds.dataLen, wrap,
    if_neg notHead, Option.getD_some]
  have headIn' : cfg.headLen ≤ (taken ++ piece).length := by
    rw [List.length_append]
    omega
  obtain ⟨outcome, nonneg⟩ := finish_outcome stays headIn' part
  rw [if_neg nonneg]
  exact outcome

/-! ## Whole streams -/

/-- Stream offset `k` lies strictly inside the head of one of the frames that start at `start`. -/
def InHead (headLen : Nat) : Nat → List (List UInt8) → Nat → Prop
  | _, [], _ => False
  | start, frame :: rest, k =>
      (start < k ∧ k < start + headLen) ∨ InHead headLen (start + frame.length) rest k

theorem InHead.lt {headLen start k : Nat} {frames : List (List UInt8)}
    (inHead : InHead headLen start frames k) : start < k := by
  induction frames generalizing start with
  | nil => exact inHead.elim
  | cons frame rest ih =>
      rcases inHead with here | later
      · exact here.1
      · exact Nat.lt_of_le_of_lt (Nat.le_add_right _ _) (ih later)

/-- The law of the claim for one list of frames and one list of pieces. -/
def Reassembles (cfg : Config) (frames pieces : List (List UInt8)) : Prop :=
  (∃ d, (decoder cfg).feedAll .initial pieces = some (d, frames)) ∧
    (decoder cfg).ReturnsTo .initial .initial pieces

/-- A frame in progress: without a cut inside a head all frames come out, otherwise `Feed` fails. -/
theorem mid_run (positive : 0 < cfg.headLen) (room : cfg.headLen ≤ 1024) (base : Nat)
    (pieces rest : List (List UInt8)) (frame taken : List UInt8) (d : FixHeadMsgDecoder)
    (mid : Mid cfg frame taken d) (part : taken <+: frame) (open' : taken.length < frame.length)
    (framesOk : ∀ f ∈ frame :: rest, IsFrame cfg f)
    (stream : taken ++ pieces.flatten = frame ++ rest.flatten)
    (fits : (decoder cfg).Fits d pieces) :
    ((∀ k ∈ cutsFrom (base + taken.length) pieces, ¬ InHead cfg.headLen base (frame :: rest) k) →
      (decoder cfg).feedAll d pieces = some (.initial, frame :: rest) ∧
        (decoder cfg).ReturnsTo .initial d pieces) ∧
    (¬ (∀ k ∈ cutsFrom (base + taken.length) pieces, ¬ InHead cfg.headLen base (frame :: rest) k) →
      (decoder cfg).feedAll d pieces = none) := by
  induction pieces generalizing base rest frame taken d with
  | nil =>
      have lengths := congrArg List.length stream
      simp only [List.flatten_nil, List.append_nil, List.length_append] at lengths
      omega
  | cons piece pieces ih =>
      obtain ⟨nonempty, ⟨n, offer, bound⟩, later⟩ := fits
      have frameOk := framesOk frame (List.mem_cons_self ..)
      have cuts : cutsFrom (base + taken.length) (piece :: pieces) =
          (base + taken.length + piece.length) ::
            cutsFrom (base + (taken.length + piece.length)) pieces := by
        rw [cutsFrom, Nat.add_assoc]
      have inside : taken.length + piece.length ≤ frame.length := by
        rcases mid with ⟨rfl, rfl⟩ | ⟨headIn, block, holds⟩
        · have offer' : n = cfg.headLen := by simpa [offered_initial positive] using offer.symm
          have := frameOk.head_le
          simp only [List.length_nil]
          omega
        · have offer' : n = frame.length - taken.length := by
            simpa [decoder, offered, getBuffer_holds holds headIn open'] using offer.symm
          omega
      have taken' := isPrefix_of_flatten stream inside
      by_cases short : taken = [] ∧ piece.length < cfg.headLen
      · obtain ⟨rfl, short⟩ := short
        have start : d = .initial := by
          rcases mid with ⟨-, eq⟩ | ⟨headIn, -⟩
          · exact eq
          · exact absurd headIn (Nat.not_le.mpr positive)
        subst start
        have failed : (decoder cfg).feedAll .initial (piece :: pieces) = none :=
          Decoder.feedAll_cons_none (deliver_short positive room nonempty short)
        have some' := List.length_pos_of_ne_nil nonempty
        refine ⟨fun clear => ?_, fun _ => failed⟩
        refine absurd (Or.inl ?_) (clear (base + 0 + piece.length) (List.mem_cons_self ..))
        omega
      · have pastHead : cfg.headLen ≤ taken.length + piece.length ∧
            Outcome cfg frame (taken ++ piece) (deliver cfg d piece) := by
          rcases mid with ⟨rfl, rfl⟩ | ⟨headIn, block, holds⟩
          · have offer' : n = cfg.headLen := by simpa [offered_initial positive] using offer.symm
            have whole : piece.length = cfg.headLen := by
              have := not_and.mp short rfl
              omega
            exact ⟨by simp [whole], deliver_head frameOk positive room taken' whole⟩
          · exact ⟨by omega, deliver_body frameOk holds headIn taken' nonempty⟩
        obtain ⟨pastHead, outcome⟩ := pastHead
        have hereOk : ¬ InHead cfg.headLen base (frame :: rest) (base + taken.length + piece.length) := by
          rintro (⟨-, lt⟩ | beyond)
          · omega
          · have := beyond.lt
            omega
        have condition : (∀ k ∈ cutsFrom (base + taken.length) (piece :: pieces),
              ¬ InHead cfg.headLen base (frame :: rest) k) ↔
            ∀ k ∈ cutsFrom (base + (taken.length + piece.length)) pieces,
              ¬ InHead cfg.headLen base (frame :: rest) k := by
          rw [cuts, List.forall_mem_cons]
          exact and_iff_right hereOk
        rw [condition]
        have stream' : (taken ++ piece) ++ pieces.flatten = frame ++ rest.flatten := by
          simpa using stream
        rcases outcome with ⟨complete, result⟩ | ⟨open'', d', result, mid'⟩
        · have remaining : pieces.flatten = rest.flatten := by
            rw [complete] at stream'
            exact List.append_cancel_left stream'
          have fits' := later _ _ result
          have fed := (decoder cfg).feedAll_cons pieces result
          have size : taken.length + piece.length = frame.length := by
            rw [← complete, List.length_append]
          rw [size]
          cases rest with
          | nil =>
              have noMore : pieces = [] := fits'.eq_nil_of_flatten (by simpa using remaining)
              subst noMore
              refine ⟨fun _ => ⟨by rw [fed]; rfl, ?_⟩, fun bad => absurd (by simp [cutsFrom]) bad⟩
              intro s out eq
              obtain ⟨rfl, rfl⟩ := Prod.mk.inj (Option.some.inj (result.symm.trans eq))
              exact ⟨fun _ => rfl, trivial⟩
          | cons next rest =>
              have nextOk := framesOk next (by simp)
              have tail := ih (base + frame.length) rest next [] .initial (Or.inl ⟨rfl, rfl⟩)
                List.nil_prefix (by simpa using Nat.lt_of_lt_of_le positive nextOk.head_le)
                (fun f hf => framesOk f (List.mem_cons_of_mem _ hf)) (by simpa using remaining) fits'
              have shift : (∀ k ∈ cutsFrom (base + frame.length) pieces,
                    ¬ InHead cfg.headLen base (frame :: next :: rest) k) ↔
                  ∀ k ∈ cutsFrom (base + frame.length + 0) pieces,
                    ¬ InHead cfg.headLen (base + frame.length) (next :: rest) k := by
                refine forall₂_congr fun k member => not_congr ?_
                have ge := le_of_mem_cutsFrom member
                have := frameOk.head_le
                constructor
                · rintro (⟨-, lt⟩ | beyond)
                  · omega
                  · exact beyond
                · exact Or.inr
              rw [shift]
              refine ⟨fun clear => ?_, fun bad => ?_⟩
              · obtain ⟨done, returns⟩ := tail.1 clear
                refine ⟨by rw [fed, done]; rfl, fun s out eq => ?_⟩
                obtain ⟨rfl, rfl⟩ := Prod.mk.inj (Option.some.inj (result.symm.trans eq))
                exact ⟨fun _ => rfl, returns⟩
              · rw [fed, tail.2 bad]
                rfl
        · have fits' := later _ _ result
          have fed := (decoder cfg).feedAll_cons pieces result
          have tail := ih base rest frame (taken ++ piece) d' mid' taken' open'' framesOk stream' fits'
          rw [List.length_append] at tail
          refine ⟨fun clear => ?_, fun bad => ?_⟩
          · obtain ⟨done, returns⟩ := tail.1 clear
            refine ⟨by rw [fed, done]; rfl, fun s out eq => ?_⟩
            obtain ⟨rfl, rfl⟩ := Prod.mk.inj (Option.some.inj (result.symm.trans eq))
            exact ⟨fun impossible => absurd rfl impossible, returns⟩
          · rw [fed, tail.2 bad]
            rfl

/-- Frames are reassembled from their pieces exactly when no cut falls inside a head. -/
theorem reassembles_iff (positive : 0 < cfg.headLen) (room : cfg.headLen ≤ 1024)
    (frames pieces : List (List UInt8)) (framesOk : ∀ f ∈ frames, IsFrame cfg f)
    (stream : pieces.flatten = frames.flatten) (fits : (decoder cfg).Fits .initial pieces) :
    Reassembles cfg frames pieces ↔ ∀ k ∈ cutsFrom 0 pieces, ¬ InHead cfg.headLen 0 frames k := by
  cases frames with
  | nil =>
      obtain rfl := fits.eq_nil_of_flatten (by simpa using stream)
      exact ⟨fun _ k member => (by cases member), fun _ => ⟨⟨_, rfl⟩, trivial⟩⟩
  | cons frame rest =>
      have frameOk := framesOk frame (List.mem_cons_self ..)
      have run := mid_run positive room 0 pieces rest frame [] .initial (Or.inl ⟨rfl, rfl⟩)
        List.nil_prefix (by simpa using Nat.lt_of_lt_of_le positive frameOk.head_le) framesOk
        (by simpa using stream) fits
      constructor
      · rintro ⟨⟨d, done⟩, -⟩
        by_contra bad
        rw [run.2 bad] at done
        cases done
      · intro clear
        obtain ⟨done, returns⟩ := run.1 clear
        exact ⟨⟨_, done⟩, returns⟩

end MlsImgSearch.Blitz.FixHeadMsg
