import Mathlib.Data.List.Perm.Subperm
import Mathlib.Logic.Function.Basic
import MlsImgSearch.Blitz2.FixHeadMsg
import MlsImgSearch.Lib.Ledger
import MlsImgSearch.Lib.Run

/-!
# Blocks of the fixed-head decoder

`Feed` hands the block of a complete message over to a `BytesMsg` and reports the
message before it takes a new block. During the report `buffer_` still names the
block that was given away: an observer that closes the channel then releases the
block of the message.
-/

namespace MlsImgSearch.Blitz2.FixHeadBlocks

open Lib.Bytes Lib.Ledger Lib.Run
open FixHeadMsg (Config FixHeadMsgDecoder)

/-! ## The decoder on a heap -/

/-- A `BytesMsg` to which there is a reference. -/
structure BytesMsg where
  block : Nat
  data : List UInt8
  deriving DecidableEq

/-- Blocks are numbered in the order of their allocation; `released` are the arguments of `delete[]`,
and `messages` those that somebody refers to. -/
structure State where
  allocated : Nat
  heap : Nat → Option (List UInt8)
  released : List Nat
  buffer : Option Nat
  bufferLen : Nat
  dataLen : Nat
  msgLen : Nat
  messages : List BytesMsg

def State.constructed : State := ⟨0, fun _ => none, [], none, 0, 0, 0, []⟩

def release (s : State) (block : Nat) : State :=
  { s with heap := Function.update s.heap block none, released := s.released ++ [block] }

variable (cfg : Config)

/-- A new block in `buffer_`, and its length in `buffer_len_`. -/
def newBuffer (s : State) (length : Nat) : State :=
  { s with
    allocated := s.allocated + 1
    heap := Function.update s.heap s.allocated (some (malloc cfg.junk length))
    buffer := some s.allocated
    bufferLen := length }

def init (s : State) : State :=
  match s.buffer with
  | some _ => s
  | none => newBuffer cfg s cfg.bufStartLen

def uninit (s : State) : State :=
  match s.buffer with
  | some block => { release s block with buffer := none, dataLen := 0, msgLen := 0 }
  | none => { s with dataLen := 0, msgLen := 0 }

def getBuffer (s : State) : Option (Nat × Nat) :=
  if s.dataLen < cfg.headLen then some (s.dataLen, cfg.headLen - s.dataLen)
  else if s.dataLen < s.msgLen then some (s.dataLen, s.msgLen - s.dataLen)
  else none

/-- What the observer does with the channel during a report. -/
inductive Reaction where
  | goesOn
  | closes
  | reconnects
  deriving DecidableEq

def react (s : State) : Reaction → State
  | .goesOn => s
  | .closes => uninit s
  | .reconnects => init cfg (uninit s)

/-- The reference to the message at the front is dropped. -/
def dropFirst (s : State) : State :=
  match s.messages with
  | [] => s
  | msg :: rest => release { s with messages := rest } msg.block

/-- `Feed` for the block `buffer` with its content after `length` more bytes: the return code, the state
and the bytes of the reported message. An observer that `keeps` the message takes a reference. -/
def feed (s : State) (buffer : Nat) (content : List UInt8) (length : Nat) (reaction : Reaction)
    (keeps : Bool) : Int × State × List (List UInt8) :=
  if length = 0 then (1, s, [])
  else
    let s := { s with dataLen := (s.dataLen + length) % 2 ^ 32 }
    if s.dataLen = cfg.headLen then
      match cfg.fnGetBodyLen content with
      | none => (-1, s, [])
      | some bodyLen =>
          let s := { s with msgLen := (bodyLen + cfg.headLen) % 2 ^ 32 }
          if cfg.bufMaxLen < s.msgLen then (-2, s, [])
          else if s.bufferLen < s.msgLen then
            let s' := newBuffer cfg s s.msgLen
            (0, release { s' with
              heap := Function.update s'.heap s.allocated
                (some (content.take cfg.headLen ++ (malloc cfg.junk s.msgLen).drop cfg.headLen)) }
              buffer, [])
          else (0, s, [])
    else if s.dataLen = s.msgLen then
      let data := content.take s.dataLen
      let reported := react cfg { s with messages := ⟨buffer, data⟩ :: s.messages } reaction
      let s' := { newBuffer cfg reported cfg.bufStartLen with dataLen := 0, msgLen := 0 }
      (0, if keeps then s' else dropFirst s', [data])
    else if s.msgLen < s.dataLen then (-3, s, [])
    else (0, s, [])

/-- `GetBuffer`, the reader's copy of some bytes, `Feed`. -/
def deliver (s : State) (piece : List UInt8) (reaction : Reaction) (keeps : Bool) :
    Option (Int × State × List (List UInt8)) :=
  s.buffer.bind fun buffer =>
  (s.heap buffer).bind fun block =>
  (getBuffer cfg s).bind fun (off, length) =>
    if piece = [] ∨ length < piece.length then none
    else
      (writeAt block off piece).map fun content =>
        feed cfg { s with heap := Function.update s.heap buffer (some content) } buffer content
          piece.length reaction keeps

inductive Label where
  | feed (piece : List UInt8) (reaction : Reaction) (keeps : Bool)
  /-- The channel is closed, or connects, outside of a report. -/
  | uninit
  | init
  /-- The last reference to a message is dropped. -/
  | drop (i : Nat)

def step (s : State) : Label → Option State
  | .feed piece reaction keeps => (deliver cfg s piece reaction keeps).map fun result => result.2.1
  | .uninit => some (uninit s)
  | .init => some (init cfg s)
  | .drop i =>
      s.messages[i]?.map fun msg => release { s with messages := s.messages.eraseIdx i } msg.block

/-- A decoder after `Init`. -/
def start : State := init cfg .constructed

/-! ## What is wanted -/

/-- The blocks that were released, and those that the messages will release. -/
def held (s : State) : List Nat := s.released ++ s.messages.map BytesMsg.block

/-- With the block that the decoder will release. -/
def places (s : State) : List Nat := held s ++ s.buffer.toList

structure Correct (s : State) : Prop where
  /-- When decoder and messages are gone, each block has been released once. -/
  once : Accounted s.allocated (places s)
  /-- The bytes of a message are allocated. -/
  alive : ∀ msg ∈ s.messages, ∃ block, s.heap msg.block = some block ∧
    block.take msg.data.length = msg.data

/-- The return codes and messages of the next pieces. -/
def outputs : State → List (List UInt8 × Reaction × Bool) → List (Int × List (List UInt8))
  | _, [] => []
  | s, (piece, reaction, keeps) :: rest =>
      match deliver cfg s piece reaction keeps with
      | none => []
      | some (code, s', msgs) => (code, msgs) :: outputs s' rest

/-- The next `length` bytes complete a message. -/
def Completes (s : State) (length : Nat) : Prop :=
  (s.dataLen + length) % 2 ^ 32 ≠ cfg.headLen ∧ (s.dataLen + length) % 2 ^ 32 = s.msgLen

/-- The observer does not close the channel during the report of a message. -/
def Allowed (s : State) : Label → Prop
  | .feed piece reaction _ => Completes cfg s piece.length → reaction = .goesOn
  | _ => True

instance decidableAllowed (s : State) : (label : Label) → Decidable (Allowed cfg s label)
  | .feed piece reaction _ =>
      inferInstanceAs (Decidable ((s.dataLen + piece.length) % 2 ^ 32 ≠ cfg.headLen ∧
        (s.dataLen + piece.length) % 2 ^ 32 = s.msgLen → reaction = .goesOn))
  | .uninit => isTrue trivial
  | .init => isTrue trivial
  | .drop _ => isTrue trivial

/-! ## What a step can do -/

section Cases

variable {cfg} {s s' : State} {b : Nat} {content piece : List UInt8} {reaction : Reaction}
  {keeps : Bool}

/-- A block of another size with the same head. -/
def grown (cfg : Config) (s : State) (b : Nat) (content : List UInt8) (length : Nat) : State :=
  release { newBuffer cfg s length with
    heap := Function.update (newBuffer cfg s length).heap s.allocated
      (some (content.take cfg.headLen ++ (malloc cfg.junk length).drop cfg.headLen)) } b

/-- The decoder after the report of a message, to which the local reference is still there. -/
def completed (cfg : Config) (s : State) (b : Nat) (data : List UInt8) (reaction : Reaction) : State :=
  { newBuffer cfg (react cfg { s with messages := ⟨b, data⟩ :: s.messages } reaction) cfg.bufStartLen with
    dataLen := 0, msgLen := 0 }

/-- `Feed` changes the lengths, takes a larger block, or reports a message. -/
theorem feed_cases (cfg : Config) (s : State) (b : Nat) (content : List UInt8) (reaction : Reaction)
    (keeps : Bool) {length : Nat} (some' : length ≠ 0) :
    (¬ Completes cfg s length ∧ ∃ code x y,
        feed cfg s b content length reaction keeps = (code, { s with dataLen := x, msgLen := y }, [])) ∨
      (¬ Completes cfg s length ∧ ∃ x y, feed cfg s b content length reaction keeps =
        (0, grown cfg { s with dataLen := x, msgLen := y } b content y, [])) ∨
      (Completes cfg s length ∧ feed cfg s b content length reaction keeps =
        (0, if keeps then
            completed cfg { s with dataLen := s.msgLen } b (content.take s.msgLen) reaction
          else dropFirst (completed cfg { s with dataLen := s.msgLen } b (content.take s.msgLen) reaction),
          [content.take s.msgLen])) := by
  unfold feed
  rw [if_neg some']
  dsimp only
  by_cases head : (s.dataLen + length) % 2 ^ 32 = cfg.headLen
  · rw [if_pos head]
    have notComplete : ¬ Completes cfg s length := fun completes => completes.1 head
    cases cfg.fnGetBodyLen content with
    | none => exact Or.inl ⟨notComplete, _, _, _, rfl⟩
    | some bodyLen =>
        dsimp only
        by_cases long : cfg.bufMaxLen < (bodyLen + cfg.headLen) % 2 ^ 32
        · rw [if_pos long]
          exact Or.inl ⟨notComplete, _, _, _, rfl⟩
        · rw [if_neg long]
          by_cases small : s.bufferLen < (bodyLen + cfg.headLen) % 2 ^ 32
          · rw [if_pos small]
            exact Or.inr (Or.inl ⟨notComplete, _, _, rfl⟩)
          · rw [if_neg small]
            exact Or.inl ⟨notComplete, _, _, _, rfl⟩
  · rw [if_neg head]
    by_cases full : (s.dataLen + length) % 2 ^ 32 = s.msgLen
    · rw [if_pos full, full]
      exact Or.inr (Or.inr ⟨⟨head, full⟩, rfl⟩)
    · rw [if_neg full]
      have notComplete : ¬ Completes cfg s length := fun completes => full completes.2
      by_cases past : s.msgLen < (s.dataLen + length) % 2 ^ 32
      · rw [if_pos past]
        exact Or.inl ⟨notComplete, _, _, _, rfl⟩
      · rw [if_neg past]
        exact Or.inl ⟨notComplete, _, _, _, rfl⟩

/-- The bytes were written to the block of the buffer. -/
theorem deliver_some {result : Int × State × List (List UInt8)}
    (delivered : deliver cfg s piece reaction keeps = some result) :
    ∃ b content, s.buffer = some b ∧ piece.length ≠ 0 ∧
      result = feed cfg { s with heap := Function.update s.heap b (some content) } b content piece.length
        reaction keeps := by
  obtain ⟨b, isBuffer, rest⟩ := Option.bind_eq_some_iff.mp delivered
  obtain ⟨block, isBlock, rest⟩ := Option.bind_eq_some_iff.mp rest
  obtain ⟨⟨off, length⟩, offer, rest⟩ := Option.bind_eq_some_iff.mp rest
  dsimp only at rest
  by_cases bad : piece = [] ∨ length < piece.length
  · rw [if_pos bad] at rest
    cases rest
  · rw [if_neg bad] at rest
    obtain ⟨content, stored, isResult⟩ := Option.map_eq_some_iff.mp rest
    refine ⟨b, content, isBuffer, ?_, isResult.symm⟩
    exact Nat.ne_of_gt (List.length_pos_of_ne_nil fun empty => bad (Or.inl empty))

end Cases

/-! ## Blocks in use -/

/-- The block of the decoder is there, and no message has it. -/
structure Sound (s : State) : Prop where
  buffer : ∀ b, s.buffer = some b →
    b < s.allocated ∧ (s.heap b).isSome ∧ ∀ msg ∈ s.messages, msg.block ≠ b
  blocks : ∀ msg ∈ s.messages, msg.block < s.allocated

section Sound

variable {cfg} {s s' : State} {b : Nat}

theorem sound_newBuffer (cfg : Config) (blocks : ∀ msg ∈ s.messages, msg.block < s.allocated)
    (length : Nat) :
    Sound (newBuffer cfg s length) where
  buffer := by
    rintro b isBuffer
    obtain rfl : s.allocated = b := Option.some.inj isBuffer
    refine ⟨Nat.lt_succ_self _, ?_, fun msg member => Nat.ne_of_lt (blocks msg member)⟩
    unfold newBuffer
    dsimp only
    rw [Function.update_self]
    rfl
  blocks msg member := Nat.lt_succ_of_lt (blocks msg member)

/-- Another block than that of the buffer is released. -/
theorem Sound.release (sound : Sound s) (other : ∀ b', s.buffer = some b' → b ≠ b') :
    Sound (release s b) where
  buffer b' isBuffer := by
    obtain ⟨old, here, apart⟩ := sound.buffer b' isBuffer
    refine ⟨old, ?_, apart⟩
    unfold FixHeadBlocks.release
    dsimp only
    rwa [Function.update_of_ne (other b' isBuffer).symm]
  blocks := sound.blocks

theorem Sound.uninit (sound : Sound s) : Sound (uninit s) := by
  unfold FixHeadBlocks.uninit
  cases s.buffer with
  | none => exact ⟨nofun, sound.blocks⟩
  | some b => exact ⟨nofun, sound.blocks⟩

theorem Sound.init (sound : Sound s) : Sound (init cfg s) := by
  unfold FixHeadBlocks.init
  cases isBuffer : s.buffer with
  | none => exact sound_newBuffer cfg sound.blocks _
  | some b => exact sound

theorem sound_start : Sound (start cfg) :=
  Sound.init ⟨nofun, nofun⟩

/-- The lengths do not matter, nor what is written to the block. -/
theorem Sound.written (sound : Sound s) (isBuffer : s.buffer = some b) (content : List UInt8)
    (x y : Nat) :
    Sound { s with heap := Function.update s.heap b (some content), dataLen := x, msgLen := y } where
  buffer b' isBuffer' := by
    obtain rfl : b = b' := Option.some.inj (isBuffer.symm.trans isBuffer')
    obtain ⟨old, -, apart⟩ := sound.buffer b isBuffer
    refine ⟨old, ?_, apart⟩
    dsimp only
    rw [Function.update_self]
    rfl
  blocks := sound.blocks

theorem sound_grown (sound : Sound s) (isBuffer : s.buffer = some b) (content : List UInt8)
    (length : Nat) : Sound (grown cfg s b content length) := by
  have old := (sound.buffer b isBuffer).1
  refine Sound.release ⟨fun b' isBuffer' => ?_, fun msg member =>
    Nat.lt_succ_of_lt (sound.blocks msg member)⟩ fun b' isBuffer' => ?_
  · obtain rfl : s.allocated = b' := Option.some.inj isBuffer'
    refine ⟨Nat.lt_succ_self _, ?_, fun msg member => Nat.ne_of_lt (sound.blocks msg member)⟩
    dsimp only
    rw [Function.update_self]
    rfl
  · obtain rfl : s.allocated = b' := Option.some.inj isBuffer'
    exact Nat.ne_of_lt old

/-- The observer leaves the messages as they are. -/
theorem react_messages (cfg : Config) (s : State) (reaction : Reaction) :
    (react cfg s reaction).messages = s.messages ∧ s.allocated ≤ (react cfg s reaction).allocated := by
  have closed : (FixHeadBlocks.uninit s).messages = s.messages ∧
      s.allocated = (FixHeadBlocks.uninit s).allocated := by
    unfold FixHeadBlocks.uninit
    cases s.buffer with
    | none => exact ⟨rfl, rfl⟩
    | some b => exact ⟨rfl, rfl⟩
  cases reaction with
  | goesOn => exact ⟨rfl, Nat.le_refl _⟩
  | closes => exact ⟨closed.1, Nat.le_of_eq closed.2⟩
  | reconnects =>
      unfold react FixHeadBlocks.init
      dsimp only
      rw [closed.2]
      cases (FixHeadBlocks.uninit s).buffer with
      | none => exact ⟨closed.1, Nat.le_succ _⟩
      | some b => exact ⟨closed.1, Nat.le_refl _⟩

theorem sound_completed (cfg : Config) (sound : Sound s) (isBuffer : s.buffer = some b)
    (data : List UInt8)
    (reaction : Reaction) :
    Sound (completed cfg s b data reaction) ∧
      (completed cfg s b data reaction).messages = ⟨b, data⟩ :: s.messages := by
  obtain ⟨messages, more⟩ := react_messages cfg
    { s with messages := ⟨b, data⟩ :: s.messages } reaction
  refine ⟨?_, messages⟩
  have blocks : ∀ msg ∈ (react cfg { s with messages := ⟨b, data⟩ :: s.messages } reaction).messages,
      msg.block < (react cfg { s with messages := ⟨b, data⟩ :: s.messages } reaction).allocated := by
    intro msg member
    refine Nat.lt_of_lt_of_le ?_ more
    rw [messages] at member
    rcases List.mem_cons.mp member with rfl | later
    · exact (sound.buffer b isBuffer).1
    · exact sound.blocks msg later
  have sound' := sound_newBuffer cfg blocks cfg.bufStartLen
  exact ⟨sound'.buffer, sound'.blocks⟩

theorem Sound.dropFirst (sound : Sound s) : Sound (dropFirst s) := by
  unfold FixHeadBlocks.dropFirst
  cases messages : s.messages with
  | nil => exact sound
  | cons msg rest =>
      have others : ∀ other ∈ rest, other ∈ s.messages := fun other member =>
        messages ▸ List.mem_cons_of_mem _ member
      have here : msg ∈ s.messages := messages ▸ List.mem_cons_self ..
      refine Sound.release ⟨fun b isBuffer => ?_, fun other member =>
        sound.blocks other (others other member)⟩ fun b isBuffer => ?_
      · obtain ⟨old, live, apart⟩ := sound.buffer b isBuffer
        exact ⟨old, live, fun other member => apart other (others other member)⟩
      · exact (sound.buffer b isBuffer).2.2 msg here

theorem Sound.step {label : Label} (sound : Sound s) (taken : step cfg s label = some s') :
    Sound s' := by
  cases label with
  | feed piece reaction keeps =>
      obtain ⟨result, delivered, rfl⟩ := Option.map_eq_some_iff.mp taken
      obtain ⟨b, content, isBuffer, some', rfl⟩ := deliver_some delivered
      rcases feed_cases cfg { s with heap := Function.update s.heap b (some content) } b content reaction
          keeps some' with
        ⟨-, code, x, y, fed⟩ | ⟨-, x, y, fed⟩ | ⟨-, fed⟩
      · rw [fed]
        exact sound.written isBuffer content x y
      · rw [fed]
        exact sound_grown (sound.written isBuffer content x y) isBuffer content y
      · rw [fed]
        obtain ⟨done, -⟩ := sound_completed cfg
          (sound.written isBuffer content s.msgLen s.msgLen) isBuffer (content.take s.msgLen) reaction
        cases keeps with
        | true => exact done
        | false => exact done.dropFirst
  | uninit =>
      obtain rfl := Option.some.inj taken
      exact sound.uninit
  | init =>
      obtain rfl := Option.some.inj taken
      exact sound.init
  | drop i =>
      obtain ⟨msg, isMessage, rfl⟩ := Option.map_eq_some_iff.mp taken
      have here := List.mem_of_getElem? isMessage
      refine Sound.release ⟨fun b isBuffer => ?_, fun other member =>
        sound.blocks other (List.mem_of_mem_eraseIdx member)⟩ fun b isBuffer => ?_
      · obtain ⟨old, live, apart⟩ := sound.buffer b isBuffer
        exact ⟨old, live, fun other member => apart other (List.mem_of_mem_eraseIdx member)⟩
      · exact (sound.buffer b isBuffer).2.2 msg here

end Sound

/-! ## Released twice -/

section Twice

variable {cfg} {s s' : State} {b : Nat}

theorem held_release : (held (release s b)).Perm (b :: held s) := by
  unfold held release
  dsimp only
  rw [List.append_assoc, List.singleton_append]
  exact List.perm_middle

theorem held_uninit : held (uninit s) = held s ∨ ∃ b, (held (uninit s)).Perm (b :: held s) := by
  unfold uninit
  cases s.buffer with
  | none => exact Or.inl rfl
  | some b => exact Or.inr ⟨b, held_release⟩

theorem held_init : held (init cfg s) = held s := by
  unfold init
  cases s.buffer with
  | none => rfl
  | some b => rfl

theorem held_dropFirst : (held (dropFirst s)).Perm (held s) := by
  unfold dropFirst
  cases messages : s.messages with
  | nil => exact List.Perm.refl _
  | cons msg rest =>
      refine held_release.trans ?_
      unfold held
      rw [messages]
      exact List.perm_middle.symm

theorem held_drop {i : Nat} {msg : BytesMsg} (isMessage : s.messages[i]? = some msg) :
    (held (release { s with messages := s.messages.eraseIdx i } msg.block)).Perm (held s) := by
  refine held_release.trans ?_
  unfold held
  refine List.perm_middle.symm.trans (List.Perm.append_left _ ?_)
  exact ((perm_cons_eraseIdx isMessage).map BytesMsg.block).symm

/-- Closing during a report releases the block of the message. -/
theorem held_completed (cfg : Config) (isBuffer : s.buffer = some b) (data : List UInt8)
    (reaction : Reaction) :
    (held (completed cfg s b data reaction)).Perm
      (if reaction = .goesOn then b :: held s else b :: b :: held s) := by
  have reported : (held { s with messages := ⟨b, data⟩ :: s.messages }).Perm (b :: held s) :=
    List.perm_middle
  have closed : (held (uninit { s with messages := ⟨b, data⟩ :: s.messages })).Perm
      (b :: b :: held s) := by
    unfold uninit
    dsimp only
    rw [isBuffer]
    exact held_release.trans (reported.cons b)
  cases reaction with
  | goesOn => exact reported
  | closes => exact closed
  | reconnects =>
      have opened : held (react cfg { s with messages := ⟨b, data⟩ :: s.messages } .reconnects) =
          held (uninit { s with messages := ⟨b, data⟩ :: s.messages }) := held_init
      have same : held (completed cfg s b data .reconnects) =
          held (uninit { s with messages := ⟨b, data⟩ :: s.messages }) := opened
      rw [same]
      exact closed

/-- Nothing that was released or belongs to a message gets lost. -/
theorem held_step {label : Label} (taken : step cfg s label = some s') :
    (held s).Subperm (held s') ∧
      (¬ Allowed cfg s label → ∃ b, [b, b].Subperm (held s')) := by
  cases label with
  | feed piece reaction keeps =>
      obtain ⟨result, delivered, rfl⟩ := Option.map_eq_some_iff.mp taken
      obtain ⟨b, content, isBuffer, some', rfl⟩ := deliver_some delivered
      rcases feed_cases cfg { s with heap := Function.update s.heap b (some content) } b content reaction
          keeps some' with
        ⟨incomplete, code, x, y, fed⟩ | ⟨incomplete, x, y, fed⟩ | ⟨-, fed⟩
      · rw [fed]
        exact ⟨List.Subperm.refl _,
          fun closes => absurd (fun complete => absurd complete incomplete) closes⟩
      · rw [fed]
        refine ⟨?_, fun closes => absurd (fun complete => absurd complete incomplete) closes⟩
        have grew : (held (grown cfg { s with
            heap := Function.update s.heap b (some content), dataLen := x, msgLen := y } b content y)).Perm
            (b :: held s) := held_release
        exact (List.sublist_cons_self b _).subperm.trans grew.symm.subperm
      · rw [fed]
        have done := held_completed cfg (b := b)
          (s := { s with heap := Function.update s.heap b (some content), dataLen := s.msgLen }) isBuffer
          (content.take s.msgLen) reaction
        have last : ∀ s'' : State, (held (if keeps then s'' else dropFirst s'')).Perm (held s'') := by
          intro s''
          cases keeps with
          | true => exact List.Perm.refl _
          | false => exact held_dropFirst
        have all := ((last _).trans done).symm.subperm
        by_cases stays : reaction = .goesOn
        · rw [if_pos stays] at all
          refine ⟨(List.sublist_cons_self b (held s)).subperm.trans all, fun closes => ?_⟩
          exact absurd (fun _ => stays) closes
        · rw [if_neg stays] at all
          have twice : (held s).Sublist (b :: b :: held s) :=
            (List.sublist_cons_self b _).trans (List.sublist_cons_self b _)
          refine ⟨twice.subperm.trans all, fun _ => ⟨b, List.Subperm.trans ?_ all⟩⟩
          exact (((List.nil_sublist (held s)).cons_cons b).cons_cons b).subperm
  | uninit =>
      obtain rfl := Option.some.inj taken
      refine ⟨?_, fun closes => absurd trivial closes⟩
      rcases held_uninit (s := s) with same | ⟨b, more⟩
      · rw [same]
      · exact (List.sublist_cons_self b _).subperm.trans more.symm.subperm
  | init =>
      obtain rfl := Option.some.inj taken
      rw [held_init]
      exact ⟨List.Subperm.refl _, fun closes => absurd trivial closes⟩
  | drop i =>
      obtain ⟨msg, isMessage, rfl⟩ := Option.map_eq_some_iff.mp taken
      exact ⟨(held_drop isMessage).symm.subperm, fun closes => absurd trivial closes⟩

/-- A block that was released twice, or released while a message has it, stays so. -/
theorem not_correct {labels : List Label} (ran : exec (step cfg) s labels = some s')
    (closed : ¬ Meets (step cfg) (Allowed cfg) s labels) : ∃ b, [b, b].Subperm (held s') := by
  have grows : ∀ {labels : List Label} {s : State}, exec (step cfg) s labels = some s' →
      (held s).Subperm (held s') := by
    intro labels
    induction labels with
    | nil =>
        intro s ran
        obtain rfl : s = s' := Option.some.inj ran
        exact List.Subperm.refl _
    | cons label labels ih =>
        intro s ran
        obtain ⟨mid, taken, later⟩ := Option.bind_eq_some_iff.mp ran
        exact (held_step taken).1.trans (ih later)
  induction labels generalizing s with
  | nil => exact absurd trivial closed
  | cons label labels ih =>
      obtain ⟨mid, taken, later⟩ := Option.bind_eq_some_iff.mp ran
      by_cases allowed : Allowed cfg s label
      · refine ih later fun meets => closed ⟨allowed, fun mid' taken' => ?_⟩
        obtain rfl : mid = mid' := Option.some.inj (taken.symm.trans taken')
        exact meets
      · obtain ⟨b, twice⟩ := (held_step taken).2 allowed
        exact ⟨b, twice.trans (grows later)⟩

theorem Correct.once_held (correct : Correct s) : ¬ [b, b].Subperm (held s) := by
  intro twice
  have nodup := (List.nodup_append.mp correct.once.nodup).1
  have count := twice.count_le b
  rw [List.count_cons_self, List.count_cons_self] at count
  have once := List.nodup_iff_count_le_one.mp nodup b
  omega

end Twice

/-! ## Released once -/

section Once

variable {cfg} {s s' : State} {b : Nat}

theorem places_perm (isBuffer : s.buffer = some b) : (places s).Perm (b :: held s) := by
  unfold places
  rw [isBuffer]
  exact List.perm_append_comm

/-- The block of the buffer is released or given away, and a new one is taken. -/
theorem accounted_exchange (accounted : Accounted s.allocated (places s))
    (isBuffer : s.buffer = some b)
    (isNext : s'.allocated = s.allocated + 1) (isBuffer' : s'.buffer = some s.allocated)
    (gave : (held s').Perm (b :: held s)) : Accounted s'.allocated (places s') := by
  rw [isNext]
  refine accounted.create ((places_perm isBuffer').trans (List.Perm.cons _ ?_))
  exact gave.trans (places_perm isBuffer).symm

/-- The bytes of the messages stay where only other blocks change. -/
theorem alive_of_heap {messages : List BytesMsg} {heap heap' : Nat → Option (List UInt8)}
    (alive : ∀ msg ∈ messages, ∃ block, heap msg.block = some block ∧
      block.take msg.data.length = msg.data)
    (same : ∀ msg ∈ messages, heap' msg.block = heap msg.block) :
    ∀ msg ∈ messages, ∃ block, heap' msg.block = some block ∧
      block.take msg.data.length = msg.data := by
  intro msg member
  rw [same msg member]
  exact alive msg member

theorem correct_start : Correct (start cfg) :=
  ⟨List.Perm.refl _, nofun⟩

theorem Correct.uninit (correct : Correct s) (sound : Sound s) : Correct (uninit s) := by
  unfold FixHeadBlocks.uninit
  cases isBuffer : s.buffer with
  | none =>
      have accounted := correct.once
      unfold places at accounted
      rw [isBuffer] at accounted
      exact ⟨accounted, correct.alive⟩
  | some b =>
      refine ⟨correct.once.move ?_, alive_of_heap correct.alive fun msg member => ?_⟩
      · refine List.Perm.trans ?_ (places_perm isBuffer).symm
        unfold places
        rw [Option.toList_none, List.append_nil]
        exact held_release
      · exact Function.update_of_ne ((sound.buffer b isBuffer).2.2 msg member) ..

theorem Correct.init (correct : Correct s) (sound : Sound s) : Correct (init cfg s) := by
  unfold FixHeadBlocks.init
  cases isBuffer : s.buffer with
  | some b => exact correct
  | none =>
      refine ⟨correct.once.create ?_, alive_of_heap correct.alive fun msg member => ?_⟩
      · unfold places
        rw [isBuffer, Option.toList_none, List.append_nil]
        exact List.perm_append_comm
      · exact Function.update_of_ne (Nat.ne_of_lt (sound.blocks msg member)) ..

theorem Correct.written (correct : Correct s) (sound : Sound s) (isBuffer : s.buffer = some b)
    (content : List UInt8) (x y : Nat) :
    Correct { s with heap := Function.update s.heap b (some content), dataLen := x, msgLen := y } := by
  refine ⟨correct.once, alive_of_heap correct.alive fun msg member => ?_⟩
  exact Function.update_of_ne ((sound.buffer b isBuffer).2.2 msg member) ..

theorem correct_grown (correct : Correct s) (sound : Sound s) (isBuffer : s.buffer = some b)
    (content : List UInt8) (length : Nat) : Correct (grown cfg s b content length) := by
  refine ⟨accounted_exchange correct.once isBuffer rfl rfl held_release,
    alive_of_heap correct.alive fun msg member => ?_⟩
  have new : msg.block ≠ s.allocated := Nat.ne_of_lt (sound.blocks msg member)
  unfold grown release newBuffer
  dsimp only
  rw [Function.update_of_ne ((sound.buffer b isBuffer).2.2 msg member), Function.update_of_ne new,
    Function.update_of_ne new]

/-- A message is reported to an observer that does not close the channel. -/
theorem correct_completed (cfg : Config) (correct : Correct s) (sound : Sound s)
    (isBuffer : s.buffer = some b)
    {content : List UInt8} (isContent : s.heap b = some content) (length : Nat) :
    Correct (completed cfg s b (content.take length) .goesOn) := by
  refine ⟨accounted_exchange correct.once isBuffer rfl rfl List.perm_middle, ?_⟩
  have alive : ∀ msg ∈ (⟨b, content.take length⟩ : BytesMsg) :: s.messages, ∃ block,
      s.heap msg.block = some block ∧ block.take msg.data.length = msg.data := by
    intro msg member
    rcases List.mem_cons.mp member with rfl | later
    · refine ⟨content, isContent, ?_⟩
      exact List.take_eq_take_iff.mpr (by rw [List.length_take]; omega)
    · exact correct.alive msg later
  refine alive_of_heap alive fun msg member => ?_
  refine Function.update_of_ne ?_ ..
  rcases List.mem_cons.mp member with rfl | later
  · exact Nat.ne_of_lt (sound.buffer b isBuffer).1
  · exact Nat.ne_of_lt (sound.blocks msg later)

/-- The last reference to a message is dropped. -/
theorem correct_drop {msg : BytesMsg} {rest : List BytesMsg} (correct : Correct s)
    (perm : s.messages.Perm (msg :: rest)) :
    Correct (release { s with messages := rest } msg.block) := by
  have blocks := perm.map BytesMsg.block
  have same : (held (release { s with messages := rest } msg.block)).Perm (held s) := by
    refine held_release.trans ?_
    unfold held
    exact List.perm_middle.symm.trans (List.Perm.append_left _ blocks.symm)
  have nodup : (msg.block :: rest.map BytesMsg.block).Nodup := by
    have nodup := (List.nodup_append.mp correct.once.nodup).1
    exact blocks.nodup_iff.mp (List.nodup_append.mp nodup).2.1
  have alive : ∀ other ∈ rest, ∃ block, s.heap other.block = some block ∧
      block.take other.data.length = other.data := fun other member =>
    correct.alive other (perm.mem_iff.mpr (List.mem_cons_of_mem _ member))
  refine ⟨correct.once.move (same.append_right _), alive_of_heap alive fun other member => ?_⟩
  have apart : other.block ≠ msg.block := fun equal =>
    (List.nodup_cons.mp nodup).1 (equal ▸ List.mem_map_of_mem member)
  exact Function.update_of_ne apart ..

theorem Correct.dropFirst (correct : Correct s) : Correct (dropFirst s) := by
  unfold FixHeadBlocks.dropFirst
  cases messages : s.messages with
  | nil => exact correct
  | cons msg rest => exact correct_drop correct (List.Perm.of_eq messages)

theorem Correct.step {label : Label} (correct : Correct s) (sound : Sound s)
    (allowed : Allowed cfg s label) (taken : step cfg s label = some s') : Correct s' := by
  cases label with
  | feed piece reaction keeps =>
      obtain ⟨result, delivered, rfl⟩ := Option.map_eq_some_iff.mp taken
      obtain ⟨b, content, isBuffer, some', rfl⟩ := deliver_some delivered
      have written := fun x y => correct.written sound isBuffer content x y
      have sound' := fun x y => sound.written isBuffer content x y
      rcases feed_cases cfg { s with heap := Function.update s.heap b (some content) } b content reaction
          keeps some' with
        ⟨-, code, x, y, fed⟩ | ⟨-, x, y, fed⟩ | ⟨complete, fed⟩
      · rw [fed]
        exact written x y
      · rw [fed]
        exact correct_grown (written x y) (sound' x y) isBuffer content y
      · rw [fed]
        obtain rfl : reaction = .goesOn := allowed complete
        have done := correct_completed cfg (written s.msgLen s.msgLen)
          (sound' s.msgLen s.msgLen) isBuffer
          (show Function.update s.heap b (some content) b = some content from Function.update_self ..)
          s.msgLen
        cases keeps with
        | true => exact done
        | false => exact done.dropFirst
  | uninit =>
      obtain rfl := Option.some.inj taken
      exact correct.uninit sound
  | init =>
      obtain rfl := Option.some.inj taken
      exact correct.init sound
  | drop i =>
      obtain ⟨msg, isMessage, rfl⟩ := Option.map_eq_some_iff.mp taken
      exact correct_drop correct (perm_cons_eraseIdx isMessage)

end Once

/-! ## What is decoded -/

section View

variable {cfg} {s s' : State} {b : Nat}

/-- The decoder without its place in memory. -/
def view (s : State) : Option FixHeadMsgDecoder :=
  s.buffer.bind fun b => (s.heap b).map fun block => ⟨block, s.bufferLen, s.dataLen, s.msgLen⟩

/-- One exchange of the decoder without its place in memory. -/
def exchange (cfg : Config) (d : FixHeadMsgDecoder) (piece : List UInt8) :
    Option (Int × FixHeadMsgDecoder × List (List UInt8)) :=
  (FixHeadMsg.getBuffer cfg d).bind fun (off, length) =>
    if piece = [] ∨ length < piece.length then none
    else
      (writeAt d.buffer off piece).map fun content =>
        FixHeadMsg.feed cfg { d with buffer := content } piece.length

/-- The return codes and messages of the next pieces. -/
def decoded (cfg : Config) : FixHeadMsgDecoder → List (List UInt8) → List (Int × List (List UInt8))
  | _, [] => []
  | d, piece :: rest =>
      match exchange cfg d piece with
      | none => []
      | some (code, d', msgs) => (code, msgs) :: decoded cfg d' rest

theorem view_eq {block : List UInt8} (isBuffer : s.buffer = some b) (isBlock : s.heap b = some block) :
    view s = some ⟨block, s.bufferLen, s.dataLen, s.msgLen⟩ := by
  unfold view
  rw [isBuffer, Option.bind_some, isBlock]
  rfl

theorem view_start : view (start cfg) = some (FixHeadMsg.initial cfg) :=
  view_eq (b := 0) rfl rfl

/-- After a message the decoder is a new one. -/
theorem view_completed {data : List UInt8} {reaction : Reaction} (old : b < s.allocated)
    (keeps : Bool) :
    view (if keeps then completed cfg s b data reaction
        else dropFirst (completed cfg s b data reaction)) =
      some (FixHeadMsg.initial cfg) := by
  obtain ⟨messages, more⟩ := react_messages cfg
    { s with messages := ⟨b, data⟩ :: s.messages } reaction
  have isBuffer : (completed cfg s b data reaction).buffer =
      some (react cfg { s with messages := ⟨b, data⟩ :: s.messages } reaction).allocated := rfl
  have isBlock : (completed cfg s b data reaction).heap
      (react cfg { s with messages := ⟨b, data⟩ :: s.messages } reaction).allocated =
      some (malloc cfg.junk cfg.bufStartLen) := Function.update_self ..
  cases keeps with
  | true => exact view_eq isBuffer isBlock
  | false =>
      have isMessages : (completed cfg s b data reaction).messages = ⟨b, data⟩ :: s.messages := messages
      have dropped : dropFirst (completed cfg s b data reaction) =
          release { completed cfg s b data reaction with messages := s.messages } b := by
        unfold dropFirst
        rw [isMessages]
      have other : (react cfg { s with messages := ⟨b, data⟩ :: s.messages } reaction).allocated ≠ b :=
        Nat.ne_of_gt (Nat.lt_of_lt_of_le old more)
      rw [if_neg Bool.false_ne_true, dropped]
      refine view_eq isBuffer ?_
      unfold release
      dsimp only
      rw [Function.update_of_ne other]
      exact isBlock

theorem feed_view (cfg : Config) {content : List UInt8} {length : Nat} (reaction : Reaction)
    (keeps : Bool) (isBuffer : s.buffer = some b) (isBlock : s.heap b = some content)
    (old : b < s.allocated) (some' : length ≠ 0) :
    (feed cfg s b content length reaction keeps).1 =
        (FixHeadMsg.feed cfg ⟨content, s.bufferLen, s.dataLen, s.msgLen⟩ length).1 ∧
      view (feed cfg s b content length reaction keeps).2.1 =
        some (FixHeadMsg.feed cfg ⟨content, s.bufferLen, s.dataLen, s.msgLen⟩ length).2.1 ∧
      (feed cfg s b content length reaction keeps).2.2 =
        (FixHeadMsg.feed cfg ⟨content, s.bufferLen, s.dataLen, s.msgLen⟩ length).2.2 := by
  unfold feed FixHeadMsg.feed
  rw [if_neg some', if_neg some']
  dsimp only
  by_cases head : (s.dataLen + length) % 2 ^ 32 = cfg.headLen
  · rw [if_pos head, if_pos head]
    cases cfg.fnGetBodyLen content with
    | none => exact ⟨rfl, view_eq isBuffer isBlock, rfl⟩
    | some bodyLen =>
        dsimp only
        by_cases long : cfg.bufMaxLen < (bodyLen + cfg.headLen) % 2 ^ 32
        · rw [if_pos long, if_pos long]
          exact ⟨rfl, view_eq isBuffer isBlock, rfl⟩
        · rw [if_neg long, if_neg long]
          by_cases small : s.bufferLen < (bodyLen + cfg.headLen) % 2 ^ 32
          · rw [if_pos small, if_pos small]
            refine ⟨rfl, view_eq (b := s.allocated) rfl ?_, rfl⟩
            unfold release
            dsimp only
            rw [Function.update_of_ne (Nat.ne_of_gt old), Function.update_self]
          · rw [if_neg small, if_neg small]
            exact ⟨rfl, view_eq isBuffer isBlock, rfl⟩
  · rw [if_neg head, if_neg head]
    by_cases full : (s.dataLen + length) % 2 ^ 32 = s.msgLen
    · rw [if_pos full, if_pos full]
      exact ⟨rfl,
        view_completed (s := { s with dataLen := (s.dataLen + length) % 2 ^ 32 }) old keeps, rfl⟩
    · rw [if_neg full, if_neg full]
      by_cases past : s.msgLen < (s.dataLen + length) % 2 ^ 32
      · rw [if_pos past, if_pos past]
        exact ⟨rfl, view_eq isBuffer isBlock, rfl⟩
      · rw [if_neg past, if_neg past]
        exact ⟨rfl, view_eq isBuffer isBlock, rfl⟩

/-- What comes out does not depend on the places of the blocks, nor on what the observer does. -/
theorem outputs_view {d : FixHeadMsgDecoder} (sound : Sound s) (viewed : view s = some d)
    (inputs : List (List UInt8 × Reaction × Bool)) :
    outputs cfg s inputs = decoded cfg d (inputs.map Prod.fst) := by
  induction inputs generalizing s d with
  | nil => rfl
  | cons input inputs ih =>
      obtain ⟨piece, reaction, keeps⟩ := input
      obtain ⟨b, isBuffer, rest⟩ := Option.bind_eq_some_iff.mp viewed
      obtain ⟨block, isBlock, rfl⟩ := Option.map_eq_some_iff.mp rest
      have offers : FixHeadMsg.getBuffer cfg ⟨block, s.bufferLen, s.dataLen, s.msgLen⟩ =
          getBuffer cfg s := rfl
      have old := (sound.buffer b isBuffer).1
      have delivers : deliver cfg s piece reaction keeps =
          (getBuffer cfg s).bind fun (off, length) =>
            if piece = [] ∨ length < piece.length then none
            else
              (writeAt block off piece).map fun content =>
                feed cfg { s with heap := Function.update s.heap b (some content) } b content
                  piece.length reaction keeps := by
        rw [deliver, isBuffer, Option.bind_some, isBlock, Option.bind_some]
      rw [outputs, List.map_cons, decoded, exchange, offers]
      cases offer : getBuffer cfg s with
      | none =>
          rw [delivers, offer]
          rfl
      | some range =>
          obtain ⟨off, length⟩ := range
          rw [offer, Option.bind_some] at delivers
          rw [Option.bind_some]
          dsimp only at delivers ⊢
          by_cases bad : piece = [] ∨ length < piece.length
          · rw [if_pos bad] at delivers
            rw [delivers, if_pos bad]
          · rw [if_neg bad] at delivers
            rw [if_neg bad]
            cases stored : writeAt block off piece with
            | none =>
                rw [stored] at delivers
                rw [delivers]
                rfl
            | some content =>
                rw [stored, Option.map_some] at delivers
                have some' : piece.length ≠ 0 := fun none' =>
                  bad (Or.inl (List.length_eq_zero_iff.mp none'))
                obtain ⟨code, viewed', msgs⟩ := feed_view cfg reaction keeps
                  (s := { s with heap := Function.update s.heap b (some content) }) isBuffer
                  (show Function.update s.heap b (some content) b = some content from
                    Function.update_self ..) old some'
                have sound' : Sound (feed cfg { s with heap := Function.update s.heap b (some content) } b
                    content piece.length reaction keeps).2.1 :=
                  sound.step (show step cfg s (.feed piece reaction keeps) = some _ by
                    rw [step, delivers, Option.map_some])
                rw [delivers, Option.map_some]
                dsimp only
                rw [code, msgs, ih sound' viewed']

end View

/-- In every run from a new decoder: blocks are released once and the bytes of messages are kept exactly
when no observer has closed the channel during a report; and behind a message the decoder decodes as a
new one. -/
theorem correct_iff_open (cfg : Config) {labels : List Label} {s : State}
    (ran : exec (step cfg) (start cfg) labels = some s) :
    (Correct s ↔ Meets (step cfg) (Allowed cfg) (start cfg) labels) ∧
      ∀ piece reaction keeps s', Completes cfg s piece.length →
        step cfg s (.feed piece reaction keeps) = some s' →
          ∀ inputs, outputs cfg s' inputs = outputs cfg (start cfg) inputs := by
  have keep : ∀ (s : State) (label : Label) (s' : State), Sound s → True →
      step cfg s label = some s' → Sound s' := fun _ _ _ sound _ taken => sound.step taken
  have sound : Sound s := exec_invariant keep sound_start (meets_of_forall fun _ _ => trivial) ran
  refine ⟨⟨fun correct => ?_, fun allowed => ?_⟩, ?_⟩
  · by_contra closed
    obtain ⟨b, twice⟩ := not_correct ran closed
    exact correct.once_held twice
  · have keep' : ∀ (s : State) (label : Label) (s' : State), Sound s ∧ Correct s →
        Allowed cfg s label → step cfg s label = some s' → Sound s' ∧ Correct s' :=
      fun _ _ _ inv permitted taken => ⟨inv.1.step taken, inv.2.step inv.1 permitted taken⟩
    exact (exec_invariant keep' ⟨sound_start, correct_start⟩ allowed ran).2
  · intro piece reaction keeps s' complete taken inputs
    have sound' := sound.step taken
    have viewed : view s' = some (FixHeadMsg.initial cfg) := by
      obtain ⟨result, delivered, rfl⟩ := Option.map_eq_some_iff.mp taken
      obtain ⟨b, content, isBuffer, some', rfl⟩ := deliver_some delivered
      rcases feed_cases cfg { s with heap := Function.update s.heap b (some content) } b content reaction
          keeps some' with
        ⟨incomplete, -⟩ | ⟨incomplete, -⟩ | ⟨-, fed⟩
      · exact absurd complete incomplete
      · exact absurd complete incomplete
      · rw [fed]
        exact view_completed (s := { s with
          heap := Function.update s.heap b (some content), dataLen := s.msgLen })
          (sound.buffer b isBuffer).1 keeps
    rw [outputs_view sound' viewed, outputs_view sound_start view_start]

open FixHeadMsg (byteConfig)

/-- A message in two pieces, which the observer keeps for a while. -/
theorem correct_kept :
    ∃ s, exec (step byteConfig) (start byteConfig)
        [.feed [9, 1] .goesOn false, .feed [7] .goesOn true, .uninit, .drop 0] = some s ∧
      Correct s := by
  obtain ⟨s, ran⟩ : ∃ s, exec (step byteConfig) (start byteConfig)
      [.feed [9, 1] .goesOn false, .feed [7] .goesOn true, .uninit, .drop 0] = some s := ⟨_, rfl⟩
  exact ⟨s, ran, (correct_iff_open byteConfig ran).1.mpr (by decide)⟩

/-- The observer closes the channel during the report: the block of the message is released twice. -/
theorem not_correct_closed :
    ∃ s, exec (step byteConfig) (start byteConfig)
        [.feed [9, 1] .goesOn false, .feed [7] .closes false] = some s ∧
      s.released = [0, 0] ∧ ¬ Correct s := by
  refine ⟨_, rfl, rfl, fun correct => ?_⟩
  exact absurd correct.once.nodup (by decide)

end MlsImgSearch.Blitz2.FixHeadBlocks
