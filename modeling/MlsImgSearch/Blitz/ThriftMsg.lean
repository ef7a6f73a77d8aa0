import MlsImgSearch.Blitz.FixHeadMsg

/-!
# Thrift framing

`ThriftMemoryOutTransport` collects what a protocol writes, keeps four bytes free
in front, and stores the length there in network order. The other side decodes
with a `FixHeadMsgDecoder` whose head is that length.
-/

namespace MlsImgSearch.Blitz.ThriftMsg

open Lib.Bytes Lib.Segmentation FixHeadMsg

/-! ## The writing side -/

/-- `ThriftMemoryOutTransport`; the lengths are `uint32_t`. -/
structure ThriftMemoryOutTransport where
  buffer : Option (List UInt8)
  length : Nat
  dataLen : Nat
  deriving DecidableEq, Repr

def ThriftMemoryOutTransport.initial : ThriftMemoryOutTransport := ⟨none, 0, 0⟩

variable (junk : Nat → UInt8)

/-- `Extend`: a larger block with the data copied behind the reserved head. -/
def extend (t : ThriftMemoryOutTransport) (len : Nat) : Option ThriftMemoryOutTransport :=
  let totalLen := (t.dataLen + len + 4) % 2 ^ 32
  let length := ((totalLen / 4096 + 1) * 4096) % 2 ^ 32
  let block := malloc junk length
  match t.buffer with
  | none => some { t with buffer := some block, length := length }
  | some old =>
      (writeAt block 4 ((old.drop 4).take t.dataLen)).map fun block =>
        { t with buffer := some block, length := length }

/-- The `memcpy` that both branches of `write_virt` end with. -/
def append (t : ThriftMemoryOutTransport) (bytes : List UInt8) : Option ThriftMemoryOutTransport :=
  (t.buffer.bind fun block => writeAt block (t.dataLen + 4) bytes).map fun block =>
    { t with buffer := some block, dataLen := (t.dataLen + bytes.length) % 2 ^ 32 }

/-- `write_virt`. -/
def writeVirt (t : ThriftMemoryOutTransport) (bytes : List UInt8) :
    Option ThriftMemoryOutTransport :=
  if (t.dataLen + 4 + bytes.length) % 2 ^ 32 < t.length then append t bytes
  else (extend junk t bytes.length).bind fun t => append t bytes

/-- `flush`: the length in network order into the first four bytes; `none` without a buffer. -/
def flush (t : ThriftMemoryOutTransport) : Option ThriftMemoryOutTransport :=
  (t.buffer.bind fun block => writeAt block 0 (beBytes 4 t.dataLen)).map fun block =>
    { t with buffer := some block }

/-- `Detach`: the bytes handed out. -/
def detach (t : ThriftMemoryOutTransport) : List UInt8 :=
  (t.buffer.getD []).take (t.dataLen + 4)

/-- A sequence of `write_virt` calls. -/
def writeAll (t : ThriftMemoryOutTransport) : List (List UInt8) → Option ThriftMemoryOutTransport
  | [] => some t
  | bytes :: rest => (writeVirt junk t bytes).bind fun t => writeAll t rest

/-- The frame that some writes, `flush` and `Detach` produce. -/
def frameOf (writes : List (List UInt8)) : Option (List UInt8) :=
  ((writeAll junk .initial writes).bind flush).map detach

/-! ## What a frame is -/

/-- The transport holds `data` behind its reserved head, with room to spare. -/
structure Collected (data : List UInt8) (t : ThriftMemoryOutTransport) (block : List UInt8) :
    Prop where
  buffer : t.buffer = some block
  length : block.length = t.length
  dataLen : t.dataLen = data.length
  room : data.length + 4 < t.length
  content : (block.drop 4).take data.length = data

theorem drop_writeAt {block data result : List UInt8} {off : Nat} (known : List UInt8)
    (written : writeAt block (off + 4) data = some result)
    (content : (block.drop 4).take off = known) (size : known.length = off) :
    (result.drop 4).take (off + data.length) = known ++ data := by
  unfold writeAt at written
  split at written
  next inside =>
    obtain rfl := Option.some.inj written
    have front : (block.take (off + 4)).drop 4 = known := by
      rw [List.drop_take, Nat.add_sub_cancel]
      exact content
    have four : 4 ≤ (block.take (off + 4)).length := by
      rw [List.length_take]
      omega
    rw [List.append_assoc, List.drop_append_of_le_length four, front, ← List.append_assoc]
    exact List.take_left' (by rw [List.length_append, size])
  next => cases written

variable {t : ThriftMemoryOutTransport}

theorem append_collected {data block : List UInt8} (bytes : List UInt8) (collected : Collected data t block)
    (fits : data.length + 4 + bytes.length < t.length) (small : t.length ≤ 2 ^ 29) :
    ∃ t' block', append t bytes = some t' ∧ Collected (data ++ bytes) t' block' ∧
      t'.length = t.length := by
  have inside : t.dataLen + 4 + bytes.length ≤ block.length := by
    rw [collected.length, collected.dataLen]
    omega
  obtain ⟨block', stored⟩ : ∃ block', writeAt block (t.dataLen + 4) bytes = some block' :=
    ⟨_, writeAt_eq_some inside⟩
  have wrap : (t.dataLen + bytes.length) % 2 ^ 32 = (data ++ bytes).length := by
    rw [collected.dataLen, List.length_append]
    exact Nat.mod_eq_of_lt (by omega)
  refine ⟨{ t with buffer := some block', dataLen := (t.dataLen + bytes.length) % 2 ^ 32 }, block',
    by simp only [append, collected.buffer, Option.bind_some, stored, Option.map_some], ?_, rfl⟩
  refine ⟨rfl, (length_writeAt stored).trans collected.length, wrap, ?_, ?_⟩
  · simp only [List.length_append]
    omega
  · rw [collected.dataLen] at stored
    rw [List.length_append]
    exact drop_writeAt data stored collected.content rfl

/-- One `write_virt` call appends its bytes. -/
theorem writeVirt_collected {data block : List UInt8} (bytes : List UInt8)
    (collected : Collected data t block)
    (small : data.length + bytes.length + 4 ≤ 2 ^ 28) (cap : t.length ≤ 2 ^ 29) :
    ∃ t' block', writeVirt junk t bytes = some t' ∧ Collected (data ++ bytes) t' block' ∧
      t'.length ≤ 2 ^ 29 := by
  have wrap : (t.dataLen + 4 + bytes.length) % 2 ^ 32 = data.length + 4 + bytes.length := by
    rw [collected.dataLen]
    exact Nat.mod_eq_of_lt (by omega)
  unfold writeVirt
  rw [wrap]
  by_cases fits : data.length + 4 + bytes.length < t.length
  · rw [if_pos fits]
    obtain ⟨t', block', done, result, same⟩ := append_collected bytes collected fits cap
    exact ⟨t', block', done, result, by omega⟩
  · rw [if_neg fits]
    have total : (t.dataLen + bytes.length + 4) % 2 ^ 32 = data.length + bytes.length + 4 := by
      rw [collected.dataLen]
      exact Nat.mod_eq_of_lt (by omega)
    have length : (((data.length + bytes.length + 4) / 4096 + 1) * 4096) % 2 ^ 32 =
        ((data.length + bytes.length + 4) / 4096 + 1) * 4096 := Nat.mod_eq_of_lt (by omega)
    have old : (block.drop 4).take t.dataLen = data := by
      rw [collected.dataLen]
      exact collected.content
    obtain ⟨moved, stored⟩ : ∃ moved, writeAt
        (malloc junk (((data.length + bytes.length + 4) / 4096 + 1) * 4096)) 4 data = some moved :=
      ⟨_, writeAt_eq_some (by rw [length_malloc]; omega)⟩
    have grown : Collected data
        ⟨some moved, ((data.length + bytes.length + 4) / 4096 + 1) * 4096, t.dataLen⟩ moved := by
      refine ⟨rfl, ?_, collected.dataLen, by dsimp only; omega, ?_⟩
      · rw [length_writeAt stored, length_malloc]
      · have := drop_writeAt [] stored (by simp) rfl
        simpa using this
    obtain ⟨t', block', done, result, same⟩ := append_collected bytes grown
      (by dsimp only; omega) (by dsimp only; omega)
    refine ⟨t', block', ?_, result, by rw [same]; dsimp only; omega⟩
    simp only [extend, collected.buffer, total, length, old, stored, Option.map_some,
      Option.bind_some]
    exact done

/-- The first `write_virt` call allocates. -/
theorem writeVirt_initial (bytes : List UInt8) (small : bytes.length + 4 ≤ 2 ^ 28) :
    ∃ t' block', writeVirt junk .initial bytes = some t' ∧ Collected bytes t' block' ∧
      t'.length ≤ 2 ^ 29 := by
  have total : (0 + bytes.length + 4) % 2 ^ 32 = bytes.length + 4 := by
    rw [Nat.zero_add]
    exact Nat.mod_eq_of_lt (by omega)
  have length : (((bytes.length + 4) / 4096 + 1) * 4096) % 2 ^ 32 =
      ((bytes.length + 4) / 4096 + 1) * 4096 := Nat.mod_eq_of_lt (by omega)
  have fresh : Collected [] ⟨some (malloc junk (((bytes.length + 4) / 4096 + 1) * 4096)),
      ((bytes.length + 4) / 4096 + 1) * 4096, 0⟩
      (malloc junk (((bytes.length + 4) / 4096 + 1) * 4096)) :=
    ⟨rfl, length_malloc _ _, rfl, by dsimp only [List.length_nil]; omega, by simp⟩
  obtain ⟨t', block', done, result, same⟩ := append_collected bytes fresh
    (by dsimp only [List.length_nil]; omega) (by dsimp only; omega)
  refine ⟨t', block', ?_, result, by rw [same]; dsimp only; omega⟩
  simp only [writeVirt, extend, ThriftMemoryOutTransport.initial, total, length, Nat.not_lt_zero,
    if_false, Option.bind_some]
  exact done

theorem writeAll_collected {data block : List UInt8} (writes : List (List UInt8))
    (collected : Collected data t block)
    (small : data.length + writes.flatten.length + 4 ≤ 2 ^ 28) (cap : t.length ≤ 2 ^ 29) :
    ∃ t' block', writeAll junk t writes = some t' ∧ Collected (data ++ writes.flatten) t' block' := by
  induction writes generalizing t data block with
  | nil => exact ⟨t, block, rfl, by simpa using collected⟩
  | cons bytes rest ih =>
      rw [List.flatten_cons, List.length_append] at small
      obtain ⟨mid, midBlock, first, midCollected, midCap⟩ :=
        writeVirt_collected junk bytes collected (by omega) cap
      obtain ⟨t', block', later, result⟩ := ih midCollected
        (by rw [List.length_append]; omega) midCap
      refine ⟨t', block', by rw [writeAll, first]; exact later, ?_⟩
      simpa using result

variable {junk}

/-- A produced frame is the big endian length followed by the written bytes. -/
theorem frameOf_eq {writes : List (List UInt8)} {frame : List UInt8}
    (small : writes.flatten.length + 4 ≤ 2 ^ 28) (produced : frameOf junk writes = some frame) :
    frame = beBytes 4 writes.flatten.length ++ writes.flatten := by
  cases writes with
  | nil => simp [frameOf, writeAll, flush, ThriftMemoryOutTransport.initial] at produced
  | cons bytes rest =>
      rw [List.flatten_cons, List.length_append] at small
      obtain ⟨mid, midBlock, first, midCollected, midCap⟩ :=
        writeVirt_initial junk bytes (by omega)
      obtain ⟨t, block, later, collected⟩ := writeAll_collected junk rest midCollected
        (by omega) midCap
      rw [← List.flatten_cons] at collected
      have whole : writeAll junk .initial (bytes :: rest) = some t := by
        rw [writeAll, first]
        exact later
      obtain ⟨block', stored⟩ : ∃ block', writeAt block 0 (beBytes 4 t.dataLen) = some block' :=
        ⟨_, writeAt_eq_some (by
          have := collected.length
          have := collected.room
          rw [length_beBytes]
          omega)⟩
      have frameEq : frame = block'.take (t.dataLen + 4) := by
        simpa [frameOf, whole, flush, collected.buffer, stored, detach] using produced.symm
      have inside : 0 + (beBytes 4 t.dataLen).length ≤ block.length := by
        have := collected.length
        have := collected.room
        rw [length_beBytes]
        omega
      have blockEq : block' = beBytes 4 t.dataLen ++ block.drop 4 := by
        have := (writeAt_eq_some inside).symm.trans stored
        simpa using (Option.some.inj this).symm
      have headLen : (beBytes 4 t.dataLen).length = 4 := length_beBytes 4 _
      rw [frameEq, blockEq, List.take_append, headLen, Nat.add_sub_cancel,
        List.take_of_length_le (by omega), collected.dataLen, collected.content]

/-! ## The reading side -/

/-- `ThriftFramedMsgFactory`: a four-byte head read with `ntohl`. -/
def framedConfig (junk : Nat → UInt8) : Config :=
  ⟨4, fun block => some (beNat (block.take 4)), junk⟩

theorem framedConfig_positive (junk : Nat → UInt8) : 0 < (framedConfig junk).headLen :=
  Nat.succ_pos 3

theorem framedConfig_room (junk : Nat → UInt8) : (framedConfig junk).headLen ≤ 1024 :=
  Nat.le_of_ble_eq_true rfl

theorem isFrame_of_frameOf {writes : List (List UInt8)} {frame : List UInt8}
    (junk' : Nat → UInt8) (small : writes.flatten.length + 4 ≤ 2 ^ 28)
    (produced : frameOf junk writes = some frame) : IsFrame (framedConfig junk') frame := by
  have frameEq := frameOf_eq small produced
  have headLen : (beBytes 4 writes.flatten.length).length = 4 := length_beBytes 4 _
  have length : frame.length = 4 + writes.flatten.length := by
    rw [frameEq, List.length_append, headLen]
  refine ⟨by rw [length]; exact Nat.le_add_right _ _, fun rest => ?_, by omega⟩
  have head : frame.take 4 = beBytes 4 writes.flatten.length := by
    rw [frameEq]
    exact List.take_left' headLen
  dsimp only [framedConfig]
  rw [head, List.take_left' headLen, beNat_beBytes_of_lt (by omega), length, Nat.add_sub_cancel_left]

/--
Thrift frames, written by `ThriftMemoryOutTransport` and delivered in any pieces
that fit the offered buffers, come out whole exactly when no piece ends strictly
inside one of the four-byte heads.
-/
theorem thrift_frames_reassemble_iff (outJunk inJunk : Nat → UInt8)
    (writes : List (List (List UInt8))) (frames pieces : List (List UInt8))
    (produced : List.Forall₂ (fun w f => frameOf outJunk w = some f) writes frames)
    (small : ∀ w ∈ writes, w.flatten.length + 4 ≤ 256 * 1024 * 1024)
    (stream : pieces.flatten = frames.flatten)
    (fits : (decoder (framedConfig inJunk)).Fits .initial pieces) :
    Reassembles (framedConfig inJunk) frames pieces ↔
      ∀ k ∈ cutsFrom 0 pieces, ¬ InHead 4 0 frames k := by
  refine reassembles_iff (framedConfig_positive inJunk) (framedConfig_room inJunk) frames pieces ?_
    stream fits
  clear stream fits
  induction produced with
  | nil => exact fun f member => by cases member
  | cons first _ ih =>
      intro f member
      rcases List.mem_cons.mp member with rfl | later
      · exact isFrame_of_frameOf inJunk (small _ (List.mem_cons_self ..)) first
      · exact ih (fun w hw => small w (List.mem_cons_of_mem _ hw)) f later

/-- One empty write is framed as four zero bytes. -/
theorem frameOf_empty_write (junk : Nat → UInt8) : frameOf junk [[]] = some [0, 0, 0, 0] := by
  obtain ⟨t, block, done, collected, -⟩ := writeVirt_initial junk [] (by decide)
  have zero : t.dataLen = 0 := collected.dataLen
  have inside : 0 + (beBytes 4 0).length ≤ block.length := by
    have := collected.length
    have := collected.room
    simp only [length_beBytes, List.length_nil] at *
    omega
  have all : writeAll junk .initial [[]] = some t := by
    rw [writeAll, done]
    rfl
  simp only [frameOf, all, flush, collected.buffer, zero, Option.bind_some, Option.map_some,
    writeAt_eq_some inside, detach, Option.getD_some]
  rfl

theorem thrift_frames_reassemble_two_frames :
    Reassembles (framedConfig fun _ => 0) [[0, 0, 0, 0], [0, 0, 0, 0]]
      [[0, 0, 0, 0], [0, 0, 0, 0]] := by
  have offer := offered_initial (framedConfig_positive fun _ => 0)
  have frameOk : IsFrame (framedConfig fun _ => 0) [0, 0, 0, 0] :=
    isFrame_of_frameOf _ (by decide) (frameOf_empty_write fun _ => 0)
  have first : (decoder (framedConfig fun _ => 0)).deliver .initial [0, 0, 0, 0] =
      some (.initial, [[0, 0, 0, 0]]) := by
    rw [decoder_deliver]
    rcases deliver_head frameOk (framedConfig_positive _) (framedConfig_room _)
      (List.prefix_refl _) rfl with ⟨-, result⟩ | ⟨less, -⟩
    · exact result
    · exact absurd less (by decide)
  have fits : (decoder (framedConfig fun _ => 0)).Fits .initial [[0, 0, 0, 0], [0, 0, 0, 0]] :=
    .cons (by decide) offer (by decide) (Or.inr ⟨_, _, first,
      .cons (by decide) offer (by decide) (Or.inr ⟨_, _, first, trivial⟩)⟩)
  refine (thrift_frames_reassemble_iff (fun _ => 0) (fun _ => 0) [[[]], [[]]] _ _
    (.cons (frameOf_empty_write _) (.cons (frameOf_empty_write _) .nil)) (by decide) rfl fits).mpr ?_
  simp [cutsFrom, InHead]

/-- A frame of four zero bytes cut after its first byte: `Feed` returns -3. -/
theorem head_cut_rejected :
    frameOf (fun _ => 0) [[]] = some [0, 0, 0, 0] ∧
      (decoder (framedConfig fun _ => 0)).Fits .initial [[0], [0, 0, 0]] ∧
      ¬ Reassembles (framedConfig fun _ => 0) [[0, 0, 0, 0]] [[0], [0, 0, 0]] := by
  have failed : (decoder (framedConfig fun _ => 0)).deliver .initial [0] = none := by
    rw [decoder_deliver]
    exact deliver_short (framedConfig_positive _) (framedConfig_room _) (by decide) (by decide)
  have offer := offered_initial (framedConfig_positive fun _ => 0)
  refine ⟨frameOf_empty_write _, .cons (by decide) offer (by decide) (Or.inl failed), ?_⟩
  rintro ⟨⟨d, done⟩, -⟩
  rw [Decoder.feedAll_cons_none failed] at done
  cases done

end MlsImgSearch.Blitz.ThriftMsg
