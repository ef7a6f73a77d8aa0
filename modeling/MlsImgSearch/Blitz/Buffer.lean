import Mathlib.Data.List.TakeWhile
import MlsImgSearch.Lib.Bytes
import MlsImgSearch.Lib.Run

/-!
# Reading from a list of buffers

`BufferReader` reads from several buffers as if they were one sequence of bytes.
Each read has a fast path inside the current buffer and a slow path over several of
them, and the count of what is left is kept on its own. The calls are compared with
reads from the plain sequence of bytes.
-/

namespace MlsImgSearch.Blitz.Buffer

open Lib.Bytes Lib.Run

/-- A sum of `int` values. -/
def wrap (n : Int) : Int := n.bmod (2 ^ 32)

/-- `DataBuffer` on the reading side: its `data_length` bytes and `read_pos`. -/
structure DataBuffer where
  data : List UInt8
  readPos : Nat
  deriving DecidableEq

/-- The bytes of a buffer from `read_pos` on. -/
def DataBuffer.left (buffer : DataBuffer) : List UInt8 := buffer.data.drop buffer.readPos

/-- `current_buffer_` is the head of `after`, which is empty when the pointer is behind the last
buffer; the buffers before it are listed backwards. -/
structure BufferReader where
  before : List DataBuffer
  after : List DataBuffer
  dataLeftLength : Int
  deriving DecidableEq

/-- The constructor. -/
def bufferReader (buffers : List (List UInt8)) : BufferReader :=
  ⟨[], buffers.map fun data => ⟨data, 0⟩, wrap buffers.flatten.length⟩

inductive Value where
  | int (size : Nat) (value : BitVec (8 * size))
  | bytes (data : List UInt8)
  | number (value : Int)
  deriving DecidableEq

def kNotEnoughData : Int := -5

/-- The return code, what is stored for the caller, and the reader afterwards. -/
abbrev Outcome (β : Type) := Int × Option β × BufferReader

/-! ## The slow path -/

/-- The passes of `IterateRead` from the current buffer on. A buffer that has been read to its end
hands over no bytes. `none` is the failed assertion behind the last buffer. -/
def iterateFrom {β : Type} (function : β → List UInt8 → β) :
    List DataBuffer → DataBuffer → List DataBuffer → Int → Nat → β → Option (β × BufferReader)
  | before, cur, rest, dataLeft, left, acc =>
      let bufferLeft := cur.data.length - cur.readPos
      let copyLength := if bufferLeft < left then bufferLeft else left
      let acc := function acc (cur.left.take copyLength)
      let cur : DataBuffer := { cur with readPos := cur.readPos + copyLength }
      if left - copyLength = 0 then some (acc, ⟨before, cur :: rest, dataLeft - copyLength⟩)
      else
        match rest with
        | [] => none
        | next :: rest =>
            iterateFrom function (cur :: before) { next with readPos := 0 } rest
              (dataLeft - copyLength) (left - copyLength) acc

/-- `IterateRead`. -/
def iterateRead {β : Type} (function : β → List UInt8 → β) (init : β) (r : BufferReader)
    (length : Int) : Option (Outcome β) :=
  if r.dataLeftLength < length then some (kNotEnoughData, none, r)
  else if length = 0 then some (0, some init, r)
  else if length < 0 then none
  else
    match r.after with
    | [] => none
    | cur :: rest =>
        (iterateFrom function r.before cur rest r.dataLeftLength length.toNat init).map
          fun (result, r) => (length, some result, r)

/-- `CopyReader` and `StringReader`. -/
def copyChunk (copied chunk : List UInt8) : List UInt8 := copied ++ chunk

/-- `ReverseCopyReader`. -/
def reverseCopyChunk (copied chunk : List UInt8) : List UInt8 := chunk.reverse ++ copied

/-! ## The calls -/

/-- `AdvanceCurrentBuffer`. -/
def advanceCurrentBuffer (r : BufferReader) (length : Nat) : BufferReader :=
  match r.after with
  | [] => r
  | cur :: rest =>
      { r with
        after := { cur with readPos := cur.readPos + length } :: rest
        dataLeftLength := r.dataLeftLength - length }

/-- A read of `length` bytes: from the current buffer alone if it has them. `none` when there is no
current buffer. -/
def readWith (here : List UInt8 → List UInt8) (function : List UInt8 → List UInt8 → List UInt8)
    (r : BufferReader) (length : Nat) : Option (Outcome (List UInt8)) :=
  match r.after with
  | [] => none
  | cur :: _ =>
      if length ≤ cur.data.length - cur.readPos then
        some (length, some (here (cur.left.take length)), advanceCurrentBuffer r length)
      else iterateRead function [] r length

/-- The value whose bytes in memory, lowest first, are given. -/
def intOf (size : Nat) (memory : List UInt8) : Value := .int size (BitVec.ofNat _ (leNat memory))

def Outcome.as {β γ : Type} (value : β → γ) : Outcome β → Outcome γ
  | (ret, out, r) => (ret, out.map value, r)

def readByte (r : BufferReader) : Option (Outcome Value) :=
  (readWith id copyChunk r 1).map (Outcome.as (intOf 1))

/-- The bytes of an integer are stored in reverse on both paths. -/
def readInt (size : Nat) (r : BufferReader) : Option (Outcome Value) :=
  (readWith List.reverse reverseCopyChunk r size).map (Outcome.as (intOf size))

def readI16 (r : BufferReader) : Option (Outcome Value) := readInt 2 r

def readI32 (r : BufferReader) : Option (Outcome Value) := readInt 4 r

def readI64 (r : BufferReader) : Option (Outcome Value) := readInt 8 r

/-- `ReadData`; `none` is also the failed assertion. -/
def readData (r : BufferReader) (length : Int) : Option (Outcome Value) :=
  if length ≤ 0 then none
  else (readWith id copyChunk r length.toNat).map (Outcome.as .bytes)

/-- `Back` from the current buffer on; `none` in front of the first buffer. -/
def backFrom : List DataBuffer → DataBuffer → List DataBuffer → Int → Nat → Option BufferReader
  | before, cur, rest, dataLeft, length =>
      if length ≤ cur.readPos then
        some ⟨before, { cur with readPos := cur.readPos - length } :: rest, dataLeft + length⟩
      else
        match before with
        | [] => none
        | previous :: before =>
            backFrom before previous ({ cur with readPos := 0 } :: rest) (dataLeft + cur.readPos)
              (length - cur.readPos)

def back (r : BufferReader) (length : Nat) : Option BufferReader :=
  match r.after with
  | [] => none
  | cur :: rest => backFrom r.before cur rest r.dataLeftLength length

/-- `ReadString` behind the length. A negative length makes `reserve` throw, which is `none`. -/
def readText (r : BufferReader) (length : Int) : Option (Outcome Value) :=
  if r.dataLeftLength < length then (back r 4).map fun r' => (kNotEnoughData, none, r')
  else if length < 0 then none
  else
    (iterateRead copyChunk [] r length).map fun (read, text, r') => (read + 4, text.map .bytes, r')

/-- `ReadString` and `ReadBinary`. -/
def readString (r : BufferReader) : Option (Outcome Value) :=
  (readWith List.reverse reverseCopyChunk r 4).bind fun (ret, memory, r') =>
    match memory with
    | none => some (ret, none, r')
    | some memory => readText r' (wrap (leNat memory))

/-- `UseNakedPtr`: the fast path moves `read_pos` alone. `none` is also a `read_pos` in front of the
buffer. -/
def useNakedPtr (r : BufferReader) (length : Int) : Option (Outcome Value) :=
  match r.after with
  | [] => none
  | cur :: rest =>
      if length ≤ (cur.data.length : Int) - cur.readPos then
        if (cur.readPos : Int) + length < 0 then none
        else
          some (length, some (.bytes (cur.left.take length.toNat)),
            { r with after := { cur with readPos := (cur.readPos + length).toNat } :: rest })
      else (iterateRead copyChunk [] r length).map (Outcome.as .bytes)

def isDigit (byte : UInt8) : Bool := 48 ≤ byte ∧ byte ≤ 57

/-- The digits at the start of some bytes, read on from a number. -/
def digitsValue (integer : Int) (digits : List UInt8) : Int :=
  digits.foldl (fun integer byte => (integer * 10 + byte.toNat - 48).bmod (2 ^ 64)) integer

/-- A pass of `ScanfDigit` goes to the next buffer, or behind the last one, when the current one has
been read. -/
def enterBuffer (r : BufferReader) : Option BufferReader :=
  match r.after with
  | [] => none
  | cur :: rest =>
      if cur.data.length ≤ cur.readPos then
        match rest with
        | [] => some { r with before := cur :: r.before, after := [] }
        | next :: rest =>
            some { r with before := cur :: r.before, after := { next with readPos := 0 } :: rest }
      else some r

/-- The loop of `ScanfDigit`, for at most `fuel` passes: `read_pos` is moved by the number of bytes
behind the digits. -/
def scanfLoop : Nat → BufferReader → Int → Nat → Option (Outcome Value)
  | 0, _, _, _ => none
  | fuel + 1, r, integer, length =>
      (enterBuffer r).bind fun r =>
        match r.after with
        | [] => some (length, some (.number integer), r)
        | cur :: rest =>
            let digits := cur.left.takeWhile isDigit
            let others := cur.left.length - digits.length
            let r' := { r with after := { cur with readPos := cur.readPos + others } :: rest }
            if 0 < others then
              some ((length + digits.length : Nat), some (.number (digitsValue integer digits)), r')
            else scanfLoop fuel r' (digitsValue integer digits) (length + digits.length)

/-- `ScanfDigit`. Each pass leaves the buffers or stays for ever, so that there are enough passes. -/
def scanfDigit (r : BufferReader) : Option (Outcome Value) :=
  scanfLoop (r.after.length + 1) r 0 0

inductive Call where
  | readByte
  | readI16
  | readI32
  | readI64
  | readString
  | readData (length : Int)
  | useNakedPtr (length : Int)
  | scanfDigit
  deriving DecidableEq

def perform (r : BufferReader) : Call → Option (Outcome Value)
  | .readByte => readByte r
  | .readI16 => readI16 r
  | .readI32 => readI32 r
  | .readI64 => readI64 r
  | .readString => readString r
  | .readData length => readData r length
  | .useNakedPtr length => useNakedPtr r length
  | .scanfDigit => scanfDigit r

def step (r : BufferReader) (call : Call) : Option BufferReader :=
  (perform r call).map fun (_, _, r') => r'

/-! ## The contract -/

/-- The bytes that have not been consumed, from the current buffer on. -/
def BufferReader.unread (r : BufferReader) : List UInt8 :=
  match r.after with
  | [] => []
  | cur :: rest => cur.left ++ (rest.map DataBuffer.data).flatten

/-- The count of what is left is right. -/
def Bookkept (r : BufferReader) : Prop := r.dataLeftLength = r.unread.length

/-- What a call should return and store when these bytes are next; `none` when it should fail. -/
def expected : Call → List UInt8 → Option (Nat × Value)
  | .readByte, data => expectedInt 1 data
  | .readI16, data => expectedInt 2 data
  | .readI32, data => expectedInt 4 data
  | .readI64, data => expectedInt 8 data
  | .readString, data =>
      if 4 ≤ data.length ∧ beNat (data.take 4) ≤ data.length - 4 then
        some (4 + beNat (data.take 4), .bytes ((data.drop 4).take (beNat (data.take 4))))
      else none
  | .readData length, data => expectedBytes length data
  | .useNakedPtr length, data => expectedBytes length data
  | .scanfDigit, data =>
      some ((data.takeWhile isDigit).length, .number (digitsValue 0 (data.takeWhile isDigit)))
where
  expectedInt (size : Nat) (data : List UInt8) : Option (Nat × Value) :=
    if size ≤ data.length then
      some (size, .int size (BitVec.ofNat _ (beNat (data.take size))))
    else none
  expectedBytes (length : Int) (data : List UInt8) : Option (Nat × Value) :=
    if 0 ≤ length ∧ length ≤ data.length then
      some (length.toNat, .bytes (data.take length.toNat))
    else none

/-- A call returns, keeps the count right, and consumes and stores what it should. -/
def Honest (r : BufferReader) (call : Call) : Prop :=
  ∃ ret out r', perform r call = some (ret, out, r') ∧ Bookkept r' ∧
    match expected call r.unread with
    | some (n, value) => ret = n ∧ out = some value ∧ r'.unread = r.unread.drop n
    | none => ret ≤ 0 ∧ r'.unread = r.unread

/-- There is a current buffer; a string has no negative length; data are read in a positive length;
a naked pointer is used for nothing or for more than the current buffer has left; digits are scanned
where no byte is left. -/
def Allowed (r : BufferReader) : Call → Prop
  | .readString => r.after ≠ [] ∧ (4 ≤ r.unread.length → beNat (r.unread.take 4) < 2 ^ 31)
  | .readData length => r.after ≠ [] ∧ 0 < length
  | .useNakedPtr length =>
      ∃ cur rest, r.after = cur :: rest ∧ (length = 0 ∨ (cur.left.length : Int) < length)
  | .scanfDigit => r.after ≠ [] ∧ r.unread = []
  | _ => r.after ≠ []

/-- All calls of a run are honest, and the count is right before the first one. -/
def Keeps (buffers : List (List UInt8)) (calls : List Call) : Prop :=
  Bookkept (bufferReader buffers) ∧ Meets step Honest (bufferReader buffers) calls

/-! ## The slow path -/

section SlowPath

variable {r r' : BufferReader}

/-- Buffers before the current one have been read to their ends, and the position is inside the
current one. -/
structure Placed (r : BufferReader) : Prop where
  passed : ∀ buffer ∈ r.before, buffer.readPos = buffer.data.length
  inside : ∀ cur rest, r.after = cur :: rest → cur.readPos ≤ cur.data.length

/-- All bytes of the reader. -/
def BufferReader.all (r : BufferReader) : List UInt8 :=
  (r.before.reverse.map DataBuffer.data).flatten ++ (r.after.map DataBuffer.data).flatten

theorem unread_cons (before rest : List DataBuffer) (cur : DataBuffer) (dataLeft : Int) :
    BufferReader.unread ⟨before, cur :: rest, dataLeft⟩ =
      cur.left ++ (rest.map DataBuffer.data).flatten := rfl

/-- The reader behind some bytes. -/
structure Consumed (length : Nat) (r r' : BufferReader) : Prop where
  unread : r'.unread = r.unread.drop length
  counted : r'.dataLeftLength = r.dataLeftLength - length
  placed : Placed r'
  all : r'.all = r.all
  current : r'.after ≠ []

theorem length_left (buffer : DataBuffer) :
    buffer.left.length = buffer.data.length - buffer.readPos := List.length_drop

section Passes

variable {β : Type} (function : β → List UInt8 → β) (init : β) (before rest : List DataBuffer)
  (cur : DataBuffer) (dataLeft : Int)

theorem iterateFrom_last {length : Nat} (enough : length ≤ cur.data.length - cur.readPos) :
    iterateFrom function before cur rest dataLeft length init =
      some (function init (cur.left.take length),
        ⟨before, { cur with readPos := cur.readPos + length } :: rest, dataLeft - length⟩) := by
  unfold iterateFrom
  dsimp only
  rw [if_neg (Nat.not_lt.mpr enough), Nat.sub_self, if_pos rfl]

theorem iterateFrom_next {next : DataBuffer} {length : Nat}
    (more : cur.data.length - cur.readPos < length) :
    iterateFrom function before cur (next :: rest) dataLeft length init =
      iterateFrom function
        ({ cur with readPos := cur.readPos + (cur.data.length - cur.readPos) } :: before)
        { next with readPos := 0 } rest (dataLeft - (cur.data.length - cur.readPos : Nat))
        (length - (cur.data.length - cur.readPos)) (function init cur.left) := by
  have some' : length - (cur.data.length - cur.readPos) ≠ 0 := by omega
  have whole : cur.left.take (cur.data.length - cur.readPos) = cur.left := by
    rw [← length_left, List.take_length]
  rw [iterateFrom, if_pos more, if_neg some', whole]

end Passes

theorem left_advance (cur : DataBuffer) (length : Nat) :
    DataBuffer.left { cur with readPos := cur.readPos + length } = cur.left.drop length :=
  (List.drop_drop ..).symm

/-- The step to the next buffer. -/
theorem Placed.next {before rest : List DataBuffer} {cur next : DataBuffer} {dataLeft : Int}
    (placed : Placed ⟨before, cur :: next :: rest, dataLeft⟩) (dataLeft' : Int) :
    Placed ⟨{ cur with readPos := cur.readPos + (cur.data.length - cur.readPos) } :: before,
      { next with readPos := 0 } :: rest, dataLeft'⟩ := by
  refine ⟨fun buffer member => ?_, fun cur' rest' isCur => ?_⟩
  · rcases List.mem_cons.mp member with rfl | earlier
    · exact Nat.add_sub_cancel' (placed.inside cur _ rfl)
    · exact placed.passed buffer earlier
  · obtain ⟨rfl, -⟩ := List.cons.inj isCur
    exact Nat.zero_le _

/-- A read that ends inside the current buffer. -/
theorem consumed_here {before rest : List DataBuffer} {cur : DataBuffer} {dataLeft : Int}
    {length : Nat} (placed : Placed ⟨before, cur :: rest, dataLeft⟩)
    (enough : length ≤ cur.left.length) :
    Consumed length ⟨before, cur :: rest, dataLeft⟩
      ⟨before, { cur with readPos := cur.readPos + length } :: rest, dataLeft - length⟩ where
  unread := by
    rw [unread_cons, unread_cons, left_advance, List.drop_append_of_le_length enough]
  counted := rfl
  placed := by
    refine ⟨placed.passed, fun cur' rest' isCur => ?_⟩
    obtain ⟨rfl, -⟩ := List.cons.inj isCur
    have inside := placed.inside cur rest rfl
    rw [length_left] at enough
    dsimp only
    omega
  all := rfl
  current := List.cons_ne_nil _ _

/-- The passes hand over the next bytes in chunks. -/
theorem iterateFrom_spec {β : Type} (function : β → List UInt8 → β) (init : β)
    {before rest : List DataBuffer} {cur : DataBuffer} {dataLeft : Int} {length : Nat}
    (placed : Placed ⟨before, cur :: rest, dataLeft⟩)
    (enough : length ≤ (BufferReader.unread ⟨before, cur :: rest, dataLeft⟩).length) :
    ∃ (chunks : List (List UInt8)) (r' : BufferReader), chunks.flatten =
        (BufferReader.unread ⟨before, cur :: rest, dataLeft⟩).take length ∧
      iterateFrom function before cur rest dataLeft length init =
        some (chunks.foldl function init, r') ∧
      Consumed length ⟨before, cur :: rest, dataLeft⟩ r' := by
  induction rest generalizing before cur dataLeft length init with
  | nil =>
      rw [unread_cons, List.map_nil, List.flatten_nil, List.append_nil] at enough ⊢
      refine ⟨[cur.left.take length], _, List.flatten_singleton, ?_, consumed_here placed enough⟩
      exact iterateFrom_last function init before [] cur dataLeft (length_left cur ▸ enough)
  | cons next rest ih =>
      by_cases here : length ≤ cur.left.length
      · refine ⟨[cur.left.take length], _, ?_, ?_, consumed_here placed here⟩
        · rw [List.flatten_singleton, unread_cons, List.take_append_of_le_length here]
        · exact iterateFrom_last function init before _ cur dataLeft (length_left cur ▸ here)
      · have more : cur.data.length - cur.readPos < length := by
          rw [← length_left]
          exact Nat.lt_of_not_le here
        have whole : cur.left.length ≤ length := Nat.le_of_not_le here
        have split : BufferReader.unread ⟨before, cur :: next :: rest, dataLeft⟩ = cur.left ++
            BufferReader.unread ⟨{ cur with
              readPos := cur.readPos + (cur.data.length - cur.readPos) } :: before,
              { next with readPos := 0 } :: rest,
              dataLeft - (cur.data.length - cur.readPos : Nat)⟩ := rfl
        rw [split, List.length_append, length_left] at enough
        obtain ⟨chunks, r', together, ran, consumed⟩ := ih (function init cur.left)
          (placed.next (dataLeft - (cur.data.length - cur.readPos : Nat)))
          (Nat.sub_le_of_le_add (Nat.add_comm _ _ ▸ enough))
        refine ⟨cur.left :: chunks, r', ?_,
          (iterateFrom_next function init before rest cur dataLeft more).trans ran,
          ?_, ?_, consumed.placed, ?_, consumed.current⟩
        · rw [split, List.flatten_cons, together, List.take_append, length_left,
            List.take_of_length_le whole]
        · rw [consumed.unread, split, List.drop_append, length_left,
            List.drop_eq_nil_of_le whole, List.nil_append]
        · rw [consumed.counted]
          dsimp only
          omega
        · rw [consumed.all]
          simp [BufferReader.all]

theorem consumed_zero (placed : Placed r) (current : r.after ≠ []) : Consumed 0 r r :=
  ⟨rfl, (Int.sub_zero _).symm, placed, rfl, current⟩

theorem Consumed.bookkept {length : Nat} (consumed : Consumed length r r') (bookkept : Bookkept r)
    (enough : length ≤ r.unread.length) : Bookkept r' := by
  unfold Bookkept at bookkept ⊢
  rw [consumed.counted, consumed.unread, bookkept, List.length_drop]
  omega

/-- `IterateRead` with enough bytes. -/
theorem iterateRead_spec {β : Type} (function : β → List UInt8 → β) (init : β) (placed : Placed r)
    (bookkept : Bookkept r) (current : r.after ≠ []) {length : Nat}
    (enough : length ≤ r.unread.length) :
    ∃ (chunks : List (List UInt8)) (r' : BufferReader), chunks.flatten = r.unread.take length ∧
      iterateRead function init r length = some ((length : Int), some (chunks.foldl function init), r') ∧
      Consumed length r r' := by
  unfold iterateRead
  rw [if_neg (by rw [bookkept]; omega)]
  by_cases zero : length = 0
  · subst zero
    exact ⟨[], r, rfl, if_pos rfl, consumed_zero placed current⟩
  · rw [if_neg (by omega), if_neg (by omega)]
    obtain ⟨before, after, dataLeft⟩ := r
    cases after with
    | nil => exact absurd rfl current
    | cons cur rest =>
        obtain ⟨chunks, r', together, ran, consumed⟩ :=
          iterateFrom_spec function init placed enough
        refine ⟨chunks, r', together, ?_, consumed⟩
        dsimp only
        rw [Int.toNat_natCast, ran]
        rfl

theorem iterateRead_short {β : Type} (function : β → List UInt8 → β) (init : β)
    (bookkept : Bookkept r) {length : Int} (short : (r.unread.length : Int) < length) :
    iterateRead function init r length = some (kNotEnoughData, none, r) :=
  if_pos (bookkept ▸ short)

theorem foldl_copyChunk (chunks : List (List UInt8)) (copied : List UInt8) :
    chunks.foldl copyChunk copied = copied ++ chunks.flatten := by
  induction chunks generalizing copied with
  | nil => exact (List.append_nil _).symm
  | cons chunk chunks ih =>
      rw [List.foldl_cons, ih, copyChunk, List.append_assoc, List.flatten_cons]

theorem foldl_reverseCopyChunk (chunks : List (List UInt8)) (copied : List UInt8) :
    chunks.foldl reverseCopyChunk copied = chunks.flatten.reverse ++ copied := by
  induction chunks generalizing copied with
  | nil => rfl
  | cons chunk chunks ih =>
      rw [List.foldl_cons, ih, reverseCopyChunk, List.flatten_cons, List.reverse_append,
        List.append_assoc]

end SlowPath

/-! ## Both paths -/

section Reads

variable {r r' : BufferReader} {here : List UInt8 → List UInt8}
  {function : List UInt8 → List UInt8 → List UInt8}

/-- Both paths store the same. -/
def Agree (here : List UInt8 → List UInt8) (function : List UInt8 → List UInt8 → List UInt8) : Prop :=
  ∀ chunks : List (List UInt8), chunks.foldl function [] = here chunks.flatten

theorem agree_copy : Agree id copyChunk := fun chunks => foldl_copyChunk chunks []

theorem agree_reverse : Agree List.reverse reverseCopyChunk := fun chunks =>
  (foldl_reverseCopyChunk chunks []).trans (List.append_nil _)

/-- A read with enough bytes. -/
theorem readWith_spec (agree : Agree here function) (placed : Placed r) (bookkept : Bookkept r)
    (current : r.after ≠ []) {length : Nat} (enough : length ≤ r.unread.length) :
    ∃ r', readWith here function r length =
        some ((length : Int), some (here (r.unread.take length)), r') ∧ Consumed length r r' := by
  obtain ⟨before, after, dataLeft⟩ := r
  cases after with
  | nil => exact absurd rfl current
  | cons cur rest =>
      unfold readWith
      dsimp only
      by_cases inHere : length ≤ cur.data.length - cur.readPos
      · have enoughHere : length ≤ cur.left.length := (length_left cur).symm ▸ inHere
        rw [if_pos inHere, unread_cons, List.take_append_of_le_length enoughHere]
        exact ⟨_, rfl, consumed_here placed enoughHere⟩
      · obtain ⟨chunks, r', together, ran, consumed⟩ :=
          iterateRead_spec function [] placed bookkept current enough
        rw [if_neg inHere, ran, agree chunks, together]
        exact ⟨r', rfl, consumed⟩

/-- A read without enough bytes changes nothing. -/
theorem readWith_short (bookkept : Bookkept r) (current : r.after ≠ []) {length : Nat}
    (short : r.unread.length < length) :
    readWith here function r length = some (kNotEnoughData, none, r) := by
  obtain ⟨before, after, dataLeft⟩ := r
  cases after with
  | nil => exact absurd rfl current
  | cons cur rest =>
      have notHere : ¬ length ≤ cur.data.length - cur.readPos := by
        rw [unread_cons, List.length_append, length_left] at short
        omega
      unfold readWith
      dsimp only
      rw [if_neg notHere]
      exact iterateRead_short function [] bookkept (by exact_mod_cast short)

/-! ## Roll back -/

/-- The reader in front of some bytes again. -/
structure Returned (length : Nat) (r r' : BufferReader) : Prop where
  unread : r'.unread.length = r.unread.length + length
  counted : r'.dataLeftLength = r.dataLeftLength + length
  placed : Placed r'
  all : r'.all = r.all
  current : r'.after ≠ []

theorem returned_here {before rest : List DataBuffer} {cur : DataBuffer} {dataLeft : Int}
    {length : Nat} (placed : Placed ⟨before, cur :: rest, dataLeft⟩) (read : length ≤ cur.readPos) :
    Returned length ⟨before, cur :: rest, dataLeft⟩
      ⟨before, { cur with readPos := cur.readPos - length } :: rest, dataLeft + length⟩ where
  unread := by
    have inside := placed.inside cur rest rfl
    rw [unread_cons, unread_cons, List.length_append, List.length_append, length_left, length_left]
    dsimp only
    omega
  counted := rfl
  placed := by
    refine ⟨placed.passed, fun cur' rest' isCur => ?_⟩
    obtain ⟨rfl, -⟩ := List.cons.inj isCur
    exact Nat.le_trans (Nat.sub_le _ _) (placed.inside cur rest rfl)
  all := rfl
  current := List.cons_ne_nil _ _

theorem backFrom_spec {before rest : List DataBuffer} {cur : DataBuffer} {dataLeft : Int}
    {length : Nat} (placed : Placed ⟨before, cur :: rest, dataLeft⟩)
    (read : length ≤ (before.map DataBuffer.data).flatten.length + cur.readPos) :
    ∃ r', backFrom before cur rest dataLeft length = some r' ∧
      Returned length ⟨before, cur :: rest, dataLeft⟩ r' := by
  induction before generalizing cur rest dataLeft length with
  | nil =>
      have here : length ≤ cur.readPos := by simpa using read
      unfold backFrom
      rw [if_pos here]
      exact ⟨_, rfl, returned_here placed here⟩
  | cons previous before ih =>
      unfold backFrom
      by_cases here : length ≤ cur.readPos
      · rw [if_pos here]
        exact ⟨_, rfl, returned_here placed here⟩
      · rw [if_neg here]
        dsimp only
        have full := placed.passed previous (List.mem_cons_self ..)
        have placed' : Placed ⟨before, previous :: { cur with readPos := 0 } :: rest,
            dataLeft + cur.readPos⟩ := by
          refine ⟨fun buffer member => placed.passed buffer (List.mem_cons_of_mem _ member),
            fun cur' rest' isCur => ?_⟩
          obtain ⟨rfl, -⟩ := List.cons.inj isCur
          exact Nat.le_of_eq full
        have earlier : length - cur.readPos ≤
            (before.map DataBuffer.data).flatten.length + previous.readPos := by
          rw [List.map_cons, List.flatten_cons, List.length_append] at read
          omega
        obtain ⟨r', ran, returned⟩ := ih placed' earlier
        refine ⟨r', ran, ?_, ?_, returned.placed, ?_, returned.current⟩
        · rw [returned.unread, unread_cons, unread_cons]
          have inside := placed.inside cur rest rfl
          simp only [List.length_append, length_left, List.map_cons, List.flatten_cons, full]
          omega
        · rw [returned.counted]
          dsimp only
          omega
        · rw [returned.all]
          simp [BufferReader.all]

theorem unread_suffix (r : BufferReader) : r.unread <:+ r.all := by
  obtain ⟨before, after, dataLeft⟩ := r
  cases after with
  | nil => exact List.nil_suffix
  | cons cur rest =>
      refine ⟨(before.reverse.map DataBuffer.data).flatten ++ cur.data.take cur.readPos, ?_⟩
      rw [unread_cons, DataBuffer.left, List.append_assoc, ← List.append_assoc (cur.data.take _),
        List.take_append_drop]
      rfl

/-- What has been read lies in front of the position. -/
theorem length_all {before rest : List DataBuffer} {cur : DataBuffer} {dataLeft : Int}
    (placed : Placed ⟨before, cur :: rest, dataLeft⟩) :
    (BufferReader.all ⟨before, cur :: rest, dataLeft⟩).length =
      (before.map DataBuffer.data).flatten.length + cur.readPos +
        (BufferReader.unread ⟨before, cur :: rest, dataLeft⟩).length := by
  have inside := placed.inside cur rest rfl
  have turned : (before.reverse.map DataBuffer.data).flatten.length =
      (before.map DataBuffer.data).flatten.length := by
    rw [List.map_reverse, List.length_flatten, List.length_flatten, List.map_reverse,
      List.sum_reverse]
  rw [BufferReader.all, unread_cons, List.length_append, List.length_append, turned, length_left,
    List.map_cons, List.flatten_cons, List.length_append]
  omega

/-- A read is rolled back. -/
theorem back_consumed {length : Nat} (consumed : Consumed length r r')
    (enough : length ≤ r.unread.length) :
    ∃ r'', back r' length = some r'' ∧ r''.unread = r.unread ∧
      r''.dataLeftLength = r.dataLeftLength ∧ Placed r'' ∧ r''.after ≠ [] := by
  have placed := consumed.placed
  have whole := consumed.all
  have rest := congrArg List.length consumed.unread
  rw [List.length_drop] at rest
  have counted := consumed.counted
  have inAll := (unread_suffix r).length_le
  rw [← whole] at inAll
  obtain ⟨before, after, dataLeft⟩ := r'
  cases after with
  | nil => exact absurd rfl consumed.current
  | cons cur after =>
      have total := length_all placed
      have read : length ≤ (before.map DataBuffer.data).flatten.length + cur.readPos := by omega
      obtain ⟨r'', ran, returned⟩ := backFrom_spec placed read
      refine ⟨r'', ran, ?_, ?_, returned.placed, returned.current⟩
      · have same : r''.unread.length = r.unread.length := by
          rw [returned.unread]
          omega
        have suffix := unread_suffix r''
        rw [returned.all, whole] at suffix
        exact (List.suffix_of_suffix_length_le suffix (unread_suffix r)
          (Nat.le_of_eq same)).eq_of_length same
      · rw [returned.counted]
        dsimp only at counted ⊢
        omega

end Reads

/-! ## The calls -/

section Calls

variable {r r' : BufferReader}

/-- The reader between two calls. -/
structure Ready (r : BufferReader) : Prop where
  bookkept : Bookkept r
  placed : r.after ≠ [] → Placed r

/-- A call is honest, and the reader is ready for the next one. -/
def Fine (r : BufferReader) (call : Call) : Prop :=
  ∃ ret out r', perform r call = some (ret, out, r') ∧ Ready r' ∧
    match expected call r.unread with
    | some (n, value) => ret = n ∧ out = some value ∧ r'.unread = r.unread.drop n
    | none => ret ≤ 0 ∧ r'.unread = r.unread

theorem Fine.honest {call : Call} (fine : Fine r call) : Honest r call := by
  obtain ⟨ret, out, r', performed, ready, result⟩ := fine
  exact ⟨ret, out, r', performed, ready.bookkept, result⟩

/-- A call that is one read. -/
theorem fine_of_read {call : Call} {here : List UInt8 → List UInt8}
    {function : List UInt8 → List UInt8 → List UInt8} {length : Nat} {value : List UInt8 → Value}
    (agree : Agree here function) (ready : Ready r) (current : r.after ≠ [])
    (performs : perform r call = (readWith here function r length).map (Outcome.as value))
    (expects : expected call r.unread = if length ≤ r.unread.length then
      some (length, value (here (r.unread.take length))) else none) : Fine r call := by
  unfold Fine
  rw [performs, expects]
  by_cases enough : length ≤ r.unread.length
  · obtain ⟨r', ran, consumed⟩ :=
      readWith_spec agree (ready.placed current) ready.bookkept current enough
    rw [ran, if_pos enough]
    exact ⟨_, _, r', rfl, ⟨consumed.bookkept ready.bookkept enough, fun _ => consumed.placed⟩, rfl,
      rfl, consumed.unread⟩
  · rw [readWith_short ready.bookkept current (Nat.lt_of_not_le enough), if_neg enough]
    exact ⟨_, _, r, rfl, ready, by decide, rfl⟩

theorem readWith_nil {here : List UInt8 → List UInt8}
    {function : List UInt8 → List UInt8 → List UInt8} (nothing : r.after = []) (length : Nat) :
    readWith here function r length = none := by
  rw [readWith, nothing]

theorem fine_readByte (ready : Ready r) (current : r.after ≠ []) : Fine r .readByte := by
  have single : (r.unread.take 1).reverse = r.unread.take 1 := by
    cases r.unread with
    | nil => rfl
    | cons byte rest => rfl
  have performs : perform r .readByte =
      (readWith id copyChunk r 1).map (Outcome.as (intOf 1)) := rfl
  refine fine_of_read agree_copy ready current performs ?_
  show expected.expectedInt 1 r.unread = _
  rw [expected.expectedInt, beNat, single]
  rfl

theorem fine_readInt {call : Call} {size : Nat} (ready : Ready r) (current : r.after ≠ [])
    (performs : perform r call = readInt size r)
    (expects : expected call r.unread = expected.expectedInt size r.unread) : Fine r call :=
  fine_of_read agree_reverse ready current performs expects

theorem expectedBytes_natCast (length : Nat) (data : List UInt8) :
    expected.expectedBytes length data =
      if length ≤ data.length then some (length, .bytes (data.take length)) else none := by
  unfold expected.expectedBytes
  by_cases enough : length ≤ data.length
  · rw [if_pos (by omega), if_pos enough, Int.toNat_natCast]
  · rw [if_neg (by omega), if_neg enough]

theorem fine_readData {length : Int} (ready : Ready r) (current : r.after ≠ [])
    (positive : 0 < length) : Fine r (.readData length) := by
  obtain ⟨length, rfl⟩ := Int.eq_ofNat_of_zero_le (Int.le_of_lt positive)
  exact fine_of_read agree_copy ready current (if_neg (Int.not_le.mpr positive))
    (expectedBytes_natCast length r.unread)

/-- A length is not negative as an `int`. -/
theorem wrap_of_lt {n : Nat} (small : n < 2 ^ 31) : wrap n = n := by
  unfold wrap
  rw [Int.bmod_eq_of_le (by omega) (by omega)]

theorem wrap_neg {n : Nat} (large : 2 ^ 31 ≤ n) (fits : n < 2 ^ 32) : wrap n < 0 := by
  unfold wrap
  rw [Int.bmod_def, Int.emod_eq_of_lt (by omega) (by omega), if_neg (by omega)]
  omega

theorem beNat_take_lt (data : List UInt8) : beNat (data.take 4) < 2 ^ 32 := by
  have bound := leNat_lt (data.take 4).reverse
  rw [List.length_reverse, List.length_take] at bound
  refine Nat.lt_of_lt_of_le bound ?_
  calc 256 ^ min 4 data.length ≤ 256 ^ 4 := Nat.pow_le_pow_right (by decide) (Nat.min_le_left _ _)
    _ = 2 ^ 32 := by decide

/-- The length in front of a string. -/
theorem readString_eq (ready : Ready r) (current : r.after ≠ []) (enough : 4 ≤ r.unread.length) :
    ∃ r', Consumed 4 r r' ∧ readString r = readText r' (wrap (beNat (r.unread.take 4))) := by
  obtain ⟨r', ran, consumed⟩ :=
    readWith_spec agree_reverse (ready.placed current) ready.bookkept current enough
  refine ⟨r', consumed, ?_⟩
  rw [readString, ran, Option.bind_some, beNat]

theorem fine_readString (ready : Ready r) (current : r.after ≠ [])
    (positive : 4 ≤ r.unread.length → beNat (r.unread.take 4) < 2 ^ 31) : Fine r .readString := by
  show ∃ ret out r', readString r = some (ret, out, r') ∧ Ready r' ∧ _
  by_cases enough : 4 ≤ r.unread.length
  · obtain ⟨r', consumed, reads⟩ := readString_eq ready current enough
    have bookkept := consumed.bookkept ready.bookkept enough
    have left : r'.unread.length = r.unread.length - 4 := by
      rw [consumed.unread, List.length_drop]
    rw [reads, wrap_of_lt (positive enough), readText, expected]
    by_cases short : r.unread.length - 4 < beNat (r.unread.take 4)
    · obtain ⟨r'', ran, unread, counted, placed, -⟩ := back_consumed consumed enough
      rw [if_pos (by rw [bookkept, left]; omega), if_neg (by omega), ran]
      exact ⟨_, _, r'', rfl, ⟨by rw [Bookkept, unread, counted]; exact ready.bookkept,
        fun _ => placed⟩, by decide, unread⟩
    · obtain ⟨chunks, r'', together, ran, consumed'⟩ := iterateRead_spec copyChunk []
        consumed.placed bookkept consumed.current
        (show beNat (r.unread.take 4) ≤ r'.unread.length by omega)
      rw [if_neg (by rw [bookkept, left]; omega), if_neg (by omega), if_pos (by omega), ran,
        foldl_copyChunk, together, consumed.unread]
      refine ⟨_, _, r'', rfl, ⟨consumed'.bookkept bookkept (by omega), fun _ => consumed'.placed⟩,
        ?_, rfl, ?_⟩
      · omega
      · rw [consumed'.unread, consumed.unread, List.drop_drop]
  · rw [readString, readWith_short ready.bookkept current (Nat.lt_of_not_le enough), expected,
      if_neg (fun both => enough both.1)]
    exact ⟨_, _, r, rfl, ready, by decide, rfl⟩

/-- A negative length throws. -/
theorem readString_negative (ready : Ready r) (current : r.after ≠ []) (enough : 4 ≤ r.unread.length)
    (negative : 2 ^ 31 ≤ beNat (r.unread.take 4)) : readString r = none := by
  obtain ⟨r', consumed, reads⟩ := readString_eq ready current enough
  have bookkept := consumed.bookkept ready.bookkept enough
  have less := wrap_neg negative (beNat_take_lt r.unread)
  rw [reads, readText, if_neg (by rw [bookkept]; omega), if_pos less]

theorem fine_useNakedPtr {length : Int} {cur : DataBuffer} {rest : List DataBuffer} (ready : Ready r)
    (isCur : r.after = cur :: rest) (beyond : length = 0 ∨ (cur.left.length : Int) < length) :
    Fine r (.useNakedPtr length) := by
  have current : r.after ≠ [] := isCur ▸ List.cons_ne_nil cur rest
  have inside := (ready.placed current).inside cur rest isCur
  have left := length_left cur
  show ∃ ret out r', useNakedPtr r length = some (ret, out, r') ∧ Ready r' ∧ _
  rw [useNakedPtr, isCur]
  rcases beyond with rfl | longer
  · have same : ({ r with after := { cur with readPos := ((cur.readPos : Int) + 0).toNat } :: rest } :
        BufferReader) = r := by
      rw [Int.add_zero, Int.toNat_natCast, ← isCur]
    dsimp only
    rw [if_pos (by omega), if_neg (by omega), same]
    exact ⟨_, _, r, rfl, ready, rfl, rfl, rfl⟩
  · dsimp only
    rw [if_neg (by omega)]
    obtain ⟨length, rfl⟩ := Int.eq_ofNat_of_zero_le (by omega : 0 ≤ length)
    rw [show expected (.useNakedPtr length) r.unread = _ from expectedBytes_natCast length r.unread]
    by_cases enough : length ≤ r.unread.length
    · obtain ⟨chunks, r', together, ran, consumed⟩ := iterateRead_spec copyChunk []
        (ready.placed current) ready.bookkept current enough
      rw [ran, foldl_copyChunk, together, if_pos enough]
      exact ⟨_, _, r', rfl, ⟨consumed.bookkept ready.bookkept enough, fun _ => consumed.placed⟩, rfl,
        rfl, consumed.unread⟩
    · rw [iterateRead_short copyChunk [] ready.bookkept (by omega), if_neg enough]
      exact ⟨_, _, r, rfl, ready, by decide, rfl⟩

/-- A naked pointer into the current buffer is not counted. -/
theorem not_honest_useNakedPtr {length : Int} {cur : DataBuffer} {rest : List DataBuffer}
    (ready : Ready r) (isCur : r.after = cur :: rest) (some' : length ≠ 0)
    (here : length ≤ (cur.left.length : Int)) : ¬ Honest r (.useNakedPtr length) := by
  have current : r.after ≠ [] := isCur ▸ List.cons_ne_nil cur rest
  have inside := (ready.placed current).inside cur rest isCur
  have left := length_left cur
  rintro ⟨ret, out, r', performed, bookkept, -⟩
  rw [perform, useNakedPtr, isCur] at performed
  dsimp only at performed
  rw [if_pos (by omega)] at performed
  split at performed
  · cases performed
  · next front =>
      obtain ⟨-, performed⟩ := Prod.mk.inj (Option.some.inj performed)
      obtain ⟨-, rfl⟩ := Prod.mk.inj performed
      have before := ready.bookkept
      unfold Bookkept BufferReader.unread at bookkept before
      rw [isCur] at before
      dsimp only at bookkept before
      rw [before, List.length_append, List.length_append, length_left, length_left] at bookkept
      dsimp only at bookkept
      omega

/-! ## Digits -/

/-- The buffer that a pass scans, or the end. -/
structure Entered (r r' : BufferReader) : Prop where
  unread : r'.unread = r.unread
  counted : r'.dataLeftLength = r.dataLeftLength
  placed : Placed r'
  length_le : r'.after.length ≤ r.after.length
  stays : r'.after.length = r.after.length → r' = r ∧ ∀ cur rest, r.after = cur :: rest → cur.left ≠ []

theorem enterBuffer_spec (placed : Placed r) (current : r.after ≠ []) :
    ∃ r', enterBuffer r = some r' ∧ Entered r r' := by
  obtain ⟨before, after, dataLeft⟩ := r
  cases after with
  | nil => exact absurd rfl current
  | cons cur rest =>
      have inside := placed.inside cur rest rfl
      unfold enterBuffer
      dsimp only
      by_cases read : cur.data.length ≤ cur.readPos
      · have nothing : cur.left = [] := List.drop_eq_nil_of_le read
        have passed : ∀ buffer ∈ cur :: before, buffer.readPos = buffer.data.length := by
          intro buffer member
          rcases List.mem_cons.mp member with rfl | earlier
          · exact Nat.le_antisymm inside read
          · exact placed.passed buffer earlier
        rw [if_pos read]
        cases rest with
        | nil =>
            refine ⟨_, rfl, ?_, rfl, ⟨passed, fun _ _ wrong => (nomatch wrong)⟩,
              Nat.zero_le _, fun wrong => (nomatch wrong)⟩
            rw [unread_cons, nothing]
            rfl
        | cons next rest =>
            refine ⟨_, rfl, ?_, rfl, ⟨passed, fun cur' rest' isCur => ?_⟩, Nat.le_succ _,
              fun wrong => absurd wrong (by simp)⟩
            · rw [unread_cons, unread_cons, nothing]
              rfl
            · obtain ⟨rfl, -⟩ := List.cons.inj isCur
              exact Nat.zero_le _
      · rw [if_neg read]
        refine ⟨_, rfl, rfl, rfl, placed, Nat.le_refl _, fun _ => ⟨rfl, fun cur' rest' isCur => ?_⟩⟩
        obtain ⟨rfl, -⟩ := List.cons.inj isCur
        intro nothing
        have size := length_left cur
        rw [nothing, List.length_nil] at size
        omega

theorem scanfLoop_succ (fuel : Nat) {integer : Int} {length : Nat}
    (entered : enterBuffer r = some r') :
    scanfLoop (fuel + 1) r integer length =
      match r'.after with
      | [] => some (length, some (.number integer), r')
      | cur :: rest =>
          if 0 < cur.left.length - (cur.left.takeWhile isDigit).length then
            some ((length + (cur.left.takeWhile isDigit).length : Nat),
              some (.number (digitsValue integer (cur.left.takeWhile isDigit))),
              { r' with after := { cur with readPos := cur.readPos +
                (cur.left.length - (cur.left.takeWhile isDigit).length) } :: rest })
          else scanfLoop fuel r' (digitsValue integer (cur.left.takeWhile isDigit))
            (length + (cur.left.takeWhile isDigit).length) := by
  rw [scanfLoop, entered, Option.bind_some]
  obtain ⟨before, after, dataLeft⟩ := r'
  cases after with
  | nil => rfl
  | cons cur rest =>
      dsimp only
      split
      · rfl
      · next others =>
          have none' : cur.left.length - (cur.left.takeWhile isDigit).length = 0 := by omega
          rw [none', Nat.add_zero]

/-- Bytes in front of the end are lost from the count. -/
theorem scanfLoop_miscounts {fuel length : Nat} {integer ret : Int} {out : Option Value}
    (placed : Placed r) (some' : r.unread ≠ [])
    (scanned : scanfLoop fuel r integer length = some (ret, out, r')) :
    r'.dataLeftLength = r.dataLeftLength ∧ r'.unread.length < r.unread.length := by
  induction fuel generalizing r integer length with
  | zero => cases scanned
  | succ fuel ih =>
      have current : r.after ≠ [] := by
        intro nothing
        rw [BufferReader.unread, nothing] at some'
        exact some' rfl
      obtain ⟨mid, isMid, entered⟩ := enterBuffer_spec placed current
      rw [scanfLoop_succ fuel isMid] at scanned
      rw [← entered.unread, ← entered.counted] at *
      have midPlaced := entered.placed
      obtain ⟨before, after, dataLeft⟩ := mid
      cases after with
      | nil => exact absurd rfl some'
      | cons cur rest =>
          dsimp only at scanned
          split at scanned
          · next others =>
              obtain ⟨-, rest'⟩ := Prod.mk.inj (Option.some.inj scanned)
              obtain ⟨-, rfl⟩ := Prod.mk.inj rest'
              refine ⟨rfl, ?_⟩
              rw [unread_cons, unread_cons, List.length_append, List.length_append, left_advance,
                List.length_drop]
              omega
          · exact ih midPlaced some' scanned

/-- Where no byte is left, the loop ends behind the last buffer. -/
theorem scanfLoop_end {fuel : Nat} (integer : Int) (length : Nat) (placed : Placed r)
    (current : r.after ≠ []) (nothing : r.unread = []) (enough : r.after.length < fuel) :
    ∃ r', scanfLoop fuel r integer length = some ((length : Int), some (.number integer), r') ∧
      r'.after = [] ∧ r'.dataLeftLength = r.dataLeftLength := by
  induction fuel generalizing r integer length with
  | zero => exact absurd enough (Nat.not_lt_zero _)
  | succ fuel ih =>
      obtain ⟨mid, isMid, entered⟩ := enterBuffer_spec placed current
      rw [scanfLoop_succ fuel isMid]
      have midNothing := entered.unread.trans nothing
      have shorter : mid.after.length < fuel := by
        rcases Nat.lt_or_eq_of_le entered.length_le with less | same
        · omega
        · obtain ⟨-, some'⟩ := entered.stays same
          cases isCur : r.after with
          | nil => exact absurd isCur current
          | cons cur rest =>
              rw [BufferReader.unread, isCur] at nothing
              exact absurd (List.append_eq_nil_iff.mp nothing).1 (some' cur rest isCur)
      have midPlaced := entered.placed
      rw [← entered.counted]
      obtain ⟨before, after, dataLeft⟩ := mid
      cases after with
      | nil => exact ⟨_, rfl, rfl, rfl⟩
      | cons cur rest =>
          have empty : cur.left = [] := (List.append_eq_nil_iff.mp midNothing).1
          dsimp only
          rw [empty]
          exact ih _ _ midPlaced (List.cons_ne_nil _ _) midNothing shorter

/-- Digits up to the end of a buffer are scanned for ever. -/
theorem scanfLoop_stuck {cur : DataBuffer} {rest : List DataBuffer}
    (isCur : r.after = cur :: rest) (some' : cur.left ≠ [])
    (digits : ∀ byte ∈ cur.left, isDigit byte = true) (fuel : Nat) (integer : Int) (length : Nat) :
    scanfLoop fuel r integer length = none := by
  induction fuel generalizing integer length with
  | zero => rfl
  | succ fuel ih =>
      have size := length_left cur
      have positive := List.length_pos_of_ne_nil some'
      have stays : enterBuffer r = some r := by
        rw [enterBuffer, isCur]
        exact if_neg (by omega)
      have all : cur.left.takeWhile isDigit = cur.left := List.takeWhile_eq_self_iff.mpr digits
      rw [scanfLoop_succ fuel stays, isCur]
      dsimp only
      rw [all, Nat.sub_self, if_neg (Nat.lt_irrefl 0)]
      exact ih _ _

/-- More passes do not change the result. -/
theorem scanfLoop_mono {fuel more length : Nat} {integer : Int} {outcome : Outcome Value}
    (scanned : scanfLoop fuel r integer length = some outcome) (le : fuel ≤ more) :
    scanfLoop more r integer length = some outcome := by
  induction fuel generalizing r integer length more with
  | zero => cases scanned
  | succ fuel ih =>
      obtain ⟨more, rfl⟩ := Nat.exists_eq_add_of_le' (Nat.le_trans (Nat.succ_pos fuel) le)
      obtain ⟨mid, isMid, -⟩ := Option.bind_eq_some_iff.mp (scanfLoop.eq_2 r integer length fuel ▸ scanned)
      rw [scanfLoop_succ _ isMid] at scanned ⊢
      cases isCur : mid.after with
      | nil =>
          rw [isCur] at scanned
          exact scanned
      | cons cur rest =>
          rw [isCur] at scanned
          dsimp only at scanned ⊢
          split at scanned
          · next others => rw [if_pos others, scanned]
          · next others =>
              rw [if_neg others]
              exact ih scanned (Nat.le_of_succ_le_succ le)

theorem digits_of_all {data : List UInt8}
    (all : data.length - (data.takeWhile isDigit).length = 0) :
    ∀ byte ∈ data, isDigit byte = true := by
  have whole : data.takeWhile isDigit = data :=
    (List.takeWhile_prefix isDigit).eq_of_length_le (by omega)
  exact List.takeWhile_eq_self_iff.mp whole

/-- If `ScanfDigit` returns at all, it returns within one pass more than there are buffers. -/
theorem scanfLoop_enough {fuel length : Nat} {integer : Int} {outcome : Outcome Value}
    (placed : Placed r) (current : r.after ≠ [])
    (scanned : scanfLoop fuel r integer length = some outcome) :
    scanfLoop (r.after.length + 1) r integer length = some outcome := by
  induction fuel generalizing r integer length with
  | zero => cases scanned
  | succ fuel ih =>
      obtain ⟨mid, isMid, entered⟩ := enterBuffer_spec placed current
      rw [scanfLoop_succ fuel isMid] at scanned
      rw [scanfLoop_succ _ isMid]
      cases isCur : mid.after with
      | nil =>
          rw [isCur] at scanned
          exact scanned
      | cons cur rest =>
          have midCurrent : mid.after ≠ [] := isCur ▸ List.cons_ne_nil cur rest
          rw [isCur] at scanned
          dsimp only at scanned ⊢
          split at scanned
          · next others => rw [if_pos others, scanned]
          · next others =>
              rw [if_neg others]
              have known := ih entered.placed midCurrent scanned
              rcases Nat.lt_or_eq_of_le entered.length_le with less | same
              · obtain ⟨more, isMore⟩ := Nat.exists_eq_add_of_le less
                rw [isMore]
                exact scanfLoop_mono known (by omega)
              · obtain ⟨rfl, some'⟩ := entered.stays same
                have stuck := scanfLoop_stuck isCur (some' cur rest isCur)
                  (digits_of_all (by omega)) fuel
                rw [stuck] at scanned
                cases scanned

theorem fine_scanfDigit (ready : Ready r) (current : r.after ≠ []) (nothing : r.unread = []) :
    Fine r .scanfDigit := by
  obtain ⟨r', ran, behind, counted⟩ :=
    scanfLoop_end 0 0 (ready.placed current) current nothing (Nat.lt_succ_self _)
  have nothing' : r'.unread = [] := by
    rw [BufferReader.unread, behind]
  refine ⟨_, _, r', ran, ⟨?_, fun current' => absurd behind current'⟩, ?_⟩
  · rw [Bookkept, nothing', counted, ready.bookkept, nothing]
  · rw [nothing, nothing']
    exact ⟨rfl, rfl, rfl⟩

theorem not_honest_scanfDigit (ready : Ready r) (current : r.after ≠ []) (some' : r.unread ≠ []) :
    ¬ Honest r .scanfDigit := by
  rintro ⟨ret, out, r', performed, bookkept, -⟩
  obtain ⟨counted, fewer⟩ := scanfLoop_miscounts (ready.placed current) some' performed
  rw [Bookkept, counted, ready.bookkept] at bookkept
  omega

theorem perform_nil (nothing : r.after = []) (call : Call) : perform r call = none := by
  have noInt : ∀ size, readInt size r = none := by
    intro size
    rw [readInt, readWith_nil nothing]
    rfl
  cases call with
  | readByte =>
      show readByte r = none
      rw [readByte, readWith_nil nothing]
      rfl
  | readI16 => exact noInt 2
  | readI32 => exact noInt 4
  | readI64 => exact noInt 8
  | readString =>
      show readString r = none
      rw [readString, readWith_nil nothing]
      rfl
  | readData length =>
      show readData r length = none
      rw [readData, readWith_nil nothing]
      exact ite_self _
  | useNakedPtr length =>
      show useNakedPtr r length = none
      rw [useNakedPtr, nothing]
  | scanfDigit =>
      show scanfLoop _ r 0 0 = none
      rw [scanfLoop, enterBuffer, nothing]
      rfl

theorem Honest.current {call : Call} (honest : Honest r call) : r.after ≠ [] := by
  intro nothing
  obtain ⟨ret, out, r', performed, -⟩ := honest
  rw [perform_nil nothing] at performed
  cases performed

/-- An allowed call is honest. -/
theorem fine_of_allowed {call : Call} (ready : Ready r) (allowed : Allowed r call) : Fine r call := by
  cases call with
  | readByte => exact fine_readByte ready allowed
  | readI16 => exact fine_readInt ready allowed rfl rfl
  | readI32 => exact fine_readInt ready allowed rfl rfl
  | readI64 => exact fine_readInt ready allowed rfl rfl
  | readString => exact fine_readString ready allowed.1 allowed.2
  | readData length => exact fine_readData ready allowed.1 allowed.2
  | useNakedPtr length =>
      obtain ⟨cur, rest, isCur, beyond⟩ := allowed
      exact fine_useNakedPtr ready isCur beyond
  | scanfDigit => exact fine_scanfDigit ready allowed.1 allowed.2

/-- No other call is. -/
theorem allowed_of_honest {call : Call} (ready : Ready r) (honest : Honest r call) :
    Allowed r call := by
  have current := honest.current
  cases call with
  | readByte => exact current
  | readI16 => exact current
  | readI32 => exact current
  | readI64 => exact current
  | readString =>
      refine ⟨current, fun enough => ?_⟩
      by_contra negative
      obtain ⟨ret, out, r', performed, -⟩ := honest
      rw [perform, readString_negative ready current enough (Nat.le_of_not_lt negative)] at performed
      cases performed
  | readData length =>
      refine ⟨current, ?_⟩
      by_contra none'
      obtain ⟨ret, out, r', performed, -⟩ := honest
      rw [perform, readData, if_pos (Int.not_lt.mp none')] at performed
      cases performed
  | useNakedPtr length =>
      cases isCur : r.after with
      | nil => exact absurd isCur current
      | cons cur rest =>
          refine ⟨cur, rest, isCur, ?_⟩
          by_contra here
          obtain ⟨some', here⟩ := not_or.mp here
          exact not_honest_useNakedPtr ready isCur some' (Int.not_lt.mp here) honest
  | scanfDigit =>
      refine ⟨current, ?_⟩
      by_contra some'
      exact not_honest_scanfDigit ready current some' honest

/-- The reader stays ready. -/
theorem ready_step {call : Call} (ready : Ready r) (honest : Honest r call)
    (taken : step r call = some r') : Ready r' := by
  obtain ⟨ret, out, next, performed, nextReady, -⟩ :=
    fine_of_allowed ready (allowed_of_honest ready honest)
  rw [step, performed] at taken
  obtain rfl := Option.some.inj taken
  exact nextReady

end Calls

/-! ## Whole runs -/

theorem unread_bufferReader (buffers : List (List UInt8)) :
    (bufferReader buffers).unread = buffers.flatten := by
  cases buffers with
  | nil => rfl
  | cons data rest =>
      show data.drop 0 ++ ((rest.map fun data => (⟨data, 0⟩ : DataBuffer)).map
        DataBuffer.data).flatten = _
      rw [List.drop_zero, List.map_map]
      exact congrArg (data ++ ·.flatten) (List.map_id rest)

theorem bookkept_bufferReader (buffers : List (List UInt8)) :
    Bookkept (bufferReader buffers) ↔ buffers.flatten.length < 2 ^ 31 := by
  rw [Bookkept, unread_bufferReader]
  have counted : (bufferReader buffers).dataLeftLength = wrap buffers.flatten.length := by
    rw [bufferReader]
  rw [counted]
  refine ⟨fun same => ?_, wrap_of_lt⟩
  have bound := Int.bmod_lt (x := (buffers.flatten.length : Int)) (m := 2 ^ 32)
    (Nat.two_pow_pos 32)
  unfold wrap at same
  omega

theorem placed_bufferReader (buffers : List (List UInt8)) : Placed (bufferReader buffers) := by
  refine ⟨fun _ member => absurd member List.not_mem_nil, fun cur rest isCur => ?_⟩
  have member : cur ∈ buffers.map fun data => (⟨data, 0⟩ : DataBuffer) := by
    rw [show buffers.map _ = cur :: rest from isCur]
    exact List.mem_cons_self ..
  obtain ⟨data, -, rfl⟩ := List.mem_map.mp member
  exact Nat.zero_le _

/-- The calls of a run keep the books exactly when the data are counted in an `int` and every call
of the run is allowed. -/
theorem keeps_iff_allowed (buffers : List (List UInt8)) (calls : List Call) :
    Keeps buffers calls ↔
      buffers.flatten.length < 2 ^ 31 ∧ Meets step Allowed (bufferReader buffers) calls := by
  unfold Keeps
  rw [bookkept_bufferReader]
  refine and_congr_right fun counted => ?_
  have ready : Ready (bufferReader buffers) :=
    ⟨(bookkept_bufferReader buffers).mpr counted, fun _ => placed_bufferReader buffers⟩
  have agree : ∀ r call, Ready r → (Honest r call ↔ Allowed r call) := fun r call ready =>
    ⟨allowed_of_honest ready, fun allowed => (fine_of_allowed ready allowed).honest⟩
  have keep : ∀ r call r', Ready r → Honest r call → step r call = some r' → Ready r' :=
    fun r call r' ready honest taken => ready_step ready honest taken
  exact meets_congr agree keep ready

/-- A naked pointer into the only buffer is not counted, and digits up to its end are scanned for
ever. -/
theorem not_keeps_nakedPtr_digits :
    ¬ Keeps [[1, 2]] [.useNakedPtr 1] ∧ ¬ Keeps [[49, 50]] [.scanfDigit] := by
  have ready : ∀ buffers : List (List UInt8), Bookkept (bufferReader buffers) →
      Ready (bufferReader buffers) := fun buffers bookkept =>
    ⟨bookkept, fun _ => placed_bufferReader buffers⟩
  refine ⟨fun keeps => ?_, fun keeps => ?_⟩
  · exact not_honest_useNakedPtr (ready _ keeps.1) rfl (by decide) (by decide) keeps.2.1
  · exact not_honest_scanfDigit (ready _ keeps.1) (by decide) (by decide) keeps.2.1

end MlsImgSearch.Blitz.Buffer
