import MlsImgSearch.Blitz.Buffer

/-!
# Writing to a list of buffers, and reading back

`BufferWriter` appends to its last buffer while there is room and allocates a
further one, rounded up to whole pages in `int` arithmetic, when there is not. What
it wrote is read back by the matching calls, however the bytes are cut into buffers.
-/

namespace MlsImgSearch.Blitz.BufferCodec

open Lib.Bytes Buffer

/-! ## The writer -/

/-- `DataBuffer` on the writing side: its `length` bytes of memory, and `data_length`. -/
structure WriteBuffer where
  block : List UInt8
  dataLength : Nat
  deriving DecidableEq

def WriteBuffer.room (buffer : WriteBuffer) : Nat := buffer.block.length - buffer.dataLength

/-- The bytes that have been written to a buffer. -/
def WriteBuffer.data (buffer : WriteBuffer) : List UInt8 := buffer.block.take buffer.dataLength

/-- `cur_buffer_` is the last buffer of the table. -/
structure BufferWriter where
  earlier : List WriteBuffer
  cur : WriteBuffer
  bufferCapacity : Nat
  dataLength : Nat
  deriving DecidableEq

def BufferWriter.buffers (w : BufferWriter) : List WriteBuffer := w.earlier ++ [w.cur]

/-- The length that `Alloc` rounds up to. -/
def allocLength (length : Int) : Int := wrap (((wrap (length - 1)).tdiv 4096 + 1) * 4096)

section Operations

variable (junk : Nat → UInt8)

/-- `Alloc`; a negative length is a huge size, which no allocation satisfies. -/
def alloc (length : Int) : Option WriteBuffer :=
  if allocLength length < 0 then none
  else some ⟨malloc junk (allocLength length).toNat, 0⟩

/-- `Init` of a new writer. -/
def init (hintLength : Int) : Option BufferWriter :=
  (alloc junk hintLength).map fun cur => ⟨[], cur, 2, 0⟩

/-- `Extend`: a further buffer, with the table grown by two when it is full. -/
def extend (w : BufferWriter) (len : Nat) : Option BufferWriter :=
  if len ≤ w.cur.room then some w
  else
    (alloc junk len).map fun cur =>
      { w with
        earlier := w.earlier ++ [w.cur]
        cur := cur
        bufferCapacity :=
          if w.buffers.length = w.bufferCapacity then w.bufferCapacity + 2 else w.bufferCapacity }

/-- Copy bytes behind what has been written. -/
def store (w : BufferWriter) (bytes : List UInt8) : Option BufferWriter :=
  (writeAt w.cur.block w.cur.dataLength bytes).map fun block =>
    { w with
      cur := ⟨block, w.cur.dataLength + bytes.length⟩
      dataLength := w.dataLength + bytes.length }

/-- An integer in network order. -/
def writeInt (size : Nat) (value : BitVec (8 * size)) (w : BufferWriter) : Option BufferWriter :=
  (extend junk w size).bind fun w => store w (beBytes size value.toNat)

def writeByte (b : BitVec 8) (w : BufferWriter) : Option BufferWriter := writeInt junk 1 b w

def writeI16 (i16 : BitVec 16) (w : BufferWriter) : Option BufferWriter := writeInt junk 2 i16 w

def writeI32 (val : BitVec 32) (w : BufferWriter) : Option BufferWriter := writeInt junk 4 val w

def writeI64 (val : BitVec 64) (w : BufferWriter) : Option BufferWriter := writeInt junk 8 val w

def writeData (data : List UInt8) (w : BufferWriter) : Option BufferWriter :=
  (extend junk w data.length).bind fun w => store w data

def writeString (str : List UInt8) (w : BufferWriter) : Option BufferWriter :=
  (extend junk w (str.length + 4)).bind fun w =>
    (writeI32 junk (BitVec.ofNat 32 str.length) w).bind (writeData junk str)

def writeBinary (data : List UInt8) (w : BufferWriter) : Option BufferWriter :=
  (extend junk w (data.length + 4)).bind fun w =>
    (writeI32 junk (BitVec.ofNat 32 data.length) w).bind fun w => store w data

inductive Write where
  | writeByte (b : BitVec 8)
  | writeI16 (i16 : BitVec 16)
  | writeI32 (val : BitVec 32)
  | writeI64 (val : BitVec 64)
  | writeString (str : List UInt8)
  | writeBinary (data : List UInt8)
  | writeData (data : List UInt8)
  deriving DecidableEq

def write (w : BufferWriter) : Write → Option BufferWriter
  | .writeByte b => writeByte junk b w
  | .writeI16 i16 => writeI16 junk i16 w
  | .writeI32 val => writeI32 junk val w
  | .writeI64 val => writeI64 junk val w
  | .writeString str => writeString junk str w
  | .writeBinary data => writeBinary junk data w
  | .writeData data => writeData junk data w

def writeAll (w : BufferWriter) : List Write → Option BufferWriter
  | [] => some w
  | op :: ops => (write junk w op).bind fun w => writeAll w ops

end Operations

/-! ## The contract -/

def encode : Write → List UInt8
  | .writeByte b => beBytes 1 b.toNat
  | .writeI16 i16 => beBytes 2 i16.toNat
  | .writeI32 val => beBytes 4 val.toNat
  | .writeI64 val => beBytes 8 val.toNat
  | .writeString str => beBytes 4 str.length ++ str
  | .writeBinary data => beBytes 4 data.length ++ data
  | .writeData data => data

def matching : Write → Call
  | .writeByte _ => .readByte
  | .writeI16 _ => .readI16
  | .writeI32 _ => .readI32
  | .writeI64 _ => .readI64
  | .writeString _ => .readString
  | .writeBinary _ => .readString
  | .writeData data => .readData data.length

def written : Write → Value
  | .writeByte b => .int 1 b
  | .writeI16 i16 => .int 2 i16
  | .writeI32 val => .int 4 val
  | .writeI64 val => .int 8 val
  | .writeString str => .bytes str
  | .writeBinary data => .bytes data
  | .writeData data => .bytes data

/-- What a sequence of calls stores for the caller. -/
def readAll (r : BufferReader) : List Call → Option (List (Option Value))
  | [] => some []
  | call :: calls =>
      (perform r call).bind fun (_, out, r') => (readAll r' calls).map fun outs => out :: outs

/-- The buffers hold the encodings, the lengths are right, and the matching calls read the values
back from any list of buffers with the same bytes. -/
structure RoundTrip (w : BufferWriter) (ops : List Write) : Prop where
  content : (w.buffers.map WriteBuffer.data).flatten = ops.flatMap encode
  counted : w.dataLength = (ops.flatMap encode).length
  inside : ∀ buffer ∈ w.buffers, buffer.dataLength ≤ buffer.block.length
  reads : ∀ cuts : List (List UInt8), cuts.flatten = ops.flatMap encode →
    readAll (bufferReader cuts) (ops.map matching) = some (ops.map fun op => some (written op))

/-- All writes succeed, and what they wrote is read back. -/
def RoundTrips (junk : Nat → UInt8) (hintLength : BitVec 32) (ops : List Write) : Prop :=
  ∃ w, ((init junk hintLength.toInt).bind fun w => writeAll junk w ops) = some w ∧ RoundTrip w ops

/-- The largest length that is rounded up inside an `int`. -/
def largest : Nat := 2 ^ 31 - 4096

/-- The hint is not two pages below zero and not too large to be rounded up, no write is too large
for that, and no `WriteData` is empty. -/
structure Writable (hintLength : BitVec 32) (ops : List Write) : Prop where
  hintLow : -8191 < hintLength.toInt
  hintHigh : hintLength.toInt ≤ largest
  small : ∀ op ∈ ops, (encode op).length ≤ largest
  nonempty : ∀ op ∈ ops, op ≠ .writeData []

/-! ## Allocation -/

section Allocation

theorem wrap_of_bounds {n : Int} (low : -2 ^ 31 ≤ n) (high : n < 2 ^ 31) : wrap n = n :=
  Int.bmod_eq_of_le (by omega) (by omega)

theorem wrap_above {n : Int} (low : 2 ^ 31 ≤ n) (high : n < 2 ^ 32) : wrap n = n - 2 ^ 32 := by
  unfold wrap
  rw [Int.bmod_def, Int.emod_eq_of_lt (by omega) (by omega), if_neg (by omega)]
  omega

/-- The page after the last one of a positive length. -/
theorem allocLength_eq {length : Int} (positive : 0 < length) (fits : length < 2 ^ 31) :
    allocLength length = wrap (((length - 1) / 4096 + 1) * 4096) := by
  have less : wrap (length - 1) = length - 1 := wrap_of_bounds (by omega) (by omega)
  rw [allocLength, less, Int.tdiv_eq_ediv_of_nonneg (by omega)]

theorem allocLength_small {length : Int} (positive : 0 < length) (small : length ≤ largest) :
    length ≤ allocLength length ∧ allocLength length ≤ largest := by
  unfold largest at small ⊢
  rw [allocLength_eq positive (by omega), wrap_of_bounds (by omega) (by omega)]
  omega

/-- The last page of an `int` is not there. -/
theorem allocLength_large {length : Int} (large : largest < length) (fits : length < 2 ^ 31) :
    allocLength length < 0 := by
  unfold largest at large
  rw [allocLength_eq (by omega) fits, wrap_above (by omega) (by omega)]
  omega

theorem allocLength_nonpos {length : Int} (low : -2 ^ 31 < length) (nonpos : length ≤ 0) :
    allocLength length = (1 - (1 - length) / 4096) * 4096 := by
  have less : wrap (length - 1) = -(1 - length) := by
    rw [wrap_of_bounds (by omega) (by omega)]
    omega
  rw [allocLength, less, Int.neg_tdiv, Int.tdiv_eq_ediv_of_nonneg (by omega),
    wrap_of_bounds (by omega) (by omega)]
  omega

/-- Which hints are taken. -/
theorem allocLength_nonneg_iff (hintLength : BitVec 32) :
    0 ≤ allocLength hintLength.toInt ↔
      -8191 < hintLength.toInt ∧ hintLength.toInt ≤ largest := by
  have low : -2 ^ 31 ≤ hintLength.toInt := BitVec.le_toInt hintLength
  have high : hintLength.toInt < 2 ^ 31 := BitVec.toInt_lt
  by_cases positive : 0 < hintLength.toInt
  · by_cases small : hintLength.toInt ≤ largest
    · have bounds := allocLength_small positive small
      omega
    · have negative := allocLength_large (Int.not_le.mp small) high
      omega
  · have below : hintLength.toInt ≤ largest := by
      unfold largest
      omega
    by_cases least : hintLength.toInt = -2 ^ 31
    · have value : allocLength (-2 ^ 31) = -2 ^ 31 := by decide
      rw [least, value]
      omega
    · rw [allocLength_nonpos (by omega) (by omega)]
      omega

theorem allocLength_le (hintLength : BitVec 32) : allocLength hintLength.toInt ≤ largest := by
  by_cases positive : 0 < hintLength.toInt
  · by_cases small : hintLength.toInt ≤ largest
    · exact (allocLength_small positive small).2
    · have negative := allocLength_large (Int.not_le.mp small) BitVec.toInt_lt
      exact Int.le_trans (Int.le_of_lt negative) (by decide)
  · have low : -2 ^ 31 ≤ hintLength.toInt := BitVec.le_toInt hintLength
    by_cases least : hintLength.toInt = -2 ^ 31
    · rw [least]
      decide
    · rw [allocLength_nonpos (by omega) (by omega)]
      unfold largest
      omega

end Allocation

/-! ## What the writer keeps -/

section Writing

variable {junk : Nat → UInt8} {w w' : BufferWriter} {bytes : List UInt8}

/-- The buffers hold the bytes that were written; the current one has the length of an allocation. -/
structure Holds (w : BufferWriter) (bytes : List UInt8) : Prop where
  content : (w.buffers.map WriteBuffer.data).flatten = bytes
  counted : w.dataLength = bytes.length
  inside : ∀ buffer ∈ w.buffers, buffer.dataLength ≤ buffer.block.length
  small : w.cur.block.length ≤ largest

theorem Holds.curInside (holds : Holds w bytes) : w.cur.dataLength ≤ w.cur.block.length :=
  holds.inside w.cur (List.mem_append_right _ (List.mem_singleton.mpr rfl))

theorem hint_of_init {hintLength : BitVec 32} (inited : init junk hintLength.toInt = some w) :
    -8191 < hintLength.toInt ∧ hintLength.toInt ≤ largest := by
  rw [← allocLength_nonneg_iff]
  by_contra refused
  rw [init, alloc, if_pos (Int.not_le.mp refused)] at inited
  cases inited

theorem init_holds (junk : Nat → UInt8) {hintLength : BitVec 32} (low : -8191 < hintLength.toInt)
    (high : hintLength.toInt ≤ largest) :
    ∃ w, init junk hintLength.toInt = some w ∧ Holds w [] := by
  have taken := (allocLength_nonneg_iff hintLength).mpr ⟨low, high⟩
  have bound := allocLength_le hintLength
  unfold init alloc
  rw [if_neg (Int.not_lt.mpr taken)]
  refine ⟨_, rfl, rfl, rfl, fun buffer member => ?_, ?_⟩
  · obtain rfl := List.mem_singleton.mp member
    exact Nat.zero_le _
  · dsimp only
    rw [length_malloc]
    omega

theorem extend_room {len : Nat} (room : len ≤ w.cur.room) : extend junk w len = some w := if_pos room

/-- A further buffer has room. -/
theorem extend_holds (holds : Holds w bytes) {len : Nat} (small : len ≤ largest) :
    ∃ w', extend junk w len = some w' ∧ Holds w' bytes ∧ len ≤ w'.cur.room := by
  by_cases room : len ≤ w.cur.room
  · exact ⟨w, extend_room room, holds, room⟩
  · have bounds : (len : Int) ≤ allocLength len ∧ allocLength len ≤ largest :=
      allocLength_small (by omega) (by omega)
    have taken : ¬ allocLength len < 0 := by omega
    unfold extend alloc
    rw [if_neg room, if_neg taken]
    refine ⟨_, rfl, ⟨?_, holds.counted, fun buffer member => ?_, ?_⟩, ?_⟩
    · rw [← holds.content, BufferWriter.buffers, BufferWriter.buffers]
      simp [WriteBuffer.data]
    · rcases List.mem_append.mp member with earlier | isNew
      · exact holds.inside buffer earlier
      · obtain rfl := List.mem_singleton.mp isNew
        exact Nat.zero_le _
    · dsimp only
      rw [length_malloc]
      omega
    · rw [WriteBuffer.room, length_malloc]
      dsimp only
      omega

theorem store_holds (holds : Holds w bytes) {data : List UInt8} (room : data.length ≤ w.cur.room) :
    ∃ w', store w data = some w' ∧ Holds w' (bytes ++ data) ∧
      w'.cur.room = w.cur.room - data.length := by
  have inside := holds.curInside
  unfold WriteBuffer.room at room
  obtain ⟨block, stored⟩ : ∃ block, writeAt w.cur.block w.cur.dataLength data = some block :=
    ⟨_, writeAt_eq_some (by omega)⟩
  have size := length_writeAt stored
  have content := take_writeAt stored
  unfold store
  rw [stored]
  refine ⟨_, rfl, ⟨?_, ?_, fun buffer member => ?_, ?_⟩, ?_⟩
  · rw [← holds.content, BufferWriter.buffers, BufferWriter.buffers]
    simp only [List.map_append, List.map_cons, List.map_nil, List.flatten_append,
      List.flatten_singleton, WriteBuffer.data, content, List.append_assoc]
  · dsimp only
    rw [holds.counted, List.length_append]
  · rcases List.mem_append.mp member with earlier | isNew
    · exact holds.inside buffer (List.mem_append_left _ earlier)
    · obtain rfl := List.mem_singleton.mp isNew
      dsimp only
      omega
  · exact size ▸ holds.small
  · dsimp only [WriteBuffer.room]
    omega

theorem writeInt_holds (holds : Holds w bytes) (size : Nat) (value : BitVec (8 * size))
    (small : size ≤ largest) :
    ∃ w', writeInt junk size value w = some w' ∧ Holds w' (bytes ++ beBytes size value.toNat) := by
  obtain ⟨mid, extended, midHolds, room⟩ := extend_holds holds small
  obtain ⟨w', stored, holds', -⟩ := store_holds midHolds
    (show (beBytes size value.toNat).length ≤ mid.cur.room by rwa [length_beBytes])
  exact ⟨w', by rw [writeInt, extended]; exact stored, holds'⟩

theorem writeData_holds (holds : Holds w bytes) {data : List UInt8} (small : data.length ≤ largest) :
    ∃ w', writeData junk data w = some w' ∧ Holds w' (bytes ++ data) := by
  obtain ⟨mid, extended, midHolds, room⟩ := extend_holds holds small
  obtain ⟨w', stored, holds', -⟩ := store_holds midHolds room
  exact ⟨w', by rw [writeData, extended]; exact stored, holds'⟩

/-- The length and the bytes of a string go into one buffer. -/
theorem prefixed_holds (holds : Holds w bytes) {data : List UInt8} (small : data.length + 4 ≤ largest) :
    ∃ w₁ w₂ w₃, extend junk w (data.length + 4) = some w₁ ∧
      writeI32 junk (BitVec.ofNat 32 data.length) w₁ = some w₂ ∧ data.length ≤ w₂.cur.room ∧
      store w₂ data = some w₃ ∧ Holds w₃ (bytes ++ (beBytes 4 data.length ++ data)) := by
  have fits : (BitVec.ofNat 32 data.length).toNat = data.length := by
    rw [BitVec.toNat_ofNat]
    unfold largest at small
    exact Nat.mod_eq_of_lt (by omega)
  obtain ⟨w₁, extended, holds₁, room₁⟩ := extend_holds holds small
  have four : (beBytes 4 data.length).length ≤ w₁.cur.room := by
    rw [length_beBytes]
    omega
  obtain ⟨w₂, stored, holds₂, room₂⟩ := store_holds holds₁ four
  rw [length_beBytes] at room₂
  have rest : data.length ≤ w₂.cur.room := by omega
  obtain ⟨w₃, stored', holds₃, -⟩ := store_holds holds₂ rest
  refine ⟨w₁, w₂, w₃, extended, ?_, rest, stored', by rwa [List.append_assoc] at holds₃⟩
  rw [writeI32, writeInt, extend_room (by omega), Option.bind_some, fits, stored]

theorem write_holds (junk : Nat → UInt8) (holds : Holds w bytes) {op : Write}
    (small : (encode op).length ≤ largest) :
    ∃ w', write junk w op = some w' ∧ Holds w' (bytes ++ encode op) := by
  cases op with
  | writeByte b => exact writeInt_holds holds 1 b (by decide)
  | writeI16 i16 => exact writeInt_holds holds 2 i16 (by decide)
  | writeI32 val => exact writeInt_holds holds 4 val (by decide)
  | writeI64 val => exact writeInt_holds holds 8 val (by decide)
  | writeString str =>
      rw [encode, List.length_append, length_beBytes, Nat.add_comm] at small
      obtain ⟨w₁, w₂, w₃, extended, counted, room, stored, holds₃⟩ := prefixed_holds holds small
      refine ⟨w₃, ?_, holds₃⟩
      rw [write, writeString, extended, Option.bind_some, counted, Option.bind_some, writeData,
        extend_room room, Option.bind_some, stored]
  | writeBinary data =>
      rw [encode, List.length_append, length_beBytes, Nat.add_comm] at small
      obtain ⟨w₁, w₂, w₃, extended, counted, -, stored, holds₃⟩ := prefixed_holds holds small
      refine ⟨w₃, ?_, holds₃⟩
      rw [write, writeBinary, extended, Option.bind_some, counted, Option.bind_some, stored]
  | writeData data => exact writeData_holds holds small

/-- A write that is too large fails, whatever room there is. -/
theorem extend_large (holds : Holds w bytes) {len : Nat} (large : largest < len)
    (fits : len < 2 ^ 31) : extend junk w len = none := by
  have noRoom : ¬ len ≤ w.cur.room := by
    have small := holds.small
    unfold WriteBuffer.room
    omega
  have refused : allocLength len < 0 := allocLength_large (by omega) (by omega)
  rw [extend, if_neg noRoom, alloc, if_pos refused]
  rfl

theorem write_large (holds : Holds w bytes) {op : Write} (large : largest < (encode op).length)
    (fits : (encode op).length < 2 ^ 31) : write junk w op = none := by
  cases op with
  | writeByte b => exact absurd large (by rw [encode, length_beBytes]; decide)
  | writeI16 i16 => exact absurd large (by rw [encode, length_beBytes]; decide)
  | writeI32 val => exact absurd large (by rw [encode, length_beBytes]; decide)
  | writeI64 val => exact absurd large (by rw [encode, length_beBytes]; decide)
  | writeString str =>
      rw [encode, List.length_append, length_beBytes, Nat.add_comm] at large fits
      rw [write, writeString, extend_large holds large fits]
      rfl
  | writeBinary data =>
      rw [encode, List.length_append, length_beBytes, Nat.add_comm] at large fits
      rw [write, writeBinary, extend_large holds large fits]
      rfl
  | writeData data =>
      rw [encode] at large fits
      rw [write, writeData, extend_large holds large fits]
      rfl

/-- A whole sequence of writes. -/
theorem writeAll_holds (junk : Nat → UInt8) {ops : List Write} (holds : Holds w bytes)
    (small : ∀ op ∈ ops, (encode op).length ≤ largest) :
    ∃ w', writeAll junk w ops = some w' ∧ Holds w' (bytes ++ ops.flatMap encode) := by
  induction ops generalizing w bytes with
  | nil => exact ⟨w, rfl, by rwa [List.flatMap_nil, List.append_nil]⟩
  | cons op ops ih =>
      obtain ⟨first, others⟩ := List.forall_mem_cons.mp small
      obtain ⟨mid, done, midHolds⟩ := write_holds junk holds first
      obtain ⟨w', later, holds'⟩ := ih midHolds others
      refine ⟨w', by rw [writeAll, done]; exact later, ?_⟩
      rwa [List.flatMap_cons, ← List.append_assoc]

theorem small_of_writeAll {ops : List Write} (holds : Holds w bytes)
    (total : (ops.flatMap encode).length < 2 ^ 31) (done : writeAll junk w ops = some w') :
    ∀ op ∈ ops, (encode op).length ≤ largest := by
  induction ops generalizing w bytes with
  | nil => exact fun _ member => absurd member List.not_mem_nil
  | cons op ops ih =>
      rw [List.flatMap_cons, List.length_append] at total
      obtain ⟨mid, first, later⟩ := Option.bind_eq_some_iff.mp done
      have small : (encode op).length ≤ largest := by
        by_contra large
        rw [write_large holds (Nat.lt_of_not_le large) (by omega)] at first
        cases first
      obtain ⟨mid', first', midHolds⟩ := write_holds junk holds small
      obtain rfl := Option.some.inj (first.symm.trans first')
      exact List.forall_mem_cons.mpr ⟨small, ih midHolds (by omega) later⟩

end Writing

/-! ## Reading back -/

section Reading

variable {r : BufferReader} {rest : List UInt8}

theorem expectedInt_beBytes (size : Nat) (value : BitVec (8 * size)) (rest : List UInt8) :
    expected.expectedInt size (beBytes size value.toNat ++ rest) = some (size, .int size value) := by
  have fits : value.toNat < 256 ^ size := by
    have bound := value.isLt
    rwa [Nat.pow_mul] at bound
  have enough : size ≤ (beBytes size value.toNat ++ rest).length := by
    rw [List.length_append, length_beBytes]
    exact Nat.le_add_right _ _
  rw [expected.expectedInt, if_pos enough, List.take_left' (length_beBytes _ _),
    beNat_beBytes_of_lt fits, BitVec.ofNat_toNat, BitVec.setWidth_eq]

theorem expected_prefixed (data rest : List UInt8) (small : data.length < 2 ^ 31) :
    expected .readString (beBytes 4 data.length ++ data ++ rest) =
      some (4 + data.length, .bytes data) := by
  have front : (beBytes 4 data.length).length = 4 := length_beBytes _ _
  have length : beNat ((beBytes 4 data.length ++ data ++ rest).take 4) = data.length := by
    rw [List.append_assoc, List.take_left' front, beNat_beBytes_of_lt (by omega)]
  have size : (beBytes 4 data.length ++ data ++ rest).length = 4 + data.length + rest.length := by
    rw [List.length_append, List.length_append, front]
  rw [expected, length, size, if_pos (by omega), List.append_assoc, List.drop_left' front,
    List.take_left' rfl]

/-- What the matching call should find. -/
theorem expected_matching (op : Write) (rest : List UInt8) (small : (encode op).length < 2 ^ 31) :
    expected (matching op) (encode op ++ rest) = some ((encode op).length, written op) := by
  cases op with
  | writeByte b => exact (expectedInt_beBytes 1 b rest).trans (by rw [encode, length_beBytes]; rfl)
  | writeI16 i16 => exact (expectedInt_beBytes 2 i16 rest).trans (by rw [encode, length_beBytes]; rfl)
  | writeI32 val => exact (expectedInt_beBytes 4 val rest).trans (by rw [encode, length_beBytes]; rfl)
  | writeI64 val => exact (expectedInt_beBytes 8 val rest).trans (by rw [encode, length_beBytes]; rfl)
  | writeString str =>
      rw [encode, List.length_append, length_beBytes] at small
      rw [encode, List.length_append, length_beBytes]
      exact expected_prefixed str rest (by omega)
  | writeBinary data =>
      rw [encode, List.length_append, length_beBytes] at small
      rw [encode, List.length_append, length_beBytes]
      exact expected_prefixed data rest (by omega)
  | writeData data =>
      refine (expectedBytes_natCast data.length (data ++ rest)).trans ?_
      rw [if_pos (by rw [List.length_append]; exact Nat.le_add_right _ _), List.take_left' rfl]
      rfl

theorem encode_ne_nil {op : Write} (nonempty : op ≠ .writeData []) : encode op ≠ [] := by
  have ofLength : ∀ data : List UInt8, 0 < data.length → data ≠ [] := fun _ =>
    List.ne_nil_of_length_pos
  cases op with
  | writeByte b => exact ofLength _ (by rw [encode, length_beBytes]; decide)
  | writeI16 i16 => exact ofLength _ (by rw [encode, length_beBytes]; decide)
  | writeI32 val => exact ofLength _ (by rw [encode, length_beBytes]; decide)
  | writeI64 val => exact ofLength _ (by rw [encode, length_beBytes]; decide)
  | writeString str => exact ofLength _ (by rw [encode, List.length_append, length_beBytes]; omega)
  | writeBinary data => exact ofLength _ (by rw [encode, List.length_append, length_beBytes]; omega)
  | writeData data => exact fun empty => nonempty (congrArg Write.writeData empty)

/-- The matching call is allowed. -/
theorem allowed_matching {op : Write} (small : (encode op).length < 2 ^ 31)
    (nonempty : op ≠ .writeData []) (next : r.unread = encode op ++ rest) :
    Allowed r (matching op) := by
  have current : r.after ≠ [] := by
    intro nothing
    rw [BufferReader.unread, nothing] at next
    exact encode_ne_nil nonempty (List.append_eq_nil_iff.mp next.symm).1
  have prefixed : ∀ data : List UInt8, r.unread = beBytes 4 data.length ++ data ++ rest →
      data.length < 2 ^ 31 → beNat (r.unread.take 4) < 2 ^ 31 := by
    intro data isNext short
    rw [isNext, List.append_assoc, List.take_left' (length_beBytes _ _),
      beNat_beBytes_of_lt (by omega)]
    exact short
  cases op with
  | writeByte b => exact current
  | writeI16 i16 => exact current
  | writeI32 val => exact current
  | writeI64 val => exact current
  | writeString str =>
      rw [encode, List.length_append, length_beBytes] at small
      exact ⟨current, fun _ => prefixed str next (by omega)⟩
  | writeBinary data =>
      rw [encode, List.length_append, length_beBytes] at small
      exact ⟨current, fun _ => prefixed data next (by omega)⟩
  | writeData data =>
      have positive : 0 < data.length :=
        List.length_pos_of_ne_nil fun empty => nonempty (congrArg Write.writeData empty)
      exact ⟨current, by exact_mod_cast positive⟩

/-- The matching call reads the value, and the rest is next. -/
theorem read_encode (ready : Ready r) {op : Write} (small : (encode op).length < 2 ^ 31)
    (nonempty : op ≠ .writeData []) (next : r.unread = encode op ++ rest) :
    ∃ ret r', perform r (matching op) = some (ret, some (written op), r') ∧ Ready r' ∧
      r'.unread = rest := by
  obtain ⟨ret, out, r', performed, ready', result⟩ :=
    fine_of_allowed ready (allowed_matching small nonempty next)
  rw [next, expected_matching op rest small] at result
  obtain ⟨-, rfl, unread⟩ := result
  exact ⟨ret, r', performed, ready', by rw [unread, List.drop_left]⟩

theorem readAll_encode {ops : List Write} (ready : Ready r) (next : r.unread = ops.flatMap encode)
    (total : (ops.flatMap encode).length < 2 ^ 31) (nonempty : ∀ op ∈ ops, op ≠ .writeData []) :
    readAll r (ops.map matching) = some (ops.map fun op => some (written op)) := by
  induction ops generalizing r with
  | nil => rfl
  | cons op ops ih =>
      rw [List.flatMap_cons] at next total
      rw [List.length_append] at total
      obtain ⟨first, others⟩ := List.forall_mem_cons.mp nonempty
      obtain ⟨ret, r', performed, ready', unread⟩ := read_encode ready (by omega) first next
      rw [List.map_cons, readAll, performed, Option.bind_some]
      dsimp only
      rw [ih ready' unread (by omega) others]
      rfl

/-- A `ReadData` of nothing stops the reading. -/
theorem nonempty_of_readAll {ops : List Write} {outs : List (Option Value)}
    (reads : readAll r (ops.map matching) = some outs) : ∀ op ∈ ops, op ≠ .writeData [] := by
  induction ops generalizing r outs with
  | nil => exact fun _ member => absurd member List.not_mem_nil
  | cons op ops ih =>
      obtain ⟨⟨ret, out, r'⟩, performed, later⟩ := Option.bind_eq_some_iff.mp reads
      obtain ⟨outs', rest, -⟩ := Option.map_eq_some_iff.mp later
      refine List.forall_mem_cons.mpr ⟨?_, ih rest⟩
      rintro rfl
      exact nomatch (show none = some (ret, out, r') from performed)

end Reading

theorem writable_of_roundTrips {junk : Nat → UInt8} {hintLength : BitVec 32} {ops : List Write}
    (total : (ops.flatMap encode).length < 2 ^ 31) (trips : RoundTrips junk hintLength ops) :
    Writable hintLength ops := by
  obtain ⟨w, done, trip⟩ := trips
  obtain ⟨start, inited, wrote⟩ := Option.bind_eq_some_iff.mp done
  obtain ⟨low, high⟩ := hint_of_init inited
  obtain ⟨start', inited', holds⟩ := init_holds junk low high
  obtain rfl := Option.some.inj (inited.symm.trans inited')
  exact ⟨low, high, small_of_writeAll holds total wrote,
    nonempty_of_readAll (trip.reads [ops.flatMap encode] List.flatten_singleton)⟩

/-- Everything that is written is read back exactly when every length can be rounded up in an `int`
and no `WriteData` is empty. -/
theorem roundTrips_iff_writable (junk : Nat → UInt8) (hintLength : BitVec 32) {ops : List Write}
    (total : (ops.flatMap encode).length < 2 ^ 31) :
    RoundTrips junk hintLength ops ↔ Writable hintLength ops := by
  refine ⟨writable_of_roundTrips total, fun writable => ?_⟩
  obtain ⟨start, inited, holds⟩ := init_holds junk writable.hintLow writable.hintHigh
  obtain ⟨w, wrote, holds'⟩ := writeAll_holds junk holds writable.small
  rw [List.nil_append] at holds'
  refine ⟨w, by rw [inited, Option.bind_some, wrote], holds'.content, holds'.counted, holds'.inside,
    fun cuts same => ?_⟩
  have counted := (bookkept_bufferReader cuts).mpr (same ▸ total)
  exact readAll_encode ⟨counted, fun _ => placed_bufferReader cuts⟩
    ((unread_bufferReader cuts).trans same) total writable.nonempty

/-- An integer, a string and a byte. -/
theorem roundTrips_int_string_byte :
    RoundTrips (fun _ => 0) 100#32 [.writeI32 7#32, .writeString [97, 98], .writeByte 1#8] :=
  (roundTrips_iff_writable (fun _ => 0) 100#32 (by decide)).mpr
    ⟨by decide, by decide, by decide, by decide⟩

/-- The largest `int` is not rounded up to an `int`. -/
theorem not_roundTrips_largest_int :
    ([Write.writeData (List.replicate (2 ^ 31 - 1) 0)].flatMap encode).length < 2 ^ 31 ∧
      ¬ RoundTrips (fun _ => 0) 1#32 [.writeData (List.replicate (2 ^ 31 - 1) 0)] := by
  have size : (encode (.writeData (List.replicate (2 ^ 31 - 1) 0))).length = 2 ^ 31 - 1 :=
    List.length_replicate
  have total : ([Write.writeData (List.replicate (2 ^ 31 - 1) 0)].flatMap encode).length <
      2 ^ 31 := by
    rw [List.flatMap_singleton, size]
    decide
  refine ⟨total, fun trips => ?_⟩
  have small := (writable_of_roundTrips total trips).small _ (List.mem_singleton.mpr rfl)
  rw [size] at small
  exact absurd small (by decide)

end MlsImgSearch.Blitz.BufferCodec
