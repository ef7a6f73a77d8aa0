import MlsImgSearch.Lib.Bytes

/-!
# The binary form of a word of the index

`IndexerSerializer` copies a word with its items into one block of memory and
reads it back. The byte counts of the two arrays of an item pass through a
`short` on the way out, but not on the way in.
-/

namespace MlsImgSearch.BofCore.IndexerSerializer

open MlsImgSearch.Lib.Bytes

/-- The arrays `he_` and `angle_` have `length_` entries; `weight_` is kept as its bit pattern. -/
structure IndexItem where
  picId : BitVec 64
  weight : BitVec 32
  he : List (BitVec 64)
  angle : List (BitVec 32)
  sameLength : angle.length = he.length
  short : he.length < 2 ^ 15
  deriving DecidableEq

structure WordIndex where
  wordId : BitVec 32
  items : List IndexItem
  deriving DecidableEq

namespace IndexItem

def getSize (item : IndexItem) : Nat := 8 + 4 + 2 + 8 * item.he.length + 4 * item.he.length

/-- The array `he_` as it lies in memory. -/
def heBytes (item : IndexItem) : List UInt8 := item.he.flatMap fun w => leBytes 8 w.toNat

/-- The array `angle_` as it lies in memory. -/
def angleBytes (item : IndexItem) : List UInt8 := item.angle.flatMap fun w => leBytes 4 w.toNat

/-- The fields in front of the arrays. -/
def headBytes (item : IndexItem) : List UInt8 :=
  leBytes 8 item.picId.toNat ++ leBytes 4 item.weight.toNat ++ leBytes 2 item.he.length

variable {he : List (BitVec 64)} {angle : List (BitVec 32)}

/-- The two facts about the arrays of an item, from the test that is made of them. -/
theorem sameLength_of (sizes : angle.length = he.length ∧ he.length < 2 ^ 15) :
    angle.length = he.length := sizes.1

theorem short_of (sizes : angle.length = he.length ∧ he.length < 2 ^ 15) : he.length < 2 ^ 15 :=
  sizes.2

/-- An item with one word. -/
def single (picId : BitVec 64) : IndexItem := ⟨picId, 0x3f800000, [0], [0], rfl, by decide⟩

end IndexItem

/-! ## Writing -/

/-- A block of memory and the position of the next write. -/
abbrev Cursor := List UInt8 × Nat

/-- `memcpy_data` of a whole value. -/
def memcpyData (cur : Cursor) (data : List UInt8) : Option Cursor :=
  (writeAt cur.1 cur.2 data).map fun block => (block, cur.2 + data.length)

/-- `memcpy_data` with an explicit count: a negative count runs through all of the memory. -/
def memcpyCount (cur : Cursor) (data : List UInt8) (n : Int) : Option Cursor :=
  if n < 0 ∨ data.length < n then none else memcpyData cur (data.take n.toNat)

/-- Conversion to `short`. -/
def toShort (n : Nat) : Int := (BitVec.ofNat 16 n).toInt

def dumpData (cur : Cursor) (item : IndexItem) : Option Cursor :=
  let heLen := toShort (8 * item.he.length)
  let angleLen := toShort (4 * item.he.length)
  (memcpyData cur item.headBytes).bind fun cur =>
    (memcpyCount cur item.heBytes heLen).bind fun cur =>
      memcpyCount cur item.angleBytes angleLen

def dumpAll : Cursor → List IndexItem → Option Cursor
  | cur, [] => some cur
  | cur, item :: rest => (dumpData cur item).bind fun cur' => dumpAll cur' rest

def calcWordIndexSize (index : WordIndex) : Nat :=
  4 + 4 + (index.items.map IndexItem.getSize).sum

/-- `none` is undefined behaviour: the size does not fit an `int`, or a copy leaves the block.
`junk` is the content of the fresh block. -/
def serialize (junk : Nat → UInt8) (index : WordIndex) : Option (List UInt8) :=
  let size := calcWordIndexSize index
  if 2 ^ 31 ≤ size then none
  else
    (memcpyData (malloc junk size, 0) (leBytes 4 index.wordId.toNat)).bind fun cur =>
      (memcpyData cur (leBytes 4 index.items.length)).bind fun cur =>
        (dumpAll cur index.items).map Prod.fst

/-! ## Reading -/

/-- An array of `n` numbers of `k` bytes. -/
def readArray (k w : Nat) : Nat → List UInt8 → Option (List (BitVec w) × List UInt8)
  | 0, data => some ([], data)
  | n + 1, data =>
      (readLe k data).bind fun (v, data) =>
        (readArray k w n data).map fun (vs, data) => (BitVec.ofNat w v :: vs, data)

/-- The item points into the data. `none` is an access outside of it, which a negative length
leads to as well. -/
def reinterpretData (data : List UInt8) : Option (IndexItem × List UInt8) :=
  (readLe 8 data).bind fun (picId, data) =>
    (readLe 4 data).bind fun (weight, data) =>
      (readLe 2 data).bind fun (length, data) =>
        (readArray 8 64 length data).bind fun (he, data) =>
          (readArray 4 32 length data).bind fun (angle, data) =>
            if sizes : angle.length = he.length ∧ he.length < 2 ^ 15 then
              some (⟨BitVec.ofNat 64 picId, BitVec.ofNat 32 weight, he, angle,
                IndexItem.sameLength_of sizes, IndexItem.short_of sizes⟩, data)
            else none

def readItems : Nat → List UInt8 → Option (List IndexItem × List UInt8)
  | 0, data => some ([], data)
  | n + 1, data =>
      (reinterpretData data).bind fun (item, data) =>
        (readItems n data).map fun (items, data) => (item :: items, data)

/-- A negative number of items counts as none. -/
def unserialize (data : List UInt8) : Option WordIndex :=
  (readLe 4 data).bind fun (wordId, data) =>
    (readLe 4 data).bind fun (itemsSize, data) =>
      (readItems (BitVec.ofNat 32 itemsSize).toInt.toNat data).map fun (items, _) =>
        ⟨BitVec.ofNat 32 wordId, items⟩

/-! ## What is read back -/

/-- The bytes that `ReinterpretData` expects of an item. -/
def IndexItem.encode (item : IndexItem) : List UInt8 :=
  item.headBytes ++ item.heBytes ++ item.angleBytes

/-- The bytes that `Unserialize` expects of a word. -/
def WordIndex.encode (index : WordIndex) : List UInt8 :=
  leBytes 4 index.wordId.toNat ++ leBytes 4 index.items.length ++
    index.items.flatMap IndexItem.encode

theorem readArray_append {k w : Nat} (wide : 256 ^ k = 2 ^ w) (vs : List (BitVec w))
    (rest : List UInt8) :
    readArray k w vs.length (vs.flatMap (fun v => leBytes k v.toNat) ++ rest) = some (vs, rest) := by
  induction vs with
  | nil => rfl
  | cons v vs ih =>
      have small : v.toNat < 256 ^ k := by
        rw [wide]
        exact v.isLt
      simp only [List.length_cons, readArray, List.flatMap_cons, List.append_assoc,
        readLe_append small, Option.bind_some, ih, Option.map_some, BitVec.ofNat_toNat,
        BitVec.setWidth_eq]

theorem readArray_eq_some {k w n : Nat} (wide : 256 ^ k = 2 ^ w) {data rest : List UInt8}
    {vs : List (BitVec w)} (found : readArray k w n data = some (vs, rest)) :
    data = vs.flatMap (fun v => leBytes k v.toNat) ++ rest ∧ vs.length = n := by
  induction n generalizing data rest vs with
  | zero =>
      obtain ⟨rfl, rfl⟩ := Prod.mk.inj (Option.some.inj found)
      exact ⟨rfl, rfl⟩
  | succ n ih =>
      obtain ⟨⟨v, data'⟩, first, later⟩ := Option.bind_eq_some_iff.mp found
      obtain ⟨⟨vs', rest'⟩, tail, result⟩ := Option.map_eq_some_iff.mp later
      obtain ⟨rfl, rfl⟩ := Prod.mk.inj result
      obtain ⟨isData, small⟩ := readLe_eq_some first
      obtain ⟨isData', size⟩ := ih tail
      have value : (BitVec.ofNat w v).toNat = v := by
        rw [BitVec.toNat_ofNat, ← wide]
        exact Nat.mod_eq_of_lt small
      refine ⟨?_, by rw [List.length_cons, size]⟩
      rw [List.flatMap_cons, value, List.append_assoc, ← isData']
      exact isData

theorem reinterpretData_encode (item : IndexItem) (rest : List UInt8) :
    reinterpretData (item.encode ++ rest) = some (item, rest) := by
  have he := readArray_append (by decide : 256 ^ 8 = 2 ^ 64) item.he
    (item.angleBytes ++ rest)
  have angle := readArray_append (by decide : 256 ^ 4 = 2 ^ 32) item.angle rest
  rw [item.sameLength] at angle
  have picSmall : item.picId.toNat < 256 ^ 8 := Nat.lt_of_lt_of_le item.picId.isLt (by decide)
  have weightSmall : item.weight.toNat < 256 ^ 4 := Nat.lt_of_lt_of_le item.weight.isLt (by decide)
  have short : item.he.length < 256 ^ 2 := Nat.lt_trans item.short (by decide)
  have bytes : item.encode ++ rest = leBytes 8 item.picId.toNat ++ (leBytes 4 item.weight.toNat ++
      (leBytes 2 item.he.length ++ (item.heBytes ++ (item.angleBytes ++ rest)))) := by
    simp only [IndexItem.encode, IndexItem.headBytes, List.append_assoc]
  rw [reinterpretData, bytes]
  simp only [readLe_append picSmall, Option.bind_some, readLe_append weightSmall,
    readLe_append short]
  rw [IndexItem.heBytes, he, Option.bind_some, IndexItem.angleBytes, angle, Option.bind_some,
    dif_pos ⟨item.sameLength, item.short⟩]
  simp only [BitVec.ofNat_toNat, BitVec.setWidth_eq]

theorem reinterpretData_eq_some {data rest : List UInt8} {item : IndexItem}
    (found : reinterpretData data = some (item, rest)) : data = item.encode ++ rest := by
  obtain ⟨⟨picId, data₁⟩, isPicId, found⟩ := Option.bind_eq_some_iff.mp found
  obtain ⟨⟨weight, data₂⟩, isWeight, found⟩ := Option.bind_eq_some_iff.mp found
  obtain ⟨⟨length, data₃⟩, isLength, found⟩ := Option.bind_eq_some_iff.mp found
  obtain ⟨⟨he, data₄⟩, isHe, found⟩ := Option.bind_eq_some_iff.mp found
  obtain ⟨⟨angle, data₅⟩, isAngle, found⟩ := Option.bind_eq_some_iff.mp found
  dsimp only at found isWeight isLength isHe isAngle
  split at found
  · obtain ⟨rfl, rfl⟩ := Prod.mk.inj (Option.some.inj found)
    obtain ⟨rfl, picSmall⟩ := readLe_eq_some isPicId
    obtain ⟨rfl, weightSmall⟩ := readLe_eq_some isWeight
    obtain ⟨rfl, -⟩ := readLe_eq_some isLength
    obtain ⟨rfl, heLength⟩ := readArray_eq_some (by decide : 256 ^ 8 = 2 ^ 64) isHe
    obtain ⟨rfl, -⟩ := readArray_eq_some (by decide : 256 ^ 4 = 2 ^ 32) isAngle
    have pic : (BitVec.ofNat 64 picId).toNat = picId := Nat.mod_eq_of_lt picSmall
    have isWeight : (BitVec.ofNat 32 weight).toNat = weight := Nat.mod_eq_of_lt weightSmall
    simp only [IndexItem.encode, IndexItem.headBytes, IndexItem.heBytes, IndexItem.angleBytes, pic,
      isWeight, heLength, List.append_assoc]
  · cases found

theorem readItems_encode (items : List IndexItem) (rest : List UInt8) :
    readItems items.length (items.flatMap IndexItem.encode ++ rest) = some (items, rest) := by
  induction items with
  | nil => rfl
  | cons item items ih =>
      simp only [List.length_cons, readItems, List.flatMap_cons, List.append_assoc,
        reinterpretData_encode, Option.bind_some, ih, Option.map_some]

theorem readItems_eq_some {n : Nat} {data rest : List UInt8} {items : List IndexItem}
    (found : readItems n data = some (items, rest)) :
    data = items.flatMap IndexItem.encode ++ rest ∧ items.length = n := by
  induction n generalizing data rest items with
  | zero =>
      obtain ⟨rfl, rfl⟩ := Prod.mk.inj (Option.some.inj found)
      exact ⟨rfl, rfl⟩
  | succ n ih =>
      obtain ⟨⟨item, data'⟩, first, later⟩ := Option.bind_eq_some_iff.mp found
      obtain ⟨⟨items', rest'⟩, tail, result⟩ := Option.map_eq_some_iff.mp later
      obtain ⟨rfl, rfl⟩ := Prod.mk.inj result
      obtain ⟨rfl, size⟩ := ih tail
      refine ⟨?_, by rw [List.length_cons, size]⟩
      rw [List.flatMap_cons, List.append_assoc]
      exact reinterpretData_eq_some first

theorem toInt_toNat_of_lt {n : Nat} (small : n < 2 ^ 31) : (BitVec.ofNat 32 n).toInt.toNat = n := by
  rw [BitVec.toInt_eq_toNat_cond, BitVec.toNat_ofNat]
  omega

/-- Bytes that start with the encoding of a word are read back as that word. -/
theorem unserialize_encode (index : WordIndex) (few : index.items.length < 2 ^ 31)
    (rest : List UInt8) : unserialize (index.encode ++ rest) = some index := by
  have wordSmall : index.wordId.toNat < 256 ^ 4 := Nat.lt_of_lt_of_le index.wordId.isLt (by decide)
  have count : index.items.length < 256 ^ 4 := Nat.lt_trans few (by decide)
  have bytes : index.encode ++ rest = leBytes 4 index.wordId.toNat ++
      (leBytes 4 index.items.length ++ (index.items.flatMap IndexItem.encode ++ rest)) := by
    simp only [WordIndex.encode, List.append_assoc]
  rw [unserialize, bytes]
  simp only [readLe_append wordSmall, Option.bind_some, readLe_append count,
    toInt_toNat_of_lt few, readItems_encode, Option.map_some, BitVec.ofNat_toNat,
    BitVec.setWidth_eq]

/-- A word with items is read only from bytes that start with its encoding. -/
theorem unserialize_eq_some {data : List UInt8} {index : WordIndex}
    (found : unserialize data = some index) (nonempty : index.items ≠ []) :
    index.encode <+: data := by
  obtain ⟨⟨wordId, data₁⟩, isWordId, found⟩ := Option.bind_eq_some_iff.mp found
  obtain ⟨⟨count, data₂⟩, isCount, found⟩ := Option.bind_eq_some_iff.mp found
  obtain ⟨⟨items, data₃⟩, isItems, rfl⟩ := Option.map_eq_some_iff.mp found
  obtain ⟨rfl, wordSmall⟩ := readLe_eq_some isWordId
  obtain ⟨rfl, countSmall⟩ := readLe_eq_some isCount
  obtain ⟨rfl, size⟩ := readItems_eq_some isItems
  have isWord : (BitVec.ofNat 32 wordId).toNat = wordId := Nat.mod_eq_of_lt wordSmall
  have positive : 0 < items.length := List.length_pos_of_ne_nil nonempty
  have sameCount : items.length = count := by
    rw [BitVec.toInt_eq_toNat_cond, BitVec.toNat_ofNat] at size
    omega
  refine ⟨data₃, ?_⟩
  simp only [WordIndex.encode, isWord, sameCount, List.append_assoc]

/-! ## What is written -/

/-- The byte counts of the arrays survive the conversion to `short`. -/
def IndexItem.Plain (item : IndexItem) : Prop := item.he.length < 4096

/-- The byte counts come out non-negative but `8 * 16384` and `4 * 16384` too small. -/
def IndexItem.Cut (item : IndexItem) : Prop := 16384 ≤ item.he.length ∧ item.he.length < 20480

instance (item : IndexItem) : Decidable item.Plain := inferInstanceAs (Decidable (_ < _))

instance (item : IndexItem) : Decidable item.Cut := inferInstanceAs (Decidable (_ ∧ _))

/-- The bytes that `DumpData` leaves of an item. -/
def IndexItem.dumped (item : IndexItem) : List UInt8 :=
  item.headBytes ++ item.heBytes.take (toShort (8 * item.he.length)).toNat ++
    item.angleBytes.take (toShort (4 * item.he.length)).toNat

theorem toShort_eq (n : Nat) :
    toShort n = if 2 * (n % 2 ^ 16) < 2 ^ 16 then (n % 2 ^ 16 : Int) else (n % 2 ^ 16 : Int) - 2 ^ 16 := by
  rw [toShort, BitVec.toInt_eq_toNat_cond, BitVec.toNat_ofNat]
  rfl

variable {item : IndexItem}

theorem toShort_of_plain (plain : item.Plain) :
    toShort (8 * item.he.length) = 8 * item.he.length ∧
      toShort (4 * item.he.length) = 4 * item.he.length := by
  unfold IndexItem.Plain at plain
  rw [toShort_eq, toShort_eq]
  omega

theorem toShort_of_cut (cut : item.Cut) :
    toShort (8 * item.he.length) = 8 * item.he.length - 131072 ∧
      toShort (4 * item.he.length) = 4 * item.he.length - 65536 := by
  unfold IndexItem.Cut at cut
  rw [toShort_eq, toShort_eq]
  omega

theorem toShort_neg (notPlain : ¬ item.Plain) (notCut : ¬ item.Cut) :
    toShort (8 * item.he.length) < 0 ∨ toShort (4 * item.he.length) < 0 := by
  have short := item.short
  unfold IndexItem.Plain at notPlain
  unfold IndexItem.Cut at notCut
  rw [toShort_eq, toShort_eq]
  omega

theorem length_flatMap_leBytes {w : Nat} (k : Nat) (vs : List (BitVec w)) :
    (vs.flatMap fun v => leBytes k v.toNat).length = k * vs.length := by
  induction vs with
  | nil => rfl
  | cons v vs ih =>
      rw [List.flatMap_cons, List.length_append, ih, length_leBytes, List.length_cons,
        Nat.mul_succ, Nat.add_comm]

theorem length_heBytes (item : IndexItem) : item.heBytes.length = 8 * item.he.length :=
  length_flatMap_leBytes 8 item.he

theorem length_angleBytes (item : IndexItem) : item.angleBytes.length = 4 * item.he.length := by
  rw [IndexItem.angleBytes, length_flatMap_leBytes, item.sameLength]

theorem length_headBytes (item : IndexItem) : item.headBytes.length = 14 := by
  simp [IndexItem.headBytes]

theorem length_encode (item : IndexItem) : item.encode.length = item.getSize := by
  simp only [IndexItem.encode, List.length_append, length_headBytes, length_heBytes,
    length_angleBytes, IndexItem.getSize]

theorem WordIndex.length_encode (index : WordIndex) :
    index.encode.length = calcWordIndexSize index := by
  have items : (index.items.flatMap IndexItem.encode).length =
      (index.items.map IndexItem.getSize).sum := by
    rw [List.length_flatMap]
    exact congrArg List.sum (List.map_congr_left fun item _ =>
      MlsImgSearch.BofCore.IndexerSerializer.length_encode item)
  simp only [WordIndex.encode, List.length_append, length_leBytes, items, calcWordIndexSize]

theorem dumped_of_plain (plain : item.Plain) : item.dumped = item.encode := by
  obtain ⟨he, angle⟩ := toShort_of_plain plain
  have heAll : item.heBytes.take (toShort (8 * item.he.length)).toNat = item.heBytes := by
    rw [he]
    exact List.take_of_length_le (by rw [length_heBytes]; omega)
  have angleAll : item.angleBytes.take (toShort (4 * item.he.length)).toNat = item.angleBytes := by
    rw [angle]
    exact List.take_of_length_le (by rw [length_angleBytes]; omega)
  rw [IndexItem.dumped, heAll, angleAll, IndexItem.encode]

theorem length_dumped_lt (cut : item.Cut) : item.dumped.length < item.getSize := by
  obtain ⟨he, angle⟩ := toShort_of_cut cut
  unfold IndexItem.Cut at cut
  simp only [IndexItem.dumped, List.length_append, length_headBytes, List.length_take,
    length_heBytes, length_angleBytes, he, angle, IndexItem.getSize]
  omega

theorem length_dumped_le (item : IndexItem) : item.dumped.length ≤ item.getSize := by
  simp only [IndexItem.dumped, List.length_append, length_headBytes, List.length_take,
    length_heBytes, length_angleBytes, IndexItem.getSize]
  omega

/-- A block with content `fresh` whose front was overwritten by `written`. -/
def filled (fresh written : List UInt8) : Cursor :=
  (written ++ fresh.drop written.length, written.length)

theorem memcpyData_filled {fresh written : List UInt8} (data : List UInt8)
    (room : written.length + data.length ≤ fresh.length) :
    memcpyData (filled fresh written) data = some (filled fresh (written ++ data)) := by
  have inside : written.length + data.length ≤ (written ++ fresh.drop written.length).length := by
    rw [List.length_append, List.length_drop]
    omega
  have rest : (written ++ fresh.drop written.length).drop (written.length + data.length) =
      fresh.drop (written.length + data.length) := by
    rw [← List.drop_drop, List.drop_left' rfl, List.drop_drop]
  simp only [memcpyData, filled, writeAt_eq_some inside, Option.map_some, List.take_left' rfl, rest,
    List.length_append]

theorem dumpData_filled {fresh written : List UInt8} (fine : item.Plain ∨ item.Cut)
    (room : written.length + item.getSize ≤ fresh.length) :
    dumpData (filled fresh written) item = some (filled fresh (written ++ item.dumped)) := by
  have signs : 0 ≤ toShort (8 * item.he.length) ∧ toShort (8 * item.he.length) ≤ 8 * item.he.length ∧
      0 ≤ toShort (4 * item.he.length) ∧ toShort (4 * item.he.length) ≤ 4 * item.he.length := by
    rcases fine with plain | cut
    · obtain ⟨he, angle⟩ := toShort_of_plain plain
      omega
    · obtain ⟨he, angle⟩ := toShort_of_cut cut
      unfold IndexItem.Cut at cut
      omega
  have heOk : ¬ (toShort (8 * item.he.length) < 0 ∨
      (item.heBytes.length : Int) < toShort (8 * item.he.length)) := by
    rw [length_heBytes]
    omega
  have angleOk : ¬ (toShort (4 * item.he.length) < 0 ∨
      (item.angleBytes.length : Int) < toShort (4 * item.he.length)) := by
    rw [length_angleBytes]
    omega
  have sizes : item.getSize = 14 + 8 * item.he.length + 4 * item.he.length := rfl
  rw [dumpData, memcpyData_filled _ (by rw [length_headBytes]; omega), Option.bind_some, memcpyCount,
    if_neg heOk, memcpyData_filled, Option.bind_some, memcpyCount, if_neg angleOk,
    memcpyData_filled, List.append_assoc, List.append_assoc, ← List.append_assoc item.headBytes]
  · rfl
  · simp only [List.length_append, List.length_take, length_headBytes, length_heBytes,
      length_angleBytes]
    omega
  · simp only [List.length_append, List.length_take, length_headBytes, length_heBytes]
    omega

theorem dumpData_eq_none (cur : Cursor) (notPlain : ¬ item.Plain) (notCut : ¬ item.Cut) :
    dumpData cur item = none := by
  have late : ∀ cur : Cursor, (memcpyCount cur item.heBytes (toShort (8 * item.he.length))).bind
      (fun cur => memcpyCount cur item.angleBytes (toShort (4 * item.he.length))) = none := by
    intro cur
    rcases toShort_neg notPlain notCut with he | angle
    · rw [memcpyCount, if_pos (Or.inl he), Option.bind_none]
    · refine Option.bind_eq_none_iff.mpr fun cur' _ => ?_
      rw [memcpyCount, if_pos (Or.inl angle)]
  exact Option.bind_eq_none_iff.mpr fun cur' _ => late cur'

theorem dumpAll_filled {fresh written : List UInt8} {items : List IndexItem}
    (fine : ∀ item ∈ items, item.Plain ∨ item.Cut)
    (room : written.length + (items.map IndexItem.getSize).sum ≤ fresh.length) :
    dumpAll (filled fresh written) items =
      some (filled fresh (written ++ items.flatMap IndexItem.dumped)) := by
  induction items generalizing written with
  | nil => simp [dumpAll]
  | cons item items ih =>
      rw [List.map_cons, List.sum_cons] at room
      have smaller := length_dumped_le item
      rw [dumpAll, dumpData_filled (fine item (List.mem_cons_self ..)) (by omega), Option.bind_some,
        ih (fun other member => fine other (List.mem_cons_of_mem _ member))
          (by rw [List.length_append]; omega),
        List.flatMap_cons, List.append_assoc]

theorem dumpAll_eq_none {cur : Cursor} {items : List IndexItem} (member : item ∈ items)
    (notPlain : ¬ item.Plain) (notCut : ¬ item.Cut) : dumpAll cur items = none := by
  induction items generalizing cur with
  | nil => cases member
  | cons first items ih =>
      rw [dumpAll]
      rcases List.mem_cons.mp member with rfl | later
      · rw [dumpData_eq_none cur notPlain notCut, Option.bind_none]
      · exact Option.bind_eq_none_iff.mpr fun cur' _ => ih later

/-- The bytes that `Serialize` leaves of a word. -/
def WordIndex.dumped (index : WordIndex) : List UInt8 :=
  leBytes 4 index.wordId.toNat ++ leBytes 4 index.items.length ++
    index.items.flatMap IndexItem.dumped

variable {index : WordIndex}

/-- `Serialize` writes the front of the block; behind it stays what was there. -/
theorem serialize_eq (junk : Nat → UInt8) (small : calcWordIndexSize index < 2 ^ 31)
    (fine : ∀ item ∈ index.items, item.Plain ∨ item.Cut) :
    serialize junk index = some (index.dumped ++
      (malloc junk (calcWordIndexSize index)).drop index.dumped.length) := by
  have start : (malloc junk (calcWordIndexSize index), 0) =
      filled (malloc junk (calcWordIndexSize index)) [] := rfl
  have size : calcWordIndexSize index = 8 + (index.items.map IndexItem.getSize).sum := rfl
  rw [serialize, if_neg (Nat.not_le.mpr small), start, memcpyData_filled, Option.bind_some,
    memcpyData_filled, Option.bind_some, dumpAll_filled fine]
  · rfl
  · simp only [List.nil_append, List.length_append, length_leBytes, length_malloc]
    omega
  · simp only [List.nil_append, length_leBytes, length_malloc]
    omega
  · simp only [List.length_nil, length_leBytes, length_malloc]
    omega

theorem serialize_eq_none_of_large (junk : Nat → UInt8) (large : 2 ^ 31 ≤ calcWordIndexSize index) :
    serialize junk index = none := if_pos large

theorem serialize_eq_none_of_item (junk : Nat → UInt8) (member : item ∈ index.items)
    (notPlain : ¬ item.Plain) (notCut : ¬ item.Cut) : serialize junk index = none := by
  unfold serialize
  dsimp only
  split
  · rfl
  · refine Option.bind_eq_none_iff.mpr fun cur _ => Option.bind_eq_none_iff.mpr fun cur' _ => ?_
    rw [dumpAll_eq_none member notPlain notCut, Option.map_none]

/-- Below 4096 features in each item, `Serialize` writes what `Unserialize` expects. -/
theorem serialize_eq_encode (junk : Nat → UInt8) (small : calcWordIndexSize index < 2 ^ 31)
    (plain : ∀ item ∈ index.items, item.Plain) : serialize junk index = some index.encode := by
  have same : index.dumped = index.encode := by
    rw [WordIndex.dumped, WordIndex.encode]
    congr 1
    exact List.flatMap_congr fun item member => dumped_of_plain (plain item member)
  rw [serialize_eq junk small fun item member => Or.inl (plain item member), same,
    List.drop_of_length_le (Nat.le_of_eq (by rw [length_malloc, WordIndex.length_encode])),
    List.append_nil]

theorem length_flatMap_dumped_le (items : List IndexItem) :
    (items.flatMap IndexItem.dumped).length ≤ (items.map IndexItem.getSize).sum := by
  induction items with
  | nil => exact Nat.le_refl 0
  | cons item rest ih =>
      have first := length_dumped_le item
      rw [List.flatMap_cons, List.length_append, List.map_cons, List.sum_cons]
      omega

theorem length_word_dumped_le (index : WordIndex) :
    index.dumped.length ≤ calcWordIndexSize index := by
  have items := length_flatMap_dumped_le index.items
  simp only [WordIndex.dumped, List.length_append, length_leBytes, calcWordIndexSize]
  omega

/-- The sizes that `Serialize` gets through without undefined behaviour. -/
def WordIndex.Writable (index : WordIndex) : Prop :=
  calcWordIndexSize index < 2 ^ 31 ∧ ∀ item ∈ index.items, item.Plain ∨ item.Cut

theorem length_serialize {junk : Nat → UInt8} {bytes : List UInt8} (writable : index.Writable)
    (done : serialize junk index = some bytes) : bytes.length = calcWordIndexSize index := by
  have short := length_word_dumped_le index
  rw [serialize_eq junk writable.1 writable.2] at done
  obtain rfl := Option.some.inj done
  rw [List.length_append, List.length_drop, length_malloc]
  omega

theorem serialize_isSome_iff (junk : Nat → UInt8) (index : WordIndex) :
    (∃ bytes, serialize junk index = some bytes) ↔ index.Writable := by
  constructor
  · rintro ⟨bytes, done⟩
    refine ⟨Nat.lt_of_not_le fun large => ?_, fun item member => ?_⟩
    · rw [serialize_eq_none_of_large junk large] at done
      cases done
    · by_cases plain : item.Plain
      · exact Or.inl plain
      · by_cases cut : item.Cut
        · exact Or.inr cut
        · rw [serialize_eq_none_of_item junk member plain cut] at done
          cases done
  · intro writable
    exact ⟨_, serialize_eq junk writable.1 writable.2⟩

/-- The size of a serialized word is even, so that one more byte still fits an `int`. -/
theorem even_calcWordIndexSize (index : WordIndex) : calcWordIndexSize index % 2 = 0 := by
  have items : ∀ items : List IndexItem, (items.map IndexItem.getSize).sum % 2 = 0 := by
    intro items
    induction items with
    | nil => rfl
    | cons item rest ih =>
        rw [List.map_cons, List.sum_cons, IndexItem.getSize]
        omega
  have sum := items index.items
  unfold calcWordIndexSize
  omega

theorem length_items_lt (index : WordIndex) : index.items.length < calcWordIndexSize index := by
  have items : ∀ items : List IndexItem, items.length ≤ (items.map IndexItem.getSize).sum := by
    intro items
    induction items with
    | nil => exact Nat.le_refl 0
    | cons item rest ih =>
        rw [List.map_cons, List.sum_cons, List.length_cons, IndexItem.getSize]
        omega
  have sum := items index.items
  unfold calcWordIndexSize
  omega

/-- If an item of a word is cut, the last byte of its block is never written. -/
theorem getLast?_serialize {junk : Nat → UInt8} {bytes : List UInt8} {item : IndexItem}
    (writable : index.Writable) (done : serialize junk index = some bytes) (member : item ∈ index.items)
    (cut : item.Cut) : bytes.getLast? = some (junk (calcWordIndexSize index - 1)) := by
  have less : (index.items.flatMap IndexItem.dumped).length <
      (index.items.map IndexItem.getSize).sum := by
    obtain ⟨front, back, split⟩ := List.append_of_mem member
    have first := length_flatMap_dumped_le front
    have here := length_dumped_lt cut
    have last := length_flatMap_dumped_le back
    rw [split]
    simp only [List.flatMap_append, List.flatMap_cons, List.length_append, List.map_append,
      List.map_cons, List.sum_append, List.sum_cons]
    omega
  have short : index.dumped.length < calcWordIndexSize index := by
    simp only [WordIndex.dumped, List.length_append, length_leBytes, calcWordIndexSize]
    omega
  rw [serialize_eq junk writable.1 writable.2] at done
  obtain rfl := Option.some.inj done
  have size : (malloc junk (calcWordIndexSize index)).length = calcWordIndexSize index :=
    length_malloc _ _
  rw [List.getLast?_append, List.getLast?_drop, if_neg (by rw [size]; omega), List.getLast?_eq_getElem?,
    size]
  have positive : calcWordIndexSize index - 1 < calcWordIndexSize index := by omega
  simp [malloc, positive]

/-- A word that comes back although fresh memory is wrong at its end was written whole. -/
theorem plain_of_unserialize {wrong : UInt8} {bytes : List UInt8}
    (differs : index.encode.getLast? ≠ some wrong)
    (done : serialize (fun _ => wrong) index = some bytes)
    (back : unserialize (bytes ++ [0]) = some index) : ∀ item ∈ index.items, item.Plain := by
  intro item member
  by_contra notPlain
  have writable : index.Writable := (serialize_isSome_iff _ index).mp ⟨bytes, done⟩
  have cut : item.Cut := (writable.2 item member).resolve_left notPlain
  have starts := unserialize_eq_some back (List.ne_nil_of_mem member)
  have length : index.encode.length = bytes.length := by
    rw [WordIndex.length_encode, length_serialize writable done]
  have both : bytes <+: bytes ++ [0] := List.prefix_append _ _
  have whole : index.encode = bytes :=
    (List.prefix_of_prefix_length_le starts both (Nat.le_of_eq length)).eq_of_length length
  apply differs
  rw [whole]
  exact getLast?_serialize writable done member cut

/-! ## The round trip -/

/-- Every byte of the block is written, whatever was in it before, and the word comes back. -/
def RoundTrips (index : WordIndex) : Prop :=
  ∃ bytes, bytes.length = calcWordIndexSize index ∧
    (∀ junk, serialize junk index = some bytes) ∧ unserialize bytes = some index

theorem calcWordIndexSize_eq (index : WordIndex) :
    calcWordIndexSize index = 8 + (index.items.map fun item => 14 + 12 * item.he.length).sum := by
  have sizes : IndexItem.getSize = fun item => 14 + 12 * item.he.length := by
    funext item
    rw [IndexItem.getSize]
    omega
  rw [calcWordIndexSize, sizes]

/-- An item that is cut leaves the last byte of the block as it was. -/
theorem not_cut_of_written {bytes : List UInt8} {item : IndexItem} (writable : index.Writable)
    (written : ∀ junk, serialize junk index = some bytes) (member : item ∈ index.items) :
    ¬ item.Cut := by
  intro cut
  have zero := getLast?_serialize writable (written fun _ => 0) member cut
  have one := getLast?_serialize writable (written fun _ => 1) member cut
  rw [zero] at one
  exact absurd (Option.some.inj one) (by decide)

/--
Word written and read back: all of the block is written, inside of it, and the
same word comes back if and only if the size of the block fits an `int` and every
item has at most 4095 features.
-/
theorem roundTrips_iff_short_items (index : WordIndex) :
    RoundTrips index ↔
      8 + (index.items.map fun item => 14 + 12 * item.he.length).sum < 2 ^ 31 ∧
        ∀ item ∈ index.items, item.he.length ≤ 4095 := by
  rw [← calcWordIndexSize_eq]
  constructor
  · rintro ⟨bytes, -, written, -⟩
    have writable : index.Writable :=
      (serialize_isSome_iff (fun _ => 0) index).mp ⟨bytes, written fun _ => 0⟩
    refine ⟨writable.1, fun item member => ?_⟩
    have plain : item.Plain :=
      (writable.2 item member).resolve_right (not_cut_of_written writable written member)
    exact Nat.le_of_lt_succ plain
  · rintro ⟨small, short⟩
    have plain : ∀ item ∈ index.items, item.Plain :=
      fun item member => Nat.lt_succ_of_le (short item member)
    have few : index.items.length < 2 ^ 31 := Nat.lt_trans (length_items_lt index) small
    refine ⟨index.encode, WordIndex.length_encode index,
      fun junk => serialize_eq_encode junk small plain, ?_⟩
    have back := unserialize_encode index few []
    rwa [List.append_nil] at back

/-- `length_ = 4096`: `he_len` becomes -32768, and the copy runs through all of the memory. -/
theorem not_roundTrips_long_item :
    ¬ RoundTrips ⟨5, [⟨7, 1, List.replicate 4096 0, List.replicate 4096 0,
      by rw [List.length_replicate, List.length_replicate],
      by rw [List.length_replicate]; decide⟩]⟩ := by
  rintro ⟨bytes, -, written, -⟩
  have fine := ((serialize_isSome_iff (fun _ => 0) _).mp ⟨bytes, written fun _ => 0⟩).2 _
    (List.mem_singleton_self _)
  simp only [IndexItem.Plain, IndexItem.Cut, List.length_replicate] at fine
  omega

end MlsImgSearch.BofCore.IndexerSerializer
