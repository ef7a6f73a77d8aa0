import MlsImgSearch.BofCore.IndexerSerializer

/-!
# Buckets, hints and the index on disk

`ConvertB2W` turns the text form of a bucket into a word of the index. The
hinter remembers for each bucket where its word lies in the data file, and
`LoadWord` reads it from there.
-/

namespace MlsImgSearch.BofCore.Indexer

open MlsImgSearch.BofCore.IndexerSerializer

/-! ## Buckets -/

/-- `he` and `angle` are the strings `word_info_[0]` and `word_info_[1]`. -/
structure BOFIndexItem where
  picId : BitVec 32
  q : BitVec 32
  he : List UInt8
  angle : List UInt8

structure BOFIndexBucket where
  bucketId : Nat
  items : List BOFIndexItem

/-- The value of a hexadecimal digit; `char` is signed. -/
def heDigit (c : UInt8) : BitVec 64 :=
  if c.toBitVec.sle 57#8 then c.toBitVec.signExtend 64 - 48
  else c.toBitVec.signExtend 64 - 65 + 10

/-- The table `off_value`. -/
def offValue : Nat → BitVec 64
  | 0 => 1
  | l + 1 => offValue l <<< 4

/-- The inner loop over the 16 digits of a code, with `left` digits to go. `none` is an access
outside of the string. -/
def heLoop (str : List UInt8) (start : Nat) : Nat → BitVec 64 → Option (BitVec 64)
  | 0, acc => some acc
  | left + 1, acc =>
      (str[(15 - left) + start]?).bind fun c =>
        heLoop str start left (acc + heDigit c * offValue (15 - left))

def heWord (str : List UInt8) (j : Nat) : Option (BitVec 64) := heLoop str (j * 16) 16 0#64

/-- The value of a decimal digit. -/
def angleDigit (c : UInt8) : BitVec 32 := c.toBitVec.signExtend 32 - 48

def angleWord (str : List UInt8) (j : Nat) : Option (BitVec 32) :=
  (str[3 * j + 0]?).bind fun a => (str[3 * j + 1]?).bind fun b => (str[3 * j + 2]?).map fun c =>
    0#32 + angleDigit a * 100#32 + angleDigit b * 10#32 + angleDigit c * 1#32

/-- The results of a loop body for `0, …, n - 1`. -/
def collect {β : Type} (f : Nat → Option β) : Nat → Option (List β)
  | 0 => some []
  | n + 1 => (collect f n).bind fun xs => (f n).map fun x => xs ++ [x]

def convertItem (item : BOFIndexItem) : Option IndexItem :=
  let length := toShort (item.he.length / 16)
  if length < 0 then none
  else
    (collect (heWord item.he) length.toNat).bind fun he =>
      (collect (angleWord item.angle) length.toNat).bind fun angle =>
        if sizes : angle.length = he.length ∧ he.length < 2 ^ 15 then
          some ⟨item.picId.setWidth 64, item.q, he, angle, IndexItem.sameLength_of sizes,
            IndexItem.short_of sizes⟩
        else none

def convertItems : List BOFIndexItem → Option (List IndexItem)
  | [] => some []
  | item :: rest => (convertItem item).bind fun x => (convertItems rest).map fun xs => x :: xs

def convertB2W (bucket : BOFIndexBucket) : Option WordIndex :=
  (convertItems bucket.items).map fun items => ⟨BitVec.ofNat 32 bucket.bucketId, items⟩

/-! ## Hints -/

structure HinterItem where
  startPos : Nat := 0
  endPos : Nat := 0
  bucketSize : Nat := 0

structure IndexHinter where
  items : List HinterItem

def IndexHinter.create (maxBucketNum : Nat) : IndexHinter := ⟨List.replicate maxBucketNum {}⟩

def IndexHinter.setHint (h : IndexHinter) (bucketId bucketSize startPos endPos : Nat) :
    Int × IndexHinter :=
  if h.items.length ≤ bucketId then (-1, h)
  else (0, ⟨h.items.set bucketId ⟨startPos, endPos, bucketSize⟩⟩)

theorem IndexHinter.setHint_snd {h : IndexHinter} {bucketId : Nat}
    (inside : bucketId < h.items.length) (bucketSize startPos endPos : Nat) :
    (h.setHint bucketId bucketSize startPos endPos).2 =
      ⟨h.items.set bucketId ⟨startPos, endPos, bucketSize⟩⟩ := by
  rw [setHint, if_neg (Nat.not_le.mpr inside)]

/-- `none` is the return code -1. -/
def IndexHinter.getHint (h : IndexHinter) (bucketId : Nat) : Option HinterItem := h.items[bucketId]?

/-! ## The index -/

/-- The hint file and the data file. -/
structure BOFIndex where
  hinter : IndexHinter
  fsData : List UInt8

def BOFIndex.create (bucketCount : Nat) : BOFIndex := ⟨.create bucketCount, []⟩

/-- Append a serialized word to the data file and set its hint. -/
def BOFIndex.append (index : BOFIndex) (bucketId : Nat) (indexData : List UInt8) : BOFIndex :=
  let curPos := index.fsData.length
  let endPos := (index.fsData ++ indexData).length
  ⟨(index.hinter.setHint bucketId 0 curPos endPos).2, index.fsData ++ indexData⟩

def WordIndex.fresh : WordIndex := ⟨0, []⟩

/-- The return code and the word; `none` is undefined behaviour. -/
def loadWord (index : BOFIndex) (wordId : Nat) : Option (Int × WordIndex) :=
  match index.hinter.getHint wordId with
  | none => some (-1, WordIndex.fresh)
  | some hint =>
      if hint.startPos = hint.endPos then some (-2, WordIndex.fresh)
      else
        -- the difference of two 64-bit positions becomes an `int`
        let dataLen := (BitVec.ofInt 32 (hint.endPos - hint.startPos + 1)).toInt
        if dataLen < 1 ∨ index.fsData.length < hint.startPos + (dataLen - 1).toNat then none
        else
          let data := (index.fsData.drop hint.startPos).take (dataLen - 1).toNat ++ [0]
          (unserialize data).map fun word => (0, word)

/-- The items of a word; a word that does not load has none. -/
def itemsOf (index : BOFIndex) (i : Nat) : List IndexItem :=
  match loadWord index i with
  | some (0, word) => word.items
  | _ => []

theorem itemsOf_eq {index : BOFIndex} {i : Nat} {word : WordIndex}
    (loaded : loadWord index i = some (0, word)) : itemsOf index i = word.items := by
  rw [itemsOf, loaded]
  rfl

theorem itemsOf_refused {index : BOFIndex} {i : Nat} {code : Int} {word : WordIndex}
    (nonzero : code ≠ 0) (refused : loadWord index i = some (code, word)) : itemsOf index i = [] := by
  rw [itemsOf, refused]
  split
  · next same => exact absurd (Prod.mk.inj (Option.some.inj same)).1 nonzero
  · rfl

/-- The order of pictures; `pic_id_` is a signed number. -/
def picKey (item : IndexItem) : Int := item.picId.toInt

/-- The hint of a word points to `bytes`. -/
def Points (index : BOFIndex) (i : Nat) (bytes : List UInt8) : Prop :=
  ∃ start, index.hinter.items[i]? = some ⟨start, start + bytes.length, 0⟩ ∧
    start + bytes.length ≤ index.fsData.length ∧
    (index.fsData.drop start).take bytes.length = bytes

section Append

variable {index : BOFIndex} {bucketId : Nat} (inside : bucketId < index.hinter.items.length)
  (bytes : List UInt8)

include inside

theorem length_hints_append :
    (index.append bucketId bytes).hinter.items.length = index.hinter.items.length := by
  rw [BOFIndex.append, IndexHinter.setHint_snd inside]
  exact List.length_set

theorem points_append_self : Points (index.append bucketId bytes) bucketId bytes := by
  rw [BOFIndex.append, IndexHinter.setHint_snd inside]
  refine ⟨index.fsData.length, ?_, ?_, ?_⟩
  · rw [List.getElem?_set_self inside, List.length_append]
  · exact Nat.le_of_eq List.length_append.symm
  · rw [List.drop_left' rfl]
    exact List.take_of_length_le (Nat.le_refl _)

theorem hint_append_other {i : Nat} (differs : bucketId ≠ i) :
    (index.append bucketId bytes).hinter.items[i]? = index.hinter.items[i]? := by
  rw [BOFIndex.append, IndexHinter.setHint_snd inside]
  exact List.getElem?_set_ne differs

/-- The data file only grows, so that other words stay where they are. -/
theorem points_append_other {i : Nat} {other : List UInt8} (differs : bucketId ≠ i)
    (points : Points index i other) : Points (index.append bucketId bytes) i other := by
  obtain ⟨start, hint, within, content⟩ := points
  refine ⟨start, by rw [hint_append_other inside bytes differs]; exact hint, ?_, ?_⟩
  · rw [BOFIndex.append, List.length_append]
    exact Nat.le_add_right_of_le within
  · rw [BOFIndex.append, List.drop_append_of_le_length (Nat.le_of_add_right_le within),
      List.take_append_of_le_length (by rw [List.length_drop]; omega)]
    exact content

end Append

/-- `LoadWord` reads the bytes that the hint points to. -/
theorem loadWord_of_points {index : BOFIndex} {i : Nat} {bytes : List UInt8}
    (points : Points index i bytes) (nonempty : 0 < bytes.length)
    (small : bytes.length + 1 < 2 ^ 31) :
    loadWord index i = (unserialize (bytes ++ [0])).map fun word => (0, word) := by
  obtain ⟨start, hint, within, content⟩ := points
  have dataLen : (BitVec.ofInt 32 (((start + bytes.length : Nat) : Int) - start + 1)).toInt =
      bytes.length + 1 := by
    rw [show ((start + bytes.length : Nat) : Int) - start + 1 = ((bytes.length + 1 : Nat) : Int) by
      omega, BitVec.ofInt_natCast, BitVec.toInt_eq_toNat_cond, BitVec.toNat_ofNat]
    omega
  have differs : start ≠ start + bytes.length := by omega
  have fits : ¬ ((bytes.length : Int) + 1 < 1 ∨
      index.fsData.length < start + bytes.length) := by omega
  have count : ((bytes.length : Int) + 1 - 1).toNat = bytes.length := by omega
  simp only [loadWord, IndexHinter.getHint, hint, if_neg differs, dataLen, count, if_neg fits,
    content]

/-- `LoadWord` on the bytes of a serialized word. -/
theorem loadWord_of_serialize {index : BOFIndex} {i : Nat} {word : WordIndex}
    {junk : Nat → UInt8} {bytes : List UInt8} (points : Points index i bytes)
    (done : serialize junk word = some bytes) :
    loadWord index i = (unserialize (bytes ++ [0])).map fun word => (0, word) := by
  have writable : word.Writable := (serialize_isSome_iff junk word).mp ⟨bytes, done⟩
  have size := length_serialize writable done
  have even := even_calcWordIndexSize word
  have bound := writable.1
  have positive : 8 ≤ calcWordIndexSize word := Nat.le_add_right 8 _
  exact loadWord_of_points points (by omega) (by omega)

/-- Plain words come back as they were. -/
theorem loadWord_of_plain {index : BOFIndex} {i : Nat} {word : WordIndex}
    {junk : Nat → UInt8} {bytes : List UInt8} (points : Points index i bytes)
    (done : serialize junk word = some bytes) (plain : ∀ item ∈ word.items, item.Plain) :
    loadWord index i = some (0, word) := by
  have small : calcWordIndexSize word < 2 ^ 31 :=
    ((serialize_isSome_iff junk word).mp ⟨bytes, done⟩).1
  rw [loadWord_of_serialize points done]
  rw [serialize_eq_encode junk small plain] at done
  obtain rfl := Option.some.inj done
  rw [unserialize_encode word (Nat.lt_trans (length_items_lt word) small), Option.map_some]

/-! ## Text that is well formed -/

/-- A feature of a picture: the digits of its code, the lowest first, and of its angle. -/
structure Feature where
  code : List (Fin 16)
  angle : Fin 10 × Fin 10 × Fin 10
  size : code.length = 16

/-- Upper case hexadecimal digits. -/
def hexChar (d : Fin 16) : UInt8 := if d.val < 10 then UInt8.ofNat (48 + d) else UInt8.ofNat (55 + d)

def decimalChar (d : Fin 10) : UInt8 := UInt8.ofNat (48 + d)

/-- The number with the given digits, the lowest first. -/
def hexValue : List (Fin 16) → Nat
  | [] => 0
  | d :: rest => d + 16 * hexValue rest

def Feature.heString (f : Feature) : List UInt8 := f.code.map hexChar

def Feature.angleString (f : Feature) : List UInt8 :=
  [decimalChar f.angle.1, decimalChar f.angle.2.1, decimalChar f.angle.2.2]

def Feature.he (f : Feature) : BitVec 64 := BitVec.ofNat 64 (hexValue f.code)

def Feature.angleValue (f : Feature) : BitVec 32 :=
  BitVec.ofNat 32 (100 * f.angle.1 + 10 * f.angle.2.1 + f.angle.2.2)

/-- What the analysis of a picture says about a word. -/
structure Posting where
  picId : BitVec 32
  q : BitVec 32
  features : List Feature
  short : features.length < 2 ^ 15

def Posting.text (p : Posting) : BOFIndexItem :=
  ⟨p.picId, p.q, p.features.flatMap Feature.heString, p.features.flatMap Feature.angleString⟩

/-- The item of the index that stands for a posting. -/
def Posting.item (p : Posting) : IndexItem where
  picId := p.picId.setWidth 64
  weight := p.q
  he := p.features.map Feature.he
  angle := p.features.map Feature.angleValue
  sameLength := by rw [List.length_map, List.length_map]
  short := by
    rw [List.length_map]
    exact p.short

theorem heDigit_hexChar (d : Fin 16) : heDigit (hexChar d) = BitVec.ofNat 64 d := by
  revert d
  decide

theorem angleDigit_decimalChar (d : Fin 10) : angleDigit (decimalChar d) = BitVec.ofNat 32 d := by
  revert d
  decide

theorem offValue_eq (l : Nat) : offValue l = BitVec.ofNat 64 (16 ^ l) := by
  induction l with
  | zero => rfl
  | succ l ih =>
      rw [offValue, ih, BitVec.shiftLeft_eq_mul_twoPow, Nat.pow_succ, BitVec.ofNat_mul]
      rfl

/-- The loop adds up the digits of the rest of a code. -/
theorem heLoop_eq {str : List UInt8} {start : Nat} (digits : List (Fin 16)) (l : Nat)
    (acc : BitVec 64) (size : l + digits.length = 16)
    (text : digits.map hexChar <+: str.drop (l + start)) :
    heLoop str start digits.length acc =
      some (acc + BitVec.ofNat 64 (16 ^ l * hexValue digits)) := by
  induction digits generalizing l acc with
  | nil => simp [heLoop, hexValue]
  | cons d rest ih =>
      rw [List.length_cons] at size
      have position : 15 - rest.length = l := by omega
      obtain ⟨more, isText⟩ := text
      have head : str[l + start]? = some (hexChar d) := by
        have first := congrArg (fun t => t[0]?) isText
        simpa using first.symm
      have tail : rest.map hexChar <+: str.drop (l + 1 + start) := by
        refine ⟨more, ?_⟩
        have later := congrArg List.tail isText
        rw [List.tail_drop] at later
        rw [show l + 1 + start = l + start + 1 by omega]
        exact later
      rw [List.length_cons, heLoop, position, head, Option.bind_some, ih (l + 1) _ (by omega) tail,
        heDigit_hexChar, offValue_eq, ← BitVec.ofNat_mul, BitVec.add_assoc, ← BitVec.ofNat_add]
      congr 3
      rw [hexValue, Nat.pow_succ, Nat.mul_add, Nat.mul_comm (d : Nat), Nat.mul_assoc]

theorem collect_eq {β : Type} {f : Nat → Option β} {g : Nat → β} {n : Nat}
    (body : ∀ j, j < n → f j = some (g j)) : collect f n = some ((List.range n).map g) := by
  induction n with
  | zero => rfl
  | succ n ih =>
      rw [collect, ih fun j lt => body j (Nat.lt_succ_of_lt lt), Option.bind_some,
        body n (Nat.lt_succ_self n), List.range_succ, List.map_append]
      rfl

/-- The `j`-th part of a text that consists of parts of length `k`. -/
theorem isPrefix_drop_flatMap {features : List Feature} {part : Feature → List UInt8} {k j : Nat}
    {f : Feature} (size : ∀ f, (part f).length = k) (at' : features[j]? = some f) :
    part f <+: (features.flatMap part).drop (k * j) := by
  induction features generalizing j with
  | nil => cases at'
  | cons first rest ih =>
      rw [List.flatMap_cons]
      cases j with
      | zero =>
          obtain rfl : first = f := by simpa using at'
          rw [Nat.mul_zero, List.drop_zero]
          exact List.prefix_append _ _
      | succ j =>
          rw [Nat.mul_succ, Nat.add_comm, ← List.drop_drop, List.drop_left' (size first)]
          exact ih (by simpa using at')

theorem length_flatMap_parts {part : Feature → List UInt8} {k : Nat}
    (size : ∀ f, (part f).length = k) (features : List Feature) :
    (features.flatMap part).length = k * features.length := by
  induction features with
  | nil => rfl
  | cons first rest ih =>
      rw [List.flatMap_cons, List.length_append, ih, size, List.length_cons, Nat.mul_succ,
        Nat.add_comm]

theorem length_heString (f : Feature) : f.heString.length = 16 := by
  rw [Feature.heString, List.length_map, f.size]

theorem length_angleString (f : Feature) : f.angleString.length = 3 := rfl

theorem range_map_getD {β : Type} (features : List Feature) (value : Feature → β) (other : β) :
    (List.range features.length).map (fun j => ((features[j]?).map value).getD other) =
      features.map value := by
  refine List.ext_getElem (by simp) fun i lower upper => ?_
  have inside : i < features.length := by simpa using upper
  simp [inside]

/-- The codes of well-formed text. -/
theorem collect_heWord (features : List Feature) :
    collect (heWord (features.flatMap Feature.heString)) features.length =
      some (features.map Feature.he) := by
  rw [← range_map_getD features Feature.he 0]
  refine collect_eq fun j lt => ?_
  have at' : features[j]? = some features[j] := List.getElem?_eq_getElem lt
  have text : features[j].code.map hexChar <+:
      (features.flatMap Feature.heString).drop (0 + j * 16) := by
    rw [Nat.zero_add, Nat.mul_comm]
    exact isPrefix_drop_flatMap length_heString at'
  have sum := heLoop_eq features[j].code 0 0#64 (by rw [features[j].size]) text
  rw [features[j].size] at sum
  rw [heWord, at', Option.map_some, Option.getD_some]
  refine sum.trans ?_
  rw [Nat.pow_zero, Nat.one_mul, BitVec.zero_add]
  rfl

/-- Well-formed text is converted to the item that it stands for. -/
theorem convertItem_text (p : Posting) : convertItem p.text = some p.item := by
  have heSize : p.text.he.length = 16 * p.features.length :=
    length_flatMap_parts length_heString p.features
  have length : toShort (p.text.he.length / 16) = p.features.length := by
    have short := p.short
    rw [heSize, toShort_eq]
    omega
  have he : collect (heWord p.text.he) p.features.length = some (p.features.map Feature.he) :=
    collect_heWord p.features
  have angle : collect (angleWord p.text.angle) p.features.length =
      some (p.features.map Feature.angleValue) := by
    rw [← range_map_getD p.features Feature.angleValue 0]
    refine collect_eq fun j lt => ?_
    have at' : p.features[j]? = some p.features[j] := List.getElem?_eq_getElem lt
    obtain ⟨more, isText⟩ := isPrefix_drop_flatMap length_angleString at'
    have char : ∀ i, i < 3 → p.text.angle[3 * j + i]? = p.features[j].angleString[i]? := by
      intro i small
      have here := congrArg (fun t => t[i]?) isText
      rw [List.getElem?_append_left small, List.getElem?_drop] at here
      exact here.symm
    rw [angleWord, char 0 (by decide), char 1 (by decide), char 2 (by decide), at',
      Option.map_some, Option.getD_some]
    simp only [Feature.angleString, List.getElem?_cons_zero, List.getElem?_cons_succ,
      Option.bind_some, Option.map_some, angleDigit_decimalChar, Feature.angleValue,
      BitVec.zero_add, BitVec.mul_one]
    rw [BitVec.ofNat_add, BitVec.ofNat_add, BitVec.ofNat_mul, BitVec.ofNat_mul,
      BitVec.mul_comm (BitVec.ofNat 32 100), BitVec.mul_comm (BitVec.ofNat 32 10)]
  have notNegative : ¬ (p.features.length : Int) < 0 := by omega
  rw [convertItem, length, if_neg notNegative, Int.toNat_natCast, he, Option.bind_some, angle,
    Option.bind_some, dif_pos ⟨p.item.sameLength, p.item.short⟩]
  rfl

theorem convertItems_text (postings : List Posting) :
    convertItems (postings.map Posting.text) = some (postings.map Posting.item) := by
  induction postings with
  | nil => rfl
  | cons p rest ih =>
      rw [List.map_cons, convertItems, convertItem_text, Option.bind_some, ih, Option.map_some,
        List.map_cons]

end MlsImgSearch.BofCore.Indexer
