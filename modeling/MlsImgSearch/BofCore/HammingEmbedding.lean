import Mathlib.Algebra.BigOperators.Fin
import Mathlib.InformationTheory.Hamming
import MlsImgSearch.BofCore.Searcher
import MlsImgSearch.Lib.Lanes

/-!
# Hamming embedding

A descriptor is projected to 64 numbers, and the signs of their differences to
the medians of a word are kept as 16 hexadecimal digits. The index and the
query turn the digits of all descriptors of a word into 64-bit words, whose
distance is the number of positions in which they differ.
-/

namespace MlsImgSearch.BofCore.HammingEmbedding

open MlsImgSearch.Lib.Lanes
open MlsImgSearch.BofCore.IndexerSerializer
open MlsImgSearch.BofCore.Indexer
open MlsImgSearch.BofCore.Searcher

/-! ## Counting the ones of a word -/

/-- Neighbours in pairs. -/
def pairs (d : Nat → Nat) (i : Nat) : Nat := d (2 * i) + d (2 * i + 1)

theorem pairs_le {d : Nat → Nat} {bound : Nat} (small : ∀ i, d i ≤ bound) (i : Nat) :
    pairs d i ≤ 2 * bound := by
  have even := small (2 * i)
  have odd := small (2 * i + 1)
  unfold pairs
  omega

theorem pairs_zero {d : Nat → Nat} {n : Nat} (zero : ∀ i, 2 * n ≤ i → d i = 0) :
    ∀ i, n ≤ i → pairs d i = 0 := by
  intro i above
  rw [pairs, zero (2 * i) (by omega), zero (2 * i + 1) (by omega)]

theorem sum_pairs_eq (n : Nat) (d : Nat → Nat) :
    ∑ i ∈ Finset.range n, pairs d i = ∑ i ∈ Finset.range (2 * n), d i := sum_pairs n d

/-- The pairs of bits. -/
theorem toNat_countPairs {x : BitVec 64} {b : Nat → Nat} (small : ∀ i, b i ≤ 1)
    (value : x.toNat = lanes 1 (2 * 32) b) :
    (x - ((x >>> 1) &&& 0x5555555555555555#64)).toNat = lanes 2 (2 * 16) (pairs b) := by
  have mask : (0x5555555555555555#64).toNat = evenMask 1 32 := by decide +kernel
  have odd : ((x >>> 1) &&& 0x5555555555555555#64).toNat = lanes 2 32 fun i => b (2 * i + 1) := by
    rw [BitVec.toNat_and, BitVec.toNat_ushiftRight, value, mask]
    exact shiftRight_and_evenMask fun i => Nat.lt_succ_of_le (small i)
  have whole : x.toNat = lanes 2 32 (fun i => b (2 * i)) + 2 * lanes 2 32 fun i => b (2 * i + 1) :=
    value.trans (lanes_double 1 32 b)
  have sum := lanes_add 2 32 (fun i => b (2 * i)) fun i => b (2 * i + 1)
  rw [BitVec.toNat_sub_of_le (BitVec.le_def.mpr (by omega)), odd, whole]
  exact (by omega : _ = _).trans sum

/-- The pairs of pairs. -/
theorem toNat_countNibbles {x : BitVec 64} {d : Nat → Nat} (small : ∀ i, d i ≤ 2)
    (value : x.toNat = lanes 2 (2 * 16) d) :
    ((x &&& 0x3333333333333333#64) + ((x >>> 2) &&& 0x3333333333333333#64)).toNat =
      lanes 4 (2 * 8) (pairs d) := by
  have mask : (0x3333333333333333#64).toNat = evenMask 2 16 := by decide +kernel
  have low : ∀ i, d i < 2 ^ 2 := fun i => lt_of_le_of_lt (small i) (by decide)
  have sum := lanes_add 4 16 (fun i => d (2 * i)) fun i => d (2 * i + 1)
  have fits : lanes 4 16 (pairs d) < 2 ^ (4 * 16) :=
    lanes_lt fun i => lt_of_le_of_lt (pairs_le small i) (by decide)
  rw [BitVec.toNat_add, BitVec.toNat_and, BitVec.toNat_and, BitVec.toNat_ushiftRight, value, mask,
    lanes_and_evenMask low, shiftRight_and_evenMask low]
  exact (congrArg (· % 2 ^ 64) sum).trans (Nat.mod_eq_of_lt fits)

/-- The bytes. -/
theorem toNat_countBytes {x : BitVec 64} {d : Nat → Nat} (small : ∀ i, d i ≤ 4)
    (value : x.toNat = lanes 4 (2 * 8) d) :
    ((x + (x >>> 4)) &&& 0x0f0f0f0f0f0f0f0f#64).toNat = lanes 8 8 (pairs d) := by
  have mask : (0x0f0f0f0f0f0f0f0f#64).toNat = evenMask 4 8 := by decide +kernel
  have small' : evenMask 4 8 < 2 ^ 64 := by decide +kernel
  have fits : ∀ i, d i + d (i + 1) < 2 ^ 4 := by
    intro i
    have left := small i
    have right := small (i + 1)
    omega
  have sum := add_shiftRight_and_evenMask (n := 8) fits
  rw [BitVec.toNat_and, BitVec.toNat_add, BitVec.toNat_ushiftRight, value, mask,
    ← Nat.mod_eq_of_lt small', ← Nat.and_mod_two_pow, sum]
  refine Nat.mod_eq_of_lt (lanes_lt (w := 8) (n := 8) fun i => ?_)
  exact lt_of_le_of_lt (pairs_le small i) (by decide)

/-- Add the bytes that lie `k` above, with room in each byte. -/
theorem toNat_addShifted {x : BitVec 64} {d : Nat → Nat} {bound : Nat} (room : 2 * bound < 256)
    (small : ∀ i, d i ≤ bound) (zero : ∀ i, 8 ≤ i → d i = 0) (value : x.toNat = lanes 8 8 d)
    (k : Nat) : (x + (x >>> (8 * k))).toNat = lanes 8 8 fun i => d i + d (i + k) := by
  have each : ∀ i, d i < 2 ^ 8 := fun i => lt_of_le_of_lt (small i) (by omega)
  have fits : lanes 8 8 (fun i => d i + d (i + k)) < 2 ^ (8 * 8) := by
    refine lanes_lt fun i => ?_
    have left := small i
    have right := small (i + k)
    show d i + d (i + k) < 256
    omega
  rw [BitVec.toNat_add, BitVec.toNat_ushiftRight, value, lanes_shiftRight each zero, lanes_add]
  exact Nat.mod_eq_of_lt fits

/-- The sum of the bytes. -/
theorem toNat_countWord {x : BitVec 64} {d : Nat → Nat} (small : ∀ i, d i ≤ 8)
    (zero : ∀ i, 8 ≤ i → d i = 0) (value : x.toNat = lanes 8 8 d) :
    let y := x + (x >>> 8)
    let y := y + (y >>> 16)
    let y := y + (y >>> 32)
    (y &&& 0x7f#64).toNat = ∑ i ∈ Finset.range 8, d i := by
  intro y z u
  have double : ∀ {e : Nat → Nat} {bound : Nat} (k : Nat), (∀ i, e i ≤ bound) →
      ∀ i, e i + e (i + k) ≤ 2 * bound := by
    intro e bound k small i
    have left := small i
    have right := small (i + k)
    omega
  have above : ∀ {e : Nat → Nat} (k : Nat), (∀ i, 8 ≤ i → e i = 0) →
      ∀ i, 8 ≤ i → e i + e (i + k) = 0 := by
    intro e k zero i high
    rw [zero i high, zero (i + k) (by omega)]
  have first : y.toNat = _ := toNat_addShifted (by decide) small zero value 1
  have second : z.toNat = _ :=
    toNat_addShifted (by decide) (double 1 small) (above 1 zero) first 2
  have third : u.toNat = _ :=
    toNat_addShifted (by decide) (double 2 (double 1 small)) (above 2 (above 1 zero)) second 4
  have low := double 4 (double 2 (double 1 small)) 0
  have ones : (0x7f#64).toNat = 2 ^ 7 - 1 := rfl
  rw [BitVec.toNat_and, ones, Nat.and_two_pow_sub_one_eq_mod, third, lanes]
  simp only [Finset.sum_range_succ, Finset.sum_range_zero, Nat.zero_add, Nat.reduceAdd] at low ⊢
  omega

/-- The number of ones. -/
theorem countOne_eq (x : BitVec 64) :
    countOne x = ∑ i ∈ Finset.range 64, (x.getLsbD i).toNat := by
  have bits : ∀ i, (x.getLsbD i).toNat ≤ 1 := fun i => Bool.toNat_le _
  have high : ∀ i, 64 ≤ i → (x.getLsbD i).toNat = 0 := fun i above => by
    rw [BitVec.getLsbD_of_ge x i above]
    rfl
  have value : x.toNat = lanes 1 (2 * 32) fun i => (x.getLsbD i).toNat :=
    (lanes_testBit 64 x.toNat x.isLt).symm
  have two := toNat_countPairs bits value
  have four := toNat_countNibbles (pairs_le bits) two
  have eight := toNat_countBytes (pairs_le (pairs_le bits)) four
  have sum := toNat_countWord (pairs_le (pairs_le (pairs_le bits)))
    (pairs_zero (n := 8) (pairs_zero (n := 16) (pairs_zero (n := 32) high))) eight
  rw [sum_pairs_eq, sum_pairs_eq, sum_pairs_eq] at sum
  exact sum

/-! ## The coder -/

section Coder

variable {F : Type*} [Zero F] [Add F] [Mul F] [LT F] [DecidableLT F]

/-- `he_v[i]`, the projection of a descriptor. -/
def project (oneDescriptor : Nat → F) (out : Nat → Nat → F) (cols i : Nat) : F :=
  (List.range cols).foldl (fun sum j => sum + out i j * oneDescriptor j) 0

structure CoderState where
  h16 : Nat := 0
  count : Nat := 0
  hammingStr : List UInt8 := []

/-- The table `rat`. -/
def rat : Nat → Nat
  | 0 => 8
  | 1 => 4
  | 2 => 2
  | _ => 1

def coderDigit (h16 : Nat) : UInt8 :=
  if 10 ≤ h16 then UInt8.ofNat (65 + h16 - 10) else UInt8.ofNat (48 + h16)

/-- One turn of the loop over the positions. -/
def coderStep (s : CoderState) (above : Bool) : CoderState :=
  let h16 := if above then s.h16 + rat s.count else s.h16
  let count := s.count + 1
  if count = 4 then ⟨0, 0, s.hammingStr ++ [coderDigit h16]⟩ else ⟨h16, count, s.hammingStr⟩

def coderLoop (signs : List Bool) : CoderState := signs.foldl coderStep {}

/-- The string that `HammingCoder` leaves in `hamming_str`. -/
def hammingCoder (heLength : Nat) (oneDescriptor : Nat → F) (out : Nat → Nat → F) (cols : Nat)
    (median : Nat → F) : List UInt8 :=
  (coderLoop ((List.range heLength).map fun j =>
    decide (project oneDescriptor out cols j < median j))).hammingStr

end Coder

/-- The positions at which the median is greater. -/
abbrev SignVector := Fin 64 → Bool

def SignVector.sign (v : SignVector) (i : Nat) : Bool := if inside : i < 64 then v ⟨i, inside⟩ else false

/-- The digits of a sign vector. -/
def code (v : SignVector) : List UInt8 := (coderLoop ((List.range 64).map v.sign)).hammingStr

theorem hammingCoder_eq {F : Type*} [Zero F] [Add F] [Mul F] [LT F] [DecidableLT F]
    (oneDescriptor : Nat → F) (out : Nat → Nat → F) (cols : Nat) (median : Nat → F) :
    hammingCoder 64 oneDescriptor out cols median =
      code fun j => decide (project oneDescriptor out cols j < median j) := by
  have signs : (List.range 64).map (fun j => decide (project oneDescriptor out cols j < median j)) =
      (List.range 64).map (SignVector.sign fun j =>
        decide (project oneDescriptor out cols j < median j)) :=
    List.map_congr_left fun j member => by rw [SignVector.sign, dif_pos (List.mem_range.mp member)]
  rw [hammingCoder, signs]
  rfl

/-- The digit of four signs. -/
def nibbleOf (a b c d : Bool) : Fin 16 :=
  ⟨8 * a.toNat + 4 * b.toNat + 2 * c.toNat + d.toNat, by
    have := Bool.toNat_le a
    have := Bool.toNat_le b
    have := Bool.toNat_le c
    have := Bool.toNat_le d
    omega⟩

def nibble (f : Nat → Bool) (l : Nat) : Fin 16 :=
  nibbleOf (f (4 * l)) (f (4 * l + 1)) (f (4 * l + 2)) (f (4 * l + 3))

/-- Four turns of the loop write a digit. -/
theorem coderStep_four (str : List UInt8) (a b c d : Bool) :
    coderStep (coderStep (coderStep (coderStep ⟨0, 0, str⟩ a) b) c) d =
      ⟨0, 0, str ++ [hexChar (nibbleOf a b c d)]⟩ := by
  cases a <;> cases b <;> cases c <;> cases d <;> rfl

theorem coderLoop_eq (f : Nat → Bool) (n : Nat) :
    coderLoop ((List.range (4 * n)).map f) =
      ⟨0, 0, (List.range n).map fun l => hexChar (nibble f l)⟩ := by
  induction n with
  | zero => rfl
  | succ n ih =>
      have split : (List.range (4 * (n + 1))).map f =
          (List.range (4 * n)).map f ++ [f (4 * n), f (4 * n + 1), f (4 * n + 2), f (4 * n + 3)] := by
        rw [Nat.mul_succ, List.range_add, List.map_append]
        rfl
      rw [split, coderLoop, List.foldl_append, ← coderLoop, ih, List.range_succ, List.map_append]
      exact coderStep_four ..

/-! ## The words -/

/-- A sign vector as a feature of the index; the angle is of no importance here. -/
def feature (v : SignVector) : Feature where
  code := (List.range 16).map (nibble v.sign)
  angle := (0, 0, 0)
  size := by rw [List.length_map, List.length_range]

/-- The 64-bit word of a sign vector. -/
def encode (v : SignVector) : BitVec 64 := (feature v).he

theorem code_eq (v : SignVector) : code v = (feature v).heString := by
  have digits := congrArg CoderState.hammingStr (coderLoop_eq v.sign 16)
  have chars : ((List.range 16).map (nibble v.sign)).map hexChar =
      (List.range 16).map fun l => hexChar (nibble v.sign l) := List.map_map
  exact digits.trans chars.symm

/-- Inside of a digit, the first position is the highest bit. -/
def flip (i : Nat) : Nat := 4 * (i / 4) + (3 - i % 4)

theorem flip_lt {i : Nat} (inside : i < 64) : flip i < 64 := by
  unfold flip
  omega

theorem flip_flip (i : Nat) : flip (flip i) = i := by
  unfold flip
  omega

def flipPerm : Equiv.Perm (Fin 64) :=
  Function.Involutive.toPerm (fun i => ⟨flip i, flip_lt i.isLt⟩) fun i => Fin.ext (flip_flip i)

theorem hexValue_nibbles (f : Nat → Bool) (n : Nat) :
    hexValue ((List.range n).map (nibble f)) = lanes 1 (4 * n) fun i => (f (flip i)).toNat := by
  induction n generalizing f with
  | zero => rfl
  | succ n ih =>
      have later : (List.range n).map (nibble f ∘ Nat.succ) =
          (List.range n).map (nibble fun i => f (i + 4)) := by
        refine List.map_congr_left fun l _ => Fin.ext ?_
        simp only [Function.comp, nibble, Nat.mul_succ, Nat.add_right_comm]
      have shifted : (fun i => (f (flip (i + 4))).toNat) = fun i => (f (flip i + 4)).toNat := by
        refine funext fun i => congrArg (fun j => (f j).toNat) ?_
        unfold flip
        omega
      rw [List.range_succ_eq_map, List.map_cons, List.map_map, later, hexValue, ih]
      show _ = (f 3).toNat + 2 * ((f 2).toNat + 2 * ((f 1).toNat + 2 * ((f 0).toNat + 2 *
        lanes 1 (4 * n) fun i => (f (flip (i + 4))).toNat)))
      rw [shifted]
      show 8 * (f 0).toNat + 4 * (f 1).toNat + 2 * (f 2).toNat + (f 3).toNat + 16 * _ = _
      omega

theorem getLsbD_encode (v : SignVector) {i : Nat} (inside : i < 64) :
    (encode v).getLsbD i = v.sign (flip i) := by
  rw [encode, Feature.he, feature, hexValue_nibbles, BitVec.getLsbD_ofNat, decide_eq_true inside,
    Bool.true_and]
  exact testBit_lanes (b := fun i => v.sign (flip i)) inside

/-- The distance of the words is the number of positions at which the vectors differ. -/
theorem countOne_encode (a b : SignVector) : countOne (encode a ^^^ encode b) = hammingDist a b := by
  have bit : ∀ i : Fin 64, ((encode a ^^^ encode b).getLsbD i).toNat =
      if a (flipPerm i) ≠ b (flipPerm i) then 1 else 0 := by
    intro i
    have sign : ∀ v : SignVector, v.sign (flip i) = v (flipPerm i) := fun v =>
      dif_pos (flip_lt i.isLt)
    rw [BitVec.getLsbD_xor, getLsbD_encode a i.isLt, getLsbD_encode b i.isLt, sign, sign]
    cases a (flipPerm i) <;> cases b (flipPerm i) <;> rfl
  rw [countOne_eq, Finset.sum_range, Finset.sum_congr rfl fun i _ => bit i,
    Equiv.sum_comp flipPerm fun i => if a i ≠ b i then 1 else 0, hammingDist,
    Finset.card_filter]

/-! ## The decoders -/

/-- `HeString2Int` with an empty pointer. The length of the string becomes an `int`; `none` is an
allocation that fails, or an access outside of the string. -/
def heString2Int (he : List UInt8) : Option (List (BitVec 64)) :=
  let heLen := (BitVec.ofNat 32 he.length).toInt
  let length := heLen.tdiv 16
  if length < 0 then none else collect (heWord he) length.toNat

theorem toInt_ofNat_eq (n : Nat) : (BitVec.ofNat 32 n).toInt =
    if 2 * (n % 2 ^ 32) < 2 ^ 32 then ((n % 2 ^ 32 : Nat) : Int) else (n % 2 ^ 32 : Nat) - 2 ^ 32 := by
  rw [BitVec.toInt_eq_toNat_cond, BitVec.toNat_ofNat]
  rfl

theorem codes_eq (vectors : List SignVector) :
    vectors.flatMap code = (vectors.map feature).flatMap Feature.heString := by
  rw [List.flatMap_map]
  exact congrArg (fun f => vectors.flatMap f) (funext code_eq)

theorem length_codes (vectors : List SignVector) :
    (vectors.flatMap code).length = 16 * vectors.length := by
  rw [codes_eq, length_flatMap_parts length_heString, List.length_map]

theorem collect_codes (vectors : List SignVector) :
    collect (heWord (vectors.flatMap code)) vectors.length = some (vectors.map encode) := by
  have features := collect_heWord (vectors.map feature)
  rw [List.length_map, List.map_map] at features
  rw [codes_eq]
  exact features

theorem length_of_collect {β : Type} {f : Nat → Option β} {n : Nat} {xs : List β}
    (ran : collect f n = some xs) : xs.length = n := by
  induction n generalizing xs with
  | zero =>
      obtain rfl := Option.some.inj ran
      rfl
  | succ n ih =>
      obtain ⟨first, collected, rest⟩ := Option.bind_eq_some_iff.mp ran
      obtain ⟨x, _, rfl⟩ := Option.map_eq_some_iff.mp rest
      rw [List.length_append, ih collected]
      rfl

/-- The words of the query are those of its vectors if the length of the string is an `int`. -/
theorem heString2Int_codes (vectors : List SignVector) :
    heString2Int (vectors.flatMap code) = some (vectors.map encode) ↔
      16 * vectors.length < 2 ^ 31 := by
  have heLen := toInt_ofNat_eq (16 * vectors.length)
  have quotient := Int.tdiv_eq_ediv (a := (BitVec.ofNat 32 (16 * vectors.length)).toInt) (b := 16)
  rw [Int.sign_eq_one_of_pos (by decide)] at quotient
  rw [heString2Int, length_codes]
  constructor
  · intro decoded
    split at decoded
    · cases decoded
    · next positive =>
        have length := length_of_collect decoded
        rw [List.length_map] at length
        omega
  · intro small
    have length : (BitVec.ofNat 32 (16 * vectors.length)).toInt.tdiv 16 = vectors.length := by
      omega
    rw [length, if_neg (by omega), Int.toNat_natCast, collect_codes]

/-- A picture of the index: its text has the codes of the vectors, and an angle for each of them. -/
structure Holds (item : BOFIndexItem) (vectors : List SignVector) : Prop where
  he : item.he = vectors.flatMap code
  angle : 3 * vectors.length ≤ item.angle.length
  short : vectors.length < 32768

theorem convertItem_codes {item : BOFIndexItem} {vectors : List SignVector}
    (holds : Holds item vectors) :
    ∃ word, convertItem item = some word ∧ word.he = vectors.map encode := by
  have short := holds.short
  have length : toShort (item.he.length / 16) = vectors.length := by
    rw [holds.he, length_codes, toShort_eq]
    omega
  have readable : (collect (angleWord item.angle) vectors.length).isSome := by
    refine collect_isSome fun j less => ?_
    have inside := holds.angle
    rw [angleWord, List.getElem?_eq_getElem (by omega), List.getElem?_eq_getElem (by omega),
      List.getElem?_eq_getElem (by omega)]
    rfl
  obtain ⟨angle, angles⟩ := Option.isSome_iff_exists.mp readable
  have sizes : angle.length = (vectors.map encode).length ∧
      (vectors.map encode).length < 2 ^ 15 := by
    rw [length_of_collect angles, List.length_map]
    exact ⟨rfl, short⟩
  refine ⟨⟨item.picId.setWidth 64, item.q, vectors.map encode, angle, sizes.1, sizes.2⟩, ?_, rfl⟩
  rw [convertItem, length, if_neg (by omega), Int.toNat_natCast, holds.he, collect_codes,
    Option.bind_some, angles, Option.bind_some, dif_pos sizes]

/-- The words of the index are those of the vectors. -/
theorem convertB2W_codes {bucket : BOFIndexBucket} {pictures : List (List SignVector)}
    (holds : List.Forall₂ Holds bucket.items pictures) :
    ∃ word, convertB2W bucket = some word ∧
      word.items.map IndexItem.he = pictures.map fun vectors => vectors.map encode := by
  have items : ∃ items, convertItems bucket.items = some items ∧
      items.map IndexItem.he = pictures.map fun vectors => vectors.map encode := by
    generalize bucket.items = texts at holds
    induction holds with
    | nil => exact ⟨[], rfl, rfl⟩
    | cons head _ ih =>
        obtain ⟨word, converted, he⟩ := convertItem_codes head
        obtain ⟨words, later, hes⟩ := ih
        refine ⟨word :: words, ?_, by rw [List.map_cons, List.map_cons, he, hes]⟩
        rw [convertItems, converted, Option.bind_some, later, Option.map_some]
  obtain ⟨items, converted, hes⟩ := items
  exact ⟨_, by rw [convertB2W, converted, Option.map_some], hes⟩

/-! ## The distance -/

/-- The return code and `similar_num`, which a call with an empty list leaves as it is. -/
def heDistance (heThreshold : Int) (similarNum : BitVec 32) (he1 he2 : List (BitVec 64)) :
    Int × BitVec 32 :=
  if he1.length = 0 ∨ he2.length = 0 then (-1, similarNum)
  else (0, Searcher.heDistance heThreshold he1 he2)

/-- The pairs within a threshold. -/
def similarPairs {α : Type*} (close : α → α → Bool) (xs ys : List α) : Nat :=
  (xs.map fun x => ys.countP fun y => close x y).sum

theorem foldl_count {α : Type*} (close : α → Bool) (xs : List α) (n : BitVec 32) :
    xs.foldl (fun n x => if close x then n + 1 else n) n = n + BitVec.ofNat 32 (xs.countP close) := by
  induction xs generalizing n with
  | nil => rw [List.foldl_nil, List.countP_nil, BitVec.add_zero]
  | cons x xs ih =>
      rw [List.foldl_cons, ih]
      by_cases here : close x
      · rw [if_pos here, List.countP_cons_of_pos here, BitVec.add_assoc, BitVec.ofNat_add,
          BitVec.add_comm (1 : BitVec 32)]
        rfl
      · rw [if_neg here, List.countP_cons_of_neg here]

/-- The two loops count the pairs. -/
theorem foldl_similarPairs {α : Type*} (close : α → α → Bool) (xs ys : List α) (n : BitVec 32) :
    xs.foldl (fun n x => ys.foldl (fun n y => if close x y then n + 1 else n) n) n =
      n + BitVec.ofNat 32 (similarPairs close xs ys) := by
  induction xs generalizing n with
  | nil => rw [similarPairs, List.foldl_nil, List.map_nil, List.sum_nil, BitVec.add_zero]
  | cons x xs ih =>
      rw [List.foldl_cons, ih, foldl_count, similarPairs, similarPairs, List.map_cons, List.sum_cons,
        BitVec.ofNat_add, BitVec.add_assoc]

/-- What `HeDistance` counts, before the count becomes an `int`. -/
theorem searcher_heDistance_eq (heThreshold : Int) (he1 he2 : List (BitVec 64)) :
    Searcher.heDistance heThreshold he1 he2 = BitVec.ofNat 32 (similarPairs (fun a b =>
      decide (countOne (a ^^^ b) ≤ (BitVec.ofInt 64 heThreshold).toNat)) he1 he2) := by
  have loops := foldl_similarPairs (fun a b : BitVec 64 =>
    decide (countOne (a ^^^ b) ≤ (BitVec.ofInt 64 heThreshold).toNat)) he1 he2 0
  simp only [decide_eq_true_eq] at loops
  exact loops.trans (BitVec.zero_add _)

theorem heDistance_eq (heThreshold : Int) (he1 he2 : List (BitVec 64)) :
    (heDistance heThreshold 0 he1 he2).2 = Searcher.heDistance heThreshold he1 he2 := by
  rw [heDistance]
  split
  · next empty =>
      rw [searcher_heDistance_eq]
      rcases empty with none' | none'
      · rw [List.eq_nil_of_length_eq_zero none']
        rfl
      · rw [List.eq_nil_of_length_eq_zero none', similarPairs]
        simp
  · rfl

theorem similarPairs_map {α β : Type*} (close : β → β → Bool) (f : α → β) (xs ys : List α) :
    similarPairs close (xs.map f) (ys.map f) = similarPairs (fun x y => close (f x) (f y)) xs ys := by
  unfold similarPairs
  rw [List.map_map]
  refine congrArg List.sum (List.map_congr_left fun x _ => ?_)
  exact List.countP_map ..

/-- The pairs of vectors that differ in at most `threshold` positions. -/
def closePairs (threshold : Nat) (xs ys : List SignVector) : Nat :=
  similarPairs (fun x y => decide (hammingDist x y ≤ threshold)) xs ys

theorem heDistance_codes {threshold : Nat} (small : threshold ≤ 64) (xs ys : List SignVector) :
    (heDistance threshold 0 (xs.map encode) (ys.map encode)).2 =
      BitVec.ofNat 32 (closePairs threshold xs ys) := by
  have exact' : (BitVec.ofInt 64 (threshold : Int)).toNat = threshold := by
    rw [BitVec.ofInt_natCast, BitVec.toNat_ofNat]
    omega
  rw [heDistance_eq, searcher_heDistance_eq, similarPairs_map, exact', closePairs]
  simp only [countOne_encode]

theorem toInt_ofNat_iff (n : Nat) : (BitVec.ofNat 32 n).toInt = n ↔ n < 2 ^ 31 := by
  have value := toInt_ofNat_eq n
  omega

/-- The coder writes the code of the signs. The index and the query decode it to the same words, and
the distance of the words counts the pairs of vectors that are close, as far as an `int` counts. -/
theorem matches_exact {F : Type*} [Zero F] [Add F] [Mul F] [LT F] [DecidableLT F] :
    (∀ (oneDescriptor : Nat → F) (out : Nat → Nat → F) (cols : Nat) (median : Nat → F),
      hammingCoder 64 oneDescriptor out cols median =
        code fun j => decide (project oneDescriptor out cols j < median j)) ∧
    ∀ (bucket : BOFIndexBucket) (pictures : List (List SignVector)) (query : List SignVector),
      List.Forall₂ Holds bucket.items pictures → 16 * query.length < 2 ^ 31 →
        ∃ word queryHe, convertB2W bucket = some word ∧
          word.items.map IndexItem.he = pictures.map (fun vectors => vectors.map encode) ∧
          heString2Int (query.flatMap code) = some queryHe ∧ queryHe = query.map encode ∧
          ∀ vectors ∈ pictures, ∀ threshold ≤ 64, closePairs threshold vectors query < 2 ^ 31 →
            (heDistance threshold 0 (vectors.map encode) queryHe).2.toInt =
              closePairs threshold vectors query := by
  refine ⟨hammingCoder_eq, fun bucket pictures query holds small => ?_⟩
  obtain ⟨word, converted, hes⟩ := convertB2W_codes holds
  refine ⟨word, _, converted, hes, (heString2Int_codes query).mpr small, rfl, ?_⟩
  intro vectors _ threshold bound few
  rw [heDistance_codes bound]
  exact (toInt_ofNat_iff _).mpr few

/-- Two vectors that differ in one position, at a threshold of 0 and of 1. -/
def leftVector : SignVector := fun _ => true

def rightVector : SignVector := fun i => i != 5

theorem matches_exact_pair :
    ∃ word queryHe, convertB2W ⟨7, [⟨1, 0, code leftVector, [48, 49, 50]⟩]⟩ = some word ∧
      heString2Int (code rightVector) = some queryHe ∧
      word.items.map IndexItem.he = [[encode leftVector]] ∧
      (heDistance 0 0 [encode leftVector] queryHe).2.toInt = 0 ∧
      (heDistance 1 0 [encode leftVector] queryHe).2.toInt = 1 := by
  have text : ∀ v, [v].flatMap code = code v := fun v => List.flatMap_singleton ..
  have item : Holds ⟨1, 0, code leftVector, [48, 49, 50]⟩ [leftVector] :=
    { he := by rw [text]
      angle := Nat.le_refl 3
      short := by decide }
  have holds : List.Forall₂ Holds [⟨1, 0, code leftVector, [48, 49, 50]⟩] [[leftVector]] :=
    List.Forall₂.cons item List.Forall₂.nil
  obtain ⟨word, queryHe, converted, hes, decoded, _, counts⟩ :=
    (matches_exact (F := ℚ)).2 ⟨7, _⟩ _ [rightVector] holds (by decide)
  have none' : closePairs 0 [leftVector] [rightVector] = 0 := by decide +kernel
  have one : closePairs 1 [leftVector] [rightVector] = 1 := by decide +kernel
  have far := counts [leftVector] (List.mem_singleton_self _) 0 (by decide) (by rw [none']; decide)
  have near := counts [leftVector] (List.mem_singleton_self _) 1 (by decide) (by rw [one]; decide)
  rw [none'] at far
  rw [one] at near
  rw [text] at decoded
  exact ⟨word, queryHe, converted, decoded, hes, far, near⟩

theorem closePairs_replicate (v : SignVector) (threshold m n : Nat) :
    closePairs threshold (List.replicate m v) (List.replicate n v) = m * n := by
  have here : decide (hammingDist v v ≤ threshold) = true := by
    rw [hammingDist_self]
    exact decide_eq_true (Nat.zero_le _)
  have row : (List.replicate n v).countP (fun y => decide (hammingDist v y ≤ threshold)) = n := by
    rw [List.countP_replicate, if_pos here]
  rw [closePairs, similarPairs, List.map_replicate, row, List.sum_replicate, smul_eq_mul]

/-- The count is an `int`, and so is the length of the string of a query: too many equal vectors
are counted wrong, or not decoded at all. -/
theorem matches_overflow :
    ((List.replicate 32767 leftVector).length < 32768 ∧
      (heDistance 0 0 ((List.replicate 32767 leftVector).map encode)
        ((List.replicate 65540 leftVector).map encode)).2.toInt ≠
          closePairs 0 (List.replicate 32767 leftVector) (List.replicate 65540 leftVector)) ∧
      heString2Int ((List.replicate (2 ^ 27) leftVector).flatMap code) ≠
        some ((List.replicate (2 ^ 27) leftVector).map encode) := by
  refine ⟨⟨by rw [List.length_replicate]; decide, fun same => ?_⟩, fun same => ?_⟩
  · have counted := heDistance_codes (Nat.zero_le 64) (List.replicate 32767 leftVector)
      (List.replicate 65540 leftVector)
    have few := (toInt_ofNat_iff _).mp ((congrArg BitVec.toInt counted).symm.trans same)
    rw [closePairs_replicate] at few
    exact absurd few (by decide)
  · rw [heString2Int_codes, List.length_replicate] at same
    exact absurd same (by decide)

end MlsImgSearch.BofCore.HammingEmbedding
