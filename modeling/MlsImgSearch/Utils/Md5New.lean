import MlsImgSearch.Utils.Md5
import MlsImgSearch.Blitz.HttpCommon

/-!
# The class `MD5`

A second implementation of the digest, which counts bits where the other one
counts bytes. An object takes pieces, is finalized once, and shows its digest
from then on whatever is done to it later. The hash of a key on the ring of the
selectors is a prefix of that text, read as a number again.
-/

namespace MlsImgSearch.Utils.Md5New

open Lib.Bytes Lib.BlockStream Blitz.HttpCommon
open Utils.Md5 (Word State Reg Row memcpy byteAt hex2 hexDigit Waiting absorbed digestOf md5Process
  absorb_take_add)

/-! ## The code -/

def F (x y z : Word) : Word := x &&& y ||| ~~~x &&& z

def G (x y z : Word) : Word := x &&& z ||| y &&& ~~~z

def H (x y z : Word) : Word := x ^^^ y ^^^ z

def I (x y z : Word) : Word := y ^^^ (x ||| ~~~z)

def rotateLeft (x : Word) (n : Nat) : Word := (x <<< n) ||| (x >>> (32 - n))

/-- `FF`, `GG`, `HH` and `II` differ in the function of their round. -/
def stepOf (f : Word → Word → Word → Word) (x : List Word) (w : State) (r : Row) : State :=
  w.set r.a (rotateLeft (w.get r.a + f (w.get r.b) (w.get r.c) (w.get r.d) + x.getD r.k 0 + r.t) r.s
    + w.get r.b)

def FF := stepOf F

def GG := stepOf G

def HH := stepOf H

def II := stepOf I

def S11 := 7
def S12 := 12
def S13 := 17
def S14 := 22
def S21 := 5
def S22 := 9
def S23 := 14
def S24 := 20
def S31 := 4
def S32 := 11
def S33 := 16
def S34 := 23
def S41 := 6
def S42 := 10
def S43 := 15
def S44 := 21

def round1 : List Row := [
  ⟨.A, .B, .C, .D, 0, S11, 0xd76aa478⟩,
  ⟨.D, .A, .B, .C, 1, S12, 0xe8c7b756⟩,
  ⟨.C, .D, .A, .B, 2, S13, 0x242070db⟩,
  ⟨.B, .C, .D, .A, 3, S14, 0xc1bdceee⟩,
  ⟨.A, .B, .C, .D, 4, S11, 0xf57c0faf⟩,
  ⟨.D, .A, .B, .C, 5, S12, 0x4787c62a⟩,
  ⟨.C, .D, .A, .B, 6, S13, 0xa8304613⟩,
  ⟨.B, .C, .D, .A, 7, S14, 0xfd469501⟩,
  ⟨.A, .B, .C, .D, 8, S11, 0x698098d8⟩,
  ⟨.D, .A, .B, .C, 9, S12, 0x8b44f7af⟩,
  ⟨.C, .D, .A, .B, 10, S13, 0xffff5bb1⟩,
  ⟨.B, .C, .D, .A, 11, S14, 0x895cd7be⟩,
  ⟨.A, .B, .C, .D, 12, S11, 0x6b901122⟩,
  ⟨.D, .A, .B, .C, 13, S12, 0xfd987193⟩,
  ⟨.C, .D, .A, .B, 14, S13, 0xa679438e⟩,
  ⟨.B, .C, .D, .A, 15, S14, 0x49b40821⟩]

def round2 : List Row := [
  ⟨.A, .B, .C, .D, 1, S21, 0xf61e2562⟩,
  ⟨.D, .A, .B, .C, 6, S22, 0xc040b340⟩,
  ⟨.C, .D, .A, .B, 11, S23, 0x265e5a51⟩,
  ⟨.B, .C, .D, .A, 0, S24, 0xe9b6c7aa⟩,
  ⟨.A, .B, .C, .D, 5, S21, 0xd62f105d⟩,
  ⟨.D, .A, .B, .C, 10, S22, 0x2441453⟩,
  ⟨.C, .D, .A, .B, 15, S23, 0xd8a1e681⟩,
  ⟨.B, .C, .D, .A, 4, S24, 0xe7d3fbc8⟩,
  ⟨.A, .B, .C, .D, 9, S21, 0x21e1cde6⟩,
  ⟨.D, .A, .B, .C, 14, S22, 0xc33707d6⟩,
  ⟨.C, .D, .A, .B, 3, S23, 0xf4d50d87⟩,
  ⟨.B, .C, .D, .A, 8, S24, 0x455a14ed⟩,
  ⟨.A, .B, .C, .D, 13, S21, 0xa9e3e905⟩,
  ⟨.D, .A, .B, .C, 2, S22, 0xfcefa3f8⟩,
  ⟨.C, .D, .A, .B, 7, S23, 0x676f02d9⟩,
  ⟨.B, .C, .D, .A, 12, S24, 0x8d2a4c8a⟩]

def round3 : List Row := [
  ⟨.A, .B, .C, .D, 5, S31, 0xfffa3942⟩,
  ⟨.D, .A, .B, .C, 8, S32, 0x8771f681⟩,
  ⟨.C, .D, .A, .B, 11, S33, 0x6d9d6122⟩,
  ⟨.B, .C, .D, .A, 14, S34, 0xfde5380c⟩,
  ⟨.A, .B, .C, .D, 1, S31, 0xa4beea44⟩,
  ⟨.D, .A, .B, .C, 4, S32, 0x4bdecfa9⟩,
  ⟨.C, .D, .A, .B, 7, S33, 0xf6bb4b60⟩,
  ⟨.B, .C, .D, .A, 10, S34, 0xbebfbc70⟩,
  ⟨.A, .B, .C, .D, 13, S31, 0x289b7ec6⟩,
  ⟨.D, .A, .B, .C, 0, S32, 0xeaa127fa⟩,
  ⟨.C, .D, .A, .B, 3, S33, 0xd4ef3085⟩,
  ⟨.B, .C, .D, .A, 6, S34, 0x4881d05⟩,
  ⟨.A, .B, .C, .D, 9, S31, 0xd9d4d039⟩,
  ⟨.D, .A, .B, .C, 12, S32, 0xe6db99e5⟩,
  ⟨.C, .D, .A, .B, 15, S33, 0x1fa27cf8⟩,
  ⟨.B, .C, .D, .A, 2, S34, 0xc4ac5665⟩]

def round4 : List Row := [
  ⟨.A, .B, .C, .D, 0, S41, 0xf4292244⟩,
  ⟨.D, .A, .B, .C, 7, S42, 0x432aff97⟩,
  ⟨.C, .D, .A, .B, 14, S43, 0xab9423a7⟩,
  ⟨.B, .C, .D, .A, 5, S44, 0xfc93a039⟩,
  ⟨.A, .B, .C, .D, 12, S41, 0x655b59c3⟩,
  ⟨.D, .A, .B, .C, 3, S42, 0x8f0ccc92⟩,
  ⟨.C, .D, .A, .B, 10, S43, 0xffeff47d⟩,
  ⟨.B, .C, .D, .A, 1, S44, 0x85845dd1⟩,
  ⟨.A, .B, .C, .D, 8, S41, 0x6fa87e4f⟩,
  ⟨.D, .A, .B, .C, 15, S42, 0xfe2ce6e0⟩,
  ⟨.C, .D, .A, .B, 6, S43, 0xa3014314⟩,
  ⟨.B, .C, .D, .A, 13, S44, 0x4e0811a1⟩,
  ⟨.A, .B, .C, .D, 4, S41, 0xf7537e82⟩,
  ⟨.D, .A, .B, .C, 11, S42, 0xbd3af235⟩,
  ⟨.C, .D, .A, .B, 2, S43, 0x2ad7d2bb⟩,
  ⟨.B, .C, .D, .A, 9, S44, 0xeb86d391⟩]

/-- `decode` of `4 * n` bytes. -/
def decode (input : List UInt8) (n : Nat) : List Word :=
  (List.range n).map fun i => byteAt input (4 * i) ||| byteAt input (4 * i + 1) <<< 8 |||
    byteAt input (4 * i + 2) <<< 16 ||| byteAt input (4 * i + 3) <<< 24

def encode (input : List Word) : List UInt8 :=
  input.flatMap fun (n : Word) => [UInt8.ofNat (n &&& 0xff).toNat, UInt8.ofNat (n >>> 8 &&& 0xff).toNat,
    UInt8.ofNat (n >>> 16 &&& 0xff).toNat, UInt8.ofNat (n >>> 24 &&& 0xff).toNat]

def transform (state : State) (block : List UInt8) : State :=
  let x := decode block 16
  let w := round1.foldl (FF x) state
  let w := round2.foldl (GG x) w
  let w := round3.foldl (HH x) w
  let w := round4.foldl (II x) w
  ⟨state.A + w.A, state.B + w.B, state.C + w.C, state.D + w.D⟩

/-- An object of the class. -/
structure MD5 where
  finalized : Bool
  buffer : List UInt8
  count0 : Word
  count1 : Word
  state : State
  digest : List UInt8
  deriving DecidableEq, Repr

/-- The constructor calls `init`; buffer and digest keep what stood there. -/
def init (junk : Nat → UInt8) : MD5 :=
  ⟨false, malloc junk 64, 0, 0, ⟨0x67452301, 0xefcdab89, 0x98badcfe, 0x10325476⟩, malloc junk 16⟩

/-- `for (i = firstpart; i + blocksize <= length; i += blocksize)`: the sum wraps at 32 bits. -/
def transformLoop (input : List UInt8) (length : Word) : Nat → State → Word →
    Option (State × Word)
  | 0, _, _ => none
  | fuel + 1, state, i =>
      if i + 64 ≤ length then
        if i.toNat + 64 ≤ input.length then
          transformLoop input length fuel (transform state ((input.drop i.toNat).take 64)) (i + 64)
        else none -- reads past the input
      else some (state, i)

def update (m : MD5) (input : List UInt8) (length : Word) : Option MD5 :=
  let index := m.count0 / 8 % 64
  let count0 := m.count0 + (length <<< 3)
  let count1 := if count0 < length <<< 3 then m.count1 + 1 else m.count1
  let count1 := count1 + (length >>> 29)
  let firstpart := 64 - index
  if firstpart ≤ length then do
    let buffer ← memcpy m.buffer index.toNat input firstpart.toNat
    let (state, i) ←
      transformLoop input length (length.toNat + 1) (transform m.state buffer) firstpart
    let buffer ← memcpy buffer 0 (input.drop i.toNat) (length - i).toNat
    some { m with count0 := count0, count1 := count1, state := state, buffer := buffer }
  else do
    let buffer ← memcpy m.buffer index.toNat input length.toNat
    some { m with count0 := count0, count1 := count1, buffer := buffer }

/-- The static array `padding`. -/
def padding : List UInt8 := 0x80 :: List.replicate 63 0

def finalize (m : MD5) : Option MD5 :=
  if m.finalized then some m
  else do
    let bits := encode [m.count0, m.count1]
    let index := m.count0 / 8 % 64
    let padLen := if index < 56 then 56 - index else 120 - index
    let m ← update m padding padLen
    let m ← update m bits 8
    some { m with
      digest := encode [m.state.A, m.state.B, m.state.C, m.state.D]
      buffer := List.replicate 64 0
      count0 := 0
      count1 := 0
      finalized := true }

def hexdigest (m : MD5) : List UInt8 :=
  if m.finalized then (m.digest.take 16).flatMap hex2 else []

/-- What a caller does to an object. -/
inductive Call where
  | update (piece : List UInt8)
  | finalize
  deriving DecidableEq, Repr

def Call.apply (m : MD5) : Call → Option MD5
  | .update piece => Md5New.update m piece (BitVec.ofNat 32 piece.length)
  | .finalize => Md5New.finalize m

def run : MD5 → List Call → Option MD5
  | m, [] => some m
  | m, call :: calls => (call.apply m).bind fun m => run m calls

/-- The function `md5`: the text of an object that was made for a string. -/
def md5 (junk : Nat → UInt8) (str : List UInt8) : Option (List UInt8) :=
  (run (init junk) [.update str, .finalize]).map hexdigest

/-- `GetIntValueFirstN` of the selectors; more than 32 digits are not there. -/
def getIntValueFirstN (junk : Nat → UInt8) (key : List UInt8) (n : Nat) : Option Word :=
  (md5 junk key).bind fun text =>
    if text.length ≠ 32 then some 0
    else if n ≤ 32 then some (BitVec.ofInt 32 (strtol 16 (48 :: 120 :: text.take n))) else none

/-! ## One transformation -/

theorem F_eq (x y z : Word) : Md5.F₁ x y z = F x y z := by
  apply BitVec.eq_of_getElem_eq
  intro i _
  simp only [Md5.F₁, F, BitVec.getElem_xor, BitVec.getElem_and, BitVec.getElem_or,
    BitVec.getElem_not]
  cases x[i] <;> cases y[i] <;> cases z[i] <;> rfl

theorem G_eq (x y z : Word) : Md5.F₂ x y z = G x y z := by
  apply BitVec.eq_of_getElem_eq
  intro i _
  simp only [Md5.F₂, G, BitVec.getElem_xor, BitVec.getElem_and, BitVec.getElem_or,
    BitVec.getElem_not]
  cases x[i] <;> cases y[i] <;> cases z[i] <;> rfl

theorem rotateLeft_eq (x : Word) (n : Nat) : Md5.S x n = rotateLeft x n := by
  have masked : x &&& 0xFFFFFFFF = x := BitVec.and_allOnes
  rw [Md5.S, masked, rotateLeft]

/-- The sums of a step are taken in another order. -/
theorem stepOf_eq {f g : Word → Word → Word → Word} (same : ∀ x y z, f x y z = g x y z) :
    Md5.P f = stepOf g := by
  funext x w r
  rw [Md5.P, stepOf, rotateLeft_eq, same, ← BitVec.add_assoc, ← BitVec.add_assoc]

/-- Both implementations make the same of a block. -/
theorem transform_eq : transform = md5Process := by
  funext state block
  have words : decode block 16 = (List.range 16).map fun i => Md5.getUint32 block (4 * i) := rfl
  have first : Md5.round₁ = round1 := rfl
  have second : Md5.round₂ = round2 := rfl
  have third : Md5.round₃ = round3 := rfl
  have fourth : Md5.round₄ = round4 := rfl
  rw [transform, md5Process, ← words, stepOf_eq F_eq, stepOf_eq G_eq,
    stepOf_eq (f := Md5.F₃) (g := H) (fun _ _ _ => rfl),
    stepOf_eq (f := Md5.F₄) (g := I) (fun _ _ _ => rfl), first, second, third, fourth]
  rfl

theorem encode_word (n : Word) : encode [n] = Md5.putUint32 n := by
  have low (m : Word) : UInt8.ofNat (m &&& 0xff).toNat = UInt8.ofNat m.toNat := by
    rw [BitVec.toNat_and, show (0xff : Word).toNat = 2 ^ 8 - 1 by rfl, Nat.and_two_pow_sub_one_eq_mod]
    apply UInt8.toNat_inj.mp
    rw [UInt8.toNat_ofNat', UInt8.toNat_ofNat', Nat.mod_mod]
  simp only [encode, List.flatMap_cons, List.flatMap_nil, List.append_nil, low, Md5.putUint32]

theorem encode_cons (n : Word) (rest : List Word) :
    encode (n :: rest) = Md5.putUint32 n ++ encode rest := by
  rw [← encode_word]
  simp [encode]

/-! ## One call -/

/-- An object that stands where `s` does after `n` bytes. -/
structure Holds (m : MD5) (s : Absorbed State UInt8) (n : Nat) : Prop where
  waiting : Waiting m.state m.buffer s
  pending : s.pending.length = n % 64
  total : m.count0.toNat + 2 ^ 32 * m.count1.toNat = 8 * n % 2 ^ 64

theorem Holds.index {m : MD5} {s : Absorbed State UInt8} {n : Nat} (held : Holds m s n) :
    (m.count0 / 8 % 64).toNat = n % 64 := by
  have total := held.total
  have bound := m.count0.isLt
  have divided : (m.count0 / 8 % 64).toNat = m.count0.toNat / 8 % 64 := by
    rw [BitVec.toNat_umod, BitVec.toNat_udiv]
    rfl
  omega

/-- The carry between the two words of the count. -/
theorem total_add {count0 count1 : Word} (length : Word) {n : Nat}
    (total : count0.toNat + 2 ^ 32 * count1.toNat = 8 * n % 2 ^ 64) :
    (count0 + (length <<< 3)).toNat + 2 ^ 32 * ((if count0 + (length <<< 3) < length <<< 3 then
        count1 + 1 else count1) + (length >>> 29)).toNat = 8 * (n + length.toNat) % 2 ^ 64 := by
  have low := count0.isLt
  have high := count1.isLt
  have added := length.isLt
  -- the low 29 bits of the length go into the low word, the others into the high one
  obtain ⟨q, r, small, split⟩ : ∃ q r, r < 2 ^ 29 ∧ length.toNat = 2 ^ 29 * q + r :=
    ⟨length.toNat / 2 ^ 29, length.toNat % 2 ^ 29, Nat.mod_lt _ (by decide),
      (Nat.div_add_mod ..).symm⟩
  have shifted : (length <<< 3).toNat = 8 * r := by
    rw [BitVec.toNat_shiftLeft, Nat.shiftLeft_eq]
    omega
  have upper : (length >>> 29).toNat = q := by
    rw [BitVec.toNat_ushiftRight, Nat.shiftRight_eq_div_pow]
    omega
  have sum : (count0 + (length <<< 3)).toNat = (count0.toNat + 8 * r) % 2 ^ 32 := by
    rw [BitVec.toNat_add, shifted]
  by_cases carry : count0 + (length <<< 3) < length <<< 3
  · have wrapped := BitVec.lt_def.mp carry
    rw [sum, shifted] at wrapped
    have carried : ((count1 + 1 : Word) + (length >>> 29)).toNat = (count1.toNat + 1 + q) % 2 ^ 32 := by
      rw [BitVec.toNat_add, BitVec.toNat_add, upper, Nat.mod_add_mod]
      rfl
    rw [if_pos carry, sum, carried, split]
    omega
  · have plain : ¬ (count0.toNat + 8 * r) % 2 ^ 32 < 8 * r := by
      rw [← sum, ← shifted]
      exact fun less => carry (BitVec.lt_def.mpr less)
    have carried : (count1 + (length >>> 29)).toNat = (count1.toNat + q) % 2 ^ 32 := by
      rw [BitVec.toNat_add, upper]
    rw [if_neg carry, sum, carried, split]
    omega

/-- The loop over the whole blocks; its index does not wrap while the length leaves room. -/
theorem transformLoop_spec {input : List UInt8} {length i : Word} {fuel : Nat} {state : State}
    {buffer : List UInt8} {s : Absorbed State UInt8}
    (waiting : Waiting state buffer (absorb 64 md5Process s (input.take i.toNat)))
    (aligned : (absorb 64 md5Process s (input.take i.toNat)).pending = [])
    (inside : length.toNat ≤ input.length) (room : length.toNat + 64 < 2 ^ 32)
    (reached : i.toNat ≤ length.toNat) (enough : length.toNat - i.toNat < fuel) :
    ∃ state' i', transformLoop input length fuel state i = some (state', i') ∧
      i'.toNat ≤ length.toNat ∧ length.toNat < i'.toNat + 64 ∧
      (absorb 64 md5Process s (input.take i'.toNat)).pending = [] ∧
      Waiting state' buffer (absorb 64 md5Process s (input.take i'.toNat)) := by
  induction fuel generalizing state i with
  | zero => exact absurd enough (Nat.not_lt_zero _)
  | succ fuel ih =>
      have next : (i + 64).toNat = i.toNat + 64 := by
        rw [BitVec.toNat_add]
        exact Nat.mod_eq_of_lt (show i.toNat + 64 < 2 ^ 32 by omega)
      have bound : i + 64 ≤ length ↔ i.toNat + 64 ≤ length.toNat := by rw [BitVec.le_def, next]
      unfold transformLoop
      by_cases more : i.toNat + 64 ≤ length.toNat
      · rw [if_pos (bound.mpr more), if_pos (by omega), transform_eq]
        obtain ⟨aligned', waits⟩ := waiting.block aligned (input.drop i.toNat)
          (by rw [List.length_drop]; omega)
        rw [absorb_take_add, ← next] at aligned' waits
        exact ih waits aligned' (by omega) (by omega)
      · rw [if_neg (fun le => more (bound.mp le))]
        exact ⟨state, i, rfl, reached, by omega, aligned, waiting⟩

/-- One piece is taken, whether the object is finalized or not. -/
theorem Holds.update {m : MD5} {s : Absorbed State UInt8} {n : Nat} (held : Holds m s n)
    (input : List UInt8) (length : Word) (inside : length.toNat ≤ input.length)
    (room : length.toNat + 64 < 2 ^ 32) :
    ∃ m', Md5New.update m input length = some m' ∧
      Holds m' (absorb 64 md5Process s (input.take length.toNat)) (n + length.toNat) ∧
      m'.finalized = m.finalized ∧ m'.digest = m.digest := by
  have below := held.waiting.room
  have pending := held.pending
  have index : (m.count0 / 8 % 64).toNat = s.pending.length := held.index.trans pending.symm
  have firstpart : (64 - m.count0 / 8 % 64 : Word).toNat = 64 - s.pending.length := by
    rw [BitVec.toNat_sub_of_le (BitVec.le_def.mpr (by rw [index]; exact Nat.le_of_lt below)), index]
    rfl
  have reached : 64 - m.count0 / 8 % 64 ≤ length ↔ 64 - s.pending.length ≤ length.toNat := by
    rw [BitVec.le_def, firstpart]
  have total := total_add length held.total
  have taken : (input.take length.toNat).length = length.toNat := List.length_take_of_le inside
  have pending' : (absorb 64 md5Process s (input.take length.toNat)).pending.length =
      (n + length.toNat) % 64 := by
    rw [length_pending below, taken, pending, Nat.mod_add_mod]
  unfold Md5New.update
  dsimp only
  by_cases fills : 64 - s.pending.length ≤ length.toNat
  · rw [if_pos (reached.mpr fills), index, firstpart]
    obtain ⟨buffer₁, copied, aligned, waits⟩ := held.waiting.fill
      (n := 64 - s.pending.length) input (by omega) (by omega)
    rw [← firstpart] at aligned waits
    obtain ⟨state₂, i, looped, before, small, aligned₂, waits₂⟩ := transformLoop_spec waits aligned
      inside room (by rw [firstpart]; exact fills) (Nat.lt_succ_of_le (Nat.sub_le _ _))
    have rest : (length - i).toNat = length.toNat - i.toNat :=
      BitVec.toNat_sub_of_le (BitVec.le_def.mpr before)
    obtain ⟨buffer₃, stored, waits₃⟩ := waits₂.store (n := length.toNat - i.toNat)
      (input.drop i.toNat) (by rw [List.length_drop]; omega)
      (by rw [aligned₂, List.length_nil]; omega)
    rw [absorb_take_add, Nat.add_sub_cancel' before] at waits₃
    rw [aligned₂, List.length_nil] at stored
    rw [copied, Option.bind_eq_bind, Option.bind_some, transform_eq, looped, Option.bind_eq_bind,
      Option.bind_some]
    dsimp only
    rw [rest, stored]
    exact ⟨_, rfl, ⟨waits₃, pending', total⟩, rfl, rfl⟩
  · rw [if_neg (fun le => fills (reached.mp le)), index]
    obtain ⟨buffer₁, stored, waits⟩ := held.waiting.store (n := length.toNat) input inside
      (by omega)
    rw [stored]
    exact ⟨_, rfl, ⟨waits, pending', total⟩, rfl, rfl⟩

/-! ## Whole runs -/

/-- An object that has taken `msg` and is not finalized. -/
structure Open (m : MD5) (msg : List UInt8) : Prop where
  holds : Holds m (absorbed msg) msg.length
  fresh : m.finalized = false

/-- An object that shows `text`; it still stands somewhere. -/
structure Closed (m : MD5) (text : List UInt8) : Prop where
  holds : ∃ s n, Holds m s n
  done : m.finalized = true
  shows : hexdigest m = text

theorem Open.start (junk : Nat → UInt8) : Open (init junk) [] := by
  constructor
  · exact ⟨⟨rfl, length_malloc junk 64, rfl, Nat.zero_lt_succ 63⟩, rfl, rfl⟩
  · rfl

theorem Open.update {m : MD5} {msg piece : List UInt8} (opened : Open m msg)
    (short : piece.length + 64 < 2 ^ 32) :
    ∃ m', Call.apply m (.update piece) = some m' ∧ Open m' (msg ++ piece) := by
  have length : (BitVec.ofNat 32 piece.length).toNat = piece.length := by
    rw [BitVec.toNat_ofNat, Nat.mod_eq_of_lt (by omega)]
  obtain ⟨m', updated, holds, same, _⟩ := opened.holds.update piece
    (BitVec.ofNat 32 piece.length) (le_of_eq length) (by rw [length]; exact short)
  rw [length, List.take_length, ← Md5.absorbed_append, ← List.length_append] at holds
  exact ⟨m', updated, holds, same.trans opened.fresh⟩

/-- Finalizing appends the padding and the number of bits. -/
theorem Open.finalize {m : MD5} {msg : List UInt8} (opened : Open m msg) :
    ∃ m', Md5New.finalize m = some m' ∧ Closed m' ((digestOf msg).flatMap hex2) := by
  have count := opened.holds.index
  have bits : encode [m.count0, m.count1] = leBytes 8 (8 * msg.length) := by
    rw [encode_cons, encode_word]
    exact Md5.putUint32_pair opened.holds.total
  unfold Md5New.finalize
  rw [if_neg (by rw [opened.fresh]; exact Bool.false_ne_true)]
  have small := Md5.padn_le count
  obtain ⟨m₁, padding, holds₁, _, _⟩ := opened.holds.update padding _ small (by
    have size : Md5.md5Padding.length = 64 := rfl
    omega)
  obtain ⟨m₂, appended, holds₂, _, _⟩ := holds₁.update (encode [m.count0, m.count1]) 8
    (Nat.le_refl 8) (by decide)
  have eight : (8 : Word).toNat = (leBytes 8 (8 * msg.length)).length := (length_leBytes 8 _).symm
  have chain : m₂.state = (absorbed (Md5.padded msg)).chain := by
    rw [holds₂.waiting.chain, ← Md5.absorbed_append, ← Md5.absorbed_append, bits, eight,
      List.take_length, ← Md5.padded_eq (Md5.padn_eq count)]
    rfl
  have digest : encode [m₂.state.A, m₂.state.B, m₂.state.C, m₂.state.D] = digestOf msg := by
    rw [encode_cons, encode_cons, encode_cons, encode_word, chain, digestOf, Md5.digestBytes]
    simp only [List.append_assoc]
  simp only [padding, Option.bind_eq_bind, Option.bind_some, appended]
  refine ⟨_, rfl, ⟨⟨m₂.state, []⟩, 0, ⟨rfl, List.length_replicate, rfl, Nat.zero_lt_succ 63⟩, rfl, rfl⟩,
    rfl, ?_⟩
  rw [hexdigest, if_pos rfl, digest]
  rfl

/-- Nothing that is done to a finalized object changes its text. -/
theorem Closed.apply {m : MD5} {text : List UInt8} (closed : Closed m text) (call : Call)
    (short : ∀ piece, call = .update piece → piece.length + 64 < 2 ^ 32) :
    ∃ m', call.apply m = some m' ∧ Closed m' text := by
  cases call with
  | update piece =>
      obtain ⟨s, n, holds⟩ := closed.holds
      have length : (BitVec.ofNat 32 piece.length).toNat = piece.length := by
        rw [BitVec.toNat_ofNat, Nat.mod_eq_of_lt (by have := short piece rfl; omega)]
      obtain ⟨m', updated, holds', same, digest⟩ := holds.update piece
        (BitVec.ofNat 32 piece.length) (le_of_eq length) (by rw [length]; exact short piece rfl)
      refine ⟨m', updated, ⟨_, _, holds'⟩, same.trans closed.done, ?_⟩
      rw [← closed.shows, hexdigest, hexdigest, same, digest]
  | finalize => exact ⟨m, if_pos closed.done, closed⟩

/-- The bytes that are handed over before the object is finalized. -/
def message : List Call → List UInt8
  | [] => []
  | .update piece :: calls => piece ++ message calls
  | .finalize :: _ => []

theorem Closed.run {m : MD5} {text : List UInt8} (closed : Closed m text) {calls : List Call}
    (short : ∀ piece, .update piece ∈ calls → piece.length + 64 < 2 ^ 32) :
    ∃ m', Md5New.run m calls = some m' ∧ Closed m' text := by
  induction calls generalizing m with
  | nil => exact ⟨m, rfl, closed⟩
  | cons call calls ih =>
      obtain ⟨m₁, applied, closed₁⟩ := closed.apply call fun piece same =>
        short piece (same ▸ List.mem_cons_self)
      obtain ⟨m₂, ran, closed₂⟩ := ih closed₁ fun piece member =>
        short piece (List.mem_cons_of_mem _ member)
      exact ⟨m₂, by rw [Md5New.run, applied, Option.bind_some, ran], closed₂⟩

theorem Open.run {m : MD5} {msg : List UInt8} (opened : Open m msg) (calls : List Call)
    (short : ∀ piece, .update piece ∈ calls → piece.length + 64 < 2 ^ 32) :
    ∃ m', Md5New.run m calls = some m' ∧ hexdigest m' =
      if .finalize ∈ calls then (digestOf (msg ++ message calls)).flatMap hex2 else [] := by
  induction calls generalizing m msg with
  | nil =>
      refine ⟨m, rfl, ?_⟩
      rw [hexdigest, opened.fresh, if_neg Bool.false_ne_true, if_neg List.not_mem_nil]
  | cons call calls ih =>
      have later : ∀ piece, .update piece ∈ calls → piece.length + 64 < 2 ^ 32 :=
        fun piece member => short piece (List.mem_cons_of_mem _ member)
      cases call with
      | update piece =>
          obtain ⟨m₁, updated, opened₁⟩ := opened.update (short piece List.mem_cons_self)
          obtain ⟨m₂, ran, shown⟩ := ih opened₁ later
          refine ⟨m₂, by rw [Md5New.run, updated, Option.bind_some, ran], ?_⟩
          have same : Call.finalize ∈ Call.update piece :: calls ↔ Call.finalize ∈ calls := by simp
          rw [shown, message, List.append_assoc]
          simp only [same]
      | finalize =>
          obtain ⟨m₁, finalized, closed⟩ := opened.finalize
          obtain ⟨m₂, ran, closed₂⟩ := closed.run later
          refine ⟨m₂, by rw [Md5New.run, Call.apply, finalized, Option.bind_some, ran], ?_⟩
          rw [closed₂.shows, if_pos List.mem_cons_self, message, List.append_nil]

/-- Whatever is done to an object, its text is empty before it is finalized, and from then on it is
the text that the other implementation prints for the bytes handed over until then. -/
theorem run_hexdigest (junk junk' : Nat → UInt8) (calls : List Call)
    (short : ∀ piece, .update piece ∈ calls → piece.length + 64 < 2 ^ 32) :
    ∃ m, run (init junk) calls = some m ∧
      (.finalize ∉ calls → hexdigest m = []) ∧
      (.finalize ∈ calls → hexdigest m = (digestOf (message calls)).flatMap hex2) ∧
      (.finalize ∈ calls → (message calls).length < 2 ^ 32 → ∀ text,
        Md5.md5Str junk' (message calls) (BitVec.ofNat 32 (message calls).length) text 40 =
          some (text ++ hexdigest m)) := by
  obtain ⟨m, ran, shown⟩ := (Open.start junk).run calls short
  rw [List.nil_append] at shown
  refine ⟨m, ran, fun fresh => by rw [shown, if_neg fresh], fun done => by rw [shown, if_pos done],
    fun done small text => ?_⟩
  have length : (BitVec.ofNat 32 (message calls).length).toNat = (message calls).length := by
    rw [BitVec.toNat_ofNat, Nat.mod_eq_of_lt small]
  obtain ⟨ctx, updated, holds⟩ := (Md5.Holds.start junk').update (message calls)
    (BitVec.ofNat 32 (message calls).length) (le_of_eq length)
  rw [length, List.take_length, List.nil_append] at holds
  rw [shown, if_pos done, Md5.md5Str, if_neg (by decide), Md5.md5, updated, Option.bind_some,
    holds.finish]
  rfl

/-- Pieces and a repeated call for the message `abc`. -/
theorem run_hexdigest_abc : ∃ m,
    run (init fun _ => 0) [.update [97], .update [98, 99], .finalize, .update [1], .finalize] =
      some m ∧
    hexdigest m = [57, 48, 48, 49, 53, 48, 57, 56, 51, 99, 100, 50, 52, 102, 98, 48,
      100, 54, 57, 54, 51, 102, 55, 100, 50, 56, 101, 49, 55, 102, 55, 50] := by
  obtain ⟨m, ran, _, shown, _⟩ := run_hexdigest (fun _ => 0) (fun _ => 0)
    [.update [97], .update [98, 99], .finalize, .update [1], .finalize] (by
      intro piece member
      simp only [List.mem_cons, Call.update.injEq, reduceCtorEq, List.not_mem_nil, or_false,
        false_or] at member
      rcases member with rfl | rfl | rfl <;> decide)
  exact ⟨m, ran, (shown (by decide)).trans (by decide +kernel)⟩

/-! ## The hash of a key -/

def nibbles (bytes : List UInt8) : List Nat :=
  bytes.flatMap fun b => [b.toNat / 16, b.toNat % 16]

theorem nibbles_lt {bytes : List UInt8} {d : Nat} (member : d ∈ nibbles bytes) : d < 16 := by
  obtain ⟨b, _, inside⟩ := List.mem_flatMap.mp member
  have bound := b.toNat_lt
  simp only [List.mem_cons, List.not_mem_nil, or_false] at inside
  omega

theorem map_hexDigit_nibbles (bytes : List UInt8) :
    (nibbles bytes).map hexDigit = bytes.flatMap hex2 := by
  rw [nibbles, List.map_flatMap]
  rfl

theorem digitValue_hexDigit {d : Nat} (small : d < 16) : digitValue (hexDigit d) = some d := by
  revert d
  decide

theorem readDigits_hexDigit {digits : List Nat} (small : ∀ d ∈ digits, d < 16) (acc : Nat) :
    readDigits 16 (digits.map hexDigit) acc = digits.foldl (fun acc d => acc * 16 + d) acc := by
  induction digits generalizing acc with
  | nil => rfl
  | cons d digits ih =>
      obtain ⟨first, rest⟩ := List.forall_mem_cons.mp small
      rw [List.map_cons, readDigits, digitValue_hexDigit first]
      dsimp only
      rw [if_pos first, ih rest, List.foldl_cons]

theorem leNat_append (first second : List UInt8) :
    leNat (first ++ second) = leNat first + 256 ^ first.length * leNat second := by
  induction first with
  | nil => simp [leNat]
  | cons b first ih =>
      rw [List.cons_append, leNat, leNat, ih, List.length_cons, Nat.pow_succ', Nat.mul_add,
        Nat.add_assoc, Nat.mul_assoc]

/-- Two digits for each byte, the first byte on top. -/
theorem foldl_nibbles (bytes : List UInt8) (acc : Nat) :
    (nibbles bytes).foldl (fun acc d => acc * 16 + d) acc =
      acc * 256 ^ bytes.length + beNat bytes := by
  induction bytes generalizing acc with
  | nil => simp [nibbles, beNat, leNat]
  | cons b bytes ih =>
      have unfolded : nibbles (b :: bytes) = b.toNat / 16 :: b.toNat % 16 :: nibbles bytes := rfl
      have top : beNat (b :: bytes) = b.toNat * 256 ^ bytes.length + beNat bytes := by
        rw [beNat, List.reverse_cons, leNat_append, List.length_reverse, beNat]
        simp [leNat, Nat.mul_comm, Nat.add_comm]
      have both : (acc * 16 + b.toNat / 16) * 16 + b.toNat % 16 = acc * 256 + b.toNat := by omega
      rw [unfolded, List.foldl_cons, List.foldl_cons, ih, both, top, List.length_cons, Nat.pow_succ,
        Nat.add_mul, Nat.mul_assoc, Nat.mul_comm 256, Nat.add_assoc]

/-- The text of a key's digest. -/
theorem md5_eq (junk : Nat → UInt8) {key : List UInt8} (short : key.length + 64 < 2 ^ 32) :
    md5 junk key = some ((digestOf key).flatMap hex2) := by
  obtain ⟨m, ran, shown⟩ := (Open.start junk).run [.update key, .finalize]
    (fun piece member => by
      rcases List.mem_cons.mp member with same | other
      · obtain rfl := Call.update.inj same
        exact short
      · simp at other)
  rw [md5, ran, Option.map_some, shown, if_pos (by simp), message, message, List.append_nil,
    List.nil_append]

/-- The first digits of the text stand for the first bytes of the digest. -/
theorem take_hex2 (bytes : List UInt8) (k : Nat) :
    (bytes.flatMap hex2).take (2 * k) = (bytes.take k).flatMap hex2 := by
  induction k generalizing bytes with
  | zero => simp
  | succ k ih =>
      cases bytes with
      | nil => simp
      | cons b bytes =>
          rw [Nat.mul_succ, List.flatMap_cons, List.take_succ_cons, List.flatMap_cons, ← ih]
          rfl

/-- `strtol` reads back the digits that were printed. -/
theorem strtol_hex2 {bytes : List UInt8} (few : bytes.length < 8) :
    strtol 16 (48 :: 120 :: bytes.flatMap hex2) = beNat bytes := by
  have zero : digitValue 48 = some 0 := rfl
  have bound : beNat bytes < 2 ^ 63 := by
    have less := leNat_lt bytes.reverse
    have power := Nat.pow_le_pow_right (show 0 < 256 by decide) (show bytes.reverse.length ≤ 7 by
      rw [List.length_reverse]
      omega)
    rw [beNat]
    omega
  rw [strtol_digit zero, ← map_hexDigit_nibbles]
  have read : readDigits 16 (skipHexMark 16 (48 :: 120 :: (nibbles bytes).map hexDigit)) 0 =
      beNat bytes := by
    cases bytes with
    | nil => rfl
    | cons b bytes =>
        have marked : skipHexMark 16 (48 :: 120 :: (nibbles (b :: bytes)).map hexDigit) =
            (nibbles (b :: bytes)).map hexDigit := by
          have digit := digitValue_hexDigit (d := b.toNat / 16) (by have := b.toNat_lt; omega)
          have small : b.toNat / 16 < 16 := by have := b.toNat_lt; omega
          have unfolded : (nibbles (b :: bytes)).map hexDigit =
            hexDigit (b.toNat / 16) :: hexDigit (b.toNat % 16) :: (nibbles bytes).map hexDigit := rfl
          rw [unfolded, skipHexMark, if_pos ⟨rfl, Or.inl rfl, by simp [digit, small]⟩]
        rw [marked, readDigits_hexDigit fun d member => nibbles_lt member, foldl_nibbles, Nat.zero_mul,
          Nat.zero_add]
  rw [read]
  omega

/-- The hash of a key is the number that the first bytes of its digest make, the first on top. -/
theorem getIntValueFirstN_eq (junk : Nat → UInt8) {key : List UInt8}
    (short : key.length + 64 < 2 ^ 32) {k : Nat} (few : k < 8) :
    getIntValueFirstN junk key (2 * k) = some (BitVec.ofNat 32 (beNat ((digestOf key).take k))) := by
  have length : ((digestOf key).flatMap hex2).length = 32 := rfl
  rw [getIntValueFirstN, md5_eq junk short, Option.bind_some, if_neg (by rw [length]; decide),
    if_pos (by omega), take_hex2, strtol_hex2 (by rw [List.length_take]; omega), BitVec.ofInt_natCast]

theorem getIntValueFirstN_abc :
    getIntValueFirstN (fun _ => 0) [97, 98, 99] 8 = some 0x90015098 :=
  (getIntValueFirstN_eq (fun _ => 0) (by decide) (k := 4) (by decide)).trans (by decide +kernel)

end MlsImgSearch.Utils.Md5New
