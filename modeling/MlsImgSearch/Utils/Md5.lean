import Mathlib.Data.BitVec
import MlsImgSearch.Lib.Bytes
import MlsImgSearch.Lib.BlockStream

/-!
# The MD5 functions of the utilities

The context counts the bytes in two words and keeps the bytes that do not fill
a block of 64 yet. Whatever pieces a message is handed over in, the digest is
the one of the padded message, whose length field is the number of bits modulo
2^64.
-/

namespace MlsImgSearch.Utils.Md5

open Lib.Bytes Lib.BlockStream

/-! ## The code -/

/-- `uint32`. -/
abbrev Word := BitVec 32

/-- `memcpy` of `n` bytes; `none` when either side is too short. -/
def memcpy (dst : List UInt8) (off : Nat) (src : List UInt8) (n : Nat) : Option (List UInt8) :=
  if n ≤ src.length then writeAt dst off (src.take n) else none

def byteAt (b : List UInt8) (i : Nat) : Word := BitVec.ofNat 32 (b.getD i 0).toNat

/-- The macro `GET_UINT32`. -/
def getUint32 (b : List UInt8) (i : Nat) : Word :=
  byteAt b i ||| byteAt b (i + 1) <<< 8 ||| byteAt b (i + 2) <<< 16 ||| byteAt b (i + 3) <<< 24

/-- The macro `PUT_UINT32`. -/
def putUint32 (n : Word) : List UInt8 :=
  [UInt8.ofNat n.toNat, UInt8.ofNat (n >>> 8).toNat, UInt8.ofNat (n >>> 16).toNat,
    UInt8.ofNat (n >>> 24).toNat]

/-- The local variables of `md5_process`. -/
inductive Reg where
  | A | B | C | D
  deriving DecidableEq, Repr

/-- The four words of the state. -/
structure State where
  A : Word
  B : Word
  C : Word
  D : Word
  deriving DecidableEq, Repr

def State.get (w : State) : Reg → Word
  | .A => w.A
  | .B => w.B
  | .C => w.C
  | .D => w.D

def State.set (w : State) (r : Reg) (v : Word) : State :=
  match r with
  | .A => { w with A := v }
  | .B => { w with B := v }
  | .C => { w with C := v }
  | .D => { w with D := v }

/-- The arguments of one step: `P( a, b, c, d, k, s, t )`. -/
structure Row where
  a : Reg
  b : Reg
  c : Reg
  d : Reg
  k : Nat
  s : Nat
  t : Word
  deriving DecidableEq, Repr

/-- The macro `S`. -/
def S (x : Word) (n : Nat) : Word := (x <<< n) ||| ((x &&& 0xFFFFFFFF) >>> (32 - n))

/-- The macro `P` with the `F` of its round. -/
def P (F : Word → Word → Word → Word) (X : List Word) (w : State) (r : Row) : State :=
  let a := w.get r.a + (F (w.get r.b) (w.get r.c) (w.get r.d) + X.getD r.k 0 + r.t)
  w.set r.a (S a r.s + w.get r.b)

def F₁ (x y z : Word) : Word := z ^^^ (x &&& (y ^^^ z))

def F₂ (x y z : Word) : Word := y ^^^ (z &&& (x ^^^ y))

def F₃ (x y z : Word) : Word := x ^^^ y ^^^ z

def F₄ (x y z : Word) : Word := y ^^^ (x ||| ~~~z)

def round₁ : List Row := [
  ⟨.A, .B, .C, .D, 0, 7, 0xD76AA478⟩,
  ⟨.D, .A, .B, .C, 1, 12, 0xE8C7B756⟩,
  ⟨.C, .D, .A, .B, 2, 17, 0x242070DB⟩,
  ⟨.B, .C, .D, .A, 3, 22, 0xC1BDCEEE⟩,
  ⟨.A, .B, .C, .D, 4, 7, 0xF57C0FAF⟩,
  ⟨.D, .A, .B, .C, 5, 12, 0x4787C62A⟩,
  ⟨.C, .D, .A, .B, 6, 17, 0xA8304613⟩,
  ⟨.B, .C, .D, .A, 7, 22, 0xFD469501⟩,
  ⟨.A, .B, .C, .D, 8, 7, 0x698098D8⟩,
  ⟨.D, .A, .B, .C, 9, 12, 0x8B44F7AF⟩,
  ⟨.C, .D, .A, .B, 10, 17, 0xFFFF5BB1⟩,
  ⟨.B, .C, .D, .A, 11, 22, 0x895CD7BE⟩,
  ⟨.A, .B, .C, .D, 12, 7, 0x6B901122⟩,
  ⟨.D, .A, .B, .C, 13, 12, 0xFD987193⟩,
  ⟨.C, .D, .A, .B, 14, 17, 0xA679438E⟩,
  ⟨.B, .C, .D, .A, 15, 22, 0x49B40821⟩]

def round₂ : List Row := [
  ⟨.A, .B, .C, .D, 1, 5, 0xF61E2562⟩,
  ⟨.D, .A, .B, .C, 6, 9, 0xC040B340⟩,
  ⟨.C, .D, .A, .B, 11, 14, 0x265E5A51⟩,
  ⟨.B, .C, .D, .A, 0, 20, 0xE9B6C7AA⟩,
  ⟨.A, .B, .C, .D, 5, 5, 0xD62F105D⟩,
  ⟨.D, .A, .B, .C, 10, 9, 0x02441453⟩,
  ⟨.C, .D, .A, .B, 15, 14, 0xD8A1E681⟩,
  ⟨.B, .C, .D, .A, 4, 20, 0xE7D3FBC8⟩,
  ⟨.A, .B, .C, .D, 9, 5, 0x21E1CDE6⟩,
  ⟨.D, .A, .B, .C, 14, 9, 0xC33707D6⟩,
  ⟨.C, .D, .A, .B, 3, 14, 0xF4D50D87⟩,
  ⟨.B, .C, .D, .A, 8, 20, 0x455A14ED⟩,
  ⟨.A, .B, .C, .D, 13, 5, 0xA9E3E905⟩,
  ⟨.D, .A, .B, .C, 2, 9, 0xFCEFA3F8⟩,
  ⟨.C, .D, .A, .B, 7, 14, 0x676F02D9⟩,
  ⟨.B, .C, .D, .A, 12, 20, 0x8D2A4C8A⟩]

def round₃ : List Row := [
  ⟨.A, .B, .C, .D, 5, 4, 0xFFFA3942⟩,
  ⟨.D, .A, .B, .C, 8, 11, 0x8771F681⟩,
  ⟨.C, .D, .A, .B, 11, 16, 0x6D9D6122⟩,
  ⟨.B, .C, .D, .A, 14, 23, 0xFDE5380C⟩,
  ⟨.A, .B, .C, .D, 1, 4, 0xA4BEEA44⟩,
  ⟨.D, .A, .B, .C, 4, 11, 0x4BDECFA9⟩,
  ⟨.C, .D, .A, .B, 7, 16, 0xF6BB4B60⟩,
  ⟨.B, .C, .D, .A, 10, 23, 0xBEBFBC70⟩,
  ⟨.A, .B, .C, .D, 13, 4, 0x289B7EC6⟩,
  ⟨.D, .A, .B, .C, 0, 11, 0xEAA127FA⟩,
  ⟨.C, .D, .A, .B, 3, 16, 0xD4EF3085⟩,
  ⟨.B, .C, .D, .A, 6, 23, 0x04881D05⟩,
  ⟨.A, .B, .C, .D, 9, 4, 0xD9D4D039⟩,
  ⟨.D, .A, .B, .C, 12, 11, 0xE6DB99E5⟩,
  ⟨.C, .D, .A, .B, 15, 16, 0x1FA27CF8⟩,
  ⟨.B, .C, .D, .A, 2, 23, 0xC4AC5665⟩]

def round₄ : List Row := [
  ⟨.A, .B, .C, .D, 0, 6, 0xF4292244⟩,
  ⟨.D, .A, .B, .C, 7, 10, 0x432AFF97⟩,
  ⟨.C, .D, .A, .B, 14, 15, 0xAB9423A7⟩,
  ⟨.B, .C, .D, .A, 5, 21, 0xFC93A039⟩,
  ⟨.A, .B, .C, .D, 12, 6, 0x655B59C3⟩,
  ⟨.D, .A, .B, .C, 3, 10, 0x8F0CCC92⟩,
  ⟨.C, .D, .A, .B, 10, 15, 0xFFEFF47D⟩,
  ⟨.B, .C, .D, .A, 1, 21, 0x85845DD1⟩,
  ⟨.A, .B, .C, .D, 8, 6, 0x6FA87E4F⟩,
  ⟨.D, .A, .B, .C, 15, 10, 0xFE2CE6E0⟩,
  ⟨.C, .D, .A, .B, 6, 15, 0xA3014314⟩,
  ⟨.B, .C, .D, .A, 13, 21, 0x4E0811A1⟩,
  ⟨.A, .B, .C, .D, 4, 6, 0xF7537E82⟩,
  ⟨.D, .A, .B, .C, 11, 10, 0xBD3AF235⟩,
  ⟨.C, .D, .A, .B, 2, 15, 0x2AD7D2BB⟩,
  ⟨.B, .C, .D, .A, 9, 21, 0xEB86D391⟩]

/-- `md5_process` on the state; the callers pass 64 bytes. -/
def md5Process (state : State) (data : List UInt8) : State :=
  let X := (List.range 16).map fun i => getUint32 data (4 * i)
  let w := round₁.foldl (P F₁ X) state
  let w := round₂.foldl (P F₂ X) w
  let w := round₃.foldl (P F₃ X) w
  let w := round₄.foldl (P F₄ X) w
  ⟨state.A + w.A, state.B + w.B, state.C + w.C, state.D + w.D⟩

/-- `g_md5_padding`. -/
def md5Padding : List UInt8 := 0x80 :: List.replicate 63 0

/-- `md5_context`. -/
structure Md5Context where
  total0 : Word
  total1 : Word
  state : State
  buffer : List UInt8
  deriving DecidableEq, Repr

/-- The state that `md5_starts` sets. -/
def startState : State := ⟨0x67452301, 0xEFCDAB89, 0x98BADCFE, 0x10325476⟩

/-- `md5_starts`; the buffer keeps what stood in the fresh context. -/
def md5Starts (junk : Nat → UInt8) : Md5Context := ⟨0, 0, startState, malloc junk 64⟩

/-- `while( length >= 64 )`; it takes 64 away from `length` in each turn. -/
def md5Blocks : Nat → State → List UInt8 → Word → Option (State × List UInt8 × Word)
  | 0, _, _, _ => none
  | fuel + 1, state, input, length =>
      if 64 ≤ length then
        if 64 ≤ input.length then
          md5Blocks fuel (md5Process state (input.take 64)) (input.drop 64) (length - 64)
        else none -- reads past the input
      else some (state, input, length)

/-- The block that the bytes kept so far and the first `fill` bytes make. -/
def md5Fill (ctx : Md5Context) (input : List UInt8) (length left fill : Word) :
    Option (Md5Context × List UInt8 × Word × Word) :=
  if left ≠ 0 ∧ fill ≤ length then do
    let buffer ← memcpy ctx.buffer left.toNat input fill.toNat
    some ({ ctx with state := md5Process ctx.state buffer, buffer := buffer },
      input.drop fill.toNat, length - fill, 0)
  else some (ctx, input, length, left)

def md5Update (ctx : Md5Context) (input : List UInt8) (length : Word) : Option Md5Context :=
  if length = 0 then some ctx
  else
    let left := ctx.total0 &&& 0x3F
    let fill := 64 - left
    let total0 := (ctx.total0 + length) &&& 0xFFFFFFFF
    let total1 := if total0 < length then ctx.total1 + 1 else ctx.total1
    do
      let (ctx, input, length, left) ←
        md5Fill { ctx with total0 := total0, total1 := total1 } input length left fill
      let (state, input, length) ← md5Blocks (length.toNat + 1) ctx.state input length
      if length = 0 then some { ctx with state := state }
      else do
        let buffer ← memcpy ctx.buffer left.toNat input length.toNat
        some { ctx with state := state, buffer := buffer }

/-- The `PUT_UINT32` calls at the end of `md5_finish`. -/
def digestBytes (state : State) : List UInt8 :=
  putUint32 state.A ++ putUint32 state.B ++ putUint32 state.C ++ putUint32 state.D

/-- `md5_finish`: the digest. -/
def md5Finish (ctx : Md5Context) : Option (List UInt8) := do
  let high := (ctx.total0 >>> 29) ||| (ctx.total1 <<< 3)
  let low := ctx.total0 <<< 3
  let msglen := putUint32 low ++ putUint32 high
  let last := ctx.total0 &&& 0x3F
  let padn := if last < 56 then 56 - last else 120 - last
  let ctx ← md5Update ctx md5Padding padn
  let ctx ← md5Update ctx msglen 8
  some (digestBytes ctx.state)

/-- A caller's pieces one after the other. -/
def md5Updates : Md5Context → List (List UInt8) → Option Md5Context
  | ctx, [] => some ctx
  | ctx, piece :: pieces =>
      (md5Update ctx piece (BitVec.ofNat 32 piece.length)).bind fun ctx => md5Updates ctx pieces

/-- `MD5`. -/
def md5 (junk : Nat → UInt8) (source : List UInt8) (srclen : Word) : Option (List UInt8) :=
  (md5Update (md5Starts junk) source srclen).bind md5Finish

def hexDigit (d : Nat) : UInt8 := UInt8.ofNat (if d < 10 then 48 + d else 87 + d)

/-- `"%02x"` of a byte. -/
def hex2 (b : UInt8) : List UInt8 := [hexDigit (b.toNat / 16), hexDigit (b.toNat % 16)]

/-- `MD5_str` appends the digits to what stands in `text`. -/
def md5Str (junk : Nat → UInt8) (source : List UInt8) (srclen : Word) (text : List UInt8)
    (md5Size : Int) : Option (List UInt8) :=
  if md5Size < 32 then some text
  else (md5 junk source srclen).map fun md => text ++ md.flatMap hex2

/-! ## The digest of a whole message -/

/-- A message with its padding and its length in bits. -/
def padded (msg : List UInt8) : List UInt8 :=
  msg ++ 0x80 :: (List.replicate ((119 - msg.length % 64) % 64) 0 ++ leBytes 8 (8 * msg.length))

/-- What the blocks of a stream make of the start state. -/
def absorbed (msg : List UInt8) : Absorbed State UInt8 :=
  absorb 64 md5Process ⟨startState, []⟩ msg

def digestOf (msg : List UInt8) : List UInt8 := digestBytes (absorbed (padded msg)).chain

theorem absorbed_append (msg more : List UInt8) :
    absorbed (msg ++ more) = absorb 64 md5Process (absorbed msg) more :=
  absorb_append 64 md5Process _ msg more

theorem length_absorbed (msg : List UInt8) :
    (absorbed msg).pending.length = msg.length % 64 := by
  have empty : (⟨startState, []⟩ : Absorbed State UInt8).pending.length < 64 := Nat.zero_lt_succ 63
  rw [absorbed, length_pending empty msg, List.length_nil, Nat.zero_add]

/-! ## The buffer -/

/-- The state and the buffer of a context that stands where `s` does. -/
structure Waiting (state : State) (buffer : List UInt8) (s : Absorbed State UInt8) : Prop where
  chain : state = s.chain
  size : buffer.length = 64
  front : buffer.take s.pending.length = s.pending
  room : s.pending.length < 64

namespace Waiting

variable {state : State} {buffer : List UInt8} {s : Absorbed State UInt8} {n : Nat}

/-- Bytes that do not fill the block are stored behind the others. -/
theorem store (waiting : Waiting state buffer s) (input : List UInt8) (inside : n ≤ input.length)
    (short : s.pending.length + n < 64) :
    ∃ buffer', memcpy buffer s.pending.length input n = some buffer' ∧
      Waiting state buffer' (absorb 64 md5Process s (input.take n)) := by
  have taken : (input.take n).length = n := List.length_take_of_le inside
  obtain ⟨buffer', written⟩ : ∃ buffer', writeAt buffer s.pending.length (input.take n) =
      some buffer' := ⟨_, writeAt_eq_some (by rw [waiting.size, taken]; omega)⟩
  have result : absorb 64 md5Process s (input.take n) = ⟨s.chain, s.pending ++ input.take n⟩ :=
    absorb_short (by omega)
  refine ⟨buffer', by rw [memcpy, if_pos inside, written], ?_⟩
  rw [result]
  constructor
  · exact waiting.chain
  · rw [length_writeAt written, waiting.size]
  · rw [List.length_append, take_writeAt written, waiting.front]
  · rw [List.length_append, taken]
    exact short

/-- Bytes that fill the block make the block that is processed. -/
theorem fill (waiting : Waiting state buffer s) (input : List UInt8) (inside : n ≤ input.length)
    (full : s.pending.length + n = 64) :
    ∃ buffer', memcpy buffer s.pending.length input n = some buffer' ∧
      (absorb 64 md5Process s (input.take n)).pending = [] ∧
      Waiting (md5Process state buffer') buffer' (absorb 64 md5Process s (input.take n)) := by
  have taken : (input.take n).length = n := List.length_take_of_le inside
  have room := waiting.room
  obtain ⟨buffer', written⟩ : ∃ buffer', writeAt buffer s.pending.length (input.take n) =
      some buffer' := ⟨_, writeAt_eq_some (by rw [waiting.size, taken]; omega)⟩
  have size : buffer'.length = 64 := by rw [length_writeAt written, waiting.size]
  have whole : buffer' = s.pending ++ input.take n := by
    have prefixed := take_writeAt written
    rwa [taken, full, waiting.front, List.take_of_length_le (le_of_eq size)] at prefixed
  have result : absorb 64 md5Process s (input.take n) =
      ⟨md5Process s.chain (s.pending ++ input.take n), []⟩ :=
    absorb_fill (List.ne_nil_of_length_pos (by omega)) (by omega)
  refine ⟨buffer', by rw [memcpy, if_pos inside, written], by rw [result], ?_⟩
  rw [result]
  constructor
  · rw [waiting.chain, whole]
  · exact size
  · rfl
  · exact Nat.zero_lt_succ 63

/-- A whole block of the input is processed where it stands. -/
theorem block (waiting : Waiting state buffer s) (none' : s.pending = []) (input : List UInt8)
    (inside : 64 ≤ input.length) :
    (absorb 64 md5Process s (input.take 64)).pending = [] ∧
      Waiting (md5Process state (input.take 64)) buffer
        (absorb 64 md5Process s (input.take 64)) := by
  have aligned : s = ⟨s.chain, []⟩ := by rw [← none']
  have result : absorb 64 md5Process ⟨s.chain, []⟩ (input.take 64) =
      ⟨md5Process s.chain (input.take 64), []⟩ :=
    absorb_block (by decide) (List.length_take_of_le inside)
  rw [← aligned] at result
  rw [result]
  refine ⟨rfl, ?_⟩
  constructor
  · rw [waiting.chain]
  · exact waiting.size
  · rfl
  · exact Nat.zero_lt_succ 63

end Waiting

/-- Bytes that were taken in two steps. -/
theorem absorb_take_add (s : Absorbed State UInt8) (input : List UInt8) (n m : Nat) :
    absorb 64 md5Process (absorb 64 md5Process s (input.take n)) ((input.drop n).take m) =
      absorb 64 md5Process s (input.take (n + m)) := by
  rw [← absorb_append, List.take_add]

/-- The loop over the whole blocks of the input. -/
theorem md5Blocks_spec {fuel : Nat} {state : State} {buffer input : List UInt8} {length : Word}
    {s : Absorbed State UInt8} (waiting : Waiting state buffer s) (none' : s.pending = [])
    (inside : length.toNat ≤ input.length) (enough : length.toNat / 64 < fuel) :
    ∃ taken state' length', md5Blocks fuel state input length =
        some (state', input.drop taken, length') ∧
      taken + length'.toNat = length.toNat ∧ length'.toNat < 64 ∧
      (absorb 64 md5Process s (input.take taken)).pending = [] ∧
      Waiting state' buffer (absorb 64 md5Process s (input.take taken)) := by
  induction fuel generalizing state input length s with
  | zero => exact absurd enough (Nat.not_lt_zero _)
  | succ fuel ih =>
      unfold md5Blocks
      have bound : 64 ≤ length ↔ 64 ≤ length.toNat := BitVec.le_def
      by_cases long : 64 ≤ length.toNat
      · rw [if_pos (bound.mpr long), if_pos (by omega)]
        have shorter : (length - 64).toNat = length.toNat - 64 :=
          BitVec.toNat_sub_of_le (bound.mpr long)
        obtain ⟨aligned, next⟩ := waiting.block none' input (by omega)
        obtain ⟨taken, state', length', ran, sum, small, end', waits⟩ :=
          ih next aligned
            (show (length - 64).toNat ≤ (input.drop 64).length by rw [shorter, List.length_drop]; omega)
            (by rw [shorter]; omega)
        refine ⟨64 + taken, state', length', ?_, by omega, small, ?_, ?_⟩
        · rw [ran, List.drop_drop]
        · rw [← absorb_take_add]
          exact end'
        · rw [← absorb_take_add]
          exact waits
      · rw [if_neg (fun le => long (bound.mp le))]
        exact ⟨0, state, length, rfl, Nat.zero_add _, by omega, none', waiting⟩

/-- Filling the block that has been begun: afterwards nothing waits, or the input is too short. -/
theorem md5Fill_spec (ctx : Md5Context) {input : List UInt8} {length left : Word}
    {s : Absorbed State UInt8} (waiting : Waiting ctx.state ctx.buffer s)
    (count : left.toNat = s.pending.length) (inside : length.toNat ≤ input.length) :
    ∃ taken ctx' length' left', md5Fill ctx input length left (64 - left) =
        some (ctx', input.drop taken, length', left') ∧
      ctx'.total0 = ctx.total0 ∧ ctx'.total1 = ctx.total1 ∧
      taken + length'.toNat = length.toNat ∧
      left'.toNat = (absorb 64 md5Process s (input.take taken)).pending.length ∧
      Waiting ctx'.state ctx'.buffer (absorb 64 md5Process s (input.take taken)) ∧
      (left'.toNat = 0 ∨ left'.toNat + length'.toNat < 64) := by
  have room := waiting.room
  have fill : (64 - left : Word).toNat = 64 - left.toNat :=
    BitVec.toNat_sub_of_le (BitVec.le_def.mpr (show left.toNat ≤ 64 by omega))
  have zero : left ≠ 0 ↔ left.toNat ≠ 0 := not_congr (BitVec.toNat_inj (y := 0)).symm
  have reached : 64 - left ≤ length ↔ 64 - left.toNat ≤ length.toNat := by
    rw [BitVec.le_def, fill]
  unfold md5Fill
  by_cases fills : left.toNat ≠ 0 ∧ 64 - left.toNat ≤ length.toNat
  · rw [if_pos ⟨zero.mpr fills.1, reached.mpr fills.2⟩, fill, count]
    obtain ⟨buffer', copied, aligned, waits⟩ :=
      waiting.fill (n := 64 - s.pending.length) input (by omega) (by omega)
    refine ⟨64 - s.pending.length,
      { ctx with state := md5Process ctx.state buffer', buffer := buffer' },
      length - (64 - left), 0, ?_, rfl, rfl, ?_, ?_, waits, Or.inl rfl⟩
    · rw [copied]
      rfl
    · rw [BitVec.toNat_sub_of_le (reached.mpr fills.2), fill]
      omega
    · rw [aligned]
      rfl
  · rw [if_neg (fun both => fills ⟨zero.mp both.1, reached.mp both.2⟩)]
    exact ⟨0, ctx, length, left, rfl, rfl, rfl, Nat.zero_add _, count, waiting, by omega⟩

/-- The loop after the block that had been begun; what is left of the input fits behind. -/
theorem md5Blocks_rest {state : State} {buffer : List UInt8} (input : List UInt8)
    {length left : Word} {s : Absorbed State UInt8} (waiting : Waiting state buffer s)
    (count : left.toNat = s.pending.length) (inside : length.toNat ≤ input.length)
    (short : left.toNat = 0 ∨ left.toNat + length.toNat < 64) :
    ∃ taken state' length', md5Blocks (length.toNat + 1) state input length =
        some (state', input.drop taken, length') ∧
      taken + length'.toNat = length.toNat ∧
      left.toNat = (absorb 64 md5Process s (input.take taken)).pending.length ∧
      left.toNat + length'.toNat < 64 ∧
      Waiting state' buffer (absorb 64 md5Process s (input.take taken)) := by
  have bound : 64 ≤ length ↔ 64 ≤ length.toNat := BitVec.le_def
  rcases Nat.lt_or_ge (left.toNat + length.toNat) 64 with fits | long
  · refine ⟨0, state, length, ?_, Nat.zero_add _, count, fits, waiting⟩
    rw [md5Blocks, if_neg (fun le => by have := bound.mp le; omega)]
    rfl
  · have none' : s.pending = [] := List.eq_nil_of_length_eq_zero (by omega)
    obtain ⟨taken, state', length', ran, sum, small, aligned, waits⟩ :=
      md5Blocks_spec waiting none' inside (Nat.lt_succ_of_le (Nat.div_le_self length.toNat 64))
    refine ⟨taken, state', length', ran, sum, ?_, by omega, waits⟩
    rw [aligned, List.length_nil]
    omega

/-! ## One call -/

/-- The context after the bytes of `msg`. -/
structure Holds (ctx : Md5Context) (msg : List UInt8) : Prop where
  waiting : Waiting ctx.state ctx.buffer (absorbed msg)
  total : ctx.total0.toNat + 2 ^ 32 * ctx.total1.toNat = msg.length % 2 ^ 64

theorem Holds.start (junk : Nat → UInt8) : Holds (md5Starts junk) [] := by
  constructor
  · exact ⟨rfl, length_malloc junk 64, rfl, Nat.zero_lt_succ 63⟩
  · rfl

/-- The six low bits of the count are the number of bytes that wait. -/
theorem Holds.left {ctx : Md5Context} {msg : List UInt8} (held : Holds ctx msg) :
    (ctx.total0 &&& 0x3F).toNat = msg.length % 64 := by
  have total := held.total
  have bound := ctx.total0.isLt
  rw [BitVec.toNat_and, show (0x3F : Word).toNat = 2 ^ 6 - 1 by rfl, Nat.and_two_pow_sub_one_eq_mod]
  omega

/-- The carry between the two words of the count. -/
theorem total_add {total0 total1 length : Word} {n : Nat}
    (total : total0.toNat + 2 ^ 32 * total1.toNat = n % 2 ^ 64) :
    ((total0 + length) &&& 0xFFFFFFFF).toNat +
        2 ^ 32 * (if (total0 + length) &&& 0xFFFFFFFF < length then total1 + 1 else total1).toNat =
      (n + length.toNat) % 2 ^ 64 := by
  have low := total0.isLt
  have high := total1.isLt
  have added := length.isLt
  have masked : (total0 + length) &&& 0xFFFFFFFF = total0 + length := BitVec.and_allOnes
  have sum : (total0 + length).toNat = (total0.toNat + length.toNat) % 2 ^ 32 := BitVec.toNat_add ..
  have carried : (total1 + 1).toNat = (total1.toNat + 1) % 2 ^ 32 := BitVec.toNat_add ..
  rw [masked]
  by_cases carry : total0 + length < length
  · have wrapped : (total0.toNat + length.toNat) % 2 ^ 32 < length.toNat := by
      rw [← sum]
      exact BitVec.lt_def.mp carry
    rw [if_pos carry, sum, carried]
    omega
  · have plain : ¬ (total0.toNat + length.toNat) % 2 ^ 32 < length.toNat := by
      rw [← sum]
      exact fun less => carry (BitVec.lt_def.mpr less)
    rw [if_neg carry, sum]
    omega

/-- One piece is appended to the message. -/
theorem Holds.update {ctx : Md5Context} {msg : List UInt8} (held : Holds ctx msg)
    (input : List UInt8) (length : Word) (inside : length.toNat ≤ input.length) :
    ∃ ctx', md5Update ctx input length = some ctx' ∧
      Holds ctx' (msg ++ input.take length.toNat) := by
  unfold md5Update
  by_cases empty : length = 0
  · rw [if_pos empty]
    refine ⟨ctx, rfl, ?_⟩
    rw [empty]
    simpa using held
  · rw [if_neg empty]
    obtain ⟨taken₁, ctx₁, length₁, left₁, filled, same0, same1, sum₁, count₁, waits₁, short₁⟩ :=
      md5Fill_spec { ctx with
          total0 := (ctx.total0 + length) &&& 0xFFFFFFFF
          total1 := if (ctx.total0 + length) &&& 0xFFFFFFFF < length then ctx.total1 + 1
            else ctx.total1 }
        held.waiting (held.left.trans (length_absorbed msg).symm) inside
    obtain ⟨taken₂, state₂, length₂, ran, sum₂, count₂, short₂, waits₂⟩ :=
      md5Blocks_rest (input.drop taken₁) waits₁ count₁
        (by rw [List.length_drop]; omega) short₁
    rw [List.drop_drop] at ran
    rw [absorb_take_add] at count₂ waits₂
    simp only [filled, Option.bind_eq_bind, Option.bind_some, ran]
    have total : ctx₁.total0.toNat + 2 ^ 32 * ctx₁.total1.toNat =
        (msg ++ input.take length.toNat).length % 2 ^ 64 := by
      rw [same0, same1, List.length_append, List.length_take_of_le inside]
      exact total_add held.total
    by_cases all : length₂ = 0
    · have whole : taken₁ + taken₂ = length.toNat := by
        rw [all] at sum₂
        have zero : (0 : Word).toNat = 0 := rfl
        omega
      rw [if_pos all]
      refine ⟨_, rfl, ?_, total⟩
      rw [absorbed_append, ← whole]
      exact waits₂
    · rw [if_neg all, count₂]
      rw [count₂] at short₂
      obtain ⟨buffer', copied, stored⟩ := waits₂.store (n := length₂.toNat)
        (input.drop (taken₁ + taken₂)) (by rw [List.length_drop]; omega) short₂
      refine ⟨{ ctx₁ with state := state₂, buffer := buffer' }, by rw [copied]; rfl, ?_, total⟩
      rw [absorb_take_add, show taken₁ + taken₂ + length₂.toNat = length.toNat by omega] at stored
      rw [absorbed_append]
      exact stored

/-- All pieces of a message. -/
theorem Holds.updates {ctx : Md5Context} {msg : List UInt8} {pieces : List (List UInt8)}
    (held : Holds ctx msg) (short : ∀ piece ∈ pieces, piece.length < 2 ^ 32) :
    ∃ ctx', md5Updates ctx pieces = some ctx' ∧ Holds ctx' (msg ++ pieces.flatten) := by
  induction pieces generalizing ctx msg with
  | nil => exact ⟨ctx, rfl, by simpa using held⟩
  | cons piece pieces ih =>
      have length : (BitVec.ofNat 32 piece.length).toNat = piece.length := by
        rw [BitVec.toNat_ofNat, Nat.mod_eq_of_lt (short piece List.mem_cons_self)]
      obtain ⟨ctx₁, updated, held₁⟩ :=
        held.update piece (BitVec.ofNat 32 piece.length) (le_of_eq length)
      rw [length, List.take_length] at held₁
      obtain ⟨ctx₂, later, held₂⟩ := ih held₁ fun other member =>
        short other (List.mem_cons_of_mem _ member)
      refine ⟨ctx₂, ?_, ?_⟩
      · rw [md5Updates, updated, Option.bind_some, later]
      · rw [List.flatten_cons, ← List.append_assoc]
        exact held₂

/-! ## Padding and length -/

theorem putUint32_eq (n : Word) : putUint32 n = leBytes 4 n.toNat := by
  simp only [putUint32, leBytes, BitVec.toNat_ushiftRight, Nat.shiftRight_eq_div_pow,
    Nat.div_div_eq_div_mul]

theorem leBytes_add (k l n : Nat) : leBytes (k + l) n = leBytes k n ++ leBytes l (n / 256 ^ k) := by
  induction k generalizing n with
  | zero => simp [leBytes]
  | succ k ih =>
      have split : n / 256 / 256 ^ k = n / 256 ^ (k + 1) := by
        rw [Nat.div_div_eq_div_mul, Nat.pow_succ, Nat.mul_comm]
      rw [Nat.add_right_comm, leBytes, ih, split, leBytes, List.cons_append]

theorem leBytes_mod (k n : Nat) : leBytes k (n % 256 ^ k) = leBytes k n := by
  have roundTrip := leBytes_leNat (leBytes k n)
  rwa [length_leBytes, leNat_leBytes] at roundTrip

/-- A number of 64 bits in two words. -/
theorem putUint32_pair {low high : Word} {n : Nat}
    (total : low.toNat + 2 ^ 32 * high.toNat = n % 2 ^ 64) :
    putUint32 low ++ putUint32 high = leBytes 8 n := by
  have bound := low.isLt
  have first : low.toNat = n % 256 ^ 4 := by omega
  have second : high.toNat = n / 256 ^ 4 % 256 ^ 4 := by omega
  rw [putUint32_eq, putUint32_eq, first, second, leBytes_mod, leBytes_mod, ← leBytes_add]

/-- The two words of `msglen` are the number of bits modulo 2^64. -/
theorem msglen_eq {total0 total1 : Word} {n : Nat}
    (total : total0.toNat + 2 ^ 32 * total1.toNat = n % 2 ^ 64) :
    putUint32 (total0 <<< 3) ++ putUint32 ((total0 >>> 29) ||| (total1 <<< 3)) =
      leBytes 8 (8 * n) := by
  have bound := total0.isLt
  have low : (total0 <<< 3).toNat = 8 * total0.toNat % 2 ^ 32 := by
    rw [BitVec.toNat_shiftLeft, Nat.shiftLeft_eq, Nat.mul_comm]
  have high : ((total0 >>> 29) ||| (total1 <<< 3)).toNat =
      8 * (total1.toNat % 2 ^ 29) + total0.toNat / 2 ^ 29 := by
    have shifted : (total1 <<< 3).toNat = 2 ^ 3 * (total1.toNat % 2 ^ 29) := by
      rw [BitVec.toNat_shiftLeft, Nat.shiftLeft_eq]
      omega
    have small : total0.toNat / 2 ^ 29 < 2 ^ 3 := by omega
    rw [BitVec.toNat_or, BitVec.toNat_ushiftRight, Nat.shiftRight_eq_div_pow, shifted, Nat.or_comm,
      ← Nat.two_pow_add_eq_or_of_lt small]
  apply putUint32_pair
  rw [low, high]
  omega

/-- How many bytes of padding follow `n` bytes. -/
theorem padn_eq {last : Word} {n : Nat} (count : last.toNat = n % 64) :
    (if last < 56 then 56 - last else 120 - last : Word).toNat =
      if n % 64 < 56 then 56 - n % 64 else 120 - n % 64 := by
  have below := Nat.mod_lt n (show 0 < 64 by decide)
  have less : last < 56 ↔ n % 64 < 56 := by
    rw [BitVec.lt_def, count]
    rfl
  by_cases early : n % 64 < 56
  · have inside : last ≤ 56 := BitVec.le_def.mpr (show last.toNat ≤ 56 by omega)
    rw [if_pos (less.mpr early), if_pos early, BitVec.toNat_sub_of_le inside, count]
    rfl
  · have inside : last ≤ 120 := BitVec.le_def.mpr (show last.toNat ≤ 120 by omega)
    rw [if_neg (fun l => early (less.mp l)), if_neg early, BitVec.toNat_sub_of_le inside, count]
    rfl

/-- The padding is a front of `g_md5_padding`. -/
theorem padn_le {last : Word} {n : Nat} (count : last.toNat = n % 64) :
    (if last < 56 then 56 - last else 120 - last : Word).toNat ≤ md5Padding.length := by
  have below := Nat.mod_lt n (show 0 < 64 by decide)
  rw [padn_eq count, md5Padding, List.length_cons, List.length_replicate]
  split <;> omega

/-- What `md5_finish` appends is the padding of the message. -/
theorem padded_eq {msg : List UInt8} {padn : Nat}
    (count : padn = if msg.length % 64 < 56 then 56 - msg.length % 64
      else 120 - msg.length % 64) :
    msg ++ md5Padding.take padn ++ leBytes 8 (8 * msg.length) = padded msg := by
  have below := Nat.mod_lt msg.length (show 0 < 64 by decide)
  obtain ⟨zeros, rfl⟩ : ∃ zeros, padn = zeros + 1 := ⟨padn - 1, by split at count <;> omega⟩
  have number : zeros = (119 - msg.length % 64) % 64 := by split at count <;> omega
  have enough : zeros ≤ 63 := by omega
  rw [md5Padding, List.take_succ_cons, List.take_replicate, Nat.min_eq_left enough, padded, ← number,
    List.append_assoc, List.cons_append]

/-- The digest of a context is that of the bytes it has taken. -/
theorem Holds.finish {ctx : Md5Context} {msg : List UInt8} (held : Holds ctx msg) :
    md5Finish ctx = some (digestOf msg) := by
  have count := held.left
  have msglen := msglen_eq held.total
  unfold md5Finish
  obtain ⟨ctx₁, padding, held₁⟩ := held.update md5Padding _ (padn_le count)
  obtain ⟨ctx₂, length, held₂⟩ := held₁.update
    (putUint32 (ctx.total0 <<< 3) ++ putUint32 ((ctx.total0 >>> 29) ||| (ctx.total1 <<< 3))) 8
    (Nat.le_refl 8)
  simp only [padding, Option.bind_eq_bind, Option.bind_some, length]
  have eight : (8 : Word).toNat = (leBytes 8 (8 * msg.length)).length := (length_leBytes 8 _).symm
  rw [held₂.waiting.chain, msglen, eight, List.take_length, padded_eq (padn_eq count)]
  rfl

/-! ## Any pieces of a message -/

/-- However a message is handed over, its digest is the one of its padded blocks. -/
theorem digest_of_pieces (junk : Nat → UInt8) (pieces : List (List UInt8))
    (short : ∀ piece ∈ pieces, piece.length < 2 ^ 32) :
    (md5Updates (md5Starts junk) pieces).bind md5Finish = some (digestOf pieces.flatten) := by
  obtain ⟨ctx, ran, held⟩ := (Holds.start junk).updates short
  rw [ran, Option.bind_some]
  exact held.finish

/-- The message `abc` in two pieces. -/
theorem digest_of_abc :
    (md5Updates (md5Starts fun _ => 0) [[97], [98, 99]]).bind md5Finish =
      some [144, 1, 80, 152, 60, 210, 79, 176, 214, 150, 63, 125, 40, 225, 127, 114] :=
  (digest_of_pieces (fun _ => 0) [[97], [98, 99]] (by decide)).trans (by decide +kernel)

end MlsImgSearch.Utils.Md5
