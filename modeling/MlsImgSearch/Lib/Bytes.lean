import Mathlib.Algebra.Order.Ring.Int
import Mathlib.Data.List.Basic
import Mathlib.Tactic.Common

/-!
# Memory blocks and fixed-width byte codecs

A block of memory is a list of bytes. Fresh memory has arbitrary content, given
by a function from positions to bytes. Reads and writes outside a block are
partial, so that a program which leaves its block has no result.
-/

namespace MlsImgSearch.Lib.Bytes

/-! ## Sizes -/

/-- The numerals of `Fin 2` need it, and so on for digits of base 10 and 16 and for bytes. -/
instance neZero_bit : NeZero 2 := ⟨by decide⟩

instance neZero_decimal : NeZero 10 := ⟨by decide⟩

instance neZero_hex : NeZero 16 := ⟨by decide⟩

instance neZero_byte : NeZero 256 := ⟨by decide⟩

/-! ## Blocks -/

/-- A fresh block of `n` bytes with content `junk`. -/
def malloc (junk : Nat → UInt8) (n : Nat) : List UInt8 :=
  (List.range n).map junk

/-- Copy `data` into `block` from position `off` on; `none` outside the block. -/
def writeAt (block : List UInt8) (off : Nat) (data : List UInt8) : Option (List UInt8) :=
  if off + data.length ≤ block.length then
    some (block.take off ++ data ++ block.drop (off + data.length))
  else none

@[simp]
theorem length_malloc (junk : Nat → UInt8) (n : Nat) : (malloc junk n).length = n := by
  simp [malloc]

theorem writeAt_eq_some {block data : List UInt8} {off : Nat}
    (inside : off + data.length ≤ block.length) :
    writeAt block off data = some (block.take off ++ data ++ block.drop (off + data.length)) :=
  if_pos inside

theorem length_writeAt {block data result : List UInt8} {off : Nat}
    (written : writeAt block off data = some result) : result.length = block.length := by
  unfold writeAt at written
  split at written
  · obtain rfl := Option.some.inj written
    simp only [List.length_append, List.length_take, List.length_drop]
    omega
  · cases written

/-- Writing right behind a known prefix extends that prefix. -/
theorem take_writeAt {block data result : List UInt8} {off : Nat}
    (written : writeAt block off data = some result) :
    result.take (off + data.length) = block.take off ++ data := by
  unfold writeAt at written
  split at written
  · obtain rfl := Option.some.inj written
    refine List.take_left' ?_
    simp only [List.length_append, List.length_take]
    omega
  · cases written

theorem writeAt_drop {block data result : List UInt8} {off : Nat}
    (written : writeAt block off data = some result) {p : Nat} (beyond : off + data.length ≤ p) :
    result.drop p = block.drop p := by
  unfold writeAt at written
  split at written
  · next inside =>
      obtain rfl := Option.some.inj written
      have front : (block.take off ++ data).length = off + data.length := by
        rw [List.length_append, List.length_take, Nat.min_eq_left (by omega)]
      obtain ⟨more, rfl⟩ := Nat.exists_eq_add_of_le beyond
      rw [← List.drop_drop, List.drop_left' front, List.drop_drop]
  · cases written

theorem writeAt_take {block data result : List UInt8} {off : Nat}
    (written : writeAt block off data = some result) {n : Nat} (before : n ≤ off) :
    result.take n = block.take n := by
  unfold writeAt at written
  split at written
  · next inside =>
      obtain rfl := Option.some.inj written
      rw [List.append_assoc, List.take_append_of_le_length (by rw [List.length_take]; omega),
        List.take_take, Nat.min_eq_left before]
  · cases written

theorem slice_of_drop {block x y : List UInt8} {filled start : Nat}
    (text : (block.take filled).drop start = x ++ y) :
    (block.take (start + x.length)).drop start = x := by
  have enough := congrArg List.length text
  rw [List.length_drop, List.length_take, List.length_append] at enough
  rw [List.drop_take, Nat.add_sub_cancel_left]
  rw [List.drop_take] at text
  have front := congrArg (List.take x.length) text
  rw [List.take_take, List.take_left' rfl] at front
  by_cases none' : x = []
  · rw [none', List.length_nil, List.take_zero]
  · have positive := List.length_pos_of_ne_nil none'
    rwa [Nat.min_eq_left (by omega)] at front

/-- What was stored behind some bytes. -/
theorem slice_of_take {block held piece : List UInt8}
    (content : block.take (held.length + piece.length) = held ++ piece) :
    (block.drop held.length).take piece.length = piece := by
  have slice : (block.take (held.length + piece.length)).drop held.length = piece := by
    rw [content, List.drop_left]
  rwa [List.drop_take, Nat.add_sub_cancel_left] at slice

/-- A block that is made when there is none takes up what comes behind the bytes that it holds. -/
theorem append_held {buffer : Option (List UInt8)} {size length : Nat} {held piece : List UInt8}
    (junk : Nat → UInt8) (sized : ∀ block, buffer = some block → block.length = size)
    (counted : length = held.length) (content : (buffer.getD []).take length = held)
    (room : held.length + piece.length ≤ size) :
    ∃ block, writeAt (buffer.getD (malloc junk size)) length piece = some block ∧
      block.length = size ∧ block.take (held.length + piece.length) = held ++ piece := by
  obtain ⟨whole, front⟩ : (buffer.getD (malloc junk size)).length = size ∧
      (buffer.getD (malloc junk size)).take length = held := by
    cases buffer with
    | none =>
        rw [Option.getD_none, List.take_nil] at content
        rw [Option.getD_none, length_malloc, counted, ← content]
        exact ⟨rfl, List.take_zero⟩
    | some block => exact ⟨sized block rfl, content⟩
  obtain ⟨block, written⟩ : ∃ block,
      writeAt (buffer.getD (malloc junk size)) length piece = some block :=
    ⟨_, writeAt_eq_some (by omega)⟩
  refine ⟨block, written, (length_writeAt written).trans whole, ?_⟩
  rw [← counted, take_writeAt written, front]

theorem getElem?_writeAt {block data result : List UInt8} {off : Nat}
    (written : writeAt block off data = some result) (i : Nat) :
    result[i]? = if off ≤ i ∧ i < off + data.length then data[i - off]? else block[i]? := by
  unfold writeAt at written
  split at written
  · next inside =>
      obtain rfl := Option.some.inj written
      have front : (block.take off).length = off := by
        rw [List.length_take]
        omega
      rw [List.append_assoc]
      by_cases before : i < off
      · rw [if_neg (by omega), List.getElem?_append_left (by omega), List.getElem?_take_of_lt before]
      · rw [List.getElem?_append_right (by omega), front]
        by_cases within : i < off + data.length
        · rw [if_pos (by omega), List.getElem?_append_left (by omega)]
        · rw [if_neg (by omega), List.getElem?_append_right (by omega), List.getElem?_drop]
          congr 1
          omega
  · cases written

/-! ## Little and big endian integers -/

/-- The low `k` bytes of `n`, least significant first. -/
def leBytes : Nat → Nat → List UInt8
  | 0, _ => []
  | k + 1, n => UInt8.ofNat n :: leBytes k (n / 256)

/-- The number that a little endian byte string denotes. -/
def leNat : List UInt8 → Nat
  | [] => 0
  | b :: rest => b.toNat + 256 * leNat rest

@[simp]
theorem length_leBytes (k n : Nat) : (leBytes k n).length = k := by
  induction k generalizing n with
  | zero => rfl
  | succ k ih => simp [leBytes, ih]

theorem leNat_leBytes (k n : Nat) : leNat (leBytes k n) = n % 256 ^ k := by
  induction k generalizing n with
  | zero => simp [leBytes, leNat, Nat.mod_one]
  | succ k ih =>
      have split : 256 ^ (k + 1) = 256 * 256 ^ k := by rw [Nat.pow_succ, Nat.mul_comm]
      simp only [leBytes, leNat, ih, UInt8.toNat_ofNat']
      rw [split, Nat.mod_mul]

theorem leNat_leBytes_of_lt {k n : Nat} (small : n < 256 ^ k) : leNat (leBytes k n) = n := by
  rw [leNat_leBytes, Nat.mod_eq_of_lt small]

theorem leBytes_leNat (bytes : List UInt8) : leBytes bytes.length (leNat bytes) = bytes := by
  induction bytes with
  | nil => rfl
  | cons b rest ih =>
      have low : UInt8.ofNat (b.toNat + 256 * leNat rest) = b := by
        apply UInt8.toNat_inj.mp
        have bound := b.toNat_lt
        rw [UInt8.toNat_ofNat']
        omega
      have high : (b.toNat + 256 * leNat rest) / 256 = leNat rest := by
        have bound := b.toNat_lt
        omega
      rw [List.length_cons, leNat, leBytes, low, high, ih]

theorem leNat_lt (bytes : List UInt8) : leNat bytes < 256 ^ bytes.length := by
  have roundTrip := leNat_leBytes bytes.length (leNat bytes)
  rw [leBytes_leNat] at roundTrip
  rw [roundTrip]
  exact Nat.mod_lt _ (Nat.pow_pos (by decide))

/-- Read a little endian number of `k` bytes and return the rest. -/
def readLe (k : Nat) (data : List UInt8) : Option (Nat × List UInt8) :=
  if data.length < k then none else some (leNat (data.take k), data.drop k)

theorem readLe_append {k n : Nat} (small : n < 256 ^ k) (rest : List UInt8) :
    readLe k (leBytes k n ++ rest) = some (n, rest) := by
  have enough : ¬ (leBytes k n ++ rest).length < k := by
    rw [List.length_append, length_leBytes]
    omega
  rw [readLe, if_neg enough, List.take_left' (length_leBytes k n),
    List.drop_left' (length_leBytes k n), leNat_leBytes_of_lt small]

/-- What was read is what stood there. -/
theorem readLe_eq_some {k n : Nat} {data rest : List UInt8}
    (found : readLe k data = some (n, rest)) : data = leBytes k n ++ rest ∧ n < 256 ^ k := by
  unfold readLe at found
  split at found
  · cases found
  · next enough =>
      obtain ⟨rfl, rfl⟩ := Prod.mk.inj (Option.some.inj found)
      have size : (data.take k).length = k := by
        rw [List.length_take]
        omega
      have bytes := leBytes_leNat (data.take k)
      have bound := leNat_lt (data.take k)
      rw [size] at bytes bound
      exact ⟨by rw [bytes, List.take_append_drop], bound⟩

/-- Network byte order. -/
def beBytes (k n : Nat) : List UInt8 := (leBytes k n).reverse

def beNat (bytes : List UInt8) : Nat := leNat bytes.reverse

@[simp]
theorem length_beBytes (k n : Nat) : (beBytes k n).length = k := by
  simp [beBytes]

theorem beNat_beBytes_of_lt {k n : Nat} (small : n < 256 ^ k) : beNat (beBytes k n) = n := by
  simp [beNat, beBytes, leNat_leBytes_of_lt small]

end MlsImgSearch.Lib.Bytes
