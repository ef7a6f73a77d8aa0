import Mathlib.Algebra.Order.Ring.Int
import Mathlib.Data.Nat.Bitwise
import Mathlib.Tactic.Common

/-!
# Bitmaps

Bits in a byte string, eight in a byte, the first one lowest.
-/

namespace MlsImgSearch.Lib.Bitmap

def bitAt (bytes : List UInt8) (k : Nat) : Option Bool :=
  bytes[k / 8]?.map fun b => b.toNat.testBit (k % 8)

def pack (bits : List Bool) : List UInt8 :=
  (List.range ((bits.length + 7) / 8)).map fun j =>
    UInt8.ofNat (Nat.ofBits fun i : Fin 8 => bits.getD (8 * j + i) false)

@[simp]
theorem length_pack (bits : List Bool) : (pack bits).length = (bits.length + 7) / 8 := by
  rw [pack, List.length_map, List.length_range]

theorem bitAt_isSome {bytes : List UInt8} {k : Nat} :
    (bitAt bytes k).isSome ↔ k / 8 < bytes.length := by
  simp [bitAt]

theorem bitAt_append_left {bytes : List UInt8} {k : Nat} (inside : k / 8 < bytes.length)
    (rest : List UInt8) : bitAt (bytes ++ rest) k = bitAt bytes k := by
  rw [bitAt, bitAt, List.getElem?_append_left inside]

theorem bitAt_pack {bits : List Bool} {k : Nat} (inside : k < bits.length) :
    bitAt (pack bits) k = bits[k]? := by
  have byte : k / 8 < (bits.length + 7) / 8 := by omega
  have low : k % 8 < 8 := Nat.mod_lt k (by decide)
  have place : 8 * (k / 8) + k % 8 = k := Nat.div_add_mod k 8
  rw [bitAt, pack, List.getElem?_map, List.getElem?_range byte, Option.map_some, Option.map_some,
    UInt8.toNat_ofNat', Nat.testBit_mod_two_pow, Nat.testBit_ofBits_lt _ _ low, place,
    List.getElem?_eq_getElem inside, List.getD_eq_getElem?_getD, List.getElem?_eq_getElem inside]
  simp [low]

end MlsImgSearch.Lib.Bitmap
