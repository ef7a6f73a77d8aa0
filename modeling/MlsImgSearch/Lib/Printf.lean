import Mathlib.Data.List.TakeWhile
import MlsImgSearch.Lib.Bytes
import MlsImgSearch.Lib.Int32

/-!
# Printing into a block

`snprintf` writes as much of a text as its size allows, and a zero. It returns the
length of the whole text.
-/

namespace MlsImgSearch.Lib.Printf

open Lib.Bytes Lib.Int32

/-- What is returned for a text: its length, or −1 if that is not an `int`. -/
def returned (text : List UInt8) : Int := if text.length < 2 ^ 31 then text.length else -1

/-- Prints `text` at `buf + off`. The result is what is returned and the block; there is none if
something is written outside. -/
def snprintf (buf : List UInt8) (off : Int) (size : Nat) (text : List UInt8) :
    Option (Int × List UInt8) :=
  if size = 0 then some (returned text, buf)
  else if off < 0 then none
  else
    (writeAt buf off.toNat (text.take (size - 1) ++ [0])).map fun buf => (returned text, buf)

/-- What `%.*s` prints of a string without a zero at its end, for its length as an `int`. A negative
precision counts for none, and there is no end then. -/
def precision (bytes : List UInt8) : Option (List UInt8) :=
  if int32 bytes.length < 0 then none
  else some ((bytes.take (int32 bytes.length).toNat).takeWhile (· ≠ 0))

/-- The difference of two numbers of 64 bits. -/
def sizeSub (a : Nat) (b : Int) : Nat :=
  if b ≤ a then (a - b).toNat else (2 ^ 64 + a - b).toNat

/-! ## Precision -/

section Precision

variable {bytes shown : List UInt8}

/-- The length as a number of 31 bits is not negative. -/
theorem precision_isSome_iff (bytes : List UInt8) :
    (∃ shown, precision bytes = some shown) ↔ bytes.length % 2 ^ 32 < 2 ^ 31 := by
  unfold precision int32
  split
  · rename_i small
    rw [if_neg (by omega)]
    exact iff_of_true ⟨_, rfl⟩ small
  · rename_i large
    rw [if_pos (by omega)]
    exact iff_of_false nofun large

theorem precision_some (printed : precision bytes = some shown) :
    bytes.length % 2 ^ 32 < 2 ^ 31 ∧
      shown = (bytes.take (bytes.length % 2 ^ 32)).takeWhile (· ≠ 0) := by
  have small := (precision_isSome_iff bytes).mp ⟨shown, printed⟩
  rw [precision, int32, if_pos small, if_neg (by omega)] at printed
  exact ⟨small, (Option.some.inj printed).symm⟩

/-- The whole string is printed if its length is an `int` and it has no zero. -/
theorem precision_whole_iff (printed : precision bytes = some shown) :
    shown = bytes ↔ bytes.length < 2 ^ 31 ∧ 0 ∉ bytes := by
  obtain ⟨small, rfl⟩ := precision_some printed
  constructor
  · intro whole
    have long : bytes.length ≤ bytes.length % 2 ^ 32 := by
      have shorter := (List.takeWhile_prefix (l := bytes.take (bytes.length % 2 ^ 32))
        (fun c => decide (c ≠ 0))).length_le
      rw [whole, List.length_take] at shorter
      omega
    refine ⟨by omega, fun zero => ?_⟩
    rw [← whole] at zero
    simpa using List.mem_takeWhile_imp zero
  · rintro ⟨short, zeroFree⟩
    rw [Nat.mod_eq_of_lt (by omega), List.take_length, List.takeWhile_eq_self_iff]
    intro c member
    exact decide_eq_true fun zero => zeroFree (zero ▸ member)

end Precision

/-! ## Printing -/

section Print

variable {buf text : List UInt8} {off : Int} {size n : Nat}

theorem length_snprintf {ret : Int} {buf' : List UInt8}
    (printed : snprintf buf off size text = some (ret, buf')) :
    ret = returned text ∧ buf'.length = buf.length := by
  unfold snprintf at printed
  split at printed
  · obtain ⟨rfl, rfl⟩ := Prod.mk.inj (Option.some.inj printed)
    exact ⟨rfl, rfl⟩
  · split at printed
    · cases printed
    · obtain ⟨written, isWritten, same⟩ := Option.map_eq_some_iff.mp printed
      obtain ⟨rfl, rfl⟩ := Prod.mk.inj same
      exact ⟨rfl, length_writeAt isWritten⟩

/-- Inside a block nothing is written outside. -/
theorem snprintf_inside (text : List UInt8) (inside : n ≤ buf.length) :
    ∃ buf', snprintf buf n (buf.length - n) text = some (returned text, buf') ∧
      buf'.length = buf.length ∧
      (n + text.length < buf.length →
        buf'.take (n + text.length) = buf.take n ++ text) := by
  unfold snprintf
  by_cases full : buf.length - n = 0
  · rw [if_pos full]
    exact ⟨buf, rfl, rfl, fun more => by omega⟩
  · have fits : n + (text.take (buf.length - n - 1) ++ [0]).length ≤ buf.length := by
      rw [List.length_append, List.length_take, List.length_singleton]
      omega
    have written := writeAt_eq_some fits
    rw [if_neg full, if_neg (by omega), Int.toNat_natCast, written]
    refine ⟨_, rfl, length_writeAt written, fun more => ?_⟩
    have whole : text.take (buf.length - n - 1) = text := List.take_of_length_le (by omega)
    have behind : ∀ rest, buf.take n ++ (text ++ [0]) ++ rest =
        buf.take n ++ text ++ ([0] ++ rest) := fun rest => by simp
    rw [whole, behind]
    refine List.take_left' ?_
    rw [List.length_append, List.length_take, Nat.min_eq_left inside]

/-- Behind its end the block is left. -/
theorem snprintf_outside (some' : size ≠ 0) (outside : off < 0 ∨ (buf.length : Int) < off) :
    snprintf buf off size text = none := by
  rw [snprintf, if_neg some']
  by_cases negative : off < 0
  · exact if_pos negative
  · rw [if_neg negative, writeAt, if_neg]
    · rfl
    · rw [List.length_append, List.length_singleton]
      omega

end Print

end MlsImgSearch.Lib.Printf
