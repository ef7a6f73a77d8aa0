import Mathlib.Algebra.Order.Ring.Int
import Mathlib.Tactic.Common

/-!
# Numbers of 32 bits

What becomes of a number that is kept as a signed number of 32 bits, and of such a
number that is used as an unsigned one of 64 bits.
-/

namespace MlsImgSearch.Lib.Int32

def int32 (n : Nat) : Int :=
  if n % 2 ^ 32 < 2 ^ 31 then (n % 2 ^ 32 : Nat) else (n % 2 ^ 32 : Nat) - 2 ^ 32

def sizeT (n : Int) : Nat := (n % 2 ^ 64).toNat

theorem int32_small {n : Nat} (small : n < 2 ^ 31) : int32 n = n := by
  rw [int32, Nat.mod_eq_of_lt (by omega), if_pos small]

/-- What is kept is congruent, and lies between the bounds. -/
theorem int32_spec (n : Nat) : ∃ k : Nat, int32 n = n - 2 ^ 32 * (k : Int) ∧
    -2 ^ 31 ≤ int32 n ∧ int32 n < 2 ^ 31 := by
  rw [int32]
  split
  · exact ⟨n / 2 ^ 32, by omega, by omega, by omega⟩
  · exact ⟨n / 2 ^ 32 + 1, by omega, by omega, by omega⟩

theorem sizeT_small {n : Nat} (small : n < 2 ^ 31) : sizeT n = n := by
  rw [sizeT]
  omega

end MlsImgSearch.Lib.Int32
