import Mathlib.Algebra.BigOperators.Intervals
import Mathlib.Algebra.BigOperators.Group.Finset.Basic
import Mathlib.Tactic.Ring

/-!
# Numbers as rows of lanes

A number of `n` lanes of `w` bits each is given by the values of its lanes, the
lowest first. Masks that keep every other lane, and shifts by one lane, add the
lanes of a number up in pairs; a word is counted by repeating that.
-/

namespace MlsImgSearch.Lib.Lanes

/-- The number with the lanes `d 0, …, d (n - 1)`. -/
def lanes (w : Nat) : Nat → (Nat → Nat) → Nat
  | 0, _ => 0
  | n + 1, d => d 0 + 2 ^ w * lanes w n fun i => d (i + 1)

/-- The mask of `2 * n` lanes that keeps the lower lane of each pair. -/
def evenMask (w n : Nat) : Nat := lanes (2 * w) n fun _ => 2 ^ w - 1

variable {w n : Nat} {d : Nat → Nat}

/-- The lowest pair of lanes. -/
theorem lanes_pair (w n : Nat) (d : Nat → Nat) :
    lanes w (2 * (n + 1)) d =
      d 0 + 2 ^ w * (d 1 + 2 ^ w * lanes w (2 * n) fun i => d (i + 2)) := rfl

theorem lanes_add (w n : Nat) (d e : Nat → Nat) :
    lanes w n d + lanes w n e = lanes w n fun i => d i + e i := by
  induction n generalizing d e with
  | zero => rfl
  | succ n ih =>
      rw [lanes, lanes, lanes, ← ih]
      ring

theorem two_pow_double (w : Nat) : 2 ^ (2 * w) = 2 ^ w * 2 ^ w := by
  rw [Nat.two_mul, Nat.pow_add]

/-- The lanes of a number, in pairs. -/
theorem lanes_double (w n : Nat) (d : Nat → Nat) :
    lanes w (2 * n) d =
      lanes (2 * w) n (fun i => d (2 * i)) + 2 ^ w * lanes (2 * w) n fun i => d (2 * i + 1) := by
  induction n generalizing d with
  | zero => rfl
  | succ n ih =>
      rw [lanes_pair, ih, lanes, lanes, two_pow_double]
      show _ = d 0 + 2 ^ w * 2 ^ w * lanes (2 * w) n (fun i => d (2 * i + 2)) +
        2 ^ w * (d 1 + 2 ^ w * 2 ^ w * lanes (2 * w) n fun i => d (2 * i + 1 + 2))
      ring

/-- A mask over the lowest pair of lanes keeps the lower one. -/
theorem and_mask {low : Nat} (small : low < 2 ^ w) (high mask : Nat) :
    (low + 2 ^ w * high) &&& (2 ^ w - 1 + 2 ^ (2 * w) * mask) =
      low + 2 ^ (2 * w) * ((high >>> w) &&& mask) := by
  have ones : 2 ^ w - 1 < 2 ^ w := Nat.sub_lt (Nat.two_pow_pos w) Nat.one_pos
  have whole : 2 ^ w - 1 + 2 ^ (2 * w) * mask = 2 ^ w * (2 ^ w * mask) + (2 ^ w - 1) := by
    rw [two_pow_double, Nat.add_comm, Nat.mul_assoc]
  have kept : low + 2 ^ (2 * w) * ((high >>> w) &&& mask) =
      2 ^ w * (2 ^ w * ((high >>> w) &&& mask)) + low := by
    rw [two_pow_double]
    ring
  rw [whole, kept, Nat.add_comm low]
  refine Nat.eq_of_testBit_eq fun j => ?_
  rw [Nat.testBit_and, Nat.testBit_two_pow_mul_add _ small, Nat.testBit_two_pow_mul_add _ ones,
    Nat.testBit_two_pow_mul_add _ small]
  by_cases inLow : j < w
  · rw [if_pos inLow, if_pos inLow, if_pos inLow, Nat.testBit_two_pow_sub_one, decide_eq_true inLow,
      Bool.and_true]
  · rw [if_neg inLow, if_neg inLow, if_neg inLow, Nat.testBit_two_pow_mul, Nat.testBit_two_pow_mul]
    by_cases inHigh : w ≤ j - w
    · have back : w + (j - w - w) = j - w := by omega
      rw [decide_eq_true inHigh, Bool.true_and, Bool.true_and, Nat.testBit_and,
        Nat.testBit_shiftRight, back]
    · rw [decide_eq_false inHigh, Bool.false_and, Bool.false_and, Bool.and_false]

theorem shiftRight_lane {low : Nat} (small : low < 2 ^ w) (high : Nat) :
    (low + 2 ^ w * high) >>> w = high := by
  rw [Nat.shiftRight_eq_div_pow, Nat.add_mul_div_left _ _ (Nat.two_pow_pos w),
    Nat.div_eq_of_lt small, Nat.zero_add]

theorem evenMask_succ (w n : Nat) :
    evenMask w (n + 1) = 2 ^ w - 1 + 2 ^ (2 * w) * evenMask w n := rfl

theorem lanes_and_evenMask (small : ∀ i, d i < 2 ^ w) :
    lanes w (2 * n) d &&& evenMask w n = lanes (2 * w) n fun i => d (2 * i) := by
  induction n generalizing d with
  | zero => exact Nat.zero_and _
  | succ n ih =>
      rw [lanes_pair, evenMask_succ, and_mask (small 0), shiftRight_lane (small 1),
        ih fun i => small (i + 2), lanes]
      rfl

theorem shiftRight_and_evenMask (small : ∀ i, d i < 2 ^ w) :
    (lanes w (2 * n) d >>> w) &&& evenMask w n = lanes (2 * w) n fun i => d (2 * i + 1) := by
  induction n generalizing d with
  | zero =>
      rw [lanes, Nat.zero_shiftRight]
      exact Nat.zero_and _
  | succ n ih =>
      rw [lanes_pair, shiftRight_lane (small 0), evenMask_succ, and_mask (small 1),
        ih fun i => small (i + 2), lanes]
      rfl

/-- Neighbours that add up inside of a lane may be masked after the addition. -/
theorem add_shiftRight_and_evenMask (small : ∀ i, d i + d (i + 1) < 2 ^ w) :
    (lanes w (2 * n) d + (lanes w (2 * n) d >>> w)) &&& evenMask w n =
      lanes (2 * w) n fun i => d (2 * i) + d (2 * i + 1) := by
  have each : ∀ i, d i < 2 ^ w := fun i => lt_of_le_of_lt (Nat.le_add_right ..) (small i)
  induction n generalizing d with
  | zero =>
      rw [lanes, Nat.zero_shiftRight]
      exact Nat.zero_and _
  | succ n ih =>
      have later := ih (d := fun i => d (i + 2)) (fun i => small (i + 2)) fun i => each (i + 2)
      -- the upper lane of the pair is added to the lower lane of the next one
      have carry : (d 1 + lanes w (2 * n) fun i => d (i + 2)) >>> w =
          (lanes w (2 * n) fun i => d (i + 2)) >>> w := by
        cases n with
        | zero =>
            rw [Nat.shiftRight_eq_div_pow, Nat.shiftRight_eq_div_pow]
            exact (Nat.div_eq_of_lt (each 1)).trans (Nat.zero_div _).symm
        | succ n =>
            rw [lanes_pair, shiftRight_lane (each 2), ← Nat.add_assoc, shiftRight_lane (small 1)]
      have sum : lanes w (2 * (n + 1)) d + (lanes w (2 * (n + 1)) d >>> w) =
          (d 0 + d 1) + 2 ^ w * ((d 1 + lanes w (2 * n) fun i => d (i + 2)) +
            2 ^ w * lanes w (2 * n) fun i => d (i + 2)) := by
        rw [lanes_pair, shiftRight_lane (each 0)]
        ring
      rw [sum, evenMask_succ, and_mask (small 0), Nat.shiftRight_eq_div_pow,
        Nat.add_mul_div_left _ _ (Nat.two_pow_pos w), ← Nat.shiftRight_eq_div_pow, carry,
        Nat.add_comm (_ >>> w), later, lanes]
      rfl

theorem lanes_lt (small : ∀ i, d i < 2 ^ w) : lanes w n d < 2 ^ (w * n) := by
  induction n generalizing d with
  | zero => exact Nat.one_pos
  | succ n ih =>
      have rest : lanes w n (fun i => d (i + 1)) + 1 ≤ 2 ^ (w * n) := ih fun i => small (i + 1)
      calc lanes w (n + 1) d < 2 ^ w + 2 ^ w * lanes w n fun i => d (i + 1) :=
            Nat.add_lt_add_right (small 0) _
        _ = 2 ^ w * (lanes w n (fun i => d (i + 1)) + 1) := by ring
        _ ≤ 2 ^ w * 2 ^ (w * n) := Nat.mul_le_mul_left _ rest
        _ = 2 ^ (w * (n + 1)) := by rw [← Nat.pow_add, Nat.mul_succ, Nat.add_comm]

theorem lanes_of_zero (w n : Nat) (zero : ∀ i, d i = 0) : lanes w n d = 0 := by
  induction n generalizing d with
  | zero => rfl
  | succ n ih => rw [lanes, zero, ih fun i => zero (i + 1), Nat.mul_zero]

/-- Empty lanes on top do not count. -/
theorem lanes_succ_of_zero (zero : ∀ i, n ≤ i → d i = 0) : lanes w (n + 1) d = lanes w n d := by
  induction n generalizing d with
  | zero => exact lanes_of_zero w 1 fun i => zero i (Nat.zero_le i)
  | succ n ih =>
      rw [lanes, ih fun i above => zero (i + 1) (Nat.succ_le_succ above)]
      rfl

/-- A shift by whole lanes. -/
theorem lanes_shiftRight (small : ∀ i, d i < 2 ^ w) (zero : ∀ i, n ≤ i → d i = 0) (k : Nat) :
    lanes w n d >>> (w * k) = lanes w n fun i => d (i + k) := by
  induction k generalizing d with
  | zero => rfl
  | succ k ih =>
      have shifted : ∀ i, n ≤ i → d (i + 1) = 0 := fun i above => zero (i + 1) (Nat.le_succ_of_le above)
      rw [Nat.mul_succ, Nat.add_comm, Nat.shiftRight_add, ← lanes_succ_of_zero zero, lanes,
        shiftRight_lane (small 0), ih (fun i => small (i + 1)) shifted]
      exact congrArg (lanes w n) (funext fun i => congrArg d (by omega))

/-- The bits of a number are its lanes of one bit. -/
theorem lanes_testBit (n x : Nat) (small : x < 2 ^ n) :
    lanes 1 n (fun i => (x.testBit i).toNat) = x := by
  induction n generalizing x with
  | zero => exact (Nat.lt_one_iff.mp small).symm
  | succ n ih =>
      have shifted : (fun i => (x.testBit (i + 1)).toNat) = fun i => ((x / 2).testBit i).toNat :=
        funext fun i => by rw [Nat.testBit_succ]
      rw [lanes, shifted, ih (x / 2) (by rw [Nat.pow_succ] at small; omega), Nat.testBit_zero,
        Nat.pow_one]
      rcases Nat.mod_two_eq_zero_or_one x with even | odd
      · rw [even]
        show 0 + 2 * (x / 2) = x
        omega
      · rw [odd]
        show 1 + 2 * (x / 2) = x
        omega

theorem testBit_lanes {b : Nat → Bool} {i : Nat} (inside : i < n) :
    (lanes 1 n fun i => (b i).toNat).testBit i = b i := by
  induction n generalizing b i with
  | zero => exact absurd inside (Nat.not_lt_zero i)
  | succ n ih =>
      have low : (b 0).toNat < 2 ^ 1 := Bool.toNat_lt _
      rw [lanes, Nat.add_comm, Nat.testBit_two_pow_mul_add _ low]
      cases i with
      | zero =>
          rw [if_pos Nat.one_pos]
          cases b 0 <;> rfl
      | succ i =>
          rw [if_neg (by omega), Nat.add_sub_cancel]
          exact ih (Nat.lt_of_succ_lt_succ inside)

/-- Pairs add up to the sum of all lanes. -/
theorem sum_pairs (n : Nat) (d : Nat → Nat) :
    ∑ i ∈ Finset.range n, (d (2 * i) + d (2 * i + 1)) = ∑ i ∈ Finset.range (2 * n), d i := by
  induction n with
  | zero => rfl
  | succ n ih =>
      rw [Finset.sum_range_succ, ih, Nat.mul_succ, Finset.sum_range_succ, Finset.sum_range_succ]
      exact (Nat.add_assoc ..).symm

end MlsImgSearch.Lib.Lanes
