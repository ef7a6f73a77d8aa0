import Mathlib.Algebra.Order.Ring.Int
import Mathlib.Data.BitVec
import Mathlib.Tactic.Common

/-!
# Cyclic redundancy checks

A register of any width is shifted to the right; the polynomial is added when a one
falls out. The bits of a stream are added at the low end. The table of a faster
implementation stands for eight shifts at once.
-/

namespace MlsImgSearch.Lib.Crc

variable {w : Nat} (poly : BitVec w)

def shift (c : BitVec w) : BitVec w :=
  if c.getLsbD 0 then (c >>> 1) ^^^ poly else c >>> 1

def shifts : Nat → BitVec w → BitVec w
  | 0, c => c
  | n + 1, c => shifts n (shift poly c)

/-- A bit at the low end of the register. -/
def bitWord (bit : Bool) : BitVec w := if bit then 1#w else 0#w

def feed (c : BitVec w) (bit : Bool) : BitVec w := shift poly (c ^^^ bitWord bit)

/-- The register after a stream of bits. -/
def stream (c : BitVec w) (bits : List Bool) : BitVec w := bits.foldl (feed poly) c

/-- The bits of a short stream in one register, the first at the low end. -/
def wordOf : List Bool → BitVec w
  | [] => 0#w
  | bit :: bits => (wordOf bits <<< 1) ^^^ bitWord bit

/-! ## Shifts are linear -/

theorem shift_xor (a b : BitVec w) : shift poly (a ^^^ b) = shift poly a ^^^ shift poly b := by
  unfold shift
  rw [BitVec.getLsbD_xor, BitVec.ushiftRight_xor_distrib]
  cases a.getLsbD 0 <;> cases b.getLsbD 0
  · rfl
  · simp [BitVec.xor_assoc]
  · simp only [Bool.xor_false, if_true, Bool.false_eq_true, if_false]
    rw [BitVec.xor_assoc, BitVec.xor_comm (b >>> 1), ← BitVec.xor_assoc]
  · simp only [Bool.xor_self, if_true, Bool.false_eq_true, if_false]
    rw [BitVec.xor_assoc (a >>> 1) poly, BitVec.xor_comm poly, BitVec.xor_assoc (b >>> 1),
      BitVec.xor_self, BitVec.xor_zero]

theorem shifts_xor (n : Nat) (a b : BitVec w) :
    shifts poly n (a ^^^ b) = shifts poly n a ^^^ shifts poly n b := by
  induction n generalizing a b with
  | zero => rfl
  | succ n ih => rw [shifts, shift_xor, ih, shifts, shifts]

/-- Zeros that fall out leave the polynomial alone. -/
theorem shifts_of_low (n : Nat) {c : BitVec w} (low : ∀ i < n, c.getLsbD i = false) :
    shifts poly n c = c >>> n := by
  induction n generalizing c with
  | zero => rw [shifts, BitVec.ushiftRight_zero]
  | succ n ih =>
      have zero : shift poly c = c >>> 1 := by
        rw [shift, if_neg (by rw [low 0 (Nat.zero_lt_succ n)]; exact Bool.false_ne_true)]
      rw [shifts, zero, ih, ← BitVec.shiftRight_add, Nat.add_comm]
      intro i inside
      rw [BitVec.getLsbD_ushiftRight]
      exact low (1 + i) (by omega)

/-- A table with the shifts of the low bits alone replaces the shifts of the register. -/
theorem shifts_table (n : Nat) (c mask : BitVec w)
    (low : ∀ i < w, mask.getLsbD i = decide (i < n)) :
    shifts poly n c = (c >>> n) ^^^ shifts poly n (c &&& mask) := by
  have split : c = (c &&& ~~~mask) ^^^ (c &&& mask) := by
    apply BitVec.eq_of_getLsbD_eq
    intro i inside
    rw [BitVec.getLsbD_xor, BitVec.getLsbD_and, BitVec.getLsbD_and, BitVec.getLsbD_not]
    cases c.getLsbD i <;> cases mask.getLsbD i <;> simp [inside]
  have high : shifts poly n (c &&& ~~~mask) = c >>> n := by
    rw [shifts_of_low]
    · apply BitVec.eq_of_getLsbD_eq
      intro i inside
      rw [BitVec.getLsbD_ushiftRight, BitVec.getLsbD_ushiftRight, BitVec.getLsbD_and,
        BitVec.getLsbD_not]
      rcases Nat.lt_or_ge (n + i) w with below | above
      · have clear : mask.getLsbD (n + i) = false := by
          rw [low (n + i) below]
          simp
        rw [clear, Bool.not_false, Bool.and_true, decide_eq_true below, Bool.and_true]
      · simp [BitVec.getLsbD_of_ge _ _ above]
    · intro i inside
      rw [BitVec.getLsbD_and, BitVec.getLsbD_not]
      rcases Nat.lt_or_ge i w with below | above
      · simp [low i below, inside]
      · simp [BitVec.getLsbD_of_ge _ _ above]
  calc shifts poly n c = shifts poly n ((c &&& ~~~mask) ^^^ (c &&& mask)) := by rw [← split]
    _ = (c >>> n) ^^^ shifts poly n (c &&& mask) := by rw [shifts_xor, high]

/-! ## A short stream at once -/

theorem getLsbD_wordOf (bits : List Bool) {i : Nat} (inside : i < w) :
    (wordOf bits : BitVec w).getLsbD i = bits.getD i false := by
  induction bits generalizing i with
  | nil => simp [wordOf]
  | cons bit bits ih =>
      rw [wordOf, BitVec.getLsbD_xor, BitVec.getLsbD_shiftLeft, bitWord]
      cases i with
      | zero => cases bit <;> simp [inside]
      | succ i =>
          rw [Nat.add_sub_cancel, ih (by omega)]
          cases bit <;> simp [inside]

/-- Shifting a word with room at its top to the left and back. -/
theorem shift_wordOf {bits : List Bool} (room : bits.length < w) :
    shift poly ((wordOf bits : BitVec w) <<< 1) = wordOf bits := by
  have low : ((wordOf bits : BitVec w) <<< 1).getLsbD 0 = false := by
    rw [BitVec.getLsbD_shiftLeft]
    simp
  rw [shift, low, if_neg Bool.false_ne_true]
  apply BitVec.eq_of_getLsbD_eq
  intro i inside
  rw [BitVec.getLsbD_ushiftRight, BitVec.getLsbD_shiftLeft, Nat.add_sub_cancel_left]
  rcases Nat.lt_or_ge (1 + i) w with below | above
  · simp [below]
  · have beyond : bits.length ≤ i := by omega
    rw [getLsbD_wordOf bits inside, List.getD_eq_getElem?_getD, List.getElem?_eq_none beyond]
    simp [show ¬ 1 + i < w by omega]

/-- A stream that fits into the register is one addition and its number of shifts. -/
theorem stream_eq_shifts {bits : List Bool} (short : bits.length ≤ w) (c : BitVec w) :
    stream poly c bits = shifts poly bits.length (c ^^^ wordOf bits) := by
  induction bits generalizing c with
  | nil => rw [wordOf, BitVec.xor_zero]; rfl
  | cons bit bits ih =>
      rw [List.length_cons] at short
      have rest := ih (by omega) (feed poly c bit)
      have unfolded : stream poly c (bit :: bits) = stream poly (feed poly c bit) bits := rfl
      rw [unfolded, rest, List.length_cons, shifts, wordOf, BitVec.xor_comm (wordOf bits <<< 1),
        ← BitVec.xor_assoc, shift_xor, shift_wordOf poly (by omega), feed]

theorem stream_append (c : BitVec w) (first second : List Bool) :
    stream poly c (first ++ second) = stream poly (stream poly c first) second := by
  unfold stream
  exact List.foldl_append

/-! ## What is never lost -/

variable {poly}

/-- With the top bit in the polynomial a shift can be undone. -/
theorem shift_eq_zero (top : poly.msb = true) {c : BitVec w} (zero : shift poly c = 0#w) :
    c = 0#w := by
  unfold shift at zero
  split at zero
  · have same : c >>> 1 = poly := by
      have added := congrArg (· ^^^ poly) zero
      simpa [BitVec.xor_assoc] using added
    have clear : (c >>> 1).msb = false := by simp [BitVec.msb_ushiftRight]
    rw [same, top] at clear
    cases clear
  · next low =>
      apply BitVec.eq_of_getLsbD_eq
      intro i inside
      cases i with
      | zero => simpa using low
      | succ i =>
          have bit := congrArg (fun x : BitVec w => x.getLsbD i) zero
          rw [Nat.add_comm]
          simpa [BitVec.getLsbD_ushiftRight] using bit

theorem shift_inj (top : poly.msb = true) {a b : BitVec w}
    (same : shift poly a = shift poly b) : a = b := by
  have zero := shift_eq_zero top (c := a ^^^ b) (by rw [shift_xor, same, BitVec.xor_self])
  exact BitVec.xor_eq_zero_iff.mp zero

theorem shifts_inj (top : poly.msb = true) {n : Nat} {a b : BitVec w}
    (same : shifts poly n a = shifts poly n b) : a = b := by
  induction n generalizing a b with
  | zero => exact same
  | succ n ih => exact shift_inj top (ih same)

/-- Different registers stay different under the same stream. -/
theorem stream_inj (top : poly.msb = true) {bits : List Bool} {a b : BitVec w}
    (same : stream poly a bits = stream poly b bits) : a = b := by
  induction bits generalizing a b with
  | nil => exact same
  | cons bit bits ih => exact (BitVec.xor_left_inj _).mp (shift_inj top (ih same))

theorem wordOf_inj {first second : List Bool} (length : first.length = second.length)
    (short : first.length ≤ w) (same : (wordOf first : BitVec w) = wordOf second) :
    first = second := by
  apply List.ext_getElem length
  intro i inside inside'
  have bit := congrArg (fun x : BitVec w => x.getLsbD i) same
  rw [getLsbD_wordOf first (by omega), getLsbD_wordOf second (by omega)] at bit
  simpa [inside, inside'] using bit

/-- Streams that differ inside one window of the register's width never end in the same register. -/
theorem stream_ne_of_window (top : poly.msb = true) (c : BitVec w) (before after : List Bool)
    {first second : List Bool} (length : first.length = second.length) (short : first.length ≤ w)
    (differ : first ≠ second) :
    stream poly c (before ++ first ++ after) ≠ stream poly c (before ++ second ++ after) := by
  intro same
  rw [stream_append, stream_append poly c (before ++ second)] at same
  have windows := stream_inj top same
  rw [stream_append, stream_append poly c before second, stream_eq_shifts poly short,
    stream_eq_shifts poly (length ▸ short : second.length ≤ w), ← length] at windows
  exact differ (wordOf_inj length short ((BitVec.xor_right_inj _).mp (shifts_inj top windows)))

end MlsImgSearch.Lib.Crc
