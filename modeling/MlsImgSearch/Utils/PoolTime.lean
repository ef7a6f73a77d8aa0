import Mathlib.Data.BitVec
import MlsImgSearch.Utils.ComPool

/-!
# Times of the pools

The connection pools subtract two times second by second, and all pools add a wait to the
current time to get a deadline. There are three copies of the deadline.
-/

namespace MlsImgSearch.Utils.PoolTime

/-! ## Times -/

def IsInt64 (x : Int) : Prop := -2 ^ 63 ≤ x ∧ x < 2 ^ 63

instance decidableIsInt64 (x : Int) : Decidable (IsInt64 x) := inferInstanceAs (Decidable (_ ∧ _))

/-- The result of signed arithmetic; there is none if it overflows. -/
def int64 (x : Int) : Option Int := if IsInt64 x then some x else none

/-- A `timeval`, whose microseconds are less than a second. -/
structure Timeval where
  tvSec : Int
  tvUsec : Int
  isSec : IsInt64 tvSec
  isUsec : 0 ≤ tvUsec ∧ tvUsec < 1000000

structure Timespec where
  tvSec : Int
  tvNsec : Int
  deriving DecidableEq

/-- The nanoseconds are less than a second. -/
def Timespec.Normal (t : Timespec) : Prop := 0 ≤ t.tvNsec ∧ t.tvNsec < 1000000000

instance decidableNormal (t : Timespec) : Decidable t.Normal := inferInstanceAs (Decidable (_ ∧ _))

/-- What `clock_gettime` gives. -/
structure CurrentTime extends Timespec where
  isSec : IsInt64 tvSec
  isNsec : toTimespec.Normal

/-! ## Constants -/

def US_PER_NS : Nat := 1000

def MS_PER_US : Nat := 1000

def MS_PER_NS : Nat := MS_PER_US * US_PER_NS

def SEC_PER_MS : Nat := 1000

def SEC_PER_US : Nat := SEC_PER_MS * MS_PER_US

def SEC_PER_NS : Nat := SEC_PER_MS * MS_PER_US * US_PER_NS

def MS_DELETE_WAIT : Nat := 100

/-! ## The functions -/

/-- The loop of `TimeDec`, which takes `seconds` steps. -/
def timeDecLoop : Nat → Int → Option Int
  | 0, useconds => some useconds
  | seconds + 1, useconds => (int64 (useconds + SEC_PER_US)).bind (timeDecLoop seconds)

/-- `TimeDec`, which both connection pools have. -/
def timeDec (left right : Timeval) : Option Int :=
  (int64 (left.tvSec - right.tvSec)).bind fun seconds =>
    (timeDecLoop seconds.toNat (left.tvUsec - right.tvUsec)).map fun useconds =>
      if useconds < 0 then 0 else useconds

/-- `GenerateSemTime`, which both connection pools have. The argument is not used. -/
def generateSemTime (now : CurrentTime) (_ms : BitVec 32) : Option Timespec :=
  (int64 (now.tvSec + (MS_DELETE_WAIT / SEC_PER_MS : Nat))).bind fun sec =>
    let nsec := now.tvNsec + (MS_DELETE_WAIT % SEC_PER_MS * MS_PER_NS : Nat)
    if SEC_PER_NS ≤ nsec then (int64 (sec + 1)).map fun sec => ⟨sec, nsec - SEC_PER_NS⟩
    else some ⟨sec, nsec⟩

/-- `CalcSemTime` of `ComPool`. -/
def calcSemTime (now : CurrentTime) (mswait : BitVec 32) : Option Timespec :=
  (int64 (now.tvSec + (mswait.toNat / 1000 : Nat))).map fun sec =>
    ⟨sec, now.tvNsec + (mswait.toNat % 1000 * 1000 : Nat)⟩

/-! ## What is wanted -/

section Wanted

variable (left right : Timeval) (now : CurrentTime) (ms : BitVec 32)

def Timeval.useconds (t : Timeval) : Int := t.tvSec * 1000000 + t.tvUsec

def Timespec.nseconds (t : Timespec) : Int := t.tvSec * 1000000000 + t.tvNsec

/-- The difference in microseconds, or 0 for a negative one. -/
def Subtracts (result : Option Int) : Prop := result = some (max 0 (left.useconds - right.useconds))

/-- A normal time that is `ms` milliseconds later. -/
def Later (result : Option Timespec) : Prop :=
  ∃ t, result = some t ∧ t.Normal ∧ t.nseconds = now.nseconds + ms.toNat * 1000000

/-- The seconds do not decrease and the difference is an `int64_t`; or they decrease, and the
microseconds do not increase. -/
def SubtractFits : Prop :=
  right.tvSec ≤ left.tvSec ∧ left.useconds - right.useconds < 2 ^ 63 ∨
    left.tvSec < right.tvSec ∧ right.tvSec - left.tvSec ≤ 2 ^ 63 ∧ left.tvUsec ≤ right.tvUsec

/-- The time is 100 milliseconds, and a second is carried only to one that there is. -/
def GenerateFits : Prop :=
  ms.toNat = 100 ∧ (now.tvNsec < 900000000 ∨ now.tvSec + 1 < 2 ^ 63)

/-- The time is a number of whole seconds, and they can be added. -/
def CalcFits : Prop := ms.toNat % 1000 = 0 ∧ now.tvSec + (ms.toNat / 1000 : Nat) < 2 ^ 63

end Wanted

/-! ## Subtraction -/

theorem int64_of_isInt64 {x : Int} (inside : IsInt64 x) : int64 x = some x := if_pos inside

theorem int64_of_not {x : Int} (outside : ¬ IsInt64 x) : int64 x = none := if_neg outside

/-- The loop adds the seconds, if the sum is an `int64_t`. -/
theorem timeDecLoop_eq (seconds : Nat) {useconds : Int} (inside : IsInt64 useconds) :
    timeDecLoop seconds useconds = int64 (useconds + seconds * 1000000) := by
  induction seconds generalizing useconds with
  | zero => simp [timeDecLoop, int64_of_isInt64 inside]
  | succ seconds ih =>
      have factor : (SEC_PER_US : Int) = 1000000 := rfl
      rw [timeDecLoop, factor]
      obtain ⟨low, high⟩ := inside
      by_cases next : IsInt64 (useconds + 1000000)
      · rw [int64_of_isInt64 next, Option.bind_some, ih next]
        congr 1
        push_cast
        omega
      · have last : ¬ IsInt64 (useconds + (seconds + 1 : Nat) * 1000000) := by
          unfold IsInt64 at next ⊢
          push_cast
          omega
        rw [int64_of_not next, int64_of_not last]
        rfl

theorem subtracts_iff (left right : Timeval) :
    Subtracts left right (timeDec left right) ↔ SubtractFits left right := by
  obtain ⟨leftSec, leftUsec, isLeftSec, isLeftUsec⟩ := left
  obtain ⟨rightSec, rightUsec, isRightSec, isRightUsec⟩ := right
  unfold Subtracts SubtractFits timeDec Timeval.useconds
  dsimp only
  by_cases seconds : IsInt64 (leftSec - rightSec)
  · have small : IsInt64 (leftUsec - rightUsec) := by
      unfold IsInt64
      omega
    rw [int64_of_isInt64 seconds, Option.bind_some, timeDecLoop_eq _ small]
    unfold IsInt64 at *
    by_cases total : IsInt64 (leftUsec - rightUsec + (leftSec - rightSec).toNat * 1000000)
    · rw [int64_of_isInt64 total, Option.map_some, Option.some_inj]
      unfold IsInt64 at total
      split <;> omega
    · rw [int64_of_not total, Option.map_none]
      unfold IsInt64 at total
      refine iff_of_false nofun ?_
      omega
  · rw [int64_of_not seconds, Option.bind_none]
    unfold IsInt64 at *
    refine iff_of_false nofun ?_
    omega

/-! ## Deadlines -/

theorem later_some {now : CurrentTime} {ms : BitVec 32} {sec nsec : Int} :
    Later now ms (some ⟨sec, nsec⟩) ↔ (0 ≤ nsec ∧ nsec < 1000000000) ∧
      sec * 1000000000 + nsec = now.tvSec * 1000000000 + now.tvNsec + ms.toNat * 1000000 := by
  constructor
  · rintro ⟨t, isTime, normal, later⟩
    obtain rfl := Option.some.inj isTime
    exact ⟨normal, later⟩
  · rintro ⟨normal, later⟩
    exact ⟨⟨sec, nsec⟩, rfl, normal, later⟩

theorem not_later_none (now : CurrentTime) (ms : BitVec 32) : ¬ Later now ms none :=
  fun ⟨_, isTime, _⟩ => nomatch isTime

theorem generateSemTime_iff (now : CurrentTime) (ms : BitVec 32) :
    Later now ms (generateSemTime now ms) ↔ GenerateFits now ms := by
  have seconds : ((MS_DELETE_WAIT / SEC_PER_MS : Nat) : Int) = 0 := rfl
  have rest : ((MS_DELETE_WAIT % SEC_PER_MS * MS_PER_NS : Nat) : Int) = 100000000 := rfl
  have second : (SEC_PER_NS : Int) = 1000000000 := rfl
  obtain ⟨secLow, secHigh⟩ := now.isSec
  obtain ⟨nsecLow, nsecHigh⟩ := now.isNsec
  unfold GenerateFits generateSemTime
  rw [seconds, rest, second, Int.add_zero, int64_of_isInt64 now.isSec, Option.bind_some]
  dsimp only
  by_cases carried : 1000000000 ≤ now.tvNsec + 100000000
  · rw [if_pos carried]
    by_cases next : IsInt64 (now.tvSec + 1)
    · rw [int64_of_isInt64 next, Option.map_some, later_some]
      unfold IsInt64 at next
      omega
    · rw [int64_of_not next, Option.map_none]
      unfold IsInt64 at next
      refine iff_of_false (not_later_none now ms) ?_
      omega
  · rw [if_neg carried, later_some]
    omega

theorem calcSemTime_iff (now : CurrentTime) (ms : BitVec 32) :
    Later now ms (calcSemTime now ms) ↔ CalcFits now ms := by
  obtain ⟨secLow, secHigh⟩ := now.isSec
  obtain ⟨nsecLow, nsecHigh⟩ := now.isNsec
  unfold CalcFits calcSemTime
  by_cases inside : IsInt64 (now.tvSec + (ms.toNat / 1000 : Nat))
  · rw [int64_of_isInt64 inside, Option.map_some, later_some]
    unfold IsInt64 at inside
    omega
  · rw [int64_of_not inside, Option.map_none]
    unfold IsInt64 at inside
    refine iff_of_false (not_later_none now ms) ?_
    omega

/-- The pool waits until the same time. -/
theorem calcSemTime_pool {now : CurrentTime} {ms : BitVec 32} {t : Timespec} (positive : 0 ≤ now.tvSec)
    (calculated : calcSemTime now ms = some t) :
    ComPool.calcSemTime ⟨now.tvSec.toNat, now.tvNsec.toNat⟩ ms.toNat = ⟨t.tvSec.toNat, t.tvNsec.toNat⟩ := by
  obtain ⟨nsecLow, -⟩ := now.isNsec
  obtain ⟨sec, isSum, rfl⟩ := Option.map_eq_some_iff.mp calculated
  obtain ⟨-, same⟩ := Option.ite_none_right_eq_some.mp isSum
  obtain rfl := Option.some.inj same
  rw [ComPool.calcSemTime]
  dsimp only
  rw [Int.toNat_add_nat positive, Int.toNat_add_nat nsecLow]

/-! ## All of them -/

/-- When the difference and the deadlines are right. -/
theorem poolTime_right_iff (left right : Timeval) (now : CurrentTime) (ms : BitVec 32) :
    (Subtracts left right (timeDec left right) ↔ SubtractFits left right) ∧
      (Later now ms (generateSemTime now ms) ↔ GenerateFits now ms) ∧
        (Later now ms (calcSemTime now ms) ↔ CalcFits now ms) :=
  ⟨subtracts_iff left right, generateSemTime_iff now ms, calcSemTime_iff now ms⟩

/-- Half a second and a whole one give half a second; the wait of a millisecond is 100 milliseconds, and
one of a microsecond. -/
theorem negative_difference_positive :
    timeDec ⟨0, 500000, by decide, by decide⟩ ⟨1, 0, by decide, by decide⟩ = some 500000 ∧
      ¬ Subtracts ⟨0, 500000, by decide, by decide⟩ ⟨1, 0, by decide, by decide⟩ (some 500000) ∧
      generateSemTime ⟨⟨5, 0⟩, by decide, by decide⟩ 1 = some ⟨5, 100000000⟩ ∧
      ¬ Later ⟨⟨5, 0⟩, by decide, by decide⟩ 1 (some ⟨5, 100000000⟩) ∧
      calcSemTime ⟨⟨5, 0⟩, by decide, by decide⟩ 1 = some ⟨5, 1000⟩ ∧
      ¬ Later ⟨⟨5, 0⟩, by decide, by decide⟩ 1 (some ⟨5, 1000⟩) := by
  refine ⟨by decide, ?_, by decide, ?_, by decide, ?_⟩
  · unfold Subtracts
    decide
  · rw [later_some]
    decide
  · rw [later_some]
    decide

end MlsImgSearch.Utils.PoolTime
