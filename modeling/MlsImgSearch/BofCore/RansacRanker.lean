import Mathlib.Data.List.Basic
import Mathlib.Data.Int.Interval
import Mathlib.Tactic.Common

/-!
# Random samples of matches

`ComputeInliers` fits an affine map to three random matches, again and again, and
keeps the best count of inliers. `GetRandomNumbers` draws until it has enough
distinct numbers: the loop counts what it has, not what is left to draw. The values
of `rand()` are a stream; `srand` with the time of day only says which one. The
geometry is a parameter.
-/

namespace MlsImgSearch.BofCore.RansacRanker

/-! ## Drawing -/

/-- The locals of `GetRandomNumbers`, and how many values of the stream have been taken. -/
structure Draws where
  gotNum : Int
  numbers : List Int
  taken : Nat
  deriving DecidableEq

/-- One pass through the body of the loop. -/
def drawNumber (rand : Nat → Nat) (maxValue : Int) (d : Draws) : Draws :=
  let rnum := (rand d.taken : Int) % maxValue
  if d.numbers.any (· == rnum) then { d with taken := d.taken + 1 }
  else ⟨d.gotNum + 1, d.numbers ++ [rnum], d.taken + 1⟩

/-- The loop, for at most `fuel` passes. -/
def drawLoop (rand : Nat → Nat) (maxValue num : Int) : Nat → Draws → Option Draws
  | fuel, d =>
      if d.gotNum < num then
        match fuel with
        | 0 => none
        | fuel + 1 => drawLoop rand maxValue num fuel (drawNumber rand maxValue d)
      else some d

/-- `GetRandomNumbers`: the return code, the numbers, and the values that were taken. `none` when
the loop is still running after `fuel` passes. -/
def getRandomNumbers (rand : Nat → Nat) (taken fuel : Nat) (maxValue num : Int) :
    Option (Int × List Int × Nat) :=
  if maxValue ≤ 0 ∨ num ≤ 0 then some (-1, [], taken)
  else (drawLoop rand maxValue num fuel ⟨0, [], taken⟩).map fun d => (0, d.numbers, d.taken)

/-! ## The estimates -/

/-- A `size_t` handed over as an `int`. -/
def intOfSize (size : Nat) : Int := (size : Int).bmod (2 ^ 32)

/-- The estimates of `ComputeInliers`. `inliersOf` counts the matches near the map through the drawn
ones; the return code of the drawing is ignored. -/
def computeInliers (inliersOf : List Int → Int) (rand : Nat → Nat) (fuel matchCount : Nat) :
    Nat → Nat → Int → Option (Int × Nat)
  | 0, taken, inliersNumber => some (inliersNumber, taken)
  | estimates + 1, taken, inliersNumber =>
      (getRandomNumbers rand taken fuel (intOfSize matchCount) 3).bind fun (_, randomNums, taken') =>
        let curInliersNumber := inliersOf randomNums
        computeInliers inliersOf rand fuel matchCount estimates taken'
          (if inliersNumber < curInliersNumber then curInliersNumber else inliersNumber)

/-! ## The contract -/

/-- Each residue keeps occurring. -/
def Recurring (maxValue : Int) (rand : Nat → Nat) : Prop :=
  ∀ r, 0 ≤ r → r < maxValue → ∀ n, ∃ k, n ≤ k ∧ (rand k : Int) % maxValue = r

/-- The drawing returns, with an error or with distinct numbers in range. -/
def Samples (rand : Nat → Nat) (taken : Nat) (maxValue num : Int) : Prop :=
  ∃ fuel ret numbers taken', getRandomNumbers rand taken fuel maxValue num =
      some (ret, numbers, taken') ∧
    (ret < 0 ∨ (numbers.length : Int) = num ∧ numbers.Nodup ∧ ∀ x ∈ numbers, 0 ≤ x ∧ x < maxValue)

/-! ## What the loop keeps -/

section Loop

variable {rand : Nat → Nat} {maxValue num : Int} {d d' : Draws}

/-- The numbers are distinct and in range, and their count is right. -/
structure Drawn (maxValue : Int) (d : Draws) : Prop where
  counted : d.gotNum = d.numbers.length
  distinct : d.numbers.Nodup
  inRange : ∀ x ∈ d.numbers, 0 ≤ x ∧ x < maxValue

theorem drawn_nil (maxValue : Int) (taken : Nat) : Drawn maxValue ⟨0, [], taken⟩ :=
  ⟨rfl, List.nodup_nil, fun _ member => absurd member (List.not_mem_nil)⟩

theorem drawNumber_old (old : (rand d.taken : Int) % maxValue ∈ d.numbers) :
    drawNumber rand maxValue d = { d with taken := d.taken + 1 } := by
  have found : d.numbers.any (· == (rand d.taken : Int) % maxValue) = true := by
    simpa using old
  rw [drawNumber, if_pos found]

theorem drawNumber_new (new : (rand d.taken : Int) % maxValue ∉ d.numbers) :
    drawNumber rand maxValue d =
      ⟨d.gotNum + 1, d.numbers ++ [(rand d.taken : Int) % maxValue], d.taken + 1⟩ := by
  have missing : ¬ d.numbers.any (· == (rand d.taken : Int) % maxValue) = true := by
    simpa using new
  rw [drawNumber, if_neg missing]

theorem Drawn.drawNumber (drawn : Drawn maxValue d) (positive : 0 < maxValue) :
    Drawn maxValue (drawNumber rand maxValue d) := by
  by_cases old : (rand d.taken : Int) % maxValue ∈ d.numbers
  · rw [drawNumber_old old]
    exact ⟨drawn.counted, drawn.distinct, drawn.inRange⟩
  · rw [drawNumber_new old]
    refine ⟨?_, ?_, fun x member => ?_⟩
    · simp [drawn.counted]
    · exact List.nodup_append.mpr ⟨drawn.distinct, List.nodup_singleton _, by
        rintro x member y isNew rfl
        exact old (List.mem_singleton.mp isNew ▸ member)⟩
    · rcases List.mem_append.mp member with before | isNew
      · exact drawn.inRange x before
      · rw [List.mem_singleton.mp isNew]
        exact ⟨Int.emod_nonneg _ (ne_of_gt positive), Int.emod_lt_of_pos _ positive⟩

/-- There are at most as many numbers as residues. -/
theorem Drawn.length_le (drawn : Drawn maxValue d) : d.numbers.length ≤ maxValue.toNat := by
  have subset : d.numbers.toFinset ⊆ Finset.Ico 0 maxValue := by
    intro x member
    exact Finset.mem_Ico.mpr (drawn.inRange x (List.mem_toFinset.mp member))
  have bound := Finset.card_le_card subset
  rw [List.toFinset_card_of_nodup drawn.distinct, Int.card_Ico] at bound
  simpa using bound

/-- While numbers are missing, there is a residue that has not been drawn. -/
theorem Drawn.exists_new (drawn : Drawn maxValue d) (missing : (d.numbers.length : Int) < maxValue) :
    ∃ r, 0 ≤ r ∧ r < maxValue ∧ r ∉ d.numbers := by
  by_contra none
  push Not at none
  have subset : Finset.Ico 0 maxValue ⊆ d.numbers.toFinset := by
    intro r member
    obtain ⟨low, high⟩ := Finset.mem_Ico.mp member
    exact List.mem_toFinset.mpr (none r low high)
  have bound := Finset.card_le_card subset
  rw [List.toFinset_card_of_nodup drawn.distinct, Int.card_Ico] at bound
  omega

theorem drawLoop_done (fuel : Nat) (enough : num ≤ d.gotNum) :
    drawLoop rand maxValue num fuel d = some d := by
  unfold drawLoop
  rw [if_neg (not_lt.mpr enough)]

theorem drawLoop_succ (fuel : Nat) (missing : d.gotNum < num) :
    drawLoop rand maxValue num (fuel + 1) d =
      drawLoop rand maxValue num fuel (drawNumber rand maxValue d) := by
  rw [drawLoop, if_pos missing]

/-- What the loop returns. -/
theorem Drawn.drawLoop {fuel : Nat} (drawn : Drawn maxValue d) (positive : 0 < maxValue)
    (room : d.gotNum ≤ num) (ran : drawLoop rand maxValue num fuel d = some d') :
    Drawn maxValue d' ∧ d'.gotNum = num := by
  induction fuel generalizing d with
  | zero =>
      by_cases missing : d.gotNum < num
      · rw [RansacRanker.drawLoop, if_pos missing] at ran
        cases ran
      · rw [drawLoop_done _ (not_lt.mp missing)] at ran
        obtain rfl := Option.some.inj ran
        exact ⟨drawn, le_antisymm room (not_lt.mp missing)⟩
  | succ fuel ih =>
      by_cases missing : d.gotNum < num
      · rw [drawLoop_succ fuel missing] at ran
        refine ih (drawn.drawNumber positive) ?_ ran
        by_cases old : (rand d.taken : Int) % maxValue ∈ d.numbers
        · rw [drawNumber_old old]
          exact room
        · rw [drawNumber_new old]
          exact Int.add_one_le_of_lt missing
      · rw [drawLoop_done _ (not_lt.mp missing)] at ran
        obtain rfl := Option.some.inj ran
        exact ⟨drawn, le_antisymm room (not_lt.mp missing)⟩

/-- More fuel does not change the result. -/
theorem drawLoop_mono {fuel more : Nat} (ran : drawLoop rand maxValue num fuel d = some d')
    (le : fuel ≤ more) : drawLoop rand maxValue num more d = some d' := by
  induction fuel generalizing d more with
  | zero =>
      by_cases missing : d.gotNum < num
      · rw [drawLoop, if_pos missing] at ran
        cases ran
      · rw [drawLoop_done _ (not_lt.mp missing)] at ran ⊢
        exact ran
  | succ fuel ih =>
      by_cases missing : d.gotNum < num
      · obtain ⟨more, rfl⟩ := Nat.exists_eq_add_of_le' (Nat.one_le_of_lt (Nat.lt_of_lt_of_le
          (Nat.succ_pos fuel) le))
        rw [drawLoop_succ _ missing] at ran ⊢
        exact ih ran (Nat.le_of_succ_le_succ le)
      · rw [drawLoop_done _ (not_lt.mp missing)] at ran ⊢
        exact ran

/-- The loop returns. -/
def Returns (rand : Nat → Nat) (maxValue num : Int) (d : Draws) : Prop :=
  ∃ fuel d', drawLoop rand maxValue num fuel d = some d'

theorem returns_of_drawNumber (missing : d.gotNum < num)
    (next : Returns rand maxValue num (drawNumber rand maxValue d)) :
    Returns rand maxValue num d := by
  obtain ⟨fuel, d', ran⟩ := next
  exact ⟨fuel + 1, d', (drawLoop_succ fuel missing).trans ran⟩

/-- The loop reaches the next new residue, however far away it is, and goes on from there. -/
theorem returns_of_next (drawn : Drawn maxValue d) (positive : 0 < maxValue)
    (missing : d.gotNum < num) {gap : Nat}
    (new : (rand (d.taken + gap) : Int) % maxValue ∉ d.numbers)
    (goOn : ∀ d', Drawn maxValue d' → d'.gotNum = d.gotNum + 1 → Returns rand maxValue num d') :
    Returns rand maxValue num d := by
  induction gap generalizing d with
  | zero =>
      refine returns_of_drawNumber missing (goOn _ (drawn.drawNumber positive) ?_)
      rw [drawNumber_new new]
  | succ gap ih =>
      refine returns_of_drawNumber missing ?_
      have after : Drawn maxValue (drawNumber rand maxValue d) := drawn.drawNumber positive
      by_cases old : (rand d.taken : Int) % maxValue ∈ d.numbers
      · rw [drawNumber_old old] at after ⊢
        refine ih after missing ?_ goOn
        rw [Nat.add_right_comm]
        exact new
      · refine goOn _ after ?_
        rw [drawNumber_new old]

/-- On a recurring stream the loop returns when there are enough residues. -/
theorem returns_of_recurring (recurring : Recurring maxValue rand) (positive : 0 < maxValue)
    (enough : num ≤ maxValue) (drawn : Drawn maxValue d) : Returns rand maxValue num d := by
  -- the numbers that are still missing decrease with each new residue
  induction left : (num - d.gotNum).toNat generalizing d with
  | zero => exact ⟨0, d, drawLoop_done 0 (by omega)⟩
  | succ left ih =>
      have missing : d.gotNum < num := by omega
      obtain ⟨r, low, high, isNew⟩ := drawn.exists_new (by rw [← drawn.counted]; omega)
      obtain ⟨k, later, hit⟩ := recurring r low high d.taken
      obtain ⟨gap, rfl⟩ := Nat.exists_eq_add_of_le later
      exact returns_of_next drawn positive missing (hit ▸ isNew) fun d' drawn' more =>
        ih drawn' (by omega)

/-- With fewer residues than numbers the loop does not return. -/
theorem not_returns (positive : 0 < maxValue) (few : maxValue < num) (drawn : Drawn maxValue d) :
    ¬ Returns rand maxValue num d := by
  rintro ⟨fuel, d', ran⟩
  have start := drawn.length_le
  obtain ⟨drawn', full⟩ := drawn.drawLoop positive (by rw [drawn.counted]; omega) ran
  have bound := drawn'.length_le
  rw [drawn'.counted] at full
  omega

end Loop

/-! ## The drawing -/

section Drawing

variable {rand : Nat → Nat} {maxValue num : Int} {taken : Nat}

theorem getRandomNumbers_eq (taken fuel : Nat) (positive : 0 < maxValue) (wanted : 0 < num) :
    getRandomNumbers rand taken fuel maxValue num =
      (drawLoop rand maxValue num fuel ⟨0, [], taken⟩).map fun d => (0, d.numbers, d.taken) :=
  if_neg (by omega)

theorem samples_of_refused (refused : maxValue ≤ 0 ∨ num ≤ 0) : Samples rand taken maxValue num :=
  ⟨0, -1, [], taken, if_pos refused, Or.inl (by decide)⟩

/-- Three distinct numbers need three residues. -/
theorem samples_iff_enough (recurring : Recurring maxValue rand) (positive : 0 < maxValue)
    (wanted : 0 < num) : Samples rand taken maxValue num ↔ num ≤ maxValue := by
  have start := drawn_nil maxValue taken
  constructor
  · rintro ⟨fuel, ret, numbers, after, ran, -⟩
    rw [getRandomNumbers_eq taken fuel positive wanted] at ran
    obtain ⟨d, loop, -⟩ := Option.map_eq_some_iff.mp ran
    by_contra few
    exact not_returns positive (not_le.mp few) start ⟨fuel, d, loop⟩
  · intro enough
    obtain ⟨fuel, d, loop⟩ := returns_of_recurring recurring positive enough start
    obtain ⟨drawn, full⟩ := start.drawLoop positive (le_of_lt wanted) loop
    refine ⟨fuel, 0, d.numbers, d.taken, ?_, Or.inr ⟨?_, drawn.distinct, drawn.inRange⟩⟩
    · rw [getRandomNumbers_eq taken fuel positive wanted, loop]
      rfl
    · rw [← drawn.counted]
      exact full

theorem getRandomNumbers_mono {fuel more : Nat} {result : Int × List Int × Nat}
    (ran : getRandomNumbers rand taken fuel maxValue num = some result) (le : fuel ≤ more) :
    getRandomNumbers rand taken more maxValue num = some result := by
  unfold getRandomNumbers at ran ⊢
  split at ran
  · next refused => rw [if_pos refused, ran]
  · next accepted =>
      obtain ⟨d, loop, isResult⟩ := Option.map_eq_some_iff.mp ran
      rw [if_neg accepted, drawLoop_mono loop le]
      exact congrArg some isResult

end Drawing

theorem samples_of_not_few {matchCount : Nat} {rand : Nat → Nat}
    (recurring : Recurring (intOfSize matchCount) rand) (taken : Nat)
    (notFew : intOfSize matchCount ≠ 1 ∧ intOfSize matchCount ≠ 2) :
    Samples rand taken (intOfSize matchCount) 3 := by
  by_cases positive : 0 < intOfSize matchCount
  · exact (samples_iff_enough recurring positive (by decide)).mpr (by omega)
  · exact samples_of_refused (Or.inl (not_lt.mp positive))

/-- The drawing for a number of matches returns exactly when there is neither one match nor two. -/
theorem samples_iff_not_few (matchCount : Nat) {rand : Nat → Nat}
    (recurring : Recurring (intOfSize matchCount) rand) (taken : Nat) :
    Samples rand taken (intOfSize matchCount) 3 ↔
      intOfSize matchCount ≠ 1 ∧ intOfSize matchCount ≠ 2 := by
  refine ⟨fun samples => ?_, samples_of_not_few recurring taken⟩
  by_cases positive : 0 < intOfSize matchCount
  · have enough := (samples_iff_enough recurring positive (by decide)).mp samples
    omega
  · omega

/-- A stream that goes through all residues in turn. -/
theorem recurring_mod {maxValue : Nat} (positive : 0 < maxValue) :
    Recurring maxValue fun k => k % maxValue := by
  intro r low high n
  refine ⟨maxValue * n + r.toNat, ?_, ?_⟩
  · exact le_trans (Nat.le_mul_of_pos_left n positive) (Nat.le_add_right _ _)
  · have small : r.toNat < maxValue := by omega
    dsimp only
    rw [Nat.mul_add_mod, Nat.mod_eq_of_lt small, Int.toNat_of_nonneg low,
      Int.emod_eq_of_lt low high]

/-- Three matches in turn. -/
theorem samples_three_matches : Samples (fun k => k % 3) 0 (intOfSize 3) 3 :=
  (samples_iff_not_few 3 (recurring_mod (by decide)) 0).mpr (by decide)

/-- With two matches the third number never comes. -/
theorem not_samples_two_matches :
    Recurring (intOfSize 2) (fun k => k % 2) ∧ ¬ Samples (fun k => k % 2) 0 (intOfSize 2) 3 := by
  have recurring : Recurring (intOfSize 2) (fun k => k % 2) := recurring_mod (by decide)
  refine ⟨recurring, fun samples => ?_⟩
  have enough := (samples_iff_enough recurring (by decide) (by decide)).mp samples
  exact absurd enough (by decide)

/-! ## All estimates -/

/-- With enough matches the whole computation returns, whatever the geometry is. -/
theorem computeInliers_returns (inliersOf : List Int → Int) {rand : Nat → Nat} {matchCount : Nat}
    (recurring : Recurring (intOfSize matchCount) rand) (one : intOfSize matchCount ≠ 1)
    (two : intOfSize matchCount ≠ 2) (estimates taken : Nat) (inliersNumber : Int) :
    ∃ fuel result, ∀ more, fuel ≤ more →
      computeInliers inliersOf rand more matchCount estimates taken inliersNumber = some result := by
  induction estimates generalizing taken inliersNumber with
  | zero => exact ⟨0, (inliersNumber, taken), fun _ _ => rfl⟩
  | succ estimates ih =>
      obtain ⟨first, ret, numbers, taken', drawn, -⟩ :=
        samples_of_not_few recurring taken ⟨one, two⟩
      obtain ⟨others, result, rest⟩ := ih taken' (if inliersNumber < inliersOf numbers then
        inliersOf numbers else inliersNumber)
      refine ⟨max first others, result, fun more enough => ?_⟩
      rw [computeInliers, getRandomNumbers_mono drawn (le_trans (le_max_left _ _) enough),
        Option.bind_some]
      exact rest more (le_trans (le_max_right _ _) enough)

/-- With one match or two and at least one estimate, it never does. -/
theorem computeInliers_hangs (inliersOf : List Int → Int) (rand : Nat → Nat) {matchCount : Nat}
    (few : intOfSize matchCount = 1 ∨ intOfSize matchCount = 2) (fuel estimates taken : Nat)
    (inliersNumber : Int) :
    computeInliers inliersOf rand fuel matchCount (estimates + 1) taken inliersNumber = none := by
  have stuck : drawLoop rand (intOfSize matchCount) 3 fuel ⟨0, [], taken⟩ = none := by
    rw [Option.eq_none_iff_forall_ne_some]
    intro d ran
    exact not_returns (by omega) (by omega) (drawn_nil _ taken) ⟨fuel, d, ran⟩
  rw [computeInliers, getRandomNumbers_eq taken fuel (by omega) (by decide), stuck]
  rfl

end MlsImgSearch.BofCore.RansacRanker
