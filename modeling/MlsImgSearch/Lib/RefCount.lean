import Mathlib.Algebra.Order.Ring.Int
import Mathlib.Algebra.Order.BigOperators.Group.Finset
import Mathlib.Data.BitVec
import Mathlib.Data.Fintype.Basic
import Mathlib.Data.List.Nodup
import Mathlib.Logic.Function.Basic
import Mathlib.Tactic.Common

/-!
# Counted references

Objects are numbered in the order of their creation and hold a counter of some
width. References to them are in the hands of holders. The counters agree with
the references while each change of the one goes with a change of the other,
whoever makes it; an object whose last reference has gone is deleted by the one
who took it away.
-/

namespace MlsImgSearch.Lib.RefCount

/-! ## References in many hands -/

section Total

variable {ι : Type*} [Fintype ι] [DecidableEq ι]

/-- How many references to `a` the holders have together. -/
def total (hands : ι → List Nat) (a : Nat) : Nat := ∑ i, (hands i).count a

/-- One holder changes its references. -/
theorem total_update (hands : ι → List Nat) (i : ι) (hand : List Nat) (a : Nat) :
    total (Function.update hands i hand) a + (hands i).count a = total hands a + hand.count a := by
  have split (f : ι → List Nat) :
      total f a = (f i).count a + ∑ j ∈ Finset.univ.erase i, (f j).count a :=
    (Finset.add_sum_erase Finset.univ (fun j => (f j).count a) (Finset.mem_univ i)).symm
  have others : ∑ j ∈ Finset.univ.erase i, (Function.update hands i hand j).count a =
      ∑ j ∈ Finset.univ.erase i, (hands j).count a := by
    refine Finset.sum_congr rfl fun j member => ?_
    rw [Function.update_of_ne (Finset.ne_of_mem_erase member)]
  rw [split (Function.update hands i hand), split hands, others, Function.update_self]
  omega

omit [DecidableEq ι] in
theorem count_le_total (hands : ι → List Nat) (i : ι) (a : Nat) :
    (hands i).count a ≤ total hands a :=
  Finset.single_le_sum (f := fun j => (hands j).count a) (fun _ _ => Nat.zero_le _)
    (Finset.mem_univ i)

omit [DecidableEq ι] in
theorem total_eq_zero {hands : ι → List Nat} {a : Nat} :
    total hands a = 0 ↔ ∀ i, a ∉ hands i := by
  rw [total, Finset.sum_eq_zero_iff]
  simp [List.count_eq_zero]

end Total

/-! ## Counters -/

variable {w : Nat} {τ : Type*} {heap : Nat → Option (BitVec w)} {made a : Nat} {refs : Nat → Nat}
  {deleting : τ → Option Nat} {freed : List Nat} {c : BitVec w}

/-- The counters of the objects that are there, the references to them, who is about to delete an
object, and the objects that were deleted. -/
structure Accounted (heap : Nat → Option (BitVec w)) (made : Nat) (refs : Nat → Nat)
    (deleting : τ → Option Nat) (freed : List Nat) : Prop where
  counted : ∀ a c, heap a = some c → c.toNat = refs a
  alive : ∀ a, 0 < refs a → ∃ c, heap a = some c
  dead : ∀ a c, heap a = some c → refs a = 0 → ∃ t, deleting t = some a
  dying : ∀ t a, deleting t = some a → refs a = 0 ∧ ∃ c, heap a = some c
  alone : ∀ t t' a, deleting t = some a → deleting t' = some a → t = t'
  fresh : ∀ a, made ≤ a → heap a = none
  gone : ∀ a, a ∈ freed ↔ a < made ∧ heap a = none
  once : freed.Nodup

namespace Accounted

theorem start : Accounted (fun _ => none : Nat → Option (BitVec w)) 0 (fun _ => 0)
    (fun _ : τ => none) [] where
  counted _ _ found := absurd found (by simp)
  alive _ positive := absurd positive (Nat.lt_irrefl 0)
  dead _ _ found := absurd found (by simp)
  dying _ _ found := absurd found (by simp)
  alone _ _ _ found := absurd found (by simp)
  fresh _ _ := rfl
  gone a := iff_of_false List.not_mem_nil fun both => Nat.not_lt_zero a both.1
  once := List.nodup_nil

theorem lt_made (acc : Accounted heap made refs deleting freed) (found : heap a = some c) :
    a < made := by
  by_contra old
  rw [acc.fresh a (Nat.le_of_not_lt old)] at found
  cases found

theorem refs_fresh (acc : Accounted heap made refs deleting freed) : refs made = 0 := by
  by_contra some'
  obtain ⟨c, found⟩ := acc.alive made (Nat.pos_of_ne_zero some')
  rw [acc.fresh made (Nat.le_refl made)] at found
  cases found

/-- References that only change hands change nothing. -/
theorem move {refs' : Nat → Nat} {deleting' : τ → Option Nat}
    (acc : Accounted heap made refs deleting freed) (same : ∀ a, refs' a = refs a)
    (sameTask : ∀ t, deleting' t = deleting t) : Accounted heap made refs' deleting' freed := by
  obtain rfl : refs' = refs := funext same
  obtain rfl : deleting' = deleting := funext sameTask
  exact acc

/-- A new object with one reference. -/
theorem create (acc : Accounted heap made refs deleting freed) (wide : (1#w).toNat = 1) :
    Accounted (Function.update heap made (some 1#w)) (made + 1) (Function.update refs made 1)
      deleting freed := by
  have differ {a : Nat} {c : BitVec w} (found : heap a = some c) : a ≠ made :=
    Nat.ne_of_lt (acc.lt_made found)
  constructor
  · intro a c found
    rcases eq_or_ne a made with rfl | other
    · rw [Function.update_self] at found ⊢
      rw [← Option.some.inj found, wide]
    · rw [Function.update_of_ne other] at found ⊢
      exact acc.counted a c found
  · intro a positive
    rcases eq_or_ne a made with rfl | other
    · exact ⟨_, Function.update_self ..⟩
    · rw [Function.update_of_ne other] at positive ⊢
      exact acc.alive a positive
  · intro a c found none'
    rcases eq_or_ne a made with rfl | other
    · rw [Function.update_self] at none'
      cases none'
    · rw [Function.update_of_ne other] at found none'
      exact acc.dead a c found none'
  · intro t a found
    obtain ⟨none', c, there⟩ := acc.dying t a found
    rw [Function.update_of_ne (differ there), Function.update_of_ne (differ there)]
    exact ⟨none', c, there⟩
  · exact acc.alone
  · intro a old
    rw [Function.update_of_ne (by omega)]
    exact acc.fresh a (by omega)
  · intro a
    rw [acc.gone a]
    rcases eq_or_ne a made with rfl | other
    · simp
    · rw [Function.update_of_ne other]
      refine and_congr_left fun _ => ?_
      omega
  · exact acc.once

/-- One more reference, while somebody else holds one and the counter does not overflow. -/
theorem acquire (acc : Accounted heap made refs deleting freed) (found : heap a = some c)
    (held : 0 < refs a) (room : c ≠ BitVec.allOnes w) :
    Accounted (Function.update heap a (some (c + 1#w))) made (Function.update refs a (refs a + 1))
      deleting freed := by
  have counted := acc.counted a c found
  have bound : c.toNat + 1 < 2 ^ w := by
    have below := c.isLt
    have differ : c.toNat ≠ 2 ^ w - 1 := fun same => room (BitVec.eq_of_toNat_eq (by
      rw [same, BitVec.toNat_allOnes]))
    omega
  have next : (c + 1#w).toNat = refs a + 1 := by
    rw [BitVec.toNat_add, BitVec.toNat_ofNat, Nat.add_mod_mod, Nat.mod_eq_of_lt bound, counted]
  constructor
  · intro b d there
    rcases eq_or_ne b a with rfl | other
    · rw [Function.update_self] at there ⊢
      rw [← Option.some.inj there, next]
    · rw [Function.update_of_ne other] at there ⊢
      exact acc.counted b d there
  · intro b positive
    rcases eq_or_ne b a with rfl | other
    · exact ⟨_, Function.update_self ..⟩
    · rw [Function.update_of_ne other] at positive ⊢
      exact acc.alive b positive
  · intro b d there none'
    rcases eq_or_ne b a with rfl | other
    · rw [Function.update_self] at none'
      cases none'
    · rw [Function.update_of_ne other] at there none'
      exact acc.dead b d there none'
  · intro t b taken
    obtain ⟨none', d, there⟩ := acc.dying t b taken
    have other : b ≠ a := by
      rintro rfl
      omega
    rw [Function.update_of_ne other, Function.update_of_ne other]
    exact ⟨none', d, there⟩
  · exact acc.alone
  · intro b old
    have other : b ≠ a := by
      rintro rfl
      exact absurd (acc.lt_made found) (Nat.not_lt_of_le old)
    rw [Function.update_of_ne other]
    exact acc.fresh b old
  · intro b
    rw [acc.gone b]
    rcases eq_or_ne b a with rfl | other
    · simp [found]
    · rw [Function.update_of_ne other]
  · exact acc.once

variable [DecidableEq τ]

/-- A reference goes; who takes the last one is to delete the object. -/
theorem release (acc : Accounted heap made refs deleting freed) (found : heap a = some c)
    (held : 0 < refs a) {t : τ} (idle : deleting t = none) :
    Accounted (Function.update heap a (some (c - 1#w))) made (Function.update refs a (refs a - 1))
      (Function.update deleting t (if c - 1#w = 0#w then some a else none)) freed := by
  have counted := acc.counted a c found
  have wide : (1#w).toNat = 1 := by
    have below := c.isLt
    rw [BitVec.toNat_ofNat]
    exact Nat.mod_eq_of_lt (by omega)
  have one : 1#w ≤ c := BitVec.le_def.mpr (by omega)
  have next : (c - 1#w).toNat = refs a - 1 := by
    rw [BitVec.toNat_sub_of_le one, wide, counted]
  have last : c - 1#w = 0#w ↔ refs a - 1 = 0 := by
    rw [← next]
    exact BitVec.toNat_inj.symm
  have noOther : ∀ t', deleting t' ≠ some a := fun t' taken => by
    have none' := (acc.dying t' a taken).1
    omega
  constructor
  · intro b d there
    rcases eq_or_ne b a with rfl | other
    · rw [Function.update_self] at there ⊢
      rw [← Option.some.inj there, next]
    · rw [Function.update_of_ne other] at there ⊢
      exact acc.counted b d there
  · intro b positive
    rcases eq_or_ne b a with rfl | other
    · exact ⟨_, Function.update_self ..⟩
    · rw [Function.update_of_ne other] at positive ⊢
      exact acc.alive b positive
  · intro b d there none'
    rcases eq_or_ne b a with rfl | other
    · rw [Function.update_self] at none'
      exact ⟨t, by rw [Function.update_self, if_pos (last.mpr none')]⟩
    · rw [Function.update_of_ne other] at there none'
      obtain ⟨t', taken⟩ := acc.dead b d there none'
      refine ⟨t', ?_⟩
      rw [Function.update_of_ne, taken]
      rintro rfl
      rw [idle] at taken
      cases taken
  · intro t' b taken
    rcases eq_or_ne t' t with rfl | otherTask
    · rw [Function.update_self] at taken
      split at taken
      · next zero =>
          obtain rfl := Option.some.inj taken
          exact ⟨by rw [Function.update_self]; exact last.mp zero, _, Function.update_self ..⟩
      · cases taken
    · rw [Function.update_of_ne otherTask] at taken
      have other : b ≠ a := by
        rintro rfl
        exact noOther t' taken
      rw [Function.update_of_ne other, Function.update_of_ne other]
      exact acc.dying t' b taken
  · intro t₁ t₂ b first second
    rcases eq_or_ne t₁ t with rfl | other₁
    · rcases eq_or_ne t₂ t₁ with rfl | other₂
      · rfl
      · rw [Function.update_self] at first
        rw [Function.update_of_ne other₂] at second
        split at first
        · exact absurd (Option.some.inj first ▸ second) (noOther t₂)
        · cases first
    · rw [Function.update_of_ne other₁] at first
      rcases eq_or_ne t₂ t with rfl | other₂
      · rw [Function.update_self] at second
        split at second
        · exact absurd (Option.some.inj second ▸ first) (noOther t₁)
        · cases second
      · rw [Function.update_of_ne other₂] at second
        exact acc.alone t₁ t₂ b first second
  · intro b old
    have other : b ≠ a := by
      rintro rfl
      exact absurd (acc.lt_made found) (Nat.not_lt_of_le old)
    rw [Function.update_of_ne other]
    exact acc.fresh b old
  · intro b
    rw [acc.gone b]
    rcases eq_or_ne b a with rfl | other
    · simp [found]
    · rw [Function.update_of_ne other]
  · exact acc.once

/-- The object is deleted. -/
theorem delete (acc : Accounted heap made refs deleting freed) {t : τ}
    (taken : deleting t = some a) :
    Accounted (Function.update heap a none) made refs (Function.update deleting t none)
      (freed ++ [a]) := by
  obtain ⟨none', c, found⟩ := acc.dying t a taken
  have young := acc.lt_made found
  constructor
  · intro b d there
    rcases eq_or_ne b a with rfl | other
    · rw [Function.update_self] at there
      cases there
    · rw [Function.update_of_ne other] at there
      exact acc.counted b d there
  · intro b positive
    have other : b ≠ a := by
      rintro rfl
      omega
    rw [Function.update_of_ne other]
    exact acc.alive b positive
  · intro b d there none''
    rcases eq_or_ne b a with rfl | other
    · rw [Function.update_self] at there
      cases there
    · rw [Function.update_of_ne other] at there
      obtain ⟨t', taken'⟩ := acc.dead b d there none''
      refine ⟨t', ?_⟩
      rw [Function.update_of_ne, taken']
      rintro rfl
      exact other (Option.some.inj (taken'.symm.trans taken))
  · intro t' b taken'
    have otherTask : t' ≠ t := by
      rintro rfl
      rw [Function.update_self] at taken'
      cases taken'
    rw [Function.update_of_ne otherTask] at taken'
    have other : b ≠ a := by
      rintro rfl
      exact otherTask (acc.alone t' t b taken' taken)
    rw [Function.update_of_ne other]
    exact acc.dying t' b taken'
  · intro t₁ t₂ b first second
    rw [Function.update_apply] at first second
    split at first
    · cases first
    · split at second
      · cases second
      · exact acc.alone t₁ t₂ b first second
  · intro b old
    rw [Function.update_of_ne (by omega)]
    exact acc.fresh b old
  · intro b
    rw [List.mem_append, List.mem_singleton, acc.gone b]
    rcases eq_or_ne b a with rfl | other
    · simp [young]
    · simp [other]
  · refine List.nodup_append.mpr ⟨acc.once, List.nodup_singleton a, ?_⟩
    rintro b member _ last rfl
    rw [List.mem_singleton.mp last] at member
    have absent := ((acc.gone a).mp member).2
    rw [found] at absent
    cases absent

end Accounted

end MlsImgSearch.Lib.RefCount
