import Mathlib.Algebra.Order.Ring.Int
import Mathlib.Data.List.Basic
import Mathlib.Tactic.Common

/-!
# Histories

What happened, the oldest first. That something never happens any more is kept note by note.
-/

namespace MlsImgSearch.Lib.History

variable {ν : Type*} {first later note : ν} {history : List ν}

/-- Nothing equal to `later` follows anything equal to `first`. -/
def NeverAfter (first later : ν) (history : List ν) : Prop :=
  ∀ before after, history = before ++ first :: after → later ∉ after

theorem neverAfter_nil : NeverAfter first later [] :=
  fun _ _ split => absurd split.symm (by simp)

theorem neverAfter_concat :
    NeverAfter first later (history ++ [note]) ↔
      NeverAfter first later history ∧ (note = later → first ∉ history) := by
  constructor
  · intro never
    refine ⟨fun before after split member => ?_, fun same member => ?_⟩
    · refine never before (after ++ [note]) ?_ (List.mem_append_left _ member)
      rw [split, List.append_assoc, List.cons_append]
    · obtain ⟨before, after, split⟩ := List.append_of_mem member
      refine never before (after ++ [note]) ?_ (by simp [same])
      rw [split, List.append_assoc, List.cons_append]
  · rintro ⟨never, last⟩ before after split member
    rcases List.eq_nil_or_concat' after with rfl | ⟨front, final, rfl⟩
    · exact absurd member List.not_mem_nil
    · rw [← List.cons_append, ← List.append_assoc] at split
      obtain ⟨rfl, rfl⟩ := List.append_inj' split rfl |>.imp id List.singleton_inj.mp
      rcases List.mem_append.mp member with inside | same
      · exact never before front rfl inside
      · refine last (List.mem_singleton.mp same).symm ?_
        exact List.mem_append_right before List.mem_cons_self

/-- A note of another kind changes nothing. -/
theorem NeverAfter.other (never : NeverAfter first later history) (differ : note ≠ later) :
    NeverAfter first later (history ++ [note]) :=
  neverAfter_concat.mpr ⟨never, fun same => absurd same differ⟩

/-- The last time that something happens, if what forbids it has not happened. -/
theorem NeverAfter.last (never : NeverAfter first later history) (fresh : first ∉ history) :
    NeverAfter first later (history ++ [note]) :=
  neverAfter_concat.mpr ⟨never, fun _ => fresh⟩

theorem count_concat_of_ne [DecidableEq ν] (differ : note ≠ later) :
    (history ++ [note]).count later = history.count later := by
  rw [List.count_append, List.count_singleton, if_neg (by simpa using differ), Nat.add_zero]

end MlsImgSearch.Lib.History
