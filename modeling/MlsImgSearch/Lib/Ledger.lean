import Mathlib.Algebra.Order.Ring.Int
import Mathlib.Algebra.BigOperators.Group.List.Basic
import Mathlib.Data.List.Nodup
import Mathlib.Data.List.Perm.Basic
import Mathlib.Data.List.Range

/-!
# Items in lists

Items are numbered in the order of their creation and move between lists. The order
in a list does not matter, and all lists together hold each item once.
-/

namespace MlsImgSearch.Lib.Ledger

variable {α : Type*} {next : Nat} {places places' : List Nat}

/-- The lists together hold each item below `next` once. -/
def Accounted (next : Nat) (places : List Nat) : Prop := places.Perm (List.range next)

theorem accounted_nil : Accounted 0 [] := List.Perm.nil

theorem Accounted.move (accounted : Accounted next places) (same : places'.Perm places) :
    Accounted next places' := same.trans accounted

theorem Accounted.create (accounted : Accounted next places)
    (new : places'.Perm (next :: places)) : Accounted (next + 1) places' := by
  rw [Accounted, List.range_succ]
  calc
    places'.Perm (next :: places) := new
    _ |>.Perm (next :: List.range next) := accounted.cons next
    _ |>.Perm (List.range next ++ [next]) := (List.perm_append_singleton next _).symm

theorem Accounted.nodup (accounted : Accounted next places) : places.Nodup :=
  accounted.nodup_iff.mpr List.nodup_range

theorem Accounted.mem_iff (accounted : Accounted next places) {n : Nat} :
    n ∈ places ↔ n < next := by
  rw [List.Perm.mem_iff accounted, List.mem_range]

/-- One element and the others. -/
theorem perm_cons_eraseIdx {l : List α} {i : Nat} {a : α} (atIndex : l[i]? = some a) :
    l.Perm (a :: l.eraseIdx i) := by
  obtain ⟨bound, rfl⟩ := List.getElem?_eq_some_iff.mp atIndex
  exact (List.getElem_cons_eraseIdx_perm bound).symm

end MlsImgSearch.Lib.Ledger
