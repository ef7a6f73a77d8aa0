import Mathlib.Algebra.Order.Ring.Int
import Mathlib.Data.List.Basic
import Mathlib.Tactic.Common

/-!
# Linked lists in a table

A table gives every cell a link to another cell; `0` is no cell and ends a list.
The list that a first cell begins is a plain list of cells here, and inserting or
taking out a cell is a change of one or two links.
-/

namespace MlsImgSearch.Lib.LinkedTable

/-- Each cell leads to the one behind it, and the last cell to `0`. -/
def Linked (link : Nat → Int) : List Nat → Prop
  | [] => True
  | p :: rest => link p = (rest.head?.getD 0 : Nat) ∧ Linked link rest

/-- The cells met on the way from `pos` to `0`; `none` when a link is missing, is negative or when
the way is longer than `fuel`. -/
def follow (link : Nat → Option Int) : Nat → Int → Option (List Nat)
  | _, .negSucc _ => none
  | _, .ofNat 0 => some []
  | 0, .ofNat (_ + 1) => none
  | fuel + 1, .ofNat (p + 1) =>
      ((link (p + 1)).bind (follow link fuel)).map fun rest => (p + 1) :: rest

variable {link link' : Nat → Int} {front back back' list : List Nat}

theorem Linked.congr (linked : Linked link list) (same : ∀ q ∈ list, link' q = link q) :
    Linked link' list := by
  induction list with
  | nil => exact trivial
  | cons p rest ih =>
      obtain ⟨samePos, sameRest⟩ := List.forall_mem_cons.mp same
      exact ⟨samePos.trans linked.1, ih linked.2 sameRest⟩

/-- The cells behind the first ones form a list of their own. -/
theorem Linked.of_append (linked : Linked link (front ++ back)) : Linked link back := by
  induction front with
  | nil => exact linked
  | cons p front ih => exact ih linked.2

theorem Linked.exists_link (linked : Linked link list) {q : Nat} (member : q ∈ list) :
    ∃ n : Nat, link q = n := by
  obtain ⟨front, back, rfl⟩ := List.append_of_mem member
  exact ⟨_, linked.of_append.1⟩

/-- A list can be followed to its end. -/
theorem Linked.follow_eq {step : Nat → Option Int} (linked : Linked link list)
    (nonzero : ∀ q ∈ list, q ≠ 0) (steps : ∀ q ∈ list, step q = some (link q))
    {fuel : Nat} (enough : list.length ≤ fuel) :
    follow step fuel (list.head?.getD 0 : Nat) = some list := by
  induction list generalizing fuel with
  | nil => cases fuel <;> rfl
  | cons p rest ih =>
      obtain ⟨fuel, rfl⟩ : ∃ n, fuel = n + 1 :=
        Nat.exists_eq_succ_of_ne_zero (Nat.ne_of_gt (Nat.lt_of_lt_of_le (by simp) enough))
      obtain ⟨nonzeroPos, nonzeroRest⟩ := List.forall_mem_cons.mp nonzero
      obtain ⟨stepPos, stepRest⟩ := List.forall_mem_cons.mp steps
      obtain ⟨p, rfl⟩ := Nat.exists_eq_succ_of_ne_zero nonzeroPos
      have later := ih linked.2 nonzeroRest stepRest (Nat.le_of_succ_le_succ enough)
      change ((step (p + 1)).bind (follow step fuel)).map _ = _
      rw [stepPos, Option.bind_some, linked.1, later, Option.map_some]

/-- The last of the first cells is led to another list. A cell is inserted or taken out so. -/
theorem Linked.redirect (linked : Linked link (front ++ back)) (later : Linked link' back')
    (distinct : front.Nodup)
    (others : ∀ q ∈ front, link' q =
      if q = front.getLast?.getD 0 then ((back'.head?.getD 0 : Nat) : Int) else link q) :
    Linked link' (front ++ back') := by
  induction front with
  | nil => exact later
  | cons p front ih =>
      obtain ⟨notAgain, distinctRest⟩ := List.nodup_cons.mp distinct
      obtain ⟨othersPos, othersRest⟩ := List.forall_mem_cons.mp others
      cases front with
      | nil => exact ⟨othersPos.trans (if_pos rfl), later⟩
      | cons next front =>
          have sameLast : (p :: next :: front).getLast?.getD 0 =
              (next :: front).getLast?.getD 0 := by
            rw [List.getLast?_cons_cons]
          rw [sameLast] at othersPos othersRest
          refine ⟨?_, ih linked.2 distinctRest othersRest⟩
          rw [othersPos, if_neg, linked.1]
          · rfl
          · intro same
            apply notAgain
            rw [same, List.getLast?_eq_some_getLast (List.cons_ne_nil _ _), Option.getD_some]
            exact List.getLast_mem _

/-- The items from `p` on, when each leads to the next one. -/
theorem linked_range' {link : Nat → Int} (n : Nat) {p : Nat}
    (links : ∀ q, p ≤ q → q < p + n → link q = if q + 1 = p + n then 0 else (q + 1 : Int)) :
    Linked link (List.range' p n) := by
  induction n generalizing p with
  | zero => exact trivial
  | succ n ih =>
      refine ⟨?_, ih fun q from_ below => ?_⟩
      · rw [links p (Nat.le_refl p) (by omega)]
        cases n with
        | zero => simp
        | succ n => simp [List.range'_succ]
      · rw [links q (by omega) (by omega)]
        simp [Nat.add_assoc, Nat.add_comm 1]

end MlsImgSearch.Lib.LinkedTable
