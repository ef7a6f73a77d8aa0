import Mathlib.Algebra.Order.Ring.Int
import Mathlib.Algebra.BigOperators.Group.Finset.Piecewise
import Mathlib.Data.List.Destutter
import Mathlib.Data.List.Nodup

/-!
# Neighbours with the same key

A list falls into groups of neighbours with the same key. If no key comes back
after another one, the group of a key holds all elements with that key.
-/

namespace MlsImgSearch.Lib.Grouping

variable {α κ : Type} [DecidableEq κ] (key : α → κ)

/-- The groups of a list behind the elements `front` with key `k`. -/
def groupsFrom (k : κ) (front : List α) : List α → List (κ × List α)
  | [] => [(k, front)]
  | x :: xs =>
      if key x = k then groupsFrom k (front ++ [x]) xs
      else (k, front) :: groupsFrom (key x) [x] xs

def groups : List α → List (κ × List α)
  | [] => []
  | x :: xs => groupsFrom key (key x) [x] xs

/-- The elements with key `k`. -/
def fiber (k : κ) (xs : List α) : List α := xs.filter fun x => key x = k

variable {key}

theorem fiber_cons (k : κ) (x : α) (xs : List α) :
    fiber key k (x :: xs) = if key x = k then x :: fiber key k xs else fiber key k xs := by
  simp only [fiber, List.filter_cons, decide_eq_true_eq]

theorem ids_groupsFrom (k : κ) (front xs : List α) :
    (groupsFrom key k front xs).map Prod.fst = (xs.map key).destutter' (· ≠ ·) k := by
  induction xs generalizing k front with
  | nil => rfl
  | cons x xs ih =>
      rw [groupsFrom, List.map_cons]
      by_cases same : key x = k
      · rw [if_pos same, ih, List.destutter'_cons_neg _ (not_not.mpr same.symm)]
      · rw [if_neg same, List.map_cons, ih, List.destutter'_cons_pos _ (Ne.symm same)]

theorem ids_groups (xs : List α) :
    (groups key xs).map Prod.fst = (xs.map key).destutter (· ≠ ·) := by
  cases xs with
  | nil => rfl
  | cons x xs => exact ids_groupsFrom (key x) [x] xs

theorem ne_nil_of_mem_groupsFrom {k : κ} {front xs : List α} {g : κ × List α} (some' : front ≠ [])
    (member : g ∈ groupsFrom key k front xs) : g.2 ≠ [] := by
  induction xs generalizing k front with
  | nil =>
      rw [groupsFrom, List.mem_singleton] at member
      rw [member]
      exact some'
  | cons x xs ih =>
      rw [groupsFrom] at member
      split at member
      · exact ih (List.append_ne_nil_of_right_ne_nil front (List.cons_ne_nil x [])) member
      · rcases List.mem_cons.mp member with rfl | later
        · exact some'
        · exact ih (List.cons_ne_nil x []) later

theorem ne_nil_of_mem_groups {xs : List α} {g : κ × List α} (member : g ∈ groups key xs) :
    g.2 ≠ [] := by
  cases xs with
  | nil => cases member
  | cons x xs => exact ne_nil_of_mem_groupsFrom (List.cons_ne_nil x []) member

theorem flatMap_groupsFrom (c k : κ) (front xs : List α) :
    ((groupsFrom key k front xs).filter fun g => g.1 = c).flatMap Prod.snd =
      (if k = c then front else []) ++ fiber key c xs := by
  induction xs generalizing k front with
  | nil =>
      by_cases isKey : k = c
      · simp [groupsFrom, fiber, isKey]
      · simp [groupsFrom, fiber, isKey]
  | cons x xs ih =>
      rw [groupsFrom, fiber_cons]
      by_cases same : key x = k
      · rw [if_pos same, ih, same]
        by_cases isKey : k = c
        · rw [if_pos isKey, if_pos isKey, if_pos isKey, List.append_assoc, List.singleton_append]
        · rw [if_neg isKey, if_neg isKey, if_neg isKey]
      · rw [if_neg same, List.filter_cons]
        by_cases isKey : k = c
        · have other : key x ≠ c := fun found => same (found.trans isKey.symm)
          rw [if_pos (decide_eq_true isKey), List.flatMap_cons, ih, if_neg other, if_pos isKey,
            if_neg other, List.nil_append]
        · rw [if_neg (by simpa using isKey), ih, if_neg isKey, List.nil_append]
          split
          · exact List.singleton_append
          · exact List.nil_append _

/-- Together, the groups of a key hold the elements with that key. -/
theorem flatMap_groups (c : κ) (xs : List α) :
    ((groups key xs).filter fun g => g.1 = c).flatMap Prod.snd = fiber key c xs := by
  cases xs with
  | nil => rfl
  | cons x xs =>
      rw [groups, flatMap_groupsFrom, fiber_cons]
      split
      · exact List.singleton_append
      · exact List.nil_append _

/-- At most one element of a list without double keys has key `c`. -/
theorem filter_of_nodup {β : Type} {id : β → κ} {xs : List β} (nodup : (xs.map id).Nodup) (c : κ) :
    (xs.filter fun x => id x = c) = [] ∨ ∃ x, id x = c ∧ (xs.filter fun x => id x = c) = [x] := by
  induction xs with
  | nil => exact Or.inl rfl
  | cons x xs ih =>
      obtain ⟨fresh, nodup⟩ := List.nodup_cons.mp nodup
      by_cases isKey : id x = c
      · refine Or.inr ⟨x, isKey, ?_⟩
        rw [List.filter_cons_of_pos (by simpa using isKey)]
        congr 1
        refine List.filter_eq_nil_iff.mpr fun y member found => fresh ?_
        rw [isKey, ← of_decide_eq_true found]
        exact List.mem_map_of_mem member
      · rw [List.filter_cons_of_neg (by simpa using isKey)]
        exact ih nodup

/-- If the elements with the same key stand together, there is one group for each key. -/
theorem filter_groups {xs : List α} (together : ((xs.map key).destutter (· ≠ ·)).Nodup) (c : κ) :
    ((groups key xs).filter fun g => g.1 = c) =
      if fiber key c xs = [] then [] else [(c, fiber key c xs)] := by
  have whole : ((groups key xs).filter fun g => g.1 = c).flatMap Prod.snd = fiber key c xs :=
    flatMap_groups c xs
  rw [← ids_groups] at together
  rcases filter_of_nodup together c with none' | ⟨g, isKey, single⟩
  · rw [none', List.flatMap_nil] at whole
    rw [none', if_pos whole.symm]
  · have member : g ∈ (groups key xs).filter fun g => g.1 = c := by
      rw [single]
      exact List.mem_singleton_self g
    have some' := ne_nil_of_mem_groups (List.mem_of_mem_filter member)
    rw [single, List.flatMap_singleton] at whole
    rw [single, ← whole, if_neg some', ← isKey]

/-- A sum over a list, key by key. -/
theorem sum_fibers {M : Type} [AddCommMonoid M] {β : Type} {id : β → κ} (weight : β → M)
    {keys : Finset κ} {xs : List β} (covers : ∀ x ∈ xs, id x ∈ keys) :
    (xs.map weight).sum = ∑ k ∈ keys, ((xs.filter fun x => id x = k).map weight).sum := by
  induction xs with
  | nil => simp
  | cons x xs ih =>
      have here : id x ∈ keys := covers x (List.mem_cons_self ..)
      have split : ∀ k ∈ keys, (((x :: xs).filter fun x => id x = k).map weight).sum =
          (if k = id x then weight x else 0) + ((xs.filter fun x => id x = k).map weight).sum := by
        intro k _
        by_cases isKey : id x = k
        · rw [List.filter_cons_of_pos (by simpa using isKey), List.map_cons, List.sum_cons,
            if_pos isKey.symm]
        · rw [List.filter_cons_of_neg (by simpa using isKey), if_neg (Ne.symm isKey), zero_add]
      rw [List.map_cons, List.sum_cons, ih fun y member => covers y (List.mem_cons_of_mem _ member),
        Finset.sum_congr rfl split, Finset.sum_add_distrib, Finset.sum_ite_eq', if_pos here]

end MlsImgSearch.Lib.Grouping
