import Mathlib.Algebra.Order.Ring.Int
import Mathlib.Data.List.Basic
import Mathlib.Order.Nat
import Mathlib.Tactic.Common

/-!
# Lists in strictly ascending key order

A list whose keys strictly ascend is a finite map with a canonical order. This
module fixes the order predicate, its lower bound positions, insertion and
removal at such a position, and the cyclic successor lookup of a hash ring.
-/

namespace MlsImgSearch.Lib.SortedList

variable {α κ : Type*} [LinearOrder κ]

/-- Keys strictly ascend along the list. -/
def Ascending (key : α → κ) (xs : List α) : Prop :=
  xs.Pairwise (fun a b => key a < key b)

instance decidableAscending (key : α → κ) (xs : List α) : Decidable (Ascending key xs) :=
  inferInstanceAs (Decidable (xs.Pairwise (fun a b => key a < key b)))

/-- Every element before `pos` is below `bound`, every element from `pos` on is at least `bound`. -/
structure LowerBound (key : α → κ) (bound : κ) (xs : List α) (pos : Nat) : Prop where
  le_length : pos ≤ xs.length
  below : ∀ a ∈ xs.take pos, key a < bound
  above : ∀ a ∈ xs.drop pos, bound ≤ key a

/-- The first element whose key is at least `bound`, wrapping around to the first element. -/
def ringLookup (key : α → κ) (bound : κ) (xs : List α) : Option α :=
  (xs.find? (fun a => decide (bound ≤ key a))).or xs.head?

namespace Ascending

variable {key : α → κ} {xs ys : List α}

theorem sublist (sub : xs.Sublist ys) (asc : Ascending key ys) : Ascending key xs :=
  List.Pairwise.sublist sub asc

theorem getElem_lt (asc : Ascending key xs) {i j : Nat} (hi : i < xs.length)
    (hj : j < xs.length) (lt : i < j) : key xs[i] < key xs[j] :=
  List.pairwise_iff_getElem.mp asc i j hi hj lt

/-- Equal keys mean equal positions. -/
theorem index_eq_of_key_eq (asc : Ascending key xs) {i j : Nat} (hi : i < xs.length)
    (hj : j < xs.length) (same : key xs[i] = key xs[j]) : i = j := by
  rcases lt_trichotomy i j with lt | eq | gt
  · exact absurd same (ne_of_lt (asc.getElem_lt hi hj lt))
  · exact eq
  · exact absurd same.symm (ne_of_lt (asc.getElem_lt hj hi gt))

/-- Equal keys mean equal elements. -/
theorem eq_of_key_eq (asc : Ascending key xs) {a b : α} (ha : a ∈ xs) (hb : b ∈ xs)
    (same : key a = key b) : a = b := by
  obtain ⟨i, hi, rfl⟩ := List.getElem_of_mem ha
  obtain ⟨j, hj, rfl⟩ := List.getElem_of_mem hb
  obtain rfl := asc.index_eq_of_key_eq hi hj same
  rfl

/-- Inserting a fresh key at its lower bound keeps the order. -/
theorem insert (asc : Ascending key xs) {pos : Nat} {a : α}
    (bound : LowerBound key (key a) xs pos) (fresh : ∀ b ∈ xs, key b ≠ key a) :
    Ascending key (xs.take pos ++ a :: xs.drop pos) := by
  have above : ∀ b ∈ xs.drop pos, key a < key b := fun b hb =>
    lt_of_le_of_ne (bound.above b hb) (fresh b (List.mem_of_mem_drop hb)).symm
  have left : Ascending key (xs.take pos) := asc.sublist (List.take_sublist _ _)
  have right : Ascending key (xs.drop pos) := asc.sublist (List.drop_sublist _ _)
  refine List.pairwise_append.mpr ⟨left, List.pairwise_cons.mpr ⟨above, right⟩, ?_⟩
  intro b hb c hc
  rcases List.mem_cons.mp hc with rfl | hc
  · exact bound.below b hb
  · exact lt_trans (bound.below b hb) (above c hc)

/-- Removing the position of a key removes exactly the elements with that key. -/
theorem eraseIdx_eq_filter (asc : Ascending key xs) {pos : Nat} (hpos : pos < xs.length) :
    xs.eraseIdx pos = xs.filter (fun a => decide (key a ≠ key xs[pos])) := by
  induction xs generalizing pos with
  | nil => exact absurd hpos (Nat.not_lt_zero _)
  | cons a rest ih =>
      obtain ⟨head, tail⟩ := List.pairwise_cons.mp asc
      cases pos with
      | zero =>
          have keep : rest.filter (fun b => decide (key b ≠ key a)) = rest :=
            List.filter_eq_self.mpr fun b hb => by simpa using (ne_of_gt (head b hb))
          simpa using keep.symm
      | succ pos =>
          have inner : pos < rest.length := Nat.lt_of_succ_lt_succ hpos
          have differs : key a ≠ key rest[pos] := ne_of_lt (head _ (List.getElem_mem inner))
          simpa [differs] using ih tail inner

/-- Two ascending lists with the same elements are equal. -/
theorem ext (first : Ascending key xs) (second : Ascending key ys)
    (same : ∀ a, a ∈ xs ↔ a ∈ ys) : xs = ys := by
  induction xs generalizing ys with
  | nil =>
      cases ys with
      | nil => rfl
      | cons b tail => exact absurd ((same b).mpr (List.mem_cons_self ..)) (List.not_mem_nil)
  | cons a rest ih =>
      cases ys with
      | nil => exact absurd ((same a).mp (List.mem_cons_self ..)) (List.not_mem_nil)
      | cons b tail =>
          obtain ⟨headA, tailA⟩ := List.pairwise_cons.mp first
          obtain ⟨headB, tailB⟩ := List.pairwise_cons.mp second
          have heads : a = b := by
            rcases List.mem_cons.mp ((same a).mp (List.mem_cons_self ..)) with eq | inTail
            · exact eq
            · rcases List.mem_cons.mp ((same b).mpr (List.mem_cons_self ..)) with eq | inRest
              · exact eq.symm
              · exact absurd (lt_trans (headA b inRest) (headB a inTail)) (lt_irrefl _)
          subst heads
          refine congrArg (List.cons a) (ih tailA tailB fun c => ?_)
          constructor
          · intro hc
            rcases List.mem_cons.mp ((same c).mp (List.mem_cons_of_mem _ hc)) with eq | inTail
            · exact absurd (headA c hc) (eq ▸ lt_irrefl _)
            · exact inTail
          · intro hc
            rcases List.mem_cons.mp ((same c).mpr (List.mem_cons_of_mem _ hc)) with eq | inRest
            · exact absurd (headB c hc) (eq ▸ lt_irrefl _)
            · exact inRest

end Ascending

namespace LowerBound

variable {key : α → κ} {bound : κ} {xs : List α} {pos : Nat}

theorem find?_eq (lower : LowerBound key bound xs pos) :
    xs.find? (fun a => decide (bound ≤ key a)) = (xs.drop pos).head? := by
  rw [← List.take_append_drop pos xs, List.find?_append]
  have noLeft : (xs.take pos).find? (fun a => decide (bound ≤ key a)) = none :=
    List.find?_eq_none.mpr fun a ha => by simpa using lower.below a ha
  rw [noLeft, Option.none_or, List.take_append_drop]
  cases rest : xs.drop pos with
  | nil => rfl
  | cons b tail =>
      have reached : bound ≤ key b := lower.above b (rest ▸ List.mem_cons_self ..)
      simp [reached]

/-- Reading the lower bound position modulo the length is the cyclic successor lookup. -/
theorem getElem?_mod (lower : LowerBound key bound xs pos) (nonempty : xs ≠ []) :
    xs[pos % xs.length]? = ringLookup key bound xs := by
  have positive : 0 < xs.length := List.length_pos_of_ne_nil nonempty
  rw [ringLookup, lower.find?_eq, List.head?_drop]
  rcases Nat.lt_or_ge pos xs.length with inside | outside
  · rw [Nat.mod_eq_of_lt inside, List.getElem?_eq_getElem inside, Option.some_or]
  · have last : pos = xs.length := Nat.le_antisymm lower.le_length outside
    rw [last, Nat.mod_self, List.getElem?_eq_none (Nat.le_refl _), Option.none_or,
      List.head?_eq_getElem?]

end LowerBound

theorem ringLookup_mem {key : α → κ} {bound : κ} {xs : List α} {a : α}
    (found : ringLookup key bound xs = some a) : a ∈ xs := by
  unfold ringLookup at found
  rcases Option.or_eq_some_iff.mp found with hit | ⟨-, first⟩
  · exact List.mem_of_find?_eq_some hit
  · exact List.mem_of_head? first

theorem ringLookup_eq_none {key : α → κ} {bound : κ} {xs : List α} :
    ringLookup key bound xs = none ↔ xs = [] := by
  cases xs with
  | nil => simp [ringLookup]
  | cons a rest => simp [ringLookup]

/-- Dropping elements other than the one found does not move the lookup. -/
theorem ringLookup_filter {key : α → κ} {bound : κ} {xs : List α} {a : α} (keep : α → Bool)
    (found : ringLookup key bound xs = some a) (kept : keep a = true) :
    ringLookup key bound (xs.filter keep) = some a := by
  induction xs with
  | nil => cases found
  | cons b rest ih =>
      unfold ringLookup at found ih ⊢
      by_cases reached : bound ≤ key b
      · have here : b = a := by simpa [List.find?_cons, reached] using found
        subst here
        simp [kept, reached]
      · have skip : (rest.find? (fun c => decide (bound ≤ key c))).or (some b) = some a := by
          simpa [List.find?_cons, reached] using found
        cases hit : rest.find? (fun c => decide (bound ≤ key c)) with
        | some c =>
            have same : c = a := by simpa [hit] using skip
            subst same
            have restFound := ih (by simp [hit])
            have inRest : (rest.filter keep).find? (fun d => decide (bound ≤ key d)) = some c := by
              rcases Option.or_eq_some_iff.mp restFound with yes | ⟨no, -⟩
              · exact yes
              · have member : c ∈ rest.filter keep :=
                  List.mem_filter.mpr ⟨List.mem_of_find?_eq_some hit, kept⟩
                have above : bound ≤ key c := by simpa using List.find?_some hit
                exact absurd above (by simpa using List.find?_eq_none.mp no c member)
            cases hb : keep b <;> simp [hb, reached, inRest]
        | none =>
            have same : b = a := by simpa [hit] using skip
            subst same
            have none' : (rest.filter keep).find? (fun d => decide (bound ≤ key d)) = none :=
              List.find?_eq_none.mpr fun d hd =>
                List.find?_eq_none.mp hit d (List.mem_filter.mp hd).1
            simp [kept, reached, none']

end MlsImgSearch.Lib.SortedList
