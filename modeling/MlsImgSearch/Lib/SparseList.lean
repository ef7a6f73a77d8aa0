import Mathlib.Algebra.BigOperators.Group.List.Basic
import Mathlib.Algebra.Group.Basic
import Mathlib.Tactic.Abel
import MlsImgSearch.Lib.SortedList

/-!
# Sums of sparse vectors kept as ascending lists

A list with strictly ascending keys and values of a kind that excludes zero is
the canonical form of a function that is zero almost everywhere. This module
gives the function of a list, the addition of one entry from the start of the
list, the same addition from a cursor inside of the list, and the fact that
lists in canonical form with the same function are equal.
-/

namespace MlsImgSearch.Lib.SparseList

open MlsImgSearch.Lib.SortedList

variable {α κ V : Type*} [LinearOrder κ] [AddCommMonoid V]

/-- The sum of the values at a key. -/
def coeff (key : α → κ) (val : α → V) (xs : List α) (k : κ) : V :=
  (xs.map fun a => if key a = k then val a else 0).sum

/-- Ascending keys, and a good value at each of them. -/
structure Canonical (key : α → κ) (val : α → V) (good : V → Prop) (xs : List α) : Prop where
  ascending : Ascending key xs
  good : ∀ a ∈ xs, good (val a)

/-- Add to the entry with key `k`, or put `fresh` where its place is. -/
def upsert (key : α → κ) (k : κ) (bump : α → α) (fresh : List α) : List α → List α
  | [] => fresh
  | a :: after =>
      if k = key a then bump a :: after
      else if k < key a then fresh ++ a :: after
      else a :: upsert key k bump fresh after

/-- The same from a cursor on: the entries up to the cursor, and those from the cursor on. -/
def place (key : α → κ) (k : κ) (bump : α → α) (fresh : List α) :
    List α → List α → List α × List α
  | before, [] => (before ++ fresh, [])
  | before, a :: after =>
      if k = key a then (before ++ [bump a], after)
      else if k < key a then (before ++ fresh, a :: after)
      else place key k bump fresh (before ++ [a]) after

/-! ## The function of a list -/

section Coeff

variable {key : α → κ} {val : α → V}

@[simp] theorem coeff_nil (k : κ) : coeff key val [] k = 0 := rfl

@[simp] theorem coeff_cons (a : α) (xs : List α) (k : κ) :
    coeff key val (a :: xs) k = (if key a = k then val a else 0) + coeff key val xs k := rfl

@[simp] theorem coeff_append (xs ys : List α) (k : κ) :
    coeff key val (xs ++ ys) k = coeff key val xs k + coeff key val ys k := by
  unfold coeff
  rw [List.map_append, List.sum_append]

theorem coeff_eq_zero {xs : List α} {k : κ} (absent : ∀ a ∈ xs, key a ≠ k) :
    coeff key val xs k = 0 := by
  induction xs with
  | nil => rfl
  | cons a xs ih =>
      rw [coeff_cons, if_neg (absent a (List.mem_cons_self ..)),
        ih fun b member => absent b (List.mem_cons_of_mem a member)]
      exact add_zero 0

theorem coeff_head {a : α} {xs : List α} (asc : Ascending key (a :: xs)) :
    coeff key val (a :: xs) (key a) = val a := by
  have later := (List.pairwise_cons.mp asc).1
  rw [coeff_cons, if_pos rfl, coeff_eq_zero fun b member => (later b member).ne', add_zero]

theorem coeff_of_mem {a : α} {xs : List α} (asc : Ascending key xs) (member : a ∈ xs) :
    coeff key val xs (key a) = val a := by
  induction xs with
  | nil => cases member
  | cons b xs ih =>
      obtain ⟨head, tail⟩ := List.pairwise_cons.mp asc
      rcases List.mem_cons.mp member with rfl | later
      · exact coeff_head asc
      · rw [coeff_cons, if_neg (head a later).ne, zero_add, ih tail later]

/-- A value other than zero is that of an element. -/
theorem exists_mem_of_coeff {xs : List α} {k : κ} (asc : Ascending key xs)
    (nonzero : coeff key val xs k ≠ 0) : ∃ a ∈ xs, key a = k ∧ val a = coeff key val xs k := by
  by_contra none'
  refine nonzero (coeff_eq_zero fun a member same => none' ⟨a, member, same, ?_⟩)
  rw [← same, coeff_of_mem asc member]

/-- A key below all others has no value. -/
theorem coeff_below {a : α} {xs : List α} {k : κ} (asc : Ascending key (a :: xs))
    (below : k < key a) : coeff key val (a :: xs) k = 0 := by
  refine coeff_eq_zero fun b member => ?_
  rcases List.mem_cons.mp member with rfl | later
  · exact below.ne'
  · exact (lt_trans below ((List.pairwise_cons.mp asc).1 b later)).ne'

end Coeff

/-! ## Canonical forms are unique -/

section Ext

variable {key : α → κ} {val : α → V} {good : V → Prop}

omit [AddCommMonoid V] in
theorem Canonical.tail {a : α} {xs : List α} (canonical : Canonical key val good (a :: xs)) :
    Canonical key val good xs :=
  ⟨(List.pairwise_cons.mp canonical.ascending).2,
    fun b member => canonical.good b (List.mem_cons_of_mem a member)⟩

/-- Lists in canonical form with the same function are equal. -/
theorem Canonical.ext (nonzero : ∀ v, good v → v ≠ 0)
    (determined : ∀ a b, key a = key b → val a = val b → a = b) {xs ys : List α}
    (left : Canonical key val good xs) (right : Canonical key val good ys)
    (same : ∀ k, coeff key val xs k = coeff key val ys k) : xs = ys := by
  induction xs generalizing ys with
  | nil =>
      cases ys with
      | nil => rfl
      | cons b ys =>
          have value := same (key b)
          rw [coeff_nil, coeff_head right.ascending] at value
          exact absurd value.symm (nonzero _ (right.good b (List.mem_cons_self ..)))
  | cons a xs ih =>
      have aGood := nonzero _ (left.good a (List.mem_cons_self ..))
      cases ys with
      | nil =>
          have value := same (key a)
          rw [coeff_nil, coeff_head left.ascending] at value
          exact absurd value aGood
      | cons b ys =>
          have bGood := nonzero _ (right.good b (List.mem_cons_self ..))
          have keys : key a = key b := by
            rcases lt_trichotomy (key a) (key b) with less | equal | greater
            · have value := same (key a)
              rw [coeff_head left.ascending, coeff_below right.ascending less] at value
              exact absurd value aGood
            · exact equal
            · have value := same (key b)
              rw [coeff_head right.ascending, coeff_below left.ascending greater] at value
              exact absurd value.symm bGood
          have values : val a = val b := by
            have value := same (key a)
            rwa [coeff_head left.ascending, keys, coeff_head right.ascending] at value
          obtain rfl := determined a b keys values
          rw [ih left.tail right.tail fun k => ?_]
          by_cases here : key a = k
          · subst here
            rw [coeff_eq_zero fun c member =>
                ((List.pairwise_cons.mp left.ascending).1 c member).ne',
              coeff_eq_zero fun c member =>
                ((List.pairwise_cons.mp right.ascending).1 c member).ne']
          · have value := same k
            rwa [coeff_cons, coeff_cons, if_neg here, zero_add, zero_add] at value

end Ext

/-! ## Adding one entry -/

section Upsert

variable {key : α → κ} {val : α → V} {good : V → Prop} {k : κ} {v : V} {bump : α → α}
  {fresh : List α}

/-- What is added at key `k`: the value `v`, with a new entry unless the value is zero. -/
structure Entry (key : α → κ) (val : α → V) (good : V → Prop) (k : κ) (v : V) (bump : α → α)
    (fresh : List α) : Prop where
  bumpKey : ∀ a, key (bump a) = key a
  bumpVal : ∀ a, val (bump a) = val a + v
  fresh : (fresh = [] ∧ v = 0) ∨ (good v ∧ ∃ a, fresh = [a] ∧ key a = k ∧ val a = v)

theorem Entry.coeff_fresh (entry : Entry key val good k v bump fresh) (k' : κ) :
    coeff key val fresh k' = if k = k' then v else 0 := by
  rcases entry.fresh with ⟨rfl, rfl⟩ | ⟨_, a, rfl, rfl, rfl⟩
  · rw [ite_self]
    rfl
  · rw [coeff_cons, coeff_nil, add_zero]

omit [LinearOrder κ] in
theorem Entry.key_fresh (entry : Entry key val good k v bump fresh) {a : α} (member : a ∈ fresh) :
    key a = k := by
  rcases entry.fresh with ⟨rfl, _⟩ | ⟨_, b, rfl, rfl, _⟩
  · cases member
  · rw [List.mem_singleton.mp member]

theorem coeff_upsert (entry : Entry key val good k v bump fresh) (xs : List α) (k' : κ) :
    coeff key val (upsert key k bump fresh xs) k' =
      coeff key val xs k' + if k = k' then v else 0 := by
  induction xs with
  | nil => rw [upsert, entry.coeff_fresh, coeff_nil, zero_add]
  | cons a xs ih =>
      unfold upsert
      split
      · next here =>
          rw [coeff_cons, coeff_cons, entry.bumpKey, entry.bumpVal, here]
          split <;> abel
      · split
        · rw [coeff_append, entry.coeff_fresh, add_comm]
        · rw [coeff_cons, coeff_cons, ih]
          abel

theorem mem_upsert_key (entry : Entry key val good k v bump fresh) (xs : List α) (k' : κ) :
    (∃ a ∈ upsert key k bump fresh xs, key a = k') ↔
      (∃ a ∈ xs, key a = k') ∨ (∃ a ∈ fresh, key a = k') := by
  induction xs with
  | nil => simp [upsert]
  | cons a xs ih =>
      unfold upsert
      split
      · next here =>
          have inside : (∃ b ∈ fresh, key b = k') → key a = k' := by
            rintro ⟨b, member, rfl⟩
            rw [← here, entry.key_fresh member]
          simp only [List.exists_mem_cons_iff, entry.bumpKey]
          exact ⟨Or.inl, fun either => either.elim id fun new => Or.inl (inside new)⟩
      · split
        · simp only [List.mem_append, List.exists_mem_cons_iff, or_and_right, exists_or]
          exact or_comm
        · simp only [List.exists_mem_cons_iff, ih]
          exact or_assoc.symm

theorem Canonical.upsert (entry : Entry key val good k v bump fresh)
    (good_add : ∀ w, good w → (v = 0 ∨ good v) → good (w + v)) {xs : List α}
    (canonical : Canonical key val good xs) :
    Canonical key val good (upsert key k bump fresh xs) := by
  have kind : v = 0 ∨ good v := entry.fresh.imp And.right And.left
  have freshGood : ∀ a ∈ fresh, good (val a) := by
    rcases entry.fresh with ⟨rfl, _⟩ | ⟨isGood, a, rfl, _, rfl⟩
    · exact fun a member => by cases member
    · exact fun b member => by rwa [List.mem_singleton.mp member]
  have freshAsc : Ascending key fresh := by
    rcases entry.fresh with ⟨rfl, _⟩ | ⟨_, a, rfl, _, _⟩
    · exact List.Pairwise.nil
    · exact List.pairwise_singleton ..
  induction xs with
  | nil => exact ⟨freshAsc, freshGood⟩
  | cons a xs ih =>
      obtain ⟨head, tail⟩ := List.pairwise_cons.mp canonical.ascending
      have rest := ih canonical.tail
      unfold SparseList.upsert
      split
      · refine ⟨List.pairwise_cons.mpr ⟨fun b member => ?_, tail⟩, fun b member => ?_⟩
        · rw [entry.bumpKey]
          exact head b member
        · rcases List.mem_cons.mp member with rfl | later
          · rw [entry.bumpVal]
            exact good_add _ (canonical.good a (List.mem_cons_self ..)) kind
          · exact canonical.good b (List.mem_cons_of_mem a later)
      · split
        · next less =>
            refine ⟨List.pairwise_append.mpr ⟨freshAsc, canonical.ascending,
              fun b member c later => ?_⟩, fun b member => ?_⟩
            · rw [entry.key_fresh member]
              rcases List.mem_cons.mp later with rfl | later
              · exact less
              · exact lt_trans less (head c later)
            · rcases List.mem_append.mp member with new | old
              · exact freshGood b new
              · exact canonical.good b old
        · next differs notLess =>
            have greater : key a < k := lt_of_le_of_ne (not_lt.mp notLess) (Ne.symm differs)
            refine ⟨List.pairwise_cons.mpr ⟨fun b member => ?_, rest.ascending⟩,
              fun b member => ?_⟩
            · rcases (mem_upsert_key entry xs (key b)).mp ⟨b, member, rfl⟩ with old | new
              · obtain ⟨c, inside, sameKey⟩ := old
                rw [← sameKey]
                exact head c inside
              · obtain ⟨c, inside, sameKey⟩ := new
                rw [← sameKey, entry.key_fresh inside]
                exact greater
            · rcases List.mem_cons.mp member with rfl | later
              · exact canonical.good b (List.mem_cons_self ..)
              · exact rest.good b later

/-- From `xs` to `ys` the function `c` is added, and entries at the keys `hits`. -/
structure Adds (key : α → κ) (val : α → V) (good : V → Prop) (c : κ → V) (hits : κ → Prop)
    (xs ys : List α) : Prop where
  canonical : Canonical key val good ys
  coeff_eq : ∀ k, coeff key val ys k = coeff key val xs k + c k
  mem_key : ∀ k, (∃ a ∈ ys, key a = k) ↔ (∃ a ∈ xs, key a = k) ∨ hits k

theorem Adds.nothing {xs : List α} (canonical : Canonical key val good xs) :
    Adds key val good (fun _ => 0) (fun _ => False) xs xs :=
  ⟨canonical, fun _ => (add_zero _).symm, fun _ => (or_iff_left not_false).symm⟩

theorem Adds.trans {c c' : κ → V} {hits hits' : κ → Prop} {xs ys zs : List α}
    (first : Adds key val good c hits xs ys) (second : Adds key val good c' hits' ys zs) :
    Adds key val good (fun k => c k + c' k) (fun k => hits k ∨ hits' k) xs zs := by
  refine ⟨second.canonical, fun k => ?_, fun k => ?_⟩
  · rw [second.coeff_eq, first.coeff_eq, add_assoc]
  · rw [second.mem_key, first.mem_key, or_assoc]

theorem Adds.of_upsert (entry : Entry key val good k v bump fresh)
    (good_add : ∀ w, good w → (v = 0 ∨ good v) → good (w + v)) {xs : List α}
    (canonical : Canonical key val good xs) :
    Adds key val good (fun k' => if k = k' then v else 0) (fun k' => ∃ a ∈ fresh, key a = k') xs
      (upsert key k bump fresh xs) :=
  ⟨canonical.upsert entry good_add, coeff_upsert entry xs, mem_upsert_key entry xs⟩

/-- Entries below the key are passed over. -/
theorem upsert_append {before : List α} (below : ∀ a ∈ before, key a < k) (after : List α) :
    upsert key k bump fresh (before ++ after) = before ++ upsert key k bump fresh after := by
  induction before with
  | nil => rfl
  | cons a before ih =>
      have less := below a (List.mem_cons_self ..)
      rw [List.cons_append, upsert, if_neg less.ne', if_neg less.not_gt,
        ih fun b member => below b (List.mem_cons_of_mem a member), List.cons_append]

/-- Below the key, the new entry goes to the end. -/
theorem place_below {after : List α} (below : ∀ a ∈ after, key a < k) (before : List α) :
    place key k bump fresh before after = (before ++ after ++ fresh, []) := by
  induction after generalizing before with
  | nil => rw [place, List.append_nil]
  | cons a after ih =>
      have less := below a (List.mem_cons_self ..)
      rw [place, if_neg less.ne', if_neg less.not_gt,
        ih fun b member => below b (List.mem_cons_of_mem a member)]
      simp only [List.append_assoc, List.singleton_append]

/-- The cursor parts the result at the key. -/
theorem place_spec (entry : Entry key val good k v bump fresh) {before after : List α}
    (asc : Ascending key (before ++ after)) (below : ∀ a ∈ before, key a < k) :
    (place key k bump fresh before after).1 ++ (place key k bump fresh before after).2 =
        upsert key k bump fresh (before ++ after) ∧
      (∀ a ∈ (place key k bump fresh before after).1, key a ≤ k) ∧
      ∀ a ∈ (place key k bump fresh before after).2, k < key a := by
  have freshLe : ∀ before : List α, (∀ a ∈ before, key a < k) →
      ∀ a ∈ before ++ fresh, key a ≤ k := by
    intro before below a member
    rcases List.mem_append.mp member with old | new
    · exact (below a old).le
    · exact (entry.key_fresh new).le
  rw [upsert_append below]
  induction after generalizing before with
  | nil =>
      refine ⟨by rw [place, upsert, List.append_nil], freshLe before below, fun a member => ?_⟩
      cases member
  | cons a after ih =>
      have later := (List.pairwise_append.mp asc).2.1
      obtain ⟨head, _⟩ := List.pairwise_cons.mp later
      unfold place upsert
      split
      · next here =>
          refine ⟨by rw [List.append_assoc, List.singleton_append], fun b member => ?_,
            fun b member => here ▸ head b member⟩
          rcases List.mem_append.mp member with old | new
          · exact (below b old).le
          · rw [List.mem_singleton.mp new, entry.bumpKey]
            exact here.ge
      · split
        · next less =>
            refine ⟨List.append_assoc .., freshLe before below, fun b member => ?_⟩
            rcases List.mem_cons.mp member with rfl | beyond
            · exact less
            · exact lt_trans less (head b beyond)
        · next differs notLess =>
            have greater : key a < k := lt_of_le_of_ne (not_lt.mp notLess) (Ne.symm differs)
            have below' : ∀ b ∈ before ++ [a], key b < k := by
              intro b member
              rcases List.mem_append.mp member with old | new
              · exact below b old
              · rwa [List.mem_singleton.mp new]
            have asc' : Ascending key ((before ++ [a]) ++ after) := by
              rwa [List.append_assoc, List.singleton_append]
            have step := ih asc' below'
            rwa [List.append_assoc, List.singleton_append] at step

end Upsert

end MlsImgSearch.Lib.SparseList
