import Mathlib.Data.List.AList
import MlsImgSearch.Lib.Run
import MlsImgSearch.Blitz.ServiceSelector

/-!
# The weighted service selector

`RandomSelector` keeps the available services in one list and the others in a
second one. Each list has a counter, a cursor and the number of times the cursor's
service was returned. A map leads from the id of a service to its place in one of
the lists. Iterators stay where they are when a node moves to the other list; an
iterator to an erased node must not be used any more.
-/

namespace MlsImgSearch.Blitz.RandomSelector

open MlsImgSearch.Lib.Run ServiceSelector

/-- A node of a list, named by the id that was given out when it was created. -/
abbrev Ref := Int

/-! ## Lists with a cursor -/

/-- The element behind `r`; the inner `none` is the end of the list, the outer one means that `r` is
not in the list. -/
def after (r : Ref) : List Ref → Option (Option Ref)
  | [] => none
  | x :: rest => if x = r then some rest.head? else after r rest

/-- `avail_items_` or `unavail_items_` with its counter, its cursor and the use count of the cursor. An
iterator is `none` at the end of the list. -/
structure Half where
  items : List Ref := []
  count : Int := 0
  iter : Option Ref := none
  used : Int := 0

/-- A cursor at the end goes back to the first element. -/
def Half.rewind (h : Half) : Half := if h.iter = none then { h with iter := h.items.head? } else h

/-- `++iter`; `none` when the cursor is not in the list. -/
def Half.next (h : Half) : Option Half :=
  (h.iter.bind fun r => after r h.items).map fun iter => { h with iter := iter }

/-- The cursor leaves a node that is going to be erased. -/
def Half.skip (h : Half) : Option Half := h.next.map fun h => { h.rewind with used := 0 }

/-- `none` when the node was erased before. -/
def Half.erase (h : Half) (r : Ref) : Option Half :=
  if r ∈ h.items then some { h with items := h.items.erase r, count := h.count - 1 } else none

/-- A node moves to the other list. -/
def Half.leave (h : Half) (r : Ref) : Option Half :=
  if r ∈ h.items then
    (if h.iter = some r then h.next else some h).map fun h =>
      { h with items := h.items.erase r, count := h.count - 1 }.rewind
  else none

/-- A node comes from the other list. -/
def Half.join (h : Half) (r : Ref) : Half :=
  { h with items := h.items ++ [r], count := h.count + 1 }.rewind

/-! ## The selector -/

inductive Side where
  | avail
  | unavail
  deriving DecidableEq

structure MapNode where
  iter : Ref
  list : Side

structure Selector (α : Type) where
  nextId : Int := 0
  services : AList (fun _ : Int => MapNode) := ∅
  nodes : Ref → Option (SelectNode α) := fun _ => none
  avail : Half := {}
  unavail : Half := {}

section Operations

variable {α : Type}

/-- The numbers of an `int`. Going beyond them is undefined. -/
def InInt (n : Int) : Prop := -2 ^ 31 ≤ n ∧ n < 2 ^ 31

instance (n : Int) : Decidable (InInt n) := inferInstanceAs (Decidable (_ ∧ _))

/-- `*iter`; `none` for an erased node. -/
def Selector.deref (s : Selector α) (r : Ref) : Option (SelectNode α) :=
  if r ∈ s.avail.items ∨ r ∈ s.unavail.items then s.nodes r else none

/-- `none` when the ids are used up. -/
def addItem (userData : α) (weight : Int) (s : Selector α) : Option (Ref × Selector α) :=
  let id := s.nextId + 1
  if InInt id then
    let avail := { s.avail with items := id :: s.avail.items }.rewind
    some (id,
      { nextId := id
        services := s.services.insert id ⟨id, .avail⟩
        nodes := Function.update s.nodes id (some { weight := weight, data := userData })
        avail := { avail with count := avail.count + 1 }
        unavail := s.unavail.rewind })
  else none

/-- The entry of the map stays. `none` is the use of an iterator to an erased node. -/
def removeItem (serviceId : Int) (s : Selector α) : Option (Int × Selector α) :=
  match s.services.lookup serviceId with
  | none => some (1, s)
  | some m =>
      (if some m.iter = s.avail.iter then s.avail.skip.map fun avail => { s with avail := avail }
        else if some m.iter = s.unavail.iter then
          s.unavail.skip.map fun unavail => { s with unavail := unavail }
        else some s).bind fun s =>
          match m.list with
          | .avail => (s.avail.erase m.iter).map fun avail => (0, { s with avail := avail })
          | .unavail =>
              (s.unavail.erase m.iter).map fun unavail => (0, { s with unavail := unavail })

/-- One list of `Select`. The service whose node is copied to the result, or `none` when an iterator is
used that must not be. -/
def Half.select (nodes : Ref → Option (SelectNode α)) (h : Half) : Option (Ref × Half) :=
  h.iter.bind fun r =>
    if r ∈ h.items then
      (nodes r).bind fun node =>
        if h.used < node.weight then some (r, { h with used := h.used + 1 })
        else
          h.next.bind fun h =>
            let h := { h with used := 0 }.rewind
            h.iter.map fun r => (r, h)
    else none

/-- No service is returned when both counters are zero. -/
def select (s : Selector α) : Option (Option Ref × Selector α) :=
  if 0 < s.avail.count then
    (s.avail.select s.nodes).map fun (r, avail) => (some r, { s with avail := avail })
  else if 0 < s.unavail.count then
    (s.unavail.select s.nodes).map fun (r, unavail) => (some r, { s with unavail := unavail })
  else some (none, s)

def clampMark (mark : Int) : Int :=
  let newMark := if mark < -100 then -100 else mark
  if newMark > 100 then 100 else newMark

/-- `none` is the use of an erased node, or a sum that is no `int`. -/
def updateMark (serviceId markDelta : Int) (s : Selector α) : Option (Int × Selector α) :=
  match s.services.lookup serviceId with
  | none => some (1, s)
  | some m =>
      (s.deref m.iter).bind fun node =>
        if InInt (node.mark + markDelta) then
          let newMark := clampMark (node.mark + markDelta)
          let s := { s with nodes := Function.update s.nodes m.iter (some { node with mark := newMark }) }
          if newMark ≤ 0 ∧ m.list = .avail then
            (s.avail.leave m.iter).map fun avail =>
              (0, { s with
                avail := avail
                unavail := s.unavail.join m.iter
                services := s.services.insert serviceId { m with list := .unavail } })
          else if 0 < newMark ∧ m.list = .unavail then
            (s.unavail.leave m.iter).map fun unavail =>
              (0, { s with
                avail := s.avail.join m.iter
                unavail := unavail
                services := s.services.insert serviceId { m with list := .avail } })
          else some (0, s)
        else none

def updateMarks (markDelta : Int) : List Int → Selector α → Option (Selector α)
  | [], s => some s
  | id :: ids, s => (updateMark id markDelta s).bind fun (_, s') => updateMarks markDelta ids s'

/-- `rank` is the place of a key in the map, which is not ordered. -/
def updateAllMark (rank : Int → Nat) (markDelta : Int) (s : Selector α) : Option (Selector α) :=
  updateMarks markDelta (s.services.keys.mergeSort fun a b => rank a ≤ rank b) s

end Operations

/-! ## Runs -/

inductive Call (α : Type) where
  | addItem (userData : α) (weight : Int)
  | removeItem (serviceId : Int)
  | select
  | updateMark (serviceId markDelta : Int)
  | updateAllMark (rank : Int → Nat) (markDelta : Int)

/-- The selector and the ids that were added and not removed. -/
structure Tracked (α : Type) where
  selector : Selector α := {}
  live : List Int := []

def step {α : Type} (t : Tracked α) : Call α → Option (Tracked α)
  | .addItem userData weight =>
      (addItem userData weight t.selector).map fun (id, s) => ⟨s, t.live ++ [id]⟩
  | .removeItem serviceId =>
      (removeItem serviceId t.selector).map fun (_, s) => ⟨s, t.live.erase serviceId⟩
  | .select => (select t.selector).map fun (_, s) => ⟨s, t.live⟩
  | .updateMark serviceId markDelta =>
      (updateMark serviceId markDelta t.selector).map fun (_, s) => ⟨s, t.live⟩
  | .updateAllMark rank markDelta =>
      (updateAllMark rank markDelta t.selector).map fun s => ⟨s, t.live⟩

/-! ## The contract -/

/-- The cursor is in the list, or at its end when the list is empty. -/
def Half.Placed (h : Half) : Prop := (h.iter = none ∧ h.items = []) ∨ ∃ r ∈ h.items, h.iter = some r

structure Represents {α : Type} (t : Tracked α) : Prop where
  ids : ∀ id, id ∈ t.selector.services ↔ id ∈ t.live
  placed : ∀ id m, t.selector.services.lookup id = some m →
    ∃ node, t.selector.nodes m.iter = some node ∧ -100 ≤ node.mark ∧ node.mark ≤ 100 ∧
      (t.selector.avail.items ++ t.selector.unavail.items).count m.iter = 1 ∧
      (m.iter ∈ t.selector.avail.items ↔ 0 < node.mark)
  others : ∀ r ∈ t.selector.avail.items ++ t.selector.unavail.items,
    ∃ id m, t.selector.services.lookup id = some m ∧ m.iter = r
  counts : t.selector.avail.count = t.selector.avail.items.length ∧
    t.selector.unavail.count = t.selector.unavail.items.length
  cursors : t.selector.avail.Placed ∧ t.selector.unavail.Placed
  selects : t.selector.avail.items ≠ [] →
    ∃ r s', select t.selector = some (some r, s') ∧ r ∈ t.selector.avail.items

/-- A call is carried out and ends in a state that is represented well. -/
def Keeps {α : Type} (t : Tracked α) (call : Call α) : Prop :=
  ∃ t', step t call = some t' ∧ Represents t'

/-- The marks of the services stay numbers of an `int` when `markDelta` is added. -/
def Addable {α : Type} (s : Selector α) (serviceId markDelta : Int) : Prop :=
  ∀ m node, s.services.lookup serviceId = some m → s.nodes m.iter = some node →
    InInt (node.mark + markDelta)

/-- No service is removed, the ids do not run out and no mark overflows. -/
def Unremoved {α : Type} (t : Tracked α) : Call α → Prop
  | .addItem _ _ => t.selector.nextId < 2 ^ 31 - 1
  | .removeItem serviceId => serviceId ∉ t.selector.services
  | .select => True
  | .updateMark serviceId markDelta => Addable t.selector serviceId markDelta
  | .updateAllMark _ markDelta => ∀ id, Addable t.selector id markDelta

/-! ## Moving a cursor -/

section Cursors

variable {h h' : Half} {r x : Ref}

theorem after_append {front : List Ref} (fresh : r ∉ front) (back : List Ref) :
    after r (front ++ r :: back) = some back.head? := by
  induction front with
  | nil => exact if_pos rfl
  | cons y front ih =>
      obtain ⟨other, fresh⟩ := not_or.mp (mt List.mem_cons.mpr fresh)
      rw [List.cons_append, after, if_neg (Ne.symm other)]
      exact ih fresh

/-- The element behind a node is another one of the list. -/
theorem after_spec {items : List Ref} (nodup : items.Nodup) (member : r ∈ items) :
    ∃ iter, after r items = some iter ∧ ∀ x, iter = some x → x ∈ items.erase r := by
  obtain ⟨front, back, split⟩ := List.append_of_mem member
  rw [split] at nodup
  have fresh : r ∉ front := fun again =>
    (List.nodup_append.mp nodup).2.2 r again r (List.mem_cons_self ..) rfl
  refine ⟨back.head?, split ▸ after_append fresh back, fun x isHead => ?_⟩
  rw [split, List.erase_append_right _ fresh, List.erase_cons_head]
  exact List.mem_append_right _ (List.mem_of_mem_head? isHead)

@[simp] theorem rewind_items (h : Half) : h.rewind.items = h.items := by
  unfold Half.rewind
  split <;> rfl

@[simp] theorem rewind_count (h : Half) : h.rewind.count = h.count := by
  unfold Half.rewind
  split <;> rfl

@[simp] theorem rewind_used (h : Half) : h.rewind.used = h.used := by
  unfold Half.rewind
  split <;> rfl

/-- A cursor that is at the end or in the list is placed well after going back. -/
theorem placed_rewind (inside : ∀ r, h.iter = some r → r ∈ h.items) : h.rewind.Placed := by
  unfold Half.rewind
  split
  · cases items : h.items with
    | nil => exact Or.inl ⟨rfl, rfl⟩
    | cons x rest => exact Or.inr ⟨x, List.mem_cons_self .., rfl⟩
  · next some' =>
      obtain ⟨r, isIter⟩ := Option.ne_none_iff_exists'.mp some'
      exact Or.inr ⟨r, inside r isIter, isIter⟩

theorem Half.Placed.inside (placed : h.Placed) : ∀ r, h.iter = some r → r ∈ h.items := by
  intro r isIter
  rcases placed with ⟨atEnd, -⟩ | ⟨x, member, isIter'⟩
  · exact nomatch atEnd.symm.trans isIter
  · exact Option.some.inj (isIter.symm.trans isIter') ▸ member

/-- What a list and its counter become when a node is taken out. -/
structure Without (h : Half) (r : Ref) (h' : Half) : Prop where
  member : r ∈ h.items
  items : h'.items = h.items.erase r
  count : h'.count = h.count - 1
  used : 0 ≤ h.used → 0 ≤ h'.used

theorem next_items (moved : h.next = some h') :
    h'.items = h.items ∧ h'.count = h.count ∧ h'.used = h.used := by
  obtain ⟨iter, -, rfl⟩ := Option.map_eq_some_iff.mp moved
  exact ⟨rfl, rfl, rfl⟩

theorem leave_without (left : h.leave r = some h') : Without h r h' := by
  unfold Half.leave at left
  split at left
  · next member =>
      obtain ⟨mid, moved, rfl⟩ := Option.map_eq_some_iff.mp left
      have same : mid.items = h.items ∧ mid.count = h.count ∧ mid.used = h.used := by
        split at moved
        · exact next_items moved
        · obtain rfl := Option.some.inj moved
          exact ⟨rfl, rfl, rfl⟩
      refine ⟨member, ?_, ?_, fun used => ?_⟩
      · rw [rewind_items, same.1]
      · rw [rewind_count, same.2.1]
      · rw [rewind_used, same.2.2]
        exact used
  · cases left

/-- A node of the list can leave it, and the cursor finds another place. -/
theorem leave_placed (nodup : h.items.Nodup) (member : r ∈ h.items) (placed : h.Placed) :
    ∃ h', h.leave r = some h' ∧ h'.Placed := by
  unfold Half.leave
  rw [if_pos member]
  by_cases atCursor : h.iter = some r
  · obtain ⟨iter, isAfter, inside⟩ := after_spec nodup member
    rw [if_pos atCursor, Half.next, atCursor, Option.bind_some, isAfter, Option.map_some,
      Option.map_some]
    exact ⟨_, rfl, placed_rewind inside⟩
  · rw [if_neg atCursor, Option.map_some]
    refine ⟨_, rfl, placed_rewind fun x isIter => ?_⟩
    have other : x ≠ r := fun same => atCursor (same ▸ isIter)
    exact (List.mem_erase_of_ne other).mpr (placed.inside x isIter)

theorem join_placed (placed : h.Placed) : (h.join r).Placed :=
  placed_rewind fun x isIter => List.mem_append_left _ (placed.inside x isIter)

@[simp] theorem join_items : (h.join r).items = h.items ++ [r] := rewind_items _

@[simp] theorem join_count : (h.join r).count = h.count + 1 := rewind_count _

@[simp] theorem join_used : (h.join r).used = h.used := rewind_used _

end Cursors

/-! ## What holds in every run -/

section Linked

variable {α : Type} {s s' : Selector α}

/-- The lists have no node twice, and their counters are right. -/
structure Linked (s : Selector α) : Prop where
  nodup : (s.avail.items ++ s.unavail.items).Nodup
  old : ∀ r ∈ s.avail.items ++ s.unavail.items, r ≤ s.nextId
  availCount : s.avail.count = s.avail.items.length
  unavailCount : s.unavail.count = s.unavail.items.length
  availUsed : 0 ≤ s.avail.used

theorem linked_initial : Linked ({} : Selector α) :=
  ⟨List.nodup_nil, fun _ member => absurd member List.not_mem_nil, rfl, rfl, Int.le_refl _⟩

theorem length_erase_cast {items : List Ref} {r : Ref} (member : r ∈ items) :
    ((items.erase r).length : Int) = items.length - 1 := by
  have counted := List.length_erase_of_mem member
  have positive := List.length_pos_of_mem member
  omega

/-- The lists are a part of what they were. -/
theorem Linked.part (linked : Linked s) (nextId : s'.nextId = s.nextId)
    (part : (s'.avail.items ++ s'.unavail.items).Sublist (s.avail.items ++ s.unavail.items))
    (availCount : s'.avail.count = s'.avail.items.length)
    (unavailCount : s'.unavail.count = s'.unavail.items.length) (availUsed : 0 ≤ s'.avail.used) :
    Linked s' := by
  refine ⟨part.nodup linked.nodup, fun r member => ?_, availCount, unavailCount, availUsed⟩
  rw [nextId]
  exact linked.old r (part.subset member)

/-- The lists have the same nodes in another order. -/
theorem Linked.perm (linked : Linked s) (nextId : s'.nextId = s.nextId)
    (perm : (s'.avail.items ++ s'.unavail.items).Perm (s.avail.items ++ s.unavail.items))
    (availCount : s'.avail.count = s'.avail.items.length)
    (unavailCount : s'.unavail.count = s'.unavail.items.length) (availUsed : 0 ≤ s'.avail.used) :
    Linked s' := by
  refine ⟨perm.nodup_iff.mpr linked.nodup, fun r member => ?_, availCount, unavailCount, availUsed⟩
  rw [nextId]
  exact linked.old r (perm.subset member)

theorem Linked.addItem (linked : Linked s) {userData : α} {weight : Int} {id : Ref}
    (added : addItem userData weight s = some (id, s')) : Linked s' := by
  unfold RandomSelector.addItem at added
  dsimp only at added
  split at added
  · obtain ⟨rfl, rfl⟩ := Prod.mk.inj (Option.some.inj added)
    have fresh : s.nextId + 1 ∉ s.avail.items ++ s.unavail.items := fun member => by
      have known : s.nextId + 1 ≤ s.nextId := linked.old _ member
      omega
    refine ⟨?_, fun r member => ?_, ?_, ?_, ?_⟩ <;>
      simp only [rewind_items, rewind_count, rewind_used, List.cons_append] at *
    · exact List.nodup_cons.mpr ⟨fresh, linked.nodup⟩
    · rcases List.mem_cons.mp member with rfl | before
      · exact Int.le_refl _
      · exact Int.le_add_one (linked.old r before)
    · rw [linked.availCount, List.length_cons]
      omega
    · exact linked.unavailCount
    · exact linked.availUsed
  · cases added

theorem skip_items {h h' : Half} (skipped : h.skip = some h') :
    h'.items = h.items ∧ h'.count = h.count ∧ h'.used = 0 := by
  obtain ⟨mid, moved, rfl⟩ := Option.map_eq_some_iff.mp skipped
  obtain ⟨items, count, -⟩ := next_items moved
  simp [items, count]

theorem erase_eq_some {h h' : Half} {r : Ref} (erased : h.erase r = some h') :
    r ∈ h.items ∧ h' = { h with items := h.items.erase r, count := h.count - 1 } := by
  unfold Half.erase at erased
  split at erased
  · next member => exact ⟨member, (Option.some.inj erased).symm⟩
  · cases erased

theorem Linked.removeItem (linked : Linked s) {serviceId code : Int}
    (removed : removeItem serviceId s = some (code, s')) : Linked s' := by
  unfold RandomSelector.removeItem at removed
  split at removed
  · obtain ⟨-, rfl⟩ := Prod.mk.inj (Option.some.inj removed)
    exact linked
  · next m found =>
      obtain ⟨mid, skipped, erased⟩ := Option.bind_eq_some_iff.mp removed
      -- the cursors move before the node is erased
      obtain ⟨nextId, items, counts, used⟩ : mid.nextId = s.nextId ∧
          (mid.avail.items = s.avail.items ∧ mid.unavail.items = s.unavail.items) ∧
          (mid.avail.count = s.avail.count ∧ mid.unavail.count = s.unavail.count) ∧
          0 ≤ mid.avail.used := by
        split at skipped
        · obtain ⟨h, isSkip, rfl⟩ := Option.map_eq_some_iff.mp skipped
          obtain ⟨items, count, used⟩ := skip_items isSkip
          exact ⟨rfl, ⟨items, rfl⟩, ⟨count, rfl⟩, used ▸ Int.le_refl _⟩
        · split at skipped
          · obtain ⟨h, isSkip, rfl⟩ := Option.map_eq_some_iff.mp skipped
            obtain ⟨items, count, -⟩ := skip_items isSkip
            exact ⟨rfl, ⟨rfl, items⟩, ⟨rfl, count⟩, linked.availUsed⟩
          · obtain rfl := Option.some.inj skipped
            exact ⟨rfl, ⟨rfl, rfl⟩, ⟨rfl, rfl⟩, linked.availUsed⟩
      have middle : Linked mid := by
        refine linked.part nextId ?_ ?_ ?_ used
        · rw [items.1, items.2]
        · rw [counts.1, items.1, linked.availCount]
        · rw [counts.2, items.2, linked.unavailCount]
      cases side : m.list with
      | avail =>
          rw [side] at erased
          obtain ⟨h, isErase, result⟩ := Option.map_eq_some_iff.mp erased
          obtain ⟨-, rfl⟩ := Prod.mk.inj result
          obtain ⟨member, rfl⟩ := erase_eq_some isErase
          refine middle.part rfl ?_ ?_ middle.unavailCount middle.availUsed
          · exact List.Sublist.append List.erase_sublist (List.Sublist.refl _)
          · dsimp only
            rw [middle.availCount, length_erase_cast member]
      | unavail =>
          rw [side] at erased
          obtain ⟨h, isErase, result⟩ := Option.map_eq_some_iff.mp erased
          obtain ⟨-, rfl⟩ := Prod.mk.inj result
          obtain ⟨member, rfl⟩ := erase_eq_some isErase
          refine middle.part rfl ?_ middle.availCount ?_ middle.availUsed
          · exact List.Sublist.append (List.Sublist.refl _) List.erase_sublist
          · dsimp only
            rw [middle.unavailCount, length_erase_cast member]

theorem select_items {nodes : Ref → Option (SelectNode α)} {h h' : Half} {r : Ref}
    (selected : h.select nodes = some (r, h')) :
    h'.items = h.items ∧ h'.count = h.count ∧ (0 ≤ h.used → 0 ≤ h'.used) := by
  obtain ⟨x, -, rest⟩ := Option.bind_eq_some_iff.mp selected
  split at rest
  · obtain ⟨node, -, rest⟩ := Option.bind_eq_some_iff.mp rest
    split at rest
    · obtain ⟨-, rfl⟩ := Prod.mk.inj (Option.some.inj rest)
      exact ⟨rfl, rfl, Int.le_add_one⟩
    · obtain ⟨mid, moved, rest⟩ := Option.bind_eq_some_iff.mp rest
      obtain ⟨items, count, -⟩ := next_items moved
      obtain ⟨y, -, result⟩ := Option.map_eq_some_iff.mp rest
      obtain ⟨-, rfl⟩ := Prod.mk.inj result
      simp [items, count]
  · cases rest

theorem Linked.select (linked : Linked s) {selected : Option Ref}
    (ran : select s = some (selected, s')) : Linked s' := by
  unfold RandomSelector.select at ran
  split at ran
  · obtain ⟨⟨r, avail⟩, picked, result⟩ := Option.map_eq_some_iff.mp ran
    obtain ⟨-, rfl⟩ := Prod.mk.inj result
    obtain ⟨items, count, used⟩ := select_items picked
    refine linked.part rfl ?_ ?_ linked.unavailCount (used linked.availUsed)
    · dsimp only
      rw [items]
    · dsimp only
      rw [count, items, linked.availCount]
  · split at ran
    · obtain ⟨⟨r, unavail⟩, picked, result⟩ := Option.map_eq_some_iff.mp ran
      obtain ⟨-, rfl⟩ := Prod.mk.inj result
      obtain ⟨items, count, -⟩ := select_items picked
      refine linked.part rfl ?_ linked.availCount ?_ linked.availUsed
      · dsimp only
        rw [items]
      · dsimp only
        rw [count, items, linked.unavailCount]
    · obtain ⟨-, rfl⟩ := Prod.mk.inj (Option.some.inj ran)
      exact linked

/-- The nodes after a mark was set. -/
def Selector.mark (s : Selector α) (r : Ref) (node : SelectNode α) (mark : Int) : Selector α :=
  { s with nodes := Function.update s.nodes r (some { node with mark := mark }) }

/-- What `updateMark` can do. -/
theorem updateMark_cases {serviceId markDelta code : Int}
    (updated : updateMark serviceId markDelta s = some (code, s')) :
    (s.services.lookup serviceId = none ∧ s' = s) ∨
      ∃ m node, s.services.lookup serviceId = some m ∧ s.deref m.iter = some node ∧
        InInt (node.mark + markDelta) ∧
        ((clampMark (node.mark + markDelta) ≤ 0 ∧ m.list = .avail ∧
            ∃ avail, s.avail.leave m.iter = some avail ∧
              s' = { s.mark m.iter node (clampMark (node.mark + markDelta)) with
                avail := avail
                unavail := s.unavail.join m.iter
                services := s.services.insert serviceId { m with list := .unavail } }) ∨
          (0 < clampMark (node.mark + markDelta) ∧ m.list = .unavail ∧
            ∃ unavail, s.unavail.leave m.iter = some unavail ∧
              s' = { s.mark m.iter node (clampMark (node.mark + markDelta)) with
                avail := s.avail.join m.iter
                unavail := unavail
                services := s.services.insert serviceId { m with list := .avail } }) ∨
          ((m.list = .avail ↔ 0 < clampMark (node.mark + markDelta)) ∧
            s' = s.mark m.iter node (clampMark (node.mark + markDelta)))) := by
  unfold updateMark at updated
  split at updated
  · next absent =>
      obtain ⟨-, rfl⟩ := Prod.mk.inj (Option.some.inj updated)
      exact Or.inl ⟨absent, rfl⟩
  · next m found =>
      obtain ⟨node, isNode, rest⟩ := Option.bind_eq_some_iff.mp updated
      refine Or.inr ⟨m, node, found, isNode, ?_⟩
      split at rest
      · next inInt =>
          refine ⟨inInt, ?_⟩
          dsimp only at rest
          split at rest
          · next down =>
              obtain ⟨avail, left, result⟩ := Option.map_eq_some_iff.mp rest
              obtain ⟨-, rfl⟩ := Prod.mk.inj result
              exact Or.inl ⟨down.1, down.2, avail, left, rfl⟩
          · split at rest
            · next up =>
                obtain ⟨unavail, left, result⟩ := Option.map_eq_some_iff.mp rest
                obtain ⟨-, rfl⟩ := Prod.mk.inj result
                exact Or.inr (Or.inl ⟨up.1, up.2, unavail, left, rfl⟩)
            · next notDown notUp =>
                obtain ⟨-, rfl⟩ := Prod.mk.inj (Option.some.inj rest)
                refine Or.inr (Or.inr ⟨⟨fun isAvail => ?_, fun positive => ?_⟩, rfl⟩)
                · exact Int.not_le.mp fun down => notDown ⟨down, isAvail⟩
                · cases side : m.list with
                  | avail => rfl
                  | unavail => exact absurd ⟨positive, side⟩ notUp
      · cases rest

theorem perm_moved {front back : List Ref} {r : Ref} (member : r ∈ front) :
    (front.erase r ++ (back ++ [r])).Perm (front ++ back) := by
  have toFront : (front.erase r ++ (back ++ [r])).Perm ((r :: front.erase r) ++ back) := by
    rw [← List.append_assoc]
    exact List.perm_append_comm
  exact toFront.trans ((List.perm_cons_erase member).symm.append_right back)

theorem updateMark_perm {serviceId markDelta code : Int}
    (updated : updateMark serviceId markDelta s = some (code, s')) :
    (s'.avail.items ++ s'.unavail.items).Perm (s.avail.items ++ s.unavail.items) := by
  obtain ⟨-, rfl⟩ | ⟨m, node, -, -, -, down | up | ⟨-, rfl⟩⟩ := updateMark_cases updated
  · exact List.Perm.refl _
  · obtain ⟨-, -, avail, left, rfl⟩ := down
    have out := leave_without left
    dsimp only
    rw [out.items, join_items]
    exact perm_moved out.member
  · obtain ⟨-, -, unavail, left, rfl⟩ := up
    have out := leave_without left
    dsimp only
    rw [out.items, join_items]
    exact List.perm_append_comm.trans ((perm_moved out.member).trans List.perm_append_comm)
  · exact List.Perm.refl _

theorem Linked.updateMark (linked : Linked s) {serviceId markDelta code : Int}
    (updated : updateMark serviceId markDelta s = some (code, s')) : Linked s' := by
  have perm := updateMark_perm updated
  obtain ⟨-, rfl⟩ | ⟨m, node, -, -, -, down | up | ⟨-, rfl⟩⟩ := updateMark_cases updated
  · exact linked
  · obtain ⟨-, -, avail, left, rfl⟩ := down
    have out := leave_without left
    refine linked.perm rfl perm ?_ ?_ (out.used linked.availUsed)
    · dsimp only
      rw [out.count, out.items, linked.availCount, length_erase_cast out.member]
    · dsimp only
      rw [join_count, join_items, linked.unavailCount, List.length_append, List.length_singleton,
        Nat.cast_add, Nat.cast_one]
  · obtain ⟨-, -, unavail, left, rfl⟩ := up
    have out := leave_without left
    refine linked.perm rfl perm ?_ ?_ ?_
    · dsimp only
      rw [join_count, join_items, linked.availCount, List.length_append, List.length_singleton,
        Nat.cast_add, Nat.cast_one]
    · dsimp only
      rw [out.count, out.items, linked.unavailCount, length_erase_cast out.member]
    · dsimp only
      rw [join_used]
      exact linked.availUsed
  · exact linked.perm rfl perm linked.availCount linked.unavailCount linked.availUsed

theorem Linked.updateMarks (linked : Linked s) {markDelta : Int} {ids : List Int}
    (updated : updateMarks markDelta ids s = some s') : Linked s' := by
  induction ids generalizing s with
  | nil => exact Option.some.inj updated ▸ linked
  | cons id ids ih =>
      obtain ⟨⟨code, mid⟩, first, rest⟩ := Option.bind_eq_some_iff.mp updated
      exact ih (linked.updateMark first) rest

theorem Linked.step {t t' : Tracked α} {call : Call α} (linked : Linked t.selector)
    (taken : step t call = some t') : Linked t'.selector := by
  cases call with
  | addItem userData weight =>
      obtain ⟨⟨id, s⟩, added, rfl⟩ := Option.map_eq_some_iff.mp taken
      exact linked.addItem added
  | removeItem serviceId =>
      obtain ⟨⟨code, s⟩, removed, rfl⟩ := Option.map_eq_some_iff.mp taken
      exact linked.removeItem removed
  | select =>
      obtain ⟨⟨selected, s⟩, ran, rfl⟩ := Option.map_eq_some_iff.mp taken
      exact linked.select ran
  | updateMark serviceId markDelta =>
      obtain ⟨⟨code, s⟩, updated, rfl⟩ := Option.map_eq_some_iff.mp taken
      exact linked.updateMark updated
  | updateAllMark rank markDelta =>
      obtain ⟨s, updated, rfl⟩ := Option.map_eq_some_iff.mp taken
      exact linked.updateMarks updated

theorem linked_exec {t t' : Tracked α} {calls : List (Call α)} (linked : Linked t.selector)
    (ran : exec step t calls = some t') : Linked t'.selector := by
  have any : Meets step (fun _ _ => True) t calls := meets_of_forall fun _ _ => trivial
  exact exec_invariant (fun _ _ _ before _ taken => Linked.step before taken) linked any ran

end Linked

/-! ## What holds while no service is removed -/

section Stable

variable {α : Type} {t t' : Tracked α}

/-- An entry of the map says where its node is. -/
structure Entered (s : Selector α) (id : Int) (m : MapNode) : Prop where
  iter : m.iter = id
  availMember : m.list = .avail ↔ id ∈ s.avail.items
  unavailMember : m.list = .unavail ↔ id ∈ s.unavail.items
  marked : ∃ node, s.nodes id = some node ∧ -100 ≤ node.mark ∧ node.mark ≤ 100 ∧
    (m.list = .avail ↔ 0 < node.mark)

/-- The invariant. -/
structure Stable (t : Tracked α) : Prop where
  linked : Linked t.selector
  ids : ∀ id, id ∈ t.selector.services ↔ id ∈ t.live
  entered : ∀ id m, t.selector.services.lookup id = some m → Entered t.selector id m
  others : ∀ r ∈ t.selector.avail.items ++ t.selector.unavail.items, r ∈ t.selector.services
  known : ∀ id ∈ t.selector.services, id ≤ t.selector.nextId
  started : 0 ≤ t.selector.nextId
  liveNodup : t.live.Nodup
  availPlaced : t.selector.avail.Placed
  unavailPlaced : t.selector.unavail.Placed

theorem stable_initial : Stable ({} : Tracked α) := by
  refine ⟨linked_initial, fun id => ?_, fun id m found => ?_, fun r member => ?_, fun id member => ?_,
    Int.le_refl _, List.nodup_nil, Or.inl ⟨rfl, rfl⟩, Or.inl ⟨rfl, rfl⟩⟩
  · exact ⟨fun member => absurd member (AList.notMem_empty id),
      fun member => absurd member List.not_mem_nil⟩
  · exact nomatch found
  · exact absurd member List.not_mem_nil
  · exact absurd member (AList.notMem_empty id)

/-- A half with its cursor in place returns one of its services. -/
theorem select_placed {nodes : Ref → Option (SelectNode α)} {h : Half} (nodup : h.items.Nodup)
    (placed : h.Placed) (some' : h.items ≠ [])
    (allNodes : ∀ r ∈ h.items, ∃ node, nodes r = some node) :
    ∃ r h', h.select nodes = some (r, h') ∧ r ∈ h.items ∧ h'.Placed := by
  rcases placed with ⟨-, empty⟩ | ⟨r, member, isIter⟩
  · exact absurd empty some'
  · obtain ⟨node, isNode⟩ := allNodes r member
    obtain ⟨iter, isAfter, inside⟩ := after_spec nodup member
    unfold Half.select
    rw [isIter, Option.bind_some, if_pos member, isNode, Option.bind_some]
    by_cases again : h.used < node.weight
    · rw [if_pos again]
      exact ⟨r, _, rfl, member, Or.inr ⟨r, member, rfl⟩⟩
    · rw [if_neg again, Half.next, isIter, Option.bind_some, isAfter, Option.map_some,
        Option.bind_some]
      dsimp only
      have placed' : (Half.rewind { h with iter := iter, used := 0 }).Placed :=
        placed_rewind fun x isSome => List.mem_of_mem_erase (inside x isSome)
      rcases placed' with ⟨-, empty⟩ | ⟨x, member', isIter'⟩
      · exact absurd ((rewind_items _).symm.trans empty) some'
      · rw [isIter']
        refine ⟨x, _, rfl, ?_, Or.inr ⟨x, member', isIter'⟩⟩
        rwa [rewind_items] at member'

theorem Stable.nodes (stable : Stable t) {r : Ref}
    (member : r ∈ t.selector.avail.items ++ t.selector.unavail.items) :
    ∃ node, t.selector.nodes r = some node := by
  obtain ⟨m, found⟩ := Option.isSome_iff_exists.mp
    (AList.lookup_isSome.mpr (stable.others r member))
  obtain ⟨node, isNode, -⟩ := (stable.entered r m found).marked
  exact ⟨node, isNode⟩

theorem Stable.select_avail (stable : Stable t) (some' : t.selector.avail.items ≠ []) :
    ∃ r avail, select t.selector = some (some r, { t.selector with avail := avail }) ∧
      r ∈ t.selector.avail.items ∧ avail.Placed ∧ avail.items = t.selector.avail.items := by
  obtain ⟨r, avail, picked, member, placed⟩ :=
    select_placed (List.nodup_append.mp stable.linked.nodup).1 stable.availPlaced some'
      fun r member => stable.nodes (List.mem_append_left _ member)
  have positive : 0 < t.selector.avail.count := by
    have nonempty := List.length_pos_of_ne_nil some'
    rw [stable.linked.availCount]
    omega
  refine ⟨r, avail, ?_, member, placed, (select_items picked).1⟩
  unfold select
  rw [if_pos positive, picked]
  rfl

theorem Stable.represents (stable : Stable t) : Represents t := by
  refine ⟨stable.ids, fun id m found => ?_, fun r member => ?_,
    ⟨stable.linked.availCount, stable.linked.unavailCount⟩,
    ⟨stable.availPlaced, stable.unavailPlaced⟩, fun some' => ?_⟩
  · obtain ⟨rfl, availMember, unavailMember, node, isNode, least, most, positive⟩ :=
      stable.entered id m found
    refine ⟨node, isNode, least, most, List.count_eq_one_of_mem stable.linked.nodup ?_,
      availMember.symm.trans positive⟩
    cases side : m.list with
    | avail => exact List.mem_append_left _ (availMember.mp side)
    | unavail => exact List.mem_append_right _ (unavailMember.mp side)
  · obtain ⟨m, found⟩ := Option.isSome_iff_exists.mp
      (AList.lookup_isSome.mpr (stable.others r member))
    exact ⟨r, m, found, (stable.entered r m found).iter⟩
  · obtain ⟨r, avail, ran, member, -⟩ := stable.select_avail some'
    exact ⟨r, _, ran, member⟩

theorem Entered.congr {s s' : Selector α} {id : Int} {m : MapNode} (entered : Entered s id m)
    (availSame : id ∈ s'.avail.items ↔ id ∈ s.avail.items)
    (unavailSame : id ∈ s'.unavail.items ↔ id ∈ s.unavail.items)
    (nodeSame : s'.nodes id = s.nodes id) : Entered s' id m :=
  ⟨entered.iter, entered.availMember.trans availSame.symm,
    entered.unavailMember.trans unavailSame.symm, nodeSame ▸ entered.marked⟩

theorem Stable.addItem (stable : Stable t) (userData : α) (weight : Int)
    (room : t.selector.nextId < 2 ^ 31 - 1) :
    ∃ t', step t (.addItem userData weight) = some t' ∧ Stable t' := by
  have inInt : InInt (t.selector.nextId + 1) := by
    have started := stable.started
    exact ⟨by omega, by omega⟩
  have fresh : t.selector.nextId + 1 ∉ t.selector.services := fun member => by
    have known := stable.known _ member
    omega
  obtain ⟨s, added⟩ : ∃ s, RandomSelector.addItem userData weight t.selector =
      some (t.selector.nextId + 1, s) := ⟨_, if_pos inInt⟩
  have linked := stable.linked.addItem added
  have isState := (if_pos inInt).symm.trans added
  obtain rfl := (Prod.mk.inj (Option.some.inj isState)).2
  refine ⟨⟨_, t.live ++ [t.selector.nextId + 1]⟩, Option.map_eq_some_iff.mpr ⟨_, added, rfl⟩,
    linked, fun id => ?_, fun id m found => ?_, fun r member => ?_, fun id member => ?_, ?_, ?_, ?_,
    ?_⟩
  · rw [AList.mem_insert, stable.ids, List.mem_append, List.mem_singleton, or_comm]
  · by_cases new : id = t.selector.nextId + 1
    · subst new
      rw [AList.lookup_insert] at found
      obtain rfl := Option.some.inj found
      refine ⟨rfl, iff_of_true rfl ?_, iff_of_false (fun wrong => nomatch wrong) fun member => ?_,
        { weight := weight, data := userData }, Function.update_self ..,
        (by decide : (-100 : Int) ≤ 100), Int.le_refl _,
        iff_of_true rfl (by decide : (0 : Int) < 100)⟩
      · dsimp only
        rw [rewind_items]
        exact List.mem_cons_self ..
      · dsimp only at member
        rw [rewind_items] at member
        exact fresh (stable.others _ (List.mem_append_right _ member))
    · rw [AList.lookup_insert_ne new] at found
      refine (stable.entered id m found).congr ?_ ?_ (Function.update_of_ne new ..)
      · dsimp only
        rw [rewind_items, List.mem_cons, or_iff_right new]
      · dsimp only
        rw [rewind_items]
  · rw [AList.mem_insert]
    dsimp only at member
    rw [rewind_items, rewind_items, List.cons_append] at member
    exact (List.mem_cons.mp member).imp id (stable.others r)
  · rcases (AList.mem_insert _).mp member with rfl | before
    · exact Int.le_refl _
    · exact Int.le_add_one (stable.known id before)
  · exact Int.le_add_one stable.started
  · refine List.nodup_append.mpr ⟨stable.liveNodup, List.nodup_singleton _, ?_⟩
    intro id before new isNew same
    rw [List.mem_singleton] at isNew
    exact fresh ((stable.ids _).mpr (isNew ▸ same ▸ before))
  · refine placed_rewind fun r isIter => ?_
    exact List.mem_cons_of_mem _ (stable.availPlaced.inside r isIter)
  · exact placed_rewind stable.unavailPlaced.inside

theorem removeItem_absent {s : Selector α} {serviceId : Int} (absent : serviceId ∉ s.services) :
    removeItem serviceId s = some (1, s) := by
  unfold removeItem
  rw [AList.lookup_eq_none.mpr absent]

/-- The map is not changed by a removal. -/
theorem removeItem_services {s s' : Selector α} {serviceId code : Int}
    (removed : removeItem serviceId s = some (code, s')) : s'.services = s.services := by
  unfold removeItem at removed
  split at removed
  · rw [(Prod.mk.inj (Option.some.inj removed)).2]
  · next m found =>
      obtain ⟨mid, skipped, erased⟩ := Option.bind_eq_some_iff.mp removed
      have same : mid.services = s.services := by
        split at skipped
        · obtain ⟨h, -, rfl⟩ := Option.map_eq_some_iff.mp skipped
          rfl
        · split at skipped
          · obtain ⟨h, -, rfl⟩ := Option.map_eq_some_iff.mp skipped
            rfl
          · rw [Option.some.inj skipped]
      cases side : m.list with
      | avail =>
          rw [side] at erased
          obtain ⟨h, -, result⟩ := Option.map_eq_some_iff.mp erased
          obtain ⟨-, rfl⟩ := Prod.mk.inj result
          exact same
      | unavail =>
          rw [side] at erased
          obtain ⟨h, -, result⟩ := Option.map_eq_some_iff.mp erased
          obtain ⟨-, rfl⟩ := Prod.mk.inj result
          exact same

theorem Stable.removeItem_absent (stable : Stable t) {serviceId : Int}
    (absent : serviceId ∉ t.selector.services) :
    step t (.removeItem serviceId) = some t := by
  have notLive : serviceId ∉ t.live := fun member => absent ((stable.ids _).mpr member)
  refine Option.map_eq_some_iff.mpr ⟨_, RandomSelector.removeItem_absent absent, ?_⟩
  dsimp only
  rw [List.erase_of_not_mem notLive]

/-- A service that is removed stays in the map. -/
theorem Stable.not_keeps_removeItem (stable : Stable t) {serviceId : Int}
    (present : serviceId ∈ t.selector.services) : ¬ Keeps t (.removeItem serviceId) := by
  rintro ⟨t', taken, represents⟩
  obtain ⟨⟨code, s⟩, removed, rfl⟩ := Option.map_eq_some_iff.mp taken
  have still := (represents.ids serviceId).mp (by rwa [removeItem_services removed])
  exact absurd still stable.liveNodup.not_mem_erase

/-- Both lists keep their services. -/
theorem Stable.same_items (stable : Stable t) {avail unavail : Half}
    (linked : Linked { t.selector with avail := avail, unavail := unavail })
    (availItems : avail.items = t.selector.avail.items)
    (unavailItems : unavail.items = t.selector.unavail.items)
    (availPlaced : avail.Placed) (unavailPlaced : unavail.Placed) :
    Stable ⟨{ t.selector with avail := avail, unavail := unavail }, t.live⟩ := by
  refine ⟨linked, stable.ids, fun id m found => ?_, fun r member => ?_, stable.known,
    stable.started, stable.liveNodup, availPlaced, unavailPlaced⟩
  · exact (stable.entered id m found).congr (by rw [availItems]) (by rw [unavailItems]) rfl
  · dsimp only at member
    rw [availItems, unavailItems] at member
    exact stable.others r member

theorem Stable.select (stable : Stable t) : ∃ t', step t .select = some t' ∧ Stable t' := by
  by_cases some' : t.selector.avail.items = []
  · have noneAvail : ¬ 0 < t.selector.avail.count := by
      rw [stable.linked.availCount, some', List.length_nil]
      omega
    by_cases some'' : t.selector.unavail.items = []
    · have noneUnavail : ¬ 0 < t.selector.unavail.count := by
        rw [stable.linked.unavailCount, some'', List.length_nil]
        omega
      have ran : RandomSelector.select t.selector = some (none, t.selector) := by
        unfold RandomSelector.select
        rw [if_neg noneAvail, if_neg noneUnavail]
      exact ⟨t, Option.map_eq_some_iff.mpr ⟨_, ran, rfl⟩, stable⟩
    · obtain ⟨r, unavail, picked, -, placed⟩ :=
        select_placed (List.nodup_append.mp stable.linked.nodup).2.1 stable.unavailPlaced some''
          fun r member => stable.nodes (List.mem_append_right _ member)
      have positive : 0 < t.selector.unavail.count := by
        have nonempty := List.length_pos_of_ne_nil some''
        rw [stable.linked.unavailCount]
        omega
      have ran : RandomSelector.select t.selector =
          some (some r, { t.selector with unavail := unavail }) := by
        unfold RandomSelector.select
        rw [if_neg noneAvail, if_pos positive, picked]
        rfl
      exact ⟨⟨{ t.selector with unavail := unavail }, t.live⟩,
        Option.map_eq_some_iff.mpr ⟨_, ran, rfl⟩,
        stable.same_items (stable.linked.select ran) rfl (select_items picked).1
          stable.availPlaced placed⟩
  · obtain ⟨r, avail, ran, -, placed, items⟩ := stable.select_avail some'
    exact ⟨⟨{ t.selector with avail := avail }, t.live⟩,
      Option.map_eq_some_iff.mpr ⟨_, ran, rfl⟩,
      stable.same_items (stable.linked.select ran) items rfl placed stable.unavailPlaced⟩

theorem clampMark_bounds (mark : Int) : -100 ≤ clampMark mark ∧ clampMark mark ≤ 100 := by
  unfold clampMark
  dsimp only
  split <;> split <;> omega

theorem Stable.deref (stable : Stable t) {id : Int} {m : MapNode}
    (found : t.selector.services.lookup id = some m) :
    ∃ node, t.selector.nodes id = some node ∧ t.selector.deref m.iter = some node := by
  obtain ⟨rfl, availMember, unavailMember, node, isNode, -⟩ := stable.entered id m found
  refine ⟨node, isNode, ?_⟩
  unfold Selector.deref
  cases side : m.list with
  | avail => rw [if_pos (Or.inl (availMember.mp side)), isNode]
  | unavail => rw [if_pos (Or.inr (unavailMember.mp side)), isNode]

/-- The mark of a service can be updated exactly when the sum is an `int`. -/
theorem Stable.updateMark_iff (stable : Stable t) (id markDelta : Int) :
    (∃ result, updateMark id markDelta t.selector = some result) ↔
      Addable t.selector id markDelta := by
  constructor
  · rintro ⟨⟨code, s'⟩, updated⟩ m node found isNode
    obtain ⟨absent, -⟩ | ⟨m', node', found', isNode', inInt, -⟩ := updateMark_cases updated
    · exact nomatch absent.symm.trans found
    · obtain rfl := Option.some.inj (found.symm.trans found')
      obtain ⟨node₁, isNode₁, isDeref⟩ := stable.deref found
      rw [(stable.entered id m found).iter] at isNode
      obtain rfl := Option.some.inj (isNode.symm.trans isNode₁)
      obtain rfl := Option.some.inj (isNode'.symm.trans isDeref)
      exact inInt
  · intro addable
    unfold updateMark
    cases found : t.selector.services.lookup id with
    | none => exact ⟨_, rfl⟩
    | some m =>
        obtain ⟨node, isNode, isDeref⟩ := stable.deref found
        have entered := stable.entered id m found
        have inInt := addable m node found (entered.iter.symm ▸ isNode)
        dsimp only
        rw [isDeref, Option.bind_some, if_pos inInt]
        split
        · next down =>
            obtain ⟨h, left, -⟩ := leave_placed (r := m.iter)
              (List.nodup_append.mp stable.linked.nodup).1
              (entered.iter ▸ entered.availMember.mp down.2) stable.availPlaced
            rw [left]
            exact ⟨_, rfl⟩
        · split
          · next up =>
              obtain ⟨h, left, -⟩ := leave_placed (r := m.iter)
                (List.nodup_append.mp stable.linked.nodup).2.1
                (entered.iter ▸ entered.unavailMember.mp up.2) stable.unavailPlaced
              rw [left]
              exact ⟨_, rfl⟩
          · exact ⟨_, rfl⟩

/-- The service whose mark is updated is entered where it is now; the others are where they were. -/
structure Remarked (s s' : Selector α) (id : Int) : Prop where
  nextId : s'.nextId = s.nextId
  services : ∀ other, other ∈ s'.services ↔ other ∈ s.services
  others : ∀ other ≠ id, s'.services.lookup other = s.services.lookup other ∧
    s'.nodes other = s.nodes other ∧ (other ∈ s'.avail.items ↔ other ∈ s.avail.items) ∧
    (other ∈ s'.unavail.items ↔ other ∈ s.unavail.items)
  entered : ∀ m, s'.services.lookup id = some m → Entered s' id m
  availPlaced : s'.avail.Placed
  unavailPlaced : s'.unavail.Placed

theorem mem_insert_same {services : AList fun _ : Int => MapNode} {id : Int} {m m' : MapNode}
    (found : services.lookup id = some m) (other : Int) :
    other ∈ services.insert id m' ↔ other ∈ services := by
  rw [AList.mem_insert, or_iff_right_of_imp]
  rintro rfl
  exact AList.lookup_isSome.mp (Option.isSome_iff_exists.mpr ⟨m, found⟩)

theorem mem_leave_other {h h' : Half} {r other : Ref} (out : Without h r h') (isOther : other ≠ r) :
    other ∈ h'.items ↔ other ∈ h.items := by
  rw [out.items, List.mem_erase_of_ne isOther]

theorem mem_join_other {h : Half} {r other : Ref} (isOther : other ≠ r) :
    other ∈ (h.join r).items ↔ other ∈ h.items := by
  rw [join_items, List.mem_append, List.mem_singleton, or_iff_left isOther]

theorem Stable.remarked (stable : Stable t) {s' : Selector α} {id markDelta code : Int}
    (updated : updateMark id markDelta t.selector = some (code, s')) :
    Remarked t.selector s' id := by
  obtain ⟨absent, rfl⟩ | ⟨m, node, found, -, -, down | up | stay⟩ := updateMark_cases updated
  · exact ⟨rfl, fun _ => Iff.rfl, fun _ _ => ⟨rfl, rfl, Iff.rfl, Iff.rfl⟩, stable.entered id,
      stable.availPlaced, stable.unavailPlaced⟩
  · obtain ⟨low, side, avail, left, rfl⟩ := down
    have entered := stable.entered id m found
    obtain ⟨rfl, -⟩ := entered
    have out := leave_without left
    have availNodup := (List.nodup_append.mp stable.linked.nodup).1
    obtain ⟨avail', left', placed⟩ := leave_placed availNodup out.member stable.availPlaced
    obtain rfl := Option.some.inj (left.symm.trans left')
    refine ⟨rfl, mem_insert_same found, fun other isOther => ⟨AList.lookup_insert_ne isOther,
      Function.update_of_ne isOther .., mem_leave_other out isOther, mem_join_other isOther⟩,
      fun m' found' => ?_, placed, join_placed stable.unavailPlaced⟩
    rw [AList.lookup_insert] at found'
    obtain rfl := Option.some.inj found'
    have bounds := clampMark_bounds (node.mark + markDelta)
    refine ⟨rfl, iff_of_false (fun wrong => nomatch wrong) fun member => ?_,
      iff_of_true rfl ?_, _, Function.update_self .., bounds.1, bounds.2,
      iff_of_false (fun wrong => nomatch wrong) (Int.not_lt.mpr low)⟩
    · dsimp only at member
      rw [out.items] at member
      exact availNodup.not_mem_erase member
    · dsimp only
      rw [join_items]
      exact List.mem_append_right _ (List.mem_singleton.mpr rfl)
  · obtain ⟨high, side, unavail, left, rfl⟩ := up
    have entered := stable.entered id m found
    obtain ⟨rfl, -⟩ := entered
    have out := leave_without left
    have unavailNodup := (List.nodup_append.mp stable.linked.nodup).2.1
    obtain ⟨unavail', left', placed⟩ := leave_placed unavailNodup out.member stable.unavailPlaced
    obtain rfl := Option.some.inj (left.symm.trans left')
    refine ⟨rfl, mem_insert_same found, fun other isOther => ⟨AList.lookup_insert_ne isOther,
      Function.update_of_ne isOther .., mem_join_other isOther, mem_leave_other out isOther⟩,
      fun m' found' => ?_, join_placed stable.availPlaced, placed⟩
    rw [AList.lookup_insert] at found'
    obtain rfl := Option.some.inj found'
    have bounds := clampMark_bounds (node.mark + markDelta)
    refine ⟨rfl, iff_of_true rfl ?_, iff_of_false (fun wrong => nomatch wrong) fun member => ?_,
      _, Function.update_self .., bounds.1, bounds.2, iff_of_true rfl high⟩
    · dsimp only
      rw [join_items]
      exact List.mem_append_right _ (List.mem_singleton.mpr rfl)
    · dsimp only at member
      rw [out.items] at member
      exact unavailNodup.not_mem_erase member
  · obtain ⟨right, rfl⟩ := stay
    have entered := stable.entered id m found
    obtain ⟨rfl, availMember, unavailMember, -⟩ := entered
    refine ⟨rfl, fun _ => Iff.rfl, fun other isOther => ⟨rfl, Function.update_of_ne isOther ..,
      Iff.rfl, Iff.rfl⟩, fun m' found' => ?_, stable.availPlaced, stable.unavailPlaced⟩
    obtain rfl := Option.some.inj (found.symm.trans found')
    have bounds := clampMark_bounds (node.mark + markDelta)
    exact ⟨rfl, availMember, unavailMember, _, Function.update_self .., bounds.1, bounds.2, right⟩

theorem Stable.updateMark (stable : Stable t) {s' : Selector α} {id markDelta code : Int}
    (updated : updateMark id markDelta t.selector = some (code, s')) : Stable ⟨s', t.live⟩ := by
  have remarked := stable.remarked updated
  refine ⟨stable.linked.updateMark updated, fun other => ?_, fun other m found => ?_,
    fun r member => ?_, fun other member => ?_, ?_, stable.liveNodup, remarked.availPlaced,
    remarked.unavailPlaced⟩
  · exact (remarked.services other).trans (stable.ids other)
  · by_cases same : other = id
    · subst same
      exact remarked.entered m found
    · obtain ⟨lookup, node, availSame, unavailSame⟩ := remarked.others other same
      exact (stable.entered other m (lookup ▸ found)).congr availSame unavailSame node
  · exact (remarked.services r).mpr (stable.others r ((updateMark_perm updated).subset member))
  · rw [remarked.nextId]
    exact stable.known other ((remarked.services other).mp member)
  · rw [remarked.nextId]
    exact stable.started

/-- Updating one mark does not change whether another one can be updated. -/
theorem Stable.addable_other (stable : Stable t) {s' : Selector α} {id other markDelta code : Int}
    (updated : RandomSelector.updateMark id markDelta t.selector = some (code, s'))
    (isOther : other ≠ id) : Addable s' other markDelta ↔ Addable t.selector other markDelta := by
  obtain ⟨lookup, node, -⟩ := (stable.remarked updated).others other isOther
  unfold Addable
  rw [lookup]
  refine forall₂_congr fun m node' => ⟨fun addable found isNode => ?_, fun addable found isNode => ?_⟩
  · rw [(stable.entered other m found).iter] at isNode addable
    exact addable found (node ▸ isNode)
  · rw [(stable.entered other m found).iter] at isNode addable
    exact addable found (node ▸ isNode)

/-- All marks of a list of services can be updated exactly when each can be. -/
theorem Stable.updateMarks_iff (stable : Stable t) {ids : List Int} (nodup : ids.Nodup)
    (markDelta : Int) :
    ((∃ s', updateMarks markDelta ids t.selector = some s') ↔
      ∀ id ∈ ids, Addable t.selector id markDelta) ∧
      ∀ s', updateMarks markDelta ids t.selector = some s' → Stable ⟨s', t.live⟩ := by
  induction ids generalizing t with
  | nil =>
      refine ⟨iff_of_true ⟨_, rfl⟩ fun _ member => absurd member List.not_mem_nil, fun s' ran => ?_⟩
      obtain rfl := Option.some.inj ran
      exact stable
  | cons id ids ih =>
      obtain ⟨fresh, nodup⟩ := List.nodup_cons.mp nodup
      have first := stable.updateMark_iff id markDelta
      rw [updateMarks]
      cases updated : RandomSelector.updateMark id markDelta t.selector with
      | none =>
          refine ⟨iff_of_false (fun ⟨_, wrong⟩ => nomatch wrong) fun all => ?_,
            fun s' wrong => nomatch wrong⟩
          obtain ⟨result, wrong⟩ := first.mpr (all id (List.mem_cons_self ..))
          exact nomatch updated.symm.trans wrong
      | some result =>
          obtain ⟨code, mid⟩ := result
          obtain ⟨rest, stays⟩ := ih (stable.updateMark updated) nodup
          refine ⟨?_, stays⟩
          rw [Option.bind_some, rest, List.forall_mem_cons,
            and_iff_right (first.mp ⟨_, updated⟩)]
          refine forall₂_congr fun other member => ?_
          exact stable.addable_other updated fun same => fresh (same ▸ member)

theorem Stable.updateAllMark_iff (stable : Stable t) (rank : Int → Nat) (markDelta : Int) :
    (∃ s', updateAllMark rank markDelta t.selector = some s') ↔
      ∀ id, Addable t.selector id markDelta := by
  have sorted := List.mergeSort_perm t.selector.services.keys fun a b => rank a ≤ rank b
  have nodup := sorted.nodup_iff.mpr t.selector.services.keys_nodup
  refine (stable.updateMarks_iff nodup markDelta).1.trans
    ⟨fun all id m node found isNode => ?_, fun all id _ => all id⟩
  have member : id ∈ t.selector.services.keys :=
    AList.lookup_isSome.mp (Option.isSome_iff_exists.mpr ⟨m, found⟩)
  exact all id (sorted.mem_iff.mpr member) m node found isNode

theorem Stable.updateAllMark (stable : Stable t) {s' : Selector α} {rank : Int → Nat}
    {markDelta : Int} (updated : updateAllMark rank markDelta t.selector = some s') :
    Stable ⟨s', t.live⟩ := by
  have sorted := List.mergeSort_perm t.selector.services.keys fun a b => rank a ≤ rank b
  have nodup := sorted.nodup_iff.mpr t.selector.services.keys_nodup
  exact (stable.updateMarks_iff nodup markDelta).2 s' updated

/-- A call that is allowed keeps the invariant. -/
theorem Stable.step_unremoved (stable : Stable t) {call : Call α} (unremoved : Unremoved t call) :
    ∃ t', step t call = some t' ∧ Stable t' := by
  cases call with
  | addItem userData weight => exact stable.addItem userData weight unremoved
  | removeItem serviceId => exact ⟨t, stable.removeItem_absent unremoved, stable⟩
  | select => exact stable.select
  | updateMark serviceId markDelta =>
      obtain ⟨⟨code, s'⟩, updated⟩ := (stable.updateMark_iff serviceId markDelta).mpr unremoved
      exact ⟨_, Option.map_eq_some_iff.mpr ⟨_, updated, rfl⟩, stable.updateMark updated⟩
  | updateAllMark rank markDelta =>
      obtain ⟨s', updated⟩ := (stable.updateAllMark_iff rank markDelta).mpr unremoved
      exact ⟨_, Option.map_eq_some_iff.mpr ⟨_, updated, rfl⟩, stable.updateAllMark updated⟩

/-- A call that keeps the representation is allowed. -/
theorem Stable.unremoved_of_keeps (stable : Stable t) {call : Call α} (keeps : Keeps t call) :
    Unremoved t call := by
  cases call with
  | addItem userData weight =>
      obtain ⟨t', taken, -⟩ := keeps
      obtain ⟨result, added, -⟩ := Option.map_eq_some_iff.mp taken
      by_contra full
      have outside : ¬ InInt (t.selector.nextId + 1) := fun inInt => full (by
        have bound := inInt.2
        show t.selector.nextId < 2 ^ 31 - 1
        omega)
      exact nomatch (if_neg outside).symm.trans added
  | removeItem serviceId => exact fun present => stable.not_keeps_removeItem present keeps
  | select => exact trivial
  | updateMark serviceId markDelta =>
      obtain ⟨t', taken, -⟩ := keeps
      obtain ⟨result, updated, -⟩ := Option.map_eq_some_iff.mp taken
      exact (stable.updateMark_iff serviceId markDelta).mp ⟨result, updated⟩
  | updateAllMark rank markDelta =>
      obtain ⟨t', taken, -⟩ := keeps
      obtain ⟨s', updated, -⟩ := Option.map_eq_some_iff.mp taken
      exact (stable.updateAllMark_iff rank markDelta).mp ⟨s', updated⟩

/-- The calls of a run all keep the representation exactly when all of them are allowed. -/
theorem keeps_iff_unremoved (calls : List (Call α)) :
    Meets step Keeps ({} : Tracked α) calls ↔ Meets step Unremoved {} calls := by
  refine meets_congr (fun t call stable => ⟨stable.unremoved_of_keeps, fun unremoved => ?_⟩)
    (fun t call t' stable keeps taken => ?_) stable_initial
  · obtain ⟨t', taken, stable'⟩ := stable.step_unremoved unremoved
    exact ⟨t', taken, stable'.represents⟩
  · obtain ⟨t'', taken', stable''⟩ := stable.step_unremoved (stable.unremoved_of_keeps keeps)
    exact Option.some.inj (taken'.symm.trans taken) ▸ stable''

end Stable

/-- A removed service stays in the map. -/
theorem not_keeps_removed :
    ¬ Meets step Keeps ({} : Tracked Unit) [.addItem () 1, .removeItem 1] := by
  rintro ⟨-, later⟩
  obtain ⟨⟨t', taken, represents⟩, -⟩ := later _ rfl
  obtain rfl := Option.some.inj taken
  exact absurd ((represents.ids 1).mp (by decide)) (by decide)

end MlsImgSearch.Blitz.RandomSelector
