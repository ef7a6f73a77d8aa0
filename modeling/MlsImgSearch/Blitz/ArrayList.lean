import Mathlib.Data.List.Nodup
import MlsImgSearch.Lib.LinkedTable
import MlsImgSearch.Lib.Run

/-!
# A list in an array

`ArrayList` keeps a doubly linked list in an array of `max_count_ + 1` items.
Item `0` is the head of the list of free items; a free item has `-1` in `prev`.
The links of the first and the last used item are kept outside the array.
-/

namespace MlsImgSearch.Blitz

open MlsImgSearch.Lib.LinkedTable MlsImgSearch.Lib.Run

structure ArrayList.Item (T : Type) where
  data : T
  prev : Int
  next : Nat

/-- The array, `list_head_` and the two counters. -/
structure ArrayList (T : Type) where
  array : Nat → ArrayList.Item T
  headPrev : Nat
  headNext : Nat
  count : Int
  maxCount : Nat

namespace ArrayList

section Operations

variable {T : Type}

/-- Item `p` is changed. -/
def modify (p : Nat) (change : Item T → Item T) (l : ArrayList T) : ArrayList T :=
  { l with array := fun q => if q = p then change (l.array q) else l.array q }

def setNext (p next : Nat) : ArrayList T → ArrayList T :=
  modify p fun item => { item with next := next }

def setPrev (p : Nat) (prev : Int) : ArrayList T → ArrayList T :=
  modify p fun item => { item with prev := prev }

def setData (p : Nat) (data : T) : ArrayList T → ArrayList T :=
  modify p fun item => { item with data := data }

/-- The loop puts every item into the free list. -/
def clearLoop (n : Nat) (l : ArrayList T) : ArrayList T :=
  (List.range n).foldl (fun l i => (l.setPrev i (-1)).setNext i (i + 1)) l

def clear (l : ArrayList T) : ArrayList T :=
  (clearLoop (l.maxCount + 1) { l with count := 0, headNext := 0, headPrev := 0 }).setNext
    l.maxCount 0

/-- A list of `count` items; `raw` is what the new array happens to hold. -/
def init (count : Nat) (raw : Nat → Item T) : ArrayList T :=
  clear { array := raw, headPrev := 0, headNext := 0, count := 0, maxCount := count }

/-- Position `0` means that no item is free. -/
def allocFromFreeList (l : ArrayList T) : Nat × ArrayList T :=
  let pos := (l.array 0).next
  if pos = 0 then (0, l)
  else
    let l := l.setNext 0 (l.array pos).next
    (pos, { l with count := l.count + 1 })

def returnToFreeList (pos : Nat) (l : ArrayList T) : ArrayList T :=
  let l := l.setPrev pos (-1)
  let l := l.setNext pos (l.array 0).next
  let l := l.setNext 0 pos
  { l with count := l.count - 1 }

/-- `none` is a failed assertion. -/
def isFree (pos : Nat) (l : ArrayList T) : Option Bool :=
  if pos ≤ l.maxCount then some ((l.array pos).prev = -1) else none

def pushBack (data : T) (l : ArrayList T) : Nat × ArrayList T :=
  let (pos, l) := allocFromFreeList l
  if pos = 0 then (0, l)
  else
    let l := l.setNext pos 0
    let l := l.setPrev pos l.headPrev
    let l := l.setData pos data
    let l := if l.headPrev ≠ 0 then l.setNext l.headPrev pos else { l with headNext := pos }
    (pos, { l with headPrev := pos })

def pushFront (data : T) (l : ArrayList T) : Nat × ArrayList T :=
  let (pos, l) := allocFromFreeList l
  if pos = 0 then (0, l)
  else
    let l := l.setNext pos l.headNext
    let l := l.setPrev pos 0
    let l := l.setData pos data
    let l := if l.headNext ≠ 0 then l.setPrev l.headNext pos else { l with headPrev := pos }
    (pos, { l with headNext := pos })

/-- Behind a used item. -/
def insertBehind (pos : Nat) (data : T) (l : ArrayList T) : Nat × ArrayList T :=
  let (newPos, l) := allocFromFreeList l
  if newPos = 0 then (0, l)
  else
    let l := l.setNext newPos (l.array pos).next
    let l := l.setPrev newPos pos
    let l := l.setData newPos data
    let next := (l.array pos).next
    let l := if next ≠ 0 then l.setPrev next newPos else { l with headPrev := newPos }
    (newPos, l.setNext pos newPos)

def insertAfter (pos : Nat) (data : T) (l : ArrayList T) : Option (Int × ArrayList T) :=
  if pos = 0 then
    let (newPos, l) := pushFront data l
    some (newPos, l)
  else
    (isFree pos l).map fun free =>
      if free then (-2, l)
      else
        let (newPos, l) := insertBehind pos data l
        (newPos, l)

/-- The links of a used item are taken out of the list and the item becomes free. -/
def unlink (pos prev : Nat) (l : ArrayList T) : ArrayList T :=
  let next := (l.array pos).next
  let l := if prev = 0 then { l with headNext := next } else l.setNext prev next
  let l := if next = 0 then { l with headPrev := prev } else l.setPrev next prev
  returnToFreeList pos l

/-- There is no check that the item is used: with `-1` in `prev`, or with a position behind the
array, an item outside the array is written, which is `none`. -/
def remove (pos : Nat) (l : ArrayList T) : Option (ArrayList T) :=
  if pos = 0 then some l
  else if l.maxCount < pos then none
  else
    match (l.array pos).prev with
    | .ofNat prev => some (unlink pos prev l)
    | .negSucc _ => none

def first (l : ArrayList T) : Nat := l.headNext

def last (l : ArrayList T) : Nat := l.headPrev

def next (l : ArrayList T) (pos : Nat) : Option Int :=
  (isFree pos l).map fun free => if free then 0 else (l.array pos).next

def prev (l : ArrayList T) (pos : Nat) : Option Int :=
  (isFree pos l).map fun free => if free then -1 else (l.array pos).prev

/-- The inner `none` is the null pointer. -/
def get (l : ArrayList T) (pos : Nat) : Option (Option T) :=
  (isFree pos l).map fun free => if free then none else some (l.array pos).data

end Operations

/-! ## The sequence that a list stands for -/

inductive Call (T : Type) where
  | pushBack (data : T)
  | pushFront (data : T)
  | insertAfter (pos : Nat) (data : T)
  | remove (pos : Nat)
  | clear

/-- A list with the sequence of positions and values that the calls so far have built. -/
structure Tracked (T : Type) where
  list : ArrayList T
  seq : List (Nat × T)

section Specification

variable {T : Type}

/-- A call with what it returns; `0` for the calls that return nothing. -/
def perform : Call T → ArrayList T → Option (Int × ArrayList T)
  | .pushBack data, l =>
      let (pos, l) := l.pushBack data
      some (pos, l)
  | .pushFront data, l =>
      let (pos, l) := l.pushFront data
      some (pos, l)
  | .insertAfter pos data, l => l.insertAfter pos data
  | .remove pos, l => (l.remove pos).map fun l => (0, l)
  | .clear, l => some (0, l.clear)

/-- An entry is put behind the entry at `pos`, and in front of all for `0`. -/
def putBehind (pos : Nat) (entry : Nat × T) : List (Nat × T) → List (Nat × T)
  | [] => if pos = 0 then [entry] else []
  | x :: rest =>
      if pos = 0 then entry :: x :: rest
      else if x.1 = pos then x :: entry :: rest
      else x :: putBehind pos entry rest

/-- What a call that returned `result` does to the sequence. -/
def sequel (result : Int) (seq : List (Nat × T)) : Call T → List (Nat × T)
  | .pushBack data => if 0 < result then seq ++ [(result.toNat, data)] else seq
  | .pushFront data => if 0 < result then (result.toNat, data) :: seq else seq
  | .insertAfter pos data => if 0 < result then putBehind pos (result.toNat, data) seq else seq
  | .remove pos => seq.filter fun entry => entry.1 ≠ pos
  | .clear => []

def step (t : Tracked T) (call : Call T) : Option (Tracked T) :=
  (perform call t.list).map fun (result, list) => ⟨list, sequel result t.seq call⟩

def start (capacity : Nat) (raw : Nat → Item T) : Tracked T := ⟨init capacity raw, []⟩

def positions (seq : List (Nat × T)) : List Nat := seq.map Prod.fst

/-- What is seen of a list that stands for a sequence. Both ways through the list show the positions,
`Get` shows the values, and the free list has the positions that are left. -/
structure View (l : ArrayList T) (seq : List (Nat × T)) : Prop where
  forward : ∀ fuel, seq.length ≤ fuel → follow l.next fuel l.first = some (positions seq)
  backward : ∀ fuel, seq.length ≤ fuel → follow l.prev fuel l.last = some (positions seq).reverse
  count : l.count = seq.length
  values : ∀ entry ∈ seq, l.get entry.1 = some (some entry.2)
  others : ∀ pos, pos ≤ l.maxCount → pos ∉ positions seq → l.get pos = some none
  left : ∃ free : List Nat,
    (∀ fuel, l.maxCount ≤ fuel →
      follow (fun pos => some (l.array pos).next) fuel (l.array 0).next = some free) ∧
    (positions seq ++ free).Perm (List.range' 1 l.maxCount)

/-- The call inserts a value. -/
def Call.Inserts : Call T → Prop
  | .pushBack _ => True
  | .pushFront _ => True
  | .insertAfter _ _ => True
  | .remove _ => False
  | .clear => False

/-- The call inserts behind a position that is not in the sequence. -/
def Call.Misplaced (seq : List (Nat × T)) : Call T → Prop
  | .insertAfter pos _ => pos ≠ 0 ∧ pos ∉ positions seq
  | _ => False

/-- The call does to the list what it does to the sequence. An insertion is refused, with nothing
changed, only for want of room or of the item it names. -/
structure Right (t : Tracked T) (call : Call T) : Prop where
  performed : ∃ t', step t call = some t' ∧ View t'.list t'.seq
  refused : call.Inserts → ∀ result l, perform call t.list = some (result, l) → result ≤ 0 →
    l = t.list ∧ (t.seq.length = t.list.maxCount ∨ call.Misplaced t.seq)
  absent : ∀ pos, call = .remove pos → pos ∉ positions t.seq → step t call = some t

/-- Positions are inside the array, and what is removed is in the list or is `0`. -/
def Proper (t : Tracked T) : Call T → Prop
  | .insertAfter pos _ => pos ≤ t.list.maxCount
  | .remove pos => pos = 0 ∨ pos ∈ positions t.seq
  | _ => True

instance (t : Tracked T) : (call : Call T) → Decidable (Proper t call)
  | .pushBack _ => isTrue trivial
  | .pushFront _ => isTrue trivial
  | .insertAfter pos _ => inferInstanceAs (Decidable (pos ≤ t.list.maxCount))
  | .remove pos => inferInstanceAs (Decidable (pos = 0 ∨ pos ∈ positions t.seq))
  | .clear => isTrue trivial

end Specification

/-! ## Fields after a write -/

section Fields

variable {T : Type} (l : ArrayList T) (p q : Nat)

@[simp] theorem setNext_next (n : Nat) :
    ((l.setNext p n).array q).next = if q = p then n else (l.array q).next := by
  simp only [setNext, modify]
  split <;> rfl

@[simp] theorem setNext_prev (n : Nat) : ((l.setNext p n).array q).prev = (l.array q).prev := by
  simp only [setNext, modify]
  split <;> rfl

@[simp] theorem setNext_data (n : Nat) : ((l.setNext p n).array q).data = (l.array q).data := by
  simp only [setNext, modify]
  split <;> rfl

@[simp] theorem setPrev_next (n : Int) : ((l.setPrev p n).array q).next = (l.array q).next := by
  simp only [setPrev, modify]
  split <;> rfl

@[simp] theorem setPrev_prev (n : Int) :
    ((l.setPrev p n).array q).prev = if q = p then n else (l.array q).prev := by
  simp only [setPrev, modify]
  split <;> rfl

@[simp] theorem setPrev_data (n : Int) : ((l.setPrev p n).array q).data = (l.array q).data := by
  simp only [setPrev, modify]
  split <;> rfl

@[simp] theorem setData_next (n : T) : ((l.setData p n).array q).next = (l.array q).next := by
  simp only [setData, modify]
  split <;> rfl

@[simp] theorem setData_prev (n : T) : ((l.setData p n).array q).prev = (l.array q).prev := by
  simp only [setData, modify]
  split <;> rfl

@[simp] theorem setData_data (n : T) :
    ((l.setData p n).array q).data = if q = p then n else (l.array q).data := by
  simp only [setData, modify]
  split <;> rfl

@[simp] theorem setNext_heads (n : Nat) : (l.setNext p n).headPrev = l.headPrev ∧
    (l.setNext p n).headNext = l.headNext ∧ (l.setNext p n).count = l.count ∧
    (l.setNext p n).maxCount = l.maxCount :=
  ⟨rfl, rfl, rfl, rfl⟩

@[simp] theorem setPrev_heads (n : Int) : (l.setPrev p n).headPrev = l.headPrev ∧
    (l.setPrev p n).headNext = l.headNext ∧ (l.setPrev p n).count = l.count ∧
    (l.setPrev p n).maxCount = l.maxCount :=
  ⟨rfl, rfl, rfl, rfl⟩

@[simp] theorem setData_heads (v : T) : (l.setData p v).headPrev = l.headPrev ∧
    (l.setData p v).headNext = l.headNext ∧ (l.setData p v).count = l.count ∧
    (l.setData p v).maxCount = l.maxCount :=
  ⟨rfl, rfl, rfl, rfl⟩

end Fields

/-! ## What an insertion and a removal write -/

section Writes

variable {T : Type} {l l' : ArrayList T}

/-- The free item `f` comes to stand between `a` and `b`; `0` in their place is the head. -/
structure Spliced (l l' : ArrayList T) (a f b : Nat) (data : T) : Prop where
  next : ∀ q, (l'.array q).next =
    if q = f then b else if q = 0 then (l.array f).next else if q = a then f else (l.array q).next
  prev : ∀ q, (l'.array q).prev =
    if q = f then (a : Int) else if q ≠ 0 ∧ q = b then (f : Int) else (l.array q).prev
  data : ∀ q, (l'.array q).data = if q = f then data else (l.array q).data
  headNext : l'.headNext = if a = 0 then f else l.headNext
  headPrev : l'.headPrev = if b = 0 then f else l.headPrev
  count : l'.count = l.count + 1
  maxCount : l'.maxCount = l.maxCount

/-- The item `p` between `a` and `b` becomes the first free one. -/
structure Unlinked (l l' : ArrayList T) (a p b : Nat) : Prop where
  next : ∀ q, (l'.array q).next =
    if q = p then (l.array 0).next else if q = 0 then p else if q = a then b else (l.array q).next
  prev : ∀ q, (l'.array q).prev =
    if q = p then -1 else if q ≠ 0 ∧ q = b then (a : Int) else (l.array q).prev
  data : ∀ q, (l'.array q).data = (l.array q).data
  headNext : l'.headNext = if a = 0 then b else l.headNext
  headPrev : l'.headPrev = if b = 0 then a else l.headPrev
  count : l'.count = l.count - 1
  maxCount : l'.maxCount = l.maxCount

section Frame

variable {a f p b q : Nat} {data : T}

theorem Spliced.next_other (spliced : Spliced l l' a f b data) (new : q ≠ f) (nonzero : q ≠ 0) :
    (l'.array q).next = if q = a then f else (l.array q).next := by
  rw [spliced.next, if_neg new, if_neg nonzero]

theorem Spliced.next_apart (spliced : Spliced l l' a f b data) (new : q ≠ f) (nonzero : q ≠ 0)
    (apart : q ≠ a) : (l'.array q).next = (l.array q).next := by
  rw [spliced.next_other new nonzero, if_neg apart]

theorem Spliced.prev_other (spliced : Spliced l l' a f b data) (new : q ≠ f) (nonzero : q ≠ 0) :
    (l'.array q).prev = if q = b then (f : Int) else (l.array q).prev := by
  rw [spliced.prev, if_neg new]
  simp only [nonzero, ne_eq, not_false_eq_true, true_and]

theorem Spliced.prev_apart (spliced : Spliced l l' a f b data) (new : q ≠ f)
    (apart : q ≠ 0 → q ≠ b) : (l'.array q).prev = (l.array q).prev := by
  rw [spliced.prev, if_neg new, if_neg fun both => apart both.1 both.2]

theorem Unlinked.next_other (unlinked : Unlinked l l' a p b) (old : q ≠ p) (nonzero : q ≠ 0) :
    (l'.array q).next = if q = a then b else (l.array q).next := by
  rw [unlinked.next, if_neg old, if_neg nonzero]

theorem Unlinked.next_apart (unlinked : Unlinked l l' a p b) (old : q ≠ p) (nonzero : q ≠ 0)
    (apart : q ≠ a) : (l'.array q).next = (l.array q).next := by
  rw [unlinked.next_other old nonzero, if_neg apart]

theorem Unlinked.prev_other (unlinked : Unlinked l l' a p b) (old : q ≠ p) (nonzero : q ≠ 0) :
    (l'.array q).prev = if q = b then (a : Int) else (l.array q).prev := by
  rw [unlinked.prev, if_neg old]
  simp only [nonzero, ne_eq, not_false_eq_true, true_and]

theorem Unlinked.prev_apart (unlinked : Unlinked l l' a p b) (old : q ≠ p)
    (apart : q ≠ 0 → q ≠ b) : (l'.array q).prev = (l.array q).prev := by
  rw [unlinked.prev, if_neg old, if_neg fun both => apart both.1 both.2]

end Frame

theorem pushBack_spliced (data : T) (nonzero : (l.array 0).next ≠ 0)
    (other : (l.array 0).next ≠ l.headPrev) :
    Spliced l (l.pushBack data).2 l.headPrev (l.array 0).next 0 data := by
  unfold pushBack allocFromFreeList
  by_cases empty : l.headPrev = 0
  · constructor <;> simp [nonzero, empty]
    grind
  · constructor <;> simp [nonzero, empty]
    grind

theorem pushFront_spliced (data : T) (nonzero : (l.array 0).next ≠ 0)
    (other : (l.array 0).next ≠ l.headNext) :
    Spliced l (l.pushFront data).2 0 (l.array 0).next l.headNext data := by
  unfold pushFront allocFromFreeList
  by_cases empty : l.headNext = 0
  · constructor <;> simp [nonzero, empty]
    grind
  · constructor <;> simp [nonzero, empty]
    all_goals grind

theorem insertBehind_spliced {pos : Nat} (data : T) (nonzero : (l.array 0).next ≠ 0)
    (posNonzero : pos ≠ 0) (other : (l.array 0).next ≠ pos)
    (otherNext : (l.array 0).next ≠ (l.array pos).next) :
    Spliced l (l.insertBehind pos data).2 pos (l.array 0).next (l.array pos).next data := by
  unfold insertBehind allocFromFreeList
  by_cases atEnd : (l.array pos).next = 0
  · constructor <;> simp [nonzero, atEnd, posNonzero, other.symm]
    all_goals grind
  · constructor <;> simp [nonzero, atEnd, posNonzero, other.symm]
    all_goals grind

theorem unlink_unlinked {pos : Nat} (before : Nat) (posNonzero : pos ≠ 0) :
    Unlinked l (l.unlink pos before) before pos (l.array pos).next := by
  unfold unlink returnToFreeList
  by_cases atFront : before = 0 <;> by_cases atEnd : (l.array pos).next = 0
  all_goals constructor <;> simp [atFront, atEnd]
  all_goals grind

end Writes

/-! ## The layout of the array -/

/-- The used items in their order and the free ones in theirs. -/
structure Laid {T : Type} (l : ArrayList T) (used free : List Nat) : Prop where
  forward : Linked (fun q => (l.array q).next) used
  backward : Linked (fun q => (l.array q).prev) used.reverse
  headNext : l.headNext = used.head?.getD 0
  headPrev : l.headPrev = used.getLast?.getD 0
  freeLinks : Linked (fun q => (l.array q).next) free
  freeHead : (l.array 0).next = free.head?.getD 0
  marked : ∀ q ∈ 0 :: free, (l.array q).prev = -1
  count : l.count = used.length
  all : (used ++ free).Perm (List.range' 1 l.maxCount)

section Layout

variable {T : Type} {l l' : ArrayList T} {used free front back : List Nat}

theorem Laid.nodup (laid : Laid l used free) : (used ++ free).Nodup :=
  laid.all.nodup_iff.mpr List.nodup_range'

theorem Laid.mem_iff (laid : Laid l used free) {q : Nat} :
    q ∈ used ++ free ↔ 1 ≤ q ∧ q ≤ l.maxCount := by
  rw [laid.all.mem_iff, List.mem_range'_1]
  omega

theorem Laid.used_bounds (laid : Laid l used free) {q : Nat} (member : q ∈ used) :
    1 ≤ q ∧ q ≤ l.maxCount :=
  laid.mem_iff.mp (List.mem_append_left _ member)

theorem Laid.free_bounds (laid : Laid l used free) {q : Nat} (member : q ∈ free) :
    1 ≤ q ∧ q ≤ l.maxCount :=
  laid.mem_iff.mp (List.mem_append_right _ member)

/-- The mark tells the used items from the others. -/
theorem Laid.isFree_eq (laid : Laid l used free) {q : Nat} (inside : q ≤ l.maxCount) :
    l.isFree q = some (decide (q ∉ used)) := by
  rw [isFree, if_pos inside]
  by_cases member : q ∈ used
  · obtain ⟨n, value⟩ := laid.backward.exists_link (List.mem_reverse.mpr member)
    simp only [member, not_true_eq_false, decide_false, value, Option.some_inj,
      decide_eq_false_iff_not]
    omega
  · have marked : q ∈ 0 :: free := by
      rw [List.mem_cons]
      by_cases zero : q = 0
      · exact .inl zero
      · have known := laid.mem_iff.mpr ⟨Nat.one_le_iff_ne_zero.mpr zero, inside⟩
        exact .inr ((List.mem_append.mp known).resolve_left member)
    simp [laid.marked q marked, member]

theorem Laid.length_eq (laid : Laid l used free) : used.length + free.length = l.maxCount := by
  simpa using laid.all.length_eq

theorem getLast_mem (list : List Nat) : list.getLast?.getD 0 ∈ 0 :: list := by
  cases found : list.getLast? with
  | none => exact List.mem_cons_self
  | some last => exact List.mem_cons_of_mem _ (List.mem_of_getLast? found)

theorem head_mem (list : List Nat) : list.head?.getD 0 ∈ 0 :: list := by
  cases list <;> simp

theorem ne_getLast {list : List Nat} {q : Nat} (nonzero : q ≠ 0) (absent : q ∉ list) :
    q ≠ list.getLast?.getD 0 := by
  rintro rfl
  exact (List.mem_cons.mp (getLast_mem list)).elim nonzero absent

theorem getLast_ne_zero {list : List Nat} (some' : list ≠ []) (nonzero : ∀ q ∈ list, q ≠ 0) :
    list.getLast?.getD 0 ≠ 0 := by
  rw [List.getLast?_eq_some_getLast some', Option.getD_some]
  exact nonzero _ (List.getLast_mem some')

theorem ne_head {list : List Nat} {q : Nat} (nonzero : q ≠ 0) (absent : q ∉ list) :
    q ≠ list.head?.getD 0 := by
  rintro rfl
  exact (List.mem_cons.mp (head_mem list)).elim nonzero absent

/-- A free item is no neighbour of a used one. -/
theorem Laid.free_ne {f p : Nat} (laid : Laid l used (f :: free)) (known : p ∈ 0 :: used) : f ≠ p := by
  rcases List.mem_cons.mp known with rfl | member
  · exact Nat.one_le_iff_ne_zero.mp (laid.free_bounds List.mem_cons_self).1
  · exact ((List.nodup_append.mp laid.nodup).2.2 p member f List.mem_cons_self).symm

/-- A free item is inserted. -/
theorem Laid.insert {f : Nat} {data : T} (laid : Laid l (front ++ back) (f :: free))
    (spliced : Spliced l l' (front.getLast?.getD 0) f (back.head?.getD 0) data) :
    Laid l' (front ++ f :: back) free := by
  have nonzero : ∀ q ∈ (front ++ back) ++ f :: free, q ≠ 0 := fun q member =>
    Nat.one_le_iff_ne_zero.mp (laid.mem_iff.mp member).1
  obtain ⟨usedDistinct, fFreeDistinct, usedFree⟩ := List.nodup_append.mp laid.nodup
  obtain ⟨frontDistinct, backDistinct, frontBack⟩ := List.nodup_append.mp usedDistinct
  obtain ⟨fFresh, -⟩ := List.nodup_cons.mp fFreeDistinct
  have used_ne : ∀ q ∈ front ++ back, q ≠ f ∧ q ≠ 0 := fun q member =>
    ⟨usedFree q member f List.mem_cons_self, nonzero q (List.mem_append_left _ member)⟩
  have free_ne : ∀ q ∈ free, q ≠ f ∧ q ≠ 0 ∧ q ∉ front ∧ q ∉ back := fun q member =>
    ⟨ne_of_mem_of_not_mem member fFresh,
      nonzero q (List.mem_append_right _ (List.mem_cons_of_mem f member)),
      fun inFront => usedFree q (List.mem_append_left back inFront) q
        (List.mem_cons_of_mem f member) rfl,
      fun inBack => usedFree q (List.mem_append_right front inBack) q
        (List.mem_cons_of_mem f member) rfl⟩
  have fNonzero : f ≠ 0 := nonzero f (List.mem_append_right _ List.mem_cons_self)
  have reversed : (front ++ f :: back).reverse = back.reverse ++ f :: front.reverse := by simp
  have backward : Linked (fun q => (l.array q).prev) (back.reverse ++ front.reverse) := by
    simpa using laid.backward
  constructor
  case forward =>
    refine laid.forward.redirect ⟨?_, laid.forward.of_append.congr fun q member => ?_⟩
      frontDistinct fun q member => ?_
    · simp [spliced.next f]
    · obtain ⟨new, other⟩ := used_ne q (List.mem_append_right front member)
      have notFront : q ∉ front := fun inFront => frontBack q inFront q member rfl
      rw [spliced.next_apart new other (ne_getLast other notFront)]
    · obtain ⟨new, other⟩ := used_ne q (List.mem_append_left back member)
      rw [spliced.next_other new other, List.head?_cons, Option.getD_some]
      exact apply_ite Nat.cast _ _ _
  case backward =>
    rw [reversed]
    refine backward.redirect ⟨?_, backward.of_append.congr fun q member => ?_⟩
      (List.nodup_reverse.mpr backDistinct) fun q member => ?_
    · simp [spliced.prev f]
    · have inFront := List.mem_reverse.mp member
      obtain ⟨new, other⟩ := used_ne q (List.mem_append_left back inFront)
      have notBack : q ∉ back := fun inBack => frontBack q inFront q inBack rfl
      rw [spliced.prev_apart new fun _ => ne_head other notBack]
    · obtain ⟨new, other⟩ := used_ne q (List.mem_append_right front (List.mem_reverse.mp member))
      rw [spliced.prev_other new other, List.getLast?_reverse, List.head?_cons, Option.getD_some]
  case headNext =>
    rw [spliced.headNext, laid.headNext]
    cases front with
    | nil => simp
    | cons p front =>
        exact if_neg (getLast_ne_zero (List.cons_ne_nil p front) fun q member =>
          (used_ne q (List.mem_append_left back member)).2)
  case headPrev =>
    rw [spliced.headPrev, laid.headPrev]
    cases back with
    | nil => simp
    | cons p back =>
        have pNonzero := (used_ne p (List.mem_append_right front List.mem_cons_self)).2
        rw [List.head?_cons, Option.getD_some, if_neg pNonzero]
        simp [List.getLast?_append]
  case freeLinks =>
    refine laid.freeLinks.2.congr fun q member => ?_
    obtain ⟨new, other, notFront, -⟩ := free_ne q member
    rw [spliced.next_apart new other (ne_getLast other notFront)]
  case freeHead =>
    have follows := laid.freeLinks.1
    rw [spliced.next, if_neg (Ne.symm fNonzero), if_pos rfl]
    exact Int.ofNat.inj follows
  case marked =>
    intro q member
    have before : q ∈ 0 :: f :: free :=
      List.mem_cons.mpr ((List.mem_cons.mp member).imp_right (List.mem_cons_of_mem f))
    rw [← laid.marked q before]
    rcases List.mem_cons.mp member with rfl | member
    · exact spliced.prev_apart (Ne.symm fNonzero) fun other => absurd rfl other
    · obtain ⟨new, other, -, notBack⟩ := free_ne q member
      exact spliced.prev_apart new fun _ => ne_head other notBack
  case count =>
    rw [spliced.count, laid.count]
    simp
    omega
  case all =>
    rw [spliced.maxCount]
    exact (List.perm_middle.append_right free).trans (List.perm_middle.symm.trans laid.all)

/-- A used item becomes free. -/
theorem Laid.remove {p : Nat} (laid : Laid l (front ++ p :: back) free)
    (unlinked : Unlinked l l' (front.getLast?.getD 0) p (back.head?.getD 0)) :
    Laid l' (front ++ back) (p :: free) := by
  have nonzero : ∀ q ∈ (front ++ p :: back) ++ free, q ≠ 0 := fun q member =>
    Nat.one_le_iff_ne_zero.mp (laid.mem_iff.mp member).1
  obtain ⟨usedDistinct, -, usedFree⟩ := List.nodup_append.mp laid.nodup
  obtain ⟨frontDistinct, pBackDistinct, frontBack⟩ := List.nodup_append.mp usedDistinct
  obtain ⟨pFresh, backDistinct⟩ := List.nodup_cons.mp pBackDistinct
  have front_ne : ∀ q ∈ front, q ≠ p ∧ q ≠ 0 ∧ q ∉ back := fun q member =>
    ⟨frontBack q member p List.mem_cons_self,
      nonzero q (List.mem_append_left _ (List.mem_append_left _ member)),
      fun inBack => frontBack q member q (List.mem_cons_of_mem p inBack) rfl⟩
  have back_ne : ∀ q ∈ back, q ≠ p ∧ q ≠ 0 ∧ q ∉ front := fun q member =>
    ⟨ne_of_mem_of_not_mem member pFresh,
      nonzero q (List.mem_append_left _ (List.mem_append_right _ (List.mem_cons_of_mem p member))),
      fun inFront => frontBack q inFront q (List.mem_cons_of_mem p member) rfl⟩
  have free_ne : ∀ q ∈ free, q ≠ p ∧ q ≠ 0 ∧ q ∉ front ∧ q ∉ back := fun q member =>
    ⟨fun same => usedFree p (List.mem_append_right front List.mem_cons_self) q member same.symm,
      nonzero q (List.mem_append_right _ member),
      fun inFront => usedFree q (List.mem_append_left _ inFront) q member rfl,
      fun inBack => usedFree q (List.mem_append_right front (List.mem_cons_of_mem p inBack)) q
        member rfl⟩
  have pNonzero : p ≠ 0 :=
    nonzero p (List.mem_append_left _ (List.mem_append_right front List.mem_cons_self))
  have backward : Linked (fun q => (l.array q).prev) (back.reverse ++ p :: front.reverse) := by
    simpa using laid.backward
  constructor
  case forward =>
    refine laid.forward.redirect (laid.forward.of_append.2.congr fun q member => ?_)
      frontDistinct fun q member => ?_
    · obtain ⟨old, other, notFront⟩ := back_ne q member
      rw [unlinked.next_apart old other (ne_getLast other notFront)]
    · obtain ⟨old, other, -⟩ := front_ne q member
      rw [unlinked.next_other old other]
      exact apply_ite Nat.cast _ _ _
  case backward =>
    rw [List.reverse_append]
    refine backward.redirect (backward.of_append.2.congr fun q member => ?_)
      (List.nodup_reverse.mpr backDistinct) fun q member => ?_
    · obtain ⟨old, other, notBack⟩ := front_ne q (List.mem_reverse.mp member)
      rw [unlinked.prev_apart old fun _ => ne_head other notBack]
    · obtain ⟨old, other, -⟩ := back_ne q (List.mem_reverse.mp member)
      rw [unlinked.prev_other old other, List.getLast?_reverse, List.head?_reverse]
  case headNext =>
    rw [unlinked.headNext, laid.headNext]
    cases front with
    | nil => simp
    | cons x front =>
        exact if_neg (getLast_ne_zero (List.cons_ne_nil x front) fun q member =>
          (front_ne q member).2.1)
  case headPrev =>
    rw [unlinked.headPrev, laid.headPrev]
    cases back with
    | nil => simp
    | cons x back =>
        rw [List.head?_cons, Option.getD_some, if_neg (back_ne x List.mem_cons_self).2.1]
        simp [List.getLast?_append]
  case freeLinks =>
    refine ⟨?_, laid.freeLinks.congr fun q member => ?_⟩
    · simp [unlinked.next p, laid.freeHead]
    · obtain ⟨old, other, notFront, -⟩ := free_ne q member
      rw [unlinked.next_apart old other (ne_getLast other notFront)]
  case freeHead =>
    rw [unlinked.next, if_neg (Ne.symm pNonzero), if_pos rfl, List.head?_cons, Option.getD_some]
  case marked =>
    intro q member
    by_cases same : q = p
    · rw [unlinked.prev, if_pos same]
    · have before : q ∈ 0 :: free := by
        rcases List.mem_cons.mp member with rfl | member
        · exact List.mem_cons_self
        · exact List.mem_cons_of_mem 0 ((List.mem_cons.mp member).resolve_left same)
      rw [← laid.marked q before]
      refine unlinked.prev_apart same fun other => ?_
      obtain ⟨-, -, -, notBack⟩ := free_ne q ((List.mem_cons.mp before).resolve_left other)
      exact ne_head other notBack
  case count =>
    rw [unlinked.count, laid.count]
    simp
    omega
  case all =>
    rw [unlinked.maxCount]
    exact List.perm_middle.trans ((List.perm_middle.append_right free).symm.trans laid.all)

theorem clearLoop_next (n : Nat) (l : ArrayList T) (q : Nat) :
    ((l.clearLoop n).array q).next = if q < n then q + 1 else (l.array q).next := by
  induction n with
  | zero => rfl
  | succ n ih =>
      rw [clearLoop, List.range_succ, List.foldl_append, ← clearLoop]
      simp only [List.foldl_cons, List.foldl_nil, setNext_next, setPrev_next, ih]
      grind

theorem clearLoop_prev (n : Nat) (l : ArrayList T) (q : Nat) :
    ((l.clearLoop n).array q).prev = if q < n then -1 else (l.array q).prev := by
  induction n with
  | zero => rfl
  | succ n ih =>
      rw [clearLoop, List.range_succ, List.foldl_append, ← clearLoop]
      simp only [List.foldl_cons, List.foldl_nil, setNext_prev, setPrev_prev, ih]
      grind

theorem clearLoop_heads (n : Nat) (l : ArrayList T) : (l.clearLoop n).headPrev = l.headPrev ∧
    (l.clearLoop n).headNext = l.headNext ∧ (l.clearLoop n).count = l.count ∧
    (l.clearLoop n).maxCount = l.maxCount := by
  induction n with
  | zero => exact ⟨rfl, rfl, rfl, rfl⟩
  | succ n ih =>
      rw [clearLoop, List.range_succ, List.foldl_append, ← clearLoop]
      exact ih

/-- All items are free after `Clear`, in the order of their positions. -/
theorem clear_laid (l : ArrayList T) : Laid l.clear [] (List.range' 1 l.maxCount) := by
  have links : ∀ q, q ≤ l.maxCount →
      (l.clear.array q).next = if q = l.maxCount then 0 else q + 1 := by
    intro q inside
    rw [clear, setNext_next, clearLoop_next, if_pos (Nat.lt_succ_of_le inside)]
  have marks : ∀ q, q ≤ l.maxCount → (l.clear.array q).prev = -1 := by
    intro q inside
    rw [clear, setNext_prev, clearLoop_prev, if_pos (Nat.lt_succ_of_le inside)]
  obtain ⟨headPrev, headNext, count, maxCount⟩ := clearLoop_heads (l.maxCount + 1)
    { l with count := 0, headNext := 0, headPrev := 0 }
  constructor
  case forward => exact trivial
  case backward => exact trivial
  case headNext => exact headNext
  case headPrev => exact headPrev
  case freeLinks =>
    refine linked_range' l.maxCount fun q lower upper => ?_
    rw [links q (by omega)]
    grind
  case freeHead =>
    rw [links 0 (Nat.zero_le _)]
    cases l.maxCount with
    | zero => rfl
    | succ n => rfl
  case marked =>
    intro q member
    apply marks
    simp only [List.mem_cons, List.mem_range'_1] at member
    omega
  case count => exact count
  case all =>
    change List.Perm _ (List.range' 1 (clearLoop _ _).maxCount)
    rw [maxCount]
    exact List.Perm.refl _

end Layout

/-! ## Calls -/

section Calls

variable {T : Type} {l l' : ArrayList T} {used free front back : List Nat} {data : T}

def entries (l : ArrayList T) (used : List Nat) : List (Nat × T) :=
  used.map fun q => (q, (l.array q).data)

@[simp] theorem positions_entries (l : ArrayList T) (used : List Nat) :
    positions (l.entries used) = used := by
  rw [positions, entries, List.map_map]
  exact List.map_id used

theorem Laid.view (laid : Laid l used free) : View l (l.entries used) := by
  have known : ∀ q ∈ used, l.isFree q = some false := by
    intro q member
    rw [laid.isFree_eq (laid.used_bounds member).2]
    simp [member]
  have nonzero : ∀ q ∈ used, q ≠ 0 := fun q member =>
    Nat.one_le_iff_ne_zero.mp (laid.used_bounds member).1
  constructor
  case forward =>
    intro fuel enough
    rw [positions_entries, first, laid.headNext]
    exact laid.forward.follow_eq nonzero (fun q member => by simp [next, known q member])
      (by simpa [entries] using enough)
  case backward =>
    intro fuel enough
    rw [positions_entries, last, laid.headPrev, ← List.head?_reverse]
    refine laid.backward.follow_eq (fun q member => nonzero q (List.mem_reverse.mp member))
      (fun q member => ?_) (by simpa [entries] using enough)
    simp [prev, known q (List.mem_reverse.mp member)]
  case count => simp [laid.count, entries]
  case values =>
    intro entry member
    obtain ⟨q, qMember, rfl⟩ := List.mem_map.mp member
    simp [get, known q qMember]
  case others =>
    intro pos inside absent
    rw [positions_entries] at absent
    simp [get, laid.isFree_eq inside, absent]
  case left =>
    refine ⟨free, fun fuel enough => ?_, by rw [positions_entries]; exact laid.all⟩
    rw [laid.freeHead]
    refine laid.freeLinks.follow_eq (fun q member => ?_) (fun q _ => rfl) ?_
    · exact Nat.one_le_iff_ne_zero.mp (laid.free_bounds member).1
    · have total := laid.length_eq
      omega

@[simp] theorem entries_append (l : ArrayList T) (front back : List Nat) :
    l.entries (front ++ back) = l.entries front ++ l.entries back :=
  List.map_append

theorem entries_congr (same : ∀ q ∈ used, (l'.array q).data = (l.array q).data) :
    l'.entries used = l.entries used :=
  List.map_congr_left fun q member => by rw [same q member]

/-- A position was taken for a value between `front` and `back`. -/
structure Inserted (l : ArrayList T) (front back : List Nat) (data : T)
    (result : Nat × ArrayList T) : Prop where
  positive : 0 < result.1
  laid : ∃ free, Laid result.2 (front ++ result.1 :: back) free
  entries : result.2.entries (front ++ result.1 :: back) =
    l.entries front ++ (result.1, data) :: l.entries back

/-- An insertion fails when no item is free; else the first free item is taken. -/
theorem Laid.insertion (laid : Laid l (front ++ back) free) (data : T) (result : Nat × ArrayList T)
    (full : (l.array 0).next = 0 → result = (0, l))
    (room : ∀ f, (l.array 0).next = f → f ≠ 0 → f ≠ front.getLast?.getD 0 → f ≠ back.head?.getD 0 →
      result.1 = f ∧ Spliced l result.2 (front.getLast?.getD 0) f (back.head?.getD 0) data) :
    (front ++ back).length = l.maxCount ∧ result = (0, l) ∨ Inserted l front back data result := by
  cases free with
  | nil => exact .inl ⟨laid.length_eq, full laid.freeHead⟩
  | cons f free =>
      have fNonzero : f ≠ 0 := laid.free_ne List.mem_cons_self
      have otherLast : f ≠ front.getLast?.getD 0 := laid.free_ne (by
        have known := getLast_mem front
        grind)
      have otherHead : f ≠ back.head?.getD 0 := laid.free_ne (by
        have known := head_mem back
        grind)
      obtain ⟨rfl, spliced⟩ := room f laid.freeHead fNonzero otherLast otherHead
      refine .inr ⟨Nat.pos_of_ne_zero fNonzero, ⟨free, laid.insert spliced⟩, ?_⟩
      have unchanged : ∀ q ∈ front ++ back, (result.2.array q).data = (l.array q).data := by
        intro q member
        rw [spliced.data q, if_neg fun same => ?_]
        exact laid.free_ne (List.mem_cons_of_mem 0 member) same.symm
      rw [entries_append]
      congr 1
      · exact entries_congr fun q member => unchanged q (List.mem_append_left back member)
      · change (_, _) :: result.2.entries back = _
        rw [spliced.data, if_pos rfl,
          entries_congr fun q member => unchanged q (List.mem_append_right front member)]

theorem Laid.pushBack (laid : Laid l used free) (data : T) :
    used.length = l.maxCount ∧ l.pushBack data = (0, l) ∨
      Inserted l used [] data (l.pushBack data) := by
  rw [← List.append_nil used] at laid
  have cases := laid.insertion data (l.pushBack data) (fun full => ?_)
    fun f taken nonzero otherLast _ => ⟨?_, ?_⟩
  · rwa [List.append_nil] at cases
  · simp [ArrayList.pushBack, allocFromFreeList, full]
  · simp [ArrayList.pushBack, allocFromFreeList, taken, nonzero]
  · have atEnd := laid.headPrev
    rw [List.append_nil] at atEnd
    rw [← atEnd] at otherLast ⊢
    subst taken
    exact pushBack_spliced data nonzero otherLast

theorem Laid.pushFront (laid : Laid l used free) (data : T) :
    used.length = l.maxCount ∧ l.pushFront data = (0, l) ∨
      Inserted l [] used data (l.pushFront data) := by
  have laid' : Laid l ([] ++ used) free := laid
  refine laid'.insertion data (l.pushFront data) (fun full => ?_)
    fun f taken nonzero _ otherHead => ⟨?_, ?_⟩
  · simp [ArrayList.pushFront, allocFromFreeList, full]
  · simp [ArrayList.pushFront, allocFromFreeList, taken, nonzero]
  · rw [← laid.headNext] at otherHead ⊢
    subst taken
    exact pushFront_spliced data nonzero otherHead

theorem Laid.insertBehind {pos : Nat} (laid : Laid l (front ++ pos :: back) free) (data : T) :
    (front ++ pos :: back).length = l.maxCount ∧ l.insertBehind pos data = (0, l) ∨
      Inserted l (front ++ [pos]) back data (l.insertBehind pos data) := by
  have posNonzero : pos ≠ 0 := Nat.one_le_iff_ne_zero.mp (laid.used_bounds (by simp)).1
  have follows : (l.array pos).next = back.head?.getD 0 := Int.ofNat.inj laid.forward.of_append.1
  rw [List.append_cons] at laid ⊢
  refine laid.insertion data (l.insertBehind pos data) (fun full => ?_)
    fun f taken nonzero otherLast otherHead => ⟨?_, ?_⟩
  · simp [ArrayList.insertBehind, allocFromFreeList, full]
  · simp [ArrayList.insertBehind, allocFromFreeList, taken, nonzero]
  · rw [List.getLast?_concat, Option.getD_some] at otherLast ⊢
    rw [← follows] at otherHead ⊢
    subst taken
    exact insertBehind_spliced data nonzero posNonzero otherLast otherHead

theorem Laid.removed {pos : Nat} (laid : Laid l (front ++ pos :: back) free) :
    ∃ l', l.remove pos = some l' ∧ Laid l' (front ++ back) (pos :: free) ∧
      l'.entries (front ++ back) = l.entries (front ++ back) := by
  obtain ⟨positive, inside⟩ := laid.used_bounds (q := pos) (by simp)
  have posNonzero := Nat.one_le_iff_ne_zero.mp positive
  have follows : (l.array pos).next = back.head?.getD 0 := Int.ofNat.inj laid.forward.of_append.1
  have before : (l.array pos).prev = (front.getLast?.getD 0 : Nat) := by
    have backward := laid.backward
    rw [List.reverse_append, List.reverse_cons, List.append_assoc] at backward
    simpa using backward.of_append.1
  have unlinked := unlink_unlinked (l := l) (front.getLast?.getD 0) posNonzero
  rw [follows] at unlinked
  refine ⟨_, ?_, laid.remove unlinked, entries_congr fun q _ => unlinked.data q⟩
  rw [ArrayList.remove, if_neg posNonzero, if_neg (by omega), before]

/-- The sequence is that of the used items. -/
def Stands (t : Tracked T) : Prop :=
  ∃ used free, Laid t.list used free ∧ t.seq = t.list.entries used

theorem putBehind_zero (entry : Nat × T) (seq : List (Nat × T)) : putBehind 0 entry seq = entry :: seq := by
  cases seq <;> rfl

theorem putBehind_entries {pos : Nat} (entry : Nat × T) (nonzero : pos ≠ 0) (absent : pos ∉ front) :
    putBehind pos entry (l.entries (front ++ pos :: back)) =
      l.entries (front ++ [pos]) ++ entry :: l.entries back := by
  induction front with
  | nil => simp [putBehind, entries, nonzero]
  | cons p front ih =>
      obtain ⟨other, absentRest⟩ := List.ne_and_not_mem_of_not_mem_cons absent
      change (if pos = 0 then _ else if p = pos then _ else _) = _
      rw [if_neg nonzero, if_neg (Ne.symm other)]
      exact congrArg _ (ih absentRest)

theorem Stands.after_refused {t : Tracked T} (stands : Stands t) {call : Call T} (inserts : call.Inserts)
    {result : Int} (refused : result ≤ 0) : Stands ⟨t.list, sequel result t.seq call⟩ := by
  have same : sequel result t.seq call = t.seq := by
    cases call with
    | pushBack data => exact if_neg (by omega)
    | pushFront data => exact if_neg (by omega)
    | insertAfter pos data => exact if_neg (by omega)
    | remove pos => exact absurd inserts id
    | clear => exact absurd inserts id
  rwa [same]

/-- The list and the sequence after a call; a refusal has its reason. -/
structure Answer (t : Tracked T) (call : Call T) (result : Int) (l' : ArrayList T) : Prop where
  performed : perform call t.list = some (result, l')
  stands : Stands ⟨l', sequel result t.seq call⟩
  refused : call.Inserts → result ≤ 0 →
    l' = t.list ∧ (t.seq.length = t.list.maxCount ∨ call.Misplaced t.seq)

/-- An insertion between `front` and `back` is answered so. -/
theorem answer_of_insertion {t : Tracked T} (stands : Stands t) {call : Call T}
    (inserts : call.Inserts) {result : Nat × ArrayList T}
    (performed : perform call t.list = some ((result.1 : Int), result.2))
    (outcome : t.seq.length = t.list.maxCount ∧ result = (0, t.list) ∨
      Inserted t.list front back data result)
    (follows : 0 < result.1 → sequel result.1 t.seq call =
      t.list.entries front ++ (result.1, data) :: t.list.entries back) :
    ∃ result l', Answer t call result l' := by
  refine ⟨result.1, result.2, performed, ?_, fun _ refused => ?_⟩
  · rcases outcome with ⟨-, rfl⟩ | inserted
    · exact stands.after_refused inserts (Int.le_refl 0)
    · obtain ⟨free, laid⟩ := inserted.laid
      exact ⟨_, free, laid, by rw [follows inserted.positive, inserted.entries]⟩
  · rcases outcome with ⟨full, rfl⟩ | inserted
    · exact ⟨rfl, .inl full⟩
    · have positive := inserted.positive
      omega

theorem Stands.answer_insertAfter {t : Tracked T} (stands : Stands t) {pos : Nat} (data : T)
    (inside : pos ≤ t.list.maxCount) : ∃ result l', Answer t (.insertAfter pos data) result l' := by
  obtain ⟨used, free, laid, seq⟩ := id stands
  have length : t.seq.length = used.length := by simp [seq, entries]
  by_cases atFront : pos = 0
  · subst atFront
    refine answer_of_insertion stands trivial rfl (length ▸ laid.pushFront data) fun positive => ?_
    rw [sequel, if_pos (by omega), seq, putBehind_zero]
    rfl
  · have performed : perform (.insertAfter pos data) t.list = some (if pos ∉ used then (-2, t.list)
        else (((t.list.insertBehind pos data).1 : Int), (t.list.insertBehind pos data).2)) := by
      simp [perform, insertAfter, atFront, laid.isFree_eq inside]
    by_cases member : pos ∈ used
    · rw [if_neg (not_not_intro member)] at performed
      obtain ⟨front, back, rfl⟩ := List.append_of_mem member
      have absent : pos ∉ front := by
        have distinct := laid.nodup
        grind
      refine answer_of_insertion stands trivial performed (length ▸ laid.insertBehind data)
        fun positive => ?_
      rw [sequel, if_pos (by omega), seq, putBehind_entries _ atFront absent]
      rfl
    · rw [if_pos member] at performed
      refine ⟨-2, t.list, performed, stands.after_refused (by exact trivial) (by omega),
        fun _ _ => ⟨rfl, .inr ⟨atFront, ?_⟩⟩⟩
      rwa [seq, positions_entries]

theorem filter_entries (l : ArrayList T) (used : List Nat) (pos : Nat) :
    ((l.entries used).filter fun entry => entry.1 ≠ pos) = l.entries (used.filter (· ≠ pos)) :=
  List.filter_map

theorem filter_ne_eq_self {pos : Nat} (absent : pos ∉ used) : used.filter (· ≠ pos) = used := by
  refine List.filter_eq_self.mpr fun q member => decide_eq_true ?_
  rintro rfl
  exact absent member

theorem Stands.answer_remove {t : Tracked T} (stands : Stands t) {pos : Nat}
    (proper : pos = 0 ∨ pos ∈ positions t.seq) : ∃ result l', Answer t (.remove pos) result l' := by
  obtain ⟨used, free, laid, seq⟩ := stands
  rw [seq, positions_entries] at proper
  rcases proper with rfl | member
  · refine ⟨0, t.list, rfl, ⟨used, free, laid, ?_⟩, fun inserts => absurd inserts id⟩
    have absent : 0 ∉ used := fun member => absurd (laid.used_bounds member).1 (by omega)
    rw [sequel, seq, filter_entries, filter_ne_eq_self absent]
  · obtain ⟨front, back, rfl⟩ := List.append_of_mem member
    obtain ⟨l', removed, laid', same⟩ := laid.removed
    refine ⟨0, l', by simp [perform, removed], ⟨_, _, laid', ?_⟩, fun inserts => absurd inserts id⟩
    have absent : pos ∉ front ++ back := by
      have distinct := laid.nodup
      grind
    rw [sequel, seq, filter_entries, same, List.filter_append, List.filter_cons_of_neg (by simp),
      ← List.filter_append, filter_ne_eq_self absent]

theorem Stands.answer {t : Tracked T} (stands : Stands t) {call : Call T} (proper : Proper t call) :
    ∃ result l', Answer t call result l' := by
  obtain ⟨used, free, laid, seq⟩ := id stands
  have length : t.seq.length = used.length := by simp [seq, entries]
  cases call with
  | pushBack data =>
      refine answer_of_insertion stands trivial rfl (length ▸ laid.pushBack data) fun positive => ?_
      rw [sequel, if_pos (by omega), seq]
      simp [entries]
  | pushFront data =>
      refine answer_of_insertion stands trivial rfl (length ▸ laid.pushFront data) fun positive => ?_
      rw [sequel, if_pos (by omega), seq]
      simp [entries]
  | insertAfter pos data => exact stands.answer_insertAfter data proper
  | remove pos => exact stands.answer_remove proper
  | clear =>
      refine ⟨0, t.list.clear, rfl, ⟨_, _, clear_laid t.list, rfl⟩, fun inserts => absurd inserts id⟩

theorem Stands.view {t : Tracked T} (stands : Stands t) : View t.list t.seq := by
  obtain ⟨used, free, laid, seq⟩ := stands
  rw [seq]
  exact laid.view

theorem Stands.advance {t : Tracked T} (stands : Stands t) {call : Call T} (proper : Proper t call) :
    Right t call ∧ ∃ t', step t call = some t' ∧ Stands t' := by
  obtain ⟨result, l', answer⟩ := stands.answer proper
  have taken : step t call = some ⟨l', sequel result t.seq call⟩ := by
    rw [step, answer.performed, Option.map_some]
  refine ⟨⟨⟨_, taken, answer.stands.view⟩, ?_, ?_⟩, _, taken, answer.stands⟩
  · intro inserts result' l'' performed refused
    obtain ⟨rfl, rfl⟩ : result = result' ∧ l' = l'' := by
      simpa using answer.performed.symm.trans performed
    exact answer.refused inserts refused
  · rintro pos rfl absent
    obtain rfl := proper.resolve_right absent
    obtain ⟨used, free, laid, seq⟩ := stands
    have unused : 0 ∉ used := fun member => absurd (laid.used_bounds member).1 (by omega)
    change some (Tracked.mk t.list (t.seq.filter _)) = some t
    rw [seq, filter_entries, filter_ne_eq_self unused, ← seq]

theorem start_stands (capacity : Nat) (raw : Nat → Item T) : Stands (start capacity raw) :=
  ⟨[], _, clear_laid _, rfl⟩

/-- The list does what its sequence does, call after call. -/
theorem refines_sequence (capacity : Nat) (raw : Nat → Item T) (calls : List (Call T))
    (proper : Meets step Proper (start capacity raw) calls) :
    View (start capacity raw).list [] ∧ Meets step Right (start capacity raw) calls := by
  refine ⟨(start_stands capacity raw).view, ?_⟩
  exact meets_imp (fun t call stands proper => (stands.advance proper).1)
    (fun t call t' stands proper taken => by
      obtain ⟨t'', taken', stands'⟩ := (stands.advance proper).2
      rwa [Option.some.inj (taken.symm.trans taken')])
    (start_stands capacity raw) proper

end Calls

/-- A list of two items that is filled, refuses a value, and loses and gains a value. -/
theorem refines_sequence_two_items :
    Meets step Proper (start 2 fun _ => ⟨0, 0, 0⟩)
        [.pushBack 5, .insertAfter 1 6, .insertAfter 0 7, .remove 1, .insertAfter 1 8, .pushFront 9] ∧
      View (start 2 fun _ => ⟨0, 0, 0⟩).list [] ∧
      Meets step Right (start 2 fun _ => ⟨0, 0, 0⟩)
        [.pushBack 5, .insertAfter 1 6, .insertAfter 0 7, .remove 1, .insertAfter 1 8, .pushFront 9] := by
  have proper : Meets step Proper (start 2 fun _ => ⟨0, 0, 0⟩)
      [.pushBack 5, .insertAfter 1 6, .insertAfter 0 7, .remove 1, .insertAfter 1 8,
        .pushFront 9] := by
    decide
  exact ⟨proper, refines_sequence 2 _ _ proper⟩

/-- A list with room refuses to insert behind an item that is free. -/
theorem refuses_with_room :
    ¬ ∃ seq : List (Nat × Nat), View (init 1 fun _ => ⟨0, 0, 0⟩) seq ∧
      ∀ result l, (init 1 fun _ => ⟨0, 0, 0⟩).insertAfter 1 7 = some (result, l) → result ≤ 0 →
        seq.length = (init 1 fun _ => (⟨0, 0, 0⟩ : Item Nat)).maxCount := by
  rintro ⟨seq, view, full⟩
  have count : (0 : Int) = seq.length := view.count
  have refused : (init 1 fun _ => (⟨0, 0, 0⟩ : Item Nat)).insertAfter 1 7 =
      some (-2, init 1 fun _ => ⟨0, 0, 0⟩) := rfl
  have length : seq.length = 1 := full _ _ refused (by decide)
  omega

end ArrayList

end MlsImgSearch.Blitz
