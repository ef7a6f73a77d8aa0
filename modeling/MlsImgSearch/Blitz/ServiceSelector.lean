import Mathlib.Data.List.Perm.Basic
import Mathlib.Data.BitVec
import Mathlib.Order.Fin.Basic
import MlsImgSearch.Lib.SortedList

/-!
# The consistent-hash service selector

`ConsistHashSelector` keeps the virtual nodes of all services in one vector
sorted by hash. Positions come from the binary search template, so the vector
is only as good as the position its last comparison returns. The md5 prefix
is a parameter: any function from key texts to 32-bit values.
-/

namespace MlsImgSearch.Blitz.ServiceSelector

open Lib.SortedList

/-- The `uint32_t` hash of a key text or virtual node. -/
abbrev Hash := Fin 4294967296

/-- The numerals of `Hash` need it. -/
instance neZero_hash : NeZero 4294967296 := ⟨by decide⟩

/-! ## Binary search -/

/--
The loop of `BinarySearch`. `fuel` bounds the iterations; `r - l` shrinks in
each of them, so `count + 1` is enough.
-/
def binarySearchLoop {T : Type} (compare : T → T → Int) (v : T) (array : List T) :
    Nat → Nat → Nat → Nat → Int → Nat × Bool
  | 0, _, _, mid, cmp => (if cmp > 0 then mid + 1 else mid, false)
  | fuel + 1, l, r, mid, cmp =>
      if l < r then
        match array[(l + r) / 2]? with
        | none => ((l + r) / 2, false) -- past the array, excluded by r <= count
        | some x =>
            if compare v x = 0 then ((l + r) / 2, true)
            else if compare v x < 0 then
              binarySearchLoop compare v array fuel l ((l + r) / 2) ((l + r) / 2) (compare v x)
            else
              binarySearchLoop compare v array fuel ((l + r) / 2 + 1) r ((l + r) / 2) (compare v x)
      else (if cmp > 0 then mid + 1 else mid, false)

/-- `BinarySearchVector`: position and whether an equal element stands there. -/
def binarySearchVector {T : Type} (compare : T → T → Int) (v : T) (array : List T) : Nat × Bool :=
  if array.isEmpty then (0, false)
  else binarySearchLoop compare v array (array.length + 1) 0 array.length 0 0

/-! ## The selector -/

/-- `SelectNode`: what `Select` copies out. -/
structure SelectNode (α : Type) where
  mark : Int := 100
  weight : Int := 1
  hash : Hash := 0
  data : α
  deriving DecidableEq, Repr

/-- `ConsistHashSelector::MapNode`; `status` is 1 for available, 2 for error. -/
structure MapNode (α : Type) where
  hash : Hash
  status : Int
  node : SelectNode α
  deriving DecidableEq, Repr

/-- `ConsistHashSelector::ListNode`, with the node its pointer refers to. -/
structure ListNode (α : Type) where
  hash : Hash
  node : SelectNode α
  deriving DecidableEq, Repr

/-- `items_` as a partial map, the two sorted vectors, and the id counter. -/
structure ConsistHashSelector (α : Type) where
  items : BitVec 32 → Option (List (MapNode α))
  availItems : List (ListNode α)
  errorItems : List (ListNode α)
  nextId : BitVec 32

def ConsistHashSelector.initial (α : Type) : ConsistHashSelector α :=
  ⟨fun _ => none, [], [], 0⟩

def compareNodeHash {α : Type} (a b : ListNode α) : Int :=
  if a.hash = b.hash then 0 else if a.hash < b.hash then -1 else 1

def insertToVector {α : Type} (vec : List (ListNode α)) (pos : Nat) (val : ListNode α) :
    List (ListNode α) :=
  vec.take pos ++ val :: vec.drop pos

def removeFromVector {α : Type} (vec : List (ListNode α)) (pos : Nat) : List (ListNode α) :=
  vec.eraseIdx pos

/-- The arguments of `AddItem` that its body reads. -/
structure AddCall (α : Type) where
  userData : α
  weight : Int
  addr : List Char
  virtualCount : Int
  deriving DecidableEq, Repr

/-- The node stored for every virtual node of one call. -/
def AddCall.node {α : Type} (call : AddCall α) : SelectNode α :=
  { weight := call.weight, data := call.userData }

/-- The text hashed for virtual node `i`: the address from its seventh character, then `#i`. -/
def AddCall.virtualKey {α : Type} (call : AddCall α) (i : Nat) : List Char :=
  call.addr.drop 6 ++ '#' :: Nat.toDigits 10 i

/-- How `AddItem` ends. `outOfRange` is the exception of `addr.substr(6, ...)`. -/
inductive AddOutcome where
  | outOfRange
  | failed (code : Int)
  | added (serviceId : BitVec 32)
  deriving DecidableEq, Repr

section Operations

variable {α : Type} (hash : List Char → Hash)

/-- The `for` loop of `AddItem` from iteration `i` on, `todo` iterations to go. -/
def addVirtualNodes (call : AddCall α) (id : BitVec 32) :
    Nat → Nat → ConsistHashSelector α → Int × ConsistHashSelector α
  | 0, _, s => (0, s)
  | todo + 1, i, s =>
      let listNode : ListNode α := ⟨hash (call.virtualKey i), call.node⟩
      let searchResult := binarySearchVector compareNodeHash listNode s.availItems
      if searchResult.2 then (1, s)
      else
        let mapNode : MapNode α := ⟨listNode.hash, 1, call.node⟩
        let avail := insertToVector s.availItems searchResult.1 listNode
        if i = 0 then
          match s.items id with
          | some _ => (-2, s)
          | none =>
              addVirtualNodes call id todo (i + 1)
                { s with items := Function.update s.items id (some [mapNode]), availItems := avail }
        else
          let nodes := (s.items id).getD []
          addVirtualNodes call id todo (i + 1)
            { s with
              items := Function.update s.items id (some (nodes ++ [mapNode]))
              availItems := avail }

/-- `ConsistHashSelector::AddItem`. -/
def addItem (call : AddCall α) (s : ConsistHashSelector α) : AddOutcome × ConsistHashSelector α :=
  let id := s.nextId + 1
  let s := { s with nextId := id }
  if call.addr.length < 6 then (.outOfRange, s)
  else
    match addVirtualNodes hash call id call.virtualCount.toNat 0 s with
    | (0, s') => (.added id, s')
    | (code, s') => (.failed code, s')

/-- The loop of `RemoveItem`; `none` is a failed `assert(result.second)`. -/
def removeVirtualNodes : List (MapNode α) → ConsistHashSelector α → Option (ConsistHashSelector α)
  | [], s => some s
  | mapNode :: rest, s =>
      let listNode : ListNode α := ⟨mapNode.hash, mapNode.node⟩
      if mapNode.status = 1 then
        let result := binarySearchVector compareNodeHash listNode s.availItems
        if result.2 then
          removeVirtualNodes rest { s with availItems := removeFromVector s.availItems result.1 }
        else none
      else
        let result := binarySearchVector compareNodeHash listNode s.errorItems
        if result.2 then
          removeVirtualNodes rest { s with errorItems := removeFromVector s.errorItems result.1 }
        else none

/-- `ConsistHashSelector::RemoveItem`. -/
def removeItem (serviceId : BitVec 32) (s : ConsistHashSelector α) :
    Option (Int × ConsistHashSelector α) :=
  match s.items serviceId with
  | none => some (1, s)
  | some nodes =>
      (removeVirtualNodes nodes s).map fun s' =>
        (0, { s' with items := Function.update s'.items serviceId none })

/-- Selection from one vector: binary search, then the position modulo the size. -/
def selectFrom [Inhabited α] (keyHash : Hash) (vec : List (ListNode α)) : Option (ListNode α) :=
  let listNode : ListNode α := ⟨keyHash, { data := default }⟩
  let result := binarySearchVector compareNodeHash listNode vec
  vec[result.1 % vec.length]?

/-- `ConsistHashSelector::Select`; `none` is return code 1. -/
def select [Inhabited α] (key : List Char) (s : ConsistHashSelector α) : Option (SelectNode α) :=
  if s.availItems.isEmpty then
    if s.errorItems.isEmpty then none
    else (selectFrom (hash key) s.errorItems).map ListNode.node
  else (selectFrom (hash key) s.availItems).map ListNode.node

end Operations

/-! ## The binary search finds the lower bound -/

section Search

variable {α : Type}

theorem compareNodeHash_eq_zero (a b : ListNode α) : compareNodeHash a b = 0 ↔ a.hash = b.hash := by
  unfold compareNodeHash
  by_cases same : a.hash = b.hash
  · simp [same]
  · by_cases less : a.hash < b.hash <;> simp [same, less]

theorem compareNodeHash_neg (a b : ListNode α) : compareNodeHash a b < 0 ↔ a.hash < b.hash := by
  unfold compareNodeHash
  by_cases same : a.hash = b.hash
  · simp [same]
  · by_cases less : a.hash < b.hash <;> simp [same, less]

/-- All positions before `l` are below `v`, all from `r` on are above it. -/
structure SearchInv (v : ListNode α) (array : List (ListNode α)) (l r : Nat) : Prop where
  le : l ≤ r
  le_length : r ≤ array.length
  below : ∀ i (hi : i < array.length), i < l → array[i].hash < v.hash
  above : ∀ i (hi : i < array.length), r ≤ i → v.hash < array[i].hash

/-- What a search result says about the position. -/
def SearchSpec (v : ListNode α) (array : List (ListNode α)) (result : Nat × Bool) : Prop :=
  if result.2 then ∃ hi : result.1 < array.length, array[result.1].hash = v.hash
  else SearchInv v array result.1 result.1

theorem SearchInv.left {v : ListNode α} {array : List (ListNode α)} {l r mid : Nat}
    (asc : Ascending ListNode.hash array) (inv : SearchInv v array l r) (hm : mid < array.length)
    (lm : l ≤ mid) (less : v.hash < array[mid].hash) : SearchInv v array l mid where
  le := lm
  le_length := Nat.le_of_lt hm
  below := inv.below
  above i hi ge := by
    rcases Nat.eq_or_lt_of_le ge with rfl | lt
    · exact less
    · exact lt_trans less (asc.getElem_lt hm hi lt)

theorem SearchInv.right {v : ListNode α} {array : List (ListNode α)} {l r mid : Nat}
    (asc : Ascending ListNode.hash array) (inv : SearchInv v array l r) (hm : mid < array.length)
    (mr : mid < r) (more : array[mid].hash < v.hash) : SearchInv v array (mid + 1) r where
  le := mr
  le_length := inv.le_length
  below i hi lt := by
    rcases Nat.eq_or_lt_of_le (Nat.le_of_lt_succ lt) with rfl | lt
    · exact more
    · exact lt_trans (asc.getElem_lt hi hm lt) more
  above := inv.above

/-- The position returned from the last comparison is the point where the interval closed. -/
def Closing (l r mid : Nat) (cmp : Int) : Prop :=
  l < r ∨ (cmp > 0 ∧ l = mid + 1) ∨ (cmp < 0 ∧ r = mid)

theorem binarySearchLoop_spec {v : ListNode α} {array : List (ListNode α)}
    (asc : Ascending ListNode.hash array) (fuel l r mid : Nat) (cmp : Int)
    (enough : r - l < fuel) (inv : SearchInv v array l r) (closing : Closing l r mid cmp) :
    SearchSpec v array (binarySearchLoop compareNodeHash v array fuel l r mid cmp) := by
  induction fuel generalizing l r mid cmp with
  | zero => exact absurd enough (Nat.not_lt_zero _)
  | succ fuel ih =>
      unfold binarySearchLoop
      by_cases open' : l < r
      · have hm : (l + r) / 2 < array.length := by
          have := inv.le_length
          omega
        rw [if_pos open', List.getElem?_eq_getElem hm]
        dsimp only
        by_cases same : compareNodeHash v array[(l + r) / 2] = 0
        · rw [if_pos same]
          exact ⟨hm, ((compareNodeHash_eq_zero _ _).mp same).symm⟩
        · rw [if_neg same]
          by_cases less : compareNodeHash v array[(l + r) / 2] < 0
          · rw [if_pos less]
            exact ih _ _ _ _ (by omega)
              (inv.left asc hm (by omega) ((compareNodeHash_neg _ _).mp less))
              (Or.inr (Or.inr ⟨less, rfl⟩))
          · rw [if_neg less]
            have more : array[(l + r) / 2].hash < v.hash := by
              rcases lt_trichotomy v.hash array[(l + r) / 2].hash with lt | eq | gt
              · exact absurd ((compareNodeHash_neg _ _).mpr lt) less
              · exact absurd ((compareNodeHash_eq_zero _ _).mpr eq) same
              · exact gt
            exact ih _ _ _ _ (by omega) (inv.right asc hm (by omega) more)
              (Or.inr (Or.inl ⟨by omega, rfl⟩))
      · have closed : l = r := Nat.le_antisymm inv.le (Nat.le_of_not_lt open')
        subst closed
        have position : (if cmp > 0 then mid + 1 else mid) = l := by
          rcases closing with open'' | ⟨pos, eq⟩ | ⟨neg, eq⟩
          · exact absurd open'' open'
          · rw [if_pos pos, eq]
          · rw [if_neg (by omega), eq]
        rw [if_neg open', position]
        exact inv

theorem binarySearchVector_spec {v : ListNode α} {array : List (ListNode α)}
    (asc : Ascending ListNode.hash array) :
    SearchSpec v array (binarySearchVector compareNodeHash v array) := by
  unfold binarySearchVector
  cases array with
  | nil =>
      exact ⟨Nat.le_refl _, Nat.le_refl _, fun i hi => absurd hi (by simp),
        fun i hi => absurd hi (by simp)⟩
  | cons a rest =>
      refine binarySearchLoop_spec asc _ _ _ _ _ (by omega) ?_ (Or.inl (by simp))
      exact ⟨Nat.zero_le _, Nat.le_refl _, fun i _ lt => absurd lt (Nat.not_lt_zero _),
        fun i hi ge => absurd hi (Nat.not_lt.mpr ge)⟩

theorem SearchInv.lowerBound {v : ListNode α} {array : List (ListNode α)} {pos : Nat}
    (inv : SearchInv v array pos pos) : LowerBound ListNode.hash v.hash array pos where
  le_length := inv.le_length
  below a ha := by
    obtain ⟨i, hi, rfl⟩ := List.mem_take_iff_getElem.mp ha
    exact inv.below i (by omega) (by omega)
  above a ha := by
    obtain ⟨i, hi, rfl⟩ := List.mem_drop_iff_getElem.mp ha
    exact le_of_lt (inv.above _ (by omega) (by omega))

theorem SearchInv.fresh {v : ListNode α} {array : List (ListNode α)} {pos : Nat}
    (inv : SearchInv v array pos pos) : ∀ a ∈ array, a.hash ≠ v.hash := by
  intro a ha
  obtain ⟨i, hi, rfl⟩ := List.getElem_of_mem ha
  rcases Nat.lt_or_ge i pos with lt | ge
  · exact ne_of_lt (inv.below i hi lt)
  · exact ne_of_gt (inv.above i hi ge)

/-- A search hits exactly when the hash is present. -/
theorem binarySearchVector_found {v : ListNode α} {array : List (ListNode α)}
    (asc : Ascending ListNode.hash array) :
    (binarySearchVector compareNodeHash v array).2 = true ↔ ∃ a ∈ array, a.hash = v.hash := by
  have spec := binarySearchVector_spec (v := v) asc
  unfold SearchSpec at spec
  constructor
  · intro found
    rw [if_pos found] at spec
    obtain ⟨hi, eq⟩ := spec
    exact ⟨_, List.getElem_mem hi, eq⟩
  · rintro ⟨a, ha, eq⟩
    by_contra missed
    rw [if_neg missed] at spec
    exact spec.fresh a ha eq

theorem binarySearchVector_lowerBound {v : ListNode α} {array : List (ListNode α)}
    (asc : Ascending ListNode.hash array) :
    LowerBound ListNode.hash v.hash array (binarySearchVector compareNodeHash v array).1 := by
  have spec := binarySearchVector_spec (v := v) asc
  unfold SearchSpec at spec
  split at spec
  · obtain ⟨hi, eq⟩ := spec
    refine ⟨Nat.le_of_lt hi, fun a ha => ?_, fun a ha => ?_⟩
    · obtain ⟨i, hi', rfl⟩ := List.mem_take_iff_getElem.mp ha
      exact eq ▸ asc.getElem_lt (by omega) hi (by omega)
    · obtain ⟨i, hi', rfl⟩ := List.mem_drop_iff_getElem.mp ha
      rcases Nat.eq_zero_or_pos i with rfl | positive
      · exact le_of_eq eq.symm
      · exact le_of_lt (eq ▸ asc.getElem_lt hi (by omega) (by omega))
  · exact spec.lowerBound

end Search

/-! ## Selection and single updates -/

section Updates

variable {α : Type} (hash : List Char → Hash)

theorem selectFrom_eq [Inhabited α] {vec : List (ListNode α)} (keyHash : Hash)
    (asc : Ascending ListNode.hash vec) (nonempty : vec ≠ []) :
    selectFrom keyHash vec = ringLookup ListNode.hash keyHash vec :=
  (binarySearchVector_lowerBound (v := ⟨keyHash, { data := default }⟩) asc).getElem?_mod nonempty

/-- With no error nodes, `Select` is the cyclic successor lookup in the available nodes. -/
theorem select_eq [Inhabited α] {s : ConsistHashSelector α} (key : List Char)
    (asc : Ascending ListNode.hash s.availItems) (noError : s.errorItems = []) :
    select hash key s = (ringLookup ListNode.hash (hash key) s.availItems).map ListNode.node := by
  unfold select
  cases avail : s.availItems with
  | nil => simp [noError, ringLookup]
  | cons a rest =>
      rw [if_neg (by simp), ← avail, selectFrom_eq _ asc (by simp [avail])]

theorem insertToVector_perm (vec : List (ListNode α)) (pos : Nat) (val : ListNode α) :
    (insertToVector vec pos val).Perm (vec ++ [val]) := by
  have moved : (vec.take pos ++ val :: vec.drop pos).Perm (val :: (vec.take pos ++ vec.drop pos)) :=
    List.perm_middle
  rw [List.take_append_drop] at moved
  have swapped : ([val] ++ vec).Perm (vec ++ [val]) := List.perm_append_comm
  exact moved.trans swapped

theorem insertToVector_ascending {vec : List (ListNode α)} {val : ListNode α}
    (asc : Ascending ListNode.hash vec)
    (missed : (binarySearchVector compareNodeHash val vec).2 ≠ true) :
    Ascending ListNode.hash
      (insertToVector vec (binarySearchVector compareNodeHash val vec).1 val) :=
  asc.insert (binarySearchVector_lowerBound asc) fun b hb same =>
    missed ((binarySearchVector_found asc).mpr ⟨b, hb, same⟩)

/-- The hashes of virtual nodes `i` to `i + todo - 1`. -/
def AddCall.hashesFrom (call : AddCall α) (i todo : Nat) : List Hash :=
  (List.range' i todo).map fun k => hash (call.virtualKey k)

/-- Ring entries of a list of hashes owned by one node. -/
def entriesOf (node : SelectNode α) (hashes : List Hash) : List (ListNode α) :=
  hashes.map fun h => ⟨h, node⟩

/-- Map nodes of a list of hashes owned by one node. -/
def mapNodesOf (node : SelectNode α) (hashes : List Hash) : List (MapNode α) :=
  hashes.map fun h => ⟨h, 1, node⟩

/-- The state of `AddItem`'s loop after the virtual nodes `hashes` went in. -/
structure Inserted (s s' : ConsistHashSelector α) (id : BitVec 32) (node : SelectNode α)
    (hashes : List Hash) : Prop where
  ascending : Ascending ListNode.hash s'.availItems
  entries : s'.availItems.Perm (s.availItems ++ entriesOf node hashes)
  errorItems : s'.errorItems = s.errorItems
  nextId : s'.nextId = s.nextId
  others : ∀ other, other ≠ id → s'.items other = s.items other
  own : hashes ≠ [] → s'.items id = some ((s.items id).getD [] ++ mapNodesOf node hashes)
  same : hashes = [] → s' = s

/-- A loop that returns 0 has inserted all of its virtual nodes. -/
theorem addVirtualNodes_inserted (call : AddCall α) (id : BitVec 32) (todo i : Nat)
    (s s' : ConsistHashSelector α) (asc : Ascending ListNode.hash s.availItems)
    (done : addVirtualNodes hash call id todo i s = (0, s')) :
    Inserted s s' id call.node (call.hashesFrom hash i todo) := by
  induction todo generalizing i s with
  | zero =>
      obtain rfl : s = s' := by simpa [addVirtualNodes] using done
      exact ⟨asc, by simp [AddCall.hashesFrom, entriesOf], rfl, rfl, fun _ _ => rfl,
        fun nonempty => absurd rfl nonempty, fun _ => rfl⟩
  | succ todo ih =>
      have split : call.hashesFrom hash i (todo + 1) =
          hash (call.virtualKey i) :: call.hashesFrom hash (i + 1) todo := by
        simp [AddCall.hashesFrom, List.range'_succ]
      have combine {mid : ConsistHashSelector α}
          (rest : addVirtualNodes hash call id todo (i + 1) mid = (0, s'))
          (availEq : mid.availItems = insertToVector s.availItems
            (binarySearchVector compareNodeHash ⟨hash (call.virtualKey i), call.node⟩
              s.availItems).1 ⟨hash (call.virtualKey i), call.node⟩)
          (missed : (binarySearchVector compareNodeHash
            (⟨hash (call.virtualKey i), call.node⟩ : ListNode α) s.availItems).2 ≠ true)
          (itemsEq : mid.items = Function.update s.items id
            (some ((s.items id).getD [] ++ [⟨hash (call.virtualKey i), 1, call.node⟩])))
          (errorEq : mid.errorItems = s.errorItems) (nextEq : mid.nextId = s.nextId) :
          Inserted s s' id call.node (call.hashesFrom hash i (todo + 1)) := by
        have midAsc : Ascending ListNode.hash mid.availItems :=
          availEq ▸ insertToVector_ascending asc missed
        have tail := ih (i + 1) mid midAsc rest
        have ownMid : mid.items id =
            some ((s.items id).getD [] ++ [⟨hash (call.virtualKey i), 1, call.node⟩]) := by
          rw [itemsEq, Function.update_self]
        refine ⟨tail.ascending, ?_, tail.errorItems.trans errorEq, tail.nextId.trans nextEq, ?_, ?_, ?_⟩
        · rw [split]
          have step : mid.availItems.Perm
              (s.availItems ++ [⟨hash (call.virtualKey i), call.node⟩]) :=
            availEq ▸ insertToVector_perm _ _ _
          simpa [entriesOf] using tail.entries.trans (step.append_right _)
        · intro other differs
          rw [tail.others other differs, itemsEq, Function.update_of_ne differs]
        · intro _
          rw [split]
          by_cases empty : call.hashesFrom hash (i + 1) todo = []
          · rw [tail.same empty, ownMid, empty]
            rfl
          · rw [tail.own empty, ownMid]
            simp [mapNodesOf]
        · intro impossible
          rw [split] at impossible
          cases impossible
      unfold addVirtualNodes at done
      dsimp only at done
      by_cases found : (binarySearchVector compareNodeHash
          (⟨hash (call.virtualKey i), call.node⟩ : ListNode α) s.availItems).2 = true
      · rw [if_pos found] at done
        cases done
      · rw [if_neg found] at done
        by_cases first : i = 0
        · rw [if_pos first] at done
          cases old : s.items id with
          | some nodes =>
              rw [old] at done
              cases done
          | none =>
              rw [old] at done
              exact combine done rfl found (by simp [old]) rfl rfl
        · rw [if_neg first] at done
          exact combine done rfl found rfl rfl rfl

/-- Distinct hashes that are new to the ring make the loop return 0. -/
theorem addVirtualNodes_succeeds (call : AddCall α) (id : BitVec 32) (todo i : Nat)
    (s : ConsistHashSelector α) (asc : Ascending ListNode.hash s.availItems)
    (freeId : i = 0 → s.items id = none)
    (distinct : (call.hashesFrom hash i todo).Nodup)
    (fresh : ∀ h ∈ call.hashesFrom hash i todo, ∀ e ∈ s.availItems, e.hash ≠ h) :
    (addVirtualNodes hash call id todo i s).1 = 0 := by
  induction todo generalizing i s with
  | zero => rfl
  | succ todo ih =>
      have split : call.hashesFrom hash i (todo + 1) =
          hash (call.virtualKey i) :: call.hashesFrom hash (i + 1) todo := by
        simp [AddCall.hashesFrom, List.range'_succ]
      rw [split] at distinct fresh
      obtain ⟨notLater, later⟩ := List.nodup_cons.mp distinct
      have missed : ¬ (binarySearchVector compareNodeHash
          (⟨hash (call.virtualKey i), call.node⟩ : ListNode α) s.availItems).2 = true := by
        intro found
        obtain ⟨e, he, same⟩ := (binarySearchVector_found asc).mp found
        exact fresh _ (List.mem_cons_self ..) e he same
      have laterFresh : ∀ h ∈ call.hashesFrom hash (i + 1) todo,
          ∀ e ∈ insertToVector s.availItems (binarySearchVector compareNodeHash
            ⟨hash (call.virtualKey i), call.node⟩ s.availItems).1
            ⟨hash (call.virtualKey i), call.node⟩, e.hash ≠ h := by
        intro h hh e he
        rcases List.mem_append.mp ((insertToVector_perm _ _ _).mem_iff.mp he) with old | new
        · exact fresh h (List.mem_cons_of_mem _ hh) e old
        · obtain rfl := List.mem_singleton.mp new
          rintro rfl
          exact notLater hh
      unfold addVirtualNodes
      dsimp only
      rw [if_neg missed]
      by_cases first : i = 0
      · rw [if_pos first, freeId first]
        exact ih (i + 1) _ (insertToVector_ascending asc missed) (by omega) later laterFresh
      · rw [if_neg first]
        exact ih (i + 1) _ (insertToVector_ascending asc missed) (by omega) later laterFresh

/-- `RemoveItem`'s loop drops exactly the entries with the service's hashes. -/
theorem removeVirtualNodes_eq (node : SelectNode α) (hashes : List Hash)
    (s : ConsistHashSelector α) (asc : Ascending ListNode.hash s.availItems)
    (distinct : hashes.Nodup) (present : ∀ h ∈ hashes, ∃ e ∈ s.availItems, e.hash = h) :
    removeVirtualNodes (mapNodesOf node hashes) s =
      some { s with availItems := s.availItems.filter fun e => decide (e.hash ∉ hashes) } := by
  induction hashes generalizing s with
  | nil => simp [mapNodesOf, removeVirtualNodes]
  | cons h rest ih =>
      obtain ⟨notLater, later⟩ := List.nodup_cons.mp distinct
      have found : (binarySearchVector compareNodeHash (⟨h, node⟩ : ListNode α) s.availItems).2 = true :=
        (binarySearchVector_found asc).mpr (present h (List.mem_cons_self ..))
      have spec := binarySearchVector_spec (v := (⟨h, node⟩ : ListNode α)) asc
      unfold SearchSpec at spec
      rw [if_pos found] at spec
      obtain ⟨hi, hashEq⟩ := spec
      have removed : removeFromVector s.availItems
          (binarySearchVector compareNodeHash ⟨h, node⟩ s.availItems).1 =
          s.availItems.filter fun e => decide (e.hash ≠ h) := by
        unfold removeFromVector
        rw [asc.eraseIdx_eq_filter hi, hashEq]
      have presentLater : ∀ k ∈ rest,
          ∃ e ∈ s.availItems.filter (fun e => decide (e.hash ≠ h)), e.hash = k := by
        intro k hk
        obtain ⟨e, he, same⟩ := present k (List.mem_cons_of_mem _ hk)
        refine ⟨e, List.mem_filter.mpr ⟨he, ?_⟩, same⟩
        have differs : e.hash ≠ h := fun eq => notLater (by rw [← eq, same]; exact hk)
        simpa using differs
      have tail := ih { s with availItems := s.availItems.filter fun e => decide (e.hash ≠ h) }
        (asc.sublist List.filter_sublist) later presentLater
      unfold mapNodesOf at tail ⊢
      rw [List.map_cons, removeVirtualNodes]
      dsimp only
      rw [if_pos rfl, if_pos found, removed, tail, List.filter_filter]
      congr 2
      refine List.filter_congr fun e _ => ?_
      simp [not_or, Bool.and_comm]

end Updates

end MlsImgSearch.Blitz.ServiceSelector
