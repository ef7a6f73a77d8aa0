import MlsImgSearch.Blitz.ServiceSelector
import MlsImgSearch.Blitz.TokenlessServicePool
import MlsImgSearch.Lib.Grouping

/-!
# Keys divided by service

The keys of a request are filed under the id of the service that the selector gives for
them, together with their positions, in two maps.
-/

namespace MlsImgSearch.Blitz.DivideKeys

open Lib.Grouping
open TokenlessServicePool (SelectKey SelectNode)

abbrev Key := List UInt8

/-! ## Maps -/

/-- A `std::map` from ids to vectors. -/
abbrev VectorMap (α : Type) := Int → Option (List α)

section Maps

variable {α : Type}

/-- `map[id].push_back(x)`. -/
def pushBack (map : VectorMap α) (id : Int) (x : α) : VectorMap α :=
  Function.update map id (some ((map id).getD [] ++ [x]))

/-- `map.insert`, which leaves what is there. -/
def insertOne (map : VectorMap α) (id : Int) (x : α) : VectorMap α :=
  match map id with
  | none => Function.update map id (some [x])
  | some _ => map

end Maps

/-- `service_to_keyindex` and `service_to_keys`. -/
structure Maps where
  serviceToKeyindex : VectorMap Int
  serviceToKeys : VectorMap Key

def Maps.empty : Maps := ⟨fun _ => none, fun _ => none⟩

/-- The key is appended to the vectors of an id that is there, or it begins new ones. -/
def Maps.file (maps : Maps) (id i : Int) (key : Key) : Maps :=
  if (maps.serviceToKeys id).isSome then
    ⟨pushBack maps.serviceToKeyindex id i, pushBack maps.serviceToKeys id key⟩
  else ⟨insertOne maps.serviceToKeyindex id i, insertOne maps.serviceToKeys id key⟩

/-! ## Dividing -/

section Divide

variable (select : SelectKey → Option SelectNode)

/-- What `Select` gives for a key, which ends at its first zero. -/
def selectFor (key : Key) : Option SelectNode := select ⟨key.takeWhile (· ≠ 0), 0⟩

/-- A node without a service. -/
def NoData (key : Key) : Prop := selectFor select key = some ⟨none⟩

instance decidableNoData (key : Key) : Decidable (NoData select key) :=
  inferInstanceAs (Decidable (_ = _))

/-- The id of the service that is selected. -/
def serviceOf (key : Key) : Option Int := (selectFor select key).bind SelectNode.data

/-- The id is −1 if `Select` fails. There is no result when the counter overflows. -/
def divideLoop : List Key → Int → Maps → Option (Int × Maps)
  | [], _, maps => some (0, maps)
  | key :: rest, i, maps =>
      if NoData select key then some (-1, maps)
      else if i + 1 < 2 ^ 31 then
        divideLoop rest (i + 1) (maps.file ((serviceOf select key).getD (-1)) i key)
      else none

def divideKeysByService (keys : List Key) (maps : Maps) : Option (Int × Maps) :=
  divideLoop select keys 0 maps

end Divide

/-! ## What is wanted -/

section Wanted

variable (select : SelectKey → Option SelectNode) (keys : List Key)

/-- The positions are divided into ascending lists, the keys stand beside them, and each is filed under
the id of its service. -/
structure Divides (maps : Maps) : Prop where
  total : ∀ i < keys.length, ∃ id list, maps.serviceToKeyindex id = some list ∧ (i : Int) ∈ list
  apart : ∀ (i : Int) id id' list list', maps.serviceToKeyindex id = some list →
    maps.serviceToKeyindex id' = some list' → i ∈ list → i ∈ list' → id = id'
  range : ∀ id list, maps.serviceToKeyindex id = some list → ∀ i ∈ list, 0 ≤ i ∧ i < keys.length
  ascending : ∀ id list, maps.serviceToKeyindex id = some list → list.Pairwise (· < ·)
  sameKeys : ∀ id, (maps.serviceToKeys id).map (List.map some) =
    (maps.serviceToKeyindex id).map (List.map fun i => keys[i.toNat]?)
  filed : ∀ id list, maps.serviceToKeyindex id = some list → ∀ i ∈ list, ∀ key ∈ keys[i.toNat]?,
    serviceOf select key = some id

/-- What 0 promises holds, and 0 is not returned when a key has no service. -/
def Right : Prop :=
  ∃ ret maps, divideKeysByService select keys .empty = some (ret, maps) ∧
    (ret = 0 → Divides select keys maps) ∧
      ((∃ key ∈ keys, serviceOf select key = none) → ret ≠ 0)

/-- Among the first 2^31 keys one has a node without a service; or there are fewer keys, and each has a
service. -/
def Fits : Prop :=
  (∃ i < 2 ^ 31, ∃ key ∈ keys[i]?, NoData select key) ∨
    keys.length < 2 ^ 31 ∧ ∀ key ∈ keys, serviceOf select key ≠ none

end Wanted

/-! ## Filing -/

section Filing

variable {select : SelectKey → Option SelectNode} {maps : Maps} {filed rest : List Key} {key : Key}

/-- The id that a key is filed under. -/
def idOf (select : SelectKey → Option SelectNode) (key : Key) : Int := (serviceOf select key).getD (-1)

/-- The keys for an id, with their positions. -/
def entries (select : SelectKey → Option SelectNode) (keys : List Key) (id : Int) : List (Key × Nat) :=
  fiber (fun entry : Key × Nat => idOf select entry.1) id keys.zipIdx

theorem entries_concat (keys : List Key) (key : Key) (id : Int) :
    entries select (keys ++ [key]) id =
      entries select keys id ++ if idOf select key = id then [(key, keys.length)] else [] := by
  rw [entries, List.zipIdx_append, fiber, List.filter_append]
  congr 1
  by_cases same : idOf select key = id <;> simp [same]

/-- A vector that is in a map only if it is not empty. -/
def asVector {α : Type} (list : List α) : Option (List α) := if list = [] then none else some list

/-- The maps hold the keys that were filed, and their positions. -/
structure Files (select : SelectKey → Option SelectNode) (keys : List Key) (maps : Maps) : Prop where
  index : ∀ id, maps.serviceToKeyindex id =
    asVector ((entries select keys id).map fun entry => (entry.2 : Int))
  keys : ∀ id, maps.serviceToKeys id = asVector ((entries select keys id).map Prod.fst)

theorem files_empty (select : SelectKey → Option SelectNode) : Files select [] .empty :=
  ⟨fun _ => rfl, fun _ => rfl⟩

theorem pushBack_asVector {α : Type} {map : VectorMap α} {lists : Int → List α}
    (isMap : ∀ id, map id = asVector (lists id)) (id : Int) (x : α) (id' : Int) :
    pushBack map id x id' = asVector (lists id' ++ if id = id' then [x] else []) := by
  by_cases same : id = id'
  · subst same
    rw [pushBack, Function.update_self, isMap, if_pos rfl, asVector, asVector,
      if_neg (List.append_ne_nil_of_right_ne_nil _ (List.cons_ne_nil x []))]
    by_cases empty : lists id = []
    · rw [if_pos empty, empty]
      rfl
    · rw [if_neg empty]
      rfl
  · rw [pushBack, Function.update_of_ne (Ne.symm same), isMap, if_neg same, List.append_nil]

/-- Where nothing is, inserting is appending. -/
theorem insertOne_eq {α : Type} {map : VectorMap α} {id : Int} (absent : map id = none) (x : α) :
    insertOne map id x = pushBack map id x := by
  rw [insertOne, absent, pushBack, absent]
  rfl

theorem Files.file (files : Files select filed maps) (key : Key) :
    Files select (filed ++ [key]) (maps.file (idOf select key) filed.length key) := by
  have pushes : maps.file (idOf select key) filed.length key =
      ⟨pushBack maps.serviceToKeyindex (idOf select key) filed.length,
        pushBack maps.serviceToKeys (idOf select key) key⟩ := by
    rw [Maps.file]
    split
    · rfl
    · rename_i absent
      have noKeys : maps.serviceToKeys (idOf select key) = none := Option.not_isSome_iff_eq_none.mp absent
      have empty : entries select filed (idOf select key) = [] := by
        rw [files.keys, asVector] at noKeys
        by_contra some'
        rw [if_neg (by simpa using some')] at noKeys
        cases noKeys
      have noIndex : maps.serviceToKeyindex (idOf select key) = none := by
        rw [files.index, empty]
        rfl
      rw [insertOne_eq noKeys, insertOne_eq noIndex]
  rw [pushes]
  constructor
  · intro id
    show pushBack _ _ _ id = _
    rw [pushBack_asVector files.index, entries_concat, List.map_append]
    split <;> rfl
  · intro id
    show pushBack _ _ _ id = _
    rw [pushBack_asVector files.keys, entries_concat, List.map_append]
    split <;> rfl

/-- The loop stops at the first node without a service, or when the counter overflows. -/
theorem divideLoop_spec (rest : List Key) (files : Files select filed maps)
    (small : filed.length < 2 ^ 31) :
    match rest.findIdx? fun key => NoData select key with
    | some i =>
        if filed.length + i < 2 ^ 31 then
          ∃ maps', divideLoop select rest filed.length maps = some (-1, maps')
        else divideLoop select rest filed.length maps = none
    | none =>
        if filed.length + rest.length < 2 ^ 31 then
          ∃ maps', divideLoop select rest filed.length maps = some (0, maps') ∧
            Files select (filed ++ rest) maps'
        else divideLoop select rest filed.length maps = none := by
  induction rest generalizing filed maps with
  | nil =>
      rw [List.findIdx?_nil]
      dsimp only
      rw [List.length_nil, Nat.add_zero, if_pos small, List.append_nil]
      exact ⟨maps, rfl, files⟩
  | cons key rest ih =>
      rw [List.findIdx?_cons, divideLoop]
      by_cases noData : NoData select key
      · rw [if_pos (decide_eq_true noData), if_pos noData]
        dsimp only
        rw [Nat.add_zero, if_pos small]
        exact ⟨maps, rfl⟩
      · rw [if_neg (by simpa using noData), if_neg noData]
        by_cases more : (filed.length : Int) + 1 < 2 ^ 31
        · have length : (filed ++ [key]).length = filed.length + 1 := by
            rw [List.length_append, List.length_singleton]
          have later := ih (files.file key) (by omega)
          have next : ((filed.length + 1 : Nat) : Int) = filed.length + 1 := by omega
          rw [length, next, List.append_assoc, List.singleton_append] at later
          rw [if_pos more]
          cases found : rest.findIdx? fun key => NoData select key with
          | none =>
              rw [found] at later
              dsimp only [Option.map_none] at later ⊢
              rwa [Nat.add_assoc, Nat.add_comm 1] at later
          | some i =>
              rw [found] at later
              dsimp only [Option.map_some] at later ⊢
              rwa [Nat.add_assoc, Nat.add_comm 1] at later
        · rw [if_neg more]
          cases found : rest.findIdx? fun key => NoData select key with
          | none =>
              dsimp only [Option.map_none]
              rw [List.length_cons, if_neg (by omega)]
          | some i =>
              dsimp only [Option.map_some]
              rw [if_neg (by omega)]

end Filing

/-! ## All keys -/

section All

variable {select : SelectKey → Option SelectNode} {maps : Maps} {keys : List Key} {key : Key} {id : Int}

theorem mem_entries {i : Nat} :
    (key, i) ∈ entries select keys id ↔ keys[i]? = some key ∧ idOf select key = id := by
  rw [entries, fiber, List.mem_filter, List.mk_mem_zipIdx_iff_getElem?, decide_eq_true_eq]

theorem entries_ascending (select : SelectKey → Option SelectNode) (keys : List Key) (id : Int) :
    (entries select keys id).Pairwise fun entry entry' => entry.2 < entry'.2 := by
  have whole : (keys.zipIdx.map Prod.snd).Pairwise (· < ·) := by
    rw [List.zipIdx_map_snd]
    exact List.pairwise_lt_range'
  exact (List.pairwise_map.mp whole).filter _

/-- A vector in the map of positions comes from the entries of its id. -/
theorem Files.mem_index (files : Files select keys maps) {list : List Int} {i : Int}
    (isList : maps.serviceToKeyindex id = some list) (member : i ∈ list) :
    ∃ key, ∃ k : Nat, i = k ∧ keys[k]? = some key ∧ idOf select key = id := by
  rw [files.index, asVector] at isList
  obtain ⟨-, isList⟩ := Option.ite_none_left_eq_some.mp isList
  obtain rfl := Option.some.inj isList
  obtain ⟨⟨key, k⟩, isEntry, rfl⟩ := List.mem_map.mp member
  exact ⟨key, k, rfl, mem_entries.mp isEntry⟩

theorem map_asVector {α β γ : Type} {xs : List α} {ys : List β} {f : α → γ} {g : β → γ}
    (same : xs.map f = ys.map g) : (asVector xs).map (List.map f) = (asVector ys).map (List.map g) := by
  have empty : xs = [] ↔ ys = [] := by
    rw [← List.map_eq_nil_iff (f := f), same, List.map_eq_nil_iff]
  by_cases isEmpty : ys = []
  · rw [asVector, asVector, if_pos (empty.mpr isEmpty), if_pos isEmpty]
    rfl
  · rw [asVector, asVector, if_neg (mt empty.mp isEmpty), if_neg isEmpty]
    exact congrArg some same

/-- If all keys have services, they are divided. -/
theorem Files.divides (files : Files select keys maps)
    (served : ∀ key ∈ keys, serviceOf select key ≠ none) : Divides select keys maps where
  total i inside := by
    have found : keys[i]? = some keys[i] := List.getElem?_eq_getElem inside
    have isEntry : (keys[i], i) ∈ entries select keys (idOf select keys[i]) :=
      mem_entries.mpr ⟨found, rfl⟩
    have member := List.mem_map_of_mem (f := fun entry : Key × Nat => (entry.2 : Int)) isEntry
    refine ⟨idOf select keys[i], _, ?_, member⟩
    rw [files.index, asVector, if_neg (List.ne_nil_of_mem member)]
  apart i id id' list list' isList isList' member member' := by
    obtain ⟨key, k, rfl, found, rfl⟩ := files.mem_index isList member
    obtain ⟨key', k', same, found', rfl⟩ := files.mem_index isList' member'
    obtain rfl := Int.ofNat.inj same
    obtain rfl := Option.some.inj (found.symm.trans found')
    rfl
  range id list isList i member := by
    obtain ⟨key, k, rfl, found, -⟩ := files.mem_index isList member
    have inside := (List.getElem?_eq_some_iff.mp found).1
    omega
  ascending id list isList := by
    rw [files.index, asVector] at isList
    obtain ⟨-, isList⟩ := Option.ite_none_left_eq_some.mp isList
    obtain rfl := Option.some.inj isList
    refine List.pairwise_map.mpr ((entries_ascending select keys id).imp fun less => ?_)
    exact Int.ofNat_lt.mpr less
  sameKeys id := by
    rw [files.keys, files.index]
    refine map_asVector ?_
    rw [List.map_map, List.map_map]
    refine List.map_congr_left ?_
    rintro ⟨key, i⟩ isEntry
    exact (mem_entries.mp isEntry).1.symm
  filed id list isList i member key isKey := by
    obtain ⟨key', k, rfl, found, isId⟩ := files.mem_index isList member
    obtain rfl : key' = key := Option.some.inj (found.symm.trans isKey)
    obtain ⟨service, isService⟩ := Option.ne_none_iff_exists'.mp
      (served key' (List.mem_of_getElem? found))
    rw [idOf, isService] at isId
    rw [isService, ← isId]
    rfl

/-- A node without a service among the first 2^31 keys. -/
def Stops (select : SelectKey → Option SelectNode) (keys : List Key) : Prop :=
  ∃ i < 2 ^ 31, ∃ key ∈ keys[i]?, NoData select key

/-- How the loop over all keys ends. -/
theorem divide_cases (select : SelectKey → Option SelectNode) (keys : List Key) :
    (Stops select keys ∧ ∃ maps, divideKeysByService select keys .empty = some (-1, maps)) ∨
      (¬ Stops select keys ∧ keys.length < 2 ^ 31 ∧
        ∃ maps, divideKeysByService select keys .empty = some (0, maps) ∧ Files select keys maps) ∨
      (¬ Stops select keys ∧ ¬ keys.length < 2 ^ 31 ∧
        divideKeysByService select keys .empty = none) := by
  have spec := divideLoop_spec keys (files_empty select) (by decide)
  rw [List.nil_append, List.length_nil, Nat.zero_add] at spec
  cases found : keys.findIdx? fun key => NoData select key with
  | some i =>
      rw [found] at spec
      dsimp only at spec
      rw [Nat.zero_add] at spec
      obtain ⟨inside, noData, first⟩ := List.findIdx?_eq_some_iff_getElem.mp found
      by_cases early : i < 2 ^ 31
      · rw [if_pos early] at spec
        exact Or.inl ⟨⟨i, early, keys[i], List.getElem?_eq_getElem inside, of_decide_eq_true noData⟩,
          spec⟩
      · rw [if_neg early] at spec
        refine Or.inr (Or.inr ⟨?_, by omega, spec⟩)
        rintro ⟨j, small, key, isKey, other⟩
        obtain ⟨before, rfl⟩ := List.getElem?_eq_some_iff.mp isKey
        exact first j (by omega) (decide_eq_true other)
  | none =>
      rw [found] at spec
      dsimp only at spec
      have noStop : ¬ Stops select keys := by
        rintro ⟨i, -, key, isKey, noData⟩
        have absent := List.findIdx?_eq_none_iff.mp found key (List.mem_of_getElem? isKey)
        exact of_decide_eq_false absent noData
      by_cases small : keys.length < 2 ^ 31
      · rw [if_pos small] at spec
        exact Or.inr (Or.inl ⟨noStop, small, spec⟩)
      · rw [if_neg small] at spec
        exact Or.inr (Or.inr ⟨noStop, small, spec⟩)

theorem right_of_fits (fits : Fits select keys) : Right select keys := by
  rcases divide_cases select keys with ⟨-, maps, divided⟩ | ⟨noStop, small, maps, divided, files⟩ |
    ⟨noStop, large, -⟩
  · exact ⟨-1, maps, divided, nofun, fun _ => by decide⟩
  · rcases fits with stops | ⟨-, served⟩
    · exact absurd stops noStop
    · refine ⟨0, maps, divided, fun _ => files.divides served, ?_⟩
      rintro ⟨key, member, none'⟩
      exact absurd none' (served key member)
  · rcases fits with stops | ⟨small, -⟩
    · exact absurd stops noStop
    · exact absurd small large

theorem fits_of_right (right : Right select keys) : Fits select keys := by
  obtain ⟨ret, maps, divided, -, refuses⟩ := right
  rcases divide_cases select keys with ⟨stops, -⟩ | ⟨-, small, maps', divided', -⟩ |
    ⟨-, -, noResult⟩
  · exact Or.inl stops
  · obtain ⟨rfl, -⟩ := Prod.mk.inj (Option.some.inj (divided'.symm.trans divided))
    exact Or.inr ⟨small, fun key member none' => refuses ⟨key, member, none'⟩ rfl⟩
  · rw [noResult] at divided
    cases divided

/-- Keys are divided as promised exactly if a node without a service stops the loop, or if all keys
have services and their number fits the counter. -/
theorem divideKeysByService_right_iff (select : SelectKey → Option SelectNode) (keys : List Key) :
    Right select keys ↔ Fits select keys :=
  ⟨fits_of_right, right_of_fits⟩

/-- A selector that fails for every key: the key is filed under −1, and 0 is returned. -/
theorem failing_selector_filed :
    (divideKeysByService (fun _ => none) [[107]] .empty).map (fun (ret, maps) =>
        (ret, maps.serviceToKeyindex (-1), maps.serviceToKeys (-1))) =
      some (0, some [0], some [[107]]) ∧ ¬ Right (fun _ => none) [[107]] := by
  have divided : ∃ maps, divideKeysByService (fun _ => none) [[107]] .empty = some (0, maps) :=
    ⟨_, rfl⟩
  refine ⟨by decide, ?_⟩
  rintro ⟨ret, maps, divided', -, refuses⟩
  obtain ⟨maps', divided⟩ := divided
  obtain ⟨rfl, -⟩ := Prod.mk.inj (Option.some.inj (divided.symm.trans divided'))
  exact refuses ⟨[107], List.mem_cons_self, rfl⟩ rfl

end All

/-! ## Consistent hashing -/

section Ring

open ServiceSelector (ConsistHashSelector Hash ListNode selectFrom)

variable {hash : List Char → Hash} {s : ConsistHashSelector (Option Int)}

/-- `ConsistHashSelector::Select` for nodes whose data are services. -/
def ringSelect (hash : List Char → Hash) (s : ConsistHashSelector (Option Int)) (key : SelectKey) :
    Option SelectNode :=
  (ServiceSelector.select hash (key.mainKey.map fun c => Char.ofNat c.toNat) s).map fun node =>
    ⟨node.data⟩

/-- Something is selected from a vector with something in it. -/
theorem selectFrom_mem (keyHash : Hash) {vec : List (ListNode (Option Int))} (some' : vec ≠ []) :
    ∃ node ∈ vec, selectFrom keyHash vec = some node := by
  have inside := Nat.mod_lt (ServiceSelector.binarySearchVector ServiceSelector.compareNodeHash
    ⟨keyHash, { data := default }⟩ vec).1 (List.length_pos_of_ne_nil some')
  exact ⟨_, List.getElem_mem inside, List.getElem?_eq_getElem inside⟩

/-- What a ring with a node in it selects is one of its nodes. -/
theorem ringSelect_mem (hash : List Char → Hash) (key : SelectKey)
    (node' : s.availItems ++ s.errorItems ≠ []) :
    ∃ node ∈ s.availItems ++ s.errorItems, ringSelect hash s key = some ⟨node.node.data⟩ := by
  rw [ringSelect, ServiceSelector.select]
  by_cases noAvail : s.availItems = []
  · rw [noAvail, List.nil_append] at node'
    obtain ⟨node, member, selected⟩ := selectFrom_mem
      (hash (key.mainKey.map fun c => Char.ofNat c.toNat)) node'
    rw [if_pos (List.isEmpty_iff.mpr noAvail), if_neg (mt List.isEmpty_iff.mp node'), selected]
    exact ⟨node, List.mem_append_right _ member, rfl⟩
  · obtain ⟨node, member, selected⟩ := selectFrom_mem
      (hash (key.mainKey.map fun c => Char.ofNat c.toNat)) noAvail
    rw [if_neg (mt List.isEmpty_iff.mp noAvail), selected]
    exact ⟨node, List.mem_append_left _ member, rfl⟩

theorem ringSelect_empty (key : SelectKey) (noNode : s.availItems ++ s.errorItems = []) :
    ringSelect hash s key = none := by
  obtain ⟨noAvail, noError⟩ := List.append_eq_nil_iff.mp noNode
  rw [ringSelect, ServiceSelector.select, noAvail, noError]
  rfl

/-- With services in the ring every key has one, and without nodes no key has one. -/
theorem serviceOf_ring (services : ∀ node ∈ s.availItems ++ s.errorItems, node.node.data ≠ none)
    (key : Key) : serviceOf (ringSelect hash s) key ≠ none ↔ s.availItems ++ s.errorItems ≠ [] := by
  rw [serviceOf, selectFor]
  constructor
  · intro served noNode
    rw [ringSelect_empty _ noNode] at served
    exact served rfl
  · intro node'
    obtain ⟨node, member, selected⟩ :=
      ringSelect_mem hash ⟨key.takeWhile (· ≠ 0), 0⟩ node'
    rw [selected]
    exact services node member

/-- A ring of services gives no node without one. -/
theorem not_noData_ring (services : ∀ node ∈ s.availItems ++ s.errorItems, node.node.data ≠ none)
    (key : Key) : ¬ NoData (ringSelect hash s) key := by
  intro noData
  rw [NoData, selectFor] at noData
  by_cases noNode : s.availItems ++ s.errorItems = []
  · rw [ringSelect_empty _ noNode] at noData
    cases noData
  · obtain ⟨node, member, selected⟩ :=
      ringSelect_mem hash ⟨key.takeWhile (· ≠ 0), 0⟩ noNode
    rw [selected] at noData
    exact services node member (congrArg SelectNode.data (Option.some.inj noData))

/-- Over a ring of services the keys are divided exactly if the ring has a node or there are no keys,
and their number fits the counter. -/
theorem ring_right_iff (services : ∀ node ∈ s.availItems ++ s.errorItems, node.node.data ≠ none)
    (keys : List Key) :
    Right (ringSelect hash s) keys ↔
      keys.length < 2 ^ 31 ∧ (s.availItems ++ s.errorItems ≠ [] ∨ keys = []) := by
  constructor
  · intro right
    rcases fits_of_right right with ⟨-, -, key, -, noData⟩ | ⟨small, served⟩
    · exact absurd noData (not_noData_ring services key)
    · refine ⟨small, ?_⟩
      cases keys with
      | nil => exact Or.inr rfl
      | cons key rest =>
          exact Or.inl ((serviceOf_ring services key).mp (served key List.mem_cons_self))
  · rintro ⟨small, node' | rfl⟩
    · exact right_of_fits (Or.inr ⟨small, fun key _ => (serviceOf_ring services key).mpr node'⟩)
    · exact right_of_fits (Or.inr ⟨small, nofun⟩)

end Ring

end MlsImgSearch.Blitz.DivideKeys
