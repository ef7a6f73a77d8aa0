import Mathlib.Data.UInt
import Mathlib.Logic.Function.Basic
import MlsImgSearch.Lib.Int32

/-!
# Routing to a connection pool

Each pool serves a segment of the keys, for reading or for writing. The manager routes a
key to one of the available pools that serve it. Pools and the units behind them are
counted references.
-/

namespace MlsImgSearch.Db.PoolRouting

open Lib.Int32

variable {P U : Type}

/-! ## Pools and units -/

/-- `unit` is null before a pool is initialised; `available` is what the connection pool under a
unit says, if there is one. -/
structure Heap (P U : Type) where
  poolRefs : P → Int
  unit : P → Option U
  unitRefs : U → Int
  available : U → Option Bool

namespace Heap

/-- Whether the unit behind a pool is available. -/
def Available (h : Heap P U) (refPool : P) : Prop :=
  (h.unit refPool).bind h.available = some true

/-- Only references to units are added. -/
structure Later (h h' : Heap P U) : Prop where
  poolRefs : h'.poolRefs = h.poolRefs
  unit : h'.unit = h.unit
  available : h'.available = h.available
  unitRefs : ∀ unit, h.unitRefs unit ≤ h'.unitRefs unit

section Later

variable {h h' h'' : Heap P U}

theorem Later.refl (h : Heap P U) : Later h h := ⟨rfl, rfl, rfl, fun _ => Int.le_refl _⟩

theorem Later.trans (first : Later h h') (second : Later h' h'') : Later h h'' :=
  ⟨second.poolRefs.trans first.poolRefs, second.unit.trans first.unit,
    second.available.trans first.available,
    fun unit => Int.le_trans (first.unitRefs unit) (second.unitRefs unit)⟩

theorem Later.availableIff (later : Later h h') (refPool : P) :
    h'.Available refPool ↔ h.Available refPool := by
  rw [Available, Available, later.unit, later.available]

end Later

def addPoolRef [DecidableEq P] (h : Heap P U) (refPool : P) : Heap P U :=
  { h with poolRefs := Function.update h.poolRefs refPool (h.poolRefs refPool + 1) }

variable [DecidableEq U] (h : Heap P U)

def addUnitRef (unit : U) : Heap P U :=
  { h with unitRefs := Function.update h.unitRefs unit (h.unitRefs unit + 1) }

/-- `CMysqlRefPool::Get`. -/
def get (refPool : P) : Option U × Heap P U :=
  match h.unit refPool with
  | none => (none, h)
  | some unit => (some unit, h.addUnitRef unit)

/-- `pRefPool->Get()->IsAvailable()`; `none` for a call on a null pointer. -/
def isAvailable (refPool : P) : Option (Bool × Heap P U) :=
  match h.get refPool with
  | (none, _) => none
  | (some unit, h) => (h.available unit).map fun available => (available, h)

end Heap

/-! ## The manager -/

structure PoolDesc (P : Type) where
  pRefPool : P
  rw : UInt32
  segmentLo : UInt64
  segmentHi : UInt64

/-- `pools` is null before the first `Init`. -/
structure PoolMgr (P : Type) where
  pools : Option (List (PoolDesc P))
  count : Nat
  counted : count = (pools.getD []).length
  fits : count < 2 ^ 32

namespace PoolMgr

variable [DecidableEq U]

/-- The constructor. -/
def new : PoolMgr P := ⟨none, 0, rfl, by decide⟩

/-- The descriptors up to `count`. -/
def descs (mgr : PoolMgr P) : List (PoolDesc P) := mgr.pools.getD []

/-- `none` if the new array is too small: its length is a number of 32 bits. -/
def init [DecidableEq P] (mgr : PoolMgr P) (h : Heap P U) (pools : List (PoolDesc P))
    (addRef : Bool) : Option (PoolMgr P × Heap P U) :=
  if mgr.pools = none ∧ 0 < mgr.count then some (mgr, h)
  else if fits : (mgr.descs ++ pools).length < 2 ^ 32 then
    some (⟨some (mgr.descs ++ pools), _, rfl, fits⟩,
      if addRef then pools.foldl (fun h desc => h.addPoolRef desc.pRefPool) h else h)
  else none

/-- The first loop of `GetPool`. -/
def countLoop (rw : UInt32) (key : UInt64) :
    List (PoolDesc P) → Nat → Heap P U → Option (Nat × Heap P U)
  | [], total, h => some (total, h)
  | desc :: rest, total, h =>
      if key < desc.segmentLo then countLoop rw key rest total h
      else if desc.segmentHi < key then countLoop rw key rest total h
      else if desc.rw &&& rw = 0 then countLoop rw key rest total h
      else
        match h.isAvailable desc.pRefPool with
        | none => none
        | some (false, h) => countLoop rw key rest total h
        | some (true, h) => countLoop rw key rest (total + 1) h

/-- The second loop. -/
def pickLoop (rw : UInt32) (key : UInt64) (tag : Nat) :
    List (PoolDesc P) → Nat → Heap P U → Option (Option P × Heap P U)
  | [], _, h => some (none, h)
  | desc :: rest, cnt, h =>
      if key < desc.segmentLo then pickLoop rw key tag rest cnt h
      else if desc.segmentHi < key then pickLoop rw key tag rest cnt h
      else if desc.rw &&& rw = 0 then pickLoop rw key tag rest cnt h
      else
        match h.isAvailable desc.pRefPool with
        | none => none
        | some (false, h) => pickLoop rw key tag rest cnt h
        | some (true, h) =>
            if cnt = tag then some (some desc.pRefPool, h) else pickLoop rw key tag rest (cnt + 1) h

def getPool (mgr : PoolMgr P) (h : Heap P U) (rw : UInt32) (key : UInt64) :
    Option (Option P × Heap P U) :=
  match countLoop rw key mgr.descs 0 h with
  | none => none
  | some (total, h) =>
      if total = 0 then some (none, h)
      else pickLoop rw key (key.toNat % total) mgr.descs 0 h

/-- The method `Get`. -/
def get (mgr : PoolMgr P) (h : Heap P U) (rw : UInt32) (key : UInt64) :
    Option (Option U × Heap P U) :=
  match mgr.getPool h rw key with
  | none => none
  | some (none, h) => some (none, h)
  | some (some refPool, h) => some (h.get refPool)

/-- The loop of `GetSampleKey`, with the keys that it writes. -/
def sampleKeys (rw : UInt32) : List (PoolDesc P) → List UInt64
  | [] => []
  | desc :: rest =>
      if desc.rw &&& rw = 0 then sampleKeys rw rest
      else (desc.segmentLo + desc.segmentHi) / 2 :: sampleKeys rw rest

/-- What is returned and what is written into `key`, which has `count` places if it is not null. -/
def getSampleKey (mgr : PoolMgr P) (rw : UInt32) (key : Option Nat) : Int × List UInt64 :=
  match key with
  | none => (int32 mgr.count, [])
  | some count =>
      if count < mgr.count then (-1, [])
      else (int32 (sampleKeys rw mgr.descs).length, sampleKeys rw mgr.descs)

end PoolMgr

/-- Calls of `Init` one after the other. -/
def initAll [DecidableEq P] :
    PoolMgr P → Heap P U → List (List (PoolDesc P) × Bool) → Option (PoolMgr P × Heap P U)
  | mgr, h, [] => some (mgr, h)
  | mgr, h, (pools, addRef) :: rest =>
      match mgr.init h pools addRef with
      | none => none
      | some (mgr, h) => initAll mgr h rest

/-! ## What is wanted -/

/-- Whether a pool is for the key. -/
def Serves (rw : UInt32) (key : UInt64) (desc : PoolDesc P) : Prop :=
  desc.segmentLo ≤ key ∧ key ≤ desc.segmentHi ∧ desc.rw &&& rw ≠ 0

instance decidableServes (rw : UInt32) (key : UInt64) (desc : PoolDesc P) :
    Decidable (Serves rw key desc) := inferInstanceAs (Decidable (_ ∧ _ ∧ _))

instance decidableAvailable (h : Heap P U) (refPool : P) : Decidable (h.Available refPool) :=
  inferInstanceAs (Decidable (_ = _))

/-- The pool is available and for the key, and it is null only if there is no such pool. -/
def Routes (h : Heap P U) (rw : UInt32) (key : UInt64) (descs : List (PoolDesc P)) :
    Option P → Prop
  | some refPool => ∃ desc ∈ descs, desc.pRefPool = refPool ∧ Serves rw key desc ∧
      h.Available refPool
  | none => ∀ desc ∈ descs, Serves rw key desc → ¬ h.Available desc.pRefPool

/-- The reference counts are those of `h`. -/
structure SameRefs (h h' : Heap P U) : Prop where
  poolRefs : h'.poolRefs = h.poolRefs
  unitRefs : h'.unitRefs = h.unitRefs

/-- The keys belong to the pools for `rw`, in their order. -/
def Inside (rw : UInt32) (descs : List (PoolDesc P)) (keys : List UInt64) : Prop :=
  ∀ (i : Nat) (key : UInt64), keys[i]? = some key → ∃ desc : PoolDesc P,
    (descs.filter fun desc => desc.rw &&& rw ≠ 0)[i]? = some desc ∧
      desc.segmentLo ≤ key ∧ key ≤ desc.segmentHi

/-- `GetPool` and `Get` are right for `key`, and `GetSampleKey` for `sample`. -/
structure Right [DecidableEq U] (mgr : PoolMgr P) (h : Heap P U) (rw : UInt32) (key : UInt64)
    (sample : Option Nat) : Prop where
  getPool : ∃ pool h', mgr.getPool h rw key = some (pool, h') ∧
    Routes h rw key mgr.descs pool ∧ SameRefs h h'
  get : ∃ unit h', mgr.get h rw key = some (unit, h') ∧
    ∀ u, unit = some u → SameRefs (h.addUnitRef u) h'
  getSampleKey : Inside rw mgr.descs (mgr.getSampleKey rw sample).2

/-- The bounds are in order and their sum is a number of 64 bits. -/
def HasMidpoint (desc : PoolDesc P) : Prop :=
  desc.segmentLo ≤ desc.segmentHi ∧ desc.segmentLo.toNat + desc.segmentHi.toNat < 2 ^ 64

/-- There are less than 2 ^ 32 pools, none of which is for the key, and each pool whose midpoint is
written has one. -/
structure Unserved (descs : List (PoolDesc P)) (rw : UInt32) (key : UInt64)
    (sample : Option Nat) : Prop where
  fits : descs.length < 2 ^ 32
  unserved : ∀ desc ∈ descs, ¬ Serves rw key desc
  midpoints : ∀ count ∈ sample, descs.length ≤ count → ∀ desc ∈ descs, desc.rw &&& rw ≠ 0 →
    HasMidpoint desc

/-! ## The pools for a key -/

section Matching

variable {h h' : Heap P U} {rw : UInt32} {key : UInt64} {desc : PoolDesc P}
  {rest descs : List (PoolDesc P)}

/-- The three tests of a loop. -/
theorem serves_tests {α : Sort _} (yes no : α) :
    (if key < desc.segmentLo then no else if desc.segmentHi < key then no
      else if desc.rw &&& rw = 0 then no else yes) = if Serves rw key desc then yes else no := by
  by_cases low : key < desc.segmentLo
  · have unserved : ¬ Serves rw key desc := fun serves => UInt64.not_le.mpr low serves.1
    rw [if_pos low, if_neg unserved]
  · by_cases high : desc.segmentHi < key
    · have unserved : ¬ Serves rw key desc := fun serves => UInt64.not_le.mpr high serves.2.1
      rw [if_neg low, if_pos high, if_neg unserved]
    · by_cases other : desc.rw &&& rw = 0
      · have unserved : ¬ Serves rw key desc := fun serves => serves.2.2 other
        rw [if_neg low, if_neg high, if_pos other, if_neg unserved]
      · have serves : Serves rw key desc := ⟨UInt64.not_lt.mp low, UInt64.not_lt.mp high, other⟩
        rw [if_neg low, if_neg high, if_neg other, if_pos serves]

/-- The pools that a loop counts. -/
def matching (h : Heap P U) (rw : UInt32) (key : UInt64) (descs : List (PoolDesc P)) :
    List (PoolDesc P) :=
  descs.filter fun desc => Serves rw key desc ∧ h.Available desc.pRefPool

theorem matching_later (later : h.Later h') :
    matching h' rw key descs = matching h rw key descs := by
  simp [matching, later.availableIff]

theorem matching_cons_unserved (unserved : ¬ Serves rw key desc) :
    matching h rw key (desc :: rest) = matching h rw key rest := by
  simp [matching, unserved]

theorem matching_cons (serves : Serves rw key desc) {available : Bool}
    (said : h.Available desc.pRefPool ↔ available = true) :
    matching h rw key (desc :: rest) =
      if available then desc :: matching h rw key rest else matching h rw key rest := by
  cases available with
  | false => simp [matching, said]
  | true => simp [matching, serves, said]

/-- A loop over the pools adds references if one of them is for the key. -/
structure Asked (rw : UInt32) (key : UInt64) (descs : List (PoolDesc P)) (h h' : Heap P U) :
    Prop where
  later : h.Later h'
  leaks : (∃ desc ∈ descs, Serves rw key desc) → ∃ unit, h.unitRefs unit < h'.unitRefs unit

theorem Asked.cons_unserved (unserved : ¬ Serves rw key desc) (asked : Asked rw key rest h h') :
    Asked rw key (desc :: rest) h h' := by
  refine ⟨asked.later, fun serving => asked.leaks ?_⟩
  obtain ⟨other, member, serves⟩ := serving
  rcases List.mem_cons.mp member with rfl | member
  · exact absurd serves unserved
  · exact ⟨other, member, serves⟩

theorem Asked.of_lt (later : h.Later h') (lt : ∃ unit, h.unitRefs unit < h'.unitRefs unit) :
    Asked rw key descs h h' := ⟨later, fun _ => lt⟩

theorem lt_later {h₁ : Heap P U} (lt : ∃ unit, h.unitRefs unit < h₁.unitRefs unit)
    (later : h₁.Later h') : ∃ unit, h.unitRefs unit < h'.unitRefs unit := by
  obtain ⟨unit, lt⟩ := lt
  exact ⟨unit, Int.lt_of_lt_of_le lt (later.unitRefs unit)⟩

end Matching

section Routing

variable [DecidableEq U]

namespace Heap

variable {h h' : Heap P U} {refPool : P} {available : Bool}

theorem addUnitRef_later (h : Heap P U) (unit : U) : Later h (h.addUnitRef unit) := by
  refine ⟨rfl, rfl, rfl, fun other => ?_⟩
  by_cases same : other = unit
  · subst same
    simp [addUnitRef]
  · simp [addUnitRef, same]

/-- Asking for availability leaves a reference behind. -/
theorem isAvailable_some (asked : h.isAvailable refPool = some (available, h')) :
    Later h h' ∧ (h.Available refPool ↔ available = true) ∧
      ∃ unit, h.unitRefs unit < h'.unitRefs unit := by
  cases isUnit : h.unit refPool with
  | none => simp [isAvailable, Heap.get, isUnit] at asked
  | some unit =>
      rw [isAvailable, Heap.get, isUnit] at asked
      obtain ⟨said, isAvailable, same⟩ := Option.map_eq_some_iff.mp asked
      obtain ⟨rfl, rfl⟩ := Prod.mk.inj same
      have isAvailable' : h.available unit = some said := isAvailable
      refine ⟨addUnitRef_later h unit, by simp [Available, isUnit, isAvailable'], unit, ?_⟩
      simp [addUnitRef]

end Heap

namespace PoolMgr

variable {h h' : Heap P U} {rw : UInt32} {key : UInt64} {descs : List (PoolDesc P)}
  {pool : Option P} {total total' tag cnt : Nat}

theorem countLoop_some (counted : countLoop rw key descs total h = some (total', h')) :
    Asked rw key descs h h' ∧ total' = total + (matching h rw key descs).length := by
  induction descs generalizing total h with
  | nil =>
      obtain ⟨rfl, rfl⟩ := Prod.mk.inj (Option.some.inj counted)
      exact ⟨⟨.refl h, nofun⟩, rfl⟩
  | cons desc rest ih =>
      rw [countLoop, serves_tests] at counted
      by_cases serves : Serves rw key desc
      · rw [if_pos serves] at counted
        cases said : h.isAvailable desc.pRefPool with
        | none => simp [said] at counted
        | some answer =>
            obtain ⟨available, h₁⟩ := answer
            obtain ⟨later, isAvailable, lt⟩ := Heap.isAvailable_some said
            rw [matching_cons serves isAvailable]
            cases available with
            | false =>
                obtain ⟨asked, isTotal⟩ := ih (by simpa [said] using counted)
                rw [matching_later later] at isTotal
                exact ⟨.of_lt (later.trans asked.later) (lt_later lt asked.later), isTotal⟩
            | true =>
                obtain ⟨asked, isTotal⟩ := ih (by simpa [said] using counted)
                rw [matching_later later] at isTotal
                refine ⟨.of_lt (later.trans asked.later) (lt_later lt asked.later), ?_⟩
                rw [if_pos rfl, List.length_cons]
                omega
      · rw [if_neg serves] at counted
        obtain ⟨asked, isTotal⟩ := ih counted
        rw [matching_cons_unserved serves]
        exact ⟨asked.cons_unserved serves, isTotal⟩

/-- The second loop counts as the first one does. -/
theorem pickLoop_some (picked : pickLoop rw key tag descs cnt h = some (pool, h'))
    (before : cnt ≤ tag) :
    h.Later h' ∧ pool = (matching h rw key descs)[tag - cnt]?.map PoolDesc.pRefPool := by
  induction descs generalizing cnt h with
  | nil =>
      obtain ⟨rfl, rfl⟩ := Prod.mk.inj (Option.some.inj picked)
      exact ⟨.refl h, rfl⟩
  | cons desc rest ih =>
      rw [pickLoop, serves_tests] at picked
      by_cases serves : Serves rw key desc
      · rw [if_pos serves] at picked
        cases said : h.isAvailable desc.pRefPool with
        | none => simp [said] at picked
        | some answer =>
            obtain ⟨available, h₁⟩ := answer
            obtain ⟨later, isAvailable, lt⟩ := Heap.isAvailable_some said
            rw [matching_cons serves isAvailable]
            cases available with
            | false =>
                obtain ⟨asked, isPool⟩ := ih (by simpa [said] using picked) before
                rw [matching_later later] at isPool
                exact ⟨later.trans asked, isPool⟩
            | true =>
                by_cases here : cnt = tag
                · have same : some desc.pRefPool = pool ∧ h₁ = h' := by
                    simpa [said, here] using picked
                  obtain ⟨rfl, rfl⟩ := same
                  exact ⟨later, by simp [here]⟩
                · obtain ⟨asked, isPool⟩ := ih (by simpa [said, here] using picked) (by omega)
                  rw [matching_later later] at isPool
                  refine ⟨later.trans asked, ?_⟩
                  rw [if_pos rfl, show tag - cnt = tag - (cnt + 1) + 1 by omega,
                    List.getElem?_cons_succ]
                  exact isPool
      · rw [if_neg serves] at picked
        rw [matching_cons_unserved serves]
        exact ih picked before

theorem countLoop_unserved (unserved : ∀ desc ∈ descs, ¬ Serves rw key desc) :
    countLoop rw key descs total h = some (total, h) := by
  induction descs with
  | nil => rfl
  | cons desc rest ih =>
      rw [countLoop, serves_tests, if_neg (unserved desc List.mem_cons_self)]
      exact ih fun other member => unserved other (List.mem_cons_of_mem _ member)

variable {mgr : PoolMgr P}

/-- The pool that is returned is right; references are left behind if a pool is for the key. -/
theorem getPool_some (got : mgr.getPool h rw key = some (pool, h')) :
    Routes h rw key mgr.descs pool ∧ Asked rw key mgr.descs h h' := by
  unfold getPool at got
  cases counted : countLoop rw key mgr.descs 0 h with
  | none => simp [counted] at got
  | some count =>
      obtain ⟨total, h₁⟩ := count
      obtain ⟨asked, isTotal⟩ := countLoop_some counted
      rw [Nat.zero_add] at isTotal
      by_cases zero : total = 0
      · have same : none = pool ∧ h₁ = h' := by simpa [counted, zero] using got
        obtain ⟨rfl, rfl⟩ := same
        refine ⟨fun desc member serves isAvailable => ?_, asked⟩
        have noMatch := List.filter_eq_nil_iff.mp (List.length_eq_zero_iff.mp (isTotal ▸ zero))
        exact noMatch desc member (by simp [serves, isAvailable])
      · have picked : pickLoop rw key (key.toNat % total) mgr.descs 0 h₁ = some (pool, h') := by
          simpa [counted, zero] using got
        obtain ⟨later, isPool⟩ := pickLoop_some picked (Nat.zero_le _)
        have within : key.toNat % total < (matching h rw key mgr.descs).length := by
          rw [← isTotal]
          exact Nat.mod_lt _ (Nat.pos_of_ne_zero zero)
        rw [matching_later asked.later, Nat.sub_zero, List.getElem?_eq_getElem within] at isPool
        subst isPool
        have member := List.getElem_mem within
        obtain ⟨member, good⟩ := List.mem_filter.mp member
        obtain ⟨serves, isAvailable⟩ := of_decide_eq_true good
        exact ⟨⟨_, member, rfl, serves, isAvailable⟩, asked.later.trans later,
          fun serving => lt_later (asked.leaks serving) later⟩

theorem getPool_unserved (unserved : ∀ desc ∈ mgr.descs, ¬ Serves rw key desc) :
    mgr.getPool h rw key = some (none, h) := by
  simp [getPool, countLoop_unserved unserved]

theorem get_unserved (unserved : ∀ desc ∈ mgr.descs, ¬ Serves rw key desc) :
    mgr.get h rw key = some (none, h) := by
  simp [get, getPool_unserved unserved]

/-- A unit that `Get` returns has more than one reference added. -/
theorem get_leaks {unit : U} (got : mgr.get h rw key = some (some unit, h')) :
    ¬ SameRefs (h.addUnitRef unit) h' := by
  cases found : mgr.getPool h rw key with
  | none => simp [get, found] at got
  | some answer =>
      obtain ⟨pool, h₁⟩ := answer
      obtain ⟨routes, asked⟩ := getPool_some found
      cases pool with
      | none => simp [get, found] at got
      | some refPool =>
          have taken : h₁.get refPool = (some unit, h') := by simpa [get, found] using got
          obtain ⟨desc, member, -, serves, -⟩ := routes
          obtain ⟨other, lt⟩ := asked.leaks ⟨desc, member, serves⟩
          intro same
          have atOther := congrFun same.unitRefs other
          unfold Heap.get at taken
          split at taken
          · cases taken
          · obtain ⟨isUnit, rfl⟩ := Prod.mk.inj taken
            obtain rfl := Option.some.inj isUnit
            rename_i unit _
            by_cases isOther : other = unit
            · subst isOther
              simp [Heap.addUnitRef] at atOther
              omega
            · simp [Heap.addUnitRef, isOther] at atOther
              omega

end PoolMgr

end Routing

/-! ## Sample keys -/

section SampleKeys

variable {rw : UInt32} {desc : PoolDesc P} {descs : List (PoolDesc P)}

/-- The midpoint lies outside if the sum of the bounds wraps around. -/
theorem midpoint_inside_iff :
    desc.segmentLo ≤ (desc.segmentLo + desc.segmentHi) / 2 ∧
      (desc.segmentLo + desc.segmentHi) / 2 ≤ desc.segmentHi ↔ HasMidpoint desc := by
  rw [HasMidpoint, UInt64.le_iff_toNat_le, UInt64.le_iff_toNat_le, UInt64.le_iff_toNat_le,
    UInt64.toNat_div, UInt64.toNat_add]
  have low := desc.segmentLo.toNat_lt
  have high := desc.segmentHi.toNat_lt
  have two : (2 : UInt64).toNat = 2 := rfl
  rw [two]
  omega

theorem sampleKeys_eq : PoolMgr.sampleKeys rw descs =
    (descs.filter fun desc => desc.rw &&& rw ≠ 0).map
      fun desc => (desc.segmentLo + desc.segmentHi) / 2 := by
  induction descs with
  | nil => rfl
  | cons desc rest ih =>
      by_cases other : desc.rw &&& rw = 0
      · simp [PoolMgr.sampleKeys, other, ih]
      · simp [PoolMgr.sampleKeys, other, ih]

theorem inside_sampleKeys_iff : Inside rw descs (PoolMgr.sampleKeys rw descs) ↔
    ∀ desc ∈ descs, desc.rw &&& rw ≠ 0 → HasMidpoint desc := by
  rw [sampleKeys_eq]
  constructor
  · intro inside desc member serves
    have kept : desc ∈ descs.filter fun desc => desc.rw &&& rw ≠ 0 :=
      List.mem_filter.mpr ⟨member, decide_eq_true serves⟩
    obtain ⟨i, atIndex⟩ := List.getElem?_of_mem kept
    obtain ⟨other, same, low, high⟩ := inside i _ (by rw [List.getElem?_map, atIndex]; rfl)
    obtain rfl := Option.some.inj (atIndex.symm.trans same)
    exact midpoint_inside_iff.mp ⟨low, high⟩
  · intro midpoints i key written
    rw [List.getElem?_map] at written
    obtain ⟨desc, atIndex, rfl⟩ := Option.map_eq_some_iff.mp written
    obtain ⟨member, serves⟩ := List.mem_filter.mp (List.mem_of_getElem? atIndex)
    have midpoint := midpoints desc member (of_decide_eq_true serves)
    obtain ⟨low, high⟩ := midpoint_inside_iff.mpr midpoint
    exact ⟨desc, atIndex, low, high⟩

theorem inside_getSampleKey_iff {mgr : PoolMgr P} {sample : Option Nat} :
    Inside rw mgr.descs (mgr.getSampleKey rw sample).2 ↔
      ∀ count ∈ sample, mgr.descs.length ≤ count →
        ∀ desc ∈ mgr.descs, desc.rw &&& rw ≠ 0 → HasMidpoint desc := by
  have nothing : Inside rw mgr.descs [] := nofun
  have length : mgr.count = mgr.descs.length := mgr.counted
  cases sample with
  | none => simp [PoolMgr.getSampleKey, nothing]
  | some count =>
      by_cases short : count < mgr.count
      · have tooShort : ¬ mgr.descs.length ≤ count := by omega
        simp [PoolMgr.getSampleKey, short, nothing, tooShort]
      · have enough : mgr.descs.length ≤ count := by omega
        simp only [PoolMgr.getSampleKey, if_neg short, inside_sampleKeys_iff, Option.mem_def,
          Option.some.injEq, forall_eq', enough, true_implies]

end SampleKeys

/-! ## Runs -/

section Runs

variable [DecidableEq P]

/-- `Init` writes outside the new array if there are too many pools. -/
theorem init_some_iff {mgr : PoolMgr P} (h : Heap P U) {pools : List (PoolDesc P)}
    (addRef : Bool) :
    (∃ mgr' h', mgr.init h pools addRef = some (mgr', h')) ↔
      (mgr.descs ++ pools).length < 2 ^ 32 := by
  have notNull : ¬ (mgr.pools = none ∧ 0 < mgr.count) := by
    rintro ⟨null, positive⟩
    rw [mgr.counted, null] at positive
    exact Nat.lt_irrefl 0 positive
  rw [PoolMgr.init, if_neg notNull]
  split
  · rename_i fits
    exact iff_of_true ⟨_, _, rfl⟩ fits
  · rename_i tooMany
    exact iff_of_false nofun tooMany

theorem init_descs {mgr mgr' : PoolMgr P} {h h' : Heap P U} {pools : List (PoolDesc P)}
    {addRef : Bool} (inited : mgr.init h pools addRef = some (mgr', h')) :
    mgr'.descs = mgr.descs ++ pools := by
  unfold PoolMgr.init at inited
  split at inited
  · rename_i null
    rw [mgr.counted, null.1] at null
    exact absurd null.2 (Nat.lt_irrefl 0)
  · split at inited
    · obtain ⟨rfl, -⟩ := Prod.mk.inj (Option.some.inj inited)
      rfl
    · cases inited

theorem initAll_descs {mgr mgr' : PoolMgr P} {h h' : Heap P U}
    {inits : List (List (PoolDesc P) × Bool)} (inited : initAll mgr h inits = some (mgr', h')) :
    mgr'.descs = mgr.descs ++ inits.flatMap Prod.fst := by
  induction inits generalizing mgr h with
  | nil =>
      obtain ⟨rfl, -⟩ := Prod.mk.inj (Option.some.inj inited)
      simp
  | cons call rest ih =>
      obtain ⟨pools, addRef⟩ := call
      cases first : mgr.init h pools addRef with
      | none => simp [initAll, first] at inited
      | some next =>
          have later := ih (by simpa [initAll, first] using inited)
          rw [later, init_descs first]
          simp

theorem initAll_some (mgr : PoolMgr P) (h : Heap P U) {inits : List (List (PoolDesc P) × Bool)}
    (fits : (mgr.descs ++ inits.flatMap Prod.fst).length < 2 ^ 32) :
    ∃ mgr' h', initAll mgr h inits = some (mgr', h') := by
  induction inits generalizing mgr h with
  | nil => exact ⟨mgr, h, rfl⟩
  | cons call rest ih =>
      obtain ⟨pools, addRef⟩ := call
      rw [List.flatMap_cons, ← List.append_assoc] at fits
      have firstFits : (mgr.descs ++ pools).length < 2 ^ 32 := by
        rw [List.length_append] at fits
        exact Nat.lt_of_le_of_lt (Nat.le_add_right _ _) fits
      obtain ⟨mgr₁, h₁, first⟩ := (init_some_iff h addRef).mpr firstFits
      rw [← init_descs first] at fits
      obtain ⟨mgr', h', later⟩ := ih mgr₁ h₁ fits
      exact ⟨mgr', h', by simpa [initAll, first] using later⟩

/-- A pool that `GetPool` returns is right. All is right after the calls of `Init` if and only if no
pool is for the key, the pools fit, and the pools whose midpoints are written have them inside. -/
theorem poolMgr_right_iff [DecidableEq U] (h : Heap P U)
    (inits : List (List (PoolDesc P) × Bool)) (rw : UInt32) (key : UInt64) (sample : Option Nat) :
    (∀ mgr h', initAll .new h inits = some (mgr, h') →
      ∀ pool h'', mgr.getPool h' rw key = some (pool, h'') →
        Routes h' rw key mgr.descs pool) ∧
    ((∃ mgr h', initAll .new h inits = some (mgr, h') ∧ Right mgr h' rw key sample) ↔
      Unserved (inits.flatMap Prod.fst) rw key sample) := by
  refine ⟨fun mgr h' _ pool h'' got => (PoolMgr.getPool_some got).1, ?_⟩
  constructor
  · rintro ⟨mgr, h', inited, right⟩
    have descs : mgr.descs = inits.flatMap Prod.fst := initAll_descs inited
    rw [← descs]
    refine ⟨mgr.counted ▸ mgr.fits, fun desc member serves => ?_,
      inside_getSampleKey_iff.mp right.getSampleKey⟩
    obtain ⟨pool, h'', got, -, same⟩ := right.getPool
    obtain ⟨unit, lt⟩ := (PoolMgr.getPool_some got).2.leaks ⟨desc, member, serves⟩
    rw [same.unitRefs] at lt
    exact Int.lt_irrefl _ lt
  · intro unserved
    obtain ⟨mgr, h', inited⟩ := initAll_some .new h unserved.fits
    have descs : mgr.descs = inits.flatMap Prod.fst := initAll_descs inited
    rw [← descs] at unserved
    refine ⟨mgr, h', inited, ?_, ?_, inside_getSampleKey_iff.mpr unserved.midpoints⟩
    · exact ⟨none, h', PoolMgr.getPool_unserved unserved.unserved,
        fun desc member serves => absurd serves (unserved.unserved desc member), rfl, rfl⟩
    · exact ⟨none, h', PoolMgr.get_unserved unserved.unserved, nofun⟩

/-- A pool with a unit that is available, both referenced once. -/
def onePool : Heap Unit Unit := ⟨fun _ => 1, fun _ => some (), fun _ => 1, fun _ => some true⟩

/-- The upper half of the keys. -/
def upperHalf : PoolDesc Unit := ⟨(), 1, 0x8000000000000000, 0xffffffffffffffff⟩

/-- `GetPool` leaves two references behind, `Get` adds three, and the sample key is one of the lower
half. -/
theorem upperHalf_leaks :
    ∃ mgr h, initAll .new onePool [([upperHalf], false)] = some (mgr, h) ∧ h.unitRefs () = 1 ∧
      (∃ h', mgr.getPool h 1 0x8000000000000000 = some (some (), h') ∧ h'.unitRefs () = 3) ∧
      (∃ h', mgr.get h 1 0x8000000000000000 = some (some (), h') ∧ h'.unitRefs () = 4) ∧
      mgr.getSampleKey 1 (some 1) = (1, [0x3fffffffffffffff]) ∧
      ¬ Right mgr h 1 0x8000000000000000 (some 1) := by
  refine ⟨_, _, rfl, rfl, ⟨_, rfl, rfl⟩, ⟨_, rfl, rfl⟩, rfl, fun right => ?_⟩
  obtain ⟨pool, h', got, -, same⟩ := right.getPool
  obtain ⟨rfl, rfl⟩ := Prod.mk.inj (Option.some.inj got)
  exact absurd (congrFun same.unitRefs ()) (by decide)

end Runs

end MlsImgSearch.Db.PoolRouting
