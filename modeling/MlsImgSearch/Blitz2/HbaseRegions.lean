import Mathlib.Data.List.Lex
import Mathlib.Data.List.TakeWhile
import Mathlib.Order.Fin.Basic
import MlsImgSearch.Blitz2.HalfDuplexService
import MlsImgSearch.Lib.SortedList

/-!
# The regions of a table

The rows of a table are parted into regions, and each region is served by one
region server. The regions that are known are cached by their first row.
-/

namespace MlsImgSearch.Blitz2.HbaseRegions

open Lib.SortedList
open HalfDuplexService (QueryResult)

/-! ## The cache of a table -/

/-- A byte string; they are compared byte by byte. -/
abbrev Text : Type := List (Fin 256)

structure TRegionInfo where
  startKey : Text
  endKey : Text
  serverName : Text
  port : Int
  deriving DecidableEq

structure RegionServerInfo where
  startRow : Text
  endRow : Text
  host : Text
  port : Int
  deriving DecidableEq

def RegionServerInfo.of (region : TRegionInfo) : RegionServerInfo :=
  ⟨region.startKey, region.endKey, region.serverName, region.port⟩

/-- `tableRegions_`, in the order of the first rows. -/
abbrev TableRegions : Type := List RegionServerInfo

/-- Write an entry into the map at a key that it does not have. -/
def insertRegion (info : RegionServerInfo) (cache : TableRegions) : TableRegions :=
  cache.takeWhile (fun r => decide (r.startRow < info.startRow)) ++
    info :: cache.dropWhile fun r => decide (r.startRow < info.startRow)

/-- The new cache and the entry of the start key. -/
def addRegionServerInfo (cache : TableRegions) (region : TRegionInfo) :
    TableRegions × RegionServerInfo :=
  match cache.find? fun r => decide (r.startRow = region.startKey) with
  | some info => (cache, info)
  | none => (insertRegion (.of region) cache, .of region)

def removeRegionServerInfo (cache : TableRegions) (key : Text) : TableRegions :=
  cache.filter fun r => decide (r.startRow ≠ key)

/-- The test of `FindRegionServerInfoInCache`. -/
def InRange (row : Text) (info : RegionServerInfo) : Prop :=
  info.startRow ≤ row ∧ (row ≤ info.endRow ∨ info.endRow = [])

instance decidableInRange (row : Text) (info : RegionServerInfo) : Decidable (InRange row info) :=
  inferInstanceAs (Decidable (_ ∧ _))

def findRegionServerInfoInCache (cache : TableRegions) (row : Text) : Option RegionServerInfo :=
  let before := cache.takeWhile fun r => decide (r.startRow < row)
  let iter := cache.dropWhile fun r => decide (r.startRow < row)
  match iter.head?.filter fun r => decide (InRange row r) with
  | some info => some info
  | none => before.getLast?.filter fun r => decide (InRange row r)

/-! ## The client -/

/-- The caches of the tables and the servers by host; a server is named by a number. -/
structure Hbase where
  rootServer : Option Nat
  regions : Text → Option TableRegions
  regionServers : Text → Option Nat

def setTable (s : Hbase) (table : Text) (cache : TableRegions) : Hbase :=
  { s with regions := fun t => if t = table then some cache else s.regions t }

def findRegionServerByHost (s : Hbase) (host : Text) : Option Nat := s.regionServers host

/-- A table that is not known gets an empty cache. -/
def findRegionServer (s : Hbase) (table row : Text) : Hbase × Option Nat :=
  match s.regions table with
  | none => (setTable s table [], none)
  | some cache =>
      (s, (findRegionServerInfoInCache cache row).bind fun info =>
        findRegionServerByHost s info.host)

/-- What a completion of the root server leads to. -/
inductive RootOutcome where
  /-- An exception leaves the handler, an assertion fails or a null table entry is used. -/
  | crashed
  /-- The continuation is called; `cached` is what `AddRegionServerInfo` returned, if it ran. -/
  | called (s : Hbase) (server : Option Nat) (cached : Option RegionServerInfo)

/-- `reply` is what `recv_getRegionInfo` reads; it throws on `none`. -/
def rootOnGetRegionInfo (s : Hbase) (result : QueryResult) (now expireTime : Nat)
    (reply : Option TRegionInfo) (table row : Text) : RootOutcome :=
  if result ≠ .success then .called s none none
  else if expireTime < now then .called s none none
  else
    match reply with
    | none => .crashed
    | some region =>
        if row < region.startKey then .crashed
        else if row ≤ region.endKey ∨ region.endKey = [] then
          match s.regions table with
          | none => .crashed
          | some cache =>
              let cache :=
                match findRegionServerInfoInCache cache row with
                | some info => removeRegionServerInfo cache info.startRow
                | none => cache
              let (cache, info) := addRegionServerInfo cache region
              .called (setTable s table cache) (findRegionServerByHost s region.serverName)
                (some info)
        else .called s (findRegionServerByHost s region.serverName) none

/-! ## What is wanted -/

/-- The rows of a region; an empty end key is no bound. -/
def Contains (info : RegionServerInfo) (row : Text) : Prop :=
  info.startRow ≤ row ∧ (info.endRow = [] ∨ row < info.endRow)

instance decidableContains (info : RegionServerInfo) (row : Text) :
    Decidable (Contains info row) := inferInstanceAs (Decidable (_ ∧ _))

/-- Regions that are not empty, and disjoint if they do not have the same bounds. -/
structure Disjoint (infos : List RegionServerInfo) : Prop where
  nonempty : ∀ r ∈ infos, r.endRow = [] ∨ r.startRow < r.endRow
  apart : ∀ r ∈ infos, ∀ r' ∈ infos, (r.startRow = r'.startRow ∧ r.endRow = r'.endRow) ∨
    ∀ row, Contains r row → ¬ Contains r' row

inductive Call where
  | add (region : TRegionInfo)
  | remove (startKey : Text)

def Call.run (cache : TableRegions) : Call → TableRegions
  | add region => (addRegionServerInfo cache region).1
  | remove startKey => removeRegionServerInfo cache startKey

def Call.region : Call → Option RegionServerInfo
  | add region => some (.of region)
  | remove _ => none

/-- The cached region that contains the row is found, and none if there is none. -/
def FindsRight (cache : TableRegions) (row : Text) : Prop :=
  match findRegionServerInfoInCache cache row with
  | some info => info ∈ cache ∧ Contains info row
  | none => ∀ info ∈ cache, ¬ Contains info row

/-- The received region is cached exactly if it contains the row, in place of the entry that the
cache gave for the row. Nothing else changes. -/
def CachesRight (s : Hbase) (cache : TableRegions) (result : QueryResult) (now expireTime : Nat)
    (reply : Option TRegionInfo) (table row : Text) : Prop :=
  ∀ s' server cached,
    rootOnGetRegionInfo s result now expireTime reply table row = .called s' server cached →
      (∀ other, other ≠ table → s'.regions other = s.regions other) ∧
      match cached with
      | none => s' = s ∧ (result = .success → now ≤ expireTime →
          ∀ region, reply = some region → ¬ Contains (.of region) row)
      | some info => ∃ region, reply = some region ∧ info = .of region ∧ Contains info row ∧
          ∃ cache', s'.regions table = some cache' ∧
            ∀ r, r ∈ cache' ↔ r = info ∨
              r ∈ cache ∧ findRegionServerInfoInCache cache row ≠ some r

/-- A cached region ends at the row, and none starts there. -/
def AtOpenEnd (cache : TableRegions) (row : Text) : Prop :=
  row ≠ [] ∧ (∃ info ∈ cache, info.endRow = row) ∧ ∀ info ∈ cache, info.startRow ≠ row

/-! ## The lookup -/

section Lookup

variable {cache : TableRegions} {row : Text}

theorem mem_before {r : RegionServerInfo}
    (member : r ∈ cache.takeWhile fun r => decide (r.startRow < row)) :
    r ∈ cache ∧ r.startRow < row :=
  ⟨(List.takeWhile_sublist _).mem member, by simpa using List.mem_takeWhile_imp member⟩

theorem mem_iter (asc : Ascending RegionServerInfo.startRow cache) {r : RegionServerInfo}
    (member : r ∈ cache.dropWhile fun r => decide (r.startRow < row)) : row ≤ r.startRow := by
  induction cache with
  | nil => exact absurd member List.not_mem_nil
  | cons first rest ih =>
      obtain ⟨above, restAsc⟩ := List.pairwise_cons.mp asc
      by_cases low : first.startRow < row
      · rw [List.dropWhile_cons_of_pos (by simpa using low)] at member
        exact ih restAsc member
      · rw [List.dropWhile_cons_of_neg (by simpa using low)] at member
        rcases List.mem_cons.mp member with rfl | later
        · exact not_lt.mp low
        · exact le_of_lt (lt_of_le_of_lt (not_lt.mp low) (above r later))

theorem mem_split {r : RegionServerInfo} (member : r ∈ cache) :
    r ∈ cache.takeWhile (fun r => decide (r.startRow < row)) ∨
      r ∈ cache.dropWhile fun r => decide (r.startRow < row) := by
  rw [← List.mem_append, List.takeWhile_append_dropWhile]
  exact member

/-- The region that starts at the row. -/
theorem find_starts (asc : Ascending RegionServerInfo.startRow cache) {r : RegionServerInfo}
    (member : r ∈ cache) (starts : r.startRow = row)
    (nonempty : r.endRow = [] ∨ r.startRow < r.endRow) :
    findRegionServerInfoInCache cache row = some r := by
  have inIter : r ∈ cache.dropWhile fun r => decide (r.startRow < row) := by
    rcases mem_split member with low | inIter
    · exact absurd (mem_before low).2 (by rw [starts]; exact lt_irrefl row)
    · exact inIter
  have first : (cache.dropWhile fun r => decide (r.startRow < row)).head? = some r := by
    cases iter : cache.dropWhile fun r => decide (r.startRow < row) with
    | nil => rw [iter] at inIter; exact absurd inIter List.not_mem_nil
    | cons h rest =>
        have iterAsc : Ascending RegionServerInfo.startRow (h :: rest) :=
          iter ▸ asc.sublist (List.dropWhile_sublist _)
        have lower : row ≤ h.startRow := mem_iter asc (by rw [iter]; exact List.mem_cons_self)
        rw [iter] at inIter
        rcases List.mem_cons.mp inIter with rfl | later
        · rfl
        · have below := (List.pairwise_cons.mp iterAsc).1 r later
          rw [starts] at below
          exact absurd lower (not_le.mpr below)
  have inRange : InRange row r := by
    refine ⟨le_of_eq starts, ?_⟩
    rcases nonempty with unbounded | bounded
    · exact Or.inr unbounded
    · exact Or.inl (le_of_lt (starts ▸ bounded))
  have kept : ((cache.dropWhile fun r => decide (r.startRow < row)).head?.filter
      fun r => decide (InRange row r)) = some r := by
    rw [first, Option.filter_some, if_pos (by simpa using inRange)]
  unfold findRegionServerInfoInCache
  simp only [kept]

/-- If no region starts at the row, the last one before it is tested. -/
theorem find_back (asc : Ascending RegionServerInfo.startRow cache)
    (none' : ∀ r ∈ cache, r.startRow ≠ row) :
    findRegionServerInfoInCache cache row =
      (cache.takeWhile fun r => decide (r.startRow < row)).getLast?.filter
        fun r => decide (InRange row r) := by
  have dropped : ((cache.dropWhile fun r => decide (r.startRow < row)).head?.filter
      fun r => decide (InRange row r)) = none := by
    rw [Option.filter_eq_none_iff]
    intro h head
    have member := List.mem_of_head? head
    have lower := mem_iter asc member
    have other := none' h ((List.dropWhile_sublist _).mem member)
    simp only [decide_eq_true_eq]
    exact fun inRange => other (le_antisymm inRange.1 lower)
  unfold findRegionServerInfoInCache
  simp only [dropped]

theorem last_before (asc : Ascending RegionServerInfo.startRow cache) {r : RegionServerInfo}
    (last : (cache.takeWhile fun r => decide (r.startRow < row)).getLast? = some r) :
    r ∈ cache ∧ r.startRow < row ∧
      ∀ r' ∈ cache, r'.startRow < row → r'.startRow ≤ r.startRow := by
  obtain ⟨member, below⟩ := mem_before (List.mem_of_getLast? last)
  refine ⟨member, below, fun r' member' below' => ?_⟩
  have inBefore : r' ∈ cache.takeWhile fun r => decide (r.startRow < row) := by
    rcases mem_split member' with inBefore | inIter
    · exact inBefore
    · exact absurd (mem_iter asc inIter) (not_le.mpr below')
  obtain ⟨init, split⟩ := List.getLast?_eq_some_iff.mp last
  have initAsc : Ascending RegionServerInfo.startRow (init ++ [r]) :=
    split ▸ asc.sublist (List.takeWhile_sublist _)
  rw [split] at inBefore
  rcases List.mem_append.mp inBefore with early | same
  · exact le_of_lt ((List.pairwise_append.mp initAsc).2.2 r' early r List.mem_cons_self)
  · rw [List.mem_singleton.mp same]

/-- No row lies in two cached regions with different first rows. -/
theorem Disjoint.start_eq (disjoint : Disjoint cache) {r r' : RegionServerInfo} {key : Text}
    (member : r ∈ cache) (member' : r' ∈ cache) (inside : Contains r key)
    (inside' : Contains r' key) : r.startRow = r'.startRow := by
  rcases disjoint.apart r member r' member' with same | apart
  · exact same.1
  · exact absurd inside' (apart key inside)

theorem contains_start {r : RegionServerInfo} (nonempty : r.endRow = [] ∨ r.startRow < r.endRow) :
    Contains r r.startRow := ⟨le_refl _, nonempty⟩

/-- The lookup is right unless the row is the open end of a cached region. -/
theorem findsRight_iff (asc : Ascending RegionServerInfo.startRow cache)
    (disjoint : Disjoint cache) : FindsRight cache row ↔ ¬ AtOpenEnd cache row := by
  by_cases start : ∃ r ∈ cache, r.startRow = row
  · obtain ⟨r, member, starts⟩ := start
    have nonempty := disjoint.nonempty r member
    refine iff_of_true ?_ fun atEnd => atEnd.2.2 r member starts
    rw [FindsRight, find_starts asc member starts nonempty]
    exact ⟨member, starts ▸ contains_start nonempty⟩
  · have none' : ∀ r ∈ cache, r.startRow ≠ row := fun r member starts => start ⟨r, member, starts⟩
    rw [FindsRight, find_back asc none']
    cases last : (cache.takeWhile fun r => decide (r.startRow < row)).getLast? with
    | none =>
        have notBelow : ∀ r ∈ cache, ¬ r.startRow < row := by
          intro r member below
          rcases mem_split member with inBefore | inIter
          · rw [List.getLast?_eq_none_iff.mp last] at inBefore
            exact absurd inBefore List.not_mem_nil
          · exact absurd (mem_iter asc inIter) (not_le.mpr below)
        refine iff_of_true (fun r member inside => ?_) ?_
        · exact notBelow r member (lt_of_le_of_ne inside.1 (none' r member))
        · rintro ⟨bounded, ⟨r, member, ends⟩, -⟩
          rcases disjoint.nonempty r member with unbounded | nonempty
          · exact bounded (ends.symm.trans unbounded)
          · exact notBelow r member (ends ▸ nonempty)
    | some r =>
        obtain ⟨member, below, greatest⟩ := last_before asc last
        -- only the last region before the row can reach over its own start
        have only : ∀ r' ∈ cache, r'.startRow < row → (r'.endRow = [] ∨ r.startRow < r'.endRow) →
            r' = r := by
          intro r' member' below' reaches
          refine asc.eq_of_key_eq member' member ?_
          exact disjoint.start_eq member' member ⟨greatest r' member' below', reaches⟩
            (contains_start (disjoint.nonempty r member))
        have atEnd_iff : AtOpenEnd cache row ↔ r.endRow = row := by
          constructor
          · rintro ⟨bounded, ⟨r', member', ends⟩, -⟩
            have nonempty' : r'.startRow < row := by
              rcases disjoint.nonempty r' member' with unbounded | nonempty
              · exact absurd (ends.symm.trans unbounded) bounded
              · exact ends ▸ nonempty
            rw [← only r' member' nonempty' (Or.inr (ends ▸ below))]
            exact ends
          · intro ends
            refine ⟨?_, ⟨r, member, ends⟩, none'⟩
            rintro rfl
            exact absurd below (List.not_lt_nil _)
        rw [Option.filter_some, atEnd_iff]
        by_cases inRange : InRange row r
        · rw [if_pos (by simpa using inRange)]
          constructor
          · rintro ⟨-, -, unbounded | inside⟩ ends
            · rw [← ends, unbounded] at below
              exact absurd below (List.not_lt_nil _)
            · exact absurd (ends ▸ inside) (lt_irrefl _)
          · intro notEnd
            refine ⟨member, inRange.1, ?_⟩
            rcases inRange.2 with within | unbounded
            · exact Or.inr (lt_of_le_of_ne within (Ne.symm notEnd))
            · exact Or.inl unbounded
        · rw [if_neg (by simpa using inRange)]
          have behind : ¬ (row ≤ r.endRow ∨ r.endRow = []) := fun within =>
            inRange ⟨le_of_lt below, within⟩
          refine iff_of_true (fun r' member' inside => ?_) fun ends => behind (Or.inl ends.ge)
          have below' : r'.startRow < row := lt_of_le_of_ne inside.1 (none' r' member')
          have same := only r' member' below' (inside.2.imp_right (lt_trans below))
          rw [same] at inside
          rcases inside.2 with unbounded | within
          · exact behind (Or.inr unbounded)
          · exact behind (Or.inl (le_of_lt within))

end Lookup

/-! ## What the cache holds -/

section Cache

variable {cache : TableRegions} {infos : List RegionServerInfo}

theorem mem_insertRegion {info r : RegionServerInfo} :
    r ∈ insertRegion info cache ↔ r = info ∨ r ∈ cache := by
  rw [insertRegion, List.mem_append, List.mem_cons]
  constructor
  · rintro (before | same | after)
    · exact Or.inr ((List.takeWhile_sublist _).mem before)
    · exact Or.inl same
    · exact Or.inr ((List.dropWhile_sublist _).mem after)
  · rintro (same | member)
    · exact Or.inr (Or.inl same)
    · rcases mem_split member with before | after
      · exact Or.inl before
      · exact Or.inr (Or.inr after)

theorem ascending_insertRegion {info : RegionServerInfo}
    (asc : Ascending RegionServerInfo.startRow cache)
    (new : ∀ r ∈ cache, r.startRow ≠ info.startRow) :
    Ascending RegionServerInfo.startRow (insertRegion info cache) := by
  have above : ∀ r ∈ cache.dropWhile (fun r => decide (r.startRow < info.startRow)),
      info.startRow < r.startRow := fun r member =>
    lt_of_le_of_ne (mem_iter asc member) (Ne.symm (new r ((List.dropWhile_sublist _).mem member)))
  refine List.pairwise_append.mpr ⟨asc.sublist (List.takeWhile_sublist _),
    List.pairwise_cons.mpr ⟨above, asc.sublist (List.dropWhile_sublist _)⟩, ?_⟩
  intro r before r' after
  have below := (mem_before before).2
  rcases List.mem_cons.mp after with rfl | later
  · exact below
  · exact lt_trans below (above r' later)

/-- The order of the map, with entries of the regions that were added. -/
structure CacheOf (infos : List RegionServerInfo) (cache : TableRegions) : Prop where
  asc : Ascending RegionServerInfo.startRow cache
  mem : ∀ r ∈ cache, r ∈ infos

theorem Disjoint.subset {infos infos' : List RegionServerInfo} (disjoint : Disjoint infos)
    (sub : ∀ r ∈ infos', r ∈ infos) : Disjoint infos' :=
  ⟨fun r member => disjoint.nonempty r (sub r member),
    fun r member r' member' => disjoint.apart r (sub r member) r' (sub r' member')⟩

theorem CacheOf.run {call : Call} (cacheOf : CacheOf infos cache)
    (known : ∀ info ∈ call.region, info ∈ infos) : CacheOf infos (call.run cache) := by
  cases call with
  | remove startKey =>
      exact ⟨cacheOf.asc.sublist List.filter_sublist,
        fun r member => cacheOf.mem r (List.mem_filter.mp member).1⟩
  | add region =>
      rw [Call.run, addRegionServerInfo]
      split
      · exact cacheOf
      · rename_i missing
        have new : ∀ r ∈ cache, r.startRow ≠ region.startKey := fun r member => by
          simpa using List.find?_eq_none.mp missing r member
        refine ⟨ascending_insertRegion cacheOf.asc new, fun r member => ?_⟩
        rcases mem_insertRegion.mp member with rfl | old
        · exact known _ rfl
        · exact cacheOf.mem r old

theorem cacheOf_foldl {calls : List Call} (cacheOf : CacheOf infos cache)
    (known : ∀ info ∈ calls.filterMap Call.region, info ∈ infos) :
    CacheOf infos (calls.foldl Call.run cache) := by
  induction calls generalizing cache with
  | nil => exact cacheOf
  | cons call rest ih =>
      have first : ∀ info ∈ call.region, info ∈ infos := fun info isRegion =>
        known info (List.mem_filterMap.mpr ⟨call, List.mem_cons_self, isRegion⟩)
      refine ih (cacheOf.run first) fun info member => known info ?_
      obtain ⟨call', member', isRegion⟩ := List.mem_filterMap.mp member
      exact List.mem_filterMap.mpr ⟨call', List.mem_cons_of_mem call member', isRegion⟩

end Cache

/-! ## A region is received -/

section Receive

variable {s : Hbase} {cache : TableRegions} {table row : Text} {region : TRegionInfo}

/-- No region reaches over the end of another one. -/
theorem Disjoint.not_over_end (disjoint : Disjoint cache) {r r' : RegionServerInfo}
    (member : r ∈ cache) (member' : r' ∈ cache) (bounded : r'.endRow ≠ []) :
    ¬ (r.startRow < r'.endRow ∧ Contains r r'.endRow) := by
  rintro ⟨below, inside⟩
  have below' : r'.startRow < r'.endRow := (disjoint.nonempty r' member').resolve_left bounded
  rcases disjoint.apart r member r' member' with ⟨-, same⟩ | apart
  · rcases inside.2 with unbounded | within
    · exact bounded (same ▸ unbounded)
    · exact absurd (same ▸ within) (lt_irrefl _)
  · -- the later of the two first rows lies in both regions
    rcases le_total r.startRow r'.startRow with before | after
    · exact apart r'.startRow ⟨before, inside.2.imp_right (lt_trans below')⟩
        (contains_start (Or.inr below'))
    · exact apart r.startRow (contains_start (inside.2.imp_right (lt_trans below)))
        ⟨after, Or.inr below⟩

/-- A cached region that contains the row is what the cache gives for it. -/
theorem find_of_contains (asc : Ascending RegionServerInfo.startRow cache)
    (disjoint : Disjoint cache) {r : RegionServerInfo} (member : r ∈ cache)
    (inside : Contains r row) : findRegionServerInfoInCache cache row = some r := by
  have notEnd : ¬ AtOpenEnd cache row := by
    rintro ⟨bounded, ⟨r', member', rfl⟩, none'⟩
    exact disjoint.not_over_end member member' bounded
      ⟨lt_of_le_of_ne inside.1 (none' r member), inside⟩
  have right := (findsRight_iff asc disjoint).mpr notEnd
  unfold FindsRight at right
  split at right
  · rename_i info found
    rw [found, asc.eq_of_key_eq right.1 member
      (disjoint.start_eq right.1 member right.2 inside)]
  · exact absurd inside (right r member)

/-- What is left of the cache when the entry that it gave for the row is removed. -/
def withoutFound (cache : TableRegions) (row : Text) : TableRegions :=
  match findRegionServerInfoInCache cache row with
  | some info => removeRegionServerInfo cache info.startRow
  | none => cache

theorem find_mem {info : RegionServerInfo}
    (found : findRegionServerInfoInCache cache row = some info) : info ∈ cache := by
  unfold findRegionServerInfoInCache at found
  simp only at found
  split at found
  · rename_i head
    obtain rfl := Option.some.inj found
    exact (List.dropWhile_sublist _).mem (List.mem_of_head? (Option.filter_eq_some_iff.mp head).1)
  · exact (mem_before (List.mem_of_getLast? (Option.filter_eq_some_iff.mp found).1)).1

theorem mem_withoutFound (asc : Ascending RegionServerInfo.startRow cache)
    {r : RegionServerInfo} : r ∈ withoutFound cache row ↔
      r ∈ cache ∧ findRegionServerInfoInCache cache row ≠ some r := by
  unfold withoutFound
  cases found : findRegionServerInfoInCache cache row with
  | none => simp
  | some info =>
      simp only [removeRegionServerInfo, List.mem_filter, decide_eq_true_eq, ne_eq,
        Option.some.injEq]
      refine and_congr_right fun member => not_congr ⟨fun same => ?_, fun same => same ▸ rfl⟩
      exact asc.eq_of_key_eq (find_mem found) member same.symm

/-- A region that contains the row has no entry once the entry of the row is removed. -/
theorem add_withoutFound (asc : Ascending RegionServerInfo.startRow cache)
    (disjoint : Disjoint (.of region :: cache)) (inside : Contains (.of region) row) :
    addRegionServerInfo (withoutFound cache row) region =
      (insertRegion (.of region) (withoutFound cache row), .of region) := by
  have missing : (withoutFound cache row).find?
      (fun r => decide (r.startRow = region.startKey)) = none := by
    rw [List.find?_eq_none]
    intro r member same
    obtain ⟨inCache, notFound⟩ := (mem_withoutFound asc).mp member
    have starts : r.startRow = region.startKey := by simpa using same
    have disjoint' := disjoint.subset fun r inCache => List.mem_cons_of_mem (.of region) inCache
    refine notFound (find_of_contains asc disjoint' inCache ?_)
    rcases disjoint.apart r (List.mem_cons_of_mem _ inCache) (.of region) List.mem_cons_self with
      ⟨-, ends⟩ | apart
    · rw [Contains, starts, ends]
      exact inside
    · have nonempty := disjoint.nonempty r (List.mem_cons_of_mem _ inCache)
      have nonempty' := disjoint.nonempty (.of region) List.mem_cons_self
      exact absurd ⟨le_of_eq starts.symm, starts ▸ nonempty'⟩
        (apart r.startRow (contains_start nonempty))
  rw [addRegionServerInfo, missing]

theorem rootOnGetRegionInfo_of_inRange {now expireTime : Nat} (known : s.regions table = some cache)
    (inTime : now ≤ expireTime) (inRange : InRange row (.of region)) :
    rootOnGetRegionInfo s .success now expireTime (some region) table row =
      .called (setTable s table (addRegionServerInfo (withoutFound cache row) region).1)
        (findRegionServerByHost s region.serverName)
        (some (addRegionServerInfo (withoutFound cache row) region).2) := by
  have started : ¬ row < region.startKey := not_lt.mpr inRange.1
  have reached : row ≤ region.endKey ∨ region.endKey = [] := inRange.2
  simp only [rootOnGetRegionInfo, ne_eq, not_true_eq_false, if_false, not_lt.mpr inTime, started,
    if_pos reached, known, withoutFound]

/-- The received region ends at the requested row. -/
def EndsAtRow (result : QueryResult) (now expireTime : Nat) (reply : Option TRegionInfo)
    (row : Text) : Prop :=
  result = .success ∧ now ≤ expireTime ∧
    ∃ region, reply = some region ∧ region.endKey = row ∧ row ≠ []

/-- The region is cached rightly unless it ends at the requested row. -/
theorem cachesRight_iff {result : QueryResult} {now expireTime : Nat} {reply : Option TRegionInfo}
    (asc : Ascending RegionServerInfo.startRow cache) (known : s.regions table = some cache)
    (disjoint : Disjoint ((reply.map RegionServerInfo.of).toList ++ cache)) :
    CachesRight s cache result now expireTime reply table row ↔
      ¬ EndsAtRow result now expireTime reply row := by
  by_cases answered : result = .success ∧ now ≤ expireTime
  swap
  · have untouched : rootOnGetRegionInfo s result now expireTime reply table row =
        .called s none none := by
      unfold rootOnGetRegionInfo
      split
      · rfl
      · rename_i success
        rw [if_pos (not_le.mp fun inTime => answered ⟨not_not.mp success, inTime⟩)]
    refine iff_of_true ?_ fun ends => answered ⟨ends.1, ends.2.1⟩
    intro s' server cached called
    rw [untouched] at called
    obtain ⟨rfl, -, rfl⟩ := RootOutcome.called.inj called
    exact ⟨fun _ _ => rfl, rfl, fun success inTime => absurd ⟨success, inTime⟩ answered⟩
  obtain ⟨rfl, inTime⟩ := answered
  cases reply with
  | none =>
      refine iff_of_true ?_ ?_
      · intro s' server cached called
        simp [rootOnGetRegionInfo, not_lt.mpr inTime] at called
      · rintro ⟨-, -, region, received, -⟩
        exact absurd received (by simp)
  | some region =>
      have disjoint' : Disjoint (.of region :: cache) := disjoint
      have nonempty := disjoint'.nonempty (.of region) List.mem_cons_self
      by_cases inRange : InRange row (.of region)
      · have called := rootOnGetRegionInfo_of_inRange known inTime inRange
        constructor
        · rintro right ⟨-, -, region', received, rfl, bounded⟩
          obtain rfl := Option.some.inj received
          obtain ⟨-, region', received', same, inside, -⟩ := right _ _ _ called
          obtain rfl := Option.some.inj received'
          rw [same] at inside
          rcases inside.2 with unbounded | within
          · exact bounded unbounded
          · exact absurd within (lt_irrefl _)
        · intro notEnd
          have inside : Contains (.of region) row := by
            refine ⟨inRange.1, ?_⟩
            rcases inRange.2 with within | unbounded
            · rcases eq_or_lt_of_le within with ends | inside
              · refine Or.inl (not_not.mp fun bounded => notEnd ?_)
                exact ⟨rfl, inTime, region, rfl, ends.symm, fun empty => bounded (ends ▸ empty)⟩
              · exact Or.inr inside
            · exact Or.inl unbounded
          intro s' server cached called'
          rw [called, add_withoutFound asc disjoint' inside] at called'
          obtain ⟨rfl, -, rfl⟩ := RootOutcome.called.inj called'
          refine ⟨fun other different => by simp [setTable, different], region, rfl, rfl, inside,
            insertRegion (.of region) (withoutFound cache row), by simp [setTable], fun r => ?_⟩
          rw [mem_insertRegion, mem_withoutFound asc]
      · have notInside : ¬ Contains (.of region) row := fun inside =>
          inRange ⟨inside.1, (inside.2.imp_right le_of_lt).symm⟩
        refine iff_of_true ?_ ?_
        · intro s' server cached called
          by_cases started : row < region.startKey
          · simp [rootOnGetRegionInfo, not_lt.mpr inTime, started] at called
          · have behind : ¬ (row ≤ region.endKey ∨ region.endKey = []) := fun within =>
              inRange ⟨not_lt.mp started, within⟩
            simp only [rootOnGetRegionInfo, ne_eq, not_true_eq_false, if_false,
              not_lt.mpr inTime, started, if_neg behind] at called
            obtain ⟨rfl, -, rfl⟩ := RootOutcome.called.inj called
            refine ⟨fun _ _ => rfl, rfl, fun _ _ region' received => ?_⟩
            obtain rfl := Option.some.inj received
            exact notInside
        · rintro ⟨-, -, region', received, rfl, bounded⟩
          obtain rfl := Option.some.inj received
          refine inRange ⟨?_, Or.inl (le_refl _)⟩
          rcases nonempty with unbounded | nonempty
          · exact absurd unbounded bounded
          · exact le_of_lt nonempty

end Receive

/-! ## Rows and the regions that own them -/

/-- After any calls with disjoint regions the lookup is right unless the row is the open end of a
cached region, and a received region is cached rightly unless it ends at the row. -/
theorem owners_iff (calls : List Call) (s : Hbase) (table row : Text) (result : QueryResult)
    (now expireTime : Nat) (reply : Option TRegionInfo)
    (disjoint : Disjoint
      ((reply.map RegionServerInfo.of).toList ++ calls.filterMap Call.region))
    (known : s.regions table = some (calls.foldl Call.run [])) :
    (FindsRight (calls.foldl Call.run []) row ↔ ¬ AtOpenEnd (calls.foldl Call.run []) row) ∧
    (CachesRight s (calls.foldl Call.run []) result now expireTime reply table row ↔
      ¬ EndsAtRow result now expireTime reply row) := by
  have empty : CacheOf (calls.filterMap Call.region) [] :=
    ⟨List.Pairwise.nil, fun r member => absurd member List.not_mem_nil⟩
  have cacheOf := cacheOf_foldl empty fun info member => member
  constructor
  · exact findsRight_iff cacheOf.asc
      (disjoint.subset fun r member => List.mem_append_right _ (cacheOf.mem r member))
  · refine cachesRight_iff cacheOf.asc known (disjoint.subset fun r member => ?_)
    rcases List.mem_append.mp member with received | cached
    · exact List.mem_append_left _ received
    · exact List.mem_append_right _ (cacheOf.mem r cached)

/-- The regions `[a, b)` and `[b, ∞)` of the host `h`. -/
def lowRegion : TRegionInfo := ⟨[97], [98], [104], 9090⟩

def highRegion : TRegionInfo := ⟨[98], [], [104], 9090⟩

theorem disjoint_low_high : Disjoint [.of highRegion, .of lowRegion] := by
  have apart : ∀ row, Contains (.of lowRegion) row → ¬ Contains (.of highRegion) row := by
    rintro row ⟨-, unbounded | below⟩ ⟨above, -⟩
    · exact absurd unbounded (by decide)
    · exact absurd above (not_le.mpr below)
  constructor
  · decide
  · intro r member r' member'
    simp only [List.mem_cons, List.not_mem_nil, or_false] at member member'
    rcases member with rfl | rfl <;> rcases member' with rfl | rfl
    · exact Or.inl ⟨rfl, rfl⟩
    · exact Or.inr fun row inside inside' => apart row inside' inside
    · exact Or.inr apart
    · exact Or.inl ⟨rfl, rfl⟩

/-- The row `b` with both regions: the upper one is found, and it is cached when it is received. -/
theorem owners_iff_low_high :
    let calls := [Call.add lowRegion, .add highRegion]
    let cache := calls.foldl Call.run []
    let s : Hbase := ⟨none, fun _ => some cache, fun _ => none⟩
    findRegionServerInfoInCache cache [98] = some (.of highRegion) ∧ FindsRight cache [98] ∧
      CachesRight s cache .success 1 2 (some highRegion) [116] [98] := by
  intro calls cache s
  have disjoint : Disjoint
      (((some highRegion).map RegionServerInfo.of).toList ++ calls.filterMap Call.region) :=
    disjoint_low_high.subset (by decide)
  obtain ⟨finds, caches⟩ := owners_iff calls s [116] [98] .success 1 2 (some highRegion)
    disjoint rfl
  refine ⟨by decide, finds.mpr ?_, caches.mpr ?_⟩
  · rintro ⟨-, -, none'⟩
    exact none' (.of highRegion) (by decide) rfl
  · rintro ⟨-, -, region, received, ends, bounded⟩
    obtain rfl := Option.some.inj received
    exact bounded (ends ▸ rfl)

/-- With only `[a, b)` cached, the row `b` is sent to it; when it is received for the row `b`, it is
cached for it. -/
theorem end_row_found :
    let cache := [Call.add lowRegion].foldl Call.run []
    let s : Hbase := ⟨none, fun _ => some [], fun _ => none⟩
    Disjoint ([Call.add lowRegion].filterMap Call.region) ∧
      findRegionServerInfoInCache cache [98] = some (.of lowRegion) ∧
      ¬ Contains (.of lowRegion) [98] ∧ ¬ FindsRight cache [98] ∧
      ¬ CachesRight s [] .success 1 2 (some lowRegion) [116] [98] := by
  intro cache s
  have found : findRegionServerInfoInCache cache [98] = some (.of lowRegion) := by decide
  have outside : ¬ Contains (.of lowRegion) [98] := by decide
  refine ⟨disjoint_low_high.subset (by decide), found, outside, fun right => ?_, fun right => ?_⟩
  · rw [FindsRight, found] at right
    exact outside right.2
  · obtain ⟨-, region, received, same, inside, -⟩ := right _ _ (some (.of lowRegion)) rfl
    exact outside inside

end MlsImgSearch.Blitz2.HbaseRegions
