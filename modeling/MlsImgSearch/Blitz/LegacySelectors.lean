import Mathlib.Data.List.Sort
import Mathlib.Order.Fin.Basic
import MlsImgSearch.Blitz.ServiceSelector

/-!
# The selectors over service statistics

Both selectors build a table from an array of statistics and leave out the services
that failed too often. `RandomServiceSelector` enters each service as often as its
weight says; `ConsistentHashServiceSelector` sorts the services by the hash of their
address. The checksum is a parameter, and a shuffle or a sort may give any order
that it is allowed to give.
-/

namespace MlsImgSearch.Blitz.LegacySelectors

open ServiceSelector (Hash)

structure ServiceStat where
  sid : Nat
  addr : List UInt8
  weight : Int
  failCount : Int
  deriving DecidableEq

def ServiceStat.working (s : ServiceStat) : Bool := ¬ s.failCount > 5

/-- No weight counts for more than ten. -/
def ServiceStat.cutWeight (s : ServiceStat) : Int := if s.weight > 10 then 10 else s.weight

/-! ## `RandomServiceSelector` -/

/-- The inner loop. Its counter hides the one of the outer loop, so it copies the ids of the first
services of the array. `none` is an access behind the array. -/
def copySids (stats : List ServiceStat) (weight : Int) : Option (List Nat) :=
  (List.range weight.toNat).mapM fun i => stats[i]?.map ServiceStat.sid

/-- The table before it is shuffled. -/
def randomCalculate (stats : List ServiceStat) : Option (List Nat) :=
  ((stats.filter ServiceStat.working).mapM fun s => copySids stats s.cutWeight).map fun parts =>
    if parts.flatten.length = 0 then stats.map ServiceStat.sid else parts.flatten

/-! ## `ConsistentHashServiceSelector` -/

/-- `stat` is `none` in a place that was never written; `hashValue` is then what the memory held. -/
structure CHServiceStat where
  stat : Option ServiceStat
  hashValue : Hash

section Hashing

variable (crc : List UInt8 → Hash)

def memcachedHashCrc32 (key : List UInt8) : Hash :=
  Fin.ofNat 4294967296 (((crc key).val >>> 16) &&& 0x7fff)

/-- The places of the array before it is sorted. A service that failed leaves its place unwritten. -/
def chStats (raw : Nat → Hash) (stats : List ServiceStat) : List CHServiceStat :=
  stats.mapIdx fun i s =>
    if s.working then ⟨some s, memcachedHashCrc32 crc s.addr⟩ else ⟨none, raw i⟩

def validCount (stats : List ServiceStat) : Nat := stats.countP ServiceStat.working

/-- All places are sorted, by hash alone. -/
structure HashCalculated (raw : Nat → Hash) (stats : List ServiceStat) (table : List CHServiceStat) :
    Prop where
  perm : table.Perm (chStats crc raw stats)
  sorted : table.Pairwise fun a b => a.hashValue ≤ b.hashValue

/-- The loop of `SelectService`; `none` is an access behind the array. -/
def searchIndex (table : List CHServiceStat) (hash : Hash) (left right : Nat) : Option Nat :=
  if left < right then
    table[left + (right - left) / 2]?.bind fun e =>
      if e.hashValue < hash then searchIndex table hash (left + (right - left) / 2 + 1) right
      else searchIndex table hash left (left + (right - left) / 2)
  else some right
termination_by right - left

inductive Selected where
  | refused
  | place (stat : Option ServiceStat)

/-- The place whose `sid` is returned. -/
def hashSelectService (table : List CHServiceStat) (statsCount : Nat) (key : List UInt8) :
    Option Selected :=
  if key = [] then some .refused
  else
    (searchIndex table (memcachedHashCrc32 crc key) 0 (statsCount - 1)).bind fun right =>
      table[right]?.map fun e => .place e.stat

end Hashing

/-! ## The contract -/

/-- How often the table should hold an id: the weights of the working services with that id. -/
def share (stats : List ServiceStat) (sid : Nat) : Int :=
  ((stats.filter fun s => s.working ∧ s.sid = sid).map ServiceStat.cutWeight).sum

/-- When a service works, the shuffled table holds every id as often as it should. -/
def RandomRight (stats : List ServiceStat) : Prop :=
  (∀ s ∈ stats, 1 ≤ s.weight) →
    ∃ sids, randomCalculate stats = some sids ∧ ∀ table : List Nat, table.Perm sids →
      (∃ s ∈ stats, s.working) → ∀ sid, (table.count sid : Int) = share stats sid

/-- The service that the hash of a key leads to: the next one, or the first one of all when there is
none. -/
def Target (crc : List UInt8 → Hash) (stats : List ServiceStat) (key : List UInt8)
    (s : ServiceStat) : Prop :=
  let hash := memcachedHashCrc32 crc
  (hash key ≤ hash s.addr ∧
      ∀ s' ∈ stats, s'.working → hash key ≤ hash s'.addr → hash s.addr ≤ hash s'.addr) ∨
    ((∀ s' ∈ stats, s'.working → hash s'.addr < hash key) ∧
      ∀ s' ∈ stats, s'.working → hash s.addr ≤ hash s'.addr)

/-- When a service works, a key gets the working service its hash leads to, whatever the memory held
and however the places were sorted. -/
def HashRight (crc : List UInt8 → Hash) (stats : List ServiceStat) (key : List UInt8) : Prop :=
  (∃ s ∈ stats, s.working) → ∀ raw table, HashCalculated crc raw stats table →
    ∃ s ∈ stats, s.working ∧ Target crc stats key s ∧
      hashSelectService crc table (validCount stats) key = some (.place (some s))

/-- The places of the array with an id. -/
def places (stats : List ServiceStat) (sid : Nat) : List Nat := stats.findIdxs (·.sid = sid)

/-- The weights of the working services do not exceed the number of services, and at the places of
each id the numbers of working services with a weight above the place add up to the weights of that id:
the weights are their own conjugate. -/
structure Conjugate (stats : List ServiceStat) : Prop where
  short : ∀ s ∈ stats, s.working → s.cutWeight ≤ stats.length
  even : ∀ sid, ((((places stats sid).map fun j : Nat =>
    (stats.filter ServiceStat.working).countP fun s => (j : Int) < s.cutWeight).sum : Nat) : Int) =
      share stats sid

/-- All services work, the key is not empty, and some hash is not below that of the key or all hashes
are the same. -/
structure Reached (crc : List UInt8 → Hash) (stats : List ServiceStat) (key : List UInt8) : Prop where
  allWork : ∀ s ∈ stats, s.working
  given : key ≠ []
  found : (∃ s ∈ stats, memcachedHashCrc32 crc key ≤ memcachedHashCrc32 crc s.addr) ∨
    ∀ s ∈ stats, ∀ s' ∈ stats, memcachedHashCrc32 crc s.addr = memcachedHashCrc32 crc s'.addr

/-! ## The shuffled table -/

section Random

variable {β γ : Type}

theorem mapM_some {f : β → Option γ} {g : β → γ} {list : List β}
    (all : ∀ x ∈ list, f x = some (g x)) : list.mapM f = some (list.map g) := by
  induction list with
  | nil => rfl
  | cons x list ih =>
      obtain ⟨first, others⟩ := List.forall_mem_cons.mp all
      rw [List.mapM_cons, first, ih others]
      rfl

theorem mapM_none {f : β → Option γ} {list : List β} {x : β} (member : x ∈ list)
    (fails : f x = none) : list.mapM f = none := by
  induction list with
  | nil => exact absurd member List.not_mem_nil
  | cons y list ih =>
      rw [List.mapM_cons]
      rcases List.mem_cons.mp member with rfl | later
      · rw [fails]
        rfl
      · rw [ih later]
        cases f y <;> rfl

variable {stats : List ServiceStat}

theorem copySids_some {weight : Int} (short : weight ≤ stats.length) :
    copySids stats weight = some ((stats.take weight.toNat).map ServiceStat.sid) := by
  have inside : weight.toNat ≤ stats.length := by omega
  have read : ∀ i ∈ List.range weight.toNat, stats[i]?.map ServiceStat.sid =
      some ((stats[i]?.map ServiceStat.sid).getD 0) := by
    intro i member
    rw [List.getElem?_eq_getElem (Nat.lt_of_lt_of_le (List.mem_range.mp member) inside)]
    rfl
  rw [copySids, mapM_some read]
  congr 1
  refine List.ext_getElem ?_ fun i small small' => ?_
  · rw [List.length_map, List.length_range, List.length_map, List.length_take, Nat.min_eq_left inside]
  · rw [List.getElem_map, List.getElem_range, List.getElem_map, List.getElem_take]
    rw [List.length_map, List.length_range] at small
    rw [List.getElem?_eq_getElem (Nat.lt_of_lt_of_le small inside)]
    rfl

theorem copySids_none {weight : Int} (long : ¬ weight ≤ stats.length) :
    copySids stats weight = none := by
  refine mapM_none (List.mem_range.mpr (show stats.length < weight.toNat by omega)) ?_
  rw [List.getElem?_eq_none (Nat.le_refl _)]
  rfl

/-- The copies of an id among the first services. -/
theorem count_take (stats : List ServiceStat) (sid count start : Nat) :
    ((stats.take count).map ServiceStat.sid).count sid =
      (stats.findIdxs (·.sid = sid) start).countP fun j => j < start + count := by
  induction stats generalizing count start with
  | nil => rw [List.take_nil]; rfl
  | cons s stats ih =>
      cases count with
      | zero =>
          rw [List.take_zero, List.map_nil, List.count_nil, eq_comm, List.countP_eq_zero]
          intro j member
          have least := List.ge_of_mem_findIdxs j member
          simpa using least
      | succ count =>
          rw [List.take_succ_cons, List.map_cons, List.count_cons, ih count (start + 1),
            List.findIdxs_cons, show start + 1 + count = start + (count + 1) by omega]
          by_cases same : s.sid = sid
          · rw [if_pos (by simpa using same), if_pos (by simpa using same), List.countP_cons,
              if_pos (by simp)]
          · rw [if_neg (by simpa using same), if_neg (by simpa using same), Nat.add_zero]

theorem sum_countP_cons (r : β → γ → Bool) (x : β) (xs : List β) (ys : List γ) :
    (ys.map fun y => (x :: xs).countP (r · y)).sum =
      ys.countP (r x) + (ys.map fun y => xs.countP (r · y)).sum := by
  induction ys with
  | nil => rfl
  | cons y ys ih =>
      rw [List.map_cons, List.sum_cons, ih, List.map_cons, List.sum_cons, List.countP_cons,
        List.countP_cons]
      omega

/-- The pairs of a relation are counted from either side. -/
theorem sum_countP_swap (r : β → γ → Bool) (xs : List β) (ys : List γ) :
    (xs.map fun x => ys.countP (r x)).sum = (ys.map fun y => xs.countP (r · y)).sum := by
  induction xs with
  | nil =>
      rw [List.map_nil, List.sum_nil]
      induction ys with
      | nil => rfl
      | cons y ys ih => rw [List.map_cons, List.sum_cons, ← ih, List.countP_nil, Nat.add_zero]
  | cons x xs ih => rw [sum_countP_cons, List.map_cons, List.sum_cons, ih]

/-- What the loops copy, counted by place instead of by service. -/
theorem sum_copies (stats working : List ServiceStat) (sid : Nat) :
    (working.map fun s => ((stats.take s.cutWeight.toNat).map ServiceStat.sid).count sid).sum =
      ((places stats sid).map fun j : Nat =>
        working.countP fun s => (j : Int) < s.cutWeight).sum := by
  rw [← sum_countP_swap (fun (s : ServiceStat) (j : Nat) => decide ((j : Int) < s.cutWeight))]
  congr 1
  refine List.map_congr_left fun s _ => ?_
  rw [count_take stats sid _ 0]
  refine List.countP_congr fun j _ => ?_
  simp only [Nat.zero_add, decide_eq_true_eq]
  omega

/-- The table before it is shuffled, if no weight is too large. -/
theorem randomCalculate_some (short : ∀ s ∈ stats, s.working → s.cutWeight ≤ stats.length)
    (positive : ∀ s ∈ stats, 1 ≤ s.weight) (works : ∃ s ∈ stats, s.working) :
    randomCalculate stats = some ((stats.filter ServiceStat.working).map fun s =>
      (stats.take s.cutWeight.toNat).map ServiceStat.sid).flatten := by
  have read : ∀ s ∈ stats.filter ServiceStat.working, copySids stats s.cutWeight =
      some ((stats.take s.cutWeight.toNat).map ServiceStat.sid) := by
    intro s member
    obtain ⟨isStat, isWorking⟩ := List.mem_filter.mp member
    exact copySids_some (short s isStat isWorking)
  rw [randomCalculate, mapM_some read, Option.map_some, if_neg]
  intro empty
  obtain ⟨s, member, isWorking⟩ := works
  have none' := List.flatten_eq_nil_iff.mp (List.length_eq_zero_iff.mp empty) _
    (List.mem_map_of_mem (List.mem_filter.mpr ⟨member, isWorking⟩))
  have counted := congrArg List.length none'
  rw [List.length_map, List.length_take, List.length_nil] at counted
  have nonempty := List.length_pos_of_mem member
  have weight := positive s member
  unfold ServiceStat.cutWeight at counted
  split at counted <;> omega

theorem randomCalculate_none {s : ServiceStat} (member : s ∈ stats) (isWorking : s.working)
    (long : ¬ s.cutWeight ≤ stats.length) : randomCalculate stats = none := by
  rw [randomCalculate, mapM_none (List.mem_filter.mpr ⟨member, isWorking⟩) (copySids_none long)]
  rfl

theorem count_copies (sid : Nat) :
    ((stats.filter ServiceStat.working).map fun s =>
        (stats.take s.cutWeight.toNat).map ServiceStat.sid).flatten.count sid =
      ((places stats sid).map fun j : Nat =>
        (stats.filter ServiceStat.working).countP fun s => (j : Int) < s.cutWeight).sum := by
  rw [List.count_flatten, List.map_map]
  exact sum_copies stats _ sid

/-- The table is right exactly when the weights are their own conjugate. -/
theorem randomRight_iff (stats : List ServiceStat) :
    RandomRight stats ↔ ((∀ s ∈ stats, 1 ≤ s.weight) → (∃ s ∈ stats, s.working) →
      Conjugate stats) := by
  constructor
  · intro right positive works
    obtain ⟨sids, calculated, tables⟩ := right positive
    have short : ∀ s ∈ stats, s.working → s.cutWeight ≤ stats.length := by
      intro s member isWorking
      by_contra long
      exact nomatch (randomCalculate_none member isWorking long).symm.trans calculated
    refine ⟨short, fun sid => ?_⟩
    obtain rfl := Option.some.inj
      (calculated.symm.trans (randomCalculate_some short positive works))
    rw [← count_copies]
    exact tables _ (List.Perm.refl _) works sid
  · intro conjugate positive
    by_cases works : ∃ s ∈ stats, s.working
    · obtain ⟨short, even⟩ := conjugate positive works
      refine ⟨_, randomCalculate_some short positive works, fun table perm _ sid => ?_⟩
      rw [perm.count_eq, count_copies]
      exact even sid
    · have noneWorks : stats.filter ServiceStat.working = [] :=
        List.filter_eq_nil_iff.mpr fun s member isWorking => works ⟨s, member, isWorking⟩
      refine ⟨stats.map ServiceStat.sid, ?_, fun _ _ wrong => absurd wrong works⟩
      rw [randomCalculate, noneWorks]
      rfl

end Random

/-! ## The sorted table -/

section Search

variable {table : List CHServiceStat} {hash : Hash} {last : Nat}

/-- Where the search ends: all places before it are below the hash, and none from there to the last
one is. -/
structure Cut (table : List CHServiceStat) (hash : Hash) (last r : Nat) : Prop where
  le : r ≤ last
  below : ∀ j < r, ∀ e, table[j]? = some e → e.hashValue < hash
  above : ∀ j, r ≤ j → j < last → ∀ e, table[j]? = some e → hash ≤ e.hashValue

theorem sorted_le (sorted : table.Pairwise fun a b => a.hashValue ≤ b.hashValue) {i j : Nat}
    (le : i ≤ j) {a b : CHServiceStat} (isA : table[i]? = some a) (isB : table[j]? = some b) :
    a.hashValue ≤ b.hashValue := by
  obtain ⟨inside, rfl⟩ := List.getElem?_eq_some_iff.mp isA
  obtain ⟨inside', rfl⟩ := List.getElem?_eq_some_iff.mp isB
  rcases Nat.lt_or_eq_of_le le with less | rfl
  · exact List.pairwise_iff_getElem.mp sorted i j inside inside' less
  · exact le_refl _

theorem searchIndex_spec (sorted : table.Pairwise fun a b => a.hashValue ≤ b.hashValue)
    (inside : last < table.length) {left right : Nat} (ordered : left ≤ right)
    (small : right ≤ last) (below : ∀ j < left, ∀ e, table[j]? = some e → e.hashValue < hash)
    (above : ∀ j, right ≤ j → j < last → ∀ e, table[j]? = some e → hash ≤ e.hashValue) :
    ∃ r, searchIndex table hash left right = some r ∧ Cut table hash last r := by
  -- on the size of the range that is left
  induction size : right - left using Nat.strongRecOn generalizing left right with
  | _ n ih =>
      rw [searchIndex]
      by_cases more : left < right
      · have middleInside : left + (right - left) / 2 < table.length := by omega
        rw [if_pos more, List.getElem?_eq_getElem middleInside, Option.bind_some]
        have isMiddle := List.getElem?_eq_getElem middleInside
        generalize table[left + (right - left) / 2] = middle at isMiddle
        by_cases less : middle.hashValue < hash
        · rw [if_pos less]
          refine ih _ ?_ (by omega) small (fun j before e isE => ?_) above rfl
          · omega
          · exact lt_of_le_of_lt (sorted_le sorted (by omega) isE isMiddle) less
        · rw [if_neg less]
          refine ih _ ?_ (by omega) (by omega) below (fun j behind _ e isE => ?_) rfl
          · omega
          · exact le_trans (not_lt.mp less) (sorted_le sorted behind isMiddle isE)
      · obtain rfl : left = right := by omega
        rw [if_neg more]
        exact ⟨left, rfl, small, below, above⟩

/-- The search over the first places of a sorted table. -/
theorem searchIndex_cut (sorted : table.Pairwise fun a b => a.hashValue ≤ b.hashValue)
    (inside : last < table.length) (hash : Hash) :
    ∃ r, searchIndex table hash 0 last = some r ∧ Cut table hash last r :=
  searchIndex_spec sorted inside (Nat.zero_le _) (Nat.le_refl _)
    (fun _ wrong => absurd wrong (Nat.not_lt_zero _))
    fun _ behind before => absurd before (Nat.not_lt.mpr behind)

end Search

section Hashed

variable {crc : List UInt8 → Hash} {stats : List ServiceStat} {key : List UInt8}
  {raw : Nat → Hash} {table : List CHServiceStat}

/-- The place of a working service. -/
def entry (crc : List UInt8 → Hash) (s : ServiceStat) : CHServiceStat :=
  ⟨some s, memcachedHashCrc32 crc s.addr⟩

/-- All unwritten places hold the same number. -/
theorem chStats_perm (crc : List UInt8 → Hash) (value : Hash) (stats : List ServiceStat) :
    (chStats crc (fun _ => value) stats).Perm
      ((stats.filter ServiceStat.working).map (entry crc) ++
        List.replicate (stats.countP fun s => ¬ s.working) ⟨none, value⟩) := by
  unfold chStats
  induction stats with
  | nil => exact List.Perm.refl _
  | cons s stats ih =>
      rw [List.mapIdx_cons]
      by_cases isWorking : s.working
      · rw [if_pos isWorking, List.filter_cons_of_pos isWorking,
          List.countP_cons_of_neg (by simpa using isWorking)]
        exact ih.cons _
      · rw [if_neg isWorking, List.filter_cons_of_neg isWorking,
          List.countP_cons_of_pos (by simpa using isWorking), List.replicate_succ]
        exact (ih.cons _).trans List.perm_middle.symm

theorem hashSelectService_eq (given : key ≠ []) {statsCount r : Nat} {e : CHServiceStat}
    (found : searchIndex table (memcachedHashCrc32 crc key) 0 (statsCount - 1) = some r)
    (isE : table[r]? = some e) :
    hashSelectService crc table statsCount key = some (.place e.stat) := by
  rw [hashSelectService, if_neg given, found, Option.bind_some, isE]
  rfl

/-- Places in the order of their hashes. -/
theorem exists_sorted (list : List CHServiceStat) :
    ∃ sorted : List CHServiceStat, sorted.Perm list ∧
      sorted.Pairwise fun a b => a.hashValue ≤ b.hashValue := by
  refine ⟨list.mergeSort fun a b => a.hashValue ≤ b.hashValue, List.mergeSort_perm _ _, ?_⟩
  refine (List.pairwise_mergeSort (fun a b c ab bc => ?_) (fun a b => ?_) _).imp
    fun le => of_decide_eq_true le
  · exact decide_eq_true (le_trans (of_decide_eq_true ab) (of_decide_eq_true bc))
  · rcases le_total a.hashValue b.hashValue with le | le <;> simp [le]

theorem exists_calculated (crc : List UInt8 → Hash) (raw : Nat → Hash) (stats : List ServiceStat) :
    ∃ table, HashCalculated crc raw stats table := by
  obtain ⟨table, perm, sorted⟩ := exists_sorted (chStats crc raw stats)
  exact ⟨table, perm, sorted⟩

/-- Unwritten places with the hash of the place `r`, put in front of it. -/
def withGap (sorted : List CHServiceStat) (r failed : Nat) (value : Hash) : List CHServiceStat :=
  sorted.take r ++ (List.replicate failed ⟨none, value⟩ ++ sorted.drop r)

theorem withGap_sorted {sorted : List CHServiceStat}
    (inOrder : sorted.Pairwise fun a b => a.hashValue ≤ b.hashValue) {r : Nat}
    (inside : r < sorted.length) (failed : Nat) :
    (withGap sorted r failed sorted[r].hashValue).Pairwise
      fun a b => a.hashValue ≤ b.hashValue := by
  have isR := List.getElem?_eq_getElem inside
  have before : ∀ e ∈ sorted.take r, e.hashValue ≤ sorted[r].hashValue := by
    intro e member
    obtain ⟨j, small, rfl⟩ := List.mem_take_iff_getElem.mp member
    exact sorted_le inOrder (by omega : j ≤ r) (List.getElem?_eq_getElem (by omega)) isR
  have behind : ∀ e ∈ sorted.drop r, sorted[r].hashValue ≤ e.hashValue := by
    intro e member
    obtain ⟨j, small, rfl⟩ := List.mem_drop_iff_getElem.mp member
    exact sorted_le inOrder (by omega : r ≤ r + j) isR (List.getElem?_eq_getElem (by omega))
  refine List.pairwise_append.mpr ⟨inOrder.take, List.pairwise_append.mpr
    ⟨List.pairwise_replicate.mpr (Or.inr (le_refl _)), inOrder.drop, fun a isA b isB => ?_⟩,
    fun a isA b isB => ?_⟩
  · rw [List.eq_of_mem_replicate isA]
    exact behind b isB
  · rcases List.mem_append.mp isB with isGap | isBack
    · rw [List.eq_of_mem_replicate isGap]
      exact before a isA
    · exact le_trans (before a isA) (behind b isBack)

theorem withGap_perm (sorted : List CHServiceStat) (r failed : Nat) (value : Hash) :
    (withGap sorted r failed value).Perm (sorted ++ List.replicate failed ⟨none, value⟩) := by
  have moved : (withGap sorted r failed value).Perm
      (sorted.take r ++ (sorted.drop r ++ List.replicate failed ⟨none, value⟩)) :=
    List.perm_append_comm.append_left _
  rwa [← List.append_assoc, List.take_append_drop] at moved

theorem withGap_before {sorted : List CHServiceStat} {r j : Nat} (inside : r < sorted.length)
    (less : j < r) (failed : Nat) (value : Hash) :
    (withGap sorted r failed value)[j]? = sorted[j]? := by
  rw [withGap, List.getElem?_append_left (by rw [List.length_take]; omega),
    List.getElem?_take_of_lt less]

theorem withGap_at {sorted : List CHServiceStat} {r failed : Nat} (inside : r < sorted.length)
    (some' : 0 < failed) (value : Hash) :
    (withGap sorted r failed value)[r]? = some ⟨none, value⟩ := by
  have front : (sorted.take r).length = r := by
    rw [List.length_take]
    omega
  rw [withGap, List.getElem?_append_right (by omega), front, Nat.sub_self,
    List.getElem?_append_left (by rw [List.length_replicate]; exact some'),
    List.getElem?_replicate, if_pos some']

/-- The search ends at the same place when the gap is put there. -/
theorem Cut.withGap {sorted : List CHServiceStat} {hash : Hash} {last r r' failed : Nat}
    (cut : Cut sorted hash last r) (inside : r < sorted.length) (some' : 0 < failed)
    (cut' : Cut (withGap sorted r failed sorted[r].hashValue) hash last r') : r' = r := by
  rcases Nat.lt_trichotomy r' r with less | same | more
  · have isE := List.getElem?_eq_getElem (Nat.lt_trans less inside)
    have low := cut.below r' less _ isE
    have high := cut'.above r' (Nat.le_refl _) (Nat.lt_of_lt_of_le less cut.le) _
      ((withGap_before inside less _ _).trans isE)
    exact absurd low (not_lt.mpr high)
  · exact same
  · have low := cut'.below r more _ (withGap_at inside some' _)
    have high := cut.above r (Nat.le_refl _) (Nat.lt_of_lt_of_le more cut'.le) _
      (List.getElem?_eq_getElem inside)
    exact absurd low (not_lt.mpr high)

/-- An unwritten place can stand where the search ends. -/
theorem exists_unwritten (given : key ≠ []) (works : ∃ s ∈ stats, s.working)
    (fails : ∃ s ∈ stats, ¬ s.working) :
    ∃ raw table, HashCalculated crc raw stats table ∧
      hashSelectService crc table (validCount stats) key = some (.place none) := by
  obtain ⟨sorted, perm, inOrder⟩ :=
    exists_sorted ((stats.filter ServiceStat.working).map (entry crc))
  have length : sorted.length = validCount stats := by
    rw [perm.length_eq, List.length_map, validCount, List.countP_eq_length_filter]
  have someWork : 0 < validCount stats := List.countP_pos_iff.mpr works
  have someFailed : 0 < stats.countP fun s => ¬ s.working := by
    obtain ⟨s, member, isFailed⟩ := fails
    exact List.countP_pos_iff.mpr ⟨s, member, by simpa using isFailed⟩
  obtain ⟨r, -, cut⟩ := searchIndex_cut inOrder
    (show validCount stats - 1 < sorted.length by omega) (memcachedHashCrc32 crc key)
  have inside : r < sorted.length := by
    have least := cut.le
    omega
  have tableSorted := withGap_sorted inOrder inside (stats.countP fun s => ¬ s.working)
  have tablePerm := ((withGap_perm sorted r (stats.countP fun s => ¬ s.working)
    sorted[r].hashValue).trans (perm.append_right _)).trans
      (chStats_perm crc sorted[r].hashValue stats).symm
  have tableLength : validCount stats - 1 < (withGap sorted r
      (stats.countP fun s => ¬ s.working) sorted[r].hashValue).length := by
    rw [tablePerm.length_eq, chStats, List.length_mapIdx]
    have most : validCount stats ≤ stats.length := List.countP_le_length
    omega
  obtain ⟨r', found, cut'⟩ := searchIndex_cut tableSorted tableLength (memcachedHashCrc32 crc key)
  obtain rfl := cut.withGap inside someFailed cut'
  exact ⟨_, _, ⟨tablePerm, tableSorted⟩,
    hashSelectService_eq given found (withGap_at inside someFailed _)⟩

/-- What the search finds when all services work. -/
theorem select_all_work (allWork : ∀ s ∈ stats, s.working) (some' : stats ≠ []) (given : key ≠ [])
    (calculated : HashCalculated crc raw stats table) :
    ∃ r s, Cut table (memcachedHashCrc32 crc key) (stats.length - 1) r ∧
      table[r]? = some (entry crc s) ∧ s ∈ stats ∧
      hashSelectService crc table (validCount stats) key = some (.place (some s)) := by
  have count : validCount stats = stats.length := List.countP_eq_length.mpr allWork
  have length : table.length = stats.length := by
    rw [calculated.perm.length_eq, chStats, List.length_mapIdx]
  have nonempty := List.length_pos_of_ne_nil some'
  obtain ⟨r, found, cut⟩ := searchIndex_cut calculated.sorted
    (show stats.length - 1 < table.length by omega) (memcachedHashCrc32 crc key)
  have inside : r < table.length := by
    have least := cut.le
    omega
  have member : table[r] ∈ chStats crc raw stats :=
    calculated.perm.mem_iff.mp (List.getElem_mem inside)
  obtain ⟨i, small, isPlace⟩ := List.mem_mapIdx.mp member
  rw [if_pos (allWork _ (List.getElem_mem small))] at isPlace
  have isEntry : table[r]? = some (entry crc stats[i]) := by
    rw [List.getElem?_eq_getElem inside, ← isPlace]
    rfl
  exact ⟨r, stats[i], cut, isEntry, List.getElem_mem small,
    hashSelectService_eq given (count ▸ found) isEntry⟩

/-- Every service that works has a place. -/
theorem place_of (calculated : HashCalculated crc raw stats table) {s : ServiceStat}
    (member : s ∈ stats) (isWorking : s.working) :
    ∃ j : Nat, table[j]? = some (entry crc s) := by
  refine List.mem_iff_getElem?.mp (calculated.perm.mem_iff.mpr ?_)
  obtain ⟨i, small, rfl⟩ := List.mem_iff_getElem.mp member
  exact List.mem_mapIdx.mpr ⟨i, small, if_pos isWorking⟩

theorem hashRight_of_reached (reached : Reached crc stats key) : HashRight crc stats key := by
  obtain ⟨allWork, given, found⟩ := reached
  intro works raw table calculated
  obtain ⟨first, firstMember, -⟩ := works
  obtain ⟨r, s, cut, isEntry, member, selected⟩ :=
    select_all_work allWork (List.ne_nil_of_mem firstMember) given calculated
  refine ⟨s, member, allWork s member, ?_, selected⟩
  have length : table.length = stats.length := by
    rw [calculated.perm.length_eq, chStats, List.length_mapIdx]
  -- a place that is not below the hash of the key is not before the place found
  have notBefore : ∀ s' ∈ stats, memcachedHashCrc32 crc key ≤ memcachedHashCrc32 crc s'.addr →
      ∃ j : Nat, r ≤ j ∧ table[j]? = some (entry crc s') := by
    intro s' member' high
    obtain ⟨j, isPlace⟩ := place_of calculated member' (allWork s' member')
    refine ⟨j, Nat.not_lt.mp fun before => ?_, isPlace⟩
    exact absurd (cut.below j before _ isPlace) (not_lt.mpr high)
  by_cases some' : ∃ s' ∈ stats, memcachedHashCrc32 crc key ≤ memcachedHashCrc32 crc s'.addr
  · obtain ⟨s', member', high⟩ := some'
    refine Or.inl ⟨?_, fun s'' member'' _ high'' => ?_⟩
    · obtain ⟨j, behind, isPlace⟩ := notBefore s' member' high
      by_cases isLast : r < stats.length - 1
      · exact cut.above r (Nat.le_refl _) isLast _ isEntry
      · obtain ⟨inside, -⟩ := List.getElem?_eq_some_iff.mp isPlace
        obtain rfl : j = r := by omega
        have same := Option.some.inj (isPlace.symm.trans isEntry)
        have sameHash : memcachedHashCrc32 crc s'.addr = memcachedHashCrc32 crc s.addr :=
          congrArg CHServiceStat.hashValue same
        exact sameHash ▸ high
    · obtain ⟨j, behind, isPlace⟩ := notBefore s'' member'' high''
      exact sorted_le calculated.sorted behind isEntry isPlace
  · refine Or.inr ⟨fun s' member' _ => not_le.mp fun high => some' ⟨s', member', high⟩,
      fun s' member' _ => ?_⟩
    exact le_of_eq ((found.resolve_left some') s member s' member')

theorem reached_of_hashRight (works : ∃ s ∈ stats, s.working) (right : HashRight crc stats key) :
    Reached crc stats key := by
  obtain ⟨table, calculated⟩ := exists_calculated crc (fun _ => 0) stats
  obtain ⟨s, -, -, target, selected⟩ := right works _ table calculated
  have given : key ≠ [] := by
    rintro rfl
    exact nomatch Option.some.inj selected
  have allWork : ∀ s ∈ stats, s.working := by
    intro s' member
    by_contra isFailed
    obtain ⟨raw, table', calculated', unwritten⟩ :=
      exists_unwritten given works ⟨s', member, isFailed⟩
    obtain ⟨s'', -, -, -, selected'⟩ := right works raw table' calculated'
    exact nomatch unwritten.symm.trans selected'
  refine ⟨allWork, given, ?_⟩
  by_contra neither
  obtain ⟨noneAbove, notEqual⟩ := not_or.mp neither
  -- no hash reaches that of the key, so the last place is found
  obtain ⟨first, firstMember, -⟩ := works
  obtain ⟨r, s₁, cut, isEntry, member₁, selected₁⟩ :=
    select_all_work allWork (List.ne_nil_of_mem firstMember) given calculated
  obtain rfl : s₁ = s :=
    Option.some.inj (Selected.place.inj (Option.some.inj (selected₁.symm.trans selected)))
  have length : table.length = stats.length := by
    rw [calculated.perm.length_eq, chStats, List.length_mapIdx]
  have isLast : r = stats.length - 1 := by
    refine Nat.le_antisymm cut.le (Nat.not_lt.mp fun before => noneAbove ⟨s₁, member₁, ?_⟩)
    exact cut.above r (Nat.le_refl _) before _ isEntry
  have least : ∀ s' ∈ stats, memcachedHashCrc32 crc s₁.addr ≤ memcachedHashCrc32 crc s'.addr := by
    rcases target with ⟨high, -⟩ | ⟨-, least⟩
    · exact absurd ⟨s₁, member₁, high⟩ noneAbove
    · exact fun s' member' => least s' member' (allWork s' member')
  have same : ∀ s' ∈ stats, memcachedHashCrc32 crc s'.addr = memcachedHashCrc32 crc s₁.addr := by
    intro s' member'
    obtain ⟨j, isPlace⟩ := place_of calculated member' (allWork s' member')
    obtain ⟨inside, -⟩ := List.getElem?_eq_some_iff.mp isPlace
    exact le_antisymm (sorted_le calculated.sorted (by omega : j ≤ r) isPlace isEntry)
      (least s' member')
  exact notEqual fun s' member' s'' member'' => (same s' member').trans (same s'' member'').symm

/-- A key gets the service it leads to exactly when all services work and the search need not begin
again at the first place. -/
theorem hashRight_iff (crc : List UInt8 → Hash) (stats : List ServiceStat) (key : List UInt8) :
    HashRight crc stats key ↔ ((∃ s ∈ stats, s.working) → Reached crc stats key) := by
  constructor
  · intro right works
    exact reached_of_hashRight works right
  · intro reached works
    exact hashRight_of_reached (reached works) works

end Hashed

/-- Both selectors pick the right services exactly when the weights are their own conjugate, and the
services all work and the hash of the key is reached. -/
theorem right_iff_conjugate_and_reached (crc : List UInt8 → Hash) (stats : List ServiceStat)
    (key : List UInt8) :
    (RandomRight stats ∧ HashRight crc stats key) ↔
      ((∀ s ∈ stats, 1 ≤ s.weight) → (∃ s ∈ stats, s.working) → Conjugate stats) ∧
        ((∃ s ∈ stats, s.working) → Reached crc stats key) := by
  rw [randomRight_iff, hashRight_iff]

/-- An entry of `crc32tab`, by the polynomial that the table was made from. -/
def crc32tab (n : Nat) : Nat :=
  Nat.iterate (fun c => if c % 2 = 1 then (c >>> 1) ^^^ 0xEDB88320 else c >>> 1) 8 n

/-- `hash_crc32`. -/
def hashCrc32 (key : List UInt8) : Hash :=
  Fin.ofNat 4294967296 (0xFFFFFFFF ^^^ key.foldl
    (fun crc c => (crc >>> 8) ^^^ crc32tab ((crc ^^^ c.toNat) &&& 0xff)) 0xFFFFFFFF)

/-- Two working services of weight one with the addresses `c` and `d`. -/
def twoServices : List ServiceStat := [⟨1, [99], 1, 0⟩, ⟨2, [100], 1, 0⟩]

/-- The first service is entered twice, and the key `a`, whose hash is behind both, gets the second
service. -/
theorem not_right_two_services :
    ¬ RandomRight twoServices ∧ ¬ HashRight hashCrc32 twoServices [97] := by
  constructor
  · intro right
    obtain ⟨sids, calculated, tables⟩ := right (by decide)
    have isTable : some [1, 1] = some sids := calculated
    obtain rfl := Option.some.inj isTable
    exact absurd (tables _ (List.Perm.refl _) ⟨⟨1, [99], 1, 0⟩, by decide, by decide⟩ 2) (by decide)
  · intro right
    have reached := (hashRight_iff hashCrc32 twoServices [97]).mp right
      ⟨⟨1, [99], 1, 0⟩, by decide, by decide⟩
    rcases reached.found with ⟨s, member, high⟩ | same
    · revert s
      decide
    · exact absurd (same ⟨1, [99], 1, 0⟩ (by decide) ⟨2, [100], 1, 0⟩ (by decide)) (by decide)

end MlsImgSearch.Blitz.LegacySelectors
