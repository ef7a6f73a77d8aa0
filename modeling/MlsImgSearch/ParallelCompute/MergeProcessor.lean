import Mathlib.Algebra.Order.Ring.Int
import MlsImgSearch.Lib.SortedList
import MlsImgSearch.Lib.SparseList

/-!
# The parts of a query for the threads

`PartitionData` of the merge server and `BeginMerge` of the search server cut the
words of a query into parts, one for each thread. All parts but the last one take
the same number of words, one at least, and the last part takes what is left.
-/

namespace MlsImgSearch.ParallelCompute.MergeProcessor

open MlsImgSearch.Lib.SortedList
open MlsImgSearch.Lib.SparseList

variable {α : Type}

/-! ## Cutting -/

/-- A `std::map` from word ids, in the order of its keys. -/
structure BOFQuantizeResultMap (α : Type) where
  entries : List (Int × α)
  ascending : Ascending Prod.fst entries

/-- `insert` into a map: an entry that is there stays. -/
def insert (imgQdata : List (Int × α)) (entry : Int × α) : List (Int × α) :=
  upsert Prod.fst entry.1 id [entry] imgQdata

/-- The inner loop: the entries from the iterator on, and `none` for a read or a step at
`end()`. -/
def takeWords : Nat → List (Int × α) → List (Int × α) → Option (List (Int × α) × List (Int × α))
  | 0, part, it => some (part, it)
  | _ + 1, _, [] => none
  | n + 1, part, entry :: it => takeWords n (insert part entry) it

/-- The parts before the last one. -/
def takeParts (len : Nat) : Nat → List (List (Int × α)) → List (Int × α) →
    Option (List (List (Int × α)) × List (Int × α))
  | 0, pmv, it => some (pmv, it)
  | count + 1, pmv, it =>
      (takeWords len [] it).bind fun (part, it) => takeParts len count (pmv ++ [part]) it

/-- The size divided as a `size_t`, then taken as an `int`. -/
def partLen (size : Nat) (n : Int) : Int :=
  let len := (BitVec.ofNat 32 (size / (n % 2 ^ 64).toNat)).toInt
  if len = 0 then 1 else len

/-- Both functions: the return value and the parts; `none` is undefined behaviour. -/
def partition (n : Int) (imgQdata : BOFQuantizeResultMap α) (pmv : List (List (Int × α))) :
    Option (Int × List (List (Int × α))) :=
  if n = 0 then none
  else
    (takeParts (partLen imgQdata.entries.length n).toNat (n - 1).toNat pmv imgQdata.entries).map
      fun (pmv, it) => (0, pmv ++ [it.foldl insert []])

def partitionData (partitionNum : Int) (imgQdata : BOFQuantizeResultMap α)
    (pmv : List (List (Int × α))) : Option (Int × List (List (Int × α))) :=
  partition partitionNum imgQdata pmv

def beginMerge (step : Int) (imgQdata : BOFQuantizeResultMap α)
    (pmv : List (List (Int × α))) : Option (Int × List (List (Int × α))) :=
  partition step imgQdata pmv

/-! ## The contract -/

/-- Parts whose concatenation is the map, with every word in one of them. -/
structure Parts (n : Int) (imgQdata : BOFQuantizeResultMap α) (parts : List (List (Int × α))) :
    Prop where
  count : parts.length = n
  whole : parts.flatten = imgQdata.entries
  once : ∀ entry ∈ imgQdata.entries,
    ∃! i : Nat, ∃ part, parts[i]? = some part ∧ ∃ value, (entry.1, value) ∈ part

/-- The call returns 0, never reads at `end()`, and adds the parts. -/
def Partitions (n : Int) (imgQdata : BOFQuantizeResultMap α) (pmv : List (List (Int × α)))
    (ran : Option (Int × List (List (Int × α)))) : Prop :=
  ∃ parts, ran = some (0, pmv ++ parts) ∧ Parts n imgQdata parts

/-! ## Parts of a list in ascending order -/

theorem insert_append {part : List (Int × α)} {entry : Int × α}
    (below : ∀ before ∈ part, before.1 < entry.1) : insert part entry = part ++ [entry] := by
  have placed : upsert Prod.fst entry.1 id [entry] (part ++ []) = part ++ [entry] :=
    upsert_append below []
  rw [List.append_nil] at placed
  exact placed

theorem foldl_insert {part it : List (Int × α)} (ascending : Ascending Prod.fst (part ++ it)) :
    it.foldl insert part = part ++ it := by
  induction it generalizing part with
  | nil => rw [List.foldl_nil, List.append_nil]
  | cons entry it ih =>
      have below : ∀ before ∈ part, before.1 < entry.1 := fun before member =>
        (List.pairwise_append.mp ascending).2.2 before member entry (List.mem_cons_self ..)
      rw [← List.singleton_append, ← List.append_assoc] at ascending ⊢
      rw [List.singleton_append, List.foldl_cons, insert_append below]
      exact ih ascending

theorem takeWords_eq {n : Nat} {part it : List (Int × α)}
    (ascending : Ascending Prod.fst (part ++ it)) :
    takeWords n part it =
      if n ≤ it.length then some (part ++ it.take n, it.drop n) else none := by
  induction n generalizing part it with
  | zero => simp [takeWords]
  | succ n ih =>
      cases it with
      | nil => rfl
      | cons entry it =>
          have below : ∀ before ∈ part, before.1 < entry.1 := fun before member =>
            (List.pairwise_append.mp ascending).2.2 before member entry (List.mem_cons_self ..)
          rw [← List.singleton_append, ← List.append_assoc] at ascending
          rw [takeWords, insert_append below, ih ascending]
          simp

/-- The loop over the parts reads at `end()` if there are too few words for them. -/
theorem takeParts_eq_none {len count : Nat} {pmv : List (List (Int × α))} {it : List (Int × α)}
    (ascending : Ascending Prod.fst it) (few : it.length < count * len) :
    takeParts len count pmv it = none := by
  induction count generalizing pmv it with
  | zero => omega
  | succ count ih =>
      rw [Nat.succ_mul] at few
      rw [takeParts, takeWords_eq (by rwa [List.nil_append])]
      by_cases enough : len ≤ it.length
      · rw [if_pos enough, Option.bind_some]
        refine ih (ascending.sublist (List.drop_sublist _ _)) ?_
        rw [List.length_drop]
        omega
      · rw [if_neg enough, Option.bind_none]

theorem takeParts_eq_some {len count : Nat} {it : List (Int × α)} (pmv : List (List (Int × α)))
    (ascending : Ascending Prod.fst it) (enough : count * len ≤ it.length) :
    ∃ parts rest, takeParts len count pmv it = some (pmv ++ parts, rest) ∧
      parts.length = count ∧ parts.flatten ++ rest = it := by
  induction count generalizing pmv it with
  | zero => exact ⟨[], it, by rw [List.append_nil]; rfl, rfl, rfl⟩
  | succ count ih =>
      rw [Nat.succ_mul] at enough
      obtain ⟨parts, rest, taken, length, whole⟩ := ih (pmv ++ [it.take len])
        (ascending.sublist (List.drop_sublist len it)) (by rw [List.length_drop]; omega)
      refine ⟨it.take len :: parts, rest, ?_, by rw [List.length_cons, length], ?_⟩
      · rw [takeParts, takeWords_eq (by rwa [List.nil_append]), if_pos (by omega), Option.bind_some,
          List.nil_append]
        dsimp only
        rw [taken, List.append_assoc, List.singleton_append]
      · rw [List.flatten_cons, List.append_assoc, whole, List.take_append_drop]

theorem partLen_of_small {size : Nat} {n : Int} (range : n < 2 ^ 31) (small : size < n) :
    partLen size n = 1 := by
  have divisor : (n % 2 ^ 64).toNat = n.toNat := by omega
  have none' : size / n.toNat = 0 := Nat.div_eq_of_lt (by omega)
  rw [partLen, divisor, none']
  rfl

/-- The conversion to `int` makes no part longer. -/
theorem partLen_le {size : Nat} {n : Int} (positive : 1 ≤ n) (range : n < 2 ^ 31)
    (large : n ≤ size) : (partLen size n).toNat ≤ size / n.toNat := by
  have divisor : (n % 2 ^ 64).toNat = n.toNat := by omega
  have some' : 0 < size / n.toNat := Nat.div_pos (by omega) (by omega)
  have value : (BitVec.ofNat 32 (size / n.toNat)).toInt ≤ (size / n.toNat : Nat) := by
    rw [BitVec.toInt_eq_toNat_cond, BitVec.toNat_ofNat]
    generalize size / n.toNat = len
    omega
  rw [partLen, divisor]
  generalize size / n.toNat = len at some' value ⊢
  split
  · exact some'
  · omega

/-- The words fall short if there are fewer of them than parts before the last one. -/
theorem partLen_fits {size : Nat} {n : Int} (positive : 1 ≤ n) (range : n < 2 ^ 31) :
    (n - 1).toNat * (partLen size n).toNat ≤ size ↔ n ≤ size + 1 := by
  by_cases small : size < n
  · rw [partLen_of_small range small, Int.toNat_one, Nat.mul_one]
    omega
  · have large : n ≤ size := Int.not_lt.mp small
    refine ⟨fun _ => Int.le_trans large (by omega), fun _ => ?_⟩
    calc (n - 1).toNat * (partLen size n).toNat
        ≤ n.toNat * (size / n.toNat) := Nat.mul_le_mul (by omega) (partLen_le positive range large)
      _ ≤ size := Nat.mul_div_le size n.toNat

/-! ## The result -/

/-- An entry of parts without common keys lies in one of them. -/
theorem existsUnique_part {parts : List (List (Int × α))}
    (ascending : Ascending Prod.fst parts.flatten) {entry : Int × α}
    (member : entry ∈ parts.flatten) :
    ∃! i : Nat, ∃ part, parts[i]? = some part ∧ ∃ value, (entry.1, value) ∈ part := by
  obtain ⟨part, isPart, inPart⟩ := List.mem_flatten.mp member
  obtain ⟨i, found⟩ := List.mem_iff_getElem?.mp isPart
  refine ⟨i, ⟨part, found, entry.2, inPart⟩, ?_⟩
  rintro j ⟨other, found', value, inOther⟩
  have apart := (List.pairwise_flatten.mp ascending).2
  obtain ⟨iLt, rfl⟩ := List.getElem?_eq_some_iff.mp found
  obtain ⟨jLt, rfl⟩ := List.getElem?_eq_some_iff.mp found'
  rcases Nat.lt_trichotomy i j with less | same | greater
  · have lt := List.pairwise_iff_getElem.mp apart i j iLt jLt less _ inPart _ inOther
    exact absurd lt (Int.lt_irrefl _)
  · exact same.symm
  · have lt := List.pairwise_iff_getElem.mp apart j i jLt iLt greater _ inOther _ inPart
    exact absurd lt (Int.lt_irrefl _)

theorem partition_iff {n : Int} (positive : 1 ≤ n) (range : n < 2 ^ 31)
    (imgQdata : BOFQuantizeResultMap α) (pmv : List (List (Int × α))) :
    Partitions n imgQdata pmv (partition n imgQdata pmv) ↔ n ≤ imgQdata.entries.length + 1 := by
  have nonzero : n ≠ 0 := by omega
  rw [← partLen_fits positive range, partition, if_neg nonzero]
  constructor
  · rintro ⟨parts, ran, -⟩
    by_contra few
    rw [takeParts_eq_none imgQdata.ascending (Nat.lt_of_not_le few)] at ran
    cases ran
  · intro enough
    obtain ⟨parts, rest, taken, length, whole⟩ :=
      takeParts_eq_some pmv imgQdata.ascending enough
    have ascending := imgQdata.ascending
    rw [← whole] at ascending
    have last : rest.foldl insert [] = rest :=
      foldl_insert (ascending.sublist (List.sublist_append_right _ _))
    have all : (parts ++ [rest]).flatten = imgQdata.entries := by
      rw [List.flatten_append, List.flatten_singleton, whole]
    refine ⟨parts ++ [rest], ?_, ?_, all, fun entry member => ?_⟩
    · rw [taken, Option.map_some]
      dsimp only
      rw [last, List.append_assoc]
    · rw [List.length_append, List.length_singleton, length]
      omega
    · rw [← all] at member
      exact existsUnique_part (by rw [all]; exact imgQdata.ascending) member

/--
Parts of a query: for every query and every number of parts, both functions cut
the words into that many parts, one word in one part, without a read at `end()`,
if and only if there is at most one part more than words.
-/
theorem partitions_iff_enough_words {n : Int} (positive : 1 ≤ n) (range : n < 2 ^ 31)
    (imgQdata : BOFQuantizeResultMap α) (pmv : List (List (Int × α))) :
    (Partitions n imgQdata pmv (partitionData n imgQdata pmv) ↔
        n ≤ imgQdata.entries.length + 1) ∧
      (Partitions n imgQdata pmv (beginMerge n imgQdata pmv) ↔
        n ≤ imgQdata.entries.length + 1) :=
  ⟨partition_iff positive range imgQdata pmv, partition_iff positive range imgQdata pmv⟩

/-- Three parts for two words: the last one is empty. -/
theorem partitions_three_of_two :
    Partitions 3 ⟨[(4, 'a'), (9, 'b')], by decide⟩ []
      (partitionData 3 ⟨[(4, 'a'), (9, 'b')], by decide⟩ []) :=
  ((partitions_iff_enough_words (by decide) (by decide) _ []).1).mpr (by decide)

/-- Three parts for one word: the second part starts at `end()`. -/
theorem not_partitions_three_of_one :
    partitionData 3 ⟨[(4, 'a')], by decide⟩ [] = none ∧
      beginMerge 3 ⟨[(4, 'a')], by decide⟩ [] = none ∧
      ¬ Partitions 3 ⟨[(4, 'a')], by decide⟩ [] (partitionData 3 ⟨[(4, 'a')], by decide⟩ []) := by
  refine ⟨by decide, by decide, ?_⟩
  rintro ⟨parts, ran, -⟩
  revert ran
  rw [show partitionData 3 ⟨[(4, 'a')], by decide⟩ [] = none by decide]
  exact nofun

end MlsImgSearch.ParallelCompute.MergeProcessor
