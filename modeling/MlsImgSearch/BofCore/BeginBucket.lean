import MlsImgSearch.BofCore.BucketMerge

/-!
# Searchers of a part of the index

The index of a part starts with the bucket of its first word, so that
`MergeBucketResult` subtracts `begin_bucket_id_` from the word. It then uses
the difference for the query as well: `operator[]` finds the entry of another
word there, or makes one.
-/

namespace MlsImgSearch.BofCore.BeginBucket

open MlsImgSearch.Lib.Run
open MlsImgSearch.Lib.SortedList
open MlsImgSearch.Lib.SparseList
open MlsImgSearch.BofCore.IndexerSerializer
open MlsImgSearch.BofCore.Indexer
open MlsImgSearch.BofCore.Searcher
open MlsImgSearch.BofCore.BucketMerge (twoBuckets plainWord)

/-! ## The query as a map -/

/-- A `BOFQuantizeResultMap`, with the keys in ascending order. -/
abbrev QueryMap := List (Int × BOFQuantizeResult)

/-- The entry of a word, as the default constructor makes it. -/
def freshResult : BOFQuantizeResult := ⟨0, [], []⟩

def find (queryData : QueryMap) (word : Int) : Option BOFQuantizeResult :=
  (queryData.find? fun entry => entry.1 = word).map Prod.snd

/-- `operator[]`: the value, and the map with an entry for the key. -/
def subscript (queryData : QueryMap) (word : Int) : BOFQuantizeResult × QueryMap :=
  match find queryData word with
  | some value => (value, queryData)
  | none => (freshResult, upsert Prod.fst word id [(word, freshResult)] queryData)

/-! ## The searcher -/

/-- A bucket that was asked for, and the weight and codes that it was combined with if it loaded. -/
structure Load where
  bucket : Int
  combined : Option (ℚ × List UInt8)
  deriving DecidableEq

/-- The fields of the searcher that change, and what was loaded so far. -/
structure PartState where
  resultSimilar : List MergeSimilarInfo := []
  queryPow : ℚ := 0
  queryData : QueryMap
  loads : List Load := []
  deriving DecidableEq

/-- A negative number is an access outside of the hints. -/
def loadBucket (index : BOFIndex) (bucket : Int) : Option (Int × WordIndex) :=
  if bucket < 0 then none else loadWord index bucket.toNat

section Merge

variable (beginBucketId : Nat) (index : BOFIndex) (heThreshold : Int) (endPic : Int → BitVec 64)

/-- `MergeBucketResult` for a word. -/
def mergeBucketResult (word : Int) (s : PartState) : Option (Int × PartState) :=
  let bucket := word - beginBucketId
  (loadBucket index bucket).bind fun (ret, wordIndex) =>
    if ret ≠ 0 then some (-1, { s with loads := s.loads ++ [⟨bucket, none⟩] })
    else
      let (value, queryData) := subscript s.queryData bucket
      (heString2Int value.he).bind fun queryHe =>
        (mergeItems heThreshold value.q queryHe (endPic word) wordIndex.items []
          s.resultSimilar).map fun result =>
            (0, ⟨result, s.queryPow + value.q ^ 2, queryData,
              s.loads ++ [⟨bucket, some (value.q, value.he)⟩]⟩)

def partStep (s : PartState) (entry : Int × BOFQuantizeResult) : Option PartState :=
  (mergeBucketResult beginBucketId index heThreshold endPic entry.1 s).map Prod.snd

/-- The loop over the words. New entries lie below the word at hand, so that the iterator goes
through the entries that the query had at the start. -/
def mergeLoop (queryData : QueryMap) : Option PartState :=
  exec (partStep beginBucketId index heThreshold endPic) { queryData := queryData } queryData

/-- `Searcher::Merge`: the return code and the new state. -/
def merge (queryData : QueryMap) : Option (Int × PartState) :=
  (mergeLoop beginBucketId index heThreshold endPic queryData).map fun s =>
    (if 0 < s.resultSimilar.length then 0 else -2, s)

/-- `Searcher::MergeByThread` on the map that the searcher was given: the value of the promise and
the new state. -/
def mergeByThread (queryData : QueryMap) : Option (List MergeSimilarInfo × PartState) :=
  (mergeLoop beginBucketId index heThreshold endPic queryData).map fun s => (s.resultSimilar, s)

end Merge

/-! ## What the calls should do -/

section Spec

variable (beginBucketId : Nat) (index : BOFIndex) (heThreshold : Int) (endPic : Int → BitVec 64)

/-- The bucket of a word, combined with the entry of the word. -/
def loadOf (entry : Int × BOFQuantizeResult) : Load :=
  ⟨entry.1 - beginBucketId,
    match loadBucket index (entry.1 - beginBucketId) with
    | some (0, _) => some (entry.2.q, entry.2.he)
    | _ => none⟩

/-- Each word is combined with its own entry, and the query is left alone. -/
def OwnEntries (queryData : QueryMap) (s : PartState) : Prop :=
  s.loads = queryData.map (loadOf beginBucketId index) ∧ s.queryData = queryData

/-- The entry that the code uses for a word has the weight and the codes of the word. -/
def Alike (queryData : QueryMap) (entry : Int × BOFQuantizeResult) : Prop :=
  beginBucketId ≤ entry.1 ∧
    ∀ wordIndex, loadBucket index (entry.1 - beginBucketId) = some (0, wordIndex) →
      ∃ other, find queryData (entry.1 - beginBucketId) = some other ∧ other.q = entry.2.q ∧
        other.he = entry.2.he

/-- The words with their places in the index. -/
def placed (queryData : QueryMap) : List QueryWord :=
  queryData.map fun entry => ((entry.1 - (beginBucketId : Int)).toNat, entry.2)

/-- The merge of the buckets with the entries of their words comes to its end. -/
def Completes (queryData : QueryMap) : Prop :=
  (mergeWords index heThreshold (fun i => endPic (i + beginBucketId)) (placed beginBucketId queryData)
    {}).isSome

end Spec

/-! ## The map -/

theorem find_eq_none {queryData : QueryMap} {word : Int} :
    find queryData word = none ↔ ∀ entry ∈ queryData, entry.1 ≠ word := by
  rw [find, Option.map_eq_none_iff, List.find?_eq_none]
  simp only [decide_eq_true_eq]

theorem find_of_mem {queryData : QueryMap} (asc : Ascending Prod.fst queryData)
    {entry : Int × BOFQuantizeResult} (member : entry ∈ queryData) :
    find queryData entry.1 = some entry.2 := by
  have isSome : (queryData.find? fun other => other.1 = entry.1).isSome := by
    rw [List.find?_isSome]
    exact ⟨entry, member, decide_eq_true rfl⟩
  obtain ⟨other, found⟩ := Option.isSome_iff_exists.mp isSome
  have same : other = entry := asc.eq_of_key_eq (List.mem_of_find?_eq_some found) member
    (by simpa using List.find?_some found)
  rw [find, found, same]
  rfl

theorem subscript_of_find {queryData : QueryMap} {word : Int} {value : BOFQuantizeResult}
    (found : find queryData word = some value) : subscript queryData word = (value, queryData) := by
  rw [subscript, found]

theorem length_upsert_fresh {queryData : QueryMap} {word : Int} {value : BOFQuantizeResult}
    (absent : ∀ entry ∈ queryData, entry.1 ≠ word) :
    (upsert Prod.fst word id [(word, value)] queryData).length = queryData.length + 1 := by
  induction queryData with
  | nil => rfl
  | cons entry rest ih =>
      have other := absent entry (List.mem_cons_self ..)
      rw [upsert, if_neg (Ne.symm other)]
      split
      · rfl
      · rw [List.length_cons, ih fun entry member => absent entry (List.mem_cons_of_mem _ member),
          List.length_cons]

/-- A new entry makes the map longer. -/
theorem length_subscript_lt {queryData : QueryMap} {word : Int} (absent : find queryData word = none) :
    queryData.length < (subscript queryData word).2.length := by
  rw [subscript, absent]
  show _ < (upsert Prod.fst word id [(word, freshResult)] queryData).length
  rw [length_upsert_fresh (find_eq_none.mp absent)]
  exact Nat.lt_succ_self _

theorem length_le_subscript (queryData : QueryMap) (word : Int) :
    queryData.length ≤ (subscript queryData word).2.length := by
  cases found : find queryData word with
  | some value =>
      rw [subscript_of_find found]
  | none => exact (length_subscript_lt found).le

/-! ## One word -/

section Word

variable {beginBucketId : Nat} {index : BOFIndex} {heThreshold : Int} {endPic : Int → BitVec 64}

/-- What a call can do. -/
theorem partStep_cases {s s' : PartState} {entry : Int × BOFQuantizeResult}
    (stepped : partStep beginBucketId index heThreshold endPic s entry = some s') :
    (∃ code wordIndex, code ≠ 0 ∧
        loadBucket index (entry.1 - beginBucketId) = some (code, wordIndex) ∧
        s' = { s with loads := s.loads ++ [⟨entry.1 - beginBucketId, none⟩] }) ∨
      ∃ wordIndex queryHe result,
        loadBucket index (entry.1 - beginBucketId) = some (0, wordIndex) ∧
        heString2Int (subscript s.queryData (entry.1 - beginBucketId)).1.he = some queryHe ∧
        mergeItems heThreshold (subscript s.queryData (entry.1 - beginBucketId)).1.q queryHe
          (endPic entry.1) wordIndex.items [] s.resultSimilar = some result ∧
        s' = ⟨result, s.queryPow + (subscript s.queryData (entry.1 - beginBucketId)).1.q ^ 2,
          (subscript s.queryData (entry.1 - beginBucketId)).2,
          s.loads ++ [⟨entry.1 - beginBucketId,
            some ((subscript s.queryData (entry.1 - beginBucketId)).1.q,
              (subscript s.queryData (entry.1 - beginBucketId)).1.he)⟩]⟩ := by
  obtain ⟨⟨ret, s''⟩, ran, rfl⟩ := Option.map_eq_some_iff.mp stepped
  obtain ⟨⟨code, wordIndex⟩, load, rest⟩ := Option.bind_eq_some_iff.mp ran
  dsimp only at rest
  by_cases success : code = 0
  · subst success
    rw [if_neg (not_not.mpr rfl)] at rest
    obtain ⟨queryHe, codes, merged⟩ := Option.bind_eq_some_iff.mp rest
    obtain ⟨result, items, same⟩ := Option.map_eq_some_iff.mp merged
    obtain ⟨_, rfl⟩ := Prod.mk.inj same
    exact Or.inr ⟨wordIndex, queryHe, result, load, codes, items, rfl⟩
  · rw [if_pos success] at rest
    obtain ⟨_, rfl⟩ := Prod.mk.inj (Option.some.inj rest)
    exact Or.inl ⟨code, wordIndex, success, load, rfl⟩

theorem nonneg_of_loadBucket {bucket : Int} {loaded : Int × WordIndex}
    (load : loadBucket index bucket = some loaded) : 0 ≤ bucket := by
  by_contra negative
  rw [loadBucket, if_pos (not_le.mp negative)] at load
  cases load

theorem partStep_grows {s s' : PartState} {entry : Int × BOFQuantizeResult}
    (stepped : partStep beginBucketId index heThreshold endPic s entry = some s') :
    (∃ load, s'.loads = s.loads ++ [load]) ∧ s.queryData.length ≤ s'.queryData.length := by
  rcases partStep_cases stepped with ⟨_, _, _, _, rfl⟩ | ⟨_, _, _, _, _, _, rfl⟩
  · exact ⟨⟨_, rfl⟩, Nat.le_refl _⟩
  · exact ⟨⟨_, rfl⟩, length_le_subscript ..⟩

theorem exec_grows {s s' : PartState} {entries : List (Int × BOFQuantizeResult)}
    (ran : exec (partStep beginBucketId index heThreshold endPic) s entries = some s') :
    s.loads <+: s'.loads ∧ s.queryData.length ≤ s'.queryData.length := by
  induction entries generalizing s with
  | nil =>
      obtain rfl := Option.some.inj ran
      exact ⟨List.prefix_refl _, Nat.le_refl _⟩
  | cons entry entries ih =>
      obtain ⟨mid, first, rest⟩ := Option.bind_eq_some_iff.mp ran
      obtain ⟨⟨load, loads⟩, longer⟩ := partStep_grows first
      obtain ⟨isPrefix, more⟩ := ih rest
      refine ⟨List.IsPrefix.trans ?_ isPrefix, longer.trans more⟩
      rw [loads]
      exact List.prefix_append ..

theorem loadOf_refused {entry : Int × BOFQuantizeResult} {code : Int} {wordIndex : WordIndex}
    (nonzero : code ≠ 0)
    (load : loadBucket index (entry.1 - beginBucketId) = some (code, wordIndex)) :
    loadOf beginBucketId index entry = ⟨entry.1 - beginBucketId, none⟩ := by
  rw [loadOf, load]
  split
  · next same => exact absurd (Prod.mk.inj (Option.some.inj same)).1 nonzero
  · rfl

theorem loadOf_loaded {entry : Int × BOFQuantizeResult} {wordIndex : WordIndex}
    (load : loadBucket index (entry.1 - beginBucketId) = some (0, wordIndex)) :
    loadOf beginBucketId index entry =
      ⟨entry.1 - beginBucketId, some (entry.2.q, entry.2.he)⟩ := by
  rw [loadOf, load]
  rfl

/-- A word of a query that is its own is merged as on an index that starts with its bucket. -/
theorem partStep_alike {queryData : QueryMap} {entry : Int × BOFQuantizeResult} {s : PartState}
    (alike : Alike beginBucketId index queryData entry) (same : s.queryData = queryData) :
    partStep beginBucketId index heThreshold endPic s entry =
      (Searcher.mergeBucketResult index heThreshold (endPic entry.1)
        ((entry.1 - (beginBucketId : Int)).toNat, entry.2) ⟨s.resultSimilar, s.queryPow⟩).map
        fun (_, s') => ⟨s'.resultSimilar, s'.queryPow, queryData,
          s.loads ++ [loadOf beginBucketId index entry]⟩ := by
  obtain ⟨above, used⟩ := alike
  have loads : loadBucket index (entry.1 - beginBucketId) =
      loadWord index (entry.1 - (beginBucketId : Int)).toNat := if_neg (by omega)
  rw [partStep, mergeBucketResult, Searcher.mergeBucketResult]
  dsimp only
  rw [← loads]
  cases load : loadBucket index (entry.1 - beginBucketId) with
  | none => rfl
  | some loaded =>
      obtain ⟨code, wordIndex⟩ := loaded
      rw [Option.bind_some, Option.bind_some]
      dsimp only
      by_cases success : code = 0
      · subst success
        obtain ⟨other, found, q, he⟩ := used wordIndex load
        rw [if_neg (not_not.mpr rfl), if_neg (not_not.mpr rfl), same, subscript_of_find found,
          loadOf_loaded load, ← q, ← he]
        dsimp only
        rw [Option.map_bind, Option.map_bind]
        refine congrArg _ (funext fun queryHe => ?_)
        rw [Function.comp, Function.comp, Option.map_map, Option.map_map]
        rfl
      · rw [if_pos success, if_pos success, loadOf_refused success load, ← same]
        rfl

end Word

/-! ## The whole query -/

section Query

variable {beginBucketId : Nat} {index : BOFIndex} {heThreshold : Int} {endPic : Int → BitVec 64}
  {queryData : QueryMap}

/-- The merge of words from a state on, as on an index that starts with the bucket of the part. -/
def plainRun (beginBucketId : Nat) (index : BOFIndex) (heThreshold : Int)
    (endPic : Int → BitVec 64) (entries : QueryMap) (s : PartState) : Option SearcherState :=
  mergeWords index heThreshold (fun i => endPic (i + beginBucketId)) (placed beginBucketId entries)
    ⟨s.resultSimilar, s.queryPow⟩

theorem plainRun_cons {entry : Int × BOFQuantizeResult} {entries : QueryMap} {s : PartState}
    (above : beginBucketId ≤ entry.1) :
    plainRun beginBucketId index heThreshold endPic (entry :: entries) s =
      ((Searcher.mergeBucketResult index heThreshold (endPic entry.1)
        ((entry.1 - (beginBucketId : Int)).toNat, entry.2) ⟨s.resultSimilar, s.queryPow⟩).map
        Prod.snd).bind fun s' => mergeWords index heThreshold
          (fun i => endPic (i + beginBucketId)) (placed beginBucketId entries) s' := by
  have back : (((entry.1 - (beginBucketId : Int)).toNat : Int) + beginBucketId) = entry.1 := by omega
  rw [plainRun, placed, List.map_cons, mergeWords, exec, back]
  rfl

/-- Entries that are alike keep the query, and load what they should. -/
theorem exec_of_alike {entries : QueryMap}
    (alike : ∀ entry ∈ entries, Alike beginBucketId index queryData entry) {s : PartState}
    (same : s.queryData = queryData) :
    exec (partStep beginBucketId index heThreshold endPic) s entries =
      (plainRun beginBucketId index heThreshold endPic entries s).map fun s' =>
        ⟨s'.resultSimilar, s'.queryPow, queryData,
          s.loads ++ entries.map (loadOf beginBucketId index)⟩ := by
  induction entries generalizing s with
  | nil =>
      rw [← same, List.map_nil, List.append_nil]
      rfl
  | cons entry entries ih =>
      have here := alike entry (List.mem_cons_self ..)
      rw [exec, partStep_alike here same, plainRun_cons here.1]
      cases Searcher.mergeBucketResult index heThreshold (endPic entry.1)
          ((entry.1 - (beginBucketId : Int)).toNat, entry.2) ⟨s.resultSimilar, s.queryPow⟩ with
      | none => rfl
      | some result =>
          rw [Option.map_some, Option.bind_some, Option.map_some, Option.bind_some,
            ih (fun other member => alike other (List.mem_cons_of_mem entry member)) rfl,
            List.append_assoc]
          rfl

/-- A run that loads what it should and keeps the query has entries that are alike. -/
theorem alike_of_exec {entries : QueryMap} {s s' : PartState} (same : s.queryData = queryData)
    (ran : exec (partStep beginBucketId index heThreshold endPic) s entries = some s')
    (loads : s'.loads = s.loads ++ entries.map (loadOf beginBucketId index))
    (kept : s'.queryData = queryData) :
    ∀ entry ∈ entries, Alike beginBucketId index queryData entry := by
  induction entries generalizing s with
  | nil => exact fun _ member => nomatch member
  | cons entry entries ih =>
      obtain ⟨mid, first, rest⟩ := Option.bind_eq_some_iff.mp ran
      obtain ⟨isPrefix, more⟩ := exec_grows rest
      -- what the first call loaded is the first of the loads
      have head : ∀ load, mid.loads = s.loads ++ [load] → load = loadOf beginBucketId index entry := by
        intro load midLoads
        rw [loads, midLoads, List.map_cons, List.prefix_append_right_inj,
          List.cons_prefix_cons] at isPrefix
        exact isPrefix.1
      have here : Alike beginBucketId index queryData entry ∧ mid.queryData = queryData ∧
          mid.loads = s.loads ++ [loadOf beginBucketId index entry] := by
        rcases partStep_cases first with ⟨code, wordIndex, nonzero, load, rfl⟩ |
          ⟨wordIndex, queryHe, result, load, codes, merged, rfl⟩
        · refine ⟨⟨?_, fun other success => ?_⟩, same, ?_⟩
          · have := nonneg_of_loadBucket load
            omega
          · rw [load] at success
            exact absurd (Prod.mk.inj (Option.some.inj success)).1 nonzero
          · rw [loadOf_refused nonzero load]
        · have own := head _ rfl
          cases found : find s.queryData (entry.1 - beginBucketId) with
          | none =>
              have longer := length_subscript_lt found
              have shorter : (subscript s.queryData (entry.1 - beginBucketId)).2.length ≤
                  s.queryData.length := by
                rw [kept, ← same] at more
                exact more
              omega
          | some value =>
              rw [subscript_of_find found, loadOf_loaded load] at own
              obtain ⟨q, he⟩ := Prod.mk.inj (Option.some.inj (Load.mk.inj own).2)
              refine ⟨⟨?_, fun other _ => ⟨value, same ▸ found, q, he⟩⟩, ?_, ?_⟩
              · have := nonneg_of_loadBucket load
                omega
              · rw [subscript_of_find found]
                exact same
              · rw [subscript_of_find found, loadOf_loaded load, q, he]
      obtain ⟨alike, midSame, midLoads⟩ := here
      intro other member
      rcases List.mem_cons.mp member with rfl | later
      · exact alike
      · refine ih midSame rest ?_ other later
        rw [loads, midLoads, List.append_assoc, List.map_cons]
        rfl

/-- The words are combined with their own entries, and the query is left alone, exactly if the
entries that the code uses instead are alike and the merge of the buckets comes to its end. -/
theorem ownEntries_iff :
    (∃ s, mergeLoop beginBucketId index heThreshold endPic queryData = some s ∧
        OwnEntries beginBucketId index queryData s) ↔
      (∀ entry ∈ queryData, Alike beginBucketId index queryData entry) ∧
        Completes beginBucketId index heThreshold endPic queryData := by
  constructor
  · rintro ⟨s, ran, loads, kept⟩
    have alike := alike_of_exec rfl ran loads kept
    refine ⟨alike, ?_⟩
    rw [mergeLoop, exec_of_alike alike rfl] at ran
    obtain ⟨s', plain, _⟩ := Option.map_eq_some_iff.mp ran
    exact Option.isSome_iff_exists.mpr ⟨s', plain⟩
  · rintro ⟨alike, completes⟩
    obtain ⟨s', plain⟩ := Option.isSome_iff_exists.mp completes
    refine ⟨⟨s'.resultSimilar, s'.queryPow, queryData,
      queryData.map (loadOf beginBucketId index)⟩, ?_, rfl, rfl⟩
    rw [mergeLoop, exec_of_alike alike rfl, plainRun, plain]
    rfl

variable (beginBucketId index heThreshold endPic queryData)

/-- `Merge` and `MergeByThread` use the entry of each word and leave the query alone. -/
def UsesQuery : Prop :=
  (∃ ret s, merge beginBucketId index heThreshold endPic queryData = some (ret, s) ∧
      OwnEntries beginBucketId index queryData s) ∧
    ∃ result s, mergeByThread beginBucketId index heThreshold endPic queryData = some (result, s) ∧
      OwnEntries beginBucketId index queryData s

end Query

/-- Without an offset every word uses its own entry. -/
theorem alike_zero {index : BOFIndex} {queryData : QueryMap} (asc : Ascending Prod.fst queryData)
    (words : ∀ entry ∈ queryData, 0 ≤ entry.1) :
    ∀ entry ∈ queryData, Alike 0 index queryData entry := by
  intro entry member
  refine ⟨words entry member, fun _ _ => ⟨entry.2, ?_, rfl, rfl⟩⟩
  rw [Nat.cast_zero, sub_zero]
  exact find_of_mem asc member

end MlsImgSearch.BofCore.BeginBucket
