import MlsImgSearch.BofCore.BucketMerge
import MlsImgSearch.BofCore.CosineScore
import MlsImgSearch.Searchd.ThreadsResult

/-!
# Cosine scores of merged replies

The client adds up the replies of the servers and their norms of the query.
While the cursor into its list only moves forward, an entry takes at most one
picture of each reply, and the scores stay below one. A read through `end()`
can lead the cursor back to the start of the list.
-/

namespace MlsImgSearch.Searchd.CosineMerge

open MlsImgSearch.Lib.Run
open MlsImgSearch.Lib.SortedList
open MlsImgSearch.BofCore.IndexerSerializer
open MlsImgSearch.BofCore.Indexer
open MlsImgSearch.BofCore.Searcher
open MlsImgSearch.BofCore.BucketMerge (plainItem plainWord)
open MlsImgSearch.BofCore.CosineScore
open MlsImgSearch.Searchd.DistributedMerge
open MlsImgSearch.Searchd.ThreadsResult

/-! ## One reply -/

/-- What is known of the entries before and after the merge of a reply, and of the reply. -/
structure Carries (P P' R : MergeSimilarInfo → Prop) : Prop where
  keep : ∀ info, P info → P' info
  add : ∀ cur reply, P cur → R reply → P' (addReply reply cur)
  new : ∀ reply, R reply → P' reply

section Reply

variable {P P' R : MergeSimilarInfo → Prop}

theorem walkReply_divided (carries : Carries P P' R) {reply : MergeSimilarInfo} (isReply : R reply)
    {before after : List MergeSimilarInfo} (divided : Divided P P' (before, after)) :
    Divided P P' (walkReply reply before after) := by
  have fresh : ∀ info ∈ [reply], P' info := List.forall_mem_singleton.mpr (carries.new reply isReply)
  induction after generalizing before with
  | nil => exact divided.insert fresh
  | cons cur after ih =>
      have here := divided.before cur (List.mem_cons_self ..)
      rw [walkReply]
      split
      · exact ih (divided.pass (carries.keep cur here))
      · split
        · exact divided.pass (carries.add cur reply here isReply)
        · exact divided.insert fresh

/-- A merge that does not read through `end()`. -/
theorem mergeReplies_forall (carries : Carries P P' R) {replies : List MergeSimilarInfo}
    (isReply : ∀ reply ∈ replies, R reply) {before after : List MergeSimilarInfo}
    (inside : readsEndFrom replies before after = false) (divided : Divided P P' (before, after))
    (endPic : BitVec 64) :
    ∃ result, mergeReplies endPic replies before after = some result ∧ ∀ info ∈ result, P' info := by
  induction replies generalizing before after with
  | nil =>
      exact ⟨_, rfl, List.forall_mem_append.mpr
        ⟨divided.behind, fun info member => carries.keep info (divided.before info member)⟩⟩
  | cons reply replies ih =>
      cases after with
      | nil => cases inside
      | cons cur after =>
          have first := walkReply_divided carries (isReply reply (List.mem_cons_self ..)) divided
          exact ih (fun other member => isReply other (List.mem_cons_of_mem reply member)) inside first

/-- A merge of ascending lists, as their union. -/
theorem forall_of_isUnion (carries : Carries P P' R) {replies result merged : List MergeSimilarInfo}
    (isUnion : IsUnion replies result merged) (old : ∀ info ∈ result, P info)
    (isReply : ∀ reply ∈ replies, R reply) : ∀ info ∈ merged, P' info := by
  intro info member
  have same : ∀ other ∈ merged, simKey other = simKey info → P' other → P' info := by
    intro other inside key good
    rwa [← isUnion.ascending.eq_of_key_eq inside member key]
  rcases (isUnion.keys _).mp ⟨info, member, rfl⟩ with ⟨cur, listed, key⟩ | ⟨reply, replied, key⟩
  · by_cases common : ∃ reply ∈ replies, simKey reply = simKey cur
    · obtain ⟨reply, replied, sameKey⟩ := common
      exact same _ (isUnion.both cur listed reply replied sameKey) key
        (carries.add cur reply (old cur listed) (isReply reply replied))
    · exact same cur (isUnion.left cur listed fun reply replied sameKey =>
        common ⟨reply, replied, sameKey⟩) key (carries.keep cur (old cur listed))
  · by_cases common : ∃ cur ∈ result, simKey cur = simKey reply
    · obtain ⟨cur, listed, sameKey⟩ := common
      exact same _ (isUnion.both cur listed reply replied sameKey.symm) (sameKey.trans key)
        (carries.add cur reply (old cur listed) (isReply reply replied))
    · exact same reply (isUnion.right reply replied fun cur listed sameKey =>
        common ⟨cur, listed, sameKey⟩) key (carries.new reply (isReply reply replied))

/-- The merge does not read through `end()`, or the lists ascend and no picture of the reply is met
there. -/
def Safe (endPic : BitVec 64) (replies result : List MergeSimilarInfo) : Prop :=
  readsEnd replies result = false ∨
    Ascending simKey replies ∧ Ascending simKey result ∧ ¬ ReplyCollides endPic replies result

theorem mergeThreadsResult_forall (carries : Carries P P' R) {endPic : BitVec 64}
    {replies result : List MergeSimilarInfo} (safe : Safe endPic replies result)
    (old : ∀ info ∈ result, P info) (isReply : ∀ reply ∈ replies, R reply) :
    ∃ ret merged, mergeThreadsResult endPic replies result = some (ret, merged) ∧
      ∀ info ∈ merged, P' info := by
  rw [mergeThreadsResult]
  split
  · exact ⟨-1, result, rfl, fun info member => carries.keep info (old info member)⟩
  · next someReply =>
      split
      · exact ⟨0, replies, rfl, fun info member => carries.new info (isReply info member)⟩
      · next someInfo =>
          rcases safe with inside | ⟨ascReplies, asc, clear⟩
          · rw [readsEnd, if_neg someReply, if_neg someInfo] at inside
            obtain ⟨merged, ran, good⟩ := mergeReplies_forall carries isReply inside
              ⟨fun _ member => absurd member List.not_mem_nil, old⟩ endPic
            exact ⟨0, merged, by rw [ran, Option.map_some], good⟩
          · have works := (mergeReplies_spec adding_listed endPic [] result (canonical_listed asc)
              (canonical_listed ascReplies) fun _ member => absurd member List.not_mem_nil).2
            obtain ⟨merged, ran, adds⟩ := works (by
              rintro (⟨none', _⟩ | collides)
              · exact someInfo (by rw [none']; rfl)
              · exact clear collides)
            exact ⟨0, merged, by rw [ran, Option.map_some],
              forall_of_isUnion carries (IsUnion.of_adds asc ascReplies adds) old isReply⟩

end Reply

/-! ## All replies -/

/-- What lies behind the list of the client during a merge, and the state of the server. -/
abbrev Shard := BitVec 64 × SearcherState

/-- What `ExecMerge` makes of `result_similar_` and `query_pow_`. -/
def clientStep (s : SearcherState) (shard : Shard) : Option SearcherState :=
  (mergeThreadsResult shard.1 shard.2.resultSimilar s.resultSimilar).map fun (_, result) =>
    ⟨result, s.queryPow + shard.2.queryPow⟩

/-- The state of a server after `Merge`. -/
def IsShard (s : SearcherState) : Prop :=
  ∃ index heThreshold endPic words ret, merge index heThreshold endPic words = some (ret, s)

/-- The same with weights that are not negative. -/
def IsWeightedShard (s : SearcherState) : Prop :=
  ∃ index heThreshold endPic words ret, Weighted index words ∧
    merge index heThreshold endPic words = some (ret, s)

theorem IsWeightedShard.isShard {s : SearcherState} (weighted : IsWeightedShard s) : IsShard s := by
  obtain ⟨index, heThreshold, endPic, words, ret, _, ran⟩ := weighted
  exact ⟨index, heThreshold, endPic, words, ret, ran⟩

abbrev SafeStep (s : SearcherState) (shard : Shard) : Prop :=
  Safe shard.1 shard.2.resultSimilar s.resultSimilar

/-- A merge keeps a property of all entries. -/
theorem clientStep_forall {P P' R : MergeSimilarInfo → Prop} (carries : Carries P P' R)
    {s : SearcherState} {shard : Shard} (safe : SafeStep s shard)
    (old : ∀ info ∈ s.resultSimilar, P info) (isReply : ∀ reply ∈ shard.2.resultSimilar, R reply) :
    ∃ result, clientStep s shard = some ⟨result, s.queryPow + shard.2.queryPow⟩ ∧
      ∀ info ∈ result, P' info := by
  obtain ⟨ret, merged, ran, good⟩ := mergeThreadsResult_forall carries safe old isReply
  exact ⟨merged, by rw [clientStep, ran, Option.map_some], good⟩

theorem carries_bounded {queryPow more : ℚ} (hP : 0 ≤ queryPow) (hR : 0 ≤ more) :
    Carries (Bounded queryPow) (Bounded (queryPow + more)) (Bounded more) where
  keep _ bounded := bounded.mono hR
  add _ _ bounded bounded' := bounded.add bounded' hP hR
  new _ bounded := by
    rw [add_comm]
    exact bounded.mono hP

theorem carries_nonneg :
    Carries (fun info => 0 ≤ info.sim) (fun info => 0 ≤ info.sim) fun info => 0 ≤ info.sim where
  keep _ nonneg := nonneg
  add _ _ nonneg nonneg' := add_nonneg nonneg nonneg'
  new _ nonneg := nonneg

theorem scored_clientStep (s : SearcherState) (shard : Shard)
    (scored : Scored s.queryPow s.resultSimilar) (shardSafe : IsShard shard.2 ∧ SafeStep s shard) :
    ∃ s', clientStep s shard = some s' ∧ Scored s'.queryPow s'.resultSimilar := by
  obtain ⟨⟨index, heThreshold, endPic, words, ret, ran⟩, safe⟩ := shardSafe
  have reply := scored_merge ran
  obtain ⟨result, stepped, bounded⟩ := clientStep_forall
    (carries_bounded scored.nonneg reply.nonneg) safe scored.bounded reply.bounded
  exact ⟨_, stepped, add_nonneg scored.nonneg reply.nonneg, bounded⟩

theorem nonneg_clientStep (s : SearcherState) (shard : Shard)
    (nonneg : ∀ info ∈ s.resultSimilar, 0 ≤ info.sim)
    (shardSafe : IsWeightedShard shard.2 ∧ SafeStep s shard) :
    ∃ s', clientStep s shard = some s' ∧ ∀ info ∈ s'.resultSimilar, 0 ≤ info.sim := by
  obtain ⟨⟨index, heThreshold, endPic, words, ret, weighted, ran⟩, safe⟩ := shardSafe
  obtain ⟨result, stepped, good⟩ := clientStep_forall carries_nonneg safe nonneg
    (nonneg_merge weighted ran)
  exact ⟨_, stepped, good⟩

theorem queryPow_clients {s s' : SearcherState} {shards : List Shard}
    (ran : exec clientStep s shards = some s') :
    s'.queryPow = s.queryPow + (shards.map fun shard => shard.2.queryPow).sum := by
  induction shards generalizing s with
  | nil =>
      obtain rfl := Option.some.inj ran
      exact (add_zero _).symm
  | cons shard shards ih =>
      obtain ⟨mid, first, rest⟩ := Option.bind_eq_some_iff.mp ran
      obtain ⟨⟨ret, result⟩, _, rfl⟩ := Option.map_eq_some_iff.mp first
      rw [ih rest, List.map_cons, List.sum_cons, add_assoc]

/-- A condition on the labels joins the condition of a run. -/
theorem meets_and {allowed : Shard → Prop} {s : SearcherState} {shards : List Shard}
    (all : ∀ shard ∈ shards, allowed shard) (safe : Meets clientStep SafeStep s shards) :
    Meets clientStep (fun s shard => allowed shard ∧ SafeStep s shard) s shards := by
  induction shards generalizing s with
  | nil => exact trivial
  | cons shard shards ih =>
      exact ⟨⟨all shard (List.mem_cons_self ..), safe.1⟩, fun s' stepped =>
        ih (fun other member => all other (List.mem_cons_of_mem shard member)) (safe.2 s' stepped)⟩

/-- An index of one bucket. -/
def oneBucket (items : List IndexItem) : BOFIndex :=
  (BOFIndex.create 1).append 0 (WordIndex.encode ⟨0, items⟩)

theorem isWeightedShard_oneBucket (items : List IndexItem) {s : SearcherState}
    (weights : ∀ item ∈ itemsOf (oneBucket items) 0, 0 ≤ floatValue item.weight)
    (ran : merge (oneBucket items) 8 (fun _ => 0) [plainWord 0] = some (0, s)) :
    IsWeightedShard s := by
  refine ⟨oneBucket items, 8, fun _ => 0, [plainWord 0], 0, ⟨?_, ?_⟩, ran⟩
  · intro word member
    rw [List.mem_singleton.mp member]
    exact zero_le_one
  · intro word member
    rw [List.mem_singleton.mp member]
    exact weights

end MlsImgSearch.Searchd.CosineMerge
