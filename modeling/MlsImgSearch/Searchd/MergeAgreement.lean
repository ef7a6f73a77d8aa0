import Mathlib.Algebra.BigOperators.Group.List.Basic
import MlsImgSearch.Searchd.DistributedMerge

/-!
# The distributed merge against the merge of a single node

Both add up the same items, in another order. They agree unless a part of the
query has no hit, `query_pow_` of the clone starts with something else than
zero, or a read through `end()` of a list meets the picture at hand.
-/

namespace MlsImgSearch.Searchd.MergeAgreement

open MlsImgSearch.Lib.Run
open MlsImgSearch.Lib.SortedList
open MlsImgSearch.Lib.SparseList
open MlsImgSearch.BofCore.IndexerSerializer
open MlsImgSearch.BofCore.Indexer
open MlsImgSearch.BofCore.Searcher
open MlsImgSearch.Searchd.DistributedMerge

/-- Both merges end, with the same pictures in ascending order, the same sums and the same power
of the query. -/
def MergeAgrees (index : BOFIndex) (heThreshold : Int) (mem : Memory) (conf : List MergeConf)
    (query : List QueryWord) (order : List Nat) : Prop :=
  ∃ s, distributedMerge index heThreshold mem conf query order = some s ∧
    singleMerge index heThreshold mem query = some s ∧ Ascending simKey s.resultSimilar

/-- What the merge of part `i` needs when the replies of `earlier` have been added. -/
structure ReplyClean (index : BOFIndex) (heThreshold : Int) (mem : Memory)
    (parts : List (List QueryWord)) (earlier : List Nat) (i : Nat) : Prop where
  /-- The part has a hit. -/
  hit : ∃ k, QueryHits index heThreshold (parts.getD i []) k
  /-- No read through `end()` on the server meets the picture at hand. -/
  server : Apart index heThreshold (mem.serverEnd i) (parts.getD i [])
  /-- No read through `end()` on the client meets the picture at hand: when the reply has a
  picture below it, an earlier reply reaches beyond that one. -/
  client : earlier ≠ [] → ∀ k below, QueryHits index heThreshold (parts.getD i []) k →
    QueryHits index heThreshold (parts.getD i []) below → below < k →
      k = (mem.clientEnd i).toInt →
        ∃ j ∈ earlier, ∃ beyond, below < beyond ∧
          QueryHits index heThreshold (parts.getD j []) beyond

structure Clean (index : BOFIndex) (heThreshold : Int) (mem : Memory) (conf : List MergeConf)
    (query : List QueryWord) (order : List Nat) : Prop where
  powZero : mem.queryPow = 0
  node : Apart index heThreshold mem.nodeEnd query
  replies : Along (ReplyClean index heThreshold mem (partsOf conf query)) [] order

section Run

variable {index : BOFIndex} {heThreshold : Int} {mem : Memory} {parts : List (List QueryWord)}

/-- The state when the replies of `done` have been added. -/
structure Progress (index : BOFIndex) (heThreshold : Int) (mem : Memory)
    (parts : List (List QueryWord)) (done : List Nat) (s : CommonSearch) : Prop where
  proper : Proper s.resultSimilar
  coeff_eq : ∀ k, coeff simKey simValue s.resultSimilar k =
    (done.map fun j => queryValue index heThreshold (parts.getD j []) k).sum
  mem_key : ∀ k, (∃ info ∈ s.resultSimilar, simKey info = k) ↔
    ∃ j ∈ done, QueryHits index heThreshold (parts.getD j []) k
  pow_eq : s.queryPow =
    mem.queryPow + (done.map fun j => queryPowOf index (parts.getD j [])).sum
  hits : ∀ j ∈ done, ∃ k, QueryHits index heThreshold (parts.getD j []) k
  datas : s.serversToDatas.map ServerToData.imgQdata = parts

/-- Pictures are there as soon as a reply has been added. -/
theorem Progress.ne_nil_iff {done : List Nat} {s : CommonSearch}
    (progress : Progress index heThreshold mem parts done s) :
    s.resultSimilar ≠ [] ↔ done ≠ [] := by
  constructor
  · rintro some' rfl
    obtain ⟨info, member⟩ := List.exists_mem_of_ne_nil _ some'
    obtain ⟨j, none', _⟩ := (progress.mem_key _).mp ⟨info, member, rfl⟩
    cases none'
  · intro some' none'
    obtain ⟨j, member⟩ := List.exists_mem_of_ne_nil _ some'
    obtain ⟨k, hit⟩ := progress.hits j member
    obtain ⟨info, inside, _⟩ := (progress.mem_key k).mpr ⟨j, member, hit⟩
    rw [none'] at inside
    cases inside

/-- A collision on the client, in terms of hits. -/
theorem replyCollides_iff {done : List Nat} {s : CommonSearch}
    (progress : Progress index heThreshold mem parts done s) {i : Nat} {reply : SearcherState}
    (answers : Answers index heThreshold (parts.getD i []) reply) :
    ReplyCollides (mem.clientEnd i) reply.resultSimilar s.resultSimilar ↔
      ¬ ∀ k below, QueryHits index heThreshold (parts.getD i []) k →
        QueryHits index heThreshold (parts.getD i []) below → below < k →
          k = (mem.clientEnd i).toInt →
            ∃ j ∈ done, ∃ beyond, below < beyond ∧
              QueryHits index heThreshold (parts.getD j []) beyond := by
  constructor
  · rintro ⟨later, laterIn, atEnd, earlier, earlierIn, less, all⟩ clean
    obtain ⟨j, member, beyond, further, hit⟩ := clean (simKey later) (simKey earlier)
      ((answers.mem_key _).mp ⟨later, laterIn, rfl⟩)
      ((answers.mem_key _).mp ⟨earlier, earlierIn, rfl⟩) less (congrArg BitVec.toInt atEnd)
    obtain ⟨info, inside, rfl⟩ := (progress.mem_key beyond).mpr ⟨j, member, hit⟩
    exact further.not_ge (all info inside)
  · intro unclean
    by_contra clear
    refine unclean fun k below hit lowHit less atEnd => ?_
    by_contra none'
    obtain ⟨later, laterIn, rfl⟩ := (answers.mem_key k).mpr hit
    obtain ⟨earlier, earlierIn, rfl⟩ := (answers.mem_key below).mpr lowHit
    refine clear ⟨later, laterIn, BitVec.toInt_inj.mp atEnd, earlier, earlierIn, less,
      fun info inside => not_lt.mp fun further => none' ?_⟩
    obtain ⟨j, member, found⟩ := (progress.mem_key _).mp ⟨info, inside, rfl⟩
    exact ⟨j, member, _, further, found⟩

/-- One `ExecMerge`: it fails unless its part is clean. -/
theorem execMerge_spec (readable : Readable index) {done : List Nat} {s : CommonSearch} {i : Nat}
    (sent : i < parts.length ∧ parts.getD i [] ≠ [])
    (progress : Progress index heThreshold mem parts done s) :
    (¬ ReplyClean index heThreshold mem parts done i →
        (execMerge index heThreshold mem s i).map Prod.snd = none) ∧
      (ReplyClean index heThreshold mem parts done i →
        ∃ s', (execMerge index heThreshold mem s i).map Prod.snd = some s' ∧
          Progress index heThreshold mem parts (done ++ [i]) s') := by
  have inside : i < s.serversToDatas.length := by
    have same := congrArg List.length progress.datas
    rw [List.length_map] at same
    rw [same]
    exact sent.1
  have isPart : s.serversToDatas[i].imgQdata = parts.getD i [] := by
    rw [← progress.datas, List.getD_eq_getElem?_getD, List.getElem?_map,
      List.getElem?_eq_getElem inside]
    rfl
  rw [execMerge_eq index heThreshold mem (List.getElem?_eq_getElem inside)
    (by rw [isPart]; exact sent.2), isPart]
  obtain ⟨serverFails, serverWorks⟩ :=
    mergeWords_spec heThreshold readable (mem.serverEnd i) (parts.getD i [])
  by_cases server : Apart index heThreshold (mem.serverEnd i) (parts.getD i [])
  · obtain ⟨reply, merged, answers⟩ := serverWorks server
    rw [merged, Option.bind_some]
    by_cases hit : ∃ k, QueryHits index heThreshold (parts.getD i []) k
    · have some' : reply.resultSimilar ≠ [] := by
        obtain ⟨k, hits⟩ := hit
        obtain ⟨info, member, _⟩ := (answers.mem_key k).mpr hits
        exact List.ne_nil_of_mem member
      rw [if_neg some']
      obtain ⟨clientFails, clientWorks⟩ := mergeThreadsResult_spec adding_simValue (mem.clientEnd i)
        progress.proper answers.proper some'
      rw [progress.ne_nil_iff, replyCollides_iff progress answers, ← Classical.not_imp]
        at clientFails clientWorks
      constructor
      · intro unclean
        rw [clientFails fun client => unclean ⟨hit, server, client⟩, Option.map_none]
      · intro clean
        obtain ⟨result, ran, adds⟩ := clientWorks (not_not.mpr clean.client)
        refine ⟨{ s with queryPow := s.queryPow + reply.queryPow, resultSimilar := result },
          by rw [ran, Option.map_some], adds.canonical, fun k => ?_, fun k => ?_, ?_, ?_,
          progress.datas⟩
        · rw [adds.coeff_eq, progress.coeff_eq, answers.coeff_eq, List.map_append, List.sum_append,
            List.map_singleton, List.sum_singleton]
        · rw [adds.mem_key, progress.mem_key, answers.mem_key]
          simp only [List.mem_append, List.mem_singleton, or_and_right, exists_or, exists_eq_left]
        · rw [progress.pow_eq, answers.pow_eq, List.map_append, List.sum_append,
            List.map_singleton, List.sum_singleton, add_assoc]
        · intro j member
          rcases List.mem_append.mp member with old | new
          · exact progress.hits j old
          · rw [List.mem_singleton.mp new]
            exact hit
    · have none' : reply.resultSimilar = [] := by
        by_contra some'
        obtain ⟨info, member⟩ := List.exists_mem_of_ne_nil _ some'
        exact hit ⟨_, (answers.mem_key _).mp ⟨info, member, rfl⟩⟩
      rw [if_pos none']
      exact ⟨fun _ => rfl, fun clean => absurd clean.hit hit⟩
  · rw [serverFails server, Option.bind_none]
    exact ⟨fun _ => rfl, fun clean => absurd clean.server server⟩

/-- The `ExecMerge` calls fail unless every part is clean in its turn. -/
theorem execMerges_spec (readable : Readable index) {order : List Nat} {s : CommonSearch}
    (sent : ∀ i ∈ order, i < parts.length ∧ parts.getD i [] ≠ [])
    (start : Progress index heThreshold mem parts [] s) :
    (¬ Along (ReplyClean index heThreshold mem parts) [] order →
        execMerges index heThreshold mem s order = none) ∧
      (Along (ReplyClean index heThreshold mem parts) [] order →
        ∃ s', execMerges index heThreshold mem s order = some s' ∧
          Progress index heThreshold mem parts order s') :=
  exec_along (ReplyClean index heThreshold mem parts) (Progress index heThreshold mem parts)
    (fun i => i < parts.length ∧ parts.getD i [] ≠ [])
    (fun _ _ _ valid progress => (execMerge_spec readable valid progress).1)
    (fun _ _ _ valid progress => (execMerge_spec readable valid progress).2) [] sent start

/-- The parts add up to the query, in whatever order. -/
theorem sum_order {M : Type} [AddCommMonoid M] (value : QueryWord → M) {order : List Nat}
    (perm : order.Perm (List.range parts.length)) :
    (order.map fun j => ((parts.getD j []).map value).sum).sum = (parts.flatten.map value).sum := by
  have inOrder : (List.range parts.length).map (fun j => parts.getD j []) = parts := by
    refine List.ext_getElem (by simp) fun j first second => ?_
    simp [List.getElem?_eq_getElem second]
  calc (order.map fun j => ((parts.getD j []).map value).sum).sum
      = ((List.range parts.length).map fun j => ((parts.getD j []).map value).sum).sum :=
        (perm.map _).sum_eq
    _ = (((List.range parts.length).map fun j => parts.getD j []).map
          fun part => (part.map value).sum).sum := by rw [List.map_map]; rfl
    _ = (parts.flatten.map value).sum := by
        rw [inOrder, List.map_flatten, List.sum_flatten, List.map_map]
        rfl

end Run

section Agreement

variable {index : BOFIndex} {heThreshold : Int} {mem : Memory} {conf : List MergeConf}
  {query : List QueryWord} {order : List Nat}

theorem singleMerge_eq : singleMerge index heThreshold mem query =
    mergeWords index heThreshold mem.nodeEnd query {} := by
  rw [singleMerge, merge, Option.map_map]
  exact Option.map_id'

theorem getD_partsOf_ne_nil {i : Nat} (inside : i < (partsOf conf query).length) :
    (partsOf conf query).getD i [] ≠ [] := by
  rw [List.getD_eq_getElem?_getD, List.getElem?_eq_getElem inside, Option.getD_some]
  have member := List.getElem_mem inside
  have positive := (List.mem_filter.mp member).2
  exact List.ne_nil_of_length_pos (of_decide_eq_true positive)

variable (heThreshold mem) in
/-- The distributed merge: it fails unless every part is clean in its turn, and otherwise gives the
sums of the whole query, on top of what `query_pow_` held. -/
theorem distributedMerge_spec (readable : Readable index) (adjacent : Adjacent conf)
    (asc : Ascending Prod.fst query) (some' : query ≠ [])
    (covered : ∀ word ∈ query, ∃ d ∈ conf, d.contains word.1 = true)
    (perm : order.Perm (List.range (partsOf conf query).length)) :
    (¬ Along (ReplyClean index heThreshold mem (partsOf conf query)) [] order →
        distributedMerge index heThreshold mem conf query order = none) ∧
      (Along (ReplyClean index heThreshold mem (partsOf conf query)) [] order →
        ∃ s, distributedMerge index heThreshold mem conf query order = some s ∧
          Proper s.resultSimilar ∧
          (∀ k, coeff simKey simValue s.resultSimilar k = queryValue index heThreshold query k) ∧
          s.queryPow = mem.queryPow + queryPowOf index query) := by
  obtain ⟨datas, dispatched, isParts, joined⟩ := dispatchData_spec adjacent asc some' covered
    (s := ⟨conf, [], [], mem.queryPow⟩) rfl
  have start : Progress index heThreshold mem (partsOf conf query) []
      ⟨conf, datas, [], mem.queryPow⟩ :=
    { proper := ⟨List.Pairwise.nil, fun _ member => nomatch member⟩
      coeff_eq := fun _ => rfl
      mem_key := fun _ => iff_of_false (fun ⟨_, member, _⟩ => nomatch member)
        fun ⟨_, member, _⟩ => nomatch member
      pow_eq := (add_zero _).symm
      hits := fun _ member => nomatch member
      datas := isParts }
  obtain ⟨fails, works⟩ := execMerges_spec readable (fun i (member : i ∈ order) => by
    have inside := List.mem_range.mp (perm.mem_iff.mp member)
    exact ⟨inside, getD_partsOf_ne_nil inside⟩) start
  rw [distributedMerge, clone, dispatched, Option.bind_some]
  dsimp only
  refine ⟨fun unclean => by rw [fails unclean, Option.map_none], fun clean => ?_⟩
  obtain ⟨s, ran, progress⟩ := works clean
  refine ⟨⟨s.resultSimilar, s.queryPow⟩, by rw [ran, Option.map_some], progress.proper,
    fun k => ?_, ?_⟩
  · rw [progress.coeff_eq]
    unfold queryValue
    rw [sum_order _ perm, joined]
  · rw [progress.pow_eq]
    unfold queryPowOf
    rw [sum_order _ perm, joined]

theorem clean_of_agrees (readable : Readable index) (adjacent : Adjacent conf)
    (asc : Ascending Prod.fst query) (some' : query ≠ [])
    (covered : ∀ word ∈ query, ∃ d ∈ conf, d.contains word.1 = true)
    (perm : order.Perm (List.range (partsOf conf query).length))
    (agrees : MergeAgrees index heThreshold mem conf query order) :
    Clean index heThreshold mem conf query order := by
  obtain ⟨fails, works⟩ := distributedMerge_spec heThreshold mem readable adjacent asc
    some' covered perm
  obtain ⟨nodeFails, nodeWorks⟩ := mergeWords_spec heThreshold readable mem.nodeEnd query
  obtain ⟨s, ran, single, _⟩ := agrees
  rw [singleMerge_eq] at single
  have replies : Along (ReplyClean index heThreshold mem (partsOf conf query)) [] order := by
    by_contra unclean
    rw [fails unclean] at ran
    cases ran
  have node : Apart index heThreshold mem.nodeEnd query := by
    by_contra clash
    rw [nodeFails clash] at single
    cases single
  obtain ⟨s', ran', _, _, pow⟩ := works replies
  obtain ⟨s'', single', answers⟩ := nodeWorks node
  obtain rfl := Option.some.inj (ran.symm.trans ran')
  obtain rfl := Option.some.inj (single.symm.trans single')
  rw [answers.pow_eq] at pow
  exact ⟨by linarith, node, replies⟩

end Agreement

/-! ## Sample queries -/

/-- Weight 1 and one code. -/
def sampleItem (picId : BitVec 64) : IndexItem := .single picId

def sampleIndex (first second : List IndexItem) : BOFIndex :=
  ((BOFIndex.create 2).append 0 (WordIndex.encode ⟨0, first⟩)).append 1
    (WordIndex.encode ⟨1, second⟩)

def sampleWord : BOFQuantizeResult := ⟨1, List.replicate 16 48, []⟩

def sampleQuery : List QueryWord := [(0, sampleWord), (1, sampleWord)]

def sampleConf : List MergeConf :=
  [⟨0, 0, [⟨"127.0.0.1", 7890⟩], List.cons_ne_nil _ _⟩,
    ⟨1, 1, [⟨"127.0.0.1", 7980⟩], List.cons_ne_nil _ _⟩]

def zeroMemory : Memory := ⟨0, fun _ _ => 0, fun _ => 0, fun _ => 0⟩

theorem sampleConf_adjacent : Adjacent sampleConf :=
  ⟨List.isChain_cons_cons.mpr ⟨rfl, List.isChain_singleton _⟩, by decide⟩

theorem sample_readable {first second : List IndexItem}
    (loadFirst : loadWord (sampleIndex first second) 0 = some (0, ⟨0, first⟩))
    (loadSecond : loadWord (sampleIndex first second) 1 = some (0, ⟨1, second⟩))
    (firstAsc : Ascending picKey first) (secondAsc : Ascending picKey second) :
    Readable (sampleIndex first second)
  | 0 => Or.inl ⟨_, loadFirst, firstAsc⟩
  | 1 => Or.inl ⟨_, loadSecond, secondAsc⟩
  | _ + 2 => Or.inr ⟨-1, by decide, rfl⟩

/-- No picture of the sample has the number that the reads through `end()` find. -/
theorem sample_apart {index : BOFIndex} {words : List QueryWord}
    (nonzero : ∀ word ∈ words, ∀ item ∈ itemsOf index word.1, item.picId ≠ 0) :
    Apart index 0 (fun _ => 0) words := by
  rintro earlier word later rfl item member zero
  exact absurd zero (nonzero word (by simp) item member)

end MlsImgSearch.Searchd.MergeAgreement
