import MlsImgSearch.ParallelCompute.MergeProcessor
import MlsImgSearch.Searchd.MergeAgreement

/-!
# The reply of a merge server

The processor returns a code and fills a response that starts with the code of a success.
The handler drops the returned code, and the search server trusts the one of the response.
-/

namespace MlsImgSearch.ParallelCompute.MergeReply

open MlsImgSearch.Lib.Run
open MlsImgSearch.Lib.SortedList
open MlsImgSearch.BofCore.IndexerSerializer
open MlsImgSearch.BofCore.Indexer
open MlsImgSearch.BofCore.Searcher
open MlsImgSearch.ParallelCompute.MergeProcessor
open MlsImgSearch.Searchd.DistributedMerge (ExecMergeResponse CommonSearch constructResult
  mergeThreadsResult)

/-! ## The server -/

structure TBOFQuantizeResult where
  q : ℚ
  wordInfo : List (List UInt8)

/-- `img_qdata` is a map from 64-bit words, in the order of its keys. -/
structure ExecMergeRequest where
  imgQdata : List (Int × TBOFQuantizeResult)
  ascending : Ascending Prod.fst imgQdata
  range : ∀ word ∈ imgQdata, -2 ^ 63 ≤ word.1 ∧ word.1 < 2 ^ 63

/-- What `Init` reads from the configuration. -/
structure MergeProcessor where
  partitionNum : Int
  heThreshold : Int

/-- The words become an `int` each, and the first of those that become the same one stays. -/
def parseRequest (request : ExecMergeRequest) : List (Int × TBOFQuantizeResult) :=
  request.imgQdata.foldl
    (fun imgQdata word => insert imgQdata ((BitVec.ofInt 32 word.1).toInt, word.2)) []

/-- `MergeBucketResult` on a word of a request. `none` is undefined behaviour: a hint before the
first one, or a list `word_info_` of less than two strings. -/
def mergeBucket (index : BOFIndex) (heThreshold : Int) (endPic : BitVec 64)
    (word : Int × TBOFQuantizeResult) (s : SearcherState) : Option (Int × SearcherState) :=
  if word.1 < 0 then none
  else
    (loadWord index word.1.toNat).bind fun (ret, wordIndex) =>
      if ret ≠ 0 then some (-1, s)
      else
        match word.2.wordInfo with
        | queryHe :: _ :: _ =>
            (heString2Int queryHe).bind fun queryHe =>
              (mergeItems heThreshold word.2.q queryHe endPic wordIndex.items []
                s.resultSimilar).map fun result => (0, ⟨result, s.queryPow + word.2.q ^ 2⟩)
        | _ => none

def setQueryData (_imgQdata : List (Int × TBOFQuantizeResult)) : Int := 0

/-- `Searcher::Merge`; `endPic` is what a read through `end()` finds at a word. -/
def searcherMerge (index : BOFIndex) (heThreshold : Int) (endPic : Nat → BitVec 64)
    (imgQdata : List (Int × TBOFQuantizeResult)) : Option (Int × SearcherState) :=
  (exec (fun s word => (mergeBucket index heThreshold (endPic word.1.toNat) word s).map Prod.snd)
    {} imgQdata).map fun s => (if 0 < s.resultSimilar.length then 0 else -2, s)

/-- `MergeProcessor::Merge`: the return code and the response. -/
def processorMerge (p : MergeProcessor) (index : BOFIndex) (endPic : Nat → BitVec 64)
    (request : ExecMergeRequest) (response : ExecMergeResponse) :
    Option (Int × ExecMergeResponse) :=
  if request.imgQdata.length = 0 then some (-1, response)
  else
    let imgQdata := parseRequest request
    if setQueryData imgQdata ≠ 0 then some (-5, response)
    else
      (searcherMerge index p.heThreshold endPic imgQdata).map fun (ret, s) =>
        if ret ≠ 0 then (-8, response) else (0, constructResult s response)

/-- `ExecMergeMsgHandler::Merge`. -/
def handlerMerge (p : MergeProcessor) (index : BOFIndex) (endPic : Nat → BitVec 64)
    (request : ExecMergeRequest) : Option ExecMergeResponse :=
  (processorMerge p index endPic request {}).map Prod.snd

/-! ## The client -/

/-- Open the archive and read `result_len` entries; `none` is the exception of the archive, for a
string that is none or that ends before. -/
def readArchive (response : ExecMergeResponse) : Option (List MergeSimilarInfo) :=
  response.result.bind fun archive =>
    if response.resultLen ≤ archive.length then some (archive.take response.resultLen) else none

/-- `ExecMerge` from the response on: the return code and the new state. -/
def receive (endPic : BitVec 64) (response : ExecMergeResponse) (s : CommonSearch) :
    Option (Int × CommonSearch) :=
  if response.retNum = 0 then
    (readArchive response).bind fun threadResult =>
      (mergeThreadsResult endPic threadResult s.resultSimilar).map fun (ret, result) =>
        (if ret ≠ 0 then -1 else 0,
          { s with queryPow := s.queryPow + response.queryPow, resultSimilar := result })
  else some (-1, s)

/-! ## Replies that tell success from failure -/

/-- The response has the code 0 exactly for a success; then it holds the merged list, and otherwise
the client refuses it. -/
structure Tells (p : MergeProcessor) (index : BOFIndex) (endPic : Nat → BitVec 64)
    (request : ExecMergeRequest) (ret : Int) (response : ExecMergeResponse) : Prop where
  handed : handlerMerge p index endPic request = some response
  code : response.retNum = 0 ↔ ret = 0
  merged : ret = 0 → ∃ s, searcherMerge index p.heThreshold endPic (parseRequest request) =
      some (0, s) ∧ response.resultLen = s.resultSimilar.length ∧
    readArchive response = some s.resultSimilar ∧ response.queryPow = s.queryPow
  refused : ret ≠ 0 → ∀ clientEnd s, receive clientEnd response s = some (-1, s)

/-- The codes of a word. -/
def codes (word : Int × TBOFQuantizeResult) : List (BitVec 64) :=
  (word.2.wordInfo.head?.bind heString2Int).getD []

/-- An item of a word with a weight and a code near one of the word. -/
def Finds (index : BOFIndex) (heThreshold : Int) (imgQdata : List (Int × TBOFQuantizeResult)) :
    Prop :=
  ∃ word ∈ imgQdata, ∃ item ∈ itemsOf index word.1.toNat, IsHit heThreshold (codes word) item

/-! ## What the merge finds -/

section Items

variable {heThreshold : Int} {queryWeight : ℚ} {queryHe : List (BitVec 64)} {endPic : BitVec 64}

theorem newItem_ne_nil (item : IndexItem) :
    newItem heThreshold queryWeight queryHe item ≠ [] ↔ IsHit heThreshold queryHe item := by
  rcases newItem_eq heThreshold queryWeight queryHe item with ⟨nothing, _, noHit⟩ | ⟨one, _, hit⟩
  · rw [nothing]
    exact iff_of_false (fun some' => some' rfl) noHit
  · rw [one]
    exact iff_of_true (List.cons_ne_nil _ _) hit

/-- The cursor never drops a picture. -/
theorem placeItem_ne_nil {item : IndexItem} {before after before' after' : List MergeSimilarInfo}
    (placed : placeItem heThreshold queryWeight queryHe endPic item before after =
      some (before', after')) (some' : before ++ after ≠ []) : before' ++ after' ≠ [] := by
  induction after generalizing before with
  | nil =>
      rw [List.append_nil] at some'
      rw [placeItem] at placed
      split at placed
      · cases placed
      · cases placed
        simp [some']
  | cons cur after ih =>
      rw [placeItem] at placed
      split at placed
      · cases placed
        simp
      · split at placed
        · cases placed
          simp
        · exact ih placed (by simp)

theorem mergeItems_ne_nil {items : List IndexItem} {before after result : List MergeSimilarInfo}
    (ran : mergeItems heThreshold queryWeight queryHe endPic items before after = some result) :
    result ≠ [] ↔ before ++ after ≠ [] ∨ ∃ item ∈ items, IsHit heThreshold queryHe item := by
  induction items generalizing before after with
  | nil =>
      obtain rfl := Option.some.inj ran
      simp
  | cons item items ih =>
      rw [mergeItems] at ran
      obtain ⟨⟨before', after'⟩, placed, rest⟩ := Option.bind_eq_some_iff.mp ran
      rw [ih rest, List.exists_mem_cons_iff, ← or_assoc]
      refine or_congr_left ?_
      by_cases some' : before ++ after = []
      · obtain ⟨rfl, rfl⟩ := List.append_eq_nil_iff.mp some'
        rw [placeItem] at placed
        split at placed
        · cases placed
        · cases placed
          simpa using newItem_ne_nil item
      · exact iff_of_true (placeItem_ne_nil placed some') (Or.inl some')

end Items

section Words

variable {index : BOFIndex} {heThreshold : Int} {endPic : Nat → BitVec 64}

theorem mergeBucket_ne_nil {bucketEnd : BitVec 64} {word : Int × TBOFQuantizeResult}
    {s s' : SearcherState} {ret : Int}
    (ran : mergeBucket index heThreshold bucketEnd word s = some (ret, s')) :
    s'.resultSimilar ≠ [] ↔ s.resultSimilar ≠ [] ∨
      ∃ item ∈ itemsOf index word.1.toNat, IsHit heThreshold (codes word) item := by
  rw [mergeBucket] at ran
  split at ran
  · cases ran
  obtain ⟨⟨code, wordIndex⟩, loaded, rest⟩ := Option.bind_eq_some_iff.mp ran
  dsimp only at rest
  by_cases success : code = 0
  · subst success
    rw [if_neg (fun wrong => wrong rfl)] at rest
    rw [itemsOf_eq loaded]
    split at rest
    · next queryHe _ _ info =>
        obtain ⟨words, coded, rest⟩ := Option.bind_eq_some_iff.mp rest
        obtain ⟨result, merged, same⟩ := Option.map_eq_some_iff.mp rest
        cases same
        have isCodes : codes word = words := by
          rw [codes, info, List.head?_cons, Option.bind_some, coded, Option.getD_some]
        rw [isCodes]
        exact mergeItems_ne_nil merged
    · cases rest
  · rw [if_pos success] at rest
    cases rest
    rw [itemsOf_refused success loaded]
    simp

theorem searcherMerge_ne_nil {imgQdata : List (Int × TBOFQuantizeResult)} {s s' : SearcherState}
    (ran : exec (fun s word =>
      (mergeBucket index heThreshold (endPic word.1.toNat) word s).map Prod.snd) s imgQdata =
        some s') :
    s'.resultSimilar ≠ [] ↔ s.resultSimilar ≠ [] ∨ Finds index heThreshold imgQdata := by
  unfold Finds
  induction imgQdata generalizing s with
  | nil =>
      obtain rfl := Option.some.inj ran
      simp
  | cons word imgQdata ih =>
      obtain ⟨mid, taken, rest⟩ := Option.bind_eq_some_iff.mp ran
      obtain ⟨⟨ret, mid⟩, merged, rfl⟩ := Option.map_eq_some_iff.mp taken
      rw [ih rest, mergeBucket_ne_nil merged, List.exists_mem_cons_iff, or_assoc]

/-- The searcher returns 0 if it has found a picture. -/
theorem searcherMerge_zero {imgQdata : List (Int × TBOFQuantizeResult)} {s : SearcherState}
    {ret : Int} (ran : searcherMerge index heThreshold endPic imgQdata = some (ret, s)) :
    ret = 0 ↔ Finds index heThreshold imgQdata := by
  obtain ⟨state, merged, same⟩ := Option.map_eq_some_iff.mp ran
  cases same
  have found := searcherMerge_ne_nil merged
  rw [show (({} : SearcherState).resultSimilar ≠ []) = False from eq_false fun wrong => wrong rfl,
    false_or] at found
  rw [← found, ← List.length_pos_iff]
  by_cases some' : 0 < s.resultSimilar.length
  · rw [if_pos some']
    exact iff_of_true rfl some'
  · rw [if_neg some']
    exact iff_of_false (by decide) some'

end Words

/-! ## The requests of a search server -/

section Words

variable {index : BOFIndex} {words : List QueryWord}

/-- A word as `ExecMerge` of the client puts it into the request. -/
def ofWord (word : QueryWord) : Int × TBOFQuantizeResult :=
  (word.1, ⟨word.2.q, [word.2.he, word.2.angle]⟩)

def ofWords (words : List QueryWord) (ascending : Ascending Prod.fst words)
    (small : ∀ word ∈ words, word.1 < 2 ^ 31) : ExecMergeRequest where
  imgQdata := words.map ofWord
  ascending := List.pairwise_map.mpr (List.Pairwise.imp (fun less => Int.ofNat_lt.mpr less) ascending)
  range := fun _ member => by
    obtain ⟨word, inside, rfl⟩ := List.mem_map.mp member
    have bound := small word inside
    show -2 ^ 63 ≤ (word.1 : Int) ∧ (word.1 : Int) < 2 ^ 63
    omega

theorem parseRequest_ofWords (ascending : Ascending Prod.fst words)
    (small : ∀ word ∈ words, word.1 < 2 ^ 31) :
    parseRequest (ofWords words ascending small) = words.map ofWord := by
  have kept : ∀ word ∈ words, ((BitVec.ofInt 32 (ofWord word).1).toInt, (ofWord word).2) =
      ofWord word := by
    intro word member
    have bound := small word member
    have value : (BitVec.ofInt 32 (word.1 : Int)).toInt = word.1 := by
      rw [BitVec.ofInt_natCast, BitVec.toInt_eq_toNat_cond, BitVec.toNat_ofNat]
      omega
    exact Prod.ext value rfl
  have same : parseRequest (ofWords words ascending small) =
      (words.map ofWord).foldl insert [] := by
    rw [parseRequest, ofWords, List.foldl_map, List.foldl_map]
    exact List.foldl_ext _ _ [] fun imgQdata word member => by rw [kept word member]
  rw [same, foldl_insert (by
    rw [List.nil_append]
    exact (ofWords words ascending small).ascending), List.nil_append]

theorem mergeBucket_ofWord (index : BOFIndex) (heThreshold : Int) (endPic : BitVec 64)
    (word : QueryWord) (s : SearcherState) :
    mergeBucket index heThreshold endPic (ofWord word) s =
      mergeBucketResult index heThreshold endPic word s := by
  have inside : ¬(ofWord word).1 < 0 := Int.not_lt.mpr (Int.natCast_nonneg word.1)
  rw [mergeBucket, if_neg inside, mergeBucketResult]
  rfl

theorem searcherMerge_ofWords (index : BOFIndex) (heThreshold : Int) (endPic : Nat → BitVec 64)
    (words : List QueryWord) :
    searcherMerge index heThreshold endPic (words.map ofWord) =
      merge index heThreshold endPic words := by
  have run : ∀ s, exec (fun s word => (mergeBucket index heThreshold (endPic word.1.toNat) word
      s).map Prod.snd) s (words.map ofWord) = mergeWords index heThreshold endPic words s := by
    induction words with
    | nil => exact fun _ => rfl
    | cons word words ih =>
        intro s
        rw [List.map_cons, exec, mergeBucket_ofWord]
        exact congrArg _ (funext ih)
  rw [searcherMerge, run, merge]

/-- On these requests the handler is the one of the distributed merge. -/
theorem handlerMerge_ofWords (p : MergeProcessor) (index : BOFIndex) (endPic : Nat → BitVec 64)
    (ascending : Ascending Prod.fst words) (small : ∀ word ∈ words, word.1 < 2 ^ 31) :
    handlerMerge p index endPic (ofWords words ascending small) =
      Searchd.DistributedMerge.handlerMerge index p.heThreshold endPic ⟨words⟩ := by
  have parsed := parseRequest_ofWords ascending small
  have length : (ofWords words ascending small).imgQdata.length = words.length :=
    List.length_map ..
  rw [handlerMerge, processorMerge, Searchd.DistributedMerge.handlerMerge,
    Searchd.DistributedMerge.processorMerge, length, parsed]
  dsimp only
  rw [searcherMerge_ofWords]
  rfl

end Words

/-! ## Which replies tell -/

variable {p : MergeProcessor} {index : BOFIndex} {endPic : Nat → BitVec 64}
  {request : ExecMergeRequest} {ret : Int} {response : ExecMergeResponse}

/-- The merge fails with the response it was given, or fills it with the merged list. -/
theorem processorMerge_cases (given : ExecMergeResponse)
    (ran : processorMerge p index endPic request given = some (ret, response)) :
    (ret ≠ 0 ∧ response = given ∧ ¬Finds index p.heThreshold (parseRequest request)) ∨
      (ret = 0 ∧ Finds index p.heThreshold (parseRequest request) ∧
        ∃ s, searcherMerge index p.heThreshold endPic (parseRequest request) = some (0, s) ∧
          response = constructResult s given) := by
  rw [processorMerge] at ran
  by_cases empty : request.imgQdata.length = 0
  · rw [if_pos empty] at ran
    cases ran
    refine Or.inl ⟨by decide, rfl, ?_⟩
    rintro ⟨word, member, _⟩
    rw [parseRequest, List.eq_nil_of_length_eq_zero empty] at member
    cases member
  · rw [if_neg empty] at ran
    dsimp only at ran
    rw [if_neg (fun wrong => wrong rfl)] at ran
    obtain ⟨⟨code, s⟩, merged, same⟩ := Option.map_eq_some_iff.mp ran
    dsimp only at same
    have found := searcherMerge_zero merged
    by_cases success : code = 0
    · rw [if_neg (not_not.mpr success)] at same
      subst success
      cases same
      exact Or.inr ⟨rfl, found.mp rfl, s, merged, rfl⟩
    · rw [if_pos success] at same
      cases same
      exact Or.inl ⟨by decide, rfl, mt found.mpr success⟩

/-- The default response has the code of a success and a string that is no archive. -/
theorem receive_default (clientEnd : BitVec 64) (s : CommonSearch) :
    receive clientEnd {} s = none := rfl

theorem readArchive_constructResult (s : SearcherState) (given : ExecMergeResponse) :
    readArchive (constructResult s given) = some s.resultSimilar := by
  show (if s.resultSimilar.length ≤ s.resultSimilar.length then
    some (s.resultSimilar.take s.resultSimilar.length) else none) = _
  rw [if_pos (Nat.le_refl _), List.take_length]

/-- `ExecMerge` of the distributed merge sends a request of this kind and receives the reply. -/
theorem execMerge_receive {heThreshold : Int} {mem : Searchd.DistributedMerge.Memory}
    {s : CommonSearch} {i : Nat} {data : Searchd.DistributedMerge.ServerToData}
    (sent : s.serversToDatas[i]? = some data) (ascending : Ascending Prod.fst data.imgQdata)
    (small : ∀ word ∈ data.imgQdata, word.1 < 2 ^ 31) (partitionNum : Int) :
    Searchd.DistributedMerge.execMerge index heThreshold mem s i =
      (handlerMerge ⟨partitionNum, heThreshold⟩ index (mem.serverEnd i)
        (ofWords data.imgQdata ascending small)).bind fun response =>
          receive (mem.clientEnd i) response s := by
  rw [Searchd.DistributedMerge.execMerge, sent, Option.bind_some, ← handlerMerge_ofWords
    ⟨partitionNum, heThreshold⟩ index (mem.serverEnd i) ascending small]
  cases ran : processorMerge ⟨partitionNum, heThreshold⟩ index (mem.serverEnd i)
      (ofWords data.imgQdata ascending small) {} with
  | none => rw [handlerMerge, ran, Option.map_none, Option.bind_none, Option.bind_none]
  | some answer =>
      obtain ⟨ret, response⟩ := answer
      rw [handlerMerge, ran, Option.map_some, Option.bind_some, Option.bind_some, receive]
      rcases processorMerge_cases {} ran with ⟨_, rfl, _⟩ | ⟨_, _, found, _, rfl⟩
      · rfl
      · have whole : found.resultSimilar.take (constructResult found {}).resultLen =
            found.resultSimilar := List.take_length
        dsimp only
        rw [readArchive_constructResult, Option.bind_some]
        show (if _ then (some found.resultSimilar).bind _ else _) = _
        rw [Option.bind_some, whole]

/-! ## Sample requests -/

open MlsImgSearch.Searchd.MergeAgreement (sampleIndex sampleItem sampleWord)

/-- Word 0 has picture 7. -/
def sampleRequest : ExecMergeRequest := ofWords [(0, sampleWord)] (by decide) (by decide)

end MlsImgSearch.ParallelCompute.MergeReply
