import Mathlib.Data.List.Range
import MlsImgSearch.BofCore.Searcher
import MlsImgSearch.Lib.Run

/-!
# The distributed merge

`CommonSearch` parts the words of a query by the ranges of its configuration,
sends each part to a merge server and adds the replies to its own list. The
servers run `Searcher::Merge` over their part.
-/

namespace MlsImgSearch.Searchd.DistributedMerge

open MlsImgSearch.Lib.Run
open MlsImgSearch.Lib.SortedList
open MlsImgSearch.Lib.SparseList
open MlsImgSearch.BofCore.Indexer
open MlsImgSearch.BofCore.Searcher

/-! ## The merge server -/

structure ExecMergeRequest where
  imgQdata : List QueryWord

/-- `result` is the content of the archive, `none` the empty string. -/
structure ExecMergeResponse where
  retNum : Int := 0
  result : Option (List MergeSimilarInfo) := none
  resultLen : Nat := 0
  queryPow : ℚ := 0

/-- The header of an archive keeps its string from being empty. -/
def constructResult (s : SearcherState) (response : ExecMergeResponse) : ExecMergeResponse :=
  let response := { response with
    resultLen := s.resultSimilar.length, result := some s.resultSimilar }
  if response.result.isSome then { response with retNum := 0, queryPow := s.queryPow }
  else { response with retNum := -1 }

/-- `MergeProcessor::Merge` with a fresh processor: the return code and the response. -/
def processorMerge (index : BOFIndex) (heThreshold : Int) (endPic : Nat → BitVec 64)
    (request : ExecMergeRequest) (response : ExecMergeResponse) :
    Option (Int × ExecMergeResponse) :=
  if request.imgQdata.length = 0 then some (-1, response)
  else
    (merge index heThreshold endPic request.imgQdata).map fun (ret, s) =>
      if ret ≠ 0 then (-8, response) else (0, constructResult s response)

/-- `ExecMergeMsgHandler::Merge` drops the return code. -/
def handlerMerge (index : BOFIndex) (heThreshold : Int) (endPic : Nat → BitVec 64)
    (request : ExecMergeRequest) : Option ExecMergeResponse :=
  (processorMerge index heThreshold endPic request {}).map Prod.snd

/-! ## The client -/

structure IPAddress where
  ip : String
  port : Nat
  deriving DecidableEq

/-- A range of words and the servers that answer for it. -/
structure MergeConf where
  beginId : Nat
  endId : Nat
  servers : List IPAddress
  hasServer : servers ≠ []

structure ServerToData where
  servers : List IPAddress := []
  imgQdata : List QueryWord := []

structure CommonSearch where
  execMergeConf : List MergeConf
  serversToDatas : List ServerToData := []
  resultSimilar : List MergeSimilarInfo := []
  queryPow : ℚ

/-- `query_pow_` is not copied: the new object has what its memory held. -/
def clone (s : CommonSearch) (queryPow : ℚ) : CommonSearch :=
  { execMergeConf := s.execMergeConf, serversToDatas := s.serversToDatas,
    resultSimilar := s.resultSimilar, queryPow := queryPow }

def MergeConf.contains (conf : MergeConf) (wordId : Nat) : Bool :=
  decide (conf.beginId ≤ wordId) && decide (wordId ≤ conf.endId)

/-- The loop of `DispatchData`, with the ranges from `it_conf` on, the words from `it` on, the part
at work and the parts so far. `none` is a read through the end of the ranges. -/
def dispatchLoop : List MergeConf → List QueryWord → ServerToData → List ServerToData →
    Option (List ServerToData)
  | _, [], _, datas => some datas
  | [], _ :: _, _, _ => none
  | conf :: confs, word :: words, part, datas =>
      if conf.contains word.1 then
        let part : ServerToData :=
          { servers := if part.servers.length = 0 then conf.servers else part.servers
            imgQdata := part.imgQdata ++ [word] }
        if words.length = 0 then dispatchLoop (conf :: confs) words {} (datas ++ [part])
        else dispatchLoop (conf :: confs) words part datas
      else if confs.length = 0 then
        some (if 0 < part.imgQdata.length then datas ++ [part] else datas)
      else if 0 < part.imgQdata.length then
        dispatchLoop confs (word :: words) {} (datas ++ [part])
      else dispatchLoop confs (word :: words) part datas
  termination_by confs words => confs.length + words.length

def dispatchData (imgQdata : List QueryWord) (s : CommonSearch) : Option (Int × CommonSearch) :=
  if imgQdata.length = 0 then some (-1, s)
  else
    (dispatchLoop s.execMergeConf imgQdata {} []).map fun datas =>
      (0, { s with serversToDatas := datas })

/-- Add the picture of a reply to the entry at the cursor. -/
def addReply (reply cur : MergeSimilarInfo) : MergeSimilarInfo :=
  { cur with sim := cur.sim + reply.sim, pow := cur.pow + reply.pow }

/-- The turns of the loop from the cursor on for one picture of a reply; at `end()` it is
appended. -/
def walkReply (reply : MergeSimilarInfo) : List MergeSimilarInfo → List MergeSimilarInfo →
    List MergeSimilarInfo × List MergeSimilarInfo
  | before, [] => (before ++ [reply], [])
  | before, cur :: after =>
      if cur.picId.toInt < reply.picId.toInt then walkReply reply (before ++ [cur]) after
      else if cur.picId = reply.picId then (before ++ [addReply reply cur], after)
      else (before ++ [reply], cur :: after)

/-- A picture is compared with what a read through `end()` finds when the cursor is there. The
increment of `end()` leads to the start of the list; `none` is a write through `end()`. -/
def placeReply (endPic : BitVec 64) (reply : MergeSimilarInfo) :
    List MergeSimilarInfo → List MergeSimilarInfo →
      Option (List MergeSimilarInfo × List MergeSimilarInfo)
  | before, [] =>
      if endPic.toInt < reply.picId.toInt then some (walkReply reply [] before)
      else if endPic = reply.picId then none
      else some (before ++ [reply], [])
  | before, cur :: after => some (walkReply reply before (cur :: after))

def mergeReplies (endPic : BitVec 64) :
    List MergeSimilarInfo → List MergeSimilarInfo → List MergeSimilarInfo →
      Option (List MergeSimilarInfo)
  | [], before, after => some (before ++ after)
  | reply :: replies, before, after =>
      (placeReply endPic reply before after).bind fun (before, after) =>
        mergeReplies endPic replies before after

def mergeThreadsResult (endPic : BitVec 64) (threadResult resultSimilar : List MergeSimilarInfo) :
    Option (Int × List MergeSimilarInfo) :=
  if threadResult.length = 0 then some (-1, resultSimilar)
  else if resultSimilar.length = 0 then some (0, threadResult)
  else (mergeReplies endPic threadResult [] resultSimilar).map fun result => (0, result)

/-- What the programs read without having written it: `query_pow_` of a new clone, and behind the
lists of the servers, of the client and of the single node. -/
structure Memory where
  queryPow : ℚ
  serverEnd : Nat → Nat → BitVec 64
  clientEnd : Nat → BitVec 64
  nodeEnd : Nat → BitVec 64

/-- The return code and the new state. `none` is undefined behaviour, or an exception that no one
catches: to open an archive on the empty string is one. -/
def execMerge (index : BOFIndex) (heThreshold : Int) (mem : Memory) (s : CommonSearch)
    (threadIndex : Nat) : Option (Int × CommonSearch) :=
  (s.serversToDatas[threadIndex]?).bind fun data =>
    (handlerMerge index heThreshold (mem.serverEnd threadIndex) ⟨data.imgQdata⟩).bind fun response =>
      if response.retNum = 0 then
        response.result.bind fun archive =>
          (mergeThreadsResult (mem.clientEnd threadIndex) (archive.take response.resultLen)
            s.resultSimilar).map fun (ret, result) =>
              (if ret ≠ 0 then -1 else 0,
                { s with queryPow := s.queryPow + response.queryPow, resultSimilar := result })
      else some (-1, s)

/-- The state after one `ExecMerge` for each reply, in the order of the list. -/
def execMerges (index : BOFIndex) (heThreshold : Int) (mem : Memory) (s : CommonSearch)
    (order : List Nat) : Option CommonSearch :=
  exec (fun s i => (execMerge index heThreshold mem s i).map Prod.snd) s order

/-- A clone of an initialised service answers a query. -/
def distributedMerge (index : BOFIndex) (heThreshold : Int) (mem : Memory) (conf : List MergeConf)
    (query : List QueryWord) (order : List Nat) : Option SearcherState :=
  (dispatchData query (clone { execMergeConf := conf, queryPow := 0 } mem.queryPow)).bind fun (_, s) =>
    (execMerges index heThreshold mem s order).map fun s => ⟨s.resultSimilar, s.queryPow⟩

/-- One `Searcher::Merge` over the whole query. -/
def singleMerge (index : BOFIndex) (heThreshold : Int) (mem : Memory) (query : List QueryWord) :
    Option SearcherState :=
  (merge index heThreshold mem.nodeEnd query).map Prod.snd

/-! ## Adding a reply -/

/-- Values of pictures that `addReply` adds up. -/
structure Adding {V : Type*} [Add V] (val : MergeSimilarInfo → V) (good : V → Prop) : Prop where
  val_add : ∀ reply cur, val (addReply reply cur) = val cur + val reply
  good_add : ∀ v w, good v → good w → good (v + w)

theorem adding_simValue : Adding simValue Positive :=
  ⟨fun _ _ => rfl, fun _ _ left right => left.add (Or.inr right)⟩

section Values

variable {V : Type*} [AddCommMonoid V] {val : MergeSimilarInfo → V} {good : V → Prop}

theorem Adding.entry (adding : Adding val good) {reply : MergeSimilarInfo} (isGood : good (val reply)) :
    Entry simKey val good (simKey reply) (val reply) (addReply reply) [reply] :=
  ⟨fun _ => rfl, adding.val_add reply, Or.inr ⟨isGood, reply, rfl, rfl, rfl⟩⟩

theorem Adding.good_sum (adding : Adding val good) {v : V} (w : V) (left : good w)
    (right : v = 0 ∨ good v) : good (w + v) := by
  rcases right with rfl | isGood
  · rwa [add_zero]
  · exact adding.good_add w v left isGood

end Values

theorem walkReply_eq (reply : MergeSimilarInfo) (before after : List MergeSimilarInfo) :
    walkReply reply before after =
      place simKey (simKey reply) (addReply reply) [reply] before after := by
  induction after generalizing before with
  | nil => rfl
  | cons cur after ih =>
      unfold walkReply place
      by_cases less : simKey cur < simKey reply
      · rw [if_pos (show cur.picId.toInt < reply.picId.toInt from less), if_neg less.ne',
          if_neg less.not_gt, ih]
      · rw [if_neg (show ¬ cur.picId.toInt < reply.picId.toInt from less)]
        by_cases same : cur.picId = reply.picId
        · have sameKey : simKey reply = simKey cur := (congrArg BitVec.toInt same).symm
          rw [if_pos same, if_pos sameKey]
        · have otherKey : simKey reply ≠ simKey cur := fun equal =>
            same (BitVec.toInt_inj.mp equal.symm)
          rw [if_neg same, if_neg otherKey, if_pos (by omega)]

/-- From `end()` a picture beyond the list is appended, whichever way the cursor takes. -/
theorem placeReply_eq {endPic : BitVec 64} {reply : MergeSimilarInfo}
    {before : List MergeSimilarInfo} (below : ∀ info ∈ before, simKey info < simKey reply)
    (after : List MergeSimilarInfo) :
    placeReply endPic reply before after =
      if after = [] ∧ reply.picId = endPic then none
      else some (place simKey (simKey reply) (addReply reply) [reply] before after) := by
  cases after with
  | cons cur after =>
      rw [if_neg (fun both => List.cons_ne_nil _ _ both.1), ← walkReply_eq]
      rfl
  | nil =>
      rw [placeReply]
      by_cases same : reply.picId = endPic
      · have notBelow : ¬ endPic.toInt < reply.picId.toInt := by rw [same]; exact lt_irrefl _
        rw [if_neg notBelow, if_pos same.symm, if_pos ⟨rfl, same⟩]
      · have apart : ¬ (([] : List MergeSimilarInfo) = [] ∧ reply.picId = endPic) :=
          fun both => same both.2
        rw [if_neg apart, if_neg (Ne.symm same), walkReply_eq, place_below below]
        exact ite_self _

/-- A read through `end()` meets a picture of the reply. -/
def ReplyCollides (endPic : BitVec 64) (replies result : List MergeSimilarInfo) : Prop :=
  ∃ reply ∈ replies, reply.picId = endPic ∧
    ∃ earlier ∈ replies, simKey earlier < simKey reply ∧
      ∀ info ∈ result, simKey info ≤ simKey earlier

theorem replyCollides_cons {endPic : BitVec 64} {reply : MergeSimilarInfo}
    {replies result : List MergeSimilarInfo} (asc : Ascending simKey (reply :: replies)) :
    ReplyCollides endPic (reply :: replies) result ↔
      ((∃ later ∈ replies, later.picId = endPic) ∧ ∀ info ∈ result, simKey info ≤ simKey reply) ∨
        ReplyCollides endPic replies result := by
  obtain ⟨head, tail⟩ := List.pairwise_cons.mp asc
  constructor
  · rintro ⟨later, laterIn, atEnd, earlier, earlierIn, less, all⟩
    rcases List.mem_cons.mp laterIn with rfl | laterTail
    · rcases List.mem_cons.mp earlierIn with rfl | earlierTail
      · exact absurd less (lt_irrefl _)
      · exact absurd less (head earlier earlierTail).not_gt
    · rcases List.mem_cons.mp earlierIn with rfl | earlierTail
      · exact Or.inl ⟨⟨later, laterTail, atEnd⟩, all⟩
      · exact Or.inr ⟨later, laterTail, atEnd, earlier, earlierTail, less, all⟩
  · rintro (⟨⟨later, laterIn, atEnd⟩, all⟩ | ⟨later, laterIn, atEnd, earlier, earlierIn, less, all⟩)
    · exact ⟨later, List.mem_cons_of_mem _ laterIn, atEnd, reply, List.mem_cons_self ..,
        head later laterIn, all⟩
    · exact ⟨later, List.mem_cons_of_mem _ laterIn, atEnd, earlier,
        List.mem_cons_of_mem _ earlierIn, less, all⟩

theorem replyCollides_congr (endPic : BitVec 64) {replies result result' : List MergeSimilarInfo}
    {bound : Int} (above : ∀ reply ∈ replies, bound < simKey reply)
    (keys : ∀ k, bound < k →
      ((∃ info ∈ result', simKey info = k) ↔ ∃ info ∈ result, simKey info = k)) :
    ReplyCollides endPic replies result' ↔ ReplyCollides endPic replies result := by
  have transfer : ∀ {xs ys : List MergeSimilarInfo}, (∀ k, bound < k →
      ((∃ info ∈ xs, simKey info = k) → ∃ info ∈ ys, simKey info = k)) →
      ReplyCollides endPic replies ys → ReplyCollides endPic replies xs := by
    rintro xs ys sub ⟨reply, member, atEnd, earlier, earlierIn, less, all⟩
    refine ⟨reply, member, atEnd, earlier, earlierIn, less, fun info inside => ?_⟩
    by_cases low : simKey info ≤ bound
    · exact le_of_lt (lt_of_le_of_lt low (above earlier earlierIn))
    · obtain ⟨other, found, sameKey⟩ := sub _ (not_le.mp low) ⟨info, inside, rfl⟩
      rw [← sameKey]
      exact all other found
  exact ⟨transfer fun k high => (keys k high).mpr, transfer fun k high => (keys k high).mp⟩

section Values

variable {V : Type*} [AddCommMonoid V] {val : MergeSimilarInfo → V} {good : V → Prop}

/-- The loop fails on a collision, and adds all pictures of the reply otherwise. -/
theorem mergeReplies_spec (adding : Adding val good) (endPic : BitVec 64)
    {replies : List MergeSimilarInfo} (before after : List MergeSimilarInfo)
    (proper : Canonical simKey val good (before ++ after))
    (properReplies : Canonical simKey val good replies)
    (below : ∀ info ∈ before, ∀ reply ∈ replies, simKey info < simKey reply) :
    ((after = [] ∧ ∃ reply ∈ replies, reply.picId = endPic) ∨
          ReplyCollides endPic replies (before ++ after) →
        mergeReplies endPic replies before after = none) ∧
      (¬ ((after = [] ∧ ∃ reply ∈ replies, reply.picId = endPic) ∨
          ReplyCollides endPic replies (before ++ after)) →
        ∃ result, mergeReplies endPic replies before after = some result ∧
          Adds simKey val good (coeff simKey val replies)
            (fun k => ∃ reply ∈ replies, simKey reply = k) (before ++ after) result) := by
  induction replies generalizing before after with
  | nil =>
      have same := Adds.nothing proper
      refine ⟨?_, fun _ => ⟨_, rfl, same.canonical, same.coeff_eq, fun k => by simp⟩⟩
      rintro (⟨_, _, member, _⟩ | ⟨_, member, _⟩) <;> cases member
  | cons reply replies ih =>
      have asc := properReplies.ascending
      obtain ⟨head, tail⟩ := List.pairwise_cons.mp asc
      have low : ∀ info ∈ before, simKey info < simKey reply := fun info member =>
        below info member reply (List.mem_cons_self ..)
      have entry := adding.entry (properReplies.good reply (List.mem_cons_self ..))
      rw [mergeReplies, placeReply_eq low, replyCollides_cons asc]
      by_cases now : after = [] ∧ reply.picId = endPic
      · rw [if_pos now]
        exact ⟨fun _ => rfl, fun clear =>
          absurd (Or.inl ⟨now.1, reply, List.mem_cons_self .., now.2⟩) clear⟩
      · rw [if_neg now, Option.bind_some]
        obtain ⟨joined, upTo, beyond⟩ := place_spec entry proper.ascending low
        have added := Adds.of_upsert entry adding.good_sum proper
        rw [← joined] at added
        generalize place simKey (simKey reply) (addReply reply) [reply] before after = cursor at *
        obtain ⟨fails, works⟩ := ih cursor.1 cursor.2 added.canonical properReplies.tail
          fun info member other later => lt_of_le_of_lt (upTo info member) (head other later)
        have sameCollision : ReplyCollides endPic replies (cursor.1 ++ cursor.2) ↔
            ReplyCollides endPic replies (before ++ after) :=
          replyCollides_congr endPic head fun k high => by
            rw [added.mem_key k]
            exact or_iff_left fun ⟨_, member, sameKey⟩ =>
              high.ne (by rw [← sameKey, List.mem_singleton.mp member])
        -- after this picture the cursor is at the end if nothing lies beyond
        have atEnd : cursor.2 = [] ↔ ∀ info ∈ before ++ after, simKey info ≤ simKey reply := by
          constructor
          · intro none' info member
            obtain ⟨other, found, sameKey⟩ :=
              (added.mem_key (simKey info)).mpr (Or.inl ⟨info, member, rfl⟩)
            rw [none', List.append_nil] at found
            rw [← sameKey]
            exact upTo other found
          · intro all
            by_contra some'
            obtain ⟨info, member⟩ := List.exists_mem_of_ne_nil _ some'
            rcases (added.mem_key (simKey info)).mp
              ⟨info, List.mem_append_right _ member, rfl⟩ with ⟨other, found, sameKey⟩ | new
            · exact (beyond info member).not_ge (sameKey ▸ all other found)
            · obtain ⟨other, found, sameKey⟩ := new
              rw [List.mem_singleton.mp found] at sameKey
              exact (beyond info member).ne sameKey
        have nowOrLater : ((after = [] ∧ ∃ other ∈ reply :: replies, other.picId = endPic) ∨
              ((∃ later ∈ replies, later.picId = endPic) ∧
                ∀ info ∈ before ++ after, simKey info ≤ simKey reply) ∨
                ReplyCollides endPic replies (before ++ after)) ↔
            (cursor.2 = [] ∧ ∃ other ∈ replies, other.picId = endPic) ∨
              ReplyCollides endPic replies (cursor.1 ++ cursor.2) := by
          rw [sameCollision, ← or_assoc, atEnd]
          refine or_congr_left ⟨?_, fun both => Or.inr ⟨both.2, both.1⟩⟩
          rintro (⟨empty, other, member, isEnd⟩ | ⟨later, all⟩)
          · rcases List.mem_cons.mp member with rfl | member
            · exact absurd ⟨empty, isEnd⟩ now
            · rw [empty, List.append_nil]
              exact ⟨fun info inside => (low info inside).le, other, member, isEnd⟩
          · exact ⟨all, later⟩
        rw [nowOrLater]
        refine ⟨fails, fun clear => ?_⟩
        obtain ⟨result, merged, rest⟩ := works clear
        refine ⟨result, merged, rest.canonical, fun k => ?_, fun k => ?_⟩
        · rw [(added.trans rest).coeff_eq, coeff_cons]
        · rw [(added.trans rest).mem_key, List.exists_mem_cons_iff, List.exists_mem_cons_iff]
          simp only [List.not_mem_nil, false_and, exists_false, or_false]

theorem mergeThreadsResult_spec (adding : Adding val good) (endPic : BitVec 64)
    {replies result : List MergeSimilarInfo} (proper : Canonical simKey val good result)
    (properReplies : Canonical simKey val good replies) (some' : replies ≠ []) :
    (result ≠ [] ∧ ReplyCollides endPic replies result →
        mergeThreadsResult endPic replies result = none) ∧
      (¬ (result ≠ [] ∧ ReplyCollides endPic replies result) →
        ∃ merged, mergeThreadsResult endPic replies result = some (0, merged) ∧
          Adds simKey val good (coeff simKey val replies)
            (fun k => ∃ reply ∈ replies, simKey reply = k) result merged) := by
  rw [mergeThreadsResult, if_neg (fun none' => some' (List.eq_nil_of_length_eq_zero none'))]
  by_cases empty : result = []
  · subst empty
    refine ⟨fun both => absurd rfl both.1, fun _ => ⟨replies, rfl, properReplies, fun k => ?_,
      fun k => ?_⟩⟩
    · rw [coeff_nil, zero_add]
    · exact (or_iff_right fun ⟨_, member, _⟩ => nomatch member).symm
  · rw [if_neg (fun none' => empty (List.eq_nil_of_length_eq_zero none'))]
    obtain ⟨fails, works⟩ := mergeReplies_spec adding endPic [] result proper properReplies
      fun _ member => nomatch member
    refine ⟨fun both => by rw [fails (Or.inr both.2), Option.map_none], fun clear => ?_⟩
    obtain ⟨merged, ran, adds⟩ := works (by
      rintro (⟨none', _⟩ | collides)
      · exact empty none'
      · exact clear ⟨empty, collides⟩)
    exact ⟨merged, by rw [ran, Option.map_some], adds⟩

end Values

/-! ## The parts of a query -/

/-- The ranges follow each other without a gap. -/
structure Adjacent (conf : List MergeConf) : Prop where
  next : conf.IsChain fun a b => b.beginId = a.endId + 1
  ranges : ∀ c ∈ conf, c.beginId ≤ c.endId

/-- The words of each range, where there are any. -/
def partsOf (conf : List MergeConf) (query : List QueryWord) : List (List QueryWord) :=
  (conf.map fun c => query.filter fun word => c.contains word.1).filter fun part =>
    decide (0 < part.length)

theorem contains_iff {c : MergeConf} {wordId : Nat} :
    c.contains wordId = true ↔ c.beginId ≤ wordId ∧ wordId ≤ c.endId := by
  rw [MergeConf.contains, Bool.and_eq_true, decide_eq_true_iff, decide_eq_true_iff]

theorem Adjacent.tail {c : MergeConf} {conf : List MergeConf} (adjacent : Adjacent (c :: conf)) :
    Adjacent conf :=
  ⟨adjacent.next.tail, fun d member => adjacent.ranges d (List.mem_cons_of_mem c member)⟩

/-- Later ranges lie beyond the first one. -/
theorem Adjacent.head_lt {c : MergeConf} {conf : List MergeConf} (adjacent : Adjacent (c :: conf)) :
    ∀ d ∈ conf, c.endId < d.beginId := by
  induction conf generalizing c with
  | nil => exact fun d member => nomatch member
  | cons b conf ih =>
      have step : b.beginId = c.endId + 1 := (List.isChain_cons_cons.mp adjacent.next).1
      intro d member
      rcases List.mem_cons.mp member with rfl | later
      · omega
      · have beyond := ih adjacent.tail d later
        have range := adjacent.ranges b (by simp)
        omega

theorem filter_nil_of_beyond {c : MergeConf} {words : List QueryWord}
    (beyond : ∀ word ∈ words, c.endId < word.1) :
    (words.filter fun word => c.contains word.1) = [] := by
  refine List.filter_eq_nil_iff.mpr fun word member contained => ?_
  have := (contains_iff.mp contained).2
  have := beyond word member
  omega

/-- What the loop of `DispatchData` still has to add: the rest of the part at work, and the words
of the later ranges. -/
def partsFrom (part : List QueryWord) (c : MergeConf) (conf : List MergeConf)
    (words : List QueryWord) : List (List QueryWord) :=
  ((part ++ words.filter fun word => c.contains word.1) ::
    conf.map fun d => words.filter fun word => d.contains word.1).filter fun part =>
      decide (0 < part.length)

theorem partsFrom_nil (c : MergeConf) (conf : List MergeConf) : partsFrom [] c conf [] = [] := by
  simp [partsFrom]

theorem partsFrom_take {part words : List QueryWord} {c : MergeConf} {conf : List MergeConf}
    {word : QueryWord} (adjacent : Adjacent (c :: conf)) (inside : c.contains word.1 = true) :
    partsFrom part c conf (word :: words) = partsFrom (part ++ [word]) c conf words := by
  have others : (conf.map fun d => (word :: words).filter fun word => d.contains word.1) =
      conf.map fun d => words.filter fun word => d.contains word.1 := by
    refine List.map_congr_left fun d member => List.filter_cons_of_neg fun contained => ?_
    have := adjacent.head_lt d member
    have := contains_iff.mp contained
    have := contains_iff.mp inside
    omega
  have first : ((word :: words).filter fun word => c.contains word.1) =
      word :: words.filter fun word => c.contains word.1 := List.filter_cons_of_pos inside
  rw [partsFrom, partsFrom, others, first, List.append_assoc, List.singleton_append]

theorem partsFrom_next {part words : List QueryWord} {c d : MergeConf} {conf : List MergeConf}
    (beyond : ∀ word ∈ words, c.endId < word.1) :
    partsFrom part c (d :: conf) words =
      (if 0 < part.length then [part] else []) ++ partsFrom [] d conf words := by
  rw [partsFrom, filter_nil_of_beyond beyond, List.append_nil, partsFrom, List.nil_append,
    List.map_cons]
  by_cases some' : 0 < part.length
  · rw [if_pos some', List.filter_cons_of_pos (by simpa using some'), List.singleton_append]
  · rw [if_neg some', List.filter_cons_of_neg (by simpa using some'), List.nil_append]

theorem partsFrom_last {part : List QueryWord} (some' : part ≠ []) (c : MergeConf)
    (conf : List MergeConf) : partsFrom part c conf [] = [part] := by
  have positive : 0 < part.length := List.length_pos_of_ne_nil some'
  simp [partsFrom, positive]

/-- A word outside of the first range lies beyond it, and so do the words after it. -/
theorem beyond_of_outside {c : MergeConf} {conf : List MergeConf} {word : QueryWord}
    {words : List QueryWord} (adjacent : Adjacent (c :: conf))
    (asc : Ascending Prod.fst (word :: words))
    (covered : ∃ d ∈ c :: conf, d.contains word.1 = true) (outside : ¬ c.contains word.1 = true) :
    ∀ other ∈ word :: words, c.endId < other.1 := by
  obtain ⟨d, member, contained⟩ := covered
  rcases List.mem_cons.mp member with rfl | later
  · exact absurd contained outside
  · have first : c.endId < word.1 :=
      lt_of_lt_of_le (adjacent.head_lt d later) (contains_iff.mp contained).1
    intro other inside
    rcases List.mem_cons.mp inside with rfl | after
    · exact first
    · exact lt_trans first ((List.pairwise_cons.mp asc).1 other after)

/-- The later ranges contain what lies beyond the first one. -/
theorem covered_tail {c : MergeConf} {conf : List MergeConf} {words : List QueryWord}
    (covered : ∀ word ∈ words, ∃ d ∈ c :: conf, d.contains word.1 = true)
    (beyond : ∀ word ∈ words, c.endId < word.1) :
    ∀ word ∈ words, ∃ d ∈ conf, d.contains word.1 = true := by
  intro word inside
  obtain ⟨d, member, contained⟩ := covered word inside
  rcases List.mem_cons.mp member with rfl | later
  · have := (contains_iff.mp contained).2
    have := beyond word inside
    omega
  · exact ⟨d, later, contained⟩

/-- The loop of `DispatchData`, on words that the ranges from `it_conf` on contain. -/
theorem dispatchLoop_spec {confs : List MergeConf} (adjacent : Adjacent confs)
    {words : List QueryWord} (asc : Ascending Prod.fst words)
    (covered : ∀ word ∈ words, ∃ d ∈ confs, d.contains word.1 = true)
    (part : ServerToData) (datas : List ServerToData) (atWork : words = [] → part.imgQdata = []) :
    ∃ result, dispatchLoop confs words part datas = some (datas ++ result) ∧
      (∀ c conf, confs = c :: conf →
        result.map ServerToData.imgQdata = partsFrom part.imgQdata c conf words) ∧
      (result.map ServerToData.imgQdata).flatten = part.imgQdata ++ words := by
  fun_induction dispatchLoop confs words part datas with
  | case1 confs part datas =>
      refine ⟨[], by rw [List.append_nil], fun c conf _ => ?_, by rw [atWork rfl]; rfl⟩
      rw [atWork rfl, partsFrom_nil]
      rfl
  | case2 word words part datas =>
      obtain ⟨d, member, _⟩ := covered word (List.mem_cons_self ..)
      cases member
  | case3 c conf word words part datas inside newPart last ih =>
      obtain rfl := List.eq_nil_of_length_eq_zero last
      refine ⟨[newPart], by rw [dispatchLoop], ?_, by simp [newPart]⟩
      rintro c' conf' same
      obtain ⟨rfl, rfl⟩ := List.cons.inj same
      rw [partsFrom_take adjacent inside, partsFrom_last (by simp)]
      rfl
  | case4 c conf word words part datas inside newPart more ih =>
      obtain ⟨result, ran, parts, joined⟩ := ih adjacent (List.pairwise_cons.mp asc).2
        (fun other member => covered other (List.mem_cons_of_mem word member))
        (fun none' => absurd (by rw [none']; rfl) more)
      refine ⟨result, ran, ?_, by rw [joined, List.append_assoc, List.singleton_append]⟩
      rintro c' conf' same
      obtain ⟨rfl, rfl⟩ := List.cons.inj same
      rw [parts c conf rfl, partsFrom_take adjacent inside]
  | case5 c conf word words part datas outside last =>
      obtain rfl := List.eq_nil_of_length_eq_zero last
      obtain ⟨d, member, contained⟩ := covered word (List.mem_cons_self ..)
      rw [List.mem_singleton.mp member] at contained
      exact absurd contained outside
  | case6 c conf word words part datas outside more some' ih =>
      have beyond := beyond_of_outside adjacent asc (covered word (List.mem_cons_self ..)) outside
      obtain ⟨result, ran, parts, joined⟩ := ih adjacent.tail asc (covered_tail covered beyond)
        (fun _ => rfl)
      refine ⟨part :: result, by rw [ran, List.append_assoc, List.singleton_append], ?_,
        by rw [List.map_cons, List.flatten_cons, joined, List.nil_append]⟩
      rintro c' conf' same
      obtain ⟨rfl, rfl⟩ := List.cons.inj same
      obtain ⟨d, conf', rfl⟩ := List.exists_cons_of_length_pos (Nat.pos_of_ne_zero more)
      rw [partsFrom_next beyond, if_pos some', List.singleton_append, List.map_cons,
        parts d conf' rfl]
  | case7 c conf word words part datas outside more none' ih =>
      have beyond := beyond_of_outside adjacent asc (covered word (List.mem_cons_self ..)) outside
      have empty : part.imgQdata = [] :=
        List.eq_nil_of_length_eq_zero (Nat.eq_zero_of_not_pos none')
      obtain ⟨result, ran, parts, joined⟩ := ih adjacent.tail asc (covered_tail covered beyond)
        (fun _ => empty)
      refine ⟨result, ran, ?_, joined⟩
      rintro c' conf' same
      obtain ⟨rfl, rfl⟩ := List.cons.inj same
      obtain ⟨d, conf', rfl⟩ := List.exists_cons_of_length_pos (Nat.pos_of_ne_zero more)
      rw [partsFrom_next beyond, if_neg none', List.nil_append, parts d conf' rfl, empty]

theorem dispatchData_spec {conf : List MergeConf} (adjacent : Adjacent conf)
    {query : List QueryWord} (asc : Ascending Prod.fst query) (some' : query ≠ [])
    (covered : ∀ word ∈ query, ∃ d ∈ conf, d.contains word.1 = true) {s : CommonSearch}
    (configured : s.execMergeConf = conf) :
    ∃ datas, dispatchData query s = some (0, { s with serversToDatas := datas }) ∧
      datas.map ServerToData.imgQdata = partsOf conf query ∧ (partsOf conf query).flatten = query := by
  obtain ⟨word, member⟩ := List.exists_mem_of_ne_nil query some'
  obtain ⟨d, isConf, _⟩ := covered word member
  obtain ⟨c, rest, rfl⟩ := List.exists_cons_of_ne_nil (List.ne_nil_of_mem isConf)
  obtain ⟨datas, ran, parts, joined⟩ := dispatchLoop_spec adjacent asc covered {} [] fun _ => rfl
  have isParts : datas.map ServerToData.imgQdata = partsOf (c :: rest) query := parts c rest rfl
  refine ⟨datas, ?_, isParts, by rw [← isParts, joined]; rfl⟩
  rw [dispatchData, if_neg (fun none' => some' (List.eq_nil_of_length_eq_zero none')), configured,
    ran, Option.map_some, List.nil_append]

/-! ## One reply -/

theorem handlerMerge_eq (index : BOFIndex) (heThreshold : Int) (endPic : Nat → BitVec 64)
    {part : List QueryWord} (some' : part ≠ []) :
    handlerMerge index heThreshold endPic ⟨part⟩ =
      (mergeWords index heThreshold endPic part {}).map fun s =>
        if s.resultSimilar = [] then {}
        else ⟨0, some s.resultSimilar, s.resultSimilar.length, s.queryPow⟩ := by
  rw [handlerMerge, processorMerge,
    if_neg (fun none' => some' (List.eq_nil_of_length_eq_zero none')), merge, Option.map_map,
    Option.map_map]
  refine congrArg (fun f => Option.map f _) (funext fun s => ?_)
  by_cases none' : s.resultSimilar = []
  · simp [none']
  · have positive : 0 < s.resultSimilar.length := List.length_pos_of_ne_nil none'
    simp [none', positive, constructResult]

/-- A reply without a picture is not an archive, so that the client does not get past it. -/
theorem execMerge_eq (index : BOFIndex) (heThreshold : Int) (mem : Memory) {s : CommonSearch}
    {i : Nat} {data : ServerToData} (sent : s.serversToDatas[i]? = some data)
    (some' : data.imgQdata ≠ []) :
    (execMerge index heThreshold mem s i).map Prod.snd =
      (mergeWords index heThreshold (mem.serverEnd i) data.imgQdata {}).bind fun reply =>
        if reply.resultSimilar = [] then none
        else
          (mergeThreadsResult (mem.clientEnd i) reply.resultSimilar s.resultSimilar).map
            fun (_, result) =>
              { s with queryPow := s.queryPow + reply.queryPow, resultSimilar := result } := by
  rw [execMerge, sent, Option.bind_some, handlerMerge_eq index heThreshold _ some']
  cases mergeWords index heThreshold (mem.serverEnd i) data.imgQdata {} with
  | none => rfl
  | some reply =>
      rw [Option.map_some, Option.bind_some, Option.bind_some]
      by_cases none' : reply.resultSimilar = []
      · rw [if_pos none', if_pos none', if_pos rfl, Option.bind_none, Option.map_none]
      · rw [if_neg none', if_neg none', if_pos rfl, Option.bind_some, List.take_length,
          Option.map_map]
        rfl

end MlsImgSearch.Searchd.DistributedMerge
