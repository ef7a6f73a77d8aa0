import Mathlib.Data.List.Infix
import MlsImgSearch.BofCore.HammingEmbedding

/-!
# The merge of one bucket after the other

What `MergeBucketResult` leaves after each bucket, in terms of the codes and
weights of the buckets, and when it reads the list at `end()`. The first bucket
meets an empty list, so that its first item is compared with what lies there.
-/

namespace MlsImgSearch.BofCore.BucketMerge

open MlsImgSearch.Lib.Run
open MlsImgSearch.Lib.SortedList
open MlsImgSearch.Lib.SparseList
open MlsImgSearch.BofCore.IndexerSerializer
open MlsImgSearch.BofCore.Indexer
open MlsImgSearch.BofCore.Searcher
open MlsImgSearch.BofCore.HammingEmbedding (similarPairs countOne_eq searcher_heDistance_eq)

/-! ## Reads through `end()` -/

/-- The turns of the loop for an item bring the cursor to `end()`, where it is read. -/
def reachesEnd (item : IndexItem) : List MergeSimilarInfo → Bool
  | [] => true
  | cur :: after =>
      if item.picId = cur.picId then false
      else if item.picId.toInt < cur.picId.toInt then false
      else reachesEnd item after

section Loop

variable (heThreshold : Int) (queryWeight : ℚ) (queryHe : List (BitVec 64))

/-- The loop from the cursor on reads the list at `end()`. Until then the memory that is found
there takes no part. -/
def readsEndFrom : List IndexItem → List MergeSimilarInfo → List MergeSimilarInfo → Bool
  | [], _, _ => false
  | item :: items, before, after =>
      if reachesEnd item after then true
      else
        match placeItem heThreshold queryWeight queryHe 0 item before after with
        | none => true
        | some cursor => readsEndFrom items cursor.1 cursor.2

variable {heThreshold queryWeight queryHe}

theorem reachesEnd_iff (item : IndexItem) (after : List MergeSimilarInfo) :
    reachesEnd item after = true ↔ ∀ info ∈ after, simKey info < picKey item := by
  induction after with
  | nil => exact iff_of_true rfl fun _ member => nomatch member
  | cons cur after ih =>
      rw [reachesEnd, List.forall_mem_cons]
      by_cases here : item.picId = cur.picId
      · have same : simKey cur = picKey item := (congrArg BitVec.toInt here).symm
        rw [if_pos here]
        exact iff_of_false (fun no => nomatch no) fun both => both.1.ne same
      · rw [if_neg here]
        have other : simKey cur ≠ picKey item := fun same => here (BitVec.toInt_inj.mp same.symm)
        by_cases less : item.picId.toInt < cur.picId.toInt
        · rw [if_pos less]
          exact iff_of_false (fun no => nomatch no) fun both => both.1.not_gt less
        · rw [if_neg less, ih]
          have passed : simKey cur < picKey item := lt_of_le_of_ne (not_lt.mp less) other
          exact (and_iff_right passed).symm

/-- Before it is read at `end()`, the loop goes the same way with any memory there. -/
theorem readsEndFrom_iff (items : List IndexItem) (before after : List MergeSimilarInfo) :
    readsEndFrom heThreshold queryWeight queryHe items before after = true ↔
      ∃ endPic, mergeItems heThreshold queryWeight queryHe endPic items before after = none := by
  induction items generalizing before after with
  | nil =>
      constructor
      · intro reads
        cases reads
      · rintro ⟨_, fails⟩
        cases fails
  | cons item items ih =>
      rw [readsEndFrom]
      by_cases reaches : reachesEnd item after = true
      · have beyond := (reachesEnd_iff item after).mp reaches
        rw [if_pos reaches]
        refine iff_of_true rfl ⟨item.picId, ?_⟩
        rw [mergeItems, placeItem_eq, if_pos ⟨rfl, beyond⟩, Option.bind_none]
      · have inside : ∀ endPic : BitVec 64,
            ¬ (item.picId = endPic ∧ ∀ info ∈ after, simKey info < picKey item) :=
          fun _ both => reaches ((reachesEnd_iff item after).mpr both.2)
        simp only [if_neg reaches, mergeItems, placeItem_eq, if_neg (inside _), Option.bind_some]
        exact ih _ _

/-- The loop reads at `end()` if an item lies beyond the list. -/
theorem readsEndFrom_eq_true {items : List IndexItem} {result : List MergeSimilarInfo}
    (proper : Proper result) (asc : Ascending picKey items) :
    readsEndFrom heThreshold queryWeight queryHe items [] result = true ↔
      ∃ item ∈ items, ∀ info ∈ result, simKey info < picKey item := by
  have spec := fun endPic => mergeItems_spec heThreshold queryWeight queryHe endPic [] result proper
    asc fun _ member => nomatch member
  rw [readsEndFrom_iff]
  constructor
  · rintro ⟨endPic, failed⟩
    by_contra none'
    have clear : ¬ Collides endPic items result := fun ⟨item, member, _, beyond⟩ =>
      none' ⟨item, member, beyond⟩
    obtain ⟨merged, ran, _⟩ := (spec endPic).2 clear
    rw [failed] at ran
    cases ran
  · rintro ⟨item, member, beyond⟩
    exact ⟨item.picId, (spec item.picId).1 ⟨item, member, rfl, beyond⟩⟩

end Loop

variable (index : BOFIndex) (heThreshold : Int)

/-- `MergeBucketResult` reads the list at `end()`. -/
def readsEnd (word : QueryWord) (s : SearcherState) : Bool :=
  match loadWord index word.1 with
  | some (0, loaded) =>
      readsEndFrom heThreshold word.2.q (wordHe word) loaded.items [] s.resultSimilar
  | _ => false

/-! ## What the result should be -/

/-- The number of positions at which two codes differ. -/
def codeDistance (a b : BitVec 64) : Nat :=
  hammingDist (fun i : Fin 64 => a.getLsbD i) fun i => b.getLsbD i

/-- A pair of codes is within the threshold. -/
def HasPair (he1 he2 : List (BitVec 64)) : Prop :=
  ∃ a ∈ he1, ∃ b ∈ he2, (codeDistance a b : Int) ≤ heThreshold

instance decidableHasPair (he1 he2 : List (BitVec 64)) : Decidable (HasPair heThreshold he1 he2) := by
  unfold HasPair
  infer_instance

/-- The item has a weight and a pair with the query. -/
def Matches (word : QueryWord) (item : IndexItem) : Prop :=
  floatValue item.weight ≠ 0 ∧ HasPair heThreshold item.he (wordHe word)

instance decidableMatches (word : QueryWord) (item : IndexItem) :
    Decidable (Matches heThreshold word item) := by
  unfold Matches
  infer_instance

/-- The items of a picture that match. -/
def matching (word : QueryWord) (k : Int) : List IndexItem :=
  (itemsOf index word.1).filter fun item => picKey item = k ∧ Matches heThreshold word item

/-- The state lists the pictures that match, with the sums of their weights. -/
structure Lists (words : List QueryWord) (s : SearcherState) : Prop where
  ascending : Ascending simKey s.resultSimilar
  listed : ∀ k, (∃ info ∈ s.resultSimilar, simKey info = k) ↔
    ∃ word ∈ words, ∃ item ∈ itemsOf index word.1, picKey item = k ∧ Matches heThreshold word item
  sim_eq : ∀ info ∈ s.resultSimilar, info.sim =
    (words.map fun word => ((matching index heThreshold word (simKey info)).map fun item =>
      floatValue item.weight * word.2.q).sum).sum
  pow_eq : ∀ info ∈ s.resultSimilar, info.pow =
    (words.map fun word => ((matching index heThreshold word (simKey info)).map fun item =>
      floatValue item.weight ^ 2).sum).sum
  queryPow_eq : s.queryPow = queryPowOf index words

/-- After every call the state is as `Lists` says. -/
def ListsAlways (endPic : Nat → BitVec 64) (words : List QueryWord) : Prop :=
  ∀ done, done <+: words → ∃ s, mergeWords index heThreshold endPic done {} = some s ∧
    Lists index heThreshold done s

/-- No call reads the list at `end()`. -/
def KeepsOffEnd (endPic : Nat → BitVec 64) (words : List QueryWord) : Prop :=
  ∀ done word, done ++ [word] <+: words →
    ∀ s, mergeWords index heThreshold endPic done {} = some s →
      readsEnd index heThreshold word s = false

/-- The count of the pairs, 32 bits wide and taken with the threshold as an unsigned number, is not
0 exactly if a pair is within the threshold. -/
def Counted (words : List QueryWord) : Prop :=
  ∀ word ∈ words, ∀ item ∈ itemsOf index word.1, floatValue item.weight ≠ 0 →
    (similarPairs (fun a b => decide (countOne (a ^^^ b) ≤ (BitVec.ofInt 64 heThreshold).toNat))
      item.he (wordHe word) % 2 ^ 32 ≠ 0 ↔ HasPair heThreshold item.he (wordHe word))

/-! ## The count of the pairs -/

theorem countOne_xor (a b : BitVec 64) : countOne (a ^^^ b) = codeDistance a b := by
  have bit : ∀ i : Fin 64, ((a ^^^ b).getLsbD i).toNat =
      if a.getLsbD i ≠ b.getLsbD i then 1 else 0 := by
    intro i
    rw [BitVec.getLsbD_xor]
    cases a.getLsbD i <;> cases b.getLsbD i <;> rfl
  rw [countOne_eq, Finset.sum_range, Finset.sum_congr rfl fun i _ => bit i, codeDistance,
    hammingDist, Finset.card_filter]

theorem similarPairs_pos {α : Type*} {close : α → α → Bool} {xs ys : List α} :
    0 < similarPairs close xs ys ↔ ∃ x ∈ xs, ∃ y ∈ ys, close x y = true := by
  induction xs with
  | nil => exact iff_of_false (lt_irrefl 0) fun ⟨_, member, _⟩ => nomatch member
  | cons x xs ih =>
      rw [similarPairs, List.map_cons, List.sum_cons, List.exists_mem_cons_iff, ← ih,
        ← List.countP_pos_iff, ← similarPairs]
      exact Nat.add_pos_iff_pos_or_pos ..

variable {index heThreshold}

theorem isSimilar_iff (word : QueryWord) (item : IndexItem) :
    isSimilar heThreshold (wordHe word) item = true ↔
      similarPairs (fun a b => decide (countOne (a ^^^ b) ≤ (BitVec.ofInt 64 heThreshold).toNat))
        item.he (wordHe word) % 2 ^ 32 ≠ 0 := by
  rw [isSimilar, searcher_heDistance_eq, bne_iff_ne, ne_eq, ← BitVec.toNat_inj, BitVec.toNat_ofNat]
  rfl

/-- A threshold that is not negative, and fewer than 2^32 pairs. -/
theorem counted_of_few {words : List QueryWord} (threshold : 0 ≤ heThreshold)
    (small : heThreshold < 2 ^ 63)
    (few : ∀ word ∈ words, ∀ item ∈ itemsOf index word.1,
      similarPairs (fun a b => decide (countOne (a ^^^ b) ≤ (BitVec.ofInt 64 heThreshold).toNat))
        item.he (wordHe word) < 2 ^ 32) : Counted index heThreshold words := by
  intro word member item inside _
  have unsigned : (BitVec.ofInt 64 heThreshold).toNat = heThreshold.toNat := by
    rw [BitVec.toNat_ofInt]
    omega
  rw [Nat.mod_eq_of_lt (few word member item inside), ← Nat.pos_iff_ne_zero, similarPairs_pos,
    HasPair, unsigned]
  simp only [decide_eq_true_eq, countOne_xor]
  refine exists_congr fun a => and_congr_right fun _ => exists_congr fun b =>
    and_congr_right fun _ => ?_
  omega

/-! ## What a bucket adds, again -/

/-- What an item should add to its picture. -/
def matchItem (heThreshold : Int) (word : QueryWord) (item : IndexItem) : ℚ × ℚ :=
  if Matches heThreshold word item then
    (floatValue item.weight * word.2.q, floatValue item.weight ^ 2)
  else 0

theorem matching_sums (word : QueryWord) (k : Int) :
    (((matching index heThreshold word k).map fun item => floatValue item.weight * word.2.q).sum,
        ((matching index heThreshold word k).map fun item => floatValue item.weight ^ 2).sum) =
      coeff picKey (matchItem heThreshold word) (itemsOf index word.1) k := by
  unfold matching
  induction itemsOf index word.1 with
  | nil => rfl
  | cons item items ih =>
      rw [coeff_cons, ← ih, matchItem]
      by_cases here : picKey item = k
      · by_cases hit : Matches heThreshold word item
        · rw [List.filter_cons_of_pos (by simp [here, hit]), if_pos here, if_pos hit]
          rfl
        · rw [List.filter_cons_of_neg (by simp [hit]), if_pos here, if_neg hit, zero_add]
      · rw [List.filter_cons_of_neg (by simp [here]), if_neg here, zero_add]

/-- What the words should add to a picture. -/
def matchTotal (index : BOFIndex) (heThreshold : Int) (words : List QueryWord) (k : Int) : ℚ × ℚ :=
  (words.map fun word => coeff picKey (matchItem heThreshold word) (itemsOf index word.1) k).sum

theorem matchTotal_append (done : List QueryWord) (word : QueryWord) (k : Int) :
    matchTotal index heThreshold (done ++ [word]) k =
      matchTotal index heThreshold done k +
        coeff picKey (matchItem heThreshold word) (itemsOf index word.1) k := by
  rw [matchTotal, List.map_append, List.sum_append, List.map_singleton, List.sum_singleton,
    ← matchTotal]

theorem matchTotal_eq (words : List QueryWord) (k : Int) :
    matchTotal index heThreshold words k =
      ((words.map fun word => ((matching index heThreshold word k).map fun item =>
          floatValue item.weight * word.2.q).sum).sum,
        (words.map fun word => ((matching index heThreshold word k).map fun item =>
          floatValue item.weight ^ 2).sum).sum) := by
  induction words with
  | nil => rfl
  | cons word words ih =>
      rw [matchTotal, List.map_cons, List.sum_cons, ← matchTotal, ih, ← matching_sums, List.map_cons,
        List.sum_cons, List.map_cons, List.sum_cons]
      rfl

/-- The code adds what it should. -/
theorem counted_iff_value (word : QueryWord) (item : IndexItem) :
    (floatValue item.weight ≠ 0 →
      (isSimilar heThreshold (wordHe word) item = true ↔
        HasPair heThreshold item.he (wordHe word))) ↔
      itemValue heThreshold word.2.q (wordHe word) item = matchItem heThreshold word item := by
  by_cases none' : floatValue item.weight = 0
  · have noMatch : ¬ Matches heThreshold word item := fun hit => hit.1 none'
    refine iff_of_true (fun some' => absurd none' some') ?_
    rw [matchItem, if_neg noMatch, itemValue, none', zero_mul, zero_pow two_ne_zero]
    exact ite_self _
  · have some' : ((floatValue item.weight * word.2.q, floatValue item.weight ^ 2) : ℚ × ℚ) ≠ 0 :=
      fun zero => pow_ne_zero 2 none' (congrArg Prod.snd zero)
    have hit : Matches heThreshold word item ↔ HasPair heThreshold item.he (wordHe word) :=
      and_iff_right none'
    rw [← hit, forall_prop_of_true none', itemValue, matchItem]
    by_cases similar : isSimilar heThreshold (wordHe word) item = true <;>
      by_cases pair : Matches heThreshold word item <;>
      simp [similar, pair, some', some'.symm]

theorem counted_iff {words : List QueryWord} :
    Counted index heThreshold words ↔ ∀ word ∈ words, ∀ item ∈ itemsOf index word.1,
      itemValue heThreshold word.2.q (wordHe word) item = matchItem heThreshold word item := by
  unfold Counted
  simp only [← isSimilar_iff, counted_iff_value]

theorem isHit_iff {word : QueryWord} {item : IndexItem}
    (value : itemValue heThreshold word.2.q (wordHe word) item = matchItem heThreshold word item) :
    IsHit heThreshold (wordHe word) item ↔ Matches heThreshold word item := by
  have counted := (counted_iff_value word item).mpr value
  rw [IsHit, Matches, and_comm]
  have weighs : 0 < floatValue item.weight ^ 2 ↔ floatValue item.weight ≠ 0 := sq_pos_iff
  rw [weighs]
  exact and_congr_right counted

/-! ## After every call -/

theorem queryValue_eq {words : List QueryWord} (counted : Counted index heThreshold words) (k : Int) :
    queryValue index heThreshold words k = matchTotal index heThreshold words k := by
  refine congrArg List.sum (List.map_congr_left fun word member => ?_)
  refine congrArg List.sum (List.map_congr_left fun item inside => ?_)
  rw [counted_iff.mp counted word member item inside]

theorem queryHits_iff {words : List QueryWord} (counted : Counted index heThreshold words) (k : Int) :
    QueryHits index heThreshold words k ↔ ∃ word ∈ words, ∃ item ∈ itemsOf index word.1,
      picKey item = k ∧ Matches heThreshold word item := by
  refine exists_congr fun word => and_congr_right fun member => exists_congr fun item =>
    and_congr_right fun inside => ?_
  rw [isHit_iff (counted_iff.mp counted word member item inside)]
  exact and_comm

theorem Lists.of_answers {words : List QueryWord} {s : SearcherState}
    (answers : Answers index heThreshold words s) (counted : Counted index heThreshold words) :
    Lists index heThreshold words s := by
  have asc := answers.proper.ascending
  have value : ∀ info ∈ s.resultSimilar,
      simValue info = matchTotal index heThreshold words (simKey info) := by
    intro info member
    rw [← queryValue_eq counted, ← answers.coeff_eq, coeff_of_mem asc member]
  refine ⟨asc, fun k => (answers.mem_key k).trans (queryHits_iff counted k), fun info member => ?_,
    fun info member => ?_, answers.pow_eq⟩
  · have both := value info member
    rw [matchTotal_eq] at both
    exact congrArg Prod.fst both
  · have both := value info member
    rw [matchTotal_eq] at both
    exact congrArg Prod.snd both

theorem Lists.coeff_eq {words : List QueryWord} {s : SearcherState}
    (lists : Lists index heThreshold words s) (k : Int) :
    coeff simKey simValue s.resultSimilar k = matchTotal index heThreshold words k := by
  rw [matchTotal_eq]
  by_cases listed : ∃ info ∈ s.resultSimilar, simKey info = k
  · obtain ⟨info, member, rfl⟩ := listed
    rw [coeff_of_mem lists.ascending member, ← lists.sim_eq info member, ← lists.pow_eq info member]
    rfl
  · have none' : ∀ word ∈ words, matching index heThreshold word k = [] := by
      intro word member
      refine List.filter_eq_nil_iff.mpr fun item inside hit => listed ((lists.listed k).mpr ?_)
      exact ⟨word, member, item, inside, of_decide_eq_true hit⟩
    have sums : ∀ f : QueryWord → IndexItem → ℚ,
        (words.map fun word => ((matching index heThreshold word k).map (f word)).sum).sum = 0 := by
      intro f
      refine List.sum_eq_zero fun sum member => ?_
      obtain ⟨word, inside, rfl⟩ := List.mem_map.mp member
      rw [none' word inside]
      rfl
    rw [coeff_eq_zero fun info member same => listed ⟨info, member, same⟩,
      sums fun word item => floatValue item.weight * word.2.q,
      sums fun _ item => floatValue item.weight ^ 2]
    rfl

section Run

variable (readable : Readable index) (endPic : Nat → BitVec 64)

include readable

theorem ascending_itemsOf (i : Nat) : Ascending picKey (itemsOf index i) := by
  rcases readable i with ⟨loaded, success, asc⟩ | ⟨code, nonzero, refused⟩
  · rwa [itemsOf_eq success]
  · rw [itemsOf_refused nonzero refused]
    exact List.Pairwise.nil

theorem answers_of_ran {words : List QueryWord} {s : SearcherState}
    (ran : mergeWords index heThreshold endPic words {} = some s) :
    Apart index heThreshold endPic words ∧ Answers index heThreshold words s := by
  obtain ⟨fails, works⟩ := mergeWords_spec heThreshold readable endPic words
  have apart : Apart index heThreshold endPic words := by
    by_contra clash
    rw [fails clash] at ran
    cases ran
  obtain ⟨s', ran', answers⟩ := works apart
  obtain rfl : s = s' := Option.some.inj (ran.symm.trans ran')
  exact ⟨apart, answers⟩

/-- A word whose call leaves what it should has its pairs counted right. -/
theorem value_of_lists {done : List QueryWord} {word : QueryWord} {s s' : SearcherState}
    (ran : mergeWords index heThreshold endPic done {} = some s)
    (lists : Lists index heThreshold done s)
    (ran' : mergeWords index heThreshold endPic (done ++ [word]) {} = some s')
    (lists' : Lists index heThreshold (done ++ [word]) s') {item : IndexItem}
    (inside : item ∈ itemsOf index word.1) :
    itemValue heThreshold word.2.q (wordHe word) item = matchItem heThreshold word item := by
  have before := (answers_of_ran readable endPic ran).2.coeff_eq (picKey item)
  have after := (answers_of_ran readable endPic ran').2.coeff_eq (picKey item)
  have asc := ascending_itemsOf readable word.1
  rw [lists.coeff_eq] at before
  rw [lists'.coeff_eq, matchTotal_append, queryValue_append, ← before] at after
  have one : queryValue index heThreshold [word] (picKey item) =
      itemValue heThreshold word.2.q (wordHe word) item :=
    (add_zero _).trans (coeff_of_mem asc inside)
  rw [one, coeff_of_mem asc inside] at after
  exact (add_left_cancel after).symm

theorem listsAlways_iff (words : List QueryWord) :
    ListsAlways index heThreshold endPic words ↔
      Apart index heThreshold endPic words ∧ Counted index heThreshold words := by
  constructor
  · intro always
    obtain ⟨s, ran, _⟩ := always words (List.prefix_refl words)
    refine ⟨(answers_of_ran readable endPic ran).1, counted_iff.mpr fun word member item inside => ?_⟩
    obtain ⟨done, rest, rfl⟩ := List.append_of_mem member
    obtain ⟨before, ranBefore, listsBefore⟩ := always done (List.prefix_append ..)
    obtain ⟨after, ranAfter, listsAfter⟩ := always (done ++ [word])
      ⟨rest, by rw [List.append_assoc, List.singleton_append]⟩
    exact value_of_lists readable endPic ranBefore listsBefore ranAfter listsAfter inside
  · rintro ⟨apart, counted⟩ done ⟨rest, rfl⟩
    have apartDone : Apart index heThreshold endPic done := by
      rintro earlier word later rfl
      exact apart earlier word (later ++ rest) (by simp)
    obtain ⟨s, ran, answers⟩ := (mergeWords_spec heThreshold readable endPic done).2 apartDone
    exact ⟨s, ran, Lists.of_answers answers fun word member =>
      counted word (List.mem_append_left rest member)⟩

theorem readsEnd_iff (word : QueryWord) {s : SearcherState} (proper : Proper s.resultSimilar) :
    readsEnd index heThreshold word s = true ↔
      ∃ item ∈ itemsOf index word.1, ∀ info ∈ s.resultSimilar, simKey info < picKey item := by
  rcases readable word.1 with ⟨loaded, success, asc⟩ | ⟨code, nonzero, refused⟩
  · rw [readsEnd, success, itemsOf_eq success]
    exact readsEndFrom_eq_true proper asc
  · rw [itemsOf_refused nonzero refused]
    refine iff_of_false ?_ fun ⟨_, member, _⟩ => nomatch member
    rw [readsEnd, refused]
    split
    · next same => exact absurd (Prod.mk.inj (Option.some.inj same)).1 nonzero
    · exact fun no => nomatch no

/-- The first item of all is read against `end()` of the empty list. -/
theorem keepsOffEnd_iff (words : List QueryWord) :
    (ListsAlways index heThreshold endPic words ∧ KeepsOffEnd index heThreshold endPic words) ↔
      ∀ word ∈ words, itemsOf index word.1 = [] := by
  constructor
  · rintro ⟨always, keepsOff⟩
    induction words using List.reverseRecOn with
    | nil => exact fun _ member => nomatch member
    | append_singleton done word ih =>
        have empties := ih (fun first isPrefix => always first (isPrefix.trans (List.prefix_append ..)))
          fun first next isPrefix => keepsOff first next (isPrefix.trans (List.prefix_append ..))
        obtain ⟨s, ran, lists⟩ := always done (List.prefix_append ..)
        have none' : s.resultSimilar = [] := by
          refine List.eq_nil_iff_forall_not_mem.mpr fun info member => ?_
          obtain ⟨other, isDone, item, inside, _⟩ := (lists.listed _).mp ⟨info, member, rfl⟩
          rw [empties other isDone] at inside
          cases inside
        have off := keepsOff done word (List.prefix_refl _) s ran
        have last : itemsOf index word.1 = [] := by
          refine List.eq_nil_iff_forall_not_mem.mpr fun item inside => ?_
          have proper := (answers_of_ran readable endPic ran).2.proper
          have reads : readsEnd index heThreshold word s = true :=
            (readsEnd_iff readable word proper).mpr
              ⟨item, inside, fun info member => by rw [none'] at member; cases member⟩
          rw [off] at reads
          cases reads
        intro other member
        rcases List.mem_append.mp member with earlier | here
        · exact empties other earlier
        · rwa [List.mem_singleton.mp here]
  · intro empties
    refine ⟨(listsAlways_iff readable endPic words).mpr ⟨?_, ?_⟩, ?_⟩
    · rintro earlier word later rfl item inside
      rw [empties word (by simp)] at inside
      cases inside
    · intro word member item inside
      rw [empties word member] at inside
      cases inside
    · intro done word isPrefix s ran
      have proper := (answers_of_ran readable endPic ran).2.proper
      refine Bool.eq_false_iff.mpr fun reads => ?_
      obtain ⟨item, inside, _⟩ := (readsEnd_iff readable word proper).mp reads
      rw [empties word (isPrefix.subset (by simp))] at inside
      cases inside

end Run

/-! ## Two buckets -/

/-- Weight 1 and one code. -/
def plainItem (picId : BitVec 64) : IndexItem := .single picId

/-- Picture 7 in the first bucket, pictures 7 and 9 in the second one. -/
def twoBuckets : BOFIndex :=
  ((BOFIndex.create 2).append 0 (WordIndex.encode ⟨0, [plainItem 7]⟩)).append 1
    (WordIndex.encode ⟨1, [plainItem 7, plainItem 9]⟩)

/-- A word of weight 1 with the code of the items. -/
def plainWord (word : Nat) : QueryWord := (word, ⟨1, List.replicate 16 48, []⟩)

theorem readable_twoBuckets : Readable twoBuckets
  | 0 => Or.inl ⟨⟨0, [plainItem 7]⟩, by decide +kernel, by decide +kernel⟩
  | 1 => Or.inl ⟨⟨1, [plainItem 7, plainItem 9]⟩, by decide +kernel, by decide +kernel⟩
  | _ + 2 => Or.inr ⟨-1, by decide, rfl⟩

end MlsImgSearch.BofCore.BucketMerge
