import Mathlib.Analysis.Real.Sqrt
import Mathlib.Data.List.Sort
import MlsImgSearch.BofCore.Searcher

/-!
# Cosine scores

`Rank` divides the inner product of a picture with the query by their norms.
The norm of the query is summed over all words whose bucket loads, that of a
picture and the inner product only over the words that match. A bucket adds to
an entry of the list at most once, so that the inequality of Cauchy and Schwarz
holds between the three sums.
-/

namespace MlsImgSearch.BofCore.CosineScore

open MlsImgSearch.Lib.Run
open MlsImgSearch.BofCore.IndexerSerializer
open MlsImgSearch.BofCore.Indexer
open MlsImgSearch.BofCore.Searcher

/-! ## Two sums of products -/

/-- Products that are bounded by norms stay so when they and the norms are added. -/
theorem add_sq_le {s t p r P R : ℚ} (left : s ^ 2 ≤ p * P) (right : t ^ 2 ≤ r * R) (hp : 0 ≤ p)
    (hr : 0 ≤ r) (hP : 0 ≤ P) (hR : 0 ≤ R) : (s + t) ^ 2 ≤ (p + r) * (P + R) := by
  have outer : 0 ≤ p * R + r * P := add_nonneg (mul_nonneg hp hR) (mul_nonneg hr hP)
  have products : s ^ 2 * t ^ 2 ≤ (p * P) * (r * R) :=
    mul_le_mul left right (sq_nonneg t) (mul_nonneg hp hP)
  have squares : (2 * (s * t)) ^ 2 ≤ (p * R + r * P) ^ 2 := by
    have gap := sq_nonneg (p * R - r * P)
    calc (2 * (s * t)) ^ 2 = 4 * (s ^ 2 * t ^ 2) := by ring
      _ ≤ 4 * ((p * P) * (r * R)) := by linarith
      _ ≤ 4 * ((p * P) * (r * R)) + (p * R - r * P) ^ 2 := le_add_of_nonneg_right gap
      _ = (p * R + r * P) ^ 2 := by ring
  have mixed : 2 * (s * t) ≤ p * R + r * P := le_of_abs_le (abs_le_of_sq_le_sq squares outer)
  calc (s + t) ^ 2 = s ^ 2 + t ^ 2 + 2 * (s * t) := by ring
    _ ≤ p * P + r * R + (p * R + r * P) := by linarith
    _ = (p + r) * (P + R) := by ring

/-- An entry of the list whose product is bounded by the norms. -/
def Bounded (queryPow : ℚ) (info : MergeSimilarInfo) : Prop :=
  info.sim ^ 2 ≤ info.pow * queryPow ∧ 0 < info.pow

theorem Bounded.mono {queryPow more : ℚ} {info : MergeSimilarInfo} (bounded : Bounded queryPow info)
    (nonneg : 0 ≤ more) : Bounded (queryPow + more) info := by
  refine ⟨bounded.1.trans ?_, bounded.2⟩
  exact mul_le_mul_of_nonneg_left (le_add_of_nonneg_right nonneg) bounded.2.le

theorem Bounded.add {queryPow more : ℚ} {info other : MergeSimilarInfo}
    (bounded : Bounded queryPow info) (bounded' : Bounded more other) (hP : 0 ≤ queryPow)
    (hR : 0 ≤ more) :
    Bounded (queryPow + more) ⟨info.sim + other.sim, info.pow + other.pow, info.picId⟩ :=
  ⟨add_sq_le bounded.1 bounded'.1 bounded.2.le bounded'.2.le hP hR, add_pos bounded.2 bounded'.2⟩

/-! ## One bucket -/

section Bucket

variable {heThreshold : Int} {queryWeight : ℚ} {queryHe : List (BitVec 64)} {endPic : BitVec 64}
  {P P' : MergeSimilarInfo → Prop}

/-- The cursor leaves `P'` behind it and has `P` before it. -/
structure Divided (P P' : MergeSimilarInfo → Prop)
    (cursor : List MergeSimilarInfo × List MergeSimilarInfo) : Prop where
  behind : ∀ info ∈ cursor.1, P' info
  before : ∀ info ∈ cursor.2, P info

theorem Divided.insert {before after fresh : List MergeSimilarInfo}
    (divided : Divided P P' (before, after)) (new : ∀ info ∈ fresh, P' info) :
    Divided P P' (before ++ fresh, after) :=
  ⟨List.forall_mem_append.mpr ⟨divided.behind, new⟩, divided.before⟩

theorem Divided.pass {before after : List MergeSimilarInfo} {cur new : MergeSimilarInfo}
    (divided : Divided P P' (before, cur :: after)) (next : P' new) :
    Divided P P' (before ++ [new], after) :=
  ⟨List.forall_mem_append.mpr ⟨divided.behind, List.forall_mem_singleton.mpr next⟩,
    fun info member => divided.before info (List.mem_cons_of_mem cur member)⟩

theorem placeItem_divided (keep : ∀ info, P info → P' info) {item : IndexItem}
    (add : ∀ cur, P cur → P' (addItem heThreshold queryWeight queryHe item cur))
    (new : ∀ info ∈ newItem heThreshold queryWeight queryHe item, P' info)
    {before after : List MergeSimilarInfo} {cursor : List MergeSimilarInfo × List MergeSimilarInfo}
    (placed : placeItem heThreshold queryWeight queryHe endPic item before after = some cursor)
    (divided : Divided P P' (before, after)) : Divided P P' cursor := by
  induction after generalizing before with
  | nil =>
      rw [placeItem] at placed
      split at placed
      · cases placed
      · obtain rfl := Option.some.inj placed
        exact divided.insert new
  | cons cur after ih =>
      have here := divided.before cur (List.mem_cons_self ..)
      rw [placeItem] at placed
      split at placed
      · obtain rfl := Option.some.inj placed
        exact divided.pass (add cur here)
      · split at placed
        · obtain rfl := Option.some.inj placed
          exact divided.insert new
        · exact ih placed (divided.pass (keep cur here))

/-- A bucket takes every entry from `P` to `P'`. -/
theorem mergeItems_forall {items : List IndexItem} (keep : ∀ info, P info → P' info)
    (add : ∀ item ∈ items, ∀ cur, P cur → P' (addItem heThreshold queryWeight queryHe item cur))
    (new : ∀ item ∈ items, ∀ info ∈ newItem heThreshold queryWeight queryHe item, P' info)
    {before after result : List MergeSimilarInfo}
    (merged : mergeItems heThreshold queryWeight queryHe endPic items before after = some result)
    (divided : Divided P P' (before, after)) : ∀ info ∈ result, P' info := by
  induction items generalizing before after with
  | nil =>
      obtain rfl := Option.some.inj merged
      exact List.forall_mem_append.mpr
        ⟨divided.behind, fun info member => keep info (divided.before info member)⟩
  | cons item items ih =>
      obtain ⟨cursor, placed, rest⟩ := Option.bind_eq_some_iff.mp merged
      have first := placeItem_divided keep (add item (List.mem_cons_self ..))
        (new item (List.mem_cons_self ..)) placed divided
      exact ih (fun other member => add other (List.mem_cons_of_mem item member))
        (fun other member => new other (List.mem_cons_of_mem item member)) rest first

theorem bounded_addItem {queryPow : ℚ} (hP : 0 ≤ queryPow) (item : IndexItem) {cur : MergeSimilarInfo}
    (bounded : Bounded queryPow cur) :
    Bounded (queryPow + queryWeight ^ 2) (addItem heThreshold queryWeight queryHe item cur) := by
  unfold addItem
  split
  · have square : (floatValue item.weight * queryWeight) ^ 2 ≤
        floatValue item.weight ^ 2 * queryWeight ^ 2 := (mul_pow ..).le
    exact ⟨add_sq_le bounded.1 square bounded.2.le (sq_nonneg _) hP (sq_nonneg _),
      add_pos_of_pos_of_nonneg bounded.2 (sq_nonneg _)⟩
  · exact bounded.mono (sq_nonneg _)

theorem bounded_newItem {queryPow : ℚ} (hP : 0 ≤ queryPow) (item : IndexItem) :
    ∀ info ∈ newItem heThreshold queryWeight queryHe item,
      Bounded (queryPow + queryWeight ^ 2) info := by
  intro info member
  rcases newItem_eq heThreshold queryWeight queryHe item with ⟨nothing, _⟩ | ⟨one, _, hit⟩
  · rw [nothing] at member
    cases member
  · rw [one] at member
    rw [List.mem_singleton.mp member, add_comm]
    exact Bounded.mono ⟨(mul_pow ..).le, hit.2⟩ hP

theorem nonneg_addItem (weight : 0 ≤ queryWeight) {item : IndexItem}
    (weighs : 0 ≤ floatValue item.weight) {cur : MergeSimilarInfo} (nonneg : 0 ≤ cur.sim) :
    0 ≤ (addItem heThreshold queryWeight queryHe item cur).sim := by
  unfold addItem
  split
  · exact add_nonneg nonneg (mul_nonneg weighs weight)
  · exact nonneg

theorem nonneg_newItem (weight : 0 ≤ queryWeight) {item : IndexItem}
    (weighs : 0 ≤ floatValue item.weight) :
    ∀ info ∈ newItem heThreshold queryWeight queryHe item, 0 ≤ info.sim := by
  intro info member
  rcases newItem_eq heThreshold queryWeight queryHe item with ⟨nothing, _⟩ | ⟨one, _⟩
  · rw [nothing] at member
    cases member
  · rw [one] at member
    rw [List.mem_singleton.mp member]
    exact mul_nonneg weighs weight

end Bucket

/-! ## The whole query -/

/-- The norm of the query is not negative, and bounds the entries of the list. -/
structure Scored (queryPow : ℚ) (result : List MergeSimilarInfo) : Prop where
  nonneg : 0 ≤ queryPow
  bounded : ∀ info ∈ result, Bounded queryPow info

section Query

variable {index : BOFIndex} {heThreshold : Int}

/-- A call of `MergeBucketResult` does nothing, or merges the items of the bucket. -/
theorem mergeBucketResult_cases {endPic : BitVec 64} {word : QueryWord} {s s' : SearcherState}
    {ret : Int} (ran : mergeBucketResult index heThreshold endPic word s = some (ret, s')) :
    s' = s ∨ ∃ queryHe, mergeItems heThreshold word.2.q queryHe endPic (itemsOf index word.1) []
        s.resultSimilar = some s'.resultSimilar ∧ s'.queryPow = s.queryPow + word.2.q ^ 2 := by
  obtain ⟨⟨code, loaded⟩, load, rest⟩ := Option.bind_eq_some_iff.mp ran
  dsimp only at rest
  by_cases success : code = 0
  · subst success
    rw [if_neg (not_not.mpr rfl)] at rest
    obtain ⟨queryHe, _, merged⟩ := Option.bind_eq_some_iff.mp rest
    obtain ⟨result, items, same⟩ := Option.map_eq_some_iff.mp merged
    obtain ⟨_, rfl⟩ := Prod.mk.inj same
    exact Or.inr ⟨queryHe, by rwa [itemsOf_eq load], rfl⟩
  · rw [if_pos success] at rest
    exact Or.inl (Prod.mk.inj (Option.some.inj rest)).2.symm

theorem scored_step {endPic : BitVec 64} {word : QueryWord} {s s' : SearcherState} {ret : Int}
    (ran : mergeBucketResult index heThreshold endPic word s = some (ret, s'))
    (scored : Scored s.queryPow s.resultSimilar) : Scored s'.queryPow s'.resultSimilar := by
  rcases mergeBucketResult_cases ran with rfl | ⟨queryHe, merged, pow⟩
  · exact scored
  · rw [pow]
    refine ⟨add_nonneg scored.nonneg (sq_nonneg _), ?_⟩
    exact mergeItems_forall (fun info bounded => bounded.mono (sq_nonneg _))
      (fun item _ cur bounded => bounded_addItem scored.nonneg item bounded)
      (fun item _ => bounded_newItem scored.nonneg item) merged
      ⟨fun _ member => (nomatch member), scored.bounded⟩

/-- The state that `Merge` leaves is scored, for any index. -/
theorem scored_merge {endPic : Nat → BitVec 64} {words : List QueryWord} {ret : Int}
    {s : SearcherState} (ran : merge index heThreshold endPic words = some (ret, s)) :
    Scored s.queryPow s.resultSimilar := by
  obtain ⟨s', run, same⟩ := Option.map_eq_some_iff.mp ran
  obtain ⟨_, rfl⟩ := Prod.mk.inj same
  have keep : ∀ (s : SearcherState) (word : QueryWord) (s' : SearcherState),
      Scored s.queryPow s.resultSimilar → True →
        (mergeBucketResult index heThreshold (endPic word.1) word s).map Prod.snd = some s' →
          Scored s'.queryPow s'.resultSimilar := by
    intro s word s' scored _ stepped
    obtain ⟨⟨ret, s''⟩, bucket, rfl⟩ := Option.map_eq_some_iff.mp stepped
    exact scored_step bucket scored
  have start : Scored 0 [] := ⟨le_refl 0, fun _ member => nomatch member⟩
  exact exec_invariant keep start (meets_of_forall fun _ _ => trivial) run

/-- Weights of the query and of the index that are not negative. -/
structure Weighted (index : BOFIndex) (words : List QueryWord) : Prop where
  query : ∀ word ∈ words, 0 ≤ word.2.q
  index : ∀ word ∈ words, ∀ item ∈ itemsOf index word.1, 0 ≤ floatValue item.weight

theorem nonneg_merge {endPic : Nat → BitVec 64} {words : List QueryWord} {ret : Int}
    {s : SearcherState} (weighted : Weighted index words)
    (ran : merge index heThreshold endPic words = some (ret, s)) :
    ∀ info ∈ s.resultSimilar, 0 ≤ info.sim := by
  obtain ⟨s', run, same⟩ := Option.map_eq_some_iff.mp ran
  obtain ⟨_, rfl⟩ := Prod.mk.inj same
  have keep : ∀ (s : SearcherState) (word : QueryWord) (s' : SearcherState),
      (∀ info ∈ s.resultSimilar, 0 ≤ info.sim) → word ∈ words →
        (mergeBucketResult index heThreshold (endPic word.1) word s).map Prod.snd = some s' →
          ∀ info ∈ s'.resultSimilar, 0 ≤ info.sim := by
    intro s word s' nonneg member stepped
    obtain ⟨⟨ret, s''⟩, bucket, rfl⟩ := Option.map_eq_some_iff.mp stepped
    rcases mergeBucketResult_cases bucket with rfl | ⟨queryHe, merged, _⟩
    · exact nonneg
    · have query := weighted.query word member
      have weights := weighted.index word member
      exact mergeItems_forall (P := fun info => 0 ≤ info.sim) (fun _ nonneg => nonneg)
        (fun item inside cur nonneg => nonneg_addItem query (weights item inside) nonneg)
        (fun item inside => nonneg_newItem query (weights item inside)) merged
        ⟨fun _ member => (nomatch member), nonneg⟩
  have start : ∀ info ∈ ([] : List MergeSimilarInfo), 0 ≤ info.sim := fun _ member => nomatch member
  exact exec_invariant keep start (meets_of_forall fun _ member => member) run

end Query

/-! ## The scores -/

structure SearchResultItem where
  picId : BitVec 64 := 0
  sim : ℝ := 0

/-- The score of an entry; an item starts with the score 0. -/
noncomputable def scoreOf (queryPow : ℚ) (info : MergeSimilarInfo) : ℝ :=
  if 0 < info.pow ∧ 0 < queryPow then (info.sim : ℝ) / √((info.pow * queryPow : ℚ) : ℝ) else 0

noncomputable def rankedItem (queryPow : ℚ) (info : MergeSimilarInfo) : SearchResultItem :=
  ⟨info.picId, scoreOf queryPow info⟩

/-- The comparison of the sort. -/
noncomputable def before (item1 item2 : SearchResultItem) : Bool := decide (item2.sim ≤ item1.sim)

/-- The items that `Rank` leaves in `result_`. The order of items with one score is that of a
stable sort, which `std::sort` does not promise. -/
noncomputable def rank (s : SearcherState) : List SearchResultItem :=
  ((s.resultSimilar.map (rankedItem s.queryPow)).filter fun item =>
    decide ((1 / 10 : ℝ) < item.sim)).mergeSort before

theorem scoreOf_nonneg {queryPow : ℚ} {info : MergeSimilarInfo} (nonneg : 0 ≤ info.sim) :
    0 ≤ scoreOf queryPow info := by
  unfold scoreOf
  split
  · exact div_nonneg (Rat.cast_nonneg.mpr nonneg) (Real.sqrt_nonneg _)
  · exact le_refl 0

/-- The inequality of Cauchy and Schwarz, for the score. -/
theorem scoreOf_le_one {queryPow : ℚ} {info : MergeSimilarInfo} (bounded : Bounded queryPow info) :
    scoreOf queryPow info ≤ 1 := by
  unfold scoreOf
  split
  · next positive =>
      have squares : (info.sim : ℝ) ^ 2 ≤ ((info.pow * queryPow : ℚ) : ℝ) := by
        exact_mod_cast bounded.1
      refine div_le_one_of_le₀ ?_ (Real.sqrt_nonneg _)
      exact (le_abs_self _).trans (Real.abs_le_sqrt squares)
  · exact zero_le_one

theorem rank_sorted (s : SearcherState) : (rank s).Pairwise fun a b => b.sim ≤ a.sim := by
  have trans : ∀ a b c : SearchResultItem, before a b = true → before b c = true →
      before a c = true := fun a b c ab bc =>
    decide_eq_true ((of_decide_eq_true bc).trans (of_decide_eq_true ab))
  have total : ∀ a b : SearchResultItem, (before a b || before b a) = true := by
    intro a b
    rw [before, before, Bool.or_eq_true, decide_eq_true_eq, decide_eq_true_eq]
    exact le_total _ _
  exact (List.pairwise_mergeSort trans total _).imp fun le => of_decide_eq_true le

/-- The scores lie between 0 and 1, and `Rank` keeps those above 0.1 in falling order. -/
structure Ranked (s : SearcherState) : Prop where
  unit : ∀ info ∈ s.resultSimilar, 0 ≤ scoreOf s.queryPow info ∧ scoreOf s.queryPow info ≤ 1
  kept : (rank s).Perm ((s.resultSimilar.map (rankedItem s.queryPow)).filter fun item =>
    decide ((1 / 10 : ℝ) < item.sim))
  sorted : (rank s).Pairwise fun a b => b.sim ≤ a.sim

theorem Ranked.of_scored {s : SearcherState} (scored : Scored s.queryPow s.resultSimilar)
    (nonneg : ∀ info ∈ s.resultSimilar, 0 ≤ info.sim) : Ranked s :=
  ⟨fun info member => ⟨scoreOf_nonneg (nonneg info member),
    scoreOf_le_one (scored.bounded info member)⟩, List.mergeSort_perm .., rank_sorted s⟩

/-! ## `Merge` comes to its end -/

section Completes

variable {index : BOFIndex} (heThreshold : Int) (queryWeight : ℚ) (queryHe : List (BitVec 64))

theorem placeItem_isSome {endPic : BitVec 64} {item : IndexItem} (other : item.picId ≠ endPic)
    (before after : List MergeSimilarInfo) :
    (placeItem heThreshold queryWeight queryHe endPic item before after).isSome := by
  rw [placeItem_eq, if_neg fun both => other both.1]
  rfl

theorem mergeItems_isSome {endPic : BitVec 64} {items : List IndexItem}
    (others : ∀ item ∈ items, item.picId ≠ endPic) (before after : List MergeSimilarInfo) :
    (mergeItems heThreshold queryWeight queryHe endPic items before after).isSome := by
  induction items generalizing before after with
  | nil => rfl
  | cons item items ih =>
      obtain ⟨cursor, placed⟩ := Option.isSome_iff_exists.mp
        (placeItem_isSome heThreshold queryWeight queryHe (others item (List.mem_cons_self ..))
          before after)
      rw [mergeItems, placed, Option.bind_some]
      exact ih (fun other member => others other (List.mem_cons_of_mem item member)) _ _

/-- The memory behind the list has the number of no item, and the buckets can be read. -/
def Harmless (index : BOFIndex) (endPic : Nat → BitVec 64) (word : QueryWord) : Prop :=
  (loadWord index word.1).isSome ∧ ∀ item ∈ itemsOf index word.1, item.picId ≠ endPic word.1

theorem merge_isSome {endPic : Nat → BitVec 64} {words : List QueryWord}
    (harmless : ∀ word ∈ words, Harmless index endPic word) :
    ∃ ret s, merge index heThreshold endPic words = some (ret, s) := by
  have advance : ∀ (s : SearcherState) (word : QueryWord), True → Harmless index endPic word →
      ∃ s', (mergeBucketResult index heThreshold (endPic word.1) word s).map Prod.snd = some s' ∧
        True := by
    rintro s word _ ⟨loads, others⟩
    obtain ⟨⟨code, loaded⟩, load⟩ := Option.isSome_iff_exists.mp loads
    obtain ⟨queryHe, codes⟩ := Option.isSome_iff_exists.mp (heString2Int_isSome word.2.he)
    rw [mergeBucketResult, load, Option.bind_some]
    by_cases success : code = 0
    · subst success
      rw [itemsOf_eq load] at others
      obtain ⟨result, merged⟩ := Option.isSome_iff_exists.mp
        (mergeItems_isSome heThreshold word.2.q queryHe others [] s.resultSimilar)
      dsimp only
      rw [if_neg (not_not.mpr rfl), codes, Option.bind_some, merged]
      exact ⟨_, rfl, trivial⟩
    · dsimp only
      rw [if_pos success]
      exact ⟨_, rfl, trivial⟩
  obtain ⟨s, run, _⟩ := exec_progress advance (s := {}) trivial (meets_of_forall harmless)
  exact ⟨_, s, by rw [merge, mergeWords, run, Option.map_some]⟩

end Completes

end MlsImgSearch.BofCore.CosineScore
