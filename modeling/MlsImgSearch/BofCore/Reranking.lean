import MlsImgSearch.Searchd.SpatialRanker

/-!
# Ranking the results again

`RansacRanker::Rank` cuts off the pictures that count as the same one, scores the next ones
by the inliers it finds for them, and puts the first ones back in front.
-/

namespace MlsImgSearch.BofCore.Reranking

open Searchd.SpatialRanker (Floats SearchResultItem RansacRankerConf beginRank check)

variable {F : Type}

/-! ## The ranker -/

/-- The test of the loop. -/
def isSame (ops : Floats F) (item : SearchResultItem F) : Bool := ops.atLeast98 item.sim

/-- The loop over the pictures in front. A logger that takes the line reads the item at the iterator
after the removal; `none` is a read at the end. -/
def cutSame (ops : Floats F) (canLog : Bool) : List (SearchResultItem F) →
    List (SearchResultItem F) → Option (List (SearchResultItem F) × List (SearchResultItem F))
  | same, [] => some (same, [])
  | same, item :: rest =>
      if isSame ops item then
        if canLog ∧ rest = [] then none else cutSame ops canLog (same ++ [item]) rest
      else some (same, item :: rest)

/-- `same_result_before_rerank_`, and the items to rank. -/
def cutHandleRedult (ops : Floats F) (canLog : Bool) (conf : RansacRankerConf)
    (items : List (SearchResultItem F)) :
    Option (List (SearchResultItem F) × List (SearchResultItem F)) :=
  (if conf.rankIgnoreSameResult then some ([], items) else cutSame ops canLog [] items).map
    fun (same, items) =>
      if items.length ≤ (conf.maxRankPicNumber % 2 ^ 64).toNat then (same, items)
      else (same, items.take conf.maxRankPicNumber.toNat)

/-- What `std::sort` asks of `cmp_search_result_item`; scores that are no numbers can break it. -/
def StrictWeak (ops : Floats F) (items : List (SearchResultItem F)) : Prop :=
  (∀ a ∈ items, ∀ b ∈ items, ops.greater a.sim b.sim → ¬ops.greater b.sim a.sim) ∧
    ∀ a ∈ items, ∀ b ∈ items, ∀ c ∈ items, ops.greater a.sim b.sim →
      ops.greater a.sim c.sim ∨ ops.greater c.sim b.sim

instance decidableStrictWeak (ops : Floats F) (items : List (SearchResultItem F)) :
    Decidable (StrictWeak ops items) :=
  inferInstanceAs (Decidable (_ ∧ _))

/-- No item comes before one with a greater score. -/
def Sorted (ops : Floats F) (items : List (SearchResultItem F)) : Prop :=
  items.Pairwise fun a b => ¬ops.greater b.sim a.sim

/-- `std::sort`: it leaves open how equal items are placed. -/
def Sorts (ops : Floats F) (sort : List (SearchResultItem F) → List (SearchResultItem F)) : Prop :=
  ∀ items, StrictWeak ops items → (sort items).Perm items ∧ Sorted ops (sort items)

/-- `none` is a sort by a comparison that is no order. -/
def ranking (ops : Floats F) (sort : List (SearchResultItem F) → List (SearchResultItem F))
    (conf : RansacRankerConf) (items : List (SearchResultItem F)) :
    Option (List (SearchResultItem F)) :=
  if conf.shouldRank then if StrictWeak ops items then some (sort items) else none
  else some items

/-- The result, `same_result_before_rerank_` and `ransac_results_`. -/
structure Ranked (F : Type) where
  items : List (SearchResultItem F)
  same : List (SearchResultItem F)
  ransacResults : List Int

def endRank (same items : List (SearchResultItem F)) : List (SearchResultItem F) := same ++ items

/-- `RansacRanker::Rank`: the return value and what it leaves. `inliers` are the numbers that the
pictures get, and `none` for one that cannot be fetched. -/
def rank (ops : Floats F) (canLog : Bool)
    (sort : List (SearchResultItem F) → List (SearchResultItem F)) (conf : RansacRankerConf)
    (inliers : Nat → SearchResultItem F → Option Int) (points : Nat)
    (items : List (SearchResultItem F)) : Option (Int × Ranked F) :=
  (cutHandleRedult ops canLog conf items).bind fun (same, items) =>
    let ransacResults := beginRank inliers 0 items
    (check ops conf.minInliersNumber points items ransacResults).bind fun items =>
      (ranking ops sort conf items).map fun items =>
        (0, ⟨endRank same items, same, ransacResults⟩)

/-! ## The contract -/

/-- The logger drops the line, or a picture does not count as the same one. -/
def Stops (ops : Floats F) (canLog : Bool) (items : List (SearchResultItem F)) : Prop :=
  canLog → items ≠ [] → ∃ item ∈ items, isSame ops item = false

section Contract

variable (ops : Floats F) (conf : RansacRankerConf)
  (inliers : Nat → SearchResultItem F → Option Int) (points : Nat)
  (items : List (SearchResultItem F))

/-- The pictures in front that count as the same one. -/
def same : List (SearchResultItem F) :=
  if conf.rankIgnoreSameResult then [] else items.takeWhile (isSame ops)

/-- The next pictures, as many as are to be ranked. -/
def next : List (SearchResultItem F) :=
  (items.drop (same ops conf items).length).take conf.maxRankPicNumber.toNat

/-- A picture with the score of its own inliers. -/
def rescore (item : SearchResultItem F) (number : Int) : SearchResultItem F :=
  { item with sim :=
      if number < conf.minInliersNumber then ops.zero else ops.mul item.sim (ops.ratio number points) }

def scored : List (SearchResultItem F) :=
  (next ops conf items).mapIdx fun i item => rescore ops conf points item ((inliers i item).getD 0)

/-- The call returns 0. It leaves the first pictures in front as they were, and then the next ones
with their new scores, in order or sorted; there is one result for each of these. -/
def LosesNone (ran : Option (Int × Ranked F)) : Prop :=
  ∃ ranked results, ran = some (0, ⟨same ops conf items ++ ranked, same ops conf items, results⟩) ∧
    results.length = (next ops conf items).length ∧
    ranked.Perm (scored ops conf inliers points items) ∧
    if conf.shouldRank then Sorted ops ranked
    else ranked = scored ops conf inliers points items

/-- The loop stops before the last picture is removed, and the new scores can be compared if they
are to be sorted. -/
structure Clean (canLog : Bool) : Prop where
  stops : conf.rankIgnoreSameResult = false → Stops ops canLog items
  order : conf.shouldRank → StrictWeak ops (scored ops conf inliers points items)

end Contract

/-! ## The pictures in front -/

section Proofs

variable {ops : Floats F} {canLog : Bool} {conf : RansacRankerConf}
  {inliers : Nat → SearchResultItem F → Option Int} {points : Nat}
  {items : List (SearchResultItem F)}

theorem stops_cons_same {item : SearchResultItem F} (counts : isSame ops item = true)
    (more : ¬(canLog = true ∧ items = [])) :
    Stops ops canLog (item :: items) ↔ Stops ops canLog items := by
  unfold Stops
  simp only [List.exists_mem_cons_iff, counts, Bool.true_eq_false, false_or]
  refine imp_congr_right fun logs => imp_congr_left ?_
  exact iff_of_true (List.cons_ne_nil _ _) fun none' => more ⟨logs, none'⟩

/-- The loop ends if it stops before the last picture is removed. -/
theorem cutSame_eq_some (stops : Stops ops canLog items) (front : List (SearchResultItem F)) :
    cutSame ops canLog front items =
      some (front ++ items.takeWhile (isSame ops), items.dropWhile (isSame ops)) := by
  induction items generalizing front with
  | nil => rw [cutSame, List.takeWhile_nil, List.append_nil, List.dropWhile_nil]
  | cons item rest ih =>
      by_cases counts : isSame ops item = true
      · have more : ¬(canLog = true ∧ rest = []) := by
          rintro ⟨logs, rfl⟩
          obtain ⟨other, member, low⟩ := stops logs (List.cons_ne_nil _ _)
          rw [List.mem_singleton.mp member, counts] at low
          cases low
        rw [cutSame, if_pos counts, if_neg more, List.takeWhile_cons_of_pos counts,
          List.dropWhile_cons_of_pos counts, ih ((stops_cons_same counts more).mp stops),
          List.append_assoc, List.singleton_append]
      · rw [cutSame, if_neg counts, List.takeWhile_cons_of_neg counts,
          List.dropWhile_cons_of_neg counts, List.append_nil]

theorem cutSame_eq_none (runs : ¬Stops ops canLog items) (front : List (SearchResultItem F)) :
    cutSame ops canLog front items = none := by
  induction items generalizing front with
  | nil => exact absurd (fun _ some' => absurd rfl some') runs
  | cons item rest ih =>
      by_cases counts : isSame ops item = true
      · rw [cutSame, if_pos counts]
        by_cases last : canLog = true ∧ rest = []
        · rw [if_pos last]
        · rw [if_neg last]
          exact ih (mt (stops_cons_same counts last).mpr runs) _
      · have low : isSame ops item = false := Bool.not_eq_true _ ▸ counts
        exact absurd (fun _ _ => ⟨item, List.mem_cons_self .., low⟩) runs

theorem dropWhile_eq_drop (p : SearchResultItem F → Bool) (items : List (SearchResultItem F)) :
    items.dropWhile p = items.drop (items.takeWhile p).length := by
  have parts : items.takeWhile p ++ items.dropWhile p = items := List.takeWhile_append_dropWhile
  calc items.dropWhile p
      = (items.takeWhile p ++ items.dropWhile p).drop (items.takeWhile p).length :=
        (List.drop_left ..).symm
    _ = items.drop (items.takeWhile p).length := by rw [parts]

/-- The items that are kept for ranking. -/
theorem limit_eq (positive : 0 ≤ conf.maxRankPicNumber) (range : conf.maxRankPicNumber < 2 ^ 31) :
    (if items.length ≤ (conf.maxRankPicNumber % 2 ^ 64).toNat then items
      else items.take conf.maxRankPicNumber.toNat) = items.take conf.maxRankPicNumber.toNat := by
  have same : conf.maxRankPicNumber % 2 ^ 64 = conf.maxRankPicNumber := by omega
  rw [same]
  split
  · next few => exact (List.take_of_length_le few).symm
  · rfl

theorem cutHandleRedult_eq_some (positive : 0 ≤ conf.maxRankPicNumber)
    (range : conf.maxRankPicNumber < 2 ^ 31)
    (stops : conf.rankIgnoreSameResult = false → Stops ops canLog items) :
    cutHandleRedult ops canLog conf items = some (same ops conf items, next ops conf items) := by
  unfold cutHandleRedult next same
  by_cases ignores : conf.rankIgnoreSameResult = true
  · rw [if_pos ignores, if_pos ignores, Option.map_some]
    dsimp only
    rw [← apply_ite (Prod.mk []), limit_eq positive range]
    rfl
  · rw [if_neg ignores, if_neg ignores, cutSame_eq_some (stops (Bool.not_eq_true _ ▸ ignores)) [],
      Option.map_some, List.nil_append]
    dsimp only
    rw [← apply_ite (Prod.mk (items.takeWhile (isSame ops))), limit_eq positive range,
      dropWhile_eq_drop]

theorem cutHandleRedult_eq_none (keeps : conf.rankIgnoreSameResult = false)
    (runs : ¬Stops ops canLog items) : cutHandleRedult ops canLog conf items = none := by
  have cut : (if conf.rankIgnoreSameResult then some ([], items) else cutSame ops canLog [] items) =
      none := by
    rw [if_neg (by rw [keeps]; exact Bool.false_ne_true)]
    exact cutSame_eq_none runs []
  rw [cutHandleRedult, cut, Option.map_none]

/-! ## The scores -/

theorem length_beginRank (i : Nat) : (beginRank inliers i items).length = items.length := by
  induction items generalizing i with
  | nil => rfl
  | cons item rest ih => rw [beginRank, List.length_cons, List.length_cons, ih]

/-- Every item gets the number that was pushed for it. -/
theorem check_beginRank (conf : RansacRankerConf) (i : Nat) (items : List (SearchResultItem F)) :
    check ops conf.minInliersNumber points items (beginRank inliers i items) =
      some (items.mapIdx fun j item =>
        rescore ops conf points item ((inliers (i + j) item).getD 0)) := by
  induction items generalizing i with
  | nil => rfl
  | cons item rest ih =>
      have places : (fun j item => rescore ops conf points item ((inliers (i + 1 + j) item).getD 0)) =
          fun j item => rescore ops conf points item ((inliers (i + (j + 1)) item).getD 0) := by
        funext j item
        rw [Nat.add_assoc, Nat.add_comm 1 j]
      rw [beginRank, check, ih, Option.map_some, List.mapIdx_cons, places]
      rfl

/-- With the loop out of the way, the sort is what can go wrong. -/
theorem rank_eq (positive : 0 ≤ conf.maxRankPicNumber) (range : conf.maxRankPicNumber < 2 ^ 31)
    (stops : conf.rankIgnoreSameResult = false → Stops ops canLog items)
    (sort : List (SearchResultItem F) → List (SearchResultItem F)) :
    rank ops canLog sort conf inliers points items =
      (ranking ops sort conf (scored ops conf inliers points items)).map fun ranked =>
        (0, ⟨same ops conf items ++ ranked, same ops conf items,
          beginRank inliers 0 (next ops conf items)⟩) := by
  have start : (fun j item => rescore ops conf points item ((inliers (0 + j) item).getD 0)) =
      fun j item => rescore ops conf points item ((inliers j item).getD 0) := by
    funext j item
    rw [Nat.zero_add]
  rw [rank, cutHandleRedult_eq_some positive range stops, Option.bind_some]
  dsimp only
  rw [check_beginRank, Option.bind_some, start]
  rfl

/--
Re-ranking keeps every picture if and only if the loop over the pictures in front stops before the
last one is removed, or does not log it, and the new scores can be compared when they are sorted.
-/
theorem losesNone_iff_clean {sort : List (SearchResultItem F) → List (SearchResultItem F)}
    (sorts : Sorts ops sort) (positive : 0 ≤ conf.maxRankPicNumber)
    (range : conf.maxRankPicNumber < 2 ^ 31) :
    LosesNone ops conf inliers points items
        (rank ops canLog sort conf inliers points items) ↔
      Clean ops conf inliers points items canLog := by
  by_cases stops : conf.rankIgnoreSameResult = false → Stops ops canLog items
  · rw [rank_eq positive range stops sort]
    have length : (beginRank inliers 0 (next ops conf items)).length =
        (next ops conf items).length := length_beginRank 0
    unfold ranking LosesNone
    by_cases ranks : conf.shouldRank = true
    · by_cases order : StrictWeak ops (scored ops conf inliers points items)
      · obtain ⟨all, sorted⟩ := sorts _ order
        rw [if_pos ranks, if_pos order, Option.map_some]
        refine iff_of_true ⟨_, _, rfl, length, all, ?_⟩ ⟨stops, fun _ => order⟩
        rw [if_pos ranks]
        exact sorted
      · rw [if_pos ranks, if_neg order, Option.map_none]
        refine iff_of_false ?_ fun clean => order (clean.order ranks)
        rintro ⟨ranked, results, ran, _⟩
        cases ran
    · rw [if_neg ranks, Option.map_some]
      refine iff_of_true ⟨_, _, rfl, length, List.Perm.refl _, ?_⟩
        ⟨stops, fun wrong => absurd wrong ranks⟩
      rw [if_neg ranks]
  · obtain ⟨keeps, runs⟩ := Classical.not_imp.mp stops
    refine iff_of_false ?_ fun clean => runs (clean.stops keeps)
    rw [rank, cutHandleRedult_eq_none keeps runs, Option.bind_none]
    rintro ⟨ranked, results, ran, _⟩
    cases ran

/-! ## The ranker of the ranking server -/

theorem cutSame_logged (front items : List (SearchResultItem F)) :
    cutSame ops true front items = Searchd.SpatialRanker.cutSame ops front items := by
  induction items generalizing front with
  | nil => rfl
  | cons item rest ih =>
      rw [cutSame, Searchd.SpatialRanker.cutSame, ih, isSame]
      simp only [true_and]

/-- A stable sort, and a logger that takes the line. -/
theorem rank_logged (positive : 0 ≤ conf.maxRankPicNumber)
    (range : conf.maxRankPicNumber < 2 ^ 31)
    (order : conf.shouldRank → StrictWeak ops (scored ops conf inliers points items)) :
    (rank ops true (fun items => items.mergeSort fun a b => !ops.greater b.sim a.sim) conf inliers
        points items).map (fun ran => (ran.1, ran.2.items)) =
      Searchd.SpatialRanker.ransacRank ops conf inliers points items := by
  have cut : Searchd.SpatialRanker.cutHandleRedult ops conf items =
      cutHandleRedult ops true conf items := by
    rw [cutHandleRedult, cutSame_logged]
    rfl
  rw [Searchd.SpatialRanker.ransacRank, cut]
  by_cases stops : conf.rankIgnoreSameResult = false → Stops ops true items
  · have start : (fun j item => rescore ops conf points item ((inliers (0 + j) item).getD 0)) =
        fun j item => rescore ops conf points item ((inliers j item).getD 0) := by
      funext j item
      rw [Nat.zero_add]
    rw [rank_eq positive range stops, cutHandleRedult_eq_some positive range stops,
      Option.bind_some]
    dsimp only
    rw [check_beginRank, start, Option.map_map, Option.map_some, ranking,
      Searchd.SpatialRanker.ranking]
    by_cases ranks : conf.shouldRank = true
    · rw [if_pos ranks, if_pos (order ranks), if_pos ranks]
      rfl
    · rw [if_neg ranks, if_neg ranks]
      rfl
  · obtain ⟨keeps, runs⟩ := Classical.not_imp.mp stops
    rw [rank, cutHandleRedult_eq_none keeps runs]
    rfl

end Proofs

/-! ## Sample results -/

open Searchd.SpatialRanker (rationals)

theorem strictWeak_rationals (items : List (SearchResultItem ℚ)) : StrictWeak rationals items := by
  constructor
  · intro a _ b _ less
    have less : b.sim < a.sim := of_decide_eq_true less
    exact fun more => absurd (of_decide_eq_true more) (not_lt.mpr (le_of_lt less))
  · intro a _ b _ c _ less
    have less : b.sim < a.sim := of_decide_eq_true less
    rcases lt_or_ge c.sim a.sim with below | above
    · exact Or.inl (decide_eq_true below)
    · exact Or.inr (decide_eq_true (lt_of_lt_of_le less above))

theorem sorts_rationals :
    Sorts rationals fun items => items.mergeSort fun a b => !rationals.greater b.sim a.sim := by
  intro items _
  refine ⟨List.mergeSort_perm .., ?_⟩
  have le : ∀ a b : SearchResultItem ℚ, (!rationals.greater b.sim a.sim) = true ↔ b.sim ≤ a.sim :=
    fun a b => by
      rw [Bool.not_eq_true', ← Bool.not_eq_true]
      exact (not_congr decide_eq_true_iff).trans not_lt
  have sorted : (items.mergeSort fun a b => !rationals.greater b.sim a.sim).Pairwise
      fun a b => !rationals.greater b.sim a.sim :=
    List.pairwise_mergeSort
      (fun a b c first second => (le a c).mpr (le_trans ((le b c).mp second) ((le a b).mp first)))
      (fun a b => by
        rw [Bool.or_eq_true, le, le]
        exact le_total _ _) items
  exact List.Pairwise.imp (fun before => by
    rw [Bool.not_eq_true'] at before
    rw [before]
    exact Bool.false_ne_true) sorted

/-- One picture in front, one of two that is scored, and one that falls off. -/
theorem losesNone_sample :
    LosesNone rationals ⟨8, 2, false, true⟩ (fun i _ => some (10 * i)) 20
      [⟨7, 99 / 100⟩, ⟨8, 1 / 2⟩, ⟨9, 1 / 4⟩, ⟨10, 1 / 8⟩]
      (rank rationals true (fun items => items.mergeSort fun a b => !rationals.greater b.sim a.sim)
        ⟨8, 2, false, true⟩ (fun i _ => some (10 * i)) 20
        [⟨7, 99 / 100⟩, ⟨8, 1 / 2⟩, ⟨9, 1 / 4⟩, ⟨10, 1 / 8⟩]) :=
  (losesNone_iff_clean sorts_rationals (by decide) (by decide)).mpr
    ⟨fun _ _ _ => ⟨⟨8, 1 / 2⟩, List.mem_cons_of_mem _ (List.mem_cons_self ..), by decide +kernel⟩,
      fun _ => strictWeak_rationals _⟩

/-- The only result counts as the same picture: the line that is logged reads behind the list. -/
theorem not_losesNone_same :
    ¬LosesNone rationals ⟨8, 100, false, true⟩ (fun _ _ => none) 20 [⟨7, 1⟩]
      (rank rationals true (fun items => items.mergeSort fun a b => !rationals.greater b.sim a.sim)
        ⟨8, 100, false, true⟩ (fun _ _ => none) 20 [⟨7, 1⟩]) := by
  have nothing : rank rationals true
      (fun items => items.mergeSort fun a b => !rationals.greater b.sim a.sim)
      ⟨8, 100, false, true⟩ (fun _ _ => none) 20 [⟨7, 1⟩] = none := by
    rw [rank, cutHandleRedult_eq_none rfl, Option.bind_none]
    intro stops
    obtain ⟨item, member, low⟩ := stops rfl (List.cons_ne_nil _ _)
    rw [List.mem_singleton.mp member] at low
    revert low
    decide +kernel
  rw [nothing]
  rintro ⟨ranked, results, ran, _⟩
  cases ran

end MlsImgSearch.BofCore.Reranking
