import Mathlib.Algebra.Order.Ring.Rat
import Mathlib.Data.List.Basic
import Mathlib.Tactic.Common

/-!
# Spatial ranking of the results

A thread of the search server sends a slice of the results to the ranking server,
which answers with the scores of the pictures that it keeps, in the order of the
request. `SpatialRanker` then goes through the slice with a cursor into the reply
that moves on a match, and reads the reply at the cursor for every picture.
-/

namespace MlsImgSearch.Searchd.SpatialRanker

variable {F : Type}

/-! ## The ranking server -/

/-- What the code uses of `float`; `ratio` is the quotient of two integers. -/
structure Floats (F : Type) where
  zero : F
  one : F
  mul : F → F → F
  positive : F → Bool
  atLeast98 : F → Bool
  greater : F → F → Bool
  ratio : Int → Nat → F

structure SearchResultItem (F : Type) where
  picId : Int
  sim : F
  deriving DecidableEq

structure RansacRankerConf where
  minInliersNumber : Int
  maxRankPicNumber : Int
  rankIgnoreSameResult : Bool
  shouldRank : Bool

/-- The pictures in front that count as the same one. The log line reads the next item; `none` is
a read behind the items. -/
def cutSame (ops : Floats F) : List (SearchResultItem F) → List (SearchResultItem F) →
    Option (List (SearchResultItem F) × List (SearchResultItem F))
  | same, [] => some (same, [])
  | same, item :: rest =>
      if ops.atLeast98 item.sim then
        if rest = [] then none else cutSame ops (same ++ [item]) rest
      else some (same, item :: rest)

/-- `same_result_before_rerank_`, and the items to rank. -/
def cutHandleRedult (ops : Floats F) (conf : RansacRankerConf) (items : List (SearchResultItem F)) :
    Option (List (SearchResultItem F) × List (SearchResultItem F)) :=
  (if conf.rankIgnoreSameResult then some ([], items) else cutSame ops [] items).map
    fun (same, items) =>
      if items.length ≤ (conf.maxRankPicNumber % 2 ^ 64).toNat then (same, items)
      else (same, items.take conf.maxRankPicNumber.toNat)

/-- One number for each item. `inliers` stands for the download of the picture, which may fail,
and for the random search of `ComputeInliers`. -/
def beginRank (inliers : Nat → SearchResultItem F → Option Int) :
    Nat → List (SearchResultItem F) → List Int
  | _, [] => []
  | i, item :: rest => (inliers i item).getD 0 :: beginRank inliers (i + 1) rest

/-- `none` is a read behind `ransac_results_`. -/
def check (ops : Floats F) (minInliersNumber : Int) (points : Nat) :
    List (SearchResultItem F) → List Int → Option (List (SearchResultItem F))
  | [], _ => some []
  | _ :: _, [] => none
  | item :: rest, curInliersNumber :: more =>
      (check ops minInliersNumber points rest more).map fun checked =>
        { item with sim :=
            if curInliersNumber < minInliersNumber then ops.zero
            else ops.mul item.sim (ops.ratio curInliersNumber points) } :: checked

/-- Equal ones stay in their order here. -/
def ranking (ops : Floats F) (conf : RansacRankerConf) (items : List (SearchResultItem F)) :
    List (SearchResultItem F) :=
  if conf.shouldRank then items.mergeSort fun a b => !ops.greater b.sim a.sim else items

/-- `RansacRanker::Rank`: the return value and the result. -/
def ransacRank (ops : Floats F) (conf : RansacRankerConf)
    (inliers : Nat → SearchResultItem F → Option Int) (points : Nat)
    (items : List (SearchResultItem F)) : Option (Int × List (SearchResultItem F)) :=
  (cutHandleRedult ops conf items).bind fun (same, items) =>
    (check ops conf.minInliersNumber points items (beginRank inliers 0 items)).map
      fun items => (0, same ++ ranking ops conf items)

structure SpatialSimilar (F : Type) where
  picid : Int
  sim : F
  deriving DecidableEq

/-- Conversion to `int`. -/
def toInt32 (n : Int) : Int := (BitVec.ofInt 32 n).toInt

/-- The configuration of the ranking server; there is one ranker, so that another name is none. -/
structure ServerConf where
  isRansac : Bool
  minInliersNumber : Int
  maxRankPicNumber : Int
  range : maxRankPicNumber < 2 ^ 31

/-- `RankerProcessor::Rank`: the return value and `response.result`. `AddItem` takes the id as an
`int`. -/
def rank (ops : Floats F) (conf : ServerConf) (inliers : Nat → SearchResultItem F → Option Int)
    (points : Nat) (pics : List Int) : Option (Int × List (SpatialSimilar F)) :=
  if pics.length = 0 then some (-1, [])
  else if conf.isRansac = false then some (-2, [])
  else
    let sr := pics.map fun pic => (⟨toInt32 pic, ops.one⟩ : SearchResultItem F)
    (ransacRank ops ⟨conf.minInliersNumber, conf.maxRankPicNumber, true, false⟩ inliers points
      sr).map fun (ret, items) =>
        if ret ≠ 0 then (-3, [])
        else (0, (items.filter fun item => ops.positive item.sim).map
          fun item => ⟨item.picId, item.sim⟩)

/-! ## The search server -/

/-- What is done to an item. -/
inductive Update (F : Type) where
  | scale (score : F)
  | clear
  deriving DecidableEq

def Update.apply (ops : Floats F) (item : SearchResultItem F) : Update F → SearchResultItem F
  | .scale score => { item with sim := ops.mul item.sim score }
  | .clear => { item with sim := ops.zero }

/-- The loop over the slice; `none` is a read behind `response.result`. -/
def rankLoop (result : List (SpatialSimilar F)) :
    Nat → List (SearchResultItem F) → Option (List (Update F))
  | _, [] => some []
  | responseIndex, item :: rest =>
      if 0 < result.length then
        (result[responseIndex]?).bind fun entry =>
          if item.picId = entry.picid then
            (rankLoop result (responseIndex + 1) rest).map fun more => .scale entry.sim :: more
          else (rankLoop result responseIndex rest).map fun more => .clear :: more
      else (rankLoop result responseIndex rest).map fun more => .clear :: more

/-- `start_index`, and the end of the slice. -/
def sliceBounds (threadIndex : Nat) (spatialRequestNum : Int) (size : Nat) : Nat × Nat :=
  ((threadIndex * spatialRequestNum).toNat,
    (min ((threadIndex + 1) * spatialRequestNum) (toInt32 size)).toNat)

def slice (threadIndex : Nat) (spatialRequestNum : Int) (items : List (SearchResultItem F)) :
    List (SearchResultItem F) :=
  let bounds := sliceBounds threadIndex spatialRequestNum items.length
  (items.take bounds.2).drop bounds.1

/-- `SpatialRanker`: the return value and the items. The server's answer is `none` if the call
fails; `none` as the result is undefined behaviour. -/
def spatialRanker (ops : Floats F) (server : List Int → Option (List (SpatialSimilar F)))
    (threadIndex : Nat) (spatialRequestNum : Int) (items : List (SearchResultItem F)) :
    Option (Int × List (SearchResultItem F)) :=
  let stop := (threadIndex + 1) * spatialRequestNum
  if stop < -2 ^ 31 ∨ 2 ^ 31 ≤ stop then none
  else
    let part := slice threadIndex spatialRequestNum items
    let start := (threadIndex * spatialRequestNum).toNat
    let updates :=
      match server (part.map SearchResultItem.picId) with
      | none => some (part.map fun _ => Update.clear)
      | some result => rankLoop result 0 part
    updates.map fun updates =>
      (0, items.take start ++ List.zipWith (Update.apply ops) part updates ++
        items.drop (start + part.length))

/-! ## The contract -/

section Contract

variable (ops : Floats F) (conf : ServerConf) (inliers : Nat → SearchResultItem F → Option Int)
  (points : Nat)

/-- The score that the server gives to the picture at place `i` of a request. -/
def scoreOf (i : Nat) (pic : Int) : F :=
  let number := (inliers i ⟨toInt32 pic, ops.one⟩).getD 0
  if number < conf.minInliersNumber then ops.zero
  else ops.mul ops.one (ops.ratio number points)

/-- The score in the reply; `none` for a picture that is not in it. -/
def answer (i : Nat) (pic : Int) : Option F :=
  if conf.isRansac ∧ ops.positive (scoreOf ops conf inliers points i pic) then
    some (scoreOf ops conf inliers points i pic)
  else none

/-- The pictures of a request from place `i` on, with their scores. -/
def answers : Nat → List Int → List (Int × Option F)
  | _, [] => []
  | i, pic :: rest => (pic, answer ops conf inliers points i pic) :: answers (i + 1) rest

def updateOf : Option F → Update F
  | some score => .scale score
  | none => .clear

/-- Every picture of the slice is multiplied by its own score, or set to 0 if it has none; all
reads of the reply are valid, and nothing else changes. -/
def Applies (threadIndex : Nat) (spatialRequestNum : Int) (items : List (SearchResultItem F)) :
    Prop :=
  let part := slice threadIndex spatialRequestNum items
  let start := (threadIndex * spatialRequestNum).toNat
  let updates := (answers ops conf inliers points 0 (part.map SearchResultItem.picId)).map
    fun entry => updateOf entry.2
  (∃ ret reply, rank ops conf inliers points (part.map SearchResultItem.picId) = some (ret, reply) ∧
    rankLoop reply 0 part = some updates) ∧
  spatialRanker ops (fun pics => (rank ops conf inliers points pics).map Prod.snd) threadIndex
      spatialRequestNum items =
    some (0, items.take start ++ List.zipWith (Update.apply ops) part updates ++
      items.drop (start + part.length))

end Contract

/-- The first picture that the server keeps. -/
def nextKept (entries : List (Int × Option F)) : Option Int :=
  (entries.find? fun entry => entry.2.isSome).map Prod.fst

/-- The ids of the pictures that are kept fit an `int`, and behind a dropped one there is one that
is kept, the next one with another id. -/
def InStep : List (Int × Option F) → Prop
  | [] => True
  | (pic, some _) :: rest => toInt32 pic = pic ∧ InStep rest
  | (pic, none) :: rest => (nextKept rest ≠ none ∧ nextKept rest ≠ some pic) ∧ InStep rest

instance decidableInStep : (entries : List (Int × Option F)) → Decidable (InStep entries)
  | [] => isTrue trivial
  | (_, some _) :: rest => @instDecidableAnd _ _ _ (decidableInStep rest)
  | (_, none) :: rest => @instDecidableAnd _ _ _ (decidableInStep rest)

/-! ## The reply -/

/-- The reply for pictures with these scores. -/
def replyOf (entries : List (Int × Option F)) : List (SpatialSimilar F) :=
  entries.filterMap fun entry => entry.2.map fun score => ⟨toInt32 entry.1, score⟩

section Reply

variable {ops : Floats F} {conf : ServerConf} {inliers : Nat → SearchResultItem F → Option Int}
  {points : Nat}

theorem replyOf_kept (pic : Int) (score : F) (entries : List (Int × Option F)) :
    replyOf ((pic, some score) :: entries) = ⟨toInt32 pic, score⟩ :: replyOf entries := rfl

theorem replyOf_dropped (pic : Int) (entries : List (Int × Option F)) :
    replyOf ((pic, none) :: entries) = replyOf entries := rfl

/-- The pictures of a request as the server holds them. -/
def requested (ops : Floats F) (pics : List Int) : List (SearchResultItem F) :=
  pics.map fun pic => ⟨toInt32 pic, ops.one⟩

/-- The server's items after `Check`, with their own scores. -/
theorem check_answers (isRansac : conf.isRansac) (i : Nat) (pics : List Int) :
    ∃ checked, check ops conf.minInliersNumber points (requested ops pics)
        (beginRank inliers i (requested ops pics)) = some checked ∧
      (checked.filter fun item => ops.positive item.sim).map
          (fun item => (⟨item.picId, item.sim⟩ : SpatialSimilar F)) =
        replyOf (answers ops conf inliers points i pics) := by
  induction pics generalizing i with
  | nil => exact ⟨[], rfl, rfl⟩
  | cons pic rest ih =>
      obtain ⟨checked, done, reply⟩ := ih (i + 1)
      refine ⟨⟨toInt32 pic, scoreOf ops conf inliers points i pic⟩ :: checked, ?_, ?_⟩
      · change check ops conf.minInliersNumber points (_ :: requested ops rest)
          (_ :: beginRank inliers (i + 1) (requested ops rest)) = _
        rw [check, done]
        rfl
      · rw [answers, answer, List.filter_cons]
        by_cases positive : ops.positive (scoreOf ops conf inliers points i pic)
        · rw [if_pos positive, if_pos ⟨isRansac, positive⟩, List.map_cons, reply, replyOf_kept]
        · rw [if_neg positive, if_neg fun both => positive both.2, reply, replyOf_dropped]

theorem replyOf_other (isOther : conf.isRansac = false) (i : Nat) (pics : List Int) :
    replyOf (answers ops conf inliers points i pics) = [] := by
  induction pics generalizing i with
  | nil => rfl
  | cons pic rest ih =>
      rw [answers, answer, if_neg (by rw [isOther]; exact fun both => Bool.noConfusion both.1),
        replyOf_dropped, ih]

/-- The server answers with the scores of the pictures that it keeps, in the order of the
request. -/
theorem rank_eq {pics : List Int} (few : (pics.length : Int) ≤ conf.maxRankPicNumber) :
    ∃ ret, rank ops conf inliers points pics =
      some (ret, replyOf (answers ops conf inliers points 0 pics)) := by
  unfold rank
  split
  · next none' =>
      obtain rfl := List.length_eq_zero_iff.mp none'
      exact ⟨-1, rfl⟩
  · split
    · next isOther =>
        rw [replyOf_other isOther]
        exact ⟨-2, rfl⟩
    · next isRansac =>
        have isRansac : conf.isRansac := by
          cases found : conf.isRansac with
          | true => rfl
          | false => exact absurd found isRansac
        obtain ⟨checked, done, reply⟩ : ∃ checked, check ops conf.minInliersNumber points
            (requested ops pics) (beginRank inliers 0 (requested ops pics)) = some checked ∧ _ :=
          check_answers isRansac 0 pics
        have uncut : cutHandleRedult ops
            ⟨conf.minInliersNumber, conf.maxRankPicNumber, true, false⟩ (requested ops pics) =
              some ([], requested ops pics) := by
          have range := conf.range
          have fits : (requested ops pics).length ≤ (conf.maxRankPicNumber % 2 ^ 64).toNat := by
            rw [requested, List.length_map]
            omega
          rw [cutHandleRedult, if_pos rfl, Option.map_some]
          exact congrArg some (if_pos fits)
        refine ⟨0, ?_⟩
        change (ransacRank ops _ inliers points (requested ops pics)).map _ = _
        rw [ransacRank, uncut, Option.bind_some]
        dsimp only
        rw [done, ← reply]
        rfl

end Reply

/-! ## Going through the slice -/

theorem replyOf_eq_nil_iff {entries : List (Int × Option F)} :
    replyOf entries = [] ↔ ∀ entry ∈ entries, entry.2 = none := by
  rw [replyOf, List.filterMap_eq_nil_iff]
  simp

/-- The reply starts with the next picture that is kept. -/
theorem replyOf_of_nextKept {entries : List (Int × Option F)} {next : Int}
    (found : nextKept entries = some next) :
    ∃ score rest, replyOf entries = ⟨toInt32 next, score⟩ :: rest := by
  induction entries with
  | nil => cases found
  | cons entry entries ih =>
      obtain ⟨pic, score⟩ := entry
      cases score with
      | none => exact ih found
      | some score =>
          obtain rfl := Option.some.inj found
          exact ⟨score, replyOf entries, rfl⟩

theorem replyOf_of_nextKept_none {entries : List (Int × Option F)}
    (none' : nextKept entries = none) : replyOf entries = [] := by
  induction entries with
  | nil => rfl
  | cons entry entries ih =>
      obtain ⟨pic, score⟩ := entry
      cases score with
      | none => exact ih none'
      | some score => cases none'

theorem toInt32_of_nextKept {entries : List (Int × Option F)} {next : Int} (inStep : InStep entries)
    (found : nextKept entries = some next) : toInt32 next = next := by
  induction entries with
  | nil => cases found
  | cons entry entries ih =>
      obtain ⟨pic, score⟩ := entry
      cases score with
      | none => exact ih inStep.2 found
      | some score =>
          obtain rfl := Option.some.inj found
          exact inStep.1

theorem map_cons_iff {α : Type} {found : Option (List α)} {x y : α} {ys : List α} :
    (found.map fun more => x :: more) = some (y :: ys) ↔ x = y ∧ found = some ys := by
  cases found with
  | none => simp
  | some xs => simp

theorem getElem?_reply (front : List (SpatialSimilar F)) (entry : SpatialSimilar F)
    (rest : List (SpatialSimilar F)) : (front ++ entry :: rest)[front.length]? = some entry := by
  rw [List.getElem?_append_right (Nat.le_refl _), Nat.sub_self, List.getElem?_cons_zero]

/-- With `front` of the reply used up, the loop does to each picture what its score says if and
only if it stays in step. -/
theorem rankLoop_iff {front : List (SpatialSimilar F)} {entries : List (Int × Option F)}
    {part : List (SearchResultItem F)} (some' : front ++ replyOf entries ≠ [])
    (ids : part.map SearchResultItem.picId = entries.map Prod.fst) :
    rankLoop (front ++ replyOf entries) front.length part =
        some (entries.map fun entry => updateOf entry.2) ↔ InStep entries := by
  induction entries generalizing front part with
  | nil =>
      obtain rfl := List.map_eq_nil_iff.mp ids
      exact ⟨fun _ => trivial, fun _ => rfl⟩
  | cons entry entries ih =>
      obtain ⟨pic, score⟩ := entry
      obtain ⟨item, rest, rfl, isPic, restIds⟩ := List.map_eq_cons_iff.mp ids
      have nonempty := List.length_pos_of_ne_nil some'
      rw [rankLoop, if_pos nonempty]
      cases score with
      | some score =>
          have whole : front ++ replyOf ((pic, some score) :: entries) =
              front ++ [⟨toInt32 pic, score⟩] ++ replyOf entries := by
            rw [replyOf_kept, List.append_assoc, List.singleton_append]
          rw [replyOf_kept, getElem?_reply, Option.bind_some, isPic, InStep]
          by_cases same : pic = toInt32 pic
          · have later : rankLoop (front ++ [⟨toInt32 pic, score⟩] ++ replyOf entries)
                (front ++ [(⟨toInt32 pic, score⟩ : SpatialSimilar F)]).length rest =
                  some (entries.map fun entry => updateOf entry.2) ↔ InStep entries :=
              ih (by rwa [← whole]) restIds
            rw [List.length_append, List.length_singleton, ← whole, replyOf_kept] at later
            rw [if_pos same, List.map_cons, map_cons_iff, later]
            exact and_congr_left fun _ => ⟨fun _ => same.symm, fun _ => rfl⟩
          · rw [if_neg same, List.map_cons, map_cons_iff]
            exact ⟨(fun wrong => nomatch wrong.1),
              fun inStep => absurd inStep.1.symm same⟩
      | none =>
          rw [replyOf_dropped] at some' ⊢
          rw [InStep]
          cases found : nextKept entries with
          | none =>
              rw [replyOf_of_nextKept_none found, List.append_nil, List.getElem?_eq_none (Nat.le_refl _),
                Option.bind_none]
              exact ⟨nofun, fun inStep => absurd rfl inStep.1.1⟩
          | some next =>
              obtain ⟨score, reply, isReply⟩ := replyOf_of_nextKept found
              have later := ih some' restIds
              have entry : (front ++ replyOf entries)[front.length]? =
                  some ⟨toInt32 next, score⟩ := by
                rw [isReply, getElem?_reply]
              rw [entry, Option.bind_some, isPic]
              by_cases same : pic = toInt32 next
              · rw [if_pos same, List.map_cons, map_cons_iff]
                refine ⟨(fun wrong => nomatch wrong.1), ?_⟩
                rintro ⟨⟨-, differs⟩, inStep⟩
                rw [same, toInt32_of_nextKept inStep found] at differs
                exact absurd rfl differs
              · rw [if_neg same, List.map_cons, map_cons_iff, later]
                constructor
                · rintro ⟨-, inStep⟩
                  refine ⟨⟨nofun, fun equal => same ?_⟩, inStep⟩
                  rw [toInt32_of_nextKept inStep found, Option.some.inj equal]
                · rintro ⟨-, inStep⟩
                  exact ⟨rfl, inStep⟩

/-- An empty reply is not read. -/
theorem rankLoop_nil (responseIndex : Nat) (part : List (SearchResultItem F)) :
    rankLoop [] responseIndex part = some (part.map fun _ => Update.clear) := by
  induction part with
  | nil => rfl
  | cons item rest ih =>
      rw [rankLoop, if_neg (by rw [List.length_nil]; exact Nat.lt_irrefl 0), ih]
      rfl

section Ranking

variable {ops : Floats F} {conf : ServerConf} {inliers : Nat → SearchResultItem F → Option Int}
  {points : Nat}

theorem answers_ids (i : Nat) (pics : List Int) :
    (answers ops conf inliers points i pics).map Prod.fst = pics := by
  induction pics generalizing i with
  | nil => rfl
  | cons pic rest ih => rw [answers, List.map_cons, ih]

/-- The whole slice, with the reply from its start. -/
theorem rankLoop_reply_iff {entries : List (Int × Option F)} {part : List (SearchResultItem F)}
    (ids : part.map SearchResultItem.picId = entries.map Prod.fst) :
    rankLoop (replyOf entries) 0 part = some (entries.map fun entry => updateOf entry.2) ↔
      (∀ entry ∈ entries, entry.2 = none) ∨ InStep entries := by
  rw [← replyOf_eq_nil_iff]
  by_cases empty : replyOf entries = []
  · have dropped := replyOf_eq_nil_iff.mp empty
    have clear : (entries.map fun entry => updateOf entry.2) =
        part.map fun _ => Update.clear := by
      have lengths := congrArg List.length ids
      rw [List.length_map, List.length_map] at lengths
      rw [List.map_const', lengths, ← List.map_const']
      exact List.map_congr_left fun entry member => by rw [dropped entry member]; rfl
    rw [empty, rankLoop_nil, clear]
    exact ⟨fun _ => Or.inl rfl, fun _ => rfl⟩
  · have loop : rankLoop ([] ++ replyOf entries) ([] : List (SpatialSimilar F)).length part =
        some (entries.map fun entry => updateOf entry.2) ↔ InStep entries :=
      rankLoop_iff (by rwa [List.nil_append]) ids
    rw [List.nil_append] at loop
    exact loop.trans ⟨Or.inr, fun either => either.resolve_left empty⟩

/--
Scores of a slice: for every slice of a request that the server ranks whole, each
picture is multiplied by its own score or set to 0, with valid reads only, if and
only if the bounds of the slice fit an `int` and the server drops all pictures, or
keeps one behind each picture that it drops, the next one with another id, and the
ids of those that it keeps fit an `int`.
-/
theorem applies_iff_inStep {threadIndex : Nat} {spatialRequestNum : Int}
    {items : List (SearchResultItem F)}
    (few : ((slice threadIndex spatialRequestNum items).length : Int) ≤ conf.maxRankPicNumber) :
    Applies ops conf inliers points threadIndex spatialRequestNum items ↔
      (-2 ^ 31 ≤ (threadIndex + 1) * spatialRequestNum ∧
        (threadIndex + 1) * spatialRequestNum < 2 ^ 31) ∧
      ((∀ entry ∈ answers ops conf inliers points 0
          ((slice threadIndex spatialRequestNum items).map SearchResultItem.picId),
          entry.2 = none) ∨
        InStep (answers ops conf inliers points 0
          ((slice threadIndex spatialRequestNum items).map SearchResultItem.picId))) := by
  unfold Applies spatialRanker
  generalize slice threadIndex spatialRequestNum items = part at few ⊢
  obtain ⟨ret, replied⟩ : ∃ ret,
      rank ops conf inliers points (part.map SearchResultItem.picId) = some (ret,
        replyOf (answers ops conf inliers points 0 (part.map SearchResultItem.picId))) :=
    rank_eq (by rwa [List.length_map])
  have ids : part.map SearchResultItem.picId =
      (answers ops conf inliers points 0 (part.map SearchResultItem.picId)).map Prod.fst :=
    (answers_ids 0 _).symm
  have loop := rankLoop_reply_iff ids
  dsimp only
  constructor
  · rintro ⟨⟨ret', reply, isReply, looped⟩, ran⟩
    obtain rfl := (Prod.mk.inj (Option.some.inj (replied.symm.trans isReply))).2
    refine ⟨?_, loop.mp looped⟩
    by_contra outside
    rw [if_pos (by omega)] at ran
    cases ran
  · rintro ⟨range, fine⟩
    have looped := loop.mpr fine
    refine ⟨⟨ret, _, replied, looped⟩, ?_⟩
    rw [if_neg (by omega), replied, Option.map_some]
    dsimp only
    rw [looped, Option.map_some]

end Ranking

theorem mem_of_nextKept {entries : List (Int × Option F)} {next : Int}
    (found : nextKept entries = some next) : next ∈ entries.map Prod.fst := by
  obtain ⟨entry, isFirst, rfl⟩ := Option.map_eq_some_iff.mp found
  exact List.mem_map_of_mem (List.mem_of_find?_eq_some isFirst)

theorem nextKept_ne_none {entries : List (Int × Option F)} {entry : Int × Option F}
    (member : entry ∈ entries) (kept : entry.2.isSome) : nextKept entries ≠ none := by
  intro none'
  exact List.find?_eq_none.mp (Option.map_eq_none_iff.mp none') entry member kept

/-- For pictures without double ids, all of which fit an `int`, the last one must be kept. -/
theorem inStep_iff_last {entries : List (Int × Option F)} (distinct : (entries.map Prod.fst).Nodup)
    (range : ∀ entry ∈ entries, toInt32 entry.1 = entry.1) :
    InStep entries ↔ ∀ entry ∈ entries.getLast?, entry.2.isSome := by
  induction entries with
  | nil => exact ⟨fun _ => nofun, fun _ => trivial⟩
  | cons entry rest ih =>
      obtain ⟨pic, score⟩ := entry
      obtain ⟨fresh, distinct⟩ := List.nodup_cons.mp distinct
      have isPic := range (pic, score) (List.mem_cons_self ..)
      have later := ih distinct fun entry member => range entry (List.mem_cons_of_mem _ member)
      cases rest with
      | nil =>
          cases score with
          | some score => exact ⟨fun _ => by simp, fun _ => ⟨isPic, trivial⟩⟩
          | none => exact ⟨fun inStep => absurd rfl inStep.1.1, fun kept => nomatch kept _ rfl⟩
      | cons next rest =>
          rw [List.getLast?_cons_cons, ← later]
          cases score with
          | some score => exact ⟨fun inStep => inStep.2, fun inStep => ⟨isPic, inStep⟩⟩
          | none =>
              refine ⟨fun inStep => inStep.2, fun inStep => ⟨⟨?_, fun same => ?_⟩, inStep⟩⟩
              · have last : (next :: rest).getLast? = some ((next :: rest).getLast (by simp)) :=
                  List.getLast?_eq_some_getLast _
                exact nextKept_ne_none (List.getLast_mem _) (later.mp inStep _ last)
              · exact fresh (mem_of_nextKept same)

/-- Rational numbers in place of `float`. -/
def rationals : Floats ℚ where
  zero := 0
  one := 1
  mul := (· * ·)
  positive x := decide (0 < x)
  atLeast98 x := decide (98 / 100 ≤ x)
  greater x y := decide (y < x)
  ratio inliers points := inliers / points

/-- The server drops the first of two pictures. -/
theorem applies_last_kept :
    Applies rationals ⟨true, 8, 100, by decide⟩ (fun i _ => some (10 * i)) 20 0 2
      [⟨7, 1 / 2⟩, ⟨8, 1 / 4⟩] :=
  (applies_iff_inStep (by decide)).mpr ⟨by decide, Or.inr (by decide +kernel)⟩

/-- The server drops the last of two pictures: the loop reads `response.result[1]`. -/
theorem not_applies_last_dropped :
    rank rationals ⟨true, 8, 100, by decide⟩ (fun i _ => if i = 0 then some 10 else some 0) 20
        [7, 8] = some (0, [⟨7, 1 / 2⟩]) ∧
      ¬ Applies rationals ⟨true, 8, 100, by decide⟩ (fun i _ => if i = 0 then some 10 else some 0)
        20 0 2 [⟨7, 1 / 2⟩, ⟨8, 1 / 4⟩] := by
  refine ⟨by decide +kernel, ?_⟩
  rintro ⟨-, ran⟩
  revert ran
  decide +kernel

end MlsImgSearch.Searchd.SpatialRanker
