import Mathlib.Algebra.Order.Ring.Rat
import Mathlib.Algebra.Ring.Prod
import Mathlib.Tactic.Linarith
import MlsImgSearch.BofCore.Indexer
import MlsImgSearch.Lib.Run
import MlsImgSearch.Lib.SparseList

/-!
# Merging the buckets of a query

`Searcher::Merge` walks through the words of a query and adds the items of each
bucket to a list that ascends by picture. The cursor into that list is read
before it is compared with `end()`, so that the memory behind the list takes
part in the comparison.
-/

namespace MlsImgSearch.BofCore.Searcher

open MlsImgSearch.Lib.Run
open MlsImgSearch.Lib.SortedList
open MlsImgSearch.Lib.SparseList
open MlsImgSearch.BofCore.IndexerSerializer
open MlsImgSearch.BofCore.Indexer

/-! ## Data -/

/-- The exact value of a finite `float`. -/
def floatValue (bits : BitVec 32) : ℚ :=
  let exponent := bits.toNat / 2 ^ 23 % 2 ^ 8
  let fraction := bits.toNat % 2 ^ 23
  let significand : Nat :=
    if exponent = 0 then fraction * 2 else (2 ^ 23 + fraction) * 2 ^ exponent
  mkRat (if bits.msb then -(significand : Int) else significand) (2 ^ 150)

/-- `word_info_` holds the codes and the angles. -/
structure BOFQuantizeResult where
  q : ℚ
  he : List UInt8
  angle : List UInt8
  deriving DecidableEq

/-- An entry of a `BOFQuantizeResultMap`; a map is a list that ascends by word. -/
abbrev QueryWord := Nat × BOFQuantizeResult

/-- What a reply carries of a `MergeSimilarInfo`. -/
structure MergeSimilarInfo where
  sim : ℚ := 0
  pow : ℚ := 0
  picId : BitVec 64 := 0
  deriving DecidableEq

/-! ## Hamming embedding -/

def countOne (x : BitVec 64) : Nat :=
  let x := x - ((x >>> 1) &&& 0x5555555555555555#64)
  let x := (x &&& 0x3333333333333333#64) + ((x >>> 2) &&& 0x3333333333333333#64)
  let x := (x + (x >>> 4)) &&& 0x0f0f0f0f0f0f0f0f#64
  let x := x + (x >>> 8)
  let x := x + (x >>> 16)
  let x := x + (x >>> 32)
  (x &&& 0x7f#64).toNat

/-- The number of similar pairs, an `int`. The threshold becomes a `size_t`. -/
def heDistance (heThreshold : Int) (he1 he2 : List (BitVec 64)) : BitVec 32 :=
  he1.foldl (fun similarNum a => he2.foldl (fun similarNum b =>
    if countOne (a ^^^ b) ≤ (BitVec.ofInt 64 heThreshold).toNat then similarNum + 1
    else similarNum) similarNum) 0

def heString2Int (he : List UInt8) : Option (List (BitVec 64)) :=
  collect (heWord he) (he.length / 16)

/-! ## One bucket -/

section Bucket

variable (heThreshold : Int) (queryWeight : ℚ) (queryHe : List (BitVec 64))

def isSimilar (item : IndexItem) : Bool := heDistance heThreshold item.he queryHe != 0

/-- The branch for a picture that the list has already. -/
def addItem (item : IndexItem) (cur : MergeSimilarInfo) : MergeSimilarInfo :=
  if isSimilar heThreshold queryHe item then
    { cur with sim := cur.sim + floatValue item.weight * queryWeight
               pow := cur.pow + floatValue item.weight ^ 2 }
  else cur

/-- The branch for a new picture: what is inserted at the cursor. -/
def newItem (item : IndexItem) : List MergeSimilarInfo :=
  if isSimilar heThreshold queryHe item then
    let sinfo : MergeSimilarInfo := { picId := item.picId }
    let sinfo := { sinfo with sim := sinfo.sim + floatValue item.weight * queryWeight
                              pow := sinfo.pow + floatValue item.weight ^ 2 }
    if 0 < sinfo.pow then [sinfo] else []
  else []

/-- The turns of the loop that deal with one item. The cursor is at the head of the second list.
`endPic` is what a read through `end()` finds; `none` is a write through `end()`. -/
def placeItem (endPic : BitVec 64) (item : IndexItem) :
    List MergeSimilarInfo → List MergeSimilarInfo →
      Option (List MergeSimilarInfo × List MergeSimilarInfo)
  | before, [] =>
      if item.picId = endPic then none
      else some (before ++ newItem heThreshold queryWeight queryHe item, [])
  | before, cur :: after =>
      if item.picId = cur.picId then
        some (before ++ [addItem heThreshold queryWeight queryHe item cur], after)
      else if item.picId.toInt < cur.picId.toInt then
        some (before ++ newItem heThreshold queryWeight queryHe item, cur :: after)
      else placeItem endPic item (before ++ [cur]) after

def mergeItems (endPic : BitVec 64) :
    List IndexItem → List MergeSimilarInfo → List MergeSimilarInfo → Option (List MergeSimilarInfo)
  | [], before, after => some (before ++ after)
  | item :: items, before, after =>
      (placeItem heThreshold queryWeight queryHe endPic item before after).bind
        fun (before, after) => mergeItems endPic items before after

end Bucket

/-! ## The searcher -/

/-- The fields `result_similar_` and `query_pow_`. -/
structure SearcherState where
  resultSimilar : List MergeSimilarInfo := []
  queryPow : ℚ := 0
  deriving DecidableEq

/-- The return code and the new state; `begin_bucket_id_` is 0. -/
def mergeBucketResult (index : BOFIndex) (heThreshold : Int) (endPic : BitVec 64)
    (word : QueryWord) (s : SearcherState) : Option (Int × SearcherState) :=
  (loadWord index word.1).bind fun (ret, wordIndex) =>
    if ret ≠ 0 then some (-1, s)
    else
      (heString2Int word.2.he).bind fun queryHe =>
        (mergeItems heThreshold word.2.q queryHe endPic wordIndex.items [] s.resultSimilar).map
          fun result => (0, ⟨result, s.queryPow + word.2.q ^ 2⟩)

/-- The loop over the words. A bucket that does not load is logged and passed over. -/
def mergeWords (index : BOFIndex) (heThreshold : Int) (endPic : Nat → BitVec 64)
    (words : List QueryWord) (s : SearcherState) : Option SearcherState :=
  exec (fun s word =>
    (mergeBucketResult index heThreshold (endPic word.1) word s).map Prod.snd) s words

/-- `endPic` is what a read through `end()` finds while the bucket of a word is merged. -/
def merge (index : BOFIndex) (heThreshold : Int) (endPic : Nat → BitVec 64)
    (queryData : List QueryWord) : Option (Int × SearcherState) :=
  (mergeWords index heThreshold endPic queryData {}).map fun s =>
    (if 0 < s.resultSimilar.length then 0 else -2, s)

/-! ## What a bucket adds -/

/-- The order of the result. -/
def simKey (info : MergeSimilarInfo) : Int := info.picId.toInt

def simValue (info : MergeSimilarInfo) : ℚ × ℚ := (info.sim, info.pow)

/-- The result lists a picture only with a positive power. -/
def Positive (v : ℚ × ℚ) : Prop := 0 < v.2

abbrev Proper (result : List MergeSimilarInfo) : Prop := Canonical simKey simValue Positive result

section Item

variable (heThreshold : Int) (queryWeight : ℚ) (queryHe : List (BitVec 64))

/-- What an item adds to its picture. -/
def itemValue (item : IndexItem) : ℚ × ℚ :=
  if isSimilar heThreshold queryHe item then
    (floatValue item.weight * queryWeight, floatValue item.weight ^ 2)
  else 0

/-- The item is similar to the query and has a weight. -/
def IsHit (item : IndexItem) : Prop :=
  isSimilar heThreshold queryHe item = true ∧ 0 < floatValue item.weight ^ 2

/-- A read through `end()` meets the picture of an item. -/
def Collides (endPic : BitVec 64) (items : List IndexItem) (result : List MergeSimilarInfo) : Prop :=
  ∃ item ∈ items, item.picId = endPic ∧ ∀ info ∈ result, simKey info < picKey item

theorem newItem_eq (item : IndexItem) :
    (newItem heThreshold queryWeight queryHe item = [] ∧
        itemValue heThreshold queryWeight queryHe item = 0 ∧ ¬ IsHit heThreshold queryHe item) ∨
      (newItem heThreshold queryWeight queryHe item =
          [⟨floatValue item.weight * queryWeight, floatValue item.weight ^ 2, item.picId⟩] ∧
        itemValue heThreshold queryWeight queryHe item =
          (floatValue item.weight * queryWeight, floatValue item.weight ^ 2) ∧
        IsHit heThreshold queryHe item) := by
  unfold newItem itemValue IsHit
  by_cases similar : isSimilar heThreshold queryHe item
  · rw [if_pos similar, if_pos similar]
    dsimp only
    rw [zero_add, zero_add]
    by_cases weighs : 0 < floatValue item.weight ^ 2
    · rw [if_pos weighs]
      exact Or.inr ⟨rfl, rfl, similar, weighs⟩
    · have none' : floatValue item.weight = 0 := by
        by_contra nonzero
        exact weighs (by positivity)
      rw [if_neg weighs, none']
      exact Or.inl ⟨rfl, by simp, fun hit => lt_irrefl 0 (by simpa using hit.2)⟩
  · rw [if_neg similar, if_neg similar]
    exact Or.inl ⟨rfl, rfl, fun hit => similar hit.1⟩

theorem itemEntry (item : IndexItem) :
    Entry simKey simValue Positive (picKey item) (itemValue heThreshold queryWeight queryHe item)
      (addItem heThreshold queryWeight queryHe item)
      (newItem heThreshold queryWeight queryHe item) := by
  refine ⟨fun info => ?_, fun info => ?_, ?_⟩
  · unfold addItem simKey
    split <;> rfl
  · unfold addItem itemValue simValue
    split
    · rfl
    · exact (add_zero _).symm
  · rcases newItem_eq heThreshold queryWeight queryHe item with ⟨nothing, zero, _⟩ | ⟨one, value, hit⟩
    · exact Or.inl ⟨nothing, zero⟩
    · rw [one, value]
      exact Or.inr ⟨hit.2, _, rfl, rfl, rfl⟩

variable {heThreshold queryWeight queryHe}

theorem Positive.ne_zero {v : ℚ × ℚ} (positive : Positive v) : v ≠ 0 := by
  rintro rfl
  exact lt_irrefl 0 positive

theorem Positive.add {v w : ℚ × ℚ} (left : Positive w) (right : v = 0 ∨ Positive v) :
    Positive (w + v) := by
  rcases right with rfl | positive
  · rwa [add_zero]
  · exact add_pos left positive

theorem simInfo_ext (a b : MergeSimilarInfo) (sameKey : simKey a = simKey b)
    (sameValue : simValue a = simValue b) : a = b := by
  obtain ⟨sim, pow⟩ := Prod.mk.inj sameValue
  have picId := BitVec.toInt_inj.mp sameKey
  cases a
  cases b
  simp_all

theorem mem_newItem_key (item : IndexItem) (k : Int) :
    (∃ info ∈ newItem heThreshold queryWeight queryHe item, simKey info = k) ↔
      IsHit heThreshold queryHe item ∧ picKey item = k := by
  rcases newItem_eq heThreshold queryWeight queryHe item with ⟨nothing, _, noHit⟩ | ⟨one, _, hit⟩
  · rw [nothing]
    simp [noHit]
  · rw [one]
    simp [hit, simKey, picKey]

/-! ## The loop over the items of a bucket -/

theorem placeItem_eq (endPic : BitVec 64) (item : IndexItem)
    (before after : List MergeSimilarInfo) :
    placeItem heThreshold queryWeight queryHe endPic item before after =
      if item.picId = endPic ∧ ∀ info ∈ after, simKey info < picKey item then none
      else some (place simKey (picKey item) (addItem heThreshold queryWeight queryHe item)
        (newItem heThreshold queryWeight queryHe item) before after) := by
  induction after generalizing before with
  | nil =>
      unfold placeItem place
      simp only [List.not_mem_nil, false_imp_iff, implies_true, and_true]
  | cons cur after ih =>
      unfold placeItem place
      by_cases here : item.picId = cur.picId
      · have sameKey : picKey item = simKey cur := congrArg BitVec.toInt here
        have inside : ¬ ∀ info ∈ cur :: after, simKey info < picKey item := fun all =>
          (all cur (List.mem_cons_self ..)).ne' sameKey
        rw [if_pos here, if_neg (fun both => inside both.2), if_pos sameKey]
      · have otherKey : picKey item ≠ simKey cur := fun same => here (BitVec.toInt_inj.mp same)
        rw [if_neg here, if_neg otherKey]
        by_cases less : picKey item < simKey cur
        · have inside : ¬ ∀ info ∈ cur :: after, simKey info < picKey item := fun all =>
            (all cur (List.mem_cons_self ..)).not_gt less
          rw [if_pos (show item.picId.toInt < cur.picId.toInt from less),
            if_neg (fun both => inside both.2), if_pos less]
        · have passed : simKey cur < picKey item := by omega
          rw [if_neg (show ¬ item.picId.toInt < cur.picId.toInt from less), if_neg less, ih]
          simp only [List.forall_mem_cons, passed, true_and]

/-- The keys of earlier items stay below those of later items. -/
theorem collides_congr (endPic : BitVec 64) {items : List IndexItem}
    {result result' : List MergeSimilarInfo} {bound : Int}
    (above : ∀ item ∈ items, bound < picKey item)
    (keys : ∀ k, bound < k →
      ((∃ info ∈ result', simKey info = k) ↔ ∃ info ∈ result, simKey info = k)) :
    Collides endPic items result' ↔ Collides endPic items result := by
  have transfer : ∀ {xs ys : List MergeSimilarInfo}, (∀ k, bound < k →
      ((∃ info ∈ xs, simKey info = k) → ∃ info ∈ ys, simKey info = k)) →
      Collides endPic items ys → Collides endPic items xs := by
    rintro xs ys sub ⟨item, member, atEnd, all⟩
    refine ⟨item, member, atEnd, fun info inside => ?_⟩
    by_cases low : simKey info ≤ bound
    · exact lt_of_le_of_lt low (above item member)
    · obtain ⟨other, found, sameKey⟩ := sub _ (not_le.mp low) ⟨info, inside, rfl⟩
      rw [← sameKey]
      exact all other found
  exact ⟨transfer fun k high => (keys k high).mpr, transfer fun k high => (keys k high).mp⟩

variable (heThreshold queryWeight queryHe) in
/-- The loop fails on a collision, and adds all items otherwise. -/
theorem mergeItems_spec (endPic : BitVec 64) {items : List IndexItem}
    (before after : List MergeSimilarInfo) (proper : Proper (before ++ after))
    (asc : Ascending picKey items)
    (below : ∀ info ∈ before, ∀ item ∈ items, simKey info < picKey item) :
    (Collides endPic items (before ++ after) →
        mergeItems heThreshold queryWeight queryHe endPic items before after = none) ∧
      (¬ Collides endPic items (before ++ after) →
        ∃ result, mergeItems heThreshold queryWeight queryHe endPic items before after =
            some result ∧
          Adds simKey simValue Positive
            (coeff picKey (itemValue heThreshold queryWeight queryHe) items)
            (fun k => ∃ item ∈ items, IsHit heThreshold queryHe item ∧ picKey item = k)
            (before ++ after) result) := by
  induction items generalizing before after with
  | nil =>
      refine ⟨fun ⟨_, member, _⟩ => (by cases member), fun _ => ⟨_, rfl, ?_⟩⟩
      have same := Adds.nothing proper
      exact ⟨same.canonical, same.coeff_eq, fun k => by simp⟩
  | cons item items ih =>
      obtain ⟨head, tail⟩ := List.pairwise_cons.mp asc
      have low : ∀ info ∈ before, simKey info < picKey item := fun info member =>
        below info member item (List.mem_cons_self ..)
      have entry := itemEntry heThreshold queryWeight queryHe item
      have whole : (item.picId = endPic ∧ ∀ info ∈ before ++ after, simKey info < picKey item) ↔
          item.picId = endPic ∧ ∀ info ∈ after, simKey info < picKey item := by
        rw [List.forall_mem_append]
        exact and_congr_right fun _ => and_iff_right low
      rw [mergeItems, placeItem_eq]
      by_cases hits : item.picId = endPic ∧ ∀ info ∈ after, simKey info < picKey item
      · rw [if_pos hits]
        exact ⟨fun _ => rfl,
          fun clear => absurd ⟨item, List.mem_cons_self .., whole.mpr hits⟩ clear⟩
      · rw [if_neg hits, Option.bind_some]
        obtain ⟨joined, upTo, beyond⟩ := place_spec entry proper.ascending low
        have added := Adds.of_upsert entry (fun w left right => left.add right) proper
        rw [← joined] at added
        generalize place simKey (picKey item) (addItem heThreshold queryWeight queryHe item)
          (newItem heThreshold queryWeight queryHe item) before after = cursor at *
        obtain ⟨fails, works⟩ := ih cursor.1 cursor.2 added.canonical tail fun info member other later =>
          lt_of_le_of_lt (upTo info member) (head other later)
        have sameCollision : Collides endPic items (cursor.1 ++ cursor.2) ↔
            Collides endPic items (before ++ after) :=
          collides_congr endPic head fun k high => by
            rw [added.mem_key k, mem_newItem_key]
            exact or_iff_left fun new => high.ne new.2
        have others : Collides endPic (item :: items) (before ++ after) ↔
            Collides endPic items (before ++ after) := by
          unfold Collides
          rw [List.exists_mem_cons_iff]
          exact or_iff_right fun both => hits (whole.mp both)
        rw [others, ← sameCollision]
        refine ⟨fails, fun clear => ?_⟩
        obtain ⟨result, merged, rest⟩ := works clear
        refine ⟨result, merged, rest.canonical, fun k => ?_, fun k => ?_⟩
        · rw [(added.trans rest).coeff_eq, coeff_cons]
        · rw [(added.trans rest).mem_key, mem_newItem_key, List.exists_mem_cons_iff]

end Item

/-! ## The codes of a query word -/

theorem heLoop_isSome {str : List UInt8} {start : Nat} (inside : start + 16 ≤ str.length)
    {left : Nat} (few : left ≤ 16) (acc : BitVec 64) : (heLoop str start left acc).isSome := by
  induction left generalizing acc with
  | zero => rfl
  | succ left ih =>
      rw [heLoop, List.getElem?_eq_getElem (by omega), Option.bind_some]
      exact ih (by omega) _

theorem collect_isSome {β : Type} {f : Nat → Option β} {n : Nat}
    (each : ∀ j, j < n → (f j).isSome) : (collect f n).isSome := by
  induction n with
  | zero => rfl
  | succ n ih =>
      obtain ⟨xs, collected⟩ := Option.isSome_iff_exists.mp (ih fun j less => each j (by omega))
      obtain ⟨x, value⟩ := Option.isSome_iff_exists.mp (each n (by omega))
      rw [collect, collected, Option.bind_some, value]
      rfl

theorem heString2Int_isSome (he : List UInt8) : (heString2Int he).isSome := by
  refine collect_isSome fun j less => ?_
  have inside : j * 16 + 16 ≤ he.length := by omega
  exact heLoop_isSome inside (Nat.le_refl 16) _

/-! ## What a query adds -/

section Query

variable (index : BOFIndex) (heThreshold : Int)

def wordHe (word : QueryWord) : List (BitVec 64) := (heString2Int word.2.he).getD []

/-- What the bucket of a word adds to each picture. -/
def wordValue (word : QueryWord) : Int → ℚ × ℚ :=
  coeff picKey (itemValue heThreshold word.2.q (wordHe word)) (itemsOf index word.1)

/-- The pictures that the bucket of a word has a hit for. -/
def WordHits (word : QueryWord) (k : Int) : Prop :=
  ∃ item ∈ itemsOf index word.1, IsHit heThreshold (wordHe word) item ∧ picKey item = k

/-- What a word adds to the power of the query. -/
def wordPow (word : QueryWord) : ℚ :=
  match loadWord index word.1 with
  | some (0, _) => word.2.q ^ 2
  | _ => 0

def queryValue (words : List QueryWord) (k : Int) : ℚ × ℚ :=
  (words.map fun word => wordValue index heThreshold word k).sum

def QueryHits (words : List QueryWord) (k : Int) : Prop :=
  ∃ word ∈ words, WordHits index heThreshold word k

def queryPowOf (words : List QueryWord) : ℚ := (words.map (wordPow index)).sum

/-- Every bucket loads with ascending pictures, or is refused with a code. -/
def Readable : Prop :=
  ∀ i, (∃ word, loadWord index i = some (0, word) ∧ Ascending picKey word.items) ∨
    ∃ code, code ≠ 0 ∧ loadWord index i = some (code, WordIndex.fresh)

/-- An item with the picture that a read through `end()` finds has a hit of an earlier word at its
picture or beyond, so that the cursor is not at the end when the item is compared. -/
def WordApart (endPic : Nat → BitVec 64) (earlier : List QueryWord) (word : QueryWord) : Prop :=
  ∀ item ∈ itemsOf index word.1, item.picId = endPic word.1 →
    ∃ k, picKey item ≤ k ∧ QueryHits index heThreshold earlier k

/-- `WordApart` for each word of a query. -/
abbrev Apart (endPic : Nat → BitVec 64) (words : List QueryWord) : Prop :=
  Along (WordApart index heThreshold endPic) [] words

/-- The state after a whole query. -/
structure Answers (words : List QueryWord) (s : SearcherState) : Prop where
  proper : Proper s.resultSimilar
  coeff_eq : ∀ k, coeff simKey simValue s.resultSimilar k = queryValue index heThreshold words k
  mem_key : ∀ k, (∃ info ∈ s.resultSimilar, simKey info = k) ↔ QueryHits index heThreshold words k
  pow_eq : s.queryPow = queryPowOf index words

variable {index heThreshold}

theorem queryHits_nil (k : Int) : ¬ QueryHits index heThreshold [] k := by
  rintro ⟨word, member, _⟩
  cases member

theorem queryHits_append (xs ys : List QueryWord) (k : Int) :
    QueryHits index heThreshold (xs ++ ys) k ↔
      QueryHits index heThreshold xs k ∨ QueryHits index heThreshold ys k := by
  unfold QueryHits
  simp only [List.mem_append, or_and_right, exists_or]

theorem queryHits_singleton (word : QueryWord) (k : Int) :
    QueryHits index heThreshold [word] k ↔ WordHits index heThreshold word k := by
  unfold QueryHits
  simp only [List.mem_singleton, exists_eq_left]

theorem queryValue_append (xs ys : List QueryWord) (k : Int) :
    queryValue index heThreshold (xs ++ ys) k =
      queryValue index heThreshold xs k + queryValue index heThreshold ys k := by
  unfold queryValue
  rw [List.map_append, List.sum_append]

theorem queryPowOf_append (xs ys : List QueryWord) :
    queryPowOf index (xs ++ ys) = queryPowOf index xs + queryPowOf index ys := by
  unfold queryPowOf
  rw [List.map_append, List.sum_append]

/-- A collision at a word is the failure of `WordApart`. -/
theorem collides_iff {endPic : Nat → BitVec 64} {done : List QueryWord} {word : QueryWord}
    {result : List MergeSimilarInfo}
    (keys : ∀ k, (∃ info ∈ result, simKey info = k) ↔ QueryHits index heThreshold done k) :
    Collides (endPic word.1) (itemsOf index word.1) result ↔
      ¬ WordApart index heThreshold endPic done word := by
  have atItem : ∀ item : IndexItem, (∀ info ∈ result, simKey info < picKey item) ↔
      ¬ ∃ k, picKey item ≤ k ∧ QueryHits index heThreshold done k := by
    intro item
    constructor
    · rintro all ⟨k, high, hit⟩
      obtain ⟨info, member, rfl⟩ := (keys k).mpr hit
      exact (all info member).not_ge high
    · intro none' info member
      by_contra high
      exact none' ⟨simKey info, not_lt.mp high, (keys _).mp ⟨info, member, rfl⟩⟩
  unfold Collides WordApart
  simp only [atItem, not_forall, exists_prop]

theorem mergeBucketResult_loaded {endPic : BitVec 64} {word : QueryWord} {loaded : WordIndex}
    (success : loadWord index word.1 = some (0, loaded)) (s : SearcherState) :
    mergeBucketResult index heThreshold endPic word s =
      (mergeItems heThreshold word.2.q (wordHe word) endPic (itemsOf index word.1) []
        s.resultSimilar).map fun result => (0, ⟨result, s.queryPow + wordPow index word⟩) := by
  obtain ⟨queryHe, codes⟩ := Option.isSome_iff_exists.mp (heString2Int_isSome word.2.he)
  rw [mergeBucketResult, itemsOf_eq success, wordPow, success, wordHe, codes]
  rfl

theorem mergeBucketResult_refused {endPic : BitVec 64} {word : QueryWord} {code : Int}
    {loaded : WordIndex} (nonzero : code ≠ 0) (refused : loadWord index word.1 = some (code, loaded))
    (s : SearcherState) : mergeBucketResult index heThreshold endPic word s = some (-1, s) := by
  rw [mergeBucketResult, refused]
  exact if_pos nonzero

theorem wordPow_refused {word : QueryWord} {code : Int} {loaded : WordIndex} (nonzero : code ≠ 0)
    (refused : loadWord index word.1 = some (code, loaded)) : wordPow index word = 0 := by
  rw [wordPow, refused]
  split
  · next same => exact absurd (Prod.mk.inj (Option.some.inj same)).1 nonzero
  · rfl

variable (heThreshold) in
/-- One bucket: failure on a collision, otherwise what the bucket adds. -/
theorem mergeBucketResult_spec (readable : Readable index) (endPic : BitVec 64) (word : QueryWord)
    {s : SearcherState} (proper : Proper s.resultSimilar) :
    (Collides endPic (itemsOf index word.1) s.resultSimilar →
        mergeBucketResult index heThreshold endPic word s = none) ∧
      (¬ Collides endPic (itemsOf index word.1) s.resultSimilar →
        ∃ ret s', mergeBucketResult index heThreshold endPic word s = some (ret, s') ∧
          Adds simKey simValue Positive (wordValue index heThreshold word)
            (WordHits index heThreshold word) s.resultSimilar s'.resultSimilar ∧
          s'.queryPow = s.queryPow + wordPow index word) := by
  rcases readable word.1 with ⟨loaded, success, asc⟩ | ⟨code, nonzero, refused⟩
  · rw [← itemsOf_eq success] at asc
    obtain ⟨fails, works⟩ := mergeItems_spec heThreshold word.2.q (wordHe word) endPic []
      s.resultSimilar proper asc fun info member => by cases member
    rw [mergeBucketResult_loaded success]
    refine ⟨fun collides => by rw [fails collides, Option.map_none], fun clear => ?_⟩
    obtain ⟨result, merged, adds⟩ := works clear
    exact ⟨0, ⟨result, s.queryPow + wordPow index word⟩, by rw [merged, Option.map_some], adds, rfl⟩
  · rw [mergeBucketResult_refused nonzero refused, itemsOf_refused nonzero refused]
    refine ⟨fun ⟨_, member, _⟩ => (by cases member), fun _ => ⟨-1, s, rfl, ?_, ?_⟩⟩
    · have same := Adds.nothing proper
      refine ⟨same.canonical, fun k => ?_, fun k => ?_⟩
      · rw [wordValue, itemsOf_refused nonzero refused]
        exact same.coeff_eq k
      · rw [WordHits, itemsOf_refused nonzero refused]
        simp
    · rw [wordPow_refused nonzero refused, add_zero]

variable (heThreshold) in
/-- The words of a query: failure on a collision, otherwise what the query adds. -/
theorem mergeWords_spec (readable : Readable index) (endPic : Nat → BitVec 64)
    (words : List QueryWord) :
    (¬ Apart index heThreshold endPic words →
        mergeWords index heThreshold endPic words {} = none) ∧
      (Apart index heThreshold endPic words →
        ∃ s, mergeWords index heThreshold endPic words {} = some s ∧
          Answers index heThreshold words s) := by
  have start : Answers index heThreshold [] {} :=
    ⟨⟨List.Pairwise.nil, fun _ member => nomatch member⟩, fun _ => rfl,
      fun k => iff_of_false (fun ⟨_, member, _⟩ => nomatch member) (queryHits_nil k), rfl⟩
  refine exec_along (WordApart index heThreshold endPic) (Answers index heThreshold)
    (fun _ => True) (fun done s word _ answers clash => ?_)
    (fun done s word _ answers apart => ?_) [] (fun _ _ => trivial) start
  · have fails := (mergeBucketResult_spec heThreshold readable (endPic word.1) word
      answers.proper).1
    rw [fails ((collides_iff answers.mem_key).mpr clash), Option.map_none]
  · have works := (mergeBucketResult_spec heThreshold readable (endPic word.1) word
      answers.proper).2
    obtain ⟨ret, s', merged, adds, pow⟩ :=
      works fun collides => (collides_iff answers.mem_key).mp collides apart
    refine ⟨s', by rw [merged, Option.map_some], adds.canonical, fun k => ?_, fun k => ?_, ?_⟩
    · rw [adds.coeff_eq, answers.coeff_eq, queryValue_append]
      exact congrArg _ (add_zero _).symm
    · rw [adds.mem_key, answers.mem_key, queryHits_append, queryHits_singleton]
    · rw [pow, answers.pow_eq, queryPowOf_append]
      exact congrArg _ (add_zero _).symm

end Query

end MlsImgSearch.BofCore.Searcher
