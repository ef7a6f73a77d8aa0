import Mathlib.Data.Int.Order.Basic
import Mathlib.Data.List.Nodup
import MlsImgSearch.BofCore.Indexer
import MlsImgSearch.Lib.SortedList

/-!
# Merging an old and a new index

`index_merger` walks through the words, loads each from both indexes, merges
their items by picture and appends the result to the saved index.
-/

namespace MlsImgSearch.Indexer.Merger

open MlsImgSearch.Lib.Bytes
open MlsImgSearch.Lib.SortedList
open MlsImgSearch.BofCore.IndexerSerializer
open MlsImgSearch.BofCore.Indexer

/-- The items of the result. When both words have a picture, the new item is taken. -/
def mergerWords : List IndexItem → List IndexItem → List IndexItem
  | old, [] => old
  | [], new => new
  | itOld :: old, itNew :: new =>
      if itOld.picId = itNew.picId then itNew :: mergerWords old new
      else if picKey itOld < picKey itNew then itOld :: mergerWords old (itNew :: new)
      else itNew :: mergerWords (itOld :: old) new
  termination_by old new => old.length + new.length

/-- One turn of the main loop: the bytes of the merged word, or the exit code of the program.
Nothing sets the word id of the result. -/
def mergeWord (junk : Nat → UInt8) (old new : BOFIndex) (i : Nat) :
    Option (Except Int (List UInt8)) :=
  (loadWord old i).bind fun (ret, oldWords) =>
    if ret ≠ 0 then some (.error (-6))
    else
      (loadWord new i).bind fun (ret, newWords) =>
        if ret ≠ 0 then some (.error (-7))
        else
          let saveWords : WordIndex :=
            { WordIndex.fresh with items := mergerWords oldWords.items newWords.items }
          (serialize junk saveWords).map .ok

/-- The main loop from word `i` on, with `left` words to go. -/
def mergeFrom (junk : Nat → Nat → UInt8) (old new : BOFIndex) :
    Nat → Nat → BOFIndex → Option (Except Int BOFIndex)
  | 0, _, save => some (.ok save)
  | left + 1, i, save =>
      (mergeWord (junk i) old new i).bind fun
        | .error code => some (.error code)
        | .ok indexData => mergeFrom junk old new left (i + 1) (save.append i indexData)

def indexMerger (junk : Nat → Nat → UInt8) (old new : BOFIndex) (wordCount : Nat) :
    Option (Except Int BOFIndex) :=
  mergeFrom junk old new wordCount 0 (.create wordCount)

/-! ## The contract -/

/-- Every word loads, or is reported as empty, and lists its pictures in ascending order. -/
def Ordered (index : BOFIndex) (wordCount : Nat) : Prop :=
  ∀ i, i < wordCount →
    (∃ word, loadWord index i = some (0, word) ∧ Ascending picKey word.items) ∨
      loadWord index i = some (-2, WordIndex.fresh)

/-- The pictures of both words, each once, with the new item where there is one. -/
structure MergedFrom (old new merged : List IndexItem) : Prop where
  ascending : Ascending picKey merged
  mem_iff : ∀ item, item ∈ merged ↔
    item ∈ new ∨ (item ∈ old ∧ ∀ other ∈ new, other.picId ≠ item.picId)
  once : ∀ picId, picId ∈ old.map IndexItem.picId ∨ picId ∈ new.map IndexItem.picId →
    (merged.map IndexItem.picId).count picId = 1

/-- The merger ends with an index that answers every word with the merged items. -/
def MergeContract (old new : BOFIndex) (wordCount : Nat) : Prop :=
  ∀ junk, ∃ save, indexMerger junk old new wordCount = some (.ok save) ∧
    ∀ i, i < wordCount → ∃ word, loadWord save i = some (0, word) ∧
      word.wordId = BitVec.ofNat 32 i ∧ MergedFrom (itemsOf old i) (itemsOf new i) word.items

/-- The items of the old word whose pictures the new word lacks, and all items of the new word. -/
def survivors (old new : List IndexItem) : List IndexItem :=
  old.filter (fun item => ∀ other ∈ new, other.picId ≠ item.picId) ++ new

/-- Word 0 loads from both indexes, and the surviving items can be written whole. -/
def Mergeable (old new : BOFIndex) : Prop :=
  ∃ oldWords newWords, loadWord old 0 = some (0, oldWords) ∧ loadWord new 0 = some (0, newWords) ∧
    8 + ((survivors oldWords.items newWords.items).map IndexItem.getSize).sum < 2 ^ 31 ∧
    ∀ item ∈ survivors oldWords.items newWords.items, item.Plain

/-! ## The merge of two words -/

theorem picKey_lt_or {a b : IndexItem} (differs : a.picId ≠ b.picId) (notLess : ¬ picKey a < picKey b) :
    picKey b < picKey a := by
  have notEqual : picKey a ≠ picKey b := fun same => differs (BitVec.toInt_inj.mp same)
  omega

theorem picKey_ne {a b : IndexItem} (less : picKey a < picKey b) : a.picId ≠ b.picId := by
  intro same
  unfold picKey at less
  rw [same] at less
  exact lt_irrefl _ less

theorem mem_mergerWords {old new : List IndexItem} (oldAsc : Ascending picKey old)
    (newAsc : Ascending picKey new) (item : IndexItem) :
    item ∈ mergerWords old new ↔
      item ∈ new ∨ (item ∈ old ∧ ∀ other ∈ new, other.picId ≠ item.picId) := by
  fun_induction mergerWords old new with
  | case1 old => simp
  | case2 new => simp
  | case3 itOld old itNew new same ih =>
      obtain ⟨oldHead, oldTail⟩ := List.pairwise_cons.mp oldAsc
      obtain ⟨newHead, newTail⟩ := List.pairwise_cons.mp newAsc
      rw [List.mem_cons, ih oldTail newTail]
      -- the old item with the same picture is dropped
      have dropped : item = itOld → ¬ ∀ other ∈ itNew :: new, other.picId ≠ item.picId := by
        rintro rfl keeps
        exact keeps itNew (List.mem_cons_self ..) same.symm
      have later : item ∈ old → itNew.picId ≠ item.picId := fun member => by
        rw [← same]
        exact picKey_ne (oldHead item member)
      grind
  | case4 itOld old itNew new differs less ih =>
      obtain ⟨oldHead, oldTail⟩ := List.pairwise_cons.mp oldAsc
      obtain ⟨newHead, newTail⟩ := List.pairwise_cons.mp newAsc
      rw [List.mem_cons, ih oldTail newAsc]
      have kept : item = itOld → ∀ other ∈ itNew :: new, other.picId ≠ item.picId := by
        rintro rfl other member
        rcases List.mem_cons.mp member with rfl | later
        · exact (picKey_ne less).symm
        · exact (picKey_ne (lt_trans less (newHead other later))).symm
      grind
  | case5 itOld old itNew new differs notLess ih =>
      obtain ⟨oldHead, oldTail⟩ := List.pairwise_cons.mp oldAsc
      obtain ⟨newHead, newTail⟩ := List.pairwise_cons.mp newAsc
      rw [List.mem_cons, ih oldAsc newTail]
      have less := picKey_lt_or differs notLess
      have other : item ∈ itOld :: old → itNew.picId ≠ item.picId := by
        intro member
        rcases List.mem_cons.mp member with rfl | later
        · exact picKey_ne less
        · exact picKey_ne (lt_trans less (oldHead item later))
      grind

theorem mergerWords_ascending {old new : List IndexItem} (oldAsc : Ascending picKey old)
    (newAsc : Ascending picKey new) : Ascending picKey (mergerWords old new) := by
  fun_induction mergerWords old new with
  | case1 old => exact oldAsc
  | case2 new => exact newAsc
  | case3 itOld old itNew new same ih =>
      obtain ⟨oldHead, oldTail⟩ := List.pairwise_cons.mp oldAsc
      obtain ⟨newHead, newTail⟩ := List.pairwise_cons.mp newAsc
      refine List.pairwise_cons.mpr ⟨fun item member => ?_, ih oldTail newTail⟩
      rcases (mem_mergerWords oldTail newTail item).mp member with isNew | ⟨isOld, -⟩
      · exact newHead item isNew
      · have less := oldHead item isOld
        unfold picKey at less ⊢
        rw [← same]
        exact less
  | case4 itOld old itNew new differs less ih =>
      obtain ⟨oldHead, oldTail⟩ := List.pairwise_cons.mp oldAsc
      obtain ⟨newHead, -⟩ := List.pairwise_cons.mp newAsc
      refine List.pairwise_cons.mpr ⟨fun item member => ?_, ih oldTail newAsc⟩
      rcases (mem_mergerWords oldTail newAsc item).mp member with isNew | ⟨isOld, -⟩
      · rcases List.mem_cons.mp isNew with rfl | later
        · exact less
        · exact lt_trans less (newHead item later)
      · exact oldHead item isOld
  | case5 itOld old itNew new differs notLess ih =>
      obtain ⟨oldHead, -⟩ := List.pairwise_cons.mp oldAsc
      obtain ⟨newHead, newTail⟩ := List.pairwise_cons.mp newAsc
      have less := picKey_lt_or differs notLess
      refine List.pairwise_cons.mpr ⟨fun item member => ?_, ih oldAsc newTail⟩
      rcases (mem_mergerWords oldAsc newTail item).mp member with isNew | ⟨isOld, -⟩
      · exact newHead item isNew
      · rcases List.mem_cons.mp isOld with rfl | later
        · exact less
        · exact lt_trans less (oldHead item later)

theorem mergerWords_mergedFrom {old new : List IndexItem} (oldAsc : Ascending picKey old)
    (newAsc : Ascending picKey new) : MergedFrom old new (mergerWords old new) where
  ascending := mergerWords_ascending oldAsc newAsc
  mem_iff := mem_mergerWords oldAsc newAsc
  once picId present := by
    have distinct : ((mergerWords old new).map IndexItem.picId).Nodup :=
      List.pairwise_map.mpr ((mergerWords_ascending oldAsc newAsc).imp fun less => picKey_ne less)
    refine List.count_eq_one_of_mem distinct (List.mem_map.mpr ?_)
    by_cases isNew : picId ∈ new.map IndexItem.picId
    · obtain ⟨item, member, isPic⟩ := List.mem_map.mp isNew
      exact ⟨item, (mem_mergerWords oldAsc newAsc item).mpr (Or.inl member), isPic⟩
    · obtain ⟨item, member, rfl⟩ := List.mem_map.mp (present.resolve_right isNew)
      refine ⟨item, (mem_mergerWords oldAsc newAsc item).mpr (Or.inr ⟨member, ?_⟩), rfl⟩
      exact fun other isOther same => isNew (List.mem_map.mpr ⟨other, isOther, same⟩)

/-- The merged word has the items of `survivors`, in the order of their pictures. -/
theorem mergerWords_perm {old new : List IndexItem} (oldAsc : Ascending picKey old)
    (newAsc : Ascending picKey new) : (mergerWords old new).Perm (survivors old new) := by
  have distinct : ∀ {items : List IndexItem}, Ascending picKey items → items.Nodup := by
    intro items asc
    refine List.Pairwise.imp ?_ asc
    intro a b less same
    rw [same] at less
    exact lt_irrefl _ less
  refine (List.perm_ext_iff_of_nodup (distinct (mergerWords_ascending oldAsc newAsc)) ?_).mpr
    fun item => ?_
  · refine List.nodup_append.mpr ⟨distinct (oldAsc.sublist List.filter_sublist),
      distinct newAsc, ?_⟩
    rintro a isOld b isNew rfl
    have unlike := of_decide_eq_true (List.mem_filter.mp isOld).2
    exact unlike a isNew rfl
  · rw [mem_mergerWords oldAsc newAsc, survivors, List.mem_append, List.mem_filter, or_comm]
    simp

/-! ## The main loop -/

section Loop

variable {junk : Nat → Nat → UInt8} {old new save : BOFIndex} {wordCount : Nat}

/-- A word that was merged: it loaded from both indexes and its result was serialized. -/
theorem mergeWord_eq_ok {junk : Nat → UInt8} {i : Nat} {bytes : List UInt8}
    (done : mergeWord junk old new i = some (.ok bytes)) :
    ∃ oldWords newWords, loadWord old i = some (0, oldWords) ∧ loadWord new i = some (0, newWords) ∧
      serialize junk ⟨0, mergerWords oldWords.items newWords.items⟩ = some bytes := by
  obtain ⟨⟨ret, oldWords⟩, loadedOld, done⟩ := Option.bind_eq_some_iff.mp done
  dsimp only at done
  split at done
  · cases done
  · next oldOk =>
      obtain ⟨⟨ret', newWords⟩, loadedNew, done⟩ := Option.bind_eq_some_iff.mp done
      dsimp only at done
      split at done
      · cases done
      · next newOk =>
          obtain ⟨bytes', serialized, same⟩ := Option.map_eq_some_iff.mp done
          obtain rfl := Except.ok.inj same
          refine ⟨oldWords, newWords, ?_, ?_, serialized⟩
          · rw [loadedOld, Decidable.of_not_not oldOk]
          · rw [loadedNew, Decidable.of_not_not newOk]

/-- After the loop every word that it went through is where its hint points, and earlier words
stay. -/
theorem mergeFrom_points {left i : Nat} {result : BOFIndex}
    (size : save.hinter.items.length = wordCount) (range : i + left = wordCount)
    (done : mergeFrom junk old new left i save = some (.ok result)) :
    (∀ j bytes, j < i → Points save j bytes → Points result j bytes) ∧
      ∀ j, i ≤ j → j < wordCount → ∃ bytes, mergeWord (junk j) old new j = some (.ok bytes) ∧
        Points result j bytes := by
  induction left generalizing i save with
  | zero =>
      obtain rfl : save = result := Except.ok.inj (Option.some.inj done)
      exact ⟨fun _ _ _ points => points, fun j lower upper => by omega⟩
  | succ left ih =>
      obtain ⟨outcome, first, later⟩ := Option.bind_eq_some_iff.mp done
      cases outcome with
      | error code => cases Option.some.inj later
      | ok bytes =>
          have inside : i < save.hinter.items.length := by
            rw [size]
            omega
          obtain ⟨keep, found⟩ := ih ((length_hints_append inside bytes).trans size) (by omega) later
          refine ⟨fun j other lower points => ?_, fun j lower upper => ?_⟩
          · exact keep j other (by omega) (points_append_other inside bytes (by omega) points)
          · rcases Nat.eq_or_lt_of_le lower with rfl | above
            · exact ⟨bytes, first, keep i bytes (Nat.lt_succ_self i) (points_append_self inside bytes)⟩
            · exact found j above upper

theorem indexMerger_points {result : BOFIndex}
    (done : indexMerger junk old new wordCount = some (.ok result)) {i : Nat}
    (inside : i < wordCount) :
    ∃ bytes, mergeWord (junk i) old new i = some (.ok bytes) ∧ Points result i bytes :=
  (mergeFrom_points List.length_replicate (Nat.zero_add _) done).2 i (Nat.zero_le i) inside

end Loop

/-- `Unserialize` takes the word id from the first four bytes, which `Serialize` wrote. -/
theorem wordId_of_unserialize {junk : Nat → UInt8} {word back : WordIndex} {bytes : List UInt8}
    (done : serialize junk word = some bytes) (read : unserialize (bytes ++ [0]) = some back) :
    back.wordId = word.wordId := by
  have writable := (serialize_isSome_iff junk word).mp ⟨bytes, done⟩
  rw [serialize_eq junk writable.1 writable.2] at done
  obtain rfl := Option.some.inj done
  obtain ⟨⟨wordId, data⟩, first, read⟩ := Option.bind_eq_some_iff.mp read
  obtain ⟨⟨count, data'⟩, -, read⟩ := Option.bind_eq_some_iff.mp read
  obtain ⟨⟨items, data''⟩, -, rfl⟩ := Option.map_eq_some_iff.mp read
  have small : word.wordId.toNat < 256 ^ 4 := Nat.lt_of_lt_of_le word.wordId.isLt (by decide)
  simp only [WordIndex.dumped, List.append_assoc] at first
  rw [readLe_append small] at first
  obtain ⟨rfl, -⟩ := Prod.mk.inj (Option.some.inj first)
  exact BitVec.ofNat_toNat ..

section Contract

variable {old new : BOFIndex} {wordCount : Nat}

theorem Ordered.ascending {index : BOFIndex} (ordered : Ordered index wordCount) {i : Nat}
    {word : WordIndex} (inside : i < wordCount) (loaded : loadWord index i = some (0, word)) :
    Ascending picKey word.items := by
  rcases ordered i inside with ⟨word', loaded', asc⟩ | failed
  · obtain ⟨-, rfl⟩ := Prod.mk.inj (Option.some.inj (loaded.symm.trans loaded'))
    exact asc
  · cases (Prod.mk.inj (Option.some.inj (loaded.symm.trans failed))).1

theorem size_survivors {oldItems newItems : List IndexItem} (oldAsc : Ascending picKey oldItems)
    (newAsc : Ascending picKey newItems) :
    calcWordIndexSize ⟨0, mergerWords oldItems newItems⟩ =
      8 + ((survivors oldItems newItems).map IndexItem.getSize).sum :=
  congrArg (8 + ·) ((mergerWords_perm oldAsc newAsc).map IndexItem.getSize).sum_nat

/-- The saved word 1 claims to be word 0. -/
theorem wordCount_lt_two (contract : MergeContract old new wordCount) : wordCount < 2 := by
  by_contra many
  obtain ⟨save, done, answers⟩ := contract fun _ _ => 0
  obtain ⟨word, loaded, isId, -⟩ := answers 1 (by omega)
  obtain ⟨bytes, merged, points⟩ := indexMerger_points done (by omega : 1 < wordCount)
  obtain ⟨oldWords, newWords, -, -, serialized⟩ := mergeWord_eq_ok merged
  rw [loadWord_of_serialize points serialized] at loaded
  obtain ⟨back, read, same⟩ := Option.map_eq_some_iff.mp loaded
  obtain ⟨-, rfl⟩ := Prod.mk.inj same
  rw [wordId_of_unserialize serialized read] at isId
  exact absurd isId (by decide : (0 : BitVec 32) ≠ BitVec.ofNat 32 1)

theorem mergeable_of_contract (oldOrdered : Ordered old 1) (newOrdered : Ordered new 1)
    (contract : MergeContract old new 1) : Mergeable old new := by
  obtain ⟨save, done, -⟩ := contract fun _ _ => 0
  obtain ⟨bytes, merged, -⟩ := indexMerger_points done (by decide : 0 < 1)
  obtain ⟨oldWords, newWords, loadedOld, loadedNew, serialized⟩ := mergeWord_eq_ok merged
  have oldAsc := oldOrdered.ascending (by decide) loadedOld
  have newAsc := newOrdered.ascending (by decide) loadedNew
  have small := ((serialize_isSome_iff _ _).mp ⟨bytes, serialized⟩).1
  rw [size_survivors oldAsc newAsc] at small
  refine ⟨oldWords, newWords, loadedOld, loadedNew, small, fun item member => ?_⟩
  -- fresh memory that differs from the byte that belongs at the end
  obtain ⟨wrong, differs⟩ : ∃ wrong : UInt8, (WordIndex.encode
      ⟨0, mergerWords oldWords.items newWords.items⟩).getLast? ≠ some wrong := by
    by_cases zero : (WordIndex.encode
        ⟨0, mergerWords oldWords.items newWords.items⟩).getLast? = some 0
    · exact ⟨1, by rw [zero]; decide⟩
    · exact ⟨0, zero⟩
  obtain ⟨save, done, answers⟩ := contract fun _ _ => wrong
  obtain ⟨word, loaded, isId, isMerged⟩ := answers 0 (by decide)
  obtain ⟨bytes, merged, points⟩ := indexMerger_points done (by decide : 0 < 1)
  obtain ⟨oldWords', newWords', loadedOld', loadedNew', serialized⟩ := mergeWord_eq_ok merged
  obtain ⟨-, rfl⟩ := Prod.mk.inj (Option.some.inj (loadedOld.symm.trans loadedOld'))
  obtain ⟨-, rfl⟩ := Prod.mk.inj (Option.some.inj (loadedNew.symm.trans loadedNew'))
  rw [itemsOf_eq loadedOld, itemsOf_eq loadedNew] at isMerged
  have sameItems : word.items = mergerWords oldWords.items newWords.items :=
    isMerged.ascending.ext (mergerWords_ascending oldAsc newAsc) fun item => by
      rw [isMerged.mem_iff, mem_mergerWords oldAsc newAsc]
  rw [loadWord_of_serialize points serialized] at loaded
  obtain ⟨back, read, same⟩ := Option.map_eq_some_iff.mp loaded
  obtain ⟨-, rfl⟩ := Prod.mk.inj same
  have whole : back = ⟨0, mergerWords oldWords.items newWords.items⟩ := by
    cases back
    dsimp only at isId sameItems
    rw [isId, sameItems]
    rfl
  rw [whole] at read
  exact plain_of_unserialize differs serialized read item
    ((mergerWords_perm oldAsc newAsc).mem_iff.mpr member)

theorem contract_of_mergeable (oldOrdered : Ordered old 1) (newOrdered : Ordered new 1)
    (mergeable : Mergeable old new) : MergeContract old new 1 := by
  obtain ⟨oldWords, newWords, loadedOld, loadedNew, small, plain⟩ := mergeable
  have oldAsc := oldOrdered.ascending (by decide) loadedOld
  have newAsc := newOrdered.ascending (by decide) loadedNew
  rw [← size_survivors oldAsc newAsc] at small
  have allPlain : ∀ item ∈ mergerWords oldWords.items newWords.items, item.Plain :=
    fun item member => plain item ((mergerWords_perm oldAsc newAsc).mem_iff.mp member)
  intro junk
  obtain ⟨bytes, serialized⟩ := (serialize_isSome_iff (junk 0)
    ⟨0, mergerWords oldWords.items newWords.items⟩).mpr
      ⟨small, fun item member => Or.inl (allPlain item member)⟩
  have merged : mergeWord (junk 0) old new 0 = some (.ok bytes) := by
    simp only [mergeWord, loadedOld, loadedNew, Option.bind_some, ne_eq, not_true_eq_false, if_false,
      WordIndex.fresh, serialized, Option.map_some]
  have points : Points ((BOFIndex.create 1).append 0 bytes) 0 bytes :=
    points_append_self (by decide) bytes
  refine ⟨(BOFIndex.create 1).append 0 bytes, ?_, fun i inside => ?_⟩
  · rw [indexMerger, mergeFrom, merged]
    rfl
  · obtain rfl : i = 0 := by omega
    refine ⟨⟨0, mergerWords oldWords.items newWords.items⟩,
      loadWord_of_plain points serialized allPlain, rfl, ?_⟩
    rw [itemsOf_eq loadedOld, itemsOf_eq loadedNew]
    exact mergerWords_mergedFrom oldAsc newAsc

/--
The merger saves an index that answers every word with its own id and the merged
items if and only if there are no words at all, or only word 0, and that word
loads from both indexes and its surviving items can be written whole.
-/
theorem merged_index_iff (oldOrdered : Ordered old wordCount) (newOrdered : Ordered new wordCount) :
    MergeContract old new wordCount ↔ wordCount = 0 ∨ (wordCount = 1 ∧ Mergeable old new) := by
  constructor
  · intro contract
    have few := wordCount_lt_two contract
    by_cases none' : wordCount = 0
    · exact Or.inl none'
    · obtain rfl : wordCount = 1 := by omega
      exact Or.inr ⟨rfl, mergeable_of_contract oldOrdered newOrdered contract⟩
  · rintro (rfl | ⟨rfl, mergeable⟩)
    · exact fun junk => ⟨.create 0, rfl, fun i inside => absurd inside (Nat.not_lt_zero i)⟩
    · exact contract_of_mergeable oldOrdered newOrdered mergeable

end Contract

/-! ## Sample indexes -/

/-- An item without features. -/
def bareItem (picId : BitVec 64) (weight : BitVec 32) : IndexItem :=
  ⟨picId, weight, [], [], rfl, by decide⟩

/-- The index of the given words. -/
def indexOf (words : List WordIndex) : BOFIndex :=
  words.zipIdx.foldl (fun index entry => index.append entry.2 entry.1.encode)
    (.create words.length)

theorem merged_index_one_word :
    MergeContract (indexOf [⟨0, [bareItem 3 1, bareItem 5 1]⟩])
      (indexOf [⟨0, [bareItem 4 2, bareItem 5 2]⟩]) 1 :=
  (merged_index_iff
    (fun i inside => Or.inl ⟨⟨0, [bareItem 3 1, bareItem 5 1]⟩, by
      obtain rfl : i = 0 := by omega
      decide, by decide⟩)
    (fun i inside => Or.inl ⟨⟨0, [bareItem 4 2, bareItem 5 2]⟩, by
      obtain rfl : i = 0 := by omega
      decide, by decide⟩)).mpr
    (Or.inr ⟨rfl, ⟨0, [bareItem 3 1, bareItem 5 1]⟩, ⟨0, [bareItem 4 2, bareItem 5 2]⟩,
      by decide, by decide, by decide, by decide⟩)

/-- Two words that load from both indexes: the saved word 1 has the word id 0. -/
theorem merged_word_lost_its_id :
    Ordered (indexOf [⟨0, []⟩, ⟨1, []⟩]) 2 ∧
      ¬ MergeContract (indexOf [⟨0, []⟩, ⟨1, []⟩]) (indexOf [⟨0, []⟩, ⟨1, []⟩]) 2 := by
  refine ⟨fun i inside => Or.inl ?_, fun contract => absurd (wordCount_lt_two contract) (by decide)⟩
  rcases Nat.lt_succ_iff_lt_or_eq.mp inside with first | rfl
  · obtain rfl : i = 0 := by omega
    exact ⟨⟨0, []⟩, by decide, List.Pairwise.nil⟩
  · exact ⟨⟨1, []⟩, by decide, List.Pairwise.nil⟩

end MlsImgSearch.Indexer.Merger
