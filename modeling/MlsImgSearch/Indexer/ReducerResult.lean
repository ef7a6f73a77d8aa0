import MlsImgSearch.BofCore.Indexer

/-!
# Building the index from the reducer's buckets

`ReducerResultResolver` converts bucket after bucket, appends the serialized
word to the data file and sets the hint of the bucket. A later bucket with the
same id replaces the hint of an earlier one. The archives of buckets and hinter
are taken as exact copies.
-/

namespace MlsImgSearch.Indexer.ReducerResult

open MlsImgSearch.Lib.Bytes
open MlsImgSearch.BofCore.IndexerSerializer
open MlsImgSearch.BofCore.Indexer

/-- One turn of the loop of `ParseFile`; `junk` is the memory that `Serialize` allocates. -/
def parseBucket (junk : Nat → UInt8) (r : BOFIndex) (bucket : BOFIndexBucket) : Option BOFIndex :=
  (convertB2W bucket).bind fun windex =>
    (serialize junk windex).map fun indexData => r.append bucket.bucketId indexData

/-- `junk k` is the memory of the `k`-th allocation. -/
def parseFile (junk : Nat → Nat → UInt8) :
    Nat → BOFIndex → List BOFIndexBucket → Option BOFIndex
  | _, r, [] => some r
  | k, r, bucket :: rest =>
      (parseBucket (junk k) r bucket).bind fun r' => parseFile junk (k + 1) r' rest

/-- `ParseFile`, `SaveIndex` and `BOFIndex::Init` on the two files. -/
def buildIndex (bucketCount : Nat) (junk : Nat → Nat → UInt8) (buckets : List BOFIndexBucket) :
    Option BOFIndex :=
  parseFile junk 0 (.create bucketCount) buckets

/-! ## The contract -/

/-- A bucket by its meaning. -/
structure Bucket where
  id : Nat
  postings : List Posting

def Bucket.text (b : Bucket) : BOFIndexBucket := ⟨b.id, b.postings.map Posting.text⟩

def Bucket.word (b : Bucket) : WordIndex := ⟨BitVec.ofNat 32 b.id, b.postings.map Posting.item⟩

/-- The last bucket with an id. -/
def lastBucket (buckets : List Bucket) (i : Nat) : Option Bucket :=
  buckets.reverse.find? fun b => b.id = i

/-- Every word is answered with its last bucket, and with an error code if there is none. -/
def Answers (bucketCount : Nat) (buckets : List Bucket) (index : BOFIndex) : Prop :=
  ∀ i, i < bucketCount →
    match lastBucket buckets i with
    | some b => loadWord index i = some (0, ⟨BitVec.ofNat 32 i, b.word.items⟩)
    | none => ∃ code word, loadWord index i = some (code, word) ∧ code ≠ 0

/-- The index is built and answers, whatever fresh memory contains. -/
def Contract (bucketCount : Nat) (buckets : List Bucket) : Prop :=
  ∀ junk, ∃ index, buildIndex bucketCount junk (buckets.map Bucket.text) = some index ∧
    Answers bucketCount buckets index

/-- All buckets can be written, and those that count are written whole. -/
def SmallEnough (buckets : List Bucket) : Prop :=
  (∀ b ∈ buckets, b.word.Writable) ∧
    ∀ i b, lastBucket buckets i = some b → ∀ item ∈ b.word.items, item.Plain

/-! ## Writing -/

theorem convertB2W_text (b : Bucket) : convertB2W b.text = some b.word := by
  rw [convertB2W, Bucket.text, convertItems_text]
  rfl

variable {bucketCount : Nat} {junk : Nat → Nat → UInt8} {r : BOFIndex} {seen : List Bucket}

/-- What hinter and data file say about the buckets seen so far. -/
structure Holds (bucketCount : Nat) (junk : Nat → Nat → UInt8) (seen : List Bucket)
    (r : BOFIndex) : Prop where
  size : r.hinter.items.length = bucketCount
  missing : ∀ i, i < bucketCount → lastBucket seen i = none → r.hinter.items[i]? = some {}
  found : ∀ i b, lastBucket seen i = some b →
    ∃ k bytes, serialize (junk k) b.word = some bytes ∧ Points r i bytes

theorem Holds.create : Holds bucketCount junk [] (.create bucketCount) where
  size := List.length_replicate
  missing i inside _ := by
    simp only [BOFIndex.create, IndexHinter.create]
    rw [List.getElem?_replicate, if_pos inside]
  found i b last := by cases last

theorem lastBucket_append (seen : List Bucket) (b : Bucket) (i : Nat) :
    lastBucket (seen ++ [b]) i = if b.id = i then some b else lastBucket seen i := by
  rw [lastBucket, List.reverse_append, List.reverse_singleton, List.singleton_append,
    List.find?_cons]
  by_cases same : b.id = i
  · simp [same]
  · simp [same, lastBucket]

theorem parseBucket_holds {b : Bucket} (k : Nat) (holds : Holds bucketCount junk seen r)
    (inside : b.id < bucketCount) (writable : b.word.Writable) :
    ∃ r', parseBucket (junk k) r b.text = some r' ∧ Holds bucketCount junk (seen ++ [b]) r' := by
  obtain ⟨bytes, done⟩ := (serialize_isSome_iff (junk k) b.word).mpr writable
  have room : b.id < r.hinter.items.length := by
    rw [holds.size]
    exact inside
  refine ⟨r.append b.id bytes, ?_, ?_, ?_, ?_⟩
  · rw [parseBucket, convertB2W_text, Option.bind_some, done, Option.map_some]
    rfl
  · rw [length_hints_append room]
    exact holds.size
  · intro i small last
    rw [lastBucket_append] at last
    by_cases same : b.id = i
    · rw [if_pos same] at last
      cases last
    · rw [if_neg same] at last
      rw [hint_append_other room bytes same]
      exact holds.missing i small last
  · intro i b' last
    rw [lastBucket_append] at last
    by_cases same : b.id = i
    · subst same
      rw [if_pos rfl] at last
      obtain rfl := Option.some.inj last
      exact ⟨k, bytes, done, points_append_self room bytes⟩
    · rw [if_neg same] at last
      obtain ⟨k', bytes', done', points⟩ := holds.found i b' last
      exact ⟨k', bytes', done', points_append_other room bytes same points⟩

theorem parseFile_holds {buckets : List Bucket} (k : Nat) (holds : Holds bucketCount junk seen r)
    (inside : ∀ b ∈ buckets, b.id < bucketCount) (writable : ∀ b ∈ buckets, b.word.Writable) :
    ∃ r', parseFile junk k r (buckets.map Bucket.text) = some r' ∧
      Holds bucketCount junk (seen ++ buckets) r' := by
  induction buckets generalizing seen r k with
  | nil => exact ⟨r, rfl, by rwa [List.append_nil]⟩
  | cons b rest ih =>
      obtain ⟨mid, first, midHolds⟩ := parseBucket_holds k holds
        (inside b (List.mem_cons_self ..)) (writable b (List.mem_cons_self ..))
      obtain ⟨r', later, result⟩ := ih (k + 1) midHolds
        (fun b' member => inside b' (List.mem_cons_of_mem _ member))
        (fun b' member => writable b' (List.mem_cons_of_mem _ member))
      refine ⟨r', by rw [List.map_cons, parseFile, first]; exact later, ?_⟩
      rwa [List.append_assoc] at result

theorem buildIndex_holds (junk : Nat → Nat → UInt8) {buckets : List Bucket}
    (inside : ∀ b ∈ buckets, b.id < bucketCount) (writable : ∀ b ∈ buckets, b.word.Writable) :
    ∃ index, buildIndex bucketCount junk (buckets.map Bucket.text) = some index ∧
      Holds bucketCount junk buckets index := by
  obtain ⟨index, done, holds⟩ := parseFile_holds 0 Holds.create inside writable
  exact ⟨index, done, holds⟩

theorem writable_of_parseFile {buckets : List Bucket} {k : Nat} {r' : BOFIndex}
    (done : parseFile junk k r (buckets.map Bucket.text) = some r') :
    ∀ b ∈ buckets, b.word.Writable := by
  induction buckets generalizing r k with
  | nil => exact fun b member => by cases member
  | cons b rest ih =>
      obtain ⟨mid, first, later⟩ := Option.bind_eq_some_iff.mp done
      intro b' member
      rcases List.mem_cons.mp member with rfl | tail
      · rw [parseBucket, convertB2W_text, Option.bind_some] at first
        obtain ⟨bytes, serialized, -⟩ := Option.map_eq_some_iff.mp first
        exact (serialize_isSome_iff (junk k) b'.word).mp ⟨bytes, serialized⟩
      · exact ih later b' tail

/-! ## Reading -/

theorem loadWord_missing {i : Nat} (holds : Holds bucketCount junk seen r)
    (inside : i < bucketCount) (none' : lastBucket seen i = none) :
    loadWord r i = some (-2, WordIndex.fresh) := by
  simp only [loadWord, IndexHinter.getHint, holds.missing i inside none', if_true]

theorem id_of_lastBucket {buckets : List Bucket} {i : Nat} {b : Bucket}
    (last : lastBucket buckets i = some b) : b.id = i := by
  have isId := List.find?_some last
  exact of_decide_eq_true isId

theorem mem_of_lastBucket {buckets : List Bucket} {i : Nat} {b : Bucket}
    (last : lastBucket buckets i = some b) : b ∈ buckets :=
  List.mem_reverse.mp (List.mem_of_find?_eq_some last)

theorem answers_of_plain {buckets : List Bucket} (holds : Holds bucketCount junk buckets r)
    (small : SmallEnough buckets) : Answers bucketCount buckets r := by
  intro i inside
  split
  · next b last =>
      obtain ⟨k, bytes, done, points⟩ := holds.found i b last
      rw [loadWord_of_plain points done (small.2 i b last), ← id_of_lastBucket last]
      rfl
  · next none' => exact ⟨-2, _, loadWord_missing holds inside none', by decide⟩

/-- A word with a cut item is not answered with its items for every content of fresh memory. -/
theorem plain_of_contract {buckets : List Bucket} (ids : ∀ b ∈ buckets, b.id < bucketCount)
    (writable : ∀ b ∈ buckets, b.word.Writable) (contract : Contract bucketCount buckets) {i : Nat}
    {b : Bucket} (last : lastBucket buckets i = some b) : ∀ item ∈ b.word.items, item.Plain := by
  have inside : i < bucketCount := by
    rw [← id_of_lastBucket last]
    exact ids b (mem_of_lastBucket last)
  -- fresh memory that differs from the byte that belongs at the end
  obtain ⟨wrong, differs⟩ : ∃ wrong : UInt8, b.word.encode.getLast? ≠ some wrong := by
    by_cases zero : b.word.encode.getLast? = some 0
    · exact ⟨1, by rw [zero]; decide⟩
    · exact ⟨0, zero⟩
  obtain ⟨r, built, holds⟩ := buildIndex_holds (fun _ _ => wrong) ids writable
  obtain ⟨index, built', answers⟩ := contract fun _ _ => wrong
  obtain rfl := Option.some.inj (built.symm.trans built')
  obtain ⟨k, bytes, done, points⟩ := holds.found i b last
  have reply := answers i inside
  rw [last] at reply
  dsimp only at reply
  rw [loadWord_of_serialize points done, ← id_of_lastBucket last] at reply
  obtain ⟨word, isWord, same⟩ := Option.map_eq_some_iff.mp reply
  obtain ⟨-, rfl⟩ := Prod.mk.inj same
  exact plain_of_unserialize differs done isWord

/--
Bucket after bucket written and read back: for every list of buckets with ids
below the bucket count, the index answers every word with its last bucket if and
only if all buckets can be written and the last one of each id has fewer than
4096 features in each item.
-/
theorem index_answers_iff {bucketCount : Nat} {buckets : List Bucket}
    (ids : ∀ b ∈ buckets, b.id < bucketCount) :
    Contract bucketCount buckets ↔ SmallEnough buckets := by
  constructor
  · intro contract
    have writable : ∀ b ∈ buckets, b.word.Writable := by
      obtain ⟨index, built, -⟩ := contract fun _ _ => 0
      exact writable_of_parseFile built
    exact ⟨writable, fun i b last => plain_of_contract ids writable contract last⟩
  · intro small junk
    obtain ⟨index, built, holds⟩ := buildIndex_holds junk ids small.1
    exact ⟨index, built, answers_of_plain holds small⟩

theorem smallEnough_of_plain {buckets : List Bucket}
    (plain : ∀ b ∈ buckets, calcWordIndexSize b.word < 2 ^ 31 ∧ ∀ item ∈ b.word.items, item.Plain) :
    SmallEnough buckets :=
  ⟨fun b member => ⟨(plain b member).1, fun item isItem => Or.inl ((plain b member).2 item isItem)⟩,
    fun _ b last => (plain b (mem_of_lastBucket last)).2⟩

def sampleFeature : Feature := ⟨List.replicate 16 10, (1, 2, 3), rfl⟩

/-- The first bucket is replaced by the last one, and word 1 has none. -/
theorem index_answers_replaced_bucket :
    Contract 3 [⟨0, [⟨7, 1, [sampleFeature], by decide⟩]⟩, ⟨2, []⟩,
      ⟨0, [⟨7, 1, [], by decide⟩, ⟨9, 2, [sampleFeature, sampleFeature], by decide⟩]⟩] :=
  (index_answers_iff (by decide)).mpr (smallEnough_of_plain (by decide))

/-- An item with 4096 features: `he_len` becomes -32768. -/
theorem long_item_not_written :
    ¬ Contract 1 [⟨0, [⟨7, 1, List.replicate 4096 sampleFeature,
      by rw [List.length_replicate]; decide⟩]⟩] := by
  intro contract
  obtain ⟨index, built, -⟩ := contract fun _ _ => 0
  have fine := (writable_of_parseFile built _ (List.mem_singleton_self _)).2 _
    (List.mem_singleton_self _)
  have length : ((List.replicate 4096 sampleFeature).map Feature.he).length = 4096 := by
    rw [List.length_map, List.length_replicate]
  simp only [IndexItem.Plain, IndexItem.Cut, Posting.item, length] at fine
  omega

end MlsImgSearch.Indexer.ReducerResult
