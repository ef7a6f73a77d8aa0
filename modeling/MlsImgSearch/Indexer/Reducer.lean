import Mathlib.Algebra.Order.BigOperators.Group.Finset
import MlsImgSearch.Lib.Grouping
import MlsImgSearch.Common.BeansdbClusters
import MlsImgSearch.Indexer.NormalizeReducer

/-!
# Collecting the buckets of the index

The reducer reads the lines of all pictures, sorted by bucket, collects the lines
of the current bucket and prints them when the bucket changes. At the end it
prints a table with the number of lines of each bucket. A number that cannot be
read is an exception, which leaves the loop's variables as they were at that
point.
-/

namespace MlsImgSearch.Indexer.Reducer

open MlsImgSearch.Lib.Strings MlsImgSearch.Lib.Grouping
open MlsImgSearch.Common.BeansdbClusters (trim)
open MlsImgSearch.Indexer.NormalizeReducer (bufferSize readLine fgets fgetsAll)

/-! ## The reducer -/

/-- `boost::lexical_cast<int64_t>` behind the sign. -/
def castDigits64 (negative : Bool) (digits : Text) : Option Int :=
  if digits ≠ [] ∧ digits.all Char.isDigit then
    let number : Int := Nat.ofDigitChars 10 digits 0
    let value := if negative then -number else number
    if -2 ^ 63 ≤ value ∧ value < 2 ^ 63 then some value else none
  else none

/-- `boost::lexical_cast<int64_t>`; `none` is the exception. -/
def lexicalCastInt64 : Text → Option Int
  | '-' :: digits => castDigits64 true digits
  | '+' :: digits => castDigits64 false digits
  | digits => castDigits64 false digits

variable {K : Type}

/-- `AddItem` takes the picture's id as a `uint32_t`. -/
structure BOFIndexItem (K : Type) where
  picId : BitVec 32
  q : K
  wordInfo : Text × Text
  deriving DecidableEq

structure ReducerBucketResult (K : Type) where
  bucketId : Int
  items : List (BOFIndexItem K)
  deriving DecidableEq

def ReducerBucketResult.addLine (r : ReducerBucketResult K) (picId : Int) (q : K)
    (words1 words2 : Text) : ReducerBucketResult K :=
  { r with items := r.items ++ [⟨BitVec.ofInt 32 picId, q, (words1, words2)⟩] }

structure IDFReduceResult where
  wordsId : Int
  count : Int
  deriving DecidableEq

/-- `printed` are the buckets that were written to the output so far. -/
structure State (K : Type) where
  prevBucket : Int
  wordNum : Int
  fileNum : Int
  result : Option (ReducerBucketResult K)
  printed : List (ReducerBucketResult K)
  wordsStat : List IDFReduceResult

def State.init : State K := ⟨-1, 0, 0, none, [], []⟩

/-- Addition of `int`s; `none` is an overflow. -/
def addInt (a b : Int) : Option Int :=
  if -2 ^ 31 ≤ a + b ∧ a + b < 2 ^ 31 then some (a + b) else none

/-- Another bucket than the previous one begins. -/
def State.change (s : State K) (curBucket : Int) : State K :=
  match s.result with
  | none => { s with result := some ⟨curBucket, []⟩ }
  | some result =>
      { s with
        wordsStat := s.wordsStat ++ [⟨s.prevBucket, s.wordNum⟩]
        wordNum := 0
        printed := s.printed ++ [result]
        result := some ⟨curBucket, []⟩ }

/-- One turn of the loop; `none` is undefined behaviour. -/
def processLine (lexicalCastFloat : Text → Option K) (s : State K) (buf : Text) :
    Option (State K) :=
  let fields := (cString buf).splitOn '\t'
  if fields.length < 2 then some s
  else
    match lexicalCastInt (fields.getD 0 []) with
    | none => some s
    | some curBucket =>
        if 0 ≤ curBucket then
          if fields.length < 5 then some s
          else
            let s := if curBucket ≠ s.prevBucket then s.change curBucket else s
            (addInt s.wordNum 1).bind fun wordNum =>
              let s := { s with wordNum := wordNum }
              match lexicalCastInt64 (fields.getD 1 []), lexicalCastFloat (fields.getD 2 []) with
              | some picId, some q =>
                  s.result.map fun result =>
                    { s with
                      result := some
                        (result.addLine picId q (fields.getD 3 []) (fields.getD 4 []))
                      prevBucket := curBucket }
              | _, _ => some s
        else if curBucket = -2 then
          match lexicalCastInt (trim (fields.getD 1 [])) with
          | none => some s
          | some n => (addInt s.fileNum n).map fun fileNum => { s with fileNum := fileNum }
        else some s

def processLines (lexicalCastFloat : Text → Option K) : State K → List Text → Option (State K)
  | s, [] => some s
  | s, buf :: rest =>
      (processLine lexicalCastFloat s buf).bind fun s' => processLines lexicalCastFloat s' rest

/-- A row of the table: `ratio` is the argument of the logarithm. -/
structure Row where
  wordsId : Int
  count : Int
  ratio : Int
  deriving DecidableEq

/-- `none` is a division by zero. -/
def rows (fileNum : Int) : List IDFReduceResult → Option (List Row)
  | [] => some []
  | r :: rest =>
      if r.count = 0 then none
      else (rows fileNum rest).map fun table =>
        ⟨r.wordsId, r.count, fileNum.tdiv r.count⟩ :: table

structure Output (K : Type) where
  buckets : List (ReducerBucketResult K)
  table : List Row
  deriving DecidableEq

/-- The last bucket and the table. -/
def finish (s : State K) : Option (Output K) :=
  match s.result with
  | none => (rows s.fileNum s.wordsStat).map fun table => ⟨s.printed, table⟩
  | some result =>
      (rows s.fileNum (s.wordsStat ++ [⟨s.prevBucket, s.wordNum⟩])).map fun table =>
        ⟨s.printed ++ [result], table⟩

/-- What `fgets` stores, a part of a line or a whole one. -/
def pieces (stdin : Text) : List Text := fgetsAll (bufferSize - 1) stdin.length stdin

def main (lexicalCastFloat : Text → Option K) (stdin : Text) : Option (Output K) :=
  (processLines lexicalCastFloat .init (pieces stdin)).bind finish

/-! ## The contract -/

structure Line (K : Type) where
  bucket : Int
  picId : Int
  q : K
  words : Text × Text
  deriving DecidableEq

/-- What a line is. A `broken` one has a bucket and all fields, but a number that cannot be read. -/
inductive Kind (K : Type) where
  | line (l : Line K)
  | broken (bucket : Int)
  | files (n : Int)
  | other

/-- Lines with too few fields, without a readable bucket and with another negative one are
`other`. -/
def kind (lexicalCastFloat : Text → Option K) (buf : Text) : Kind K :=
  let fields := (cString buf).splitOn '\t'
  if fields.length < 2 then .other
  else
    match lexicalCastInt (fields.getD 0 []) with
    | none => .other
    | some bucket =>
        if 0 ≤ bucket then
          if fields.length < 5 then .other
          else
            match lexicalCastInt64 (fields.getD 1 []), lexicalCastFloat (fields.getD 2 []) with
            | some picId, some q =>
                .line ⟨bucket, picId, q, (fields.getD 3 [], fields.getD 4 [])⟩
            | _, _ => .broken bucket
        else if bucket = -2 then
          match lexicalCastInt (trim (fields.getD 1 [])) with
          | none => .other
          | some n => .files n
        else .other

def Kind.line? : Kind K → Option (Line K)
  | .line l => some l
  | _ => none

def Kind.IsBroken : Kind K → Prop
  | .broken _ => True
  | _ => False

/-- The well-formed ones of some lines. -/
def wellFormed (lexicalCastFloat : Text → Option K) (bufs : List Text) : List (Line K) :=
  bufs.filterMap fun buf => (kind lexicalCastFloat buf).line?

def ofBucket (bucket : Int) (lines : List (Line K)) : List (Line K) :=
  fiber Line.bucket bucket lines

/-- The lines of a text, each with its newline: as `fgets` reads them into a larger buffer than
the text. -/
def textLines (stdin : Text) : List Text :=
  fgetsAll (stdin.length + bufferSize) stdin.length stdin

def BOFIndexItem.key (item : BOFIndexItem K) : Int × K × Text × Text :=
  (item.picId.toNat, item.q, item.wordInfo)

def Line.key (l : Line K) : Int × K × Text × Text := (l.picId, l.q, l.words)

/-- Every bucket with well-formed lines is printed once, with these lines in order, and the table
has one row for each such bucket, with the number of its lines. -/
def Reduces (lexicalCastFloat : Text → Option K) (stdin : Text) : Prop :=
  ∃ out, main lexicalCastFloat stdin = some out ∧
    (∀ row ∈ out.table, row.count ≠ 0) ∧
    ∀ bucket,
      let lines := ofBucket bucket (wellFormed lexicalCastFloat (textLines stdin))
      (lines ≠ [] → (out.buckets.filter fun r => r.bucketId = bucket).map
        (fun r => r.items.map BOFIndexItem.key) = [lines.map Line.key]) ∧
      (out.table.filter fun row => row.wordsId = bucket).map Row.count =
        if lines = [] then [] else [(lines.length : Int)]

/-- The lines of a bucket stand together. -/
def Grouped (lines : List (Line K)) : Prop :=
  ((lines.map Line.bucket).destutter (· ≠ ·)).Nodup

instance (lines : List (Line K)) : Decidable (Grouped lines) :=
  inferInstanceAs (Decidable (List.Nodup _))

/-- The numbers of files add up without an overflow. -/
def FilesFit : Int → List (Kind K) → Prop
  | _, [] => True
  | fileNum, .files n :: rest =>
      (-2 ^ 31 ≤ fileNum + n ∧ fileNum + n < 2 ^ 31) ∧ FilesFit (fileNum + n) rest
  | fileNum, _ :: rest => FilesFit fileNum rest

/-- A line with its picture's id reduced to 32 bits. -/
def Line.stored (l : Line K) : Line K := { l with picId := l.picId % 2 ^ 32 }

/-- The pieces that `fgets` reads have no broken one, and they hold the same well-formed lines as
the text: no line is cut inside of its fields, and no picture's id exceeds 32 bits. -/
structure Clean (lexicalCastFloat : Text → Option K) (stdin : Text) : Prop where
  unbroken : ∀ buf ∈ pieces stdin, ¬ (kind lexicalCastFloat buf).IsBroken
  grouped : Grouped (wellFormed lexicalCastFloat (pieces stdin))
  same : ∀ bucket, (ofBucket bucket (wellFormed lexicalCastFloat (pieces stdin))).map Line.stored =
    ofBucket bucket (wellFormed lexicalCastFloat (textLines stdin))
  few : ∀ bucket, (ofBucket bucket (wellFormed lexicalCastFloat (pieces stdin))).length < 2 ^ 31
  files : FilesFit 0 ((pieces stdin).map (kind lexicalCastFloat))

/-! ## Lines as events -/

def State.enter (s : State K) (curBucket : Int) : State K :=
  if curBucket ≠ s.prevBucket then s.change curBucket else s

/-- What a line of some kind does. -/
def State.step (s : State K) : Kind K → Option (State K)
  | .other => some s
  | .files n => (addInt s.fileNum n).map fun fileNum => { s with fileNum := fileNum }
  | .broken bucket =>
      (addInt (s.enter bucket).wordNum 1).bind fun wordNum =>
        some { s.enter bucket with wordNum := wordNum }
  | .line l =>
      (addInt (s.enter l.bucket).wordNum 1).bind fun wordNum =>
        (s.enter l.bucket).result.map fun result =>
          { s.enter l.bucket with
            wordNum := wordNum
            result := some (result.addLine l.picId l.q l.words.1 l.words.2)
            prevBucket := l.bucket }

def State.run : State K → List (Kind K) → Option (State K)
  | s, [] => some s
  | s, k :: rest => (s.step k).bind fun s' => s'.run rest

theorem processLine_eq (lexicalCastFloat : Text → Option K) (s : State K) (buf : Text) :
    processLine lexicalCastFloat s buf = s.step (kind lexicalCastFloat buf) := by
  unfold processLine kind
  dsimp only
  split
  · rfl
  · split
    · rfl
    · split
      · split
        · rfl
        · generalize lexicalCastInt64 _ = picId
          generalize lexicalCastFloat _ = q
          cases picId with
          | none => rfl
          | some picId =>
              cases q with
              | none => rfl
              | some q => rfl
      · split
        · split <;> rfl
        · rfl

theorem processLines_eq (lexicalCastFloat : Text → Option K) (s : State K) (bufs : List Text) :
    processLines lexicalCastFloat s bufs = s.run (bufs.map (kind lexicalCastFloat)) := by
  induction bufs generalizing s with
  | nil => rfl
  | cons buf bufs ih =>
      rw [processLines, List.map_cons, State.run, processLine_eq]
      exact Option.bind_congr fun s' _ => ih s'

/-- The bucket of a line that is counted is not negative. -/
def Kind.Real : Kind K → Prop
  | .line l => 0 ≤ l.bucket
  | .broken bucket => 0 ≤ bucket
  | _ => True

theorem kind_real (lexicalCastFloat : Text → Option K) (buf : Text) :
    (kind lexicalCastFloat buf).Real := by
  unfold kind
  dsimp only
  split
  · trivial
  · split
    · trivial
    · split
      · next natural =>
          split
          · trivial
          · split
            · exact natural
            · exact natural
      · split
        · split
          · trivial
          · trivial
        · trivial

/-- Before the first bucket nothing is counted. -/
def State.Valid (s : State K) : Prop :=
  s.result = none → s.prevBucket = -1 ∧ s.wordNum = 0

theorem addInt_eq_some {a b c : Int} (added : addInt a b = some c) :
    c = a + b ∧ -2 ^ 31 ≤ c ∧ c < 2 ^ 31 := by
  unfold addInt at added
  split at added
  · next range =>
      obtain rfl := Option.some.inj added
      exact ⟨rfl, range⟩
  · cases added

theorem addInt_of_range {a b : Int} (range : -2 ^ 31 ≤ a + b ∧ a + b < 2 ^ 31) :
    addInt a b = some (a + b) := if_pos range

/-! ## What is counted and what is printed -/

/-- The number of lines that were added to a bucket. -/
def State.items (s : State K) : Nat :=
  (s.printed.map fun r => r.items.length).sum + s.result.elim 0 fun r => r.items.length

/-- The number of lines that were counted. -/
def State.counted (s : State K) : Int := (s.wordsStat.map IDFReduceResult.count).sum + s.wordNum

def Kind.breaks : Kind K → Nat
  | .broken _ => 1
  | _ => 0

variable {s s' : State K} {k : Kind K}

theorem enter_spec (valid : s.Valid) {bucket : Int} (natural : 0 ≤ bucket) :
    ∃ result, (s.enter bucket).result = some result ∧ (s.enter bucket).items = s.items ∧
      (s.enter bucket).counted = s.counted ∧ (s.enter bucket).fileNum = s.fileNum := by
  unfold State.enter
  split
  · unfold State.change
    split
    · next empty =>
        refine ⟨⟨bucket, []⟩, rfl, ?_, rfl, rfl⟩
        rw [State.items, State.items, empty]
        rfl
    · next result isOpen =>
        refine ⟨⟨bucket, []⟩, rfl, ?_, ?_, rfl⟩
        · rw [State.items, State.items, isOpen, List.map_append, List.sum_append]
          simp
        · rw [State.counted, State.counted, List.map_append, List.sum_append]
          simp
  · next same =>
      cases isOpen : s.result with
      | none =>
          have fresh := (valid isOpen).1
          omega
      | some result => exact ⟨result, rfl, rfl, rfl, rfl⟩

/-- A broken line is counted, but not added. -/
theorem step_totals (valid : s.Valid) (real : k.Real) (stepped : s.step k = some s') :
    s'.Valid ∧ s'.items = s.items + k.line?.toList.length ∧
      s'.counted = s.counted + k.line?.toList.length + k.breaks := by
  cases k with
  | other =>
      obtain rfl := Option.some.inj stepped
      exact ⟨valid, rfl, by simp [Kind.line?, Kind.breaks]⟩
  | files n =>
      obtain ⟨fileNum, -, rfl⟩ := Option.map_eq_some_iff.mp stepped
      exact ⟨valid, rfl, by simp [Kind.line?, Kind.breaks, State.counted]⟩
  | broken bucket =>
      obtain ⟨result, isOpen, items, counted, -⟩ := enter_spec valid real
      obtain ⟨wordNum, added, done⟩ := Option.bind_eq_some_iff.mp stepped
      obtain rfl := Option.some.inj done
      obtain ⟨rfl, -⟩ := addInt_eq_some added
      refine ⟨fun empty => ?_, items, ?_⟩
      · rw [isOpen] at empty
        cases empty
      · rw [← counted]
        simp [State.counted, Kind.line?, Kind.breaks, Int.add_assoc]
  | line l =>
      obtain ⟨result, isOpen, items, counted, -⟩ := enter_spec valid real
      obtain ⟨wordNum, added, done⟩ := Option.bind_eq_some_iff.mp stepped
      rw [isOpen] at done
      obtain rfl := Option.some.inj done
      obtain ⟨rfl, -⟩ := addInt_eq_some added
      refine ⟨nofun, ?_, ?_⟩
      · rw [← items]
        simp [State.items, isOpen, Kind.line?, ReducerBucketResult.addLine, Nat.add_assoc]
      · rw [← counted]
        simp [State.counted, Kind.line?, Kind.breaks, Int.add_assoc]

theorem run_totals {ks : List (Kind K)} (valid : s.Valid) (real : ∀ k ∈ ks, k.Real)
    (ran : s.run ks = some s') :
    s'.Valid ∧ s'.items = s.items + (ks.filterMap Kind.line?).length ∧
      s'.counted = s.counted + (ks.filterMap Kind.line?).length + (ks.map Kind.breaks).sum := by
  induction ks generalizing s with
  | nil =>
      obtain rfl := Option.some.inj ran
      exact ⟨valid, rfl, by simp⟩
  | cons k ks ih =>
      obtain ⟨next, stepped, ran⟩ := Option.bind_eq_some_iff.mp ran
      obtain ⟨valid, items, counted⟩ := step_totals valid (real k (List.mem_cons_self ..)) stepped
      obtain ⟨valid, items', counted'⟩ :=
        ih valid (fun k' member => real k' (List.mem_cons_of_mem _ member)) ran
      have lines : ((k :: ks).filterMap Kind.line?).length =
          k.line?.toList.length + (ks.filterMap Kind.line?).length := by
        rw [List.filterMap_cons]
        cases k.line? with
        | none => simp
        | some l => simp [Nat.add_comm]
      rw [List.map_cons, List.sum_cons, lines]
      exact ⟨valid, by omega, by omega⟩

theorem rows_eq_some {fileNum : Int} {stat : List IDFReduceResult} {table : List Row}
    (divided : rows fileNum stat = some table) :
    table = stat.map fun r => ⟨r.wordsId, r.count, fileNum.tdiv r.count⟩ := by
  induction stat generalizing table with
  | nil => exact (Option.some.inj divided).symm
  | cons r stat ih =>
      rw [rows] at divided
      split at divided
      · cases divided
      · obtain ⟨rest, later, rfl⟩ := Option.map_eq_some_iff.mp divided
        rw [ih later, List.map_cons]

theorem rows_of_positive (fileNum : Int) {stat : List IDFReduceResult}
    (positive : ∀ r ∈ stat, r.count ≠ 0) :
    rows fileNum stat =
      some (stat.map fun r => ⟨r.wordsId, r.count, fileNum.tdiv r.count⟩) := by
  induction stat with
  | nil => rfl
  | cons r stat ih =>
      rw [rows, if_neg (positive r (List.mem_cons_self ..)),
        ih fun r' member => positive r' (List.mem_cons_of_mem _ member)]
      rfl

/-- All buckets, with the last one. -/
def State.buckets (s : State K) : List (ReducerBucketResult K) := s.printed ++ s.result.toList

/-- All counts, with the last one. -/
def State.stat (s : State K) : List IDFReduceResult :=
  s.wordsStat ++ s.result.toList.map fun _ => ⟨s.prevBucket, s.wordNum⟩

theorem finish_eq (s : State K) :
    finish s = (rows s.fileNum s.stat).map fun table => ⟨s.buckets, table⟩ := by
  unfold finish State.stat State.buckets
  split
  · next empty => simp [empty]
  · next result isOpen => simp [isOpen]

theorem finish_totals {out : Output K} (valid : s.Valid) (done : finish s = some out) :
    (out.buckets.map fun r => r.items.length).sum = s.items ∧
      (out.table.map Row.count).sum = s.counted := by
  rw [finish_eq] at done
  obtain ⟨table, divided, rfl⟩ := Option.map_eq_some_iff.mp done
  obtain rfl := rows_eq_some divided
  rw [List.map_map]
  unfold State.items State.counted State.buckets State.stat
  cases isOpen : s.result with
  | none => simp [(valid isOpen).2, Function.comp_def]
  | some result => simp [Function.comp_def]

/-! ## Without broken lines -/

def Line.item (l : Line K) : BOFIndexItem K := ⟨BitVec.ofInt 32 l.picId, l.q, l.words⟩

/-- A group of lines as it is printed. -/
def toBucket (g : Int × List (Line K)) : ReducerBucketResult K := ⟨g.1, g.2.map Line.item⟩

/-- A group of lines as it is counted. -/
def toStat (g : Int × List (Line K)) : IDFReduceResult := ⟨g.1, g.2.length⟩

/-- The lines `front` of the bucket were read. -/
structure State.Holds (s : State K) (bucket : Int) (front : List (Line K)) : Prop where
  prev : s.prevBucket = bucket
  count : s.wordNum = front.length
  result : s.result = some (toBucket (bucket, front))

variable {bucket : Int} {front : List (Line K)} {l : Line K}

/-- Another line of the bucket. -/
theorem step_same (holds : s.Holds bucket front) (same : l.bucket = bucket)
    (stepped : s.step (.line l) = some s') :
    s'.Holds bucket (front ++ [l]) ∧ s'.printed = s.printed ∧ s'.wordsStat = s.wordsStat ∧
      s'.fileNum = s.fileNum ∧ (front ++ [l]).length < 2 ^ 31 := by
  have stays : s.enter l.bucket = s := if_neg (not_not.mpr (same.trans holds.prev.symm))
  rw [State.step, stays, holds.result] at stepped
  obtain ⟨wordNum, added, done⟩ := Option.bind_eq_some_iff.mp stepped
  obtain rfl := Option.some.inj done
  obtain ⟨rfl, -, small⟩ := addInt_eq_some added
  rw [holds.count] at small
  refine ⟨⟨same, ?_, ?_⟩, rfl, rfl, rfl, by rw [List.length_append, List.length_singleton]; omega⟩
  · simp [holds.count]
  · simp [toBucket, ReducerBucketResult.addLine, Line.item]

theorem step_same_isSome (holds : s.Holds bucket front) (same : l.bucket = bucket)
    (small : front.length + 1 < 2 ^ 31) : ∃ s', s.step (.line l) = some s' := by
  have stays : s.enter l.bucket = s := if_neg (not_not.mpr (same.trans holds.prev.symm))
  rw [State.step, stays, holds.result, holds.count, addInt_of_range (by omega)]
  exact ⟨_, rfl⟩

/-- The first line of another bucket. -/
theorem step_next (holds : s.Holds bucket front) (other : l.bucket ≠ bucket) :
    ∃ s', s.step (.line l) = some s' ∧ s'.Holds l.bucket [l] ∧
      s'.printed = s.printed ++ [toBucket (bucket, front)] ∧
      s'.wordsStat = s.wordsStat ++ [toStat (bucket, front)] ∧ s'.fileNum = s.fileNum := by
  have changes : s.enter l.bucket = { s with
      wordsStat := s.wordsStat ++ [toStat (bucket, front)]
      wordNum := 0
      printed := s.printed ++ [toBucket (bucket, front)]
      result := some ⟨l.bucket, []⟩ } := by
    rw [State.enter, if_pos (fun same => other (same.trans holds.prev)), State.change]
    split
    · next empty =>
        rw [holds.result] at empty
        cases empty
    · next result isOpen =>
        rw [holds.result] at isOpen
        obtain rfl := Option.some.inj isOpen
        rw [holds.prev, holds.count]
        rfl
  refine ⟨{ s with
    prevBucket := l.bucket
    wordNum := 1
    result := some (toBucket (l.bucket, [l]))
    wordsStat := s.wordsStat ++ [toStat (bucket, front)]
    printed := s.printed ++ [toBucket (bucket, front)] }, ?_, ⟨rfl, rfl, rfl⟩, rfl, rfl, rfl⟩
  rw [State.step, changes]
  rfl

/-- The first line of all. -/
theorem step_first (fresh : s.result = none) (prev : s.prevBucket = -1) (count : s.wordNum = 0)
    (natural : 0 ≤ l.bucket) :
    ∃ s', s.step (.line l) = some s' ∧ s'.Holds l.bucket [l] ∧ s'.printed = s.printed ∧
      s'.wordsStat = s.wordsStat ∧ s'.fileNum = s.fileNum := by
  have opens : s.enter l.bucket = { s with result := some ⟨l.bucket, []⟩ } := by
    rw [State.enter, if_pos (by omega), State.change]
    split
    · rfl
    · next result isOpen =>
        rw [fresh] at isOpen
        cases isOpen
  refine ⟨{ s with
    prevBucket := l.bucket
    wordNum := 1
    result := some (toBucket (l.bucket, [l])) }, ?_, ⟨rfl, rfl, rfl⟩, rfl, rfl, rfl⟩
  rw [State.step, opens, count]
  rfl

theorem step_files {n : Int} (stepped : s.step (.files n) = some s') :
    s' = { s with fileNum := s.fileNum + n } ∧ -2 ^ 31 ≤ s.fileNum + n ∧
      s.fileNum + n < 2 ^ 31 := by
  obtain ⟨fileNum, added, rfl⟩ := Option.map_eq_some_iff.mp stepped
  obtain ⟨rfl, range⟩ := addInt_eq_some added
  exact ⟨rfl, range⟩

theorem lines_cons (l : Line K) (ks : List (Kind K)) :
    (Kind.line l :: ks).filterMap Kind.line? = l :: ks.filterMap Kind.line? := rfl

/-- From inside of a bucket on, the groups of lines are printed and counted, and each one has
fewer than `2 ^ 31` lines. -/
theorem run_groupsFrom {ks : List (Kind K)} (unbroken : ∀ k ∈ ks, ¬ k.IsBroken)
    (holds : s.Holds bucket front) (small : front.length < 2 ^ 31) (ran : s.run ks = some s') :
    s'.buckets = s.printed ++
        (groupsFrom Line.bucket bucket front (ks.filterMap Kind.line?)).map toBucket ∧
      s'.stat = s.wordsStat ++
        (groupsFrom Line.bucket bucket front (ks.filterMap Kind.line?)).map toStat ∧
      ∀ g ∈ groupsFrom Line.bucket bucket front (ks.filterMap Kind.line?),
        g.2.length < 2 ^ 31 := by
  induction ks generalizing s bucket front with
  | nil =>
      obtain rfl := Option.some.inj ran
      refine ⟨?_, ?_, fun g member => ?_⟩
      · simp [State.buckets, holds.result, groupsFrom]
      · simp [State.stat, holds.result, holds.prev, holds.count, groupsFrom, toStat]
      · obtain rfl := List.mem_singleton.mp member
        exact small
  | cons k ks ih =>
      obtain ⟨next, stepped, rest⟩ := Option.bind_eq_some_iff.mp ran
      have later : ∀ k ∈ ks, ¬ k.IsBroken :=
        fun k' member => unbroken k' (List.mem_cons_of_mem _ member)
      cases k with
      | other =>
          obtain rfl := Option.some.inj stepped
          exact ih later holds small rest
      | files n =>
          obtain ⟨rfl, -⟩ := step_files stepped
          have kept : State.Holds { s with fileNum := s.fileNum + n } bucket front :=
            ⟨holds.prev, holds.count, holds.result⟩
          exact ih (s := { s with fileNum := s.fileNum + n }) later kept small rest
      | broken b => exact absurd trivial (unbroken _ (List.mem_cons_self ..))
      | line l =>
          rw [lines_cons, groupsFrom]
          by_cases same : l.bucket = bucket
          · obtain ⟨holds, printed, stat, -, small⟩ := step_same holds same stepped
            rw [if_pos same, ← printed, ← stat]
            exact ih later holds small rest
          · obtain ⟨next', stepped', holds, printed, stat, -⟩ := step_next holds same
            obtain rfl := Option.some.inj (stepped.symm.trans stepped')
            obtain ⟨printed', stat', few⟩ := ih later holds (by simp) rest
            rw [if_neg same, printed', stat', printed, stat]
            refine ⟨by simp, by simp, fun g member => ?_⟩
            rcases List.mem_cons.mp member with rfl | later'
            · exact small
            · exact few g later'

/-- Before the first line. -/
structure State.Fresh (s : State K) : Prop where
  result : s.result = none
  prev : s.prevBucket = -1
  count : s.wordNum = 0
  printed : s.printed = []
  stat : s.wordsStat = []

theorem run_groups {ks : List (Kind K)} (unbroken : ∀ k ∈ ks, ¬ k.IsBroken)
    (real : ∀ k ∈ ks, k.Real) (fresh : s.Fresh) (ran : s.run ks = some s') :
    s'.buckets = (groups Line.bucket (ks.filterMap Kind.line?)).map toBucket ∧
      s'.stat = (groups Line.bucket (ks.filterMap Kind.line?)).map toStat ∧
      ∀ g ∈ groups Line.bucket (ks.filterMap Kind.line?), g.2.length < 2 ^ 31 := by
  induction ks generalizing s with
  | nil =>
      obtain rfl := Option.some.inj ran
      refine ⟨?_, ?_, nofun⟩
      · simp [State.buckets, fresh.result, fresh.printed, groups]
      · simp [State.stat, fresh.result, fresh.stat, groups]
  | cons k ks ih =>
      obtain ⟨next, stepped, rest⟩ := Option.bind_eq_some_iff.mp ran
      have later : ∀ k ∈ ks, ¬ k.IsBroken :=
        fun k' member => unbroken k' (List.mem_cons_of_mem _ member)
      have realLater : ∀ k ∈ ks, k.Real :=
        fun k' member => real k' (List.mem_cons_of_mem _ member)
      cases k with
      | other =>
          obtain rfl := Option.some.inj stepped
          exact ih later realLater fresh rest
      | files n =>
          obtain ⟨rfl, -⟩ := step_files stepped
          have kept : State.Fresh { s with fileNum := s.fileNum + n } :=
            ⟨fresh.result, fresh.prev, fresh.count, fresh.printed, fresh.stat⟩
          exact ih later realLater kept rest
      | broken b => exact absurd trivial (unbroken _ (List.mem_cons_self ..))
      | line l =>
          obtain ⟨next', stepped', holds, printed, stat, -⟩ :=
            step_first fresh.result fresh.prev fresh.count (real _ (List.mem_cons_self ..))
          obtain rfl := Option.some.inj (stepped.symm.trans stepped')
          obtain ⟨printed', stat', few⟩ := run_groupsFrom later holds (by simp) rest
          rw [printed, fresh.printed, List.nil_append] at printed'
          rw [stat, fresh.stat, List.nil_append] at stat'
          exact ⟨printed', stat', few⟩

theorem run_files {ks : List (Kind K)} (valid : s.Valid) (real : ∀ k ∈ ks, k.Real)
    (ran : s.run ks = some s') : FilesFit s.fileNum ks := by
  induction ks generalizing s with
  | nil => trivial
  | cons k ks ih =>
      obtain ⟨next, stepped, rest⟩ := Option.bind_eq_some_iff.mp ran
      have realLater : ∀ k ∈ ks, k.Real :=
        fun k' member => real k' (List.mem_cons_of_mem _ member)
      have realHere := real k (List.mem_cons_self ..)
      have validNext := (step_totals valid realHere stepped).1
      cases k with
      | other =>
          obtain rfl := Option.some.inj stepped
          exact ih valid realLater rest
      | files n =>
          obtain ⟨rfl, range⟩ := step_files stepped
          exact ⟨range, ih validNext realLater rest⟩
      | broken b =>
          have fileNum := (enter_spec valid realHere).choose_spec.2.2.2
          obtain ⟨wordNum, -, done⟩ := Option.bind_eq_some_iff.mp stepped
          obtain rfl := Option.some.inj done
          have fits := ih validNext realLater rest
          rwa [fileNum] at fits
      | line l =>
          obtain ⟨result, isOpen, -, -, fileNum⟩ := enter_spec valid realHere
          obtain ⟨wordNum, -, done⟩ := Option.bind_eq_some_iff.mp stepped
          rw [isOpen] at done
          obtain rfl := Option.some.inj done
          have fits := ih validNext realLater rest
          rwa [fileNum] at fits

theorem length_ofBucket_cons (c : Int) (l : Line K) (ks : List (Kind K)) :
    (ofBucket c ((Kind.line l :: ks).filterMap Kind.line?)).length =
      (if l.bucket = c then 1 else 0) + (ofBucket c (ks.filterMap Kind.line?)).length := by
  rw [lines_cons, ofBucket, fiber_cons, ofBucket]
  split
  · rw [List.length_cons, Nat.add_comm]
  · rw [Nat.zero_add]

theorem run_isSome_from {ks : List (Kind K)} (unbroken : ∀ k ∈ ks, ¬ k.IsBroken)
    (holds : s.Holds bucket front) (files : FilesFit s.fileNum ks)
    (few : ∀ c, (if bucket = c then front.length else 0) +
      (ofBucket c (ks.filterMap Kind.line?)).length < 2 ^ 31) : ∃ s', s.run ks = some s' := by
  induction ks generalizing s bucket front with
  | nil => exact ⟨s, rfl⟩
  | cons k ks ih =>
      have later : ∀ k ∈ ks, ¬ k.IsBroken :=
        fun k' member => unbroken k' (List.mem_cons_of_mem _ member)
      cases k with
      | other => exact ih later holds files few
      | files n =>
          have kept : State.Holds { s with fileNum := s.fileNum + n } bucket front :=
            ⟨holds.prev, holds.count, holds.result⟩
          obtain ⟨s', ran⟩ := ih later kept files.2 few
          refine ⟨s', ?_⟩
          rw [State.run, State.step, addInt_of_range files.1]
          exact ran
      | broken b => exact absurd trivial (unbroken _ (List.mem_cons_self ..))
      | line l =>
          by_cases same : l.bucket = bucket
          · have here := few bucket
            rw [length_ofBucket_cons, if_pos rfl, if_pos same] at here
            obtain ⟨next, stepped⟩ := step_same_isSome holds same (by omega)
            obtain ⟨holds, -, -, fileNum, -⟩ := step_same holds same stepped
            have room : ∀ c, (if bucket = c then (front ++ [l]).length else 0) +
                (ofBucket c (ks.filterMap Kind.line?)).length < 2 ^ 31 := by
              intro c
              have bound := few c
              rw [length_ofBucket_cons, same] at bound
              by_cases isKey : bucket = c
              · rw [if_pos isKey, if_pos isKey] at bound
                rw [if_pos isKey, List.length_append, List.length_singleton]
                omega
              · rw [if_neg isKey, if_neg isKey] at bound
                rw [if_neg isKey]
                omega
            obtain ⟨s', ran⟩ := ih later holds (by rw [fileNum]; exact files) room
            exact ⟨s', by rw [State.run, stepped]; exact ran⟩
          · obtain ⟨next, stepped, holds, -, -, fileNum⟩ := step_next holds same
            have room : ∀ c, (if l.bucket = c then [l].length else 0) +
                (ofBucket c (ks.filterMap Kind.line?)).length < 2 ^ 31 := by
              intro c
              have bound := few c
              rw [length_ofBucket_cons] at bound
              rw [List.length_singleton]
              omega
            obtain ⟨s', ran⟩ := ih later holds (by rw [fileNum]; exact files) room
            exact ⟨s', by rw [State.run, stepped]; exact ran⟩

theorem run_isSome {ks : List (Kind K)} (unbroken : ∀ k ∈ ks, ¬ k.IsBroken)
    (real : ∀ k ∈ ks, k.Real) (fresh : s.Fresh) (files : FilesFit s.fileNum ks)
    (few : ∀ c, (ofBucket c (ks.filterMap Kind.line?)).length < 2 ^ 31) :
    ∃ s', s.run ks = some s' := by
  induction ks generalizing s with
  | nil => exact ⟨s, rfl⟩
  | cons k ks ih =>
      have later : ∀ k ∈ ks, ¬ k.IsBroken :=
        fun k' member => unbroken k' (List.mem_cons_of_mem _ member)
      have realLater : ∀ k ∈ ks, k.Real :=
        fun k' member => real k' (List.mem_cons_of_mem _ member)
      cases k with
      | other => exact ih later realLater fresh files few
      | files n =>
          have kept : State.Fresh { s with fileNum := s.fileNum + n } :=
            ⟨fresh.result, fresh.prev, fresh.count, fresh.printed, fresh.stat⟩
          obtain ⟨s', ran⟩ := ih later realLater kept files.2 few
          refine ⟨s', ?_⟩
          rw [State.run, State.step, addInt_of_range files.1]
          exact ran
      | broken b => exact absurd trivial (unbroken _ (List.mem_cons_self ..))
      | line l =>
          obtain ⟨next, stepped, holds, -, -, fileNum⟩ :=
            step_first fresh.result fresh.prev fresh.count (real _ (List.mem_cons_self ..))
          have room : ∀ c, (if l.bucket = c then [l].length else 0) +
              (ofBucket c (ks.filterMap Kind.line?)).length < 2 ^ 31 := by
            intro c
            have bound := few c
            rw [length_ofBucket_cons] at bound
            exact bound
          obtain ⟨s', ran⟩ := run_isSome_from later holds (by rw [fileNum]; exact files) room
          exact ⟨s', by rw [State.run, stepped]; exact ran⟩

/-! ## The output -/

/-- The output for well-formed lines that are read as they are. -/
def outputOf (fileNum : Int) (lines : List (Line K)) : Output K where
  buckets := (groups Line.bucket lines).map toBucket
  table := (groups Line.bucket lines).map fun g => ⟨g.1, g.2.length, fileNum.tdiv g.2.length⟩

theorem State.init_fresh : (State.init : State K).Fresh := ⟨rfl, rfl, rfl, rfl, rfl⟩

theorem State.init_valid : (State.init : State K).Valid := fun _ => ⟨rfl, rfl⟩

variable {lexicalCastFloat : Text → Option K} {stdin : Text} {out : Output K}

theorem wellFormed_eq (bufs : List Text) :
    wellFormed lexicalCastFloat bufs =
      (bufs.map (kind lexicalCastFloat)).filterMap Kind.line? := by
  rw [List.filterMap_map]
  rfl

theorem real_of_mem {bufs : List Text} : ∀ k ∈ bufs.map (kind lexicalCastFloat), k.Real := by
  intro k member
  obtain ⟨buf, -, rfl⟩ := List.mem_map.mp member
  exact kind_real lexicalCastFloat buf

theorem main_eq_some (done : main lexicalCastFloat stdin = some out) :
    ∃ s, State.init.run ((pieces stdin).map (kind lexicalCastFloat)) = some s ∧
      finish s = some out := by
  rw [main, processLines_eq] at done
  exact Option.bind_eq_some_iff.mp done

/-- The counts of the table sum up to all lines, the broken ones too; the printed lines do not. -/
theorem main_totals (done : main lexicalCastFloat stdin = some out) :
    (out.buckets.map fun r => r.items.length).sum =
        (wellFormed lexicalCastFloat (pieces stdin)).length ∧
      (out.table.map Row.count).sum = (wellFormed lexicalCastFloat (pieces stdin)).length +
        (((pieces stdin).map (kind lexicalCastFloat)).map Kind.breaks).sum := by
  obtain ⟨s, ran, finished⟩ := main_eq_some done
  obtain ⟨valid, items, counted⟩ := run_totals State.init_valid real_of_mem ran
  obtain ⟨buckets, table⟩ := finish_totals valid finished
  rw [buckets, table, items, counted, wellFormed_eq]
  simp [State.init, State.items, State.counted]

/-- Without broken lines, the groups of well-formed lines are printed. -/
theorem main_of_unbroken
    (unbroken : ∀ k ∈ (pieces stdin).map (kind lexicalCastFloat), ¬ k.IsBroken)
    (done : main lexicalCastFloat stdin = some out) :
    (∃ fileNum, out = outputOf fileNum (wellFormed lexicalCastFloat (pieces stdin))) ∧
      ∀ g ∈ groups Line.bucket (wellFormed lexicalCastFloat (pieces stdin)),
        g.2.length < 2 ^ 31 := by
  obtain ⟨s, ran, finished⟩ := main_eq_some done
  obtain ⟨buckets, stat, few⟩ := run_groups unbroken real_of_mem State.init_fresh ran
  rw [finish_eq] at finished
  obtain ⟨table, divided, rfl⟩ := Option.map_eq_some_iff.mp finished
  obtain rfl := rows_eq_some divided
  rw [wellFormed_eq]
  refine ⟨⟨s.fileNum, ?_⟩, few⟩
  rw [buckets, stat, List.map_map]
  rfl

theorem main_isSome (clean : Clean lexicalCastFloat stdin) :
    ∃ out, main lexicalCastFloat stdin = some out := by
  have unbroken : ∀ k ∈ (pieces stdin).map (kind lexicalCastFloat), ¬ k.IsBroken := by
    intro k member
    obtain ⟨buf, isPiece, rfl⟩ := List.mem_map.mp member
    exact clean.unbroken buf isPiece
  have few := clean.few
  simp only [wellFormed_eq] at few
  obtain ⟨s, ran⟩ := run_isSome unbroken real_of_mem State.init_fresh clean.files few
  obtain ⟨-, stat, -⟩ := run_groups unbroken real_of_mem State.init_fresh ran
  have positive : ∀ r ∈ s.stat, r.count ≠ 0 := by
    intro r member
    rw [stat] at member
    obtain ⟨g, isGroup, rfl⟩ := List.mem_map.mp member
    have some' := List.length_pos_of_ne_nil (ne_nil_of_mem_groups isGroup)
    exact Int.natCast_ne_zero.mpr (Nat.ne_of_gt some')
  rw [main, processLines_eq, ran, Option.bind_some, finish_eq, rows_of_positive _ positive]
  exact ⟨_, rfl⟩

theorem outputOf_buckets (fileNum : Int) (lines : List (Line K)) (c : Int) :
    ((outputOf fileNum lines).buckets.filter fun r => r.bucketId = c).map
        (fun r => r.items.map BOFIndexItem.key) =
      ((groups Line.bucket lines).filter fun g => g.1 = c).map
        fun g => (g.2.map Line.stored).map Line.key := by
  have key : BOFIndexItem.key ∘ Line.item = Line.key ∘ Line.stored (K := K) := by
    funext l
    have reduced : ((BitVec.ofInt 32 l.picId).toNat : Int) = l.picId % 2 ^ 32 := by
      rw [BitVec.toNat_ofInt, Int.toNat_of_nonneg (Int.emod_nonneg _ (by decide))]
      rfl
    simp only [Function.comp_apply, BOFIndexItem.key, Line.item, Line.key, Line.stored, reduced]
  rw [outputOf, List.filter_map, List.map_map]
  refine List.map_congr_left fun g _ => ?_
  simp only [Function.comp_apply, toBucket, List.map_map, key]

theorem outputOf_table (fileNum : Int) (lines : List (Line K)) (c : Int) :
    ((outputOf fileNum lines).table.filter fun row => row.wordsId = c).map Row.count =
      ((groups Line.bucket lines).filter fun g => g.1 = c).map fun g => (g.2.length : Int) := by
  rw [outputOf, List.filter_map, List.map_map]
  rfl

theorem filter_grouped {lines : List (Line K)} (grouped : Grouped lines) (c : Int) :
    ((groups Line.bucket lines).filter fun g => g.1 = c) =
      if ofBucket c lines = [] then [] else [(c, ofBucket c lines)] :=
  filter_groups grouped c

theorem reduces_of_clean (clean : Clean lexicalCastFloat stdin) :
    Reduces lexicalCastFloat stdin := by
  obtain ⟨out, done⟩ := main_isSome clean
  have unbroken : ∀ k ∈ (pieces stdin).map (kind lexicalCastFloat), ¬ k.IsBroken := by
    intro k member
    obtain ⟨buf, isPiece, rfl⟩ := List.mem_map.mp member
    exact clean.unbroken buf isPiece
  obtain ⟨⟨fileNum, rfl⟩, -⟩ := main_of_unbroken unbroken done
  refine ⟨_, done, fun row member => ?_, fun bucket => ?_⟩
  · obtain ⟨g, isGroup, rfl⟩ := List.mem_map.mp member
    have some' := List.length_pos_of_ne_nil (ne_nil_of_mem_groups isGroup)
    exact Int.natCast_ne_zero.mpr (Nat.ne_of_gt some')
  · have same := clean.same bucket
    have one := filter_grouped clean.grouped bucket
    dsimp only
    rw [outputOf_buckets, outputOf_table, one, ← same]
    by_cases none' : ofBucket bucket (wellFormed lexicalCastFloat (pieces stdin)) = []
    · rw [none']
      exact ⟨fun some' => absurd rfl some', rfl⟩
    · rw [if_neg none', if_neg (mt List.map_eq_nil_iff.mp none'), List.length_map]
      exact ⟨fun _ => rfl, rfl⟩

theorem length_eq_sum {lines : List (Line K)} {keys : Finset Int}
    (covers : ∀ l ∈ lines, l.bucket ∈ keys) :
    lines.length = ∑ b ∈ keys, (ofBucket b lines).length := by
  have sum := sum_fibers (fun _ => 1) covers
  simp only [List.map_const', List.sum_replicate, smul_eq_mul, Nat.mul_one] at sum
  exact sum

/-- The counts of a right table sum up to the number of lines. -/
theorem table_total {lines : List (Line K)} {table : List Row}
    (right : ∀ bucket, (table.filter fun row => row.wordsId = bucket).map Row.count =
      if ofBucket bucket lines = [] then [] else [((ofBucket bucket lines).length : Int)]) :
    (table.map Row.count).sum = lines.length := by
  let keys : Finset Int := (lines.map Line.bucket ++ table.map Row.wordsId).toFinset
  have rowKeys : ∀ row ∈ table, row.wordsId ∈ keys := fun row member =>
    List.mem_toFinset.mpr (List.mem_append_right _ (List.mem_map_of_mem member))
  have lineKeys : ∀ l ∈ lines, l.bucket ∈ keys := fun l member =>
    List.mem_toFinset.mpr (List.mem_append_left _ (List.mem_map_of_mem member))
  rw [sum_fibers Row.count rowKeys, length_eq_sum lineKeys, Nat.cast_sum]
  refine Finset.sum_congr rfl fun bucket _ => ?_
  rw [right bucket]
  split
  · next empty => rw [empty]; rfl
  · exact List.sum_singleton

/-- If the buckets with lines are printed, all lines are. -/
theorem buckets_total {lines : List (Line K)} {buckets : List (ReducerBucketResult K)}
    (right : ∀ bucket, ofBucket bucket lines ≠ [] →
      (buckets.filter fun r => r.bucketId = bucket).map (fun r => r.items.map BOFIndexItem.key) =
        [(ofBucket bucket lines).map Line.key]) :
    lines.length ≤ (buckets.map fun r => r.items.length).sum := by
  let keys : Finset Int :=
    (lines.map Line.bucket ++ buckets.map ReducerBucketResult.bucketId).toFinset
  have bucketKeys : ∀ r ∈ buckets, r.bucketId ∈ keys := fun r member =>
    List.mem_toFinset.mpr (List.mem_append_right _ (List.mem_map_of_mem member))
  have lineKeys : ∀ l ∈ lines, l.bucket ∈ keys := fun l member =>
    List.mem_toFinset.mpr (List.mem_append_left _ (List.mem_map_of_mem member))
  rw [sum_fibers (fun r => r.items.length) bucketKeys, length_eq_sum lineKeys]
  refine Finset.sum_le_sum fun bucket _ => ?_
  by_cases empty : ofBucket bucket lines = []
  · rw [empty]
    exact Nat.zero_le _
  · have lengths := congrArg (List.map List.length) (right bucket empty)
    simp only [List.map_map, List.map_cons, List.map_nil, List.length_map, Function.comp_def]
      at lengths
    rw [lengths, List.sum_singleton]

theorem Kind.not_isBroken {k : Kind K} (none' : k.breaks = 0) : ¬ k.IsBroken := by
  cases k with
  | broken bucket => cases none'
  | line l => exact id
  | files n => exact id
  | other => exact id

/-- Nothing broken was counted, for the table has only the counts of well-formed lines. -/
theorem unbroken_of_reduces (reduces : Reduces lexicalCastFloat stdin) :
    ∀ k ∈ (pieces stdin).map (kind lexicalCastFloat), ¬ k.IsBroken := by
  obtain ⟨out, done, -, right⟩ := reduces
  obtain ⟨printed, counted⟩ := main_totals done
  have table := table_total fun bucket => (right bucket).2
  have buckets := buckets_total fun bucket => (right bucket).1
  have none' : (((pieces stdin).map (kind lexicalCastFloat)).map Kind.breaks).sum = 0 := by omega
  intro k member
  exact Kind.not_isBroken (List.sum_eq_zero_iff.mp none' _ (List.mem_map_of_mem member))

/-- A list with at most one element of each key has no key twice. -/
theorem nodup_of_filter {β : Type} {id : β → Int} {xs : List β}
    (few : ∀ c, (xs.filter fun x => id x = c).length ≤ 1) : (xs.map id).Nodup := by
  refine List.nodup_iff_count_le_one.mpr fun c => ?_
  rw [List.count_eq_length_filter, List.filter_map, List.length_map]
  exact few c

/-- The lines of a bucket are known by their keys. -/
theorem eq_of_keys {xs ys : List (Line K)} (inX : ∀ l ∈ xs, l.bucket = bucket)
    (inY : ∀ l ∈ ys, l.bucket = bucket) (same : xs.map Line.key = ys.map Line.key) : xs = ys := by
  have whole : ∀ zs : List (Line K), (∀ l ∈ zs, l.bucket = bucket) →
      zs = (zs.map Line.key).map fun key => ⟨bucket, key.1, key.2.1, key.2.2⟩ := by
    intro zs inZ
    rw [List.map_map]
    refine (List.map_id zs).symm.trans (List.map_congr_left fun l member => ?_)
    rw [Function.comp_apply, ← inZ l member]
    rfl
  rw [whole xs inX, same, ← whole ys inY]

theorem bucket_of_mem {lines : List (Line K)} {l : Line K} (member : l ∈ ofBucket bucket lines) :
    l.bucket = bucket :=
  of_decide_eq_true (List.mem_filter.mp member).2

theorem clean_of_reduces (reduces : Reduces lexicalCastFloat stdin) :
    Clean lexicalCastFloat stdin := by
  have unbroken := unbroken_of_reduces reduces
  obtain ⟨out, done, -, right⟩ := reduces
  obtain ⟨⟨fileNum, rfl⟩, few⟩ := main_of_unbroken unbroken done
  have files : FilesFit 0 ((pieces stdin).map (kind lexicalCastFloat)) := by
    obtain ⟨s, ran, -⟩ := main_eq_some done
    exact run_files State.init_valid real_of_mem ran
  have grouped : Grouped (wellFormed lexicalCastFloat (pieces stdin)) := by
    rw [Grouped, ← ids_groups]
    refine nodup_of_filter fun c => ?_
    have rows := congrArg List.length (right c).2
    rw [outputOf_table, List.length_map] at rows
    rw [rows]
    split
    · exact Nat.zero_le 1
    · exact Nat.le_refl 1
  refine ⟨fun buf member => unbroken _ (List.mem_map_of_mem member), grouped, fun bucket => ?_,
    fun bucket => ?_, files⟩
  · obtain ⟨printed, counted⟩ := right bucket
    have one := filter_grouped grouped bucket
    rw [outputOf_buckets, one] at printed
    rw [outputOf_table, one] at counted
    by_cases none' : ofBucket bucket (wellFormed lexicalCastFloat (pieces stdin)) = []
    · rw [if_pos none'] at counted
      split at counted
      · next empty => rw [none', empty, List.map_nil]
      · cases counted
    · rw [if_neg none'] at counted printed
      split at counted
      · cases counted
      · next some' =>
          have keys := (List.cons.inj (printed some')).1
          refine eq_of_keys (fun l stored => ?_) (fun l member => bucket_of_mem member) keys
          obtain ⟨l', member, rfl⟩ := List.mem_map.mp stored
          exact bucket_of_mem (l := l') member
  · have one := filter_grouped grouped bucket
    by_cases none' : ofBucket bucket (wellFormed lexicalCastFloat (pieces stdin)) = []
    · rw [none', List.length_nil]
      decide
    · rw [if_neg none'] at one
      have isGroup := List.mem_of_mem_filter (one ▸ List.mem_singleton_self _)
      exact few _ isGroup

/-! ## Lines that fit the buffer -/

theorem readLine_of_fits {n m : Nat} {text : Text} (le : n ≤ m)
    (fits : (readLine m text).1.length ≤ n) : readLine n text = readLine m text := by
  induction n generalizing m text with
  | zero =>
      cases m with
      | zero => rfl
      | succ m =>
          cases text with
          | nil => rfl
          | cons c text =>
              rw [readLine] at fits
              split at fits
              · cases fits
              · cases fits
  | succ n ih =>
      obtain ⟨m, rfl⟩ : ∃ k, m = k + 1 := ⟨m - 1, by omega⟩
      cases text with
      | nil => rfl
      | cons c text =>
          rw [readLine] at fits ⊢
          rw [readLine]
          split at fits
          · next newline => rw [if_pos newline, if_pos newline]
          · next inside =>
              have rest := ih (Nat.le_of_succ_le_succ le) (Nat.le_of_succ_le_succ fits)
              rw [if_neg inside, if_neg inside, rest]

theorem fgetsAll_of_fits {n m fuel : Nat} {text : Text} (le : n ≤ m)
    (fits : ∀ line ∈ fgetsAll m fuel text, line.length ≤ n - 1) :
    fgetsAll n fuel text = fgetsAll m fuel text := by
  induction fuel generalizing text with
  | zero => rfl
  | succ fuel ih =>
      rw [fgetsAll, fgetsAll, fgets, fgets] at *
      by_cases done : text = []
      · rw [if_pos done, if_pos done]
      · rw [if_neg done] at fits ⊢
        rw [if_neg done]
        dsimp only at fits ⊢
        rw [readLine_of_fits (Nat.sub_le_sub_right le 1) (fits _ (List.mem_cons_self ..))]
        rw [ih fun line member => fits line (List.mem_cons_of_mem _ member)]

/-- The buffer does not show if no line is longer than 8190 characters. -/
theorem pieces_of_short (short : ∀ line ∈ textLines stdin, line.length ≤ bufferSize - 2) :
    pieces stdin = textLines stdin :=
  fgetsAll_of_fits (Nat.le_trans (Nat.sub_le _ 1) (Nat.le_add_left _ _)) short

theorem stored_of_range {l : Line K} (range : 0 ≤ l.picId ∧ l.picId < 2 ^ 32) : l.stored = l := by
  rw [Line.stored, Int.emod_eq_of_lt range.1 range.2]

/-- For grouped lines that fit the buffer, with picture ids of 32 bits, only the numbers
matter. -/
theorem clean_iff_of_short (short : ∀ line ∈ textLines stdin, line.length ≤ bufferSize - 2)
    (grouped : Grouped (wellFormed lexicalCastFloat (textLines stdin)))
    (ids : ∀ l ∈ wellFormed lexicalCastFloat (textLines stdin),
      0 ≤ l.picId ∧ l.picId < 2 ^ 32) :
    Clean lexicalCastFloat stdin ↔
      (∀ line ∈ textLines stdin, ¬ (kind lexicalCastFloat line).IsBroken) ∧
        (∀ bucket,
          (ofBucket bucket (wellFormed lexicalCastFloat (textLines stdin))).length < 2 ^ 31) ∧
        FilesFit 0 ((textLines stdin).map (kind lexicalCastFloat)) := by
  have same := pieces_of_short short
  constructor
  · rintro ⟨unbroken, -, -, few, files⟩
    rw [same] at unbroken few files
    exact ⟨unbroken, few, files⟩
  · rintro ⟨unbroken, few, files⟩
    rw [← same] at unbroken grouped few files
    refine ⟨unbroken, grouped, fun bucket => ?_, few, files⟩
    rw [same]
    refine (List.map_congr_left fun l member => ?_).trans (List.map_id _)
    exact stored_of_range (ids l (List.mem_of_mem_filter member))

/--
Buckets collected from any text: each bucket with well-formed lines is printed
once with these lines, and has one row with their number, if and only if no line
with a bucket and five fields has a number that cannot be read, and the lines come
through the buffer and the 32 bits of a picture's id as they are.
-/
theorem reduces_iff_clean (lexicalCastFloat : Text → Option K) (stdin : Text) :
    Reduces lexicalCastFloat stdin ↔ Clean lexicalCastFloat stdin :=
  ⟨clean_of_reduces, reduces_of_clean⟩

/-- A reader for weights of one digit. -/
def digitFloat : Text → Option Nat
  | [c] => if c.isDigit then some c.toNat else none
  | _ => none

/-- The weight of the first line cannot be read: its bucket is printed twice, and a row names
the bucket -1. -/
theorem not_reduces_broken_first :
    let stdin := "1\t7\tx\ta\tb\n1\t7\t2\ta\tb\n".toList
    Grouped (wellFormed digitFloat (textLines stdin)) ∧
      main digitFloat stdin = some
        ⟨[⟨1, []⟩, ⟨1, [⟨7, 50, (['a'], ['b', '\n'])⟩]⟩], [⟨-1, 1, 0⟩, ⟨1, 1, 0⟩]⟩ ∧
      ¬ Reduces digitFloat stdin := by
  have out : main digitFloat "1\t7\tx\ta\tb\n1\t7\t2\ta\tb\n".toList = some
      ⟨[⟨1, []⟩, ⟨1, [⟨7, 50, (['a'], ['b', '\n'])⟩]⟩], [⟨-1, 1, 0⟩, ⟨1, 1, 0⟩]⟩ := by
    decide +kernel
  refine ⟨by decide +kernel, out, ?_⟩
  rintro ⟨found, done, -, right⟩
  obtain rfl := Option.some.inj (out.symm.trans done)
  have row := congrArg List.length (right (-1)).2
  revert row
  decide +kernel

end MlsImgSearch.Indexer.Reducer
