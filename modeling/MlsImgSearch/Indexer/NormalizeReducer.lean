import Mathlib.Algebra.Order.Field.Basic
import Mathlib.Algebra.Order.BigOperators.Group.List
import Mathlib.Algebra.BigOperators.Group.List.Basic
import Mathlib.Algebra.BigOperators.Ring.List
import Mathlib.Data.List.Basic
import Mathlib.Data.List.Destutter
import Mathlib.Analysis.Real.Sqrt
import MlsImgSearch.Lib.Strings

/-!
# Normalizing the words of a picture

The reducer reads the quantized words of the pictures, one line a word, and
prints them with weights whose squares sum to one for each picture. It collects
the words of the current picture and prints them when the picture changes. Lines
are read into a buffer by `fgets`, so that a long line arrives in several parts.
-/

namespace MlsImgSearch.Indexer.NormalizeReducer

open MlsImgSearch.Lib.Strings

/-! ## Reading -/

def bufferSize : Nat := 8192

/-- Up to `n` characters, and no further than a newline; then what is left. -/
def readLine : Nat → Text → Text × Text
  | 0, rest => ([], rest)
  | _ + 1, [] => ([], [])
  | n + 1, c :: rest =>
      if c = '\n' then ([c], rest) else (c :: (readLine n rest).1, (readLine n rest).2)

/-- `none` at the end of the input. -/
def fgets (size : Nat) (stdin : Text) : Option (Text × Text) :=
  if stdin = [] then none else some (readLine (size - 1) stdin)

/-- What `fgets` stores until the input ends. A call takes a character at least, so that the
length of the input is enough fuel. -/
def fgetsAll (size : Nat) : Nat → Text → List Text
  | 0, _ => []
  | fuel + 1, stdin =>
      match fgets size stdin with
      | none => []
      | some (buf, rest) => buf :: fgetsAll size fuel rest

/-! ## The reducer -/

variable {K : Type}

/-- `word_info_` always holds two strings. -/
structure ImageQuantizedInfo (K : Type) where
  wordId : Int
  weight : K
  wordInfo : Text × Text

/-- A line of the output: a word of a picture, or another text. A weight that is not a number is
`none`. -/
inductive OutLine (K : Type) where
  | word (wordId picId : Int) (weight : Option K) (he angle : Text)
  | other (text : Text)

structure State (K : Type) where
  prevPicId : Int
  infos : List (ImageQuantizedInfo K)
  out : List (OutLine K)

section Reducer

variable [Field K] [LinearOrder K]

/-- The words of a picture; a newline in the last string starts another line. -/
def printImageNormalizedInfo (sqrt : K → Option K) (picId : Int)
    (infos : List (ImageQuantizedInfo K)) : List (OutLine K) :=
  let sum := infos.foldl (fun sum info => sum + info.weight) 0
  infos.flatMap fun info =>
    let weight := if 0 < sum then sqrt (info.weight / sum) else some 0
    match info.wordInfo.2.splitOn '\n' with
    | [] => []
    | angle :: others =>
        .word info.wordId picId weight info.wordInfo.1 angle :: others.map .other

/-- One turn of the loop; `none` is an access behind the fields. An exception leaves everything as
it is. -/
def processLine (sqrt : K → Option K) (lexicalCastFloat : Text → Option K) (s : State K)
    (buf : Text) : Option (State K) :=
  let fields := (cString buf).splitOn '\t'
  if fields.length < 2 then some s
  else
    fields[0]?.bind fun field =>
    match lexicalCastInt field with
    | none => some s
    | some curPicId =>
        if curPicId ≠ s.prevPicId ∧ s.prevPicId ≠ -1 then
          some {
            prevPicId := curPicId
            infos := []
            out := s.out ++ printImageNormalizedInfo sqrt s.prevPicId s.infos }
        else
          fields[1]?.bind fun field =>
          match lexicalCastInt field with
          | none => some s
          | some wordId =>
              fields[2]?.bind fun field =>
              match lexicalCastFloat field with
              | none => some s
              | some q =>
                  fields[3]?.bind fun he => fields[4]?.bind fun angle =>
                  some { s with
                    prevPicId := curPicId
                    infos := s.infos ++ [⟨wordId, q, (he, angle)⟩] }

def processLines (sqrt : K → Option K) (lexicalCastFloat : Text → Option K) :
    State K → List Text → Option (State K)
  | s, [] => some s
  | s, buf :: rest =>
      (processLine sqrt lexicalCastFloat s buf).bind fun s' =>
        processLines sqrt lexicalCastFloat s' rest

/-- The picture of the loop is a variable of its own: the one that is printed last stays -1. -/
def main (sqrt : K → Option K) (lexicalCastFloat : Text → Option K) (stdin : Text) :
    Option (List (OutLine K)) :=
  let curPicId : Int := -1
  let prevPicId : Int := -1
  (processLines sqrt lexicalCastFloat ⟨prevPicId, [], []⟩
      (fgetsAll (bufferSize - 1) stdin.length stdin)).map fun s =>
    if 0 < s.infos.length then s.out ++ printImageNormalizedInfo sqrt curPicId s.infos else s.out

end Reducer

/-! ## The contract -/

/-- A well-formed line. -/
structure Line (lexicalCastFloat : Text → Option K) where
  picId : Int
  wordId : Int
  q : K
  qText : Text
  he : Text
  angle : Text
  picRange : -2 ^ 63 ≤ picId ∧ picId < 2 ^ 63
  wordRange : -2 ^ 31 ≤ wordId ∧ wordId < 2 ^ 31
  quantity : lexicalCastFloat qText = some q
  plain : ∀ c ∈ qText ++ he ++ angle, c ≠ '\t' ∧ c ≠ '\n' ∧ c ≠ '\x00'

section Contract

variable {lexicalCastFloat : Text → Option K}

/-- A line up to its last field. -/
def Line.front (l : Line lexicalCastFloat) : Text :=
  intText l.picId ++ '\t' :: (intText l.wordId ++ '\t' :: (l.qText ++ '\t' :: (l.he ++ ['\t'])))

def Line.text (l : Line lexicalCastFloat) : Text := l.front ++ l.angle

/-- The input; its last line may have no newline. -/
def stdinOf (lines : List (Line lexicalCastFloat)) (last : Option (Line lexicalCastFloat)) : Text :=
  lines.flatMap (fun l => l.text ++ ['\n']) ++ (last.map Line.text).getD []

/-- What a line says about a word, apart from its weight. -/
def Line.key (l : Line lexicalCastFloat) : Int × Int × Text × Text :=
  (l.wordId, l.picId, l.he, l.angle)

def OutLine.key : OutLine K → Option (Int × Int × Text × Text)
  | .word wordId picId _ he angle => some (wordId, picId, he, angle)
  | .other _ => none

/-- The weights printed for a picture. -/
def weightsOf (picId : Int) (out : List (OutLine K)) : List (Option K) :=
  out.filterMap fun
    | .word _ pic weight _ _ => if pic = picId then some weight else none
    | .other _ => none

variable [Field K] [LinearOrder K]

/-- All weights are numbers, and their squares sum to one. -/
def Normalized (weights : List (Option K)) : Prop :=
  ∃ numbers : List K, weights = numbers.map some ∧ (numbers.map fun w => w * w).sum = 1

/-- The sum of the quantities of a picture. -/
def quantityOf (picId : Int) (lines : List (Line lexicalCastFloat)) : K :=
  ((lines.filter fun l => l.picId = picId).map fun l => l.q).sum

/-- The lines of a picture stand together. -/
def Grouped (lines : List (Line lexicalCastFloat)) : Prop :=
  ((lines.map fun l => l.picId).destutter (· ≠ ·)).Nodup

/-- Every line is printed once, nothing else is, and the weights of a picture are normalized. -/
def Survives (sqrt : K → Option K) (lines : List (Line lexicalCastFloat))
    (last : Option (Line lexicalCastFloat)) : Prop :=
  ∃ out, main sqrt lexicalCastFloat (stdinOf lines last) = some out ∧
    (out.map OutLine.key).Perm ((lines ++ last.toList).map fun l => some l.key) ∧
    ∀ picId, 0 < quantityOf picId (lines ++ last.toList) → Normalized (weightsOf picId out)

/-- Every line names the picture -1 and is cut off right before its newline, or has none; and no
quantity is negative when their sum is positive. -/
structure Spared (lines : List (Line lexicalCastFloat)) (last : Option (Line lexicalCastFloat)) :
    Prop where
  picIds : ∀ l ∈ lines ++ last.toList, l.picId = -1
  full : ∀ l ∈ lines, l.text.length = bufferSize - 2
  fits : ∀ l ∈ last, l.text.length ≤ bufferSize - 2
  signs : 0 < quantityOf (-1) (lines ++ last.toList) → ∀ l ∈ lines ++ last.toList, 0 ≤ l.q

/-- The square root is exact, and not a number for a negative argument. -/
structure IsSqrt (sqrt : K → Option K) : Prop where
  exact : ∀ x, 0 ≤ x → ∃ r, sqrt x = some r ∧ r * r = x
  negative : ∀ x, x < 0 → sqrt x = none

end Contract

/-! ## Parts of a line -/

section Reading

/-- A line ends with a newline, or with the input. -/
def Ends (ending rest : Text) : Prop := ending = ['\n'] ∨ ending = [] ∧ rest = []

theorem readLine_line {u ending rest : Text} (plain : '\n' ∉ u) (ends : Ends ending rest) (n : Nat) :
    readLine n (u ++ ending ++ rest) = ((u ++ ending).take n, (u ++ ending).drop n ++ rest) := by
  induction u generalizing n with
  | nil =>
      rcases ends with rfl | ⟨rfl, rfl⟩
      · cases n with
        | zero => rfl
        | succ n => cases n <;> rfl
      · cases n <;> rfl
  | cons c u ih =>
      obtain ⟨other, plain⟩ := not_or.mp (mt List.mem_cons.mpr plain)
      cases n with
      | zero => rfl
      | succ n =>
          rw [List.cons_append, List.cons_append, readLine, if_neg (Ne.symm other), ih plain]
          rfl

/-- A line arrives in parts; the first one is as long as possible. -/
theorem fgetsAll_line {u ending rest : Text} {n fuel : Nat} (plain : '\n' ∉ u)
    (ends : Ends ending rest) (some' : u ++ ending ≠ [])
    (enough : (u ++ ending ++ rest).length ≤ fuel) :
    ∃ more fuel', rest.length ≤ fuel' ∧
      fgetsAll (n + 2) fuel (u ++ ending ++ rest) =
        ((u ++ ending).take (n + 1) :: more) ++ fgetsAll (n + 2) fuel' rest ∧
      ((u ++ ending).take (n + 1) :: more).flatten = u ++ ending := by
  induction fuel generalizing u with
  | zero =>
      have none' := List.length_eq_zero_iff.mp (Nat.le_zero.mp enough)
      exact absurd (List.append_eq_nil_iff.mp none').1 some'
  | succ fuel ih =>
      have taken : fgetsAll (n + 2) (fuel + 1) (u ++ ending ++ rest) =
          (u ++ ending).take (n + 1) ::
            fgetsAll (n + 2) fuel ((u ++ ending).drop (n + 1) ++ rest) := by
        have nonempty : u ++ ending ++ rest ≠ [] := by
          intro none'
          exact some' (List.append_eq_nil_iff.mp none').1
        rw [fgetsAll, fgets, if_neg nonempty, Nat.add_sub_cancel (m := 1), readLine_line plain ends]
      rw [List.length_append] at enough
      have positive := List.length_pos_of_ne_nil some'
      by_cases left : (u ++ ending).drop (n + 1) = []
      · have whole : (u ++ ending).take (n + 1) = u ++ ending := by
          have parts := List.take_append_drop (n + 1) (u ++ ending)
          rwa [left, List.append_nil] at parts
        refine ⟨[], fuel, by omega, ?_, ?_⟩
        · rw [taken, left]
          rfl
        · rw [whole, List.flatten_singleton]
      · have inside : n + 1 ≤ u.length := by
          have short : ending.length ≤ 1 := by
            rcases ends with rfl | ⟨rfl, rfl⟩ <;> decide
          have open' := mt List.drop_eq_nil_of_le left
          rw [List.length_append] at open'
          omega
        have rest' : (u ++ ending).drop (n + 1) = u.drop (n + 1) ++ ending :=
          List.drop_append_of_le_length inside
        have shorter : (u.drop (n + 1) ++ ending ++ rest).length ≤ fuel := by
          rw [List.length_append, ← rest', List.length_drop]
          omega
        obtain ⟨more, fuel', enough', parts, joined⟩ :=
          ih (fun member => plain (List.mem_of_mem_drop member)) (rest' ▸ left) shorter
        refine ⟨(u.drop (n + 1) ++ ending).take (n + 1) :: more, fuel', enough', ?_, ?_⟩
        · rw [taken, rest', parts]
          rfl
        · rw [List.flatten_cons, joined, ← rest', List.take_append_drop]

end Reading

/-! ## What a part of a line does -/

section Content

variable [Field K] [LinearOrder K]
variable {sqrt : K → Option K} {lexicalCastFloat : Text → Option K} {s s' : State K}

/-- A printed word without its picture and weight. -/
abbrev Item := Option (Int × Text × Text)

def OutLine.item : OutLine K → Item
  | .word wordId _ _ he angle => some (wordId, he, angle)
  | .other _ => none

/-- The lines that a word is printed on. -/
def ImageQuantizedInfo.items (info : ImageQuantizedInfo K) : List Item :=
  match info.wordInfo.2.splitOn '\n' with
  | [] => []
  | angle :: others => some (info.wordId, info.wordInfo.1, angle) :: others.map fun _ => none

/-- What has been printed and what is yet to be printed. -/
def State.content (s : State K) : List Item :=
  s.out.map OutLine.item ++ s.infos.flatMap ImageQuantizedInfo.items

theorem items_print (picId : Int) (infos : List (ImageQuantizedInfo K)) :
    (printImageNormalizedInfo sqrt picId infos).map OutLine.item =
      infos.flatMap ImageQuantizedInfo.items := by
  rw [printImageNormalizedInfo, List.map_flatMap]
  refine congrArg (List.flatMap · infos) (funext fun info => ?_)
  unfold ImageQuantizedInfo.items
  dsimp only
  cases info.wordInfo.2.splitOn '\n' with
  | nil => rfl
  | cons angle others =>
      dsimp only
      rw [List.map_cons, List.map_map]
      rfl

/-- The characters of the angles, and one for each word. -/
def amount (items : List Item) : Nat :=
  (items.map fun item => item.elim 0 fun (_, _, angle) => angle.length + 1).sum

theorem amount_append (first second : List Item) :
    amount (first ++ second) = amount first + amount second := by
  rw [amount, List.map_append, List.sum_append]
  rfl

/-- Words of another picture print the words at hand. -/
def State.flush (sqrt : K → Option K) (s : State K) (picId : Int) : State K where
  prevPicId := picId
  infos := []
  out := s.out ++ printImageNormalizedInfo sqrt s.prevPicId s.infos

theorem content_flush (s : State K) (picId : Int) :
    (s.flush sqrt picId).content = s.content := by
  rw [State.content, State.flush, List.map_append, items_print, List.flatMap_nil, List.append_nil]
  rfl

/-- A part with fewer than five fields adds no word. -/
theorem processLine_few {buf : Text} (few : (cString buf).count '\t' < 4)
    (done : processLine sqrt lexicalCastFloat s buf = some s') : s'.content = s.content := by
  have missing : ((cString buf).splitOn '\t')[4]? = none := by
    rw [List.getElem?_eq_none_iff, length_splitOn]
    omega
  unfold processLine at done
  dsimp only at done
  rw [missing] at done
  split at done
  · exact congrArg _ (Option.some.inj done).symm
  · obtain ⟨field, -, done⟩ := Option.bind_eq_some_iff.mp done
    split at done
    · exact congrArg _ (Option.some.inj done).symm
    · split at done
      · rw [← Option.some.inj done]
        exact content_flush s _
      · obtain ⟨field, -, done⟩ := Option.bind_eq_some_iff.mp done
        split at done
        · exact congrArg _ (Option.some.inj done).symm
        · obtain ⟨field, -, done⟩ := Option.bind_eq_some_iff.mp done
          split at done
          · exact congrArg _ (Option.some.inj done).symm
          · obtain ⟨he, -, done⟩ := Option.bind_eq_some_iff.mp done
            cases done

theorem processLines_append (s : State K) (first second : List Text) :
    processLines sqrt lexicalCastFloat s (first ++ second) =
      (processLines sqrt lexicalCastFloat s first).bind fun s' =>
        processLines sqrt lexicalCastFloat s' second := by
  induction first generalizing s with
  | nil => rfl
  | cons buf first ih =>
      rw [List.cons_append, processLines, processLines, Option.bind_assoc]
      exact congrArg _ (funext fun s' => ih s')

theorem processLines_few {parts : List Text}
    (few : ∀ part ∈ parts, (cString part).count '\t' < 4)
    (done : processLines sqrt lexicalCastFloat s parts = some s') : s'.content = s.content := by
  induction parts generalizing s with
  | nil => rw [Option.some.inj done]
  | cons part parts ih =>
      obtain ⟨first, rest⟩ := List.forall_mem_cons.mp few
      obtain ⟨mid, taken, later⟩ := Option.bind_eq_some_iff.mp done
      rw [ih rest later, processLine_few first taken]

/-- A part without a tab changes nothing. -/
theorem processLines_noTab {parts : List Text}
    (none' : ∀ part ∈ parts, (cString part).count '\t' = 0) :
    processLines sqrt lexicalCastFloat s parts = some s := by
  induction parts with
  | nil => rfl
  | cons part parts ih =>
      obtain ⟨first, rest⟩ := List.forall_mem_cons.mp none'
      have fields : ((cString part).splitOn '\t').length < 2 := by
        rw [length_splitOn, first]
        decide
      rw [processLines, processLine, if_pos fields, Option.bind_some, ih rest]

end Content

/-! ## The fields of a well-formed line -/

theorem intText_plain (n : Int) {c : Char} (member : c ∈ intText n) :
    c ≠ '\t' ∧ c ≠ '\n' ∧ c ≠ '\x00' := by
  rcases intText_mem member with rfl | digit
  · decide
  · refine ⟨?_, ?_, ?_⟩ <;>
    · rintro rfl
      cases digit

section Lines

variable {lexicalCastFloat : Text → Option K}

theorem Line.front_plain (l : Line lexicalCastFloat) {c : Char} (member : c ∈ l.front) :
    c ≠ '\n' ∧ c ≠ '\x00' := by
  unfold Line.front at member
  simp only [List.mem_append, List.mem_cons, List.not_mem_nil, or_false] at member
  have others : ∀ c ∈ l.qText ++ l.he, c ≠ '\n' ∧ c ≠ '\x00' := fun c inside =>
    (l.plain c (List.mem_append_left _ inside)).2
  rcases member with inside | rfl | inside | rfl | inside | rfl | inside | rfl
  · exact (intText_plain _ inside).2
  · decide
  · exact (intText_plain _ inside).2
  · decide
  · exact others c (List.mem_append_left _ inside)
  · decide
  · exact others c (List.mem_append_right _ inside)
  · decide

theorem Line.angle_plain (l : Line lexicalCastFloat) {c : Char} (member : c ∈ l.angle) :
    c ≠ '\t' ∧ c ≠ '\n' ∧ c ≠ '\x00' :=
  l.plain c (List.mem_append_right _ member)

theorem Line.text_plain (l : Line lexicalCastFloat) {c : Char} (member : c ∈ l.text) :
    c ≠ '\n' ∧ c ≠ '\x00' := by
  rcases List.mem_append.mp member with inside | inside
  · exact l.front_plain inside
  · exact (l.angle_plain inside).2

theorem Line.splitOn_front (l : Line lexicalCastFloat) {angle : Text} (plain : '\t' ∉ angle) :
    (l.front ++ angle).splitOn '\t' = [intText l.picId, intText l.wordId, l.qText, l.he, angle] := by
  have noTab : ∀ text : Text, (∀ c ∈ text, c ≠ '\t') → '\t' ∉ text :=
    fun text all member => all _ member rfl
  have others : ∀ c ∈ l.qText ++ l.he, c ≠ '\t' := fun c inside =>
    (l.plain c (List.mem_append_left _ inside)).1
  unfold Line.front
  simp only [List.append_assoc, List.cons_append, List.nil_append]
  rw [List.splitOn_append_cons_self_of_not_mem (noTab _ fun c inside => (intText_plain _ inside).1),
    List.splitOn_append_cons_self_of_not_mem (noTab _ fun c inside => (intText_plain _ inside).1),
    List.splitOn_append_cons_self_of_not_mem
      (noTab _ fun c inside => others c (List.mem_append_left _ inside)),
    List.splitOn_append_cons_self_of_not_mem
      (noTab _ fun c inside => others c (List.mem_append_right _ inside)),
    List.splitOn_eq_singleton plain]

theorem Line.count_front (l : Line lexicalCastFloat) : l.front.count '\t' = 4 := by
  have fields := congrArg List.length (l.splitOn_front (List.not_mem_nil (a := '\t')))
  rw [length_splitOn, List.append_nil] at fields
  exact Nat.succ.inj fields

/-- The word of a line, with the angle that was read. -/
def Line.info (l : Line lexicalCastFloat) (angle : Text) : ImageQuantizedInfo K :=
  ⟨l.wordId, l.q, (l.he, angle)⟩

def State.add (s : State K) (picId : Int) (info : ImageQuantizedInfo K) : State K :=
  { s with prevPicId := picId, infos := s.infos ++ [info] }

theorem content_add (s : State K) (picId : Int) (info : ImageQuantizedInfo K) :
    (s.add picId info).content = s.content ++ info.items := by
  rw [State.content, State.add, List.flatMap_append, List.flatMap_singleton, ← List.append_assoc]
  rfl

variable {l : Line lexicalCastFloat} {ending : Text}

theorem items_info {angle : Text} (plain : '\n' ∉ angle) :
    (l.info angle).items = [some (l.wordId, l.he, angle)] := by
  rw [ImageQuantizedInfo.items, Line.info, List.splitOn_eq_singleton plain]
  rfl

theorem items_info_newline :
    (l.info (l.angle ++ ['\n'])).items = [some (l.wordId, l.he, l.angle), none] := by
  have plain : '\n' ∉ l.angle := fun member => (l.angle_plain member).2.1 rfl
  rw [ImageQuantizedInfo.items, Line.info, List.splitOn_append_cons_self_of_not_mem plain]
  rfl

/-- A line that was read whole, with its ending or cut off right before it. -/
def Whole (entry : Line lexicalCastFloat × Text) (info : ImageQuantizedInfo K) : Prop :=
  (entry.1.text ++ entry.2).length ≤ bufferSize - 2 ∧
      info = entry.1.info (entry.1.angle ++ entry.2) ∨
    entry.1.text.length = bufferSize - 2 ∧ info = entry.1.info entry.1.angle

/-- The first part of a line has few tabs when the buffer ends before its last one. -/
theorem count_first_lt (long : bufferSize - 2 < l.front.length) :
    (cString ((l.text ++ ending).take (bufferSize - 2))).count '\t' < 4 := by
  obtain ⟨start, isFront⟩ : ∃ start, l.front = start ++ ['\t'] :=
    ⟨intText l.picId ++ '\t' :: (intText l.wordId ++ '\t' :: (l.qText ++ '\t' :: l.he)), by
      simp [Line.front]⟩
  have total := l.count_front
  rw [isFront, List.count_append] at total
  rw [isFront, List.length_append] at long
  have inside : bufferSize - 2 ≤ start.length := Nat.le_of_lt_succ long
  have cut : (l.text ++ ending).take (bufferSize - 2) = start.take (bufferSize - 2) := by
    rw [Line.text, isFront, List.append_assoc, List.append_assoc,
      List.take_append_of_le_length inside]
  have fewer : (cString (start.take (bufferSize - 2))).count '\t' ≤ start.count '\t' :=
    ((List.takeWhile_sublist _).trans (List.take_sublist _ _)).count_le _
  have tab : ['\t'].count '\t' = 1 := rfl
  rw [cut]
  omega

theorem count_line (short : ending = ['\n'] ∨ ending = []) :
    (l.text ++ ending).count '\t' = 4 := by
  have noTab : (l.angle ++ ending).count '\t' = 0 := by
    rw [List.count_append, List.count_eq_zero.mpr fun member => (l.angle_plain member).1 rfl]
    rcases short with rfl | rfl <;> rfl
  rw [Line.text, List.append_assoc, List.count_append, l.count_front, noTab]

/-- The first part of a line reaches its first tab. -/
theorem one_le_count_first : 1 ≤ ((l.text ++ ending).take (bufferSize - 2)).count '\t' := by
  obtain ⟨rest, start⟩ : ∃ rest, l.text ++ ending = (intText l.picId ++ ['\t']) ++ rest :=
    ⟨intText l.wordId ++ '\t' :: (l.qText ++ '\t' :: (l.he ++ ['\t'])) ++ l.angle ++ ending, by
      simp [Line.text, Line.front]⟩
  have short : (intText l.picId ++ ['\t']).length ≤ bufferSize - 2 := by
    have length := length_intText l.picRange
    rw [List.length_append]
    exact Nat.le_trans (Nat.succ_le_succ length) (by decide)
  rw [start, List.take_append, List.take_of_length_le short, List.count_append, List.count_append]
  have tab : ['\t'].count '\t' = 1 := rfl
  omega

/-- The parts of a line share its tabs. -/
theorem count_part_le {more : List Text} {part : Text} (short : ending = ['\n'] ∨ ending = [])
    (joined : ((l.text ++ ending).take (bufferSize - 2) :: more).flatten = l.text ++ ending)
    (member : part ∈ more) :
    ((l.text ++ ending).take (bufferSize - 2)).count '\t' + (cString part).count '\t' ≤ 4 := by
  obtain ⟨before, after, rfl⟩ := List.append_of_mem member
  have total := congrArg (List.count '\t') joined
  rw [count_line short, List.flatten_cons, List.flatten_append, List.flatten_cons,
    List.count_append, List.count_append, List.count_append] at total
  have inside : (cString part).count '\t' ≤ part.count '\t' :=
    (List.takeWhile_sublist _).count_le _
  omega

/-- The first part of a line that has room for all fields. -/
theorem take_line (room : l.front.length ≤ bufferSize - 2) :
    (l.text ++ ending).take (bufferSize - 2) =
      l.front ++ (l.angle ++ ending).take (bufferSize - 2 - l.front.length) := by
  rw [Line.text, List.append_assoc, List.take_append, List.take_of_length_le room]

theorem angle_part_plain (short : ending = ['\n'] ∨ ending = []) {n : Nat} :
    ∀ c ∈ (l.angle ++ ending).take n, c ≠ '\t' ∧ c ≠ '\x00' := by
  intro c member
  rcases List.mem_append.mp (List.mem_of_mem_take member) with inside | inside
  · exact ⟨(l.angle_plain inside).1, (l.angle_plain inside).2.2⟩
  · rcases short with rfl | rfl
    · obtain rfl := List.mem_singleton.mp inside
      decide
    · cases inside

/-- With room for all fields the other parts have no tab. -/
theorem noTab_of_room {more : List Text} (short : ending = ['\n'] ∨ ending = [])
    (joined : ((l.text ++ ending).take (bufferSize - 2) :: more).flatten = l.text ++ ending)
    (room : l.front.length ≤ bufferSize - 2) :
    ∀ part ∈ more, (cString part).count '\t' = 0 := by
  intro part member
  have shared := count_part_le short joined member
  rw [take_line room, List.count_append, l.count_front] at shared
  omega

/-- A line with room for all fields, when its word is collected. -/
theorem add_line {s : State K} (short : ending = ['\n'] ∨ ending = [])
    (room : l.front.length ≤ bufferSize - 2) :
    amount (s.add l.picId (l.info
          ((l.angle ++ ending).take (bufferSize - 2 - l.front.length)))).content <
        amount s.content + (l.angle.length + 1) ∨
      Whole (l, ending) (l.info ((l.angle ++ ending).take (bufferSize - 2 - l.front.length))) := by
  have length : l.text.length = l.front.length + l.angle.length := List.length_append
  rcases Nat.lt_trichotomy (bufferSize - 2 - l.front.length) l.angle.length with
    inside | behind | beyond
  · refine Or.inl ?_
    rw [List.take_append_of_le_length (Nat.le_of_lt inside), content_add, amount_append, items_info
      fun member => (l.angle_plain (List.mem_of_mem_take member)).2.1 rfl]
    have size : amount [some (l.wordId, l.he, l.angle.take (bufferSize - 2 - l.front.length))] =
        (l.angle.take (bufferSize - 2 - l.front.length)).length + 1 := rfl
    rw [size, List.length_take]
    omega
  · refine Or.inr (Or.inr ⟨?_, ?_⟩)
    · dsimp only
      omega
    · rw [behind, List.take_left' rfl]
  · have whole : (l.angle ++ ending).length ≤ bufferSize - 2 - l.front.length := by
      rw [List.length_append]
      rcases short with rfl | rfl
      · exact beyond
      · exact Nat.le_of_lt beyond
    refine Or.inr (Or.inl ⟨?_, ?_⟩)
    · rw [List.length_append] at whole ⊢
      dsimp only
      omega
    · rw [List.take_of_length_le whole]

end Lines

/-! ## What a line does -/

section Words

variable [Field K] [LinearOrder K]
variable {sqrt : K → Option K} {lexicalCastFloat : Text → Option K} {s s' : State K}
variable {l : Line lexicalCastFloat} {ending : Text} {more : List Text}

/-- A part with all fields. -/
theorem Line.processLine_eq (l : Line lexicalCastFloat) {angle : Text}
    (plain : ∀ c ∈ angle, c ≠ '\t' ∧ c ≠ '\x00') :
    processLine sqrt lexicalCastFloat s (l.front ++ angle) =
      if -2 ^ 31 ≤ l.picId ∧ l.picId < 2 ^ 31 then
        if l.picId ≠ s.prevPicId ∧ s.prevPicId ≠ -1 then some (s.flush sqrt l.picId)
        else some (s.add l.picId (l.info angle))
      else some s := by
  have text : cString (l.front ++ angle) = l.front ++ angle := by
    apply cString_plain
    intro zero
    rcases List.mem_append.mp zero with inside | inside
    · exact (l.front_plain inside).2 rfl
    · exact (plain _ inside).2 rfl
  rw [processLine, text, l.splitOn_front fun tab => (plain _ tab).1 rfl]
  dsimp only [List.length_cons, List.length_nil, List.getElem?_cons_zero, List.getElem?_cons_succ,
    Option.bind_some]
  rw [if_neg (by decide), lexicalCastInt_intText]
  by_cases range : -2 ^ 31 ≤ l.picId ∧ l.picId < 2 ^ 31
  · rw [if_pos range, if_pos range]
    dsimp only
    rw [lexicalCastInt_intText, if_pos l.wordRange]
    dsimp only
    rw [l.quantity]
    dsimp only
    split
    · rfl
    · rfl
  · rw [if_neg range, if_neg range]

/-- What a line does: its word is lost, or read in part, or read whole. -/
theorem processLines_line (short : ending = ['\n'] ∨ ending = [])
    (joined : ((l.text ++ ending).take (bufferSize - 2) :: more).flatten = l.text ++ ending)
    (done : processLines sqrt lexicalCastFloat s
      ((l.text ++ ending).take (bufferSize - 2) :: more) = some s') :
    amount s'.content < amount s.content + (l.angle.length + 1) ∨
      ∃ info, Whole (l, ending) info ∧ s' = s.add l.picId info := by
  obtain ⟨mid, first, later⟩ := Option.bind_eq_some_iff.mp done
  have lost : mid.content = s.content →
      amount s'.content < amount s.content + (l.angle.length + 1) := by
    intro same
    have few : ∀ part ∈ more, (cString part).count '\t' < 4 := by
      intro part member
      have shared := count_part_le short joined member
      have reached := (one_le_count_first : 1 ≤ ((l.text ++ ending).take (bufferSize - 2)).count '\t')
      omega
    rw [processLines_few few later, same]
    omega
  by_cases long : bufferSize - 2 < l.front.length
  · exact Or.inl (lost (processLine_few (count_first_lt long) first))
  · rw [take_line (Nat.le_of_not_lt long), l.processLine_eq (angle_part_plain short)] at first
    split at first
    · split at first
      · obtain rfl := Option.some.inj first
        exact Or.inl (lost (content_flush s _))
      · obtain rfl := Option.some.inj first
        rw [processLines_noTab (noTab_of_room short joined (Nat.le_of_not_lt long))] at later
        obtain rfl := Option.some.inj later
        exact (add_line short (Nat.le_of_not_lt long)).imp_right fun whole => ⟨_, whole, rfl⟩
    · obtain rfl := Option.some.inj first
      exact Or.inl (lost rfl)

end Words

/-! ## Whole inputs -/

section Runs

variable {lexicalCastFloat : Text → Option K}

/-- The amount of an input of which nothing is lost. -/
def expected (entries : List (Line lexicalCastFloat × Text)) : Nat :=
  (entries.map fun entry => entry.1.angle.length + 1).sum

/-- Either all words were read whole and none was printed, or something is lost. -/
def Progress (entries : List (Line lexicalCastFloat × Text)) (s : State K) : Prop :=
  (List.Forall₂ Whole entries s.infos ∧ s.out = [] ∧ amount s.content = expected entries) ∨
    amount s.content < expected entries

theorem amount_whole {entry : Line lexicalCastFloat × Text} {info : ImageQuantizedInfo K}
    (short : entry.2 = ['\n'] ∨ entry.2 = []) (whole : Whole entry info) :
    amount info.items = entry.1.angle.length + 1 := by
  have plain : '\n' ∉ entry.1.angle := fun member => (entry.1.angle_plain member).2.1 rfl
  have cut : amount (entry.1.info entry.1.angle).items = entry.1.angle.length + 1 := by
    rw [items_info plain]
    rfl
  rcases whole with ⟨-, rfl⟩ | ⟨-, rfl⟩
  · rcases short with newline | none'
    · rw [newline, items_info_newline]
      rfl
    · rw [none', List.append_nil]
      exact cut
  · exact cut

theorem Progress.step {entries : List (Line lexicalCastFloat × Text)} {s s' : State K}
    {l : Line lexicalCastFloat} {ending : Text} (progress : Progress entries s)
    (short : ending = ['\n'] ∨ ending = [])
    (taken : amount s'.content < amount s.content + (l.angle.length + 1) ∨
      ∃ info, Whole (l, ending) info ∧ s' = s.add l.picId info) :
    Progress (entries ++ [(l, ending)]) s' := by
  have total : expected (entries ++ [(l, ending)]) = expected entries + (l.angle.length + 1) := by
    rw [expected, List.map_append, List.sum_append]
    rfl
  rcases taken with lost | ⟨info, whole, rfl⟩
  · refine Or.inr ?_
    rw [total]
    rcases progress with ⟨-, -, all⟩ | less
    · rwa [all] at lost
    · omega
  · have more : amount (s.add l.picId info).content = amount s.content + (l.angle.length + 1) := by
      rw [content_add, amount_append, amount_whole short whole]
    rw [Progress, total, more]
    rcases progress with ⟨words, none', all⟩ | less
    · exact Or.inl ⟨List.rel_append words (List.Forall₂.cons whole .nil), none', by rw [all]⟩
    · exact Or.inr (Nat.add_lt_add_right less _)

theorem reads_line (l : Line lexicalCastFloat) {ending rest : Text} {fuel : Nat}
    (ends : Ends ending rest) (enough : (l.text ++ ending ++ rest).length ≤ fuel) :
    ∃ more fuel', rest.length ≤ fuel' ∧
      fgetsAll (bufferSize - 1) fuel (l.text ++ ending ++ rest) =
        ((l.text ++ ending).take (bufferSize - 2) :: more) ++
          fgetsAll (bufferSize - 1) fuel' rest ∧
      ((l.text ++ ending).take (bufferSize - 2) :: more).flatten = l.text ++ ending := by
  have plain : '\n' ∉ l.text := fun member => (l.text_plain member).1 rfl
  have some' : l.text ++ ending ≠ [] := by
    simp [Line.text, Line.front]
  exact fgetsAll_line (n := bufferSize - 3) plain ends some' enough

/-- The entries of an input. -/
def entriesOf (lines : List (Line lexicalCastFloat)) (last : Option (Line lexicalCastFloat)) :
    List (Line lexicalCastFloat × Text) :=
  lines.map (·, ['\n']) ++ last.toList.map (·, [])

/-- The key of a line without its picture. -/
theorem item_eq_key (o : OutLine K) :
    o.item = o.key.map fun (wordId, _, he, angle) => (wordId, he, angle) := by
  cases o <;> rfl

theorem expected_eq (lines : List (Line lexicalCastFloat)) (last : Option (Line lexicalCastFloat)) :
    expected (entriesOf lines last) =
      ((lines ++ last.toList).map fun l => l.angle.length + 1).sum := by
  rw [expected, entriesOf, List.map_append, List.map_append, List.map_map, List.map_map]
  rfl

/-- Words that were read whole without a newline. -/
theorem forall_whole {entries : List (Line lexicalCastFloat × Text)}
    {infos : List (ImageQuantizedInfo K)} (whole : List.Forall₂ Whole entries infos)
    (short : ∀ entry ∈ entries, entry.2 = ['\n'] ∨ entry.2 = [])
    (clean : none ∉ infos.flatMap ImageQuantizedInfo.items) :
    infos = entries.map (fun entry => entry.1.info entry.1.angle) ∧
      ∀ entry ∈ entries, entry.1.text.length ≤ bufferSize - 2 ∧
        (entry.2 = ['\n'] → entry.1.text.length = bufferSize - 2) := by
  induction whole with
  | nil => exact ⟨rfl, fun _ member => nomatch member⟩
  | @cons entry info entries infos first rest ih =>
      obtain ⟨short, shorts⟩ := List.forall_mem_cons.mp short
      rw [List.flatMap_cons, List.mem_append, not_or] at clean
      obtain ⟨words, lengths⟩ := ih shorts clean.2
      have read : info = entry.1.info entry.1.angle ∧ entry.1.text.length ≤ bufferSize - 2 ∧
          (entry.2 = ['\n'] → entry.1.text.length = bufferSize - 2) := by
        rcases first with ⟨fits, rfl⟩ | ⟨full, rfl⟩
        · have none' : entry.2 = [] := by
            refine short.resolve_left fun newline => clean.1 ?_
            rw [newline, items_info_newline]
            exact List.mem_cons_of_mem _ (List.mem_singleton_self _)
          rw [none', List.append_nil] at fits ⊢
          exact ⟨rfl, fits, fun newline => nomatch newline⟩
        · exact ⟨rfl, Nat.le_of_eq full, fun _ => full⟩
      refine ⟨?_, List.forall_mem_cons.mpr ⟨read.2, lengths⟩⟩
      rw [List.map_cons, read.1, words]

variable [Field K] [LinearOrder K] {sqrt : K → Option K}

theorem Progress.lines {lines : List (Line lexicalCastFloat)} {rest : Text} {s final : State K}
    {entries : List (Line lexicalCastFloat × Text)} {fuel : Nat} (progress : Progress entries s)
    (enough : (lines.flatMap (fun l => l.text ++ ['\n']) ++ rest).length ≤ fuel)
    (done : processLines sqrt lexicalCastFloat s (fgetsAll (bufferSize - 1) fuel
      (lines.flatMap (fun l => l.text ++ ['\n']) ++ rest)) = some final) :
    ∃ s' fuel', Progress (entries ++ lines.map (·, ['\n'])) s' ∧ rest.length ≤ fuel' ∧
      processLines sqrt lexicalCastFloat s' (fgetsAll (bufferSize - 1) fuel' rest) =
        some final := by
  induction lines generalizing s entries fuel with
  | nil => exact ⟨s, fuel, by rwa [List.map_nil, List.append_nil], enough, done⟩
  | cons l lines ih =>
      rw [List.flatMap_cons, List.append_assoc] at enough done
      obtain ⟨more, fuel', enough', parts, joined⟩ := reads_line l (Or.inl rfl) enough
      rw [parts, processLines_append] at done
      obtain ⟨mid, first, later⟩ := Option.bind_eq_some_iff.mp done
      have taken := processLines_line (Or.inl rfl) joined first
      obtain ⟨s', fuel'', progress', rest'⟩ :=
        ih (progress.step (Or.inl rfl) taken) enough' later
      rw [List.append_assoc] at progress'
      exact ⟨s', fuel'', progress', rest'⟩

/-- At the end of every input. -/
theorem progress_end {lines : List (Line lexicalCastFloat)} {last : Option (Line lexicalCastFloat)}
    {final : State K}
    (done : processLines sqrt lexicalCastFloat ⟨-1, [], []⟩
      (fgetsAll (bufferSize - 1) (stdinOf lines last).length (stdinOf lines last)) = some final) :
    Progress (entriesOf lines last) final := by
  have start : Progress ([] : List (Line lexicalCastFloat × Text)) (⟨-1, [], []⟩ : State K) :=
    Or.inl ⟨.nil, rfl, rfl⟩
  obtain ⟨s, fuel, progress, enough, later⟩ := start.lines (Nat.le_refl _) done
  rw [List.nil_append] at progress
  cases last with
  | none =>
      cases fuel <;>
      · obtain rfl := Option.some.inj later
        rwa [entriesOf, Option.toList_none, List.map_nil, List.append_nil]
  | some l =>
      have text : ((some l).map Line.text).getD [] = l.text ++ [] ++ [] := by
        rw [List.append_nil, List.append_nil]
        rfl
      rw [text] at enough later
      obtain ⟨more, fuel', -, parts, joined⟩ := reads_line l (Or.inr ⟨rfl, rfl⟩) enough
      rw [parts, processLines_append] at later
      obtain ⟨mid, first, stop⟩ := Option.bind_eq_some_iff.mp later
      have same : mid = final := by
        cases fuel' <;> exact Option.some.inj stop
      rw [← same]
      exact progress.step (Or.inr rfl) (processLines_line (Or.inr rfl) joined first)

/-! ## The last picture -/

/-- The words of lines that were read without a newline. -/
def wordsOf (lines : List (Line lexicalCastFloat)) : List (ImageQuantizedInfo K) :=
  lines.map fun l => l.info l.angle

/-- The weight of a quantity, for a sum of all quantities. -/
def weightOf (sqrt : K → Option K) (total q : K) : Option K :=
  if 0 < total then sqrt (q / total) else some 0

theorem print_wordsOf (picId : Int) (lines : List (Line lexicalCastFloat)) :
    printImageNormalizedInfo sqrt picId (wordsOf lines) = lines.map fun l =>
      .word l.wordId picId (weightOf sqrt (lines.map fun l => l.q).sum l.q) l.he l.angle := by
  have total : (wordsOf lines).foldl (fun sum info => sum + info.weight) 0 =
      (lines.map fun l => l.q).sum := by
    rw [wordsOf, List.foldl_map, List.sum_eq_foldl, List.foldl_map]
    rfl
  rw [printImageNormalizedInfo, total, wordsOf]
  generalize (lines.map fun l => l.q).sum = sum
  rw [List.flatMap_map, List.map_eq_flatMap]
  refine congrArg (List.flatMap · lines) (funext fun l => ?_)
  have plain : '\n' ∉ l.angle := fun member => (l.angle_plain member).2.1 rfl
  dsimp only [Line.info]
  rw [List.splitOn_eq_singleton plain]
  rfl

theorem weightsOf_print (lines : List (Line lexicalCastFloat)) :
    weightsOf (-1) (printImageNormalizedInfo sqrt (-1) (wordsOf lines)) =
      lines.map fun l => weightOf sqrt (lines.map fun l => l.q).sum l.q := by
  rw [print_wordsOf, weightsOf]
  generalize (lines.map fun l => l.q).sum = sum
  rw [List.filterMap_map, ← List.filterMap_eq_map]
  rfl

theorem keys_print (lines : List (Line lexicalCastFloat)) :
    (printImageNormalizedInfo sqrt (-1) (wordsOf lines)).map OutLine.key =
      lines.map fun l => some (l.wordId, -1, l.he, l.angle) := by
  rw [print_wordsOf, List.map_map]
  rfl

theorem exists_roots (isSqrt : IsSqrt sqrt) {numbers : List K} (signs : ∀ x ∈ numbers, 0 ≤ x) :
    ∃ roots : List K, numbers.map sqrt = roots.map some ∧
      (roots.map fun r => r * r).sum = numbers.sum := by
  induction numbers with
  | nil => exact ⟨[], rfl, rfl⟩
  | cons x numbers ih =>
      obtain ⟨first, rest⟩ := List.forall_mem_cons.mp signs
      obtain ⟨r, root, square⟩ := isSqrt.exact x first
      obtain ⟨roots, all, sum⟩ := ih rest
      refine ⟨r :: roots, ?_, ?_⟩
      · rw [List.map_cons, List.map_cons, root, all]
      · rw [List.map_cons, List.sum_cons, List.sum_cons, square, sum]

/-- The weights of the lines are normalized exactly when no quantity is negative. -/
theorem normalized_lines [IsStrictOrderedRing K] (isSqrt : IsSqrt sqrt)
    {lines : List (Line lexicalCastFloat)} (positive : 0 < (lines.map fun l => l.q).sum) :
    Normalized (lines.map fun l => weightOf sqrt (lines.map fun l => l.q).sum l.q) ↔
      ∀ l ∈ lines, 0 ≤ l.q := by
  have weights : (lines.map fun l => weightOf sqrt (lines.map fun l => l.q).sum l.q) =
      (lines.map fun l => l.q / (lines.map fun l => l.q).sum).map sqrt := by
    rw [List.map_map]
    exact List.map_congr_left fun l _ => if_pos positive
  rw [weights]
  constructor
  · rintro ⟨numbers, roots, -⟩ l member
    by_contra negative
    have notNumber : (none : Option K) ∈ numbers.map some := by
      rw [← roots, List.map_map]
      refine List.mem_map.mpr ⟨l, member, isSqrt.negative _ ?_⟩
      exact div_neg_of_neg_of_pos (not_le.mp negative) positive
    obtain ⟨_, -, wrong⟩ := List.mem_map.mp notNumber
    cases wrong
  · intro signs
    have signs' : ∀ x ∈ lines.map fun l => l.q / (lines.map fun l => l.q).sum, 0 ≤ x := by
      intro x member
      obtain ⟨l, inside, rfl⟩ := List.mem_map.mp member
      exact div_nonneg (signs l inside) (le_of_lt positive)
    obtain ⟨roots, all, squares⟩ := exists_roots isSqrt signs'
    refine ⟨roots, all, squares.trans ?_⟩
    simp only [div_eq_mul_inv]
    rw [List.sum_map_mul_right, mul_inv_cancel₀ (ne_of_gt positive)]

omit [LinearOrder K] in
theorem quantityOf_eq {lines : List (Line lexicalCastFloat)} (picIds : ∀ l ∈ lines, l.picId = -1) :
    quantityOf (-1) lines = (lines.map fun l => l.q).sum := by
  rw [quantityOf, List.filter_eq_self.mpr fun l member => decide_eq_true (picIds l member)]

/-- What is printed when all lines are read without a newline. -/
theorem main_wordsOf {stdin : Text} {s : State K} {lines : List (Line lexicalCastFloat)}
    (done : processLines sqrt lexicalCastFloat ⟨-1, [], []⟩
      (fgetsAll (bufferSize - 1) stdin.length stdin) = some s)
    (words : s.infos = wordsOf lines) (none' : s.out = []) :
    main sqrt lexicalCastFloat stdin =
      some (printImageNormalizedInfo sqrt (-1) (wordsOf lines)) := by
  rw [main, done, Option.map_some, words, none', List.nil_append]
  cases lines with
  | nil => rfl
  | cons l lines => exact congrArg some (if_pos (Nat.succ_pos _))

/-- Nothing is lost when each line is cut off right before its newline. -/
theorem processLines_full {l : Line lexicalCastFloat} {ending : Text} {more : List Text}
    {s : State K} (picId : l.picId = -1) (prev : s.prevPicId = -1)
    (full : l.text.length = bufferSize - 2 ∧ ending = ['\n'] ∨
      l.text.length ≤ bufferSize - 2 ∧ ending = [])
    (joined : ((l.text ++ ending).take (bufferSize - 2) :: more).flatten = l.text ++ ending) :
    processLines sqrt lexicalCastFloat s ((l.text ++ ending).take (bufferSize - 2) :: more) =
      some (s.add (-1) (l.info l.angle)) := by
  have short : ending = ['\n'] ∨ ending = [] := full.imp And.right And.right
  have length : l.text.length = l.front.length + l.angle.length := List.length_append
  have first : (l.text ++ ending).take (bufferSize - 2) = l.front ++ l.angle := by
    rcases full with ⟨exact', -⟩ | ⟨fits, rfl⟩
    · rw [← exact', List.take_left' rfl]
      rfl
    · rw [List.append_nil, List.take_of_length_le fits]
      rfl
  have room : l.front.length ≤ bufferSize - 2 := by
    rcases full with ⟨exact', -⟩ | ⟨fits, -⟩ <;> omega
  have noTab := noTab_of_room short joined room
  have plain : ∀ c ∈ l.angle, c ≠ '\t' ∧ c ≠ '\x00' := fun c member =>
    ⟨(l.angle_plain member).1, (l.angle_plain member).2.2⟩
  have range : -2 ^ 31 ≤ l.picId ∧ l.picId < 2 ^ 31 := by
    rw [picId]
    decide
  rw [processLines, first, l.processLine_eq plain, if_pos range, if_neg (by rw [prev]; simp),
    Option.bind_some, processLines_noTab noTab, picId]

variable (sqrt) in
theorem processLines_fulls {lines : List (Line lexicalCastFloat)} {rest : Text} {s : State K}
    {fuel : Nat} (picIds : ∀ l ∈ lines, l.picId = -1) (prev : s.prevPicId = -1)
    (full : ∀ l ∈ lines, l.text.length = bufferSize - 2)
    (enough : (lines.flatMap (fun l => l.text ++ ['\n']) ++ rest).length ≤ fuel) :
    ∃ fuel', rest.length ≤ fuel' ∧
      processLines sqrt lexicalCastFloat s (fgetsAll (bufferSize - 1) fuel
        (lines.flatMap (fun l => l.text ++ ['\n']) ++ rest)) =
      processLines sqrt lexicalCastFloat
        { s with prevPicId := -1, infos := s.infos ++ wordsOf lines }
        (fgetsAll (bufferSize - 1) fuel' rest) := by
  induction lines generalizing s fuel with
  | nil =>
      refine ⟨fuel, enough, ?_⟩
      rw [wordsOf, List.map_nil, List.append_nil, ← prev]
      rfl
  | cons l lines ih =>
      obtain ⟨picId, picIds⟩ := List.forall_mem_cons.mp picIds
      obtain ⟨first, full⟩ := List.forall_mem_cons.mp full
      rw [List.flatMap_cons, List.append_assoc] at enough ⊢
      obtain ⟨more, fuel', enough', parts, joined⟩ := reads_line l (Or.inl rfl) enough
      rw [parts, processLines_append,
        processLines_full picId prev (Or.inl ⟨first, rfl⟩) joined, Option.bind_some]
      obtain ⟨fuel'', enough'', later⟩ :=
        ih (s := s.add (-1) (l.info l.angle)) picIds rfl full enough'
      refine ⟨fuel'', enough'', later.trans ?_⟩
      rw [State.add, List.append_assoc]
      rfl

theorem Spared.run {lines : List (Line lexicalCastFloat)} {last : Option (Line lexicalCastFloat)}
    (spared : Spared lines last) :
    processLines sqrt lexicalCastFloat ⟨-1, [], []⟩
        (fgetsAll (bufferSize - 1) (stdinOf lines last).length (stdinOf lines last)) =
      some ⟨-1, wordsOf (lines ++ last.toList), []⟩ := by
  obtain ⟨fuel, enough, run⟩ := processLines_fulls sqrt (s := ⟨-1, [], []⟩)
    (fun l member => spared.picIds l (List.mem_append_left _ member)) rfl spared.full
    (Nat.le_refl (stdinOf lines last).length)
  refine run.trans ?_
  cases last with
  | none =>
      rw [Option.toList_none, List.append_nil]
      cases fuel <;> rfl
  | some l =>
      have text : ((some l).map Line.text).getD [] = l.text ++ [] ++ [] := by
        rw [List.append_nil, List.append_nil]
        rfl
      rw [text] at enough ⊢
      obtain ⟨more, fuel', -, parts, joined⟩ := reads_line l (Or.inr ⟨rfl, rfl⟩) enough
      have picId := spared.picIds l (List.mem_append_right _ (List.mem_singleton_self l))
      rw [parts, processLines_append,
        processLines_full picId rfl (Or.inr ⟨spared.fits l rfl, rfl⟩) joined, Option.bind_some]
      have ends : fgetsAll (bufferSize - 1) fuel' [] = [] := by
        cases fuel' <;> rfl
      rw [ends, processLines, State.add, wordsOf, wordsOf, List.map_append]
      rfl

theorem Spared.survives [IsStrictOrderedRing K] (isSqrt : IsSqrt sqrt)
    {lines : List (Line lexicalCastFloat)} {last : Option (Line lexicalCastFloat)}
    (spared : Spared lines last) : Survives sqrt lines last := by
  refine ⟨_, main_wordsOf spared.run rfl rfl, ?_, fun picId positive => ?_⟩
  · rw [keys_print]
    refine List.Perm.of_eq (List.map_congr_left fun l member => ?_)
    rw [Line.key, spared.picIds l member]
  · have same : picId = -1 := by
      by_contra other
      have none' : (lines ++ last.toList).filter (fun l => l.picId = picId) = [] :=
        List.filter_eq_nil_iff.mpr fun l member same =>
          other ((of_decide_eq_true same).symm.trans (spared.picIds l member))
      rw [quantityOf, none'] at positive
      exact lt_irrefl _ positive
    rw [same] at positive ⊢
    have signs := spared.signs positive
    rw [quantityOf_eq spared.picIds] at positive
    rw [weightsOf_print]
    exact (normalized_lines isSqrt positive).mpr signs

theorem items_main {stdin : Text} {s : State K} {out : List (OutLine K)}
    (done : processLines sqrt lexicalCastFloat ⟨-1, [], []⟩
      (fgetsAll (bufferSize - 1) stdin.length stdin) = some s)
    (printed : main sqrt lexicalCastFloat stdin = some out) :
    out.map OutLine.item = s.content := by
  rw [main, done, Option.map_some] at printed
  obtain rfl := Option.some.inj printed
  split
  · rw [List.map_append, items_print]
    rfl
  · next none' =>
      have empty : s.infos = [] := List.eq_nil_of_length_eq_zero (Nat.eq_zero_of_not_pos none')
      rw [State.content, empty, List.flatMap_nil, List.append_nil]

/-- When every line is printed once, nothing is lost on the way. -/
theorem whole_of_perm {lines : List (Line lexicalCastFloat)} {last : Option (Line lexicalCastFloat)}
    {s : State K} {out : List (OutLine K)}
    (done : processLines sqrt lexicalCastFloat ⟨-1, [], []⟩
      (fgetsAll (bufferSize - 1) (stdinOf lines last).length (stdinOf lines last)) = some s)
    (printed : main sqrt lexicalCastFloat (stdinOf lines last) = some out)
    (once : (out.map OutLine.key).Perm ((lines ++ last.toList).map fun l => some l.key)) :
    List.Forall₂ Whole (entriesOf lines last) s.infos ∧ s.out = [] ∧ none ∉ s.content := by
  have items : s.content.Perm
      ((lines ++ last.toList).map fun l => some (l.wordId, l.he, l.angle)) := by
    have mapped := once.map (Option.map fun (wordId, _, he, angle) => (wordId, he, angle))
    rw [List.map_map, List.map_map] at mapped
    rw [← items_main done printed, List.map_congr_left fun o _ => item_eq_key o]
    exact mapped
  have total : amount s.content = expected (entriesOf lines last) := by
    rw [expected_eq, amount, (items.map _).sum_eq, List.map_map]
    rfl
  refine ⟨?_, ?_, fun member => ?_⟩
  · rcases progress_end done with ⟨words, -, -⟩ | less
    · exact words
    · exact absurd total (Nat.ne_of_lt less)
  · rcases progress_end done with ⟨-, none', -⟩ | less
    · exact none'
    · exact absurd total (Nat.ne_of_lt less)
  · obtain ⟨_, -, wrong⟩ := List.mem_map.mp (items.mem_iff.mp member)
    cases wrong

theorem Survives.spared [IsStrictOrderedRing K] (isSqrt : IsSqrt sqrt)
    {lines : List (Line lexicalCastFloat)} {last : Option (Line lexicalCastFloat)}
    (survives : Survives sqrt lines last) : Spared lines last := by
  obtain ⟨out, printed, once, normalized⟩ := survives
  obtain ⟨s, done, -⟩ := Option.map_eq_some_iff.mp printed
  obtain ⟨whole, none', clean⟩ := whole_of_perm done printed once
  rw [State.content, none', List.map_nil, List.nil_append] at clean
  have short : ∀ entry ∈ entriesOf lines last, entry.2 = ['\n'] ∨ entry.2 = [] := by
    intro entry member
    rcases List.mem_append.mp member with inside | inside
    · obtain ⟨l, -, rfl⟩ := List.mem_map.mp inside
      exact Or.inl rfl
    · obtain ⟨l, -, rfl⟩ := List.mem_map.mp inside
      exact Or.inr rfl
  obtain ⟨words, lengths⟩ := forall_whole whole short clean
  have isWords : s.infos = wordsOf (lines ++ last.toList) := by
    rw [words, entriesOf, wordsOf, List.map_append, List.map_append, List.map_map, List.map_map]
    rfl
  rw [main_wordsOf done isWords none'] at printed
  obtain rfl := Option.some.inj printed
  have picIds : ∀ l ∈ lines ++ last.toList, l.picId = -1 := by
    intro l member
    have key := once.mem_iff.mpr (List.mem_map_of_mem member)
    rw [keys_print] at key
    obtain ⟨other, -, same⟩ := List.mem_map.mp key
    exact (congrArg (fun key => key.2.1) (Option.some.inj same)).symm
  refine ⟨picIds, fun l member => ?_, fun l isLast => ?_, fun positive => ?_⟩
  · exact (lengths (l, ['\n']) (List.mem_append_left _ (List.mem_map_of_mem member))).2 rfl
  · refine (lengths (l, []) (List.mem_append_right _ (List.mem_map_of_mem ?_))).1
    exact Option.mem_toList.mpr isLast
  · have weights := normalized (-1) positive
    rw [weightsOf_print] at weights
    rw [quantityOf_eq picIds] at positive
    exact (normalized_lines isSqrt positive).mp weights

end Runs

/-- An input survives exactly when it is spared, be it grouped or not. -/
theorem survives_iff_spared [Field K] [LinearOrder K] [IsStrictOrderedRing K]
    {lexicalCastFloat : Text → Option K} {sqrt : K → Option K} (isSqrt : IsSqrt sqrt)
    (lines : List (Line lexicalCastFloat)) (last : Option (Line lexicalCastFloat)) :
    Survives sqrt lines last ↔ Spared lines last :=
  ⟨Survives.spared isSqrt, Spared.survives isSqrt⟩

/-! ## Two inputs -/

noncomputable def realSqrt (x : ℝ) : Option ℝ := if 0 ≤ x then some (Real.sqrt x) else none

theorem realSqrt_isSqrt : IsSqrt realSqrt where
  exact := fun x sign => ⟨Real.sqrt x, if_pos sign, Real.mul_self_sqrt sign⟩
  negative := fun _ sign => if_neg (not_le.mpr sign)

/-- A float of one digit. -/
noncomputable def digitFloat : Text → Option ℝ
  | [c] => if c.isDigit then some (c.toNat - 48 : ℕ) else none
  | _ => none

/-- A line with quantity 1. -/
def unitLine (picId wordId : Int) (picRange : -2 ^ 63 ≤ picId ∧ picId < 2 ^ 63)
    (wordRange : -2 ^ 31 ≤ wordId ∧ wordId < 2 ^ 31) : Line digitFloat where
  picId := picId
  wordId := wordId
  q := 1
  qText := ['1']
  he := ['h']
  angle := ['a']
  picRange := picRange
  wordRange := wordRange
  quantity := by
    rw [digitFloat, if_pos (by decide)]
    exact congrArg some Nat.cast_one
  plain := by simp

/-- One line of picture -1 without a newline. -/
theorem survives_iff_spared_single :
    Survives realSqrt [] (some (unitLine (-1) 7 (by decide) (by decide))) := by
  refine (survives_iff_spared realSqrt_isSqrt [] _).mpr ⟨?_, ?_, ?_, fun _ => ?_⟩
  · intro l member
    obtain rfl := List.mem_singleton.mp member
    rfl
  · exact fun l member => nomatch member
  · rintro l ⟨⟩
    decide
  · intro l member
    obtain rfl := List.mem_singleton.mp member
    exact zero_le_one

/-- Two pictures of two words each. -/
def twoPictures : List (Line digitFloat) :=
  [unitLine 1 7 (by decide) (by decide), unitLine 1 8 (by decide) (by decide),
    unitLine 2 9 (by decide) (by decide), unitLine 2 10 (by decide) (by decide)]

/-- They are grouped, and yet they are not printed as they came: the first word of the second picture
is not collected, and the other one is printed for picture -1. -/
theorem twoPictures_lost : Grouped twoPictures ∧ ¬ Survives realSqrt twoPictures none := by
  refine ⟨(by decide : (([1, 1, 2, 2] : List Int).destutter (· ≠ ·)).Nodup), fun survives => ?_⟩
  have picId := (survives.spared realSqrt_isSqrt).picIds _ (List.mem_cons_self ..)
  exact absurd picId (by decide)

end MlsImgSearch.Indexer.NormalizeReducer
