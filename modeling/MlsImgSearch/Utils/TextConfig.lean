import Mathlib.Data.List.DropRight
import MlsImgSearch.Lib.Lines
import MlsImgSearch.Lib.Strings

/-!
# Configuration files

A configuration holds values under names and is kept in a file of lines. It is written
with one separator between name and value, and read with another.
-/

namespace MlsImgSearch.Utils.TextConfig

open Lib.Strings (Text)
open Lib.Lines

/-! ## Values -/

def isBlank (c : Char) : Bool := c = ' ' ∨ c = '\r' ∨ c = '\n' ∨ c = '\t'

/-- `_configure_trim` with its default argument. -/
def configureTrim (src : Text) : Text := (src.dropWhile isBlank).rdropWhile isBlank

def configureUpper (src : Text) : Text := src.map Char.toUpper

structure Item where
  name : Text
  value : Text
  deriving DecidableEq

/-- `values` is a multimap from upper-case names. -/
structure Configure where
  values : List (Text × Item)
  isInit : Bool
  change : Bool
  deriving DecidableEq

/-- The constructor. -/
def Configure.new : Configure := ⟨[], false, false⟩

/-- Behind all entries with the same key. -/
def insert (iname : Text) (item : Item) : List (Text × Item) → List (Text × Item)
  | [] => [(iname, item)]
  | entry :: rest =>
      if iname < entry.1 then (iname, item) :: entry :: rest
      else entry :: insert iname item rest

/-- The values that are stored under a name. -/
def valuesOf (values : List (Text × Item)) (name : Text) : List Text :=
  (values.filter fun entry => entry.1 = configureUpper name).map fun entry => entry.2.value

namespace Configure

variable (c : Configure)

def setString (name value : Text) : Bool × Configure :=
  let iname := configureUpper name
  let ivalue := configureTrim value
  if 0 < iname.length ∧ 0 < ivalue.length then
    if c.values.any fun entry => entry.1 = iname ∧ entry.2.value = ivalue then (true, c)
    else (true, { c with values := insert iname ⟨name, ivalue⟩ c.values, change := true })
  else (false, c)

def remove (name : Text) : Configure :=
  { c with values := c.values.filter fun entry => entry.1 ≠ configureUpper name }

/-! ## Files -/

/-- The loop of `ParseLine` from the place `iter` on: where it ends and the places that it reads. -/
def scan : Text → Nat → Nat × List Nat
  | [], iter => (iter, [iter])
  | char :: rest, iter =>
      if char = ':' then (iter, [iter])
      else ((scan rest (iter + 1)).1, iter :: (scan rest (iter + 1)).2)

/-- What `ParseLine` does, and the places of the line that it reads. -/
def parseLine (line : Text) : Configure × List Nat :=
  match line with
  | [] => (c, [])
  | first :: _ =>
      if first = '#' then (c, [0])
      else
        let (iter, reads) := scan line 0
        let (name, value) :=
          if iter ≠ line.length then
            (configureTrim (line.take iter), configureTrim (line.drop (iter + 1)))
          else ([], [])
        ((c.setString name value).2, 0 :: reads)

/-- What `getline` gets one after the other. -/
def fileLines (content : Text) : List Text :=
  (lines '\n' content).1.map List.dropLast ++
    if (lines '\n' content).2 = [] then [] else [(lines '\n' content).2]

/-- `file` is the content of the file, if there is one. -/
def parseFile (file : Option Text) : Bool × Configure :=
  match file with
  | none => (false, c)
  | some content => (true, (fileLines content).foldl (fun c line => (c.parseLine line).1) c)

def realInit (inited : Bool) (file : Option Text) : Bool × Configure :=
  if inited then (inited, c) else c.parseFile file

def init (file : Option Text) : Bool × Configure :=
  if c.isInit then (c.isInit, c)
  else
    let (isInit, c) := realInit { c with values := [] } c.isInit file
    (isInit, { c with isInit := isInit, change := false })

def reload (file : Option Text) : Bool × Configure :=
  let (isInit, c) := init { c with isInit := false } file
  (isInit, { c with isInit := isInit, change := if isInit then false else c.change })

def getStrings (file : Option Text) (name : Text) : List Text × Configure :=
  let (isInit, c) := c.init file
  (if isInit then valuesOf c.values name else [], c)

def rebuild : Text :=
  c.values.flatMap fun entry => entry.2.name ++ [' ', '=', ' '] ++ entry.2.value ++ ['\n']

/-- `opens` says whether the file can be opened for writing. -/
def save (file : Option Text) (opens : Bool) : Bool × Configure × Option Text :=
  if c.change then
    if opens then (true, { c with change := false }, some c.rebuild) else (false, c, file)
  else (true, c, file)

end Configure

/-! ## Use -/

/-- A new object, or one that has read its file. -/
inductive Start where
  | new (file : Option Text)
  | inited (content : Text)
  deriving DecidableEq

def Start.file : Start → Option Text
  | .new file => file
  | .inited content => some content

def Start.config : Start → Configure
  | .new _ => .new
  | .inited content => (Configure.new.init (some content)).2

inductive Op where
  | setString (name value : Text)
  | remove (name : Text)
  deriving DecidableEq

def apply (c : Configure) : Op → Configure
  | .setString name value => (c.setString name value).2
  | .remove name => c.remove name

def run (c : Configure) (ops : List Op) : Configure := ops.foldl apply c

/-! ## What is wanted -/

def CleanName (name : Text) : Prop :=
  name ≠ [] ∧ ':' ∉ name ∧ '#' ∉ name ∧ '=' ∉ name ∧ '\n' ∉ name ∧ '\r' ∉ name ∧
    configureTrim name = name

def CleanOp : Op → Prop
  | .setString name value => CleanName name ∧ '\n' ∉ value ∧ '\r' ∉ value
  | .remove name => CleanName name

/-- `file` gives back the values of `before`, to the object `c` and to a new one. -/
structure Survives (before c : Configure) (file : Option Text) : Prop where
  reload : (c.reload file).1 = true
  values : ∀ name, ((c.reload file).2.getStrings file name).1.Perm (valuesOf before.values name)
  new : (Configure.new.init file).1 = true
  newValues : ∀ name, (Configure.new.getStrings file name).1.Perm (valuesOf before.values name)

/-- The values survive a `Save` that succeeds. -/
def RoundTrips (start : Start) (ops : List Op) : Prop :=
  ∀ opens, let c := run start.config ops
    let (saved, c', file) := c.save start.file opens
    saved = true → Survives c c' file

def ReadsInside (line : Text) : Prop :=
  ∀ place ∈ (Configure.new.parseLine line).2, place < line.length

/-- If a value was added then nothing is stored at the end; if not, a new object has a file without
values, and no value of an object that has read its file was removed. -/
def Kept (start : Start) (ops : List Op) : Prop :=
  if (run start.config ops).change then (run start.config ops).values = []
  else
    match start with
    | .new file => ∃ content ∈ file, (Configure.new.parseFile (some content)).2.values = []
    | .inited content => ∀ name, Op.remove name ∈ ops →
        valuesOf (Configure.new.parseFile (some content)).2.values name = []

/-! ## Lines -/

section Lines

theorem scan_places {line : Text} {start place : Nat} (read : place ∈ (Configure.scan line start).2) :
    start ≤ place ∧ place ≤ start + line.length ∧
      (':' ∈ line → place < start + line.length) := by
  induction line generalizing start with
  | nil =>
      rw [List.mem_singleton.mp read]
      simp
  | cons char rest ih =>
      by_cases colon : char = ':'
      · rw [Configure.scan, if_pos colon] at read
        rw [List.mem_singleton.mp read, List.length_cons]
        omega
      · rw [Configure.scan, if_neg colon] at read
        rw [List.length_cons]
        rcases List.mem_cons.mp read with rfl | later
        · omega
        · obtain ⟨low, high, inside⟩ := ih later
          refine ⟨by omega, by omega, fun member => ?_⟩
          have behind : ':' ∈ rest := by simpa [Ne.symm colon] using member
          have := inside behind
          omega

/-- Without a separator the place behind the line is read. -/
theorem scan_end {line : Text} (start : Nat) (noColon : ':' ∉ line) :
    start + line.length ∈ (Configure.scan line start).2 := by
  induction line generalizing start with
  | nil => simp [Configure.scan]
  | cons char rest ih =>
      obtain ⟨other, noColon⟩ := not_or.mp (mt List.mem_cons.mpr noColon)
      rw [Configure.scan, if_neg (Ne.symm other), List.length_cons]
      have later := ih (start + 1) noColon
      rw [show start + (rest.length + 1) = start + 1 + rest.length by omega]
      exact List.mem_cons_of_mem _ later

theorem readsInside_iff (line : Text) :
    ReadsInside line ↔ line = [] ∨ line.head? = some '#' ∨ ':' ∈ line := by
  cases line with
  | nil => exact iff_of_true nofun (Or.inl rfl)
  | cons first rest =>
      by_cases comment : first = '#'
      · subst comment
        refine iff_of_true ?_ (Or.inr (Or.inl rfl))
        simp [ReadsInside, Configure.parseLine]
      · have reads : (Configure.new.parseLine (first :: rest)).2 =
            0 :: (Configure.scan (first :: rest) 0).2 := by
          simp [Configure.parseLine, comment]
        rw [ReadsInside, reads]
        constructor
        · intro inside
          by_contra outside
          have noColon : ':' ∉ first :: rest := fun member => outside (Or.inr (Or.inr member))
          have last := inside _ (List.mem_cons_of_mem _ (scan_end 0 noColon))
          omega
        · intro line place read
          have colon : ':' ∈ first :: rest := by
            rcases line with empty | hash | colon
            · cases empty
            · exact absurd (Option.some.inj hash) comment
            · exact colon
          rcases List.mem_cons.mp read with rfl | read
          · exact Nat.zero_lt_succ _
          · have := (scan_places read).2.2 colon
            omega

theorem fileLines_plain {content line : Text} (member : line ∈ Configure.fileLines content) :
    '\n' ∉ line := by
  rcases List.mem_append.mp member with finished | last
  · obtain ⟨whole, isLine, rfl⟩ := List.mem_map.mp finished
    exact sep_not_mem_dropLast List.not_mem_nil isLine
  · split at last
    · cases last
    · rw [List.mem_singleton.mp last]
      exact sep_not_mem_rest List.not_mem_nil content

theorem fileLines_flatMap {texts : List Text} (plain : ∀ text ∈ texts, '\n' ∉ text) :
    Configure.fileLines (texts.flatMap fun text => text ++ ['\n']) = texts := by
  rw [Configure.fileLines, lines_flatMap plain, if_pos rfl, List.append_nil, List.map_map]
  exact List.map_id'' (fun text => List.dropLast_concat) texts

theorem scan_fst (line : Text) (start : Nat) :
    (Configure.scan line start).1 = start + (line.takeWhile (· ≠ ':')).length := by
  induction line generalizing start with
  | nil => rfl
  | cons char rest ih =>
      by_cases colon : char = ':'
      · simp [Configure.scan, colon]
      · simp [Configure.scan, colon, ih]
        omega

end Lines

/-! ## Trimming -/

section Trim

variable {text : Text} {c : Char}

theorem configureTrim_subset (member : c ∈ configureTrim text) : c ∈ text :=
  (List.dropWhile_sublist _).subset ((List.rdropWhile_prefix _ _).subset member)

theorem head_configureTrim (isHead : (configureTrim text).head? = some c) : isBlank c = false := by
  obtain ⟨rest, split⟩ := List.rdropWhile_prefix isBlank (text.dropWhile isBlank)
  have head : (text.dropWhile isBlank).head? = some c := by
    have whole : (text.dropWhile isBlank).head? = (configureTrim text ++ rest).head? :=
      congrArg List.head? split.symm
    rw [whole, List.head?_append, isHead]
    rfl
  have first := List.head?_dropWhile_not isBlank text
  rw [head] at first
  exact first

/-- What stands before a character that is no blank stays. -/
theorem prefix_rdropWhile (behind : Text) (other : isBlank c = false) :
    text ++ [c] <+: (text ++ [c] ++ behind).rdropWhile isBlank := by
  induction behind using List.reverseRecOn with
  | nil =>
      have kept : (text ++ [c]).rdropWhile isBlank = text ++ [c] :=
        List.rdropWhile_concat_neg _ _ _ (by simp [other])
      rw [List.append_nil]
      exact ⟨[], (List.append_nil _).trans kept.symm⟩
  | append_singleton behind last ih =>
      rw [← List.append_assoc, List.rdropWhile_concat]
      split
      · exact ih
      · rw [List.append_assoc, List.append_assoc]
        exact List.prefix_append_right_inj _ |>.mpr ⟨_, rfl⟩

theorem length_configureTrim (behind : Text) (head : ∀ first ∈ text.head?, isBlank first = false)
    (other : isBlank c = false) :
    text.length + 1 ≤ (configureTrim (text ++ [c] ++ behind)).length := by
  have kept : (text ++ [c] ++ behind).dropWhile isBlank = text ++ [c] ++ behind := by
    cases text with
    | nil => simp [other]
    | cons first rest => simp [head first rfl]
  rw [configureTrim, kept]
  simpa using (prefix_rdropWhile behind other).length_le

end Trim

/-! ## What is stored -/

/-- A name and a value that were stored. -/
structure Stored (entry : Text × Item) : Prop where
  key : entry.1 = configureUpper entry.2.name
  nonempty : entry.2.name ≠ []
  noColon : ':' ∉ entry.2.name
  name : '\n' ∉ entry.2.name
  value : '\n' ∉ entry.2.value
  head : ∀ first ∈ entry.2.name.head?, isBlank first = false

section Stored

variable {c : Configure} {values : List (Text × Item)} {entry : Text × Item} {line : Text}

theorem mem_insert {iname : Text} {item : Item} :
    entry ∈ insert iname item values ↔ entry = (iname, item) ∨ entry ∈ values := by
  induction values with
  | nil => simp [insert]
  | cons other rest ih =>
      rw [insert]
      split
      · simp
      · rw [List.mem_cons, ih, List.mem_cons]
        tauto

/-- `SetString` stores the value, or changes nothing. -/
theorem setString_cases (c : Configure) (name value : Text) :
    (c.setString name value).2 = c ∨
      name ≠ [] ∧ (c.setString name value).2 =
        { c with
          values := insert (configureUpper name) ⟨name, configureTrim value⟩ c.values
          change := true } := by
  by_cases stores : 0 < (configureUpper name).length ∧ 0 < (configureTrim value).length
  · by_cases exists' : c.values.any fun entry =>
        entry.1 = configureUpper name ∧ entry.2.value = configureTrim value
    · left
      rw [Configure.setString, if_pos stores, if_pos exists']
    · right
      refine ⟨fun empty => ?_, by rw [Configure.setString, if_pos stores, if_neg exists']⟩
      rw [empty] at stores
      exact Nat.lt_irrefl 0 stores.1
  · left
    rw [Configure.setString, if_neg stores]

/-- A name and a value that are read from a line with a separator. -/
structure FromLine (line : Text) (entry : Text × Item) : Prop where
  colon : ':' ∈ line
  key : entry.1 = configureUpper entry.2.name
  nonempty : entry.2.name ≠ []
  name : entry.2.name = configureTrim (line.takeWhile (· ≠ ':'))
  value : ∀ char ∈ entry.2.value, char ∈ line

theorem length_takeWhile_iff : (line.takeWhile (· ≠ ':')).length = line.length ↔ ':' ∉ line := by
  constructor
  · intro same colon
    have whole := (List.takeWhile_prefix (· ≠ ':')).eq_of_length same
    simpa using List.takeWhile_eq_self_iff.mp whole ':' colon
  · intro noColon
    rw [List.takeWhile_eq_self_iff.mpr]
    intro char member
    exact decide_eq_true fun colon => noColon (colon ▸ member)

/-- A line that is no comment stores what it holds if it has a separator. -/
theorem parseLine_cons {first : Char} {rest : Text} (other : first ≠ '#') :
    (c.parseLine (first :: rest)).1 =
      if ':' ∈ first :: rest then
        (c.setString (configureTrim ((first :: rest).takeWhile (· ≠ ':')))
          (configureTrim ((first :: rest).drop
            (((first :: rest).takeWhile (· ≠ ':')).length + 1)))).2
      else c := by
  have iter : (Configure.scan (first :: rest) 0).1 =
      ((first :: rest).takeWhile (· ≠ ':')).length := by
    rw [scan_fst, Nat.zero_add]
  have name : (first :: rest).take ((first :: rest).takeWhile (· ≠ ':')).length =
      (first :: rest).takeWhile (· ≠ ':') :=
    (List.prefix_iff_eq_take.mp (List.takeWhile_prefix _)).symm
  rw [Configure.parseLine, if_neg other]
  dsimp only
  rw [iter]
  by_cases colon : ':' ∈ first :: rest
  · rw [if_pos (mt length_takeWhile_iff.mp (not_not_intro colon)), if_pos colon, name]
  · rw [if_neg (not_not_intro (length_takeWhile_iff.mpr colon)), if_neg colon]
    rfl

theorem parseLine_mem (member : entry ∈ (c.parseLine line).1.values) :
    entry ∈ c.values ∨ FromLine line entry := by
  cases line with
  | nil => exact Or.inl member
  | cons first rest =>
      by_cases comment : first = '#'
      · rw [Configure.parseLine, if_pos comment] at member
        exact Or.inl member
      · rw [parseLine_cons comment] at member
        split at member
        · rename_i colon
          rcases setString_cases c _ _ with same | ⟨nonempty, stored⟩
          · exact Or.inl (same ▸ member)
          · rw [stored] at member
            rcases mem_insert.mp member with rfl | before
            · refine Or.inr ⟨colon, rfl, nonempty, rfl, fun char inValue => ?_⟩
              exact List.mem_of_mem_drop (configureTrim_subset (configureTrim_subset inValue))
            · exact Or.inl before
        · exact Or.inl member

theorem parseLines_mem {fileLines : List Text}
    (member : entry ∈ (fileLines.foldl (fun c line => (c.parseLine line).1) c).values) :
    entry ∈ c.values ∨ ∃ line ∈ fileLines, FromLine line entry := by
  induction fileLines generalizing c with
  | nil => exact Or.inl member
  | cons line rest ih =>
      rcases ih member with first | ⟨later, isLine, holds⟩
      · rcases parseLine_mem first with before | here
        · exact Or.inl before
        · exact Or.inr ⟨line, List.mem_cons_self, here⟩
      · exact Or.inr ⟨later, List.mem_cons_of_mem _ isLine, holds⟩

/-- The values that a file holds. -/
def parsed (content : Text) : List (Text × Item) :=
  (Configure.new.parseFile (some content)).2.values

theorem parsed_mem {content : Text} (member : entry ∈ parsed content) :
    ∃ line ∈ Configure.fileLines content, FromLine line entry := by
  rcases parseLines_mem member with before | fromLine
  · exact absurd before List.not_mem_nil
  · exact fromLine

theorem FromLine.stored (holds : FromLine line entry) (plain : '\n' ∉ line) : Stored entry := by
  have inLine : ∀ char ∈ entry.2.name, char ∈ line.takeWhile (· ≠ ':') := by
    intro char member
    rw [holds.name] at member
    exact configureTrim_subset member
  refine ⟨holds.key, holds.nonempty, fun colon => ?_, fun break' => ?_,
    fun break' => plain (holds.value _ break'), fun first isHead => ?_⟩
  · simpa using List.mem_takeWhile_imp (inLine _ colon)
  · exact plain ((List.takeWhile_prefix _).subset (inLine _ break'))
  · rw [holds.name] at isHead
    exact head_configureTrim isHead

theorem parsed_stored {content : Text} : ∀ entry ∈ parsed content, Stored entry := by
  intro entry member
  obtain ⟨line, isLine, holds⟩ := parsed_mem member
  exact holds.stored (fileLines_plain isLine)

theorem run_stored {ops : List Op} (clean : ∀ op ∈ ops, CleanOp op)
    (before : ∀ entry ∈ c.values, Stored entry) : ∀ entry ∈ (run c ops).values, Stored entry := by
  induction ops generalizing c with
  | nil => exact before
  | cons op rest ih =>
      refine ih (fun other member => clean other (List.mem_cons_of_mem _ member)) ?_
      have isClean := clean op List.mem_cons_self
      intro entry member
      cases op with
      | remove name => exact before entry (List.mem_of_mem_filter member)
      | setString name value =>
          obtain ⟨⟨nonempty, noColon, -, -, oneLine, -, trimmed⟩, plain, -⟩ := isClean
          change entry ∈ (c.setString name value).2.values at member
          rcases setString_cases c name value with same | ⟨-, stored⟩
          · exact before entry (same ▸ member)
          · rw [stored] at member
            rcases mem_insert.mp member with rfl | old
            · refine ⟨rfl, nonempty, noColon, oneLine, fun break' => ?_, fun first isHead => ?_⟩
              · exact plain (configureTrim_subset break')
              · exact head_configureTrim (trimmed.symm ▸ isHead)
            · exact before entry old

end Stored

/-! ## Writing and reading -/

section Rebuild

variable {c : Configure} {values : List (Text × Item)} {entry other : Text × Item}

/-- What `Rebuild` writes for an entry, without the end of the line. -/
def lineOf (entry : Text × Item) : Text := entry.2.name ++ [' ', '=', ' '] ++ entry.2.value

theorem fileLines_rebuild (stored : ∀ entry ∈ c.values, Stored entry) :
    Configure.fileLines c.rebuild = c.values.map lineOf := by
  have plain : ∀ text ∈ c.values.map lineOf, '\n' ∉ text := by
    intro text member break'
    obtain ⟨entry, isEntry, rfl⟩ := List.mem_map.mp member
    have holds := stored entry isEntry
    simp [lineOf, holds.name, holds.value] at break'
  have written : c.rebuild = (c.values.map lineOf).flatMap fun text => text ++ ['\n'] := by
    simp [Configure.rebuild, lineOf, List.flatMap_map]
  rw [written, fileLines_flatMap plain]

/-- What is read from the line of an entry has a longer key. -/
theorem key_longer (stored : Stored entry) (read : FromLine (lineOf entry) other) :
    entry.1.length < other.1.length := by
  have before : (lineOf entry).takeWhile (· ≠ ':') =
      entry.2.name ++ [' '] ++ ['='] ++ ([' '] ++ entry.2.value.takeWhile (· ≠ ':')) := by
    have name : ∀ char ∈ entry.2.name, decide (char ≠ ':') = true := fun char member =>
      decide_eq_true fun colon => stored.noColon (colon ▸ member)
    rw [lineOf, List.append_assoc, List.takeWhile_append_of_pos name]
    simp
  have head : ∀ first ∈ (entry.2.name ++ [' ']).head?, isBlank first = false := by
    intro first isHead
    obtain ⟨char, rest, isName⟩ := List.exists_cons_of_ne_nil stored.nonempty
    rw [isName] at isHead
    exact stored.head first (isName ▸ isHead)
  have longer := length_configureTrim ([' '] ++ entry.2.value.takeWhile (· ≠ ':')) head
    (show isBlank '=' = false from rfl)
  rw [← before, ← read.name, List.length_append] at longer
  rw [stored.key, read.key, configureUpper, configureUpper, List.length_map, List.length_map]
  omega

theorem valuesOf_eq_nil {name : Text} :
    valuesOf values name = [] ↔ ∀ entry ∈ values, entry.1 ≠ configureUpper name := by
  simp [valuesOf]

/-- An entry with the shortest key is not read again. -/
theorem values_eq_nil_of_perm (stored : ∀ entry ∈ c.values, Stored entry)
    (same : ∀ name, (valuesOf (parsed c.rebuild) name).Perm (valuesOf c.values name)) :
    c.values = [] := by
  have none_of_length : ∀ n, ∀ entry ∈ c.values, entry.1.length ≠ n := by
    intro n
    induction n using Nat.strong_induction_on with
    | _ n ih =>
        intro entry member isLength
        have key := (stored entry member).key
        have kept : valuesOf (parsed c.rebuild) entry.2.name ≠ [] := by
          intro lost
          have gone := (lost ▸ same entry.2.name).nil_eq.symm
          exact valuesOf_eq_nil.mp gone entry member key
        obtain ⟨read, isParsed, sameKey⟩ : ∃ read ∈ parsed c.rebuild, read.1 = entry.1 := by
          by_contra lost
          push Not at lost
          exact kept (valuesOf_eq_nil.mpr fun read isParsed => key ▸ lost read isParsed)
        obtain ⟨line, isLine, fromLine⟩ := parsed_mem isParsed
        rw [fileLines_rebuild stored] at isLine
        obtain ⟨origin, isOrigin, rfl⟩ := List.mem_map.mp isLine
        have shorter := key_longer (stored origin isOrigin) fromLine
        rw [sameKey, isLength] at shorter
        exact ih origin.1.length shorter origin isOrigin rfl
  exact List.eq_nil_iff_forall_not_mem.mpr fun entry member =>
    none_of_length entry.1.length entry member rfl

end Rebuild

/-! ## Reading again -/

section Reload

variable {c c' before : Configure} {file : Option Text}

/-- Only the values decide what is stored next. -/
theorem parseLine_values (line : Text) (same : c.values = c'.values) :
    (c.parseLine line).1.values = (c'.parseLine line).1.values := by
  have stores : ∀ name value, (c.setString name value).2.values =
      (c'.setString name value).2.values := by
    intro name value
    simp only [Configure.setString, same]
    split
    · split
      · exact same
      · rfl
    · exact same
  cases line with
  | nil => exact same
  | cons first rest =>
      by_cases comment : first = '#'
      · rw [Configure.parseLine, Configure.parseLine, if_pos comment, if_pos comment]
        exact same
      · rw [parseLine_cons comment, parseLine_cons comment]
        split
        · exact stores _ _
        · exact same

theorem parseLines_values (fileLines : List Text) (same : c.values = c'.values) :
    (fileLines.foldl (fun c line => (c.parseLine line).1) c).values =
      (fileLines.foldl (fun c line => (c.parseLine line).1) c').values := by
  induction fileLines generalizing c c' with
  | nil => exact same
  | cons line rest ih => exact ih (parseLine_values line same)

/-- `Init` of an object that has not been initialised reads the file. -/
theorem init_eq (unread : c.isInit = false) :
    c.init file = (file.isSome, ⟨(file.map parsed).getD [], file.isSome, false⟩) := by
  cases file with
  | none => simp [Configure.init, unread, Configure.realInit, Configure.parseFile]
  | some content =>
      have values := parseLines_values (Configure.fileLines content)
        (show { c with values := [] }.values = Configure.new.values from rfl)
      simp only [Configure.init, unread, Configure.realInit, Configure.parseFile]
      simpa [parsed, Configure.parseFile, unread] using values

theorem reload_eq :
    c.reload file = (file.isSome, ⟨(file.map parsed).getD [], file.isSome, false⟩) := by
  rw [Configure.reload, init_eq rfl]
  simp

theorem survives_iff : Survives before c file ↔
    ∃ content, file = some content ∧
      ∀ name, (valuesOf (parsed content) name).Perm (valuesOf before.values name) := by
  cases file with
  | none =>
      refine iff_of_false (fun survives => ?_) nofun
      have reloaded := survives.reload
      rw [reload_eq] at reloaded
      cases reloaded
  | some content =>
      have reloaded : ∀ name, ((c.reload (some content)).2.getStrings (some content) name).1 =
          valuesOf (parsed content) name := by
        intro name
        simp [reload_eq, Configure.getStrings, Configure.init]
      have new : ∀ name, (Configure.new.getStrings (some content) name).1 =
          valuesOf (parsed content) name := by
        intro name
        simp [Configure.getStrings, init_eq (show Configure.new.isInit = false from rfl)]
      constructor
      · intro survives
        exact ⟨content, rfl, fun name => reloaded name ▸ survives.values name⟩
      · rintro ⟨same, isContent, values⟩
        obtain rfl := Option.some.inj isContent
        refine ⟨by rw [reload_eq]; rfl, fun name => ?_, by rw [init_eq rfl]; rfl, fun name => ?_⟩
        · rw [reloaded]
          exact values name
        · rw [new]
          exact values name

end Reload

/-! ## Runs -/

section Runs

variable {c : Configure} {ops : List Op} {start : Start}

/-- A value that is added is noted; what is removed is not. -/
theorem apply_change (c : Configure) (op : Op) :
    (apply c op).change = true ∨ (apply c op).change = c.change ∧
      ((∃ name, op = .remove name ∧ apply c op = c.remove name) ∨
        (∀ name, op ≠ .remove name) ∧ apply c op = c) := by
  cases op with
  | remove name => exact Or.inr ⟨rfl, Or.inl ⟨name, rfl, rfl⟩⟩
  | setString name value =>
      rcases setString_cases c name value with same | ⟨-, stored⟩
      · exact Or.inr ⟨congrArg Configure.change same, Or.inr ⟨nofun, same⟩⟩
      · exact Or.inl (congrArg Configure.change stored)

theorem run_changed (changed : c.change = true) : (run c ops).change = true := by
  induction ops generalizing c with
  | nil => exact changed
  | cons op rest ih =>
      refine ih ?_
      rcases apply_change c op with yes | ⟨same, -⟩
      · exact yes
      · rw [same, changed]

/-- Whether a call removes the entries with a key. -/
def removes (key : Text) : Op → Bool
  | .remove name => key = configureUpper name
  | _ => false

/-- As long as nothing is added, the entries that are not removed stay. -/
theorem run_unchanged (unchanged : (run c ops).change = false) :
    (run c ops).values = c.values.filter fun entry => !ops.any (removes entry.1) := by
  induction ops generalizing c with
  | nil => simp [run]
  | cons op rest ih =>
      have later := ih unchanged
      change (run (apply c op) rest).values = _
      rw [later]
      rcases apply_change c op with yes | ⟨-, ⟨name, rfl, removed⟩ | ⟨other, same⟩⟩
      · exact absurd (run_changed yes) (Bool.eq_false_iff.mp unchanged)
      · rw [removed, Configure.remove, List.filter_filter]
        refine List.filter_congr fun entry _ => ?_
        simp [removes, Bool.and_comm]
      · rw [same]
        refine List.filter_congr fun entry _ => ?_
        cases op with
        | remove name => exact absurd rfl (other name)
        | setString name value => simp [removes]

theorem start_stored (start : Start) : ∀ entry ∈ start.config.values, Stored entry := by
  cases start with
  | new file => exact nofun
  | inited content =>
      rw [Start.config, init_eq rfl]
      exact parsed_stored

/-- What is saved is read again if nothing was stored. -/
theorem roundTrips_changed (clean : ∀ op ∈ ops, CleanOp op)
    (changed : (run start.config ops).change = true) :
    RoundTrips start ops ↔ (run start.config ops).values = [] := by
  have saved : RoundTrips start ops ↔ ∃ content, some (run start.config ops).rebuild = some content ∧
      ∀ name, (valuesOf (parsed content) name).Perm
        (valuesOf (run start.config ops).values name) := by
    rw [← survives_iff]
    constructor
    · intro roundTrips
      have survives := roundTrips true
      simp only [Configure.save, changed, if_true] at survives
      exact survives trivial
    · intro survives opens
      cases opens with
      | true => simpa [Configure.save, changed] using survives
      | false => simp [Configure.save, changed]
  rw [saved]
  constructor
  · rintro ⟨content, isContent, same⟩
    obtain rfl := Option.some.inj isContent
    exact values_eq_nil_of_perm (run_stored clean (start_stored start)) same
  · intro empty
    refine ⟨_, rfl, fun name => ?_⟩
    rw [Configure.rebuild, empty]
    exact List.Perm.refl _

theorem roundTrips_unchanged (unchanged : (run start.config ops).change = false) :
    RoundTrips start ops ↔ ∃ content, start.file = some content ∧
      ∀ name, (valuesOf (parsed content) name).Perm
        (valuesOf (start.config.values.filter fun entry => !ops.any (removes entry.1)) name) := by
  rw [← run_unchanged unchanged, ← survives_iff]
  constructor
  · intro roundTrips
    have survives := roundTrips true
    simp only [Configure.save, unchanged, Bool.false_eq_true, if_false] at survives
    exact survives trivial
  · intro survives opens
    simpa [Configure.save, unchanged] using survives

theorem eq_nil_of_valuesOf {values : List (Text × Item)} (stored : ∀ entry ∈ values, Stored entry)
    (empty : ∀ name, valuesOf values name = []) : values = [] := by
  refine List.eq_nil_iff_forall_not_mem.mpr fun entry member => ?_
  exact valuesOf_eq_nil.mp (empty entry.2.name) entry member (stored entry member).key

theorem removes_iff {key : Text} :
    ops.any (removes key) = true ↔ ∃ name, Op.remove name ∈ ops ∧ key = configureUpper name := by
  rw [List.any_eq_true]
  constructor
  · rintro ⟨op, member, isKey⟩
    cases op with
    | remove name => exact ⟨name, member, of_decide_eq_true isKey⟩
    | setString name value => cases isKey
  · rintro ⟨name, member, isKey⟩
    exact ⟨.remove name, member, decide_eq_true isKey⟩

/-- Nothing that the file holds is lost if nothing of it was removed. -/
theorem perm_filter_iff {values : List (Text × Item)} :
    (∀ name, (valuesOf values name).Perm
      (valuesOf (values.filter fun entry => !ops.any (removes entry.1)) name)) ↔
      ∀ name, Op.remove name ∈ ops → valuesOf values name = [] := by
  constructor
  · intro same name removed
    have gone : valuesOf (values.filter fun entry => !ops.any (removes entry.1)) name = [] := by
      refine valuesOf_eq_nil.mpr fun entry kept isKey => ?_
      have stays := (List.mem_filter.mp kept).2
      rw [removes_iff.mpr ⟨name, removed, isKey⟩] at stays
      cases stays
    exact (gone ▸ same name).eq_nil
  · intro unremoved name
    have all : (values.filter fun entry => !ops.any (removes entry.1)) = values := by
      refine List.filter_eq_self.mpr fun entry member => ?_
      rw [Bool.not_eq_true', Bool.eq_false_iff]
      intro removed
      obtain ⟨name, isOp, isKey⟩ := removes_iff.mp removed
      exact valuesOf_eq_nil.mp (unremoved name isOp) entry member isKey
    rw [all]

/-- The values survive exactly if a value was added and none is left, or if nothing was added, the
file is there and it holds what was stored. A line is left by the scanner if it has no separator. -/
theorem textConfig_iff (start : Start) (ops : List Op) (line : Text)
    (clean : ∀ op ∈ ops, CleanOp op) :
    (RoundTrips start ops ↔ Kept start ops) ∧
      (ReadsInside line ↔ line = [] ∨ line.head? = some '#' ∨ ':' ∈ line) := by
  refine ⟨?_, readsInside_iff line⟩
  unfold Kept
  cases changed : (run start.config ops).change with
  | true => exact roundTrips_changed clean changed
  | false =>
      rw [roundTrips_unchanged changed, if_neg Bool.false_ne_true]
      cases start with
      | new file =>
          constructor
          · rintro ⟨content, isFile, same⟩
            refine ⟨content, isFile, eq_nil_of_valuesOf parsed_stored fun name => ?_⟩
            exact (same name).eq_nil
          · rintro ⟨content, isFile, empty⟩
            refine ⟨content, isFile, fun name => ?_⟩
            rw [parsed, empty]
            exact List.Perm.refl _
      | inited content =>
          have values : (Start.inited content).config.values = parsed content := by
            rw [Start.config, init_eq rfl]
            rfl
          rw [values]
          constructor
          · rintro ⟨other, isContent, same⟩
            obtain rfl := Option.some.inj isContent
            exact perm_filter_iff.mp same
          · intro unremoved
            exact ⟨content, rfl, perm_filter_iff.mpr unremoved⟩

theorem cleanName_letter : CleanName ['a'] :=
  ⟨by decide, by decide, by decide, by decide, by decide, by decide, by decide⟩

/-- A file with one value is kept when another name is removed and the same value is set. -/
theorem textConfig_iff_kept :
    RoundTrips (.inited ['b', ':', ' ', '1', '\n']) [.remove ['a']] ∧
      ReadsInside ['b', ':', ' ', '1'] := by
  have clean : ∀ op ∈ [Op.remove ['a']], CleanOp op := by
    intro op member
    rw [List.mem_singleton.mp member]
    exact cleanName_letter
  obtain ⟨roundTrips, readsInside⟩ :=
    textConfig_iff (.inited ['b', ':', ' ', '1', '\n']) _ ['b', ':', ' ', '1'] clean
  refine ⟨roundTrips.mpr ?_, readsInside.mpr (by decide)⟩
  rw [Kept, if_neg (by decide)]
  intro name removed
  have isName : name = ['a'] := by simpa using removed
  rw [isName]
  decide

/-- The file that is written has no separator that is read, and the line is read past its end. -/
theorem saved_value_lost :
    CleanOp (.setString ['a'] ['1']) ∧
      ((run .new [.setString ['a'] ['1']]).save none true).2.2 =
        some ['a', ' ', '=', ' ', '1', '\n'] ∧
      (Configure.new.getStrings (some ['a', ' ', '=', ' ', '1', '\n']) ['a']).1 = [] ∧
      ¬ RoundTrips (.new none) [.setString ['a'] ['1']] ∧
      (Configure.new.parseLine ['a', ' ', '=', ' ', '1']).2 = [0, 0, 1, 2, 3, 4, 5] ∧
      ¬ ReadsInside ['a', ' ', '=', ' ', '1'] := by
  refine ⟨⟨cleanName_letter, by decide, by decide⟩, by decide, by decide, fun roundTrips => ?_,
    by decide, fun inside => ?_⟩
  · have survives := roundTrips true rfl
    exact absurd (survives.newValues ['a']).length_eq (by decide)
  · exact absurd (inside 5 (by decide)) (by decide)

end Runs

end MlsImgSearch.Utils.TextConfig
