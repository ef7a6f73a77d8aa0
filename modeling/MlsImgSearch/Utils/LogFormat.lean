import MlsImgSearch.Lib.Bytes
import MlsImgSearch.Lib.Int32
import Mathlib.Data.List.TakeWhile

/-!
# Log lines

A format is cut at its percent signs and becomes entries for literal texts and fields by turns. A
literal text is marked by its negative length, and a field by its offset in the log data. A line is
the texts and the values one after the other, as far as they fit into the buffer.
-/

namespace MlsImgSearch.Utils.LogFormat

open Lib.Bytes Lib.Int32

abbrev Text := List UInt8

def percent : UInt8 := 37

/-! ## Log data -/

/-- The pointers of `log_data_t` that a format can name. -/
inductive Field where
  | level
  | name
  | time
  | file
  | function
  | line
  | pid
  | tid
  | ptid
  | msg
  deriving DecidableEq

/-- `OFFSET(log_data_t, field)` behind the arrays, in 64 bits. -/
def Field.offset : Field → Int
  | .level => 112
  | .name => 120
  | .file => 128
  | .function => 136
  | .msg => 144
  | .line => 152
  | .time => 160
  | .pid => 168
  | .tid => 176
  | .ptid => 184

/-- The characters that name fields, in the order of the table. -/
def letters : List (UInt8 × Field) :=
  [(76, .level), (78, .name), (84, .time), (70, .file), (102, .function), (108, .line), (80, .pid),
    (116, .tid), (112, .ptid), (77, .msg)]

/-- `m_fmtFilter`, without its first entry. -/
def fmtFilter : List (Text × Field) := letters.map fun entry => ([percent, entry.1], entry.2)

/-- The field at an offset. -/
def memberAt (offset : Int) : Option Field :=
  (letters.find? fun entry => entry.2.offset = offset).map Prod.snd

/-- The strings that the pointers point to, and the time. -/
structure LogData where
  value : Field → Text
  timeArr : Text

/-! ## Reading a format -/

/-- `logAppender_format_t` -/
structure Entry where
  fmtName : Text
  offset : Int
  deriving DecidableEq

/-- `-1 * n` as an `int` -/
def negated (n : Int) : Option Int := if n = -2 ^ 31 then none else some (-n)

/-- `strcpy` copies up to the first zero. -/
def cString (text : Text) : Text := text.takeWhile (· ≠ 0)

/-- `split` without a limit. -/
def split (src : Text) (det : UInt8) : List Text := src.splitOn det

/-- What is inserted for the pieces behind percent signs. -/
def pieceItems : List Text → List Text
  | [] => []
  | [] :: [] => [[percent]]
  | [] :: next :: rest => [percent] :: next :: pieceItems rest
  | (c :: text) :: rest => [percent, c] :: text :: pieceItems rest

/-- What is inserted for all pieces. -/
def fmtItems : List Text → List Text
  | [] => []
  | first :: rest => first :: pieceItems rest

/-- `GetData` -/
def getData (fmtName : Text) : Option Entry :=
  match fmtFilter.find? fun entry => entry.1 = fmtName with
  | some (_, field) => some ⟨fmtName, field.offset⟩
  | none => (negated (int32 fmtName.length)).map (Entry.mk fmtName)

def divEntry (tmpDivString : Text) : Option Entry :=
  (negated (int32 tmpDivString.length)).map (Entry.mk tmpDivString)

/-- The second loop of `ParseFormat`: texts are joined until a field comes. -/
def joinItems : Text → List Entry → Option (List Entry)
  | tmpDivString, [] => (divEntry tmpDivString).map fun last => [last]
  | tmpDivString, e :: rest =>
      if 0 < e.offset then
        (divEntry tmpDivString).bind fun div =>
          (joinItems [] rest).map fun later => div :: e :: later
      else joinItems (tmpDivString ++ e.fmtName) rest

/-- Entries are put into an array one by one. There is no result if it is too short, or if the
number of entries overflows. -/
def inArray {α : Type} (capacity : Nat) (entries : List α) : Option (List α) :=
  if entries.length ≤ capacity ∧ entries.length < 2 ^ 31 then some entries else none

def parseFormat (format : Text) : Option (List Entry) :=
  let use := split format percent
  let capacity := use.length * 2 + 1
  (inArray capacity ((fmtItems use).map cString)).bind fun items =>
    (items.mapM getData).bind fun items =>
      (joinItems [] items).bind (inArray capacity)

/-! ## Writing a line -/

def MAXLEN_LOGBUFF : Nat := 32 * 1024

/-- The memory that a line is written to. -/
structure LogBuff where
  mem : List UInt8
  size : mem.length = MAXLEN_LOGBUFF

/-- `pLog` and `iLenBuff` while the buffer is filled. -/
structure Cursor where
  mem : List UInt8
  pLog : Nat
  iLenBuff : Int

/-- Copy a string, as far as there is room. There is no result if the assertion fails. -/
def copy (c : Cursor) (pStr : Text) (iLenStr : Int) : Option Cursor :=
  let iLenStr := if iLenStr < c.iLenBuff then iLenStr else c.iLenBuff
  if iLenStr < 0 ∨ pStr.length < iLenStr.toNat then none
  else
    (writeAt c.mem c.pLog (pStr.take iLenStr.toNat)).map fun mem =>
      ⟨mem, c.pLog + iLenStr.toNat, c.iLenBuff - iLenStr⟩

/-- The loop over pairs of a text and a field, and the last text. -/
def copyEntries (data : LogData) : List Entry → Cursor → Option Cursor
  | [], _ => none
  | [last], c => copy c last.fmtName (-last.offset)
  | text :: field :: rest, c =>
      (copy c text.fmtName (-text.offset)).bind fun c =>
        (memberAt field.offset).bind fun member =>
          (copy c (data.value member) (int32 (data.value member).length)).bind
            (copyEntries data rest)

/-- `GetLogData`; the first result is `m_timeArr`. -/
def getLogData (format : List Entry) (data : LogData) (logBuff : List UInt8) :
    Option (Text × List UInt8) :=
  (writeAt logBuff (MAXLEN_LOGBUFF - 2) [10, 0]).bind fun mem =>
    (copyEntries data format ⟨mem, 0, (MAXLEN_LOGBUFF - 2 : Nat)⟩).bind fun c =>
      (if 0 < c.iLenBuff then writeAt c.mem c.pLog [10, 0] else some c.mem).map fun mem =>
        (data.timeArr, mem)

/-! ## What is wanted -/

/-- A format, read from left to right. -/
inductive Token where
  | literal (c : UInt8)
  | field (field : Field)
  deriving DecidableEq

def fieldOf (c : UInt8) : Option Field := (letters.find? fun entry => entry.1 = c).map Prod.snd

def tokens : Text → List Token
  | [] => []
  | [c] => [.literal c]
  | c :: d :: rest =>
      if c ≠ percent then .literal c :: tokens (d :: rest)
      else if d = percent then .literal percent :: tokens rest
      else
        match fieldOf d with
        | some field => .field field :: tokens rest
        | none => .literal percent :: tokens (d :: rest)

def Token.text (data : LogData) : Token → Text
  | .literal c => [c]
  | .field f => data.value f

def expand (data : LogData) (format : Text) : Text := (tokens format).flatMap (Token.text data)

/-- A text, with its length as a negative offset. -/
def textEntry (text : Text) : Entry := ⟨text, -(text.length : Int)⟩

def Entry.IsText (e : Entry) : Prop := e = textEntry e.fmtName

def Entry.IsField (e : Entry) : Prop := ∃ entry ∈ fmtFilter, e = ⟨entry.1, entry.2.offset⟩

/-- Texts and fields by turns; the first and the last entry are texts. -/
def Alternate : List Entry → Prop
  | [] => False
  | [last] => last.IsText
  | text :: field :: rest => text.IsText ∧ field.IsField ∧ Alternate rest

/-- The texts between the fields of a format, after `text`. -/
def texts (text : Text) : List Token → List Text
  | [] => [text]
  | .literal c :: rest => texts (text ++ [c]) rest
  | .field _ :: rest => text :: texts [] rest

/-- The parts that a format is cut into: two for a percent sign with a character, one for a percent
sign at the end, and the text before them. -/
def parts : Text → Nat
  | [] => 1
  | [c] => if c = percent then 2 else 1
  | c :: d :: rest => if c = percent then parts rest + 2 else parts (d :: rest)

section Wanted

variable (format : Text) (data : LogData) (logBuff : LogBuff)

/-- What is expanded, as far as it fits, stands at the beginning of the buffer with a line feed and
a zero behind it. -/
def Written (mem : List UInt8) : Prop :=
  let line := (expand data format).take (MAXLEN_LOGBUFF - 2)
  mem.length = MAXLEN_LOGBUFF ∧ mem.take (line.length + 2) = line ++ [10, 0]

/-- The entries alternate and fit the array, and the line is written. -/
def Right : Prop :=
  ∃ entries timeArr mem, parseFormat format = some entries ∧ Alternate entries ∧
    entries.length ≤ (split format percent).length * 2 + 1 ∧
      getLogData entries data logBuff.mem = some (timeArr, mem) ∧ Written format data mem

/-- The number of parts, the texts between the fields and the values of the fields fit an `int`. -/
structure Fits : Prop where
  parts : parts format < 2 ^ 31
  texts : ∀ text ∈ texts [] (tokens format), text.length < 2 ^ 31
  values : ∀ f, Token.field f ∈ tokens format → (data.value f).length < 2 ^ 31

end Wanted

/-! ## The parts of a format -/

section Parts

/-- What an item stands for. -/
def itemTokens (item : Text) : List Token :=
  match fmtFilter.find? fun entry => entry.1 = item with
  | some (_, f) => [.field f]
  | none => item.map .literal

theorem find_fmtFilter (c : UInt8) :
    fmtFilter.find? (fun entry => entry.1 = [percent, c]) =
      (letters.find? fun entry => entry.1 = c).map fun entry => ([percent, entry.1], entry.2) := by
  rw [fmtFilter, List.find?_map]
  congr 2
  funext entry
  simp

theorem itemTokens_plain {item : Text} (plain : percent ∉ item) :
    itemTokens item = item.map .literal := by
  have absent : fmtFilter.find? (fun entry => entry.1 = item) = none := by
    rw [List.find?_eq_none]
    intro entry member
    obtain ⟨letter, -, rfl⟩ := List.mem_map.mp member
    rw [decide_eq_true_eq]
    rintro rfl
    exact plain List.mem_cons_self
  rw [itemTokens, absent]

theorem itemTokens_percent : itemTokens [percent] = [.literal percent] := rfl

theorem itemTokens_letter (c : UInt8) :
    itemTokens [percent, c] = match fieldOf c with
      | some f => [.field f]
      | none => [.literal percent, .literal c] := by
  rw [itemTokens, find_fmtFilter, fieldOf]
  cases letters.find? fun entry => entry.1 = c with
  | none => rfl
  | some entry => rfl

/-- A character that is no percent sign belongs to the text before the first one. -/
theorem tokens_cons {c : UInt8} (other : c ≠ percent) (rest : Text) :
    tokens (c :: rest) = .literal c :: tokens rest := by
  cases rest with
  | nil => rfl
  | cons d rest => rw [tokens, if_pos other]

theorem split_cons {c : UInt8} (other : c ≠ percent) (rest : Text) :
    split (c :: rest) percent = (split rest percent).modifyHead (c :: ·) := by
  rw [split, List.splitOn_cons_eq_if_modifyHead, if_neg (by simpa using other)]
  rfl

theorem split_percent (rest : Text) :
    split (percent :: rest) percent = [] :: split rest percent := by
  rw [split, List.splitOn_cons_eq_if_modifyHead, if_pos (by simp)]
  rfl

/-- The first piece before any percent sign, and the items for the others. -/
structure Cut (format first : Text) (rest : List Text) : Prop where
  pieces : split format percent = first :: rest
  plain : ∀ piece ∈ first :: rest, percent ∉ piece
  read : tokens format = first.map .literal ++ (pieceItems rest).flatMap itemTokens
  counted : parts format = (pieceItems rest).length + 1
  within : ∀ item ∈ first :: pieceItems rest, item ⊆ format

theorem Cut.single (c : UInt8) (other : c ≠ percent) : Cut [c] [c] [] where
  pieces := by rw [split_cons other]; rfl
  plain := by
    rintro piece member
    obtain rfl := List.mem_singleton.mp member
    simpa using other.symm
  read := rfl
  counted := if_neg other
  within := by simp [pieceItems]

theorem Cut.cons {format first : Text} {rest : List Text} {c : UInt8} (other : c ≠ percent)
    (cut : Cut format first rest) : Cut (c :: format) (c :: first) rest where
  pieces := by rw [split_cons other, cut.pieces]; rfl
  plain := by
    obtain ⟨plain, others⟩ := List.forall_mem_cons.mp cut.plain
    refine List.forall_mem_cons.mpr ⟨?_, others⟩
    rw [List.mem_cons, not_or]
    exact ⟨other.symm, plain⟩
  read := by rw [tokens_cons other, cut.read]; rfl
  counted := by
    rw [← cut.counted]
    cases format with
    | nil => exact if_neg other
    | cons d format => exact if_neg other
  within := by
    intro item member
    rcases List.mem_cons.mp member with rfl | member
    · exact List.cons_subset_cons c (cut.within first List.mem_cons_self)
    · exact List.subset_cons_of_subset c (cut.within item (List.mem_cons_of_mem _ member))

/-- Two percent signs: an empty piece, and the piece behind it. -/
theorem Cut.twice {format first : Text} {rest : List Text} (cut : Cut format first rest) :
    Cut (percent :: percent :: format) [] ([] :: first :: rest) where
  pieces := by rw [split_percent, split_percent, cut.pieces]
  plain := by simpa using cut.plain
  read := by
    rw [tokens, if_neg (by simp), if_pos rfl, cut.read, pieceItems, List.flatMap_cons,
      List.flatMap_cons, itemTokens_percent, itemTokens_plain (cut.plain first List.mem_cons_self)]
    rfl
  counted := by
    rw [parts, if_pos rfl, cut.counted]
    rfl
  within := by
    intro item member
    rw [pieceItems, List.mem_cons, List.mem_cons] at member
    rcases member with rfl | rfl | member
    · exact List.nil_subset _
    · simp
    · exact List.subset_cons_of_subset _ (List.subset_cons_of_subset _ (cut.within item member))

/-- A percent sign and another character: the piece begins with that character. -/
theorem Cut.letter {format first : Text} {rest : List Text} {d : UInt8} (other : d ≠ percent)
    (cut : Cut format first rest) :
    Cut (percent :: d :: format) [] ((d :: first) :: rest) where
  pieces := by rw [split_percent, split_cons other, cut.pieces]; rfl
  plain := by simpa [Ne.symm other] using cut.plain
  read := by
    rw [tokens, if_neg (by simp), if_neg other, pieceItems, List.flatMap_cons, List.flatMap_cons,
      itemTokens_letter, itemTokens_plain (cut.plain first List.mem_cons_self), tokens_cons other,
      cut.read]
    cases fieldOf d with
    | none => rfl
    | some f => rfl
  counted := by
    rw [parts, if_pos rfl, cut.counted]
    rfl
  within := by
    intro item member
    rw [pieceItems, List.mem_cons, List.mem_cons] at member
    rcases member with rfl | rfl | member
    · exact List.nil_subset _
    · simp
    · exact List.subset_cons_of_subset _ (List.subset_cons_of_subset _ (cut.within item member))

/-- Every format is cut so that its parts stand for its tokens. -/
theorem cut_exists (format : Text) : ∃ first rest, Cut format first rest := by
  induction format using parts.induct with
  | case1 => exact ⟨[], [], ⟨rfl, by simp, rfl, rfl, by simp [pieceItems]⟩⟩
  | case2 =>
      refine ⟨[], [[]], ⟨rfl, by simp, rfl, rfl, ?_⟩⟩
      simp [pieceItems]
  | case3 c other => exact ⟨[c], [], Cut.single c other⟩
  | case4 d rest ih =>
      obtain ⟨first, pieces, cut⟩ := ih
      by_cases twice : d = percent
      · subst twice
        exact ⟨_, _, cut.twice⟩
      · exact ⟨_, _, cut.letter twice⟩
  | case5 c d rest other ih =>
      obtain ⟨first, pieces, cut⟩ := ih
      exact ⟨_, _, cut.cons other⟩

theorem length_pieceItems_le (rest : List Text) : (pieceItems rest).length ≤ 2 * rest.length := by
  induction rest using pieceItems.induct with
  | case1 => exact Nat.le_refl 0
  | case2 => simp [pieceItems]
  | case3 next rest ih =>
      simp only [pieceItems, List.length_cons]
      omega
  | case4 c text rest ih =>
      simp only [pieceItems, List.length_cons]
      omega

end Parts

/-! ## The entries of a format -/

section Entries

def Field.letter : Field → UInt8
  | .level => 76
  | .name => 78
  | .time => 84
  | .file => 70
  | .function => 102
  | .line => 108
  | .pid => 80
  | .tid => 116
  | .ptid => 112
  | .msg => 77

def fieldEntry (f : Field) : Entry := ⟨[percent, f.letter], f.offset⟩

theorem fieldEntry_isField (f : Field) : (fieldEntry f).IsField := by
  refine ⟨([percent, f.letter], f), ?_, rfl⟩
  cases f <;> decide

theorem memberAt_offset (f : Field) : memberAt f.offset = some f := by
  cases f <;> decide

theorem offset_pos (f : Field) : 0 < (fieldEntry f).offset := by
  cases f <;> decide

/-- The entries for the tokens of a format, after `text`. -/
def entriesOf (text : Text) : List Token → List Entry
  | [] => [textEntry text]
  | .literal c :: rest => entriesOf (text ++ [c]) rest
  | .field f :: rest => textEntry text :: fieldEntry f :: entriesOf [] rest

theorem entriesOf_literals (text item : Text) (rest : List Token) :
    entriesOf text (item.map .literal ++ rest) = entriesOf (text ++ item) rest := by
  induction item generalizing text with
  | nil => rw [List.append_nil]; rfl
  | cons c item ih =>
      rw [List.map_cons, List.cons_append, entriesOf, ih, List.append_assoc]
      rfl

theorem texts_literals (text item : Text) (rest : List Token) :
    texts text (item.map .literal ++ rest) = texts (text ++ item) rest := by
  induction item generalizing text with
  | nil => rw [List.append_nil]; rfl
  | cons c item ih =>
      rw [List.map_cons, List.cons_append, texts, ih, List.append_assoc]
      rfl

theorem entriesOf_alternate (text : Text) (read : List Token) :
    Alternate (entriesOf text read) := by
  induction text, read using entriesOf.induct with
  | case1 text => exact rfl
  | case2 text c rest ih => exact ih
  | case3 text f rest ih => exact ⟨rfl, fieldEntry_isField f, ih⟩

/-- An item names a field, or it is a text. -/
theorem item_cases (item : Text) :
    (∃ f, itemTokens item = [.field f] ∧ getData item = some (fieldEntry f)) ∨
      itemTokens item = item.map .literal ∧
        getData item = (negated (int32 item.length)).map (Entry.mk item) := by
  cases found : fmtFilter.find? fun entry => entry.1 = item with
  | none =>
      right
      rw [itemTokens, getData, found]
      exact ⟨rfl, rfl⟩
  | some entry =>
      left
      obtain ⟨name, f⟩ := entry
      have same : name = item := by simpa using List.find?_some found
      have isIn := List.mem_of_find?_eq_some found
      have named : name = [percent, f.letter] := by
        simp only [fmtFilter, letters, List.map_cons, List.map_nil, List.mem_cons, Prod.mk.injEq,
          List.not_mem_nil, or_false] at isIn
        rcases isIn with h | h | h | h | h | h | h | h | h | h <;>
          (obtain ⟨rfl, rfl⟩ := h; rfl)
      refine ⟨f, ?_, ?_⟩
      · rw [itemTokens, found]
      · rw [getData, found, ← same, named]
        rfl

/-- The data of the items, and the texts between fields joined. -/
def parseItems (text : Text) (items : List Text) : Option (List Entry) :=
  (items.mapM getData).bind (joinItems text)

theorem parseItems_cons {text item : Text} {e : Entry} (items : List Text)
    (known : getData item = some e) :
    parseItems text (item :: items) =
      if 0 < e.offset then
        (divEntry text).bind fun div => (parseItems [] items).map fun later => div :: e :: later
      else parseItems (text ++ e.fmtName) items := by
  rw [parseItems, List.mapM_cons, known]
  cases all : items.mapM getData with
  | none =>
      split
      · cases divEntry text <;> simp [parseItems, all]
      · simp [parseItems, all]
  | some es =>
      simp only [Option.bind_eq_bind, Option.bind_some, Option.pure_def, parseItems, all, joinItems]

theorem divEntry_small {text : Text} (small : text.length < 2 ^ 31) :
    divEntry text = some (textEntry text) := by
  rw [divEntry, int32_small small, negated, if_neg (by omega)]
  rfl

/-- A text whose length is lost is not marked as a text. -/
theorem divEntry_isText {text : Text} {e : Entry} (made : divEntry text = some e)
    (isText : e.IsText) : text.length < 2 ^ 31 := by
  obtain ⟨k, -, -, below⟩ := int32_spec text.length
  rw [divEntry, negated] at made
  split at made
  · simp at made
  · cases made
    have same := congrArg Entry.offset isText
    simp only [textEntry] at same
    omega

theorem textEntry_short (text : Text) (read : List Token) :
    ∃ long ∈ texts text read, text.length ≤ long.length := by
  induction text, read using texts.induct with
  | case1 text => exact ⟨text, List.mem_singleton_self text, Nat.le_refl _⟩
  | case2 text c rest ih =>
      obtain ⟨long, member, bound⟩ := ih
      rw [List.length_append] at bound
      exact ⟨long, member, by omega⟩
  | case3 text f rest ih => exact ⟨text, List.mem_cons_self, Nat.le_refl _⟩

/-- Where the texts between fields fit an `int`, the entries are those for the tokens. -/
theorem parseItems_small {text : Text} {items : List Text}
    (small : ∀ t ∈ texts text (items.flatMap itemTokens), t.length < 2 ^ 31) :
    parseItems text items = some (entriesOf text (items.flatMap itemTokens)) := by
  induction items generalizing text with
  | nil =>
      have short := divEntry_small (small text (List.mem_singleton_self text))
      simp [parseItems, joinItems, short, entriesOf]
  | cons item items ih =>
      rw [List.flatMap_cons] at small ⊢
      rcases item_cases item with ⟨f, stands, known⟩ | ⟨stands, known⟩
      · rw [stands, List.singleton_append, texts] at small
        rw [parseItems_cons items known, if_pos (offset_pos f), stands, List.singleton_append,
          entriesOf, divEntry_small (small text List.mem_cons_self),
          ih fun t member => small t (List.mem_cons_of_mem _ member)]
        rfl
      · rw [stands, texts_literals] at small
        obtain ⟨long, member, bound⟩ := textEntry_short (text ++ item) (items.flatMap itemTokens)
        have short : item.length < 2 ^ 31 := by
          have := small long member
          rw [List.length_append] at bound
          omega
        rw [int32_small short, negated, if_neg (by omega)] at known
        rw [parseItems_cons items known, if_neg (by dsimp only; omega), ih small, stands,
          entriesOf_literals]

/-- Where the entries alternate, the texts between fields fit an `int`. -/
theorem small_of_alternate {text : Text} {items : List Text} {entries : List Entry}
    (made : parseItems text items = some entries) (alternate : Alternate entries) :
    ∀ t ∈ texts text (items.flatMap itemTokens), t.length < 2 ^ 31 := by
  induction items generalizing text entries with
  | nil =>
      intro t member
      obtain rfl := List.mem_singleton.mp member
      simp only [parseItems, List.mapM_nil, Option.pure_def, Option.bind_some, joinItems,
        Option.map_eq_some_iff] at made
      obtain ⟨last, known, rfl⟩ := made
      exact divEntry_isText known alternate
  | cons item items ih =>
      rw [List.flatMap_cons]
      rcases item_cases item with ⟨f, stands, known⟩ | ⟨stands, known⟩
      · rw [parseItems_cons items known, if_pos (offset_pos f), Option.bind_eq_some_iff] at made
        obtain ⟨div, isDiv, more⟩ := made
        obtain ⟨later, isLater, rfl⟩ := Option.map_eq_some_iff.mp more
        obtain ⟨isText, -, restAlternate⟩ := alternate
        rw [stands, List.singleton_append, texts]
        intro t member
        rcases List.mem_cons.mp member with rfl | member
        · exact divEntry_isText isDiv isText
        · exact ih isLater restAlternate t member
      · cases isData : getData item with
        | none => simp [parseItems, List.mapM_cons, isData] at made
        | some e =>
            rw [parseItems_cons items isData] at made
            rw [known, Option.map_eq_some_iff] at isData
            obtain ⟨offset, isOffset, rfl⟩ := isData
            rw [negated] at isOffset
            split at isOffset
            · simp at isOffset
            · cases isOffset
              by_cases positive : 0 < -int32 item.length
              · rw [if_pos positive] at made
                obtain ⟨div, isDiv, more⟩ := Option.bind_eq_some_iff.mp made
                obtain ⟨later, isLater, rfl⟩ := Option.map_eq_some_iff.mp more
                -- an item of such a length is no name of a field
                obtain ⟨-, ⟨entry, member, same⟩, -⟩ := alternate
                obtain ⟨letter, -, rfl⟩ := List.mem_map.mp member
                have named : item = [percent, letter.1] := congrArg Entry.fmtName same
                rw [named, show int32 ([percent, letter.1] : Text).length = 2 from rfl] at positive
                omega
              · rw [if_neg positive] at made
                rw [stands, texts_literals]
                exact ih made alternate

/-- At most every second item behind the first names a field. -/
theorem length_entriesOf {rest : List Text} (plain : ∀ piece ∈ rest, percent ∉ piece)
    (text : Text) :
    (entriesOf text ((pieceItems rest).flatMap itemTokens)).length ≤
      (pieceItems rest).length + 1 := by
  induction rest using pieceItems.induct generalizing text with
  | case1 => exact Nat.le_refl 1
  | case2 => exact Nat.le_succ 1
  | case3 next rest ih =>
      rw [pieceItems, List.flatMap_cons, List.flatMap_cons, itemTokens_percent,
        itemTokens_plain (plain next (by simp)), List.singleton_append, entriesOf,
        entriesOf_literals, List.length_cons, List.length_cons]
      have := ih (fun piece member => plain piece (by simp [member])) (text ++ [percent] ++ next)
      omega
  | case4 c tail rest ih =>
      have tailPlain : percent ∉ tail := by
        have := plain (c :: tail) List.mem_cons_self
        rw [List.mem_cons, not_or] at this
        exact this.2
      have bound := ih fun piece member => plain piece (List.mem_cons_of_mem _ member)
      rw [pieceItems, List.flatMap_cons, List.flatMap_cons, itemTokens_letter,
        itemTokens_plain tailPlain, List.length_cons, List.length_cons]
      cases fieldOf c with
      | none =>
          simp only [List.cons_append, List.nil_append, entriesOf, entriesOf_literals]
          exact Nat.le_trans (bound _) (by omega)
      | some f =>
          simp only [List.cons_append, List.nil_append, entriesOf, entriesOf_literals,
            List.length_cons]
          have := bound tail
          omega

/-- A format without zeros is parsed to what its items give, if the items can be counted. -/
theorem parseFormat_eq {format : Text} (noZero : 0 ∉ format) :
    ∃ items capacity, parts format = items.length ∧ items.flatMap itemTokens = tokens format ∧
      capacity = (split format percent).length * 2 + 1 ∧ items.length ≤ capacity ∧
      (entriesOf [] (tokens format)).length ≤ items.length ∧
      parseFormat format =
        if items.length < 2 ^ 31 then (parseItems [] items).bind (inArray capacity) else none := by
  obtain ⟨first, rest, cut⟩ := cut_exists format
  obtain ⟨firstPlain, restPlain⟩ := List.forall_mem_cons.mp cut.plain
  have stand : (first :: pieceItems rest).flatMap itemTokens = tokens format := by
    rw [List.flatMap_cons, itemTokens_plain firstPlain, cut.read]
  have whole : (fmtItems (split format percent)).map cString = first :: pieceItems rest := by
    rw [cut.pieces, fmtItems, List.map_congr_left, List.map_id]
    intro item member
    refine List.takeWhile_eq_self_iff.mpr fun c isIn => ?_
    have other : c ≠ 0 := fun zero => noZero (zero ▸ cut.within item member isIn)
    simpa using other
  have fits : (first :: pieceItems rest).length ≤ (split format percent).length * 2 + 1 := by
    have := length_pieceItems_le rest
    rw [cut.pieces, List.length_cons, List.length_cons]
    omega
  refine ⟨first :: pieceItems rest, _, cut.counted, stand, rfl, fits, ?_, ?_⟩
  · rw [cut.read, entriesOf_literals]
    exact length_entriesOf restPlain _
  · rw [parseFormat]
    simp only [whole, inArray, fits, true_and]
    split
    · simp only [Option.bind_some, parseItems, Option.bind_assoc]
    · rfl

end Entries

/-! ## The line -/

section Line

/-- The cursor stands behind a text, as far as it fits, and the last two bytes are set. -/
structure Filled (text : Text) (c : Cursor) : Prop where
  size : c.mem.length = MAXLEN_LOGBUFF
  pos : c.pLog = min text.length (MAXLEN_LOGBUFF - 2)
  room : c.iLenBuff = (MAXLEN_LOGBUFF - 2 - c.pLog : Nat)
  line : c.mem.take c.pLog = text.take (MAXLEN_LOGBUFF - 2)
  last : c.mem.drop (MAXLEN_LOGBUFF - 2) = [10, 0]

/-- A string whose length is known is put behind what has been written. -/
theorem Filled.copy {text : Text} {c : Cursor} (filled : Filled text c) (pStr : Text) :
    ∃ c', LogFormat.copy c pStr pStr.length = some c' ∧ Filled (text ++ pStr) c' := by
  obtain ⟨size, pos, room, line, last⟩ := filled
  have bound : c.pLog ≤ MAXLEN_LOGBUFF - 2 := by omega
  have large : 2 ≤ MAXLEN_LOGBUFF := by decide
  obtain ⟨n, isN⟩ : ∃ n, n = min pStr.length (MAXLEN_LOGBUFF - 2 - c.pLog) := ⟨_, rfl⟩
  have short :
      (if (pStr.length : Int) < c.iLenBuff then (pStr.length : Int) else c.iLenBuff) = n := by
    rw [room, isN]
    split <;> omega
  have count : (pStr.take n).length = n := by
    rw [List.length_take]
    omega
  have inside : c.pLog + (pStr.take n).length ≤ c.mem.length := by omega
  obtain ⟨mem, written⟩ : ∃ mem, writeAt c.mem c.pLog (pStr.take n) = some mem :=
    ⟨_, writeAt_eq_some inside⟩
  refine ⟨⟨mem, c.pLog + n, c.iLenBuff - n⟩, ?_, ?_, ?_, ?_, ?_, ?_⟩
  · rw [LogFormat.copy]
    simp only [short, Int.toNat_natCast]
    rw [if_neg (by omega), written]
    rfl
  · exact (length_writeAt written).trans size
  · rw [List.length_append]
    dsimp only
    omega
  · dsimp only
    omega
  · have front := take_writeAt written
    rw [count] at front
    dsimp only
    rw [front, line, List.take_append]
    have same : pStr.take n = pStr.take (MAXLEN_LOGBUFF - 2 - text.length) :=
      List.take_eq_take_iff.mpr (by omega)
    rw [same]
  · exact (writeAt_drop written (by omega)).trans last

/-- All entries of a format are copied, if the values fit an `int`. -/
theorem Filled.copyEntries {data : LogData} {line : Text} {read : List Token} {c : Cursor}
    (filled : Filled line c) (text : Text)
    (small : ∀ f, Token.field f ∈ read → (data.value f).length < 2 ^ 31) :
    ∃ c', LogFormat.copyEntries data (entriesOf text read) c = some c' ∧
      Filled (line ++ text ++ read.flatMap (Token.text data)) c' := by
  induction text, read using entriesOf.induct generalizing line c with
  | case1 text =>
      obtain ⟨c', copied, filled'⟩ := filled.copy text
      refine ⟨c', ?_, by simpa using filled'⟩
      simpa [entriesOf, LogFormat.copyEntries, textEntry] using copied
  | case2 text d rest ih =>
      obtain ⟨c', copied, filled'⟩ :=
        ih filled fun f member => small f (List.mem_cons_of_mem _ member)
      exact ⟨c', copied, by simpa [Token.text] using filled'⟩
  | case3 text f rest ih =>
      obtain ⟨c₁, copied₁, filled₁⟩ := filled.copy text
      obtain ⟨c₂, copied₂, filled₂⟩ := filled₁.copy (data.value f)
      obtain ⟨c₃, copied₃, filled₃⟩ :=
        ih filled₂ fun f member => small f (List.mem_cons_of_mem _ member)
      refine ⟨c₃, ?_, by simpa [Token.text] using filled₃⟩
      have short := int32_small (small f List.mem_cons_self)
      rw [entriesOf, LogFormat.copyEntries, textEntry]
      dsimp only
      rw [Int.neg_neg, copied₁, Option.bind_some, fieldEntry, memberAt_offset, Option.bind_some,
        short, copied₂, Option.bind_some, copied₃]

/-- Where the line is written, no length of a value has turned negative. -/
theorem values_of_copied {data : LogData} {text : Text} {read : List Token} {c c' : Cursor}
    (copied : LogFormat.copyEntries data (entriesOf text read) c = some c') :
    ∀ f, Token.field f ∈ read → 0 ≤ int32 (data.value f).length := by
  induction text, read using entriesOf.induct generalizing c with
  | case1 text => simp
  | case2 text d rest ih =>
      intro f member
      exact ih copied f (by simpa using member)
  | case3 text g rest ih =>
      rw [entriesOf, LogFormat.copyEntries] at copied
      obtain ⟨c₁, -, copied⟩ := Option.bind_eq_some_iff.mp copied
      rw [fieldEntry, memberAt_offset, Option.bind_some] at copied
      obtain ⟨c₂, copied₂, copied⟩ := Option.bind_eq_some_iff.mp copied
      intro f member
      rcases List.mem_cons.mp member with same | member
      · cases same
        by_contra negative
        rw [copy, if_pos] at copied₂
        · simp at copied₂
        · left
          split <;> omega
      · exact ih copied f member

/-- At the end, a line feed and a zero stand behind the text. -/
theorem Filled.finish {text : Text} {c : Cursor} (filled : Filled text c) :
    ∃ mem, (if 0 < c.iLenBuff then writeAt c.mem c.pLog [10, 0] else some c.mem) = some mem ∧
      mem.length = MAXLEN_LOGBUFF ∧
      mem.take ((text.take (MAXLEN_LOGBUFF - 2)).length + 2) =
        text.take (MAXLEN_LOGBUFF - 2) ++ [10, 0] := by
  obtain ⟨size, pos, room, line, last⟩ := filled
  have large : 2 ≤ MAXLEN_LOGBUFF := by decide
  have count : (text.take (MAXLEN_LOGBUFF - 2)).length = c.pLog := by
    rw [List.length_take]
    omega
  rw [count]
  by_cases more : 0 < c.iLenBuff
  · have inside : c.pLog + ([10, 0] : Text).length ≤ c.mem.length := by
      simp only [List.length_cons, List.length_nil]
      omega
    obtain ⟨mem, written⟩ : ∃ mem, writeAt c.mem c.pLog [10, 0] = some mem :=
      ⟨_, writeAt_eq_some inside⟩
    refine ⟨mem, by rw [if_pos more, written], (length_writeAt written).trans size, ?_⟩
    rw [← line]
    exact take_writeAt written
  · refine ⟨c.mem, if_neg more, size, ?_⟩
    have full : c.pLog = MAXLEN_LOGBUFF - 2 := by omega
    rw [List.take_of_length_le (by omega), ← line, ← last, ← full, List.take_append_drop]

end Line

/-! ## What holds of every format -/

theorem right_of_fits {format : Text} {data : LogData} (logBuff : LogBuff) (noZero : 0 ∉ format)
    (fits : Fits format data) : Right format data logBuff := by
  obtain ⟨items, capacity, counted, stand, isCapacity, inCapacity, fewer, parsed⟩ :=
    parseFormat_eq noZero
  have entries : parseItems [] items = some (entriesOf [] (items.flatMap itemTokens)) :=
    parseItems_small (by rw [stand]; exact fits.texts)
  have small := fits.parts
  rw [if_pos (by omega), entries, stand, Option.bind_some, inArray,
    if_pos ⟨by omega, by omega⟩] at parsed
  have large : MAXLEN_LOGBUFF - 2 + 2 = MAXLEN_LOGBUFF := by decide
  have size := logBuff.size
  have inside : MAXLEN_LOGBUFF - 2 + ([10, 0] : Text).length ≤ logBuff.mem.length := by
    simp only [List.length_cons, List.length_nil]
    omega
  obtain ⟨mem, written⟩ : ∃ mem, writeAt logBuff.mem (MAXLEN_LOGBUFF - 2) [10, 0] = some mem :=
    ⟨_, writeAt_eq_some inside⟩
  have begun : Filled [] ⟨mem, 0, (MAXLEN_LOGBUFF - 2 : Nat)⟩ := by
    have length := (length_writeAt written).trans size
    have front := take_writeAt written
    rw [List.take_of_length_le (by rw [length]; decide)] at front
    refine ⟨length, by simp, by simp, by simp, ?_⟩
    rw [front, List.drop_left' (by rw [List.length_take]; omega)]
  obtain ⟨c, copied, filled⟩ := begun.copyEntries [] fits.values
  obtain ⟨result, finished, length, front⟩ := filled.finish
  refine ⟨_, data.timeArr, result, parsed, entriesOf_alternate [] _, by omega, ?_, length, ?_⟩
  · rw [getLogData, written, Option.bind_some, copied, Option.bind_some, finished]
    rfl
  · exact front

theorem fits_of_right {format : Text} {data : LogData} {logBuff : LogBuff} (noZero : 0 ∉ format)
    (bounded : ∀ f, (data.value f).length < 2 ^ 32) (right : Right format data logBuff) :
    Fits format data := by
  obtain ⟨items, capacity, counted, stand, isCapacity, inCapacity, fewer, parsed⟩ :=
    parseFormat_eq noZero
  obtain ⟨entries, timeArr, mem, known, alternate, -, got, -⟩ := right
  rw [parsed] at known
  have few : items.length < 2 ^ 31 := by
    by_contra many
    rw [if_neg many] at known
    simp at known
  rw [if_pos few] at known
  obtain ⟨made, isMade, kept⟩ := Option.bind_eq_some_iff.mp known
  obtain rfl : made = entries := by
    rw [inArray] at kept
    split at kept
    · exact Option.some.inj kept
    · simp at kept
  have small := small_of_alternate isMade alternate
  have same := parseItems_small small
  rw [stand] at small same
  obtain rfl := Option.some.inj (isMade.symm.trans same)
  refine ⟨by omega, small, fun f member => ?_⟩
  rw [getLogData] at got
  obtain ⟨begun, -, got⟩ := Option.bind_eq_some_iff.mp got
  obtain ⟨c, copied, -⟩ := Option.bind_eq_some_iff.mp got
  have positive := values_of_copied copied f member
  have := bounded f
  rw [int32] at positive
  split at positive <;> omega

/-- Every format without zeros is followed in every line, if the parts, the texts and the values fit
an `int`. Where the values have less than four gigabytes, the format is not followed otherwise. -/
theorem line_right_iff (format : Text) (noZero : 0 ∉ format) (data : LogData) (logBuff : LogBuff) :
    (Fits format data → Right format data logBuff) ∧
      ((∀ f, (data.value f).length < 2 ^ 32) → (Right format data logBuff ↔ Fits format data)) :=
  ⟨right_of_fits logBuff noZero,
    fun bounded => ⟨fits_of_right noZero bounded, right_of_fits logBuff noZero⟩⟩

def zeroes : LogBuff := ⟨List.replicate MAXLEN_LOGBUFF 0, List.length_replicate⟩

/-- The format "%M %%" and a short message. -/
theorem line_right_message :
    Right [37, 77, 32, 37, 37] ⟨fun _ => [97, 98], []⟩ zeroes ∧
      (Right [37, 77, 32, 37, 37] ⟨fun _ => [97, 98], []⟩ zeroes ↔
        Fits [37, 77, 32, 37, 37] ⟨fun _ => [97, 98], []⟩) := by
  have line := line_right_iff [37, 77, 32, 37, 37] (by decide) ⟨fun _ => [97, 98], []⟩ zeroes
  have short : ([97, 98] : Text).length < 2 ^ 31 := by decide
  have below : ([97, 98] : Text).length < 2 ^ 32 := by decide
  exact ⟨line.1 ⟨by decide, by decide, fun _ _ => short⟩, line.2 fun _ => below⟩

/-- The assertion fails for the format "%M" and a message of two gigabytes. -/
theorem long_message_refused :
    ¬ Right [37, 77] ⟨fun _ => List.replicate (2 ^ 31) 97, []⟩ zeroes := by
  intro right
  have bounded : ∀ f : Field,
      ((LogData.mk (fun _ => List.replicate (2 ^ 31) 97) []).value f).length < 2 ^ 32 := by
    intro f
    rw [List.length_replicate]
    decide
  have small := (fits_of_right (by decide) bounded right).values .msg (by decide)
  rw [List.length_replicate] at small
  exact Nat.lt_irrefl _ small

end MlsImgSearch.Utils.LogFormat
