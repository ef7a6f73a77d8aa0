import MlsImgSearch.Lib.Printf
import MlsImgSearch.Lib.Run
import MlsImgSearch.Lib.Strings

/-!
# A log file that is rotated

Messages are appended to a file. When the period of the messages changes, or when the file would
become too long, the file is renamed and a new one is begun. The new name is made of the name of the
file, of the period, and of a number that makes it a name that no file has.
-/

namespace MlsImgSearch.Utils.FileAppender

open Lib.Bytes Lib.Printf Lib.Run
open Lib.Strings (decimal isDigit)

abbrev Text := List UInt8

/-- What is taken for a string that ends with a zero. -/
def cString (text : Text) : Text := text.takeWhile (· ≠ 0)

/-! ## Times -/

/-- A calendar time, as far as the names of files depend on it; months and days count from 0. -/
structure Time where
  year : Int
  month : Fin 12
  day : Fin 31
  hour : Fin 24
  deriving DecidableEq

/-- `%0nu` -/
def zeroPadded (n k : Nat) : Text := List.replicate (n - (decimal k).length) 48 ++ decimal k

/-- `%4d` -/
def yearText (year : Int) : Text :=
  let text := if year < 0 then 45 :: decimal year.natAbs else decimal year.natAbs
  List.replicate (4 - text.length) 32 ++ text

def dateText (time : Time) : Text :=
  yearText time.year ++ 45 :: zeroPadded 2 (time.month + 1) ++ 45 :: zeroPadded 2 (time.day + 1)

/-- The beginning of what `GetTimeString` writes, up to the hour. -/
def getTimeString (time : Time) : Text := dateText time ++ 32 :: zeroPadded 2 time.hour

/-- `sscanf` with `%u`; the number is left as it was, which is 0, if there are no digits. -/
def scanUnsigned (text : Text) : Nat :=
  let text := text.dropWhile fun c => c == 32 || (9 ≤ c && c ≤ 13)
  let value := fun digits : Text =>
    (digits.takeWhile isDigit).foldl (fun n c => 10 * n + (c.toNat - 48)) 0
  match text with
  | 45 :: digits => (2 ^ 32 - value digits % 2 ^ 32) % 2 ^ 32
  | 43 :: digits => value digits % 2 ^ 32
  | digits => value digits % 2 ^ 32

/-! ## Files -/

/-- The files of the system: names and contents. -/
abbrev Files := Text → Option Text

namespace Files

/-- `open` with `O_CREAT | O_WRONLY | O_APPEND`. -/
def opened (files : Files) (name : Text) : Files := fun n =>
  if n = name then some ((files name).getD []) else files n

def appended (files : Files) (name text : Text) : Files := fun n =>
  if n = name then (files n).map (· ++ text) else files n

def renamed (files : Files) (old new : Text) : Files := fun n =>
  match files old with
  | none => files n
  | some content => if n = new then some content else if n = old then none else files n

end Files

/-! ## The appender -/

/-- `LOG_DEF_FILESIZE` -/
def defFileSize : Nat := 8 * 0x400 * 0x100000

/-- `LOG_MAX_FILESIZE` -/
def maxFileSize : Nat := 200 * 0x400 * 0x100000

/-- `LOG_MIN_FILESIZE` -/
def minFileSize : Nat := 0x100000

/-- `LOG_MAX_FILENAMELEN` -/
def maxFileNameLen : Nat := 256

/-- `MAXLEN_LOGBUFF` -/
def maxLenLogBuff : Nat := 32 * 1024

/-- `fd` is the name of the file that is open. -/
structure Appender where
  pathFileName : Text
  divTime : Nat
  divFileName : Text
  fileExpUid : Nat
  maxSize : Nat
  actSize : Nat
  timeArr : Text
  fd : Text

/-- `m_hourArr`; nothing behind its end. -/
def hourArr (divTime i : Nat) : Option Nat := if i < 25 then some (i - i % divTime) else none

/-- The period of a time, in the format of the names of files. -/
def timeFileName (divTime : Nat) (timeArr : Text) : Option Text :=
  let buff := (timeArr.take 13).set 10 95
  if 0 < divTime then
    (hourArr divTime (scanUnsigned (buff.drop 11))).map fun hour =>
      buff.take 11 ++ (zeroPadded 2 hour).take 2
  else some buff

/-- The size is brought into its bounds. -/
def clampedSize (size : Nat) : Nat :=
  if size = 0 then defFileSize
  else if size < minFileSize then minFileSize
  else if maxFileSize < size then maxFileSize
  else size

/-- Hours between divisions: a divisor of 24, or 0. -/
def clampedDivTime (divTime : Nat) : Nat :=
  if 0 < divTime ∧ 24 % divTime ≠ 0 then 24 / (24 / divTime + 1) else divTime

/-- The constructor at a time. -/
def create (files : Files) (file : Text) (size divTime : Nat) (time : Time) :
    Option (Appender × Files) :=
  let pathFileName := file.take (maxFileNameLen - 1)
  let name := cString pathFileName
  let divTime := clampedDivTime divTime
  (timeFileName divTime (getTimeString time)).map fun divFileName =>
    (⟨pathFileName, divTime, divFileName, 0, clampedSize size,
      ((files name).map List.length).getD 0, getTimeString time, name⟩, files.opened name)

/-- The string in an array; none if it does not end inside. -/
def stringIn (array : Text) : Option Text := if 0 ∈ array then some (cString array) else none

/-- The name of the file, an underline and the old period. -/
def prefixName (junk : Nat → UInt8) (a : Appender) : Option Text :=
  (writeAt (malloc junk maxFileNameLen) 0 a.pathFileName).bind fun newFileName =>
    (writeAt newFileName a.pathFileName.length [95]).bind fun newFileName =>
      writeAt newFileName (a.pathFileName.length + 1) a.divFileName

/-- All numbers of 32 bits are tried; then the loop repeats itself. -/
def tries : Nat := 2 ^ 32

/-- `_%03u` -/
def suffix (newExpUId : Nat) : Text := 95 :: zeroPadded 3 newExpUId

/-- The loop that looks for a name that no file has. -/
def search (files : Files) (newFileNameLen : Nat) : Nat → Text → Nat → Option (Nat × Text)
  | 0, _, _ => none
  | fuel + 1, newFileName, newExpUId =>
      (snprintf newFileName newFileNameLen (sizeSub maxFileNameLen newFileNameLen)
          (suffix newExpUId)).bind fun (_, newFileName) =>
        (stringIn newFileName).bind fun name =>
          match files name with
          | none => some (newExpUId, name)
          | some _ =>
              search files newFileNameLen fuel newFileName ((newExpUId + 1) % 2 ^ 32)

/-- The end of `CheckFile` when the file is divided. -/
def divide (files : Files) (a : Appender) (newFileName : Text) (newExpUId : Nat) :
    Option (Appender × Files × Text) :=
  (search files (a.pathFileName.length + 14) tries newFileName newExpUId).map
    fun (newExpUId, name) =>
      let path := cString a.pathFileName
      ({ a with
          fileExpUid := if a.fileExpUid ≠ 0 then (newExpUId + 1) % 2 ^ 32 else a.fileExpUid
          fd := path
          actSize := 0 }, (files.renamed path name).opened path, name)

/-- `CheckFile`. The last result is the name that the file was given, if it was divided; there is no
result if something is read or written outside of an array, or if the loop does not end. -/
def checkFile (junk : Nat → UInt8) (files : Files) (a : Appender) (size : Nat) :
    Option (Appender × Files × Option Text) :=
  (timeFileName a.divTime a.timeArr).bind fun timeFileName =>
    let checked : Option (Appender × Files × Option Text) :=
      if 0 < a.divTime ∧ a.divFileName ≠ timeFileName then
        (prefixName junk a).bind fun newFileName =>
          (divide files { a with divFileName := timeFileName, fileExpUid := 0 } newFileName
            a.fileExpUid).map fun (a, files, name) => (a, files, some name)
      else if minFileSize ≤ a.maxSize ∧ a.maxSize < a.actSize + size then
        (prefixName junk a).bind fun newFileName =>
          (divide files
            (if a.divFileName = timeFileName then
              { a with fileExpUid := (a.fileExpUid + 1) % 2 ^ 32 }
            else { a with divFileName := timeFileName, fileExpUid := 0 })
            newFileName a.fileExpUid).map fun (a, files, name) => (a, files, some name)
      else
        let path := cString a.pathFileName
        match files path with
        | none => some ({ a with fd := path, actSize := 0 }, files.opened path, none)
        | some _ => some (a, files, none)
    checked.map fun (a, files, name) => ({ a with actSize := a.actSize + size }, files, name)

/-! ## Runs -/

/-- A message for the file, and its time. -/
structure Message where
  time : Time
  text : Text
  short : text.length < maxLenLogBuff

/-- What was in a file before the appender, and the messages in it. -/
structure Part where
  old : Text := []
  messages : List Message := []

def Part.content (part : Part) : Text := part.old ++ part.messages.flatMap Message.text

/-- A file that was renamed: its new name, what was there under this name, and what is in it. -/
structure Rotation where
  name : Text
  replaced : Option Text
  part : Part

structure State where
  appender : Appender
  files : Files
  rotated : List Rotation := []
  current : Part

/-- An appender that has just been constructed. -/
def start (files : Files) (file : Text) (size divTime : Nat) (time : Time) : Option State :=
  (create files file size divTime time).map fun (a, opened) =>
    ⟨a, opened, [], ⟨(files (cString a.pathFileName)).getD [], []⟩⟩

/-- `GetLogData` and `Write` for a message. -/
def step (junk : Nat → UInt8) (s : State) (message : Message) : Option State :=
  (checkFile junk s.files { s.appender with timeArr := getTimeString message.time }
      message.text.length).map fun (a, files, name) =>
    match name with
    | none =>
        { s with
          appender := a
          files := files.appended a.fd message.text
          current := { s.current with messages := s.current.messages ++ [message] } }
    | some name =>
        { appender := a
          files := files.appended a.fd message.text
          rotated := s.rotated ++ [⟨name, s.files name, s.current⟩]
          current := ⟨[], [message]⟩ }

/-! ## What is wanted -/

/-- The period of a time that the name of a file should say. -/
def periodText (divTime : Nat) (time : Time) : Text :=
  dateText time ++ 95 :: zeroPadded 2 (time.hour - time.hour % divTime)

section Wanted

variable (initial path : Text) (divTime maxSize : Nat)

/-- Nothing is lost: all messages stand behind the old content, in files that are neither too long
nor overwritten, and whose names say the period of their messages. -/
structure Right (messages : List Message) (s : State) : Prop where
  fresh : ∀ r ∈ s.rotated, r.replaced = none
  counted : (s.files path).map List.length = some s.appender.actSize
  kept : (s.rotated.flatMap fun r => (s.files r.name).getD []) ++ (s.files path).getD [] =
    initial ++ messages.flatMap Message.text
  parts : (∀ r ∈ s.rotated, s.files r.name = some r.part.content) ∧
    s.files path = some s.current.content
  bounded : (∀ r ∈ s.rotated, r.part.messages ≠ [] → r.part.content.length ≤ maxSize) ∧
    (s.current.messages ≠ [] → s.current.content.length ≤ maxSize)
  period : 0 < divTime → ∀ r ∈ s.rotated, ∀ m ∈ r.part.messages,
    path ++ 95 :: periodText divTime m.time <+: r.name

end Wanted

/-! ## When that holds -/

/-- A year of at most four characters. -/
def FourDigits (time : Time) : Prop := -1000 < time.year ∧ time.year < 10000

/-- The file is divided before the message. -/
def Due (s : State) (message : Message) : Prop :=
  (0 < s.appender.divTime ∧
    timeFileName s.appender.divTime (getTimeString message.time) ≠ some s.appender.divFileName) ∨
  s.appender.maxSize < s.appender.actSize + message.text.length

/-- The name with a number, as far as the array has room for it. -/
def candidate (pathFileName divFileName : Text) (newExpUId : Nat) : Text :=
  cString ((pathFileName ++ 95 :: divFileName ++ suffix newExpUId).take (maxFileNameLen - 1))

/-- Where the file is divided, the array has room for its name and the period, and one of the names
with a number is free. -/
structure Fits (s : State) (message : Message) : Prop where
  year : 0 < s.appender.divTime → FourDigits message.time
  room : Due s message → s.appender.pathFileName.length + 15 ≤ maxFileNameLen
  free : Due s message → ∃ k < tries,
    s.files (candidate s.appender.pathFileName s.appender.divFileName k) = none

/-! ## Periods -/

section Periods

theorem length_decimal_le {n k : Nat} (some : 0 < k) (small : n < 10 ^ k) :
    (decimal n).length ≤ k := by
  rw [decimal, List.length_map]
  exact (Nat.length_toDigits_le_iff (by decide) some).mpr small

theorem length_zeroPadded {n k : Nat} (some : 0 < n) (small : k < 10 ^ n) :
    (zeroPadded n k).length = n := by
  have short := length_decimal_le some small
  rw [zeroPadded, List.length_append, List.length_replicate]
  omega

theorem le_length_zeroPadded (n k : Nat) : n ≤ (zeroPadded n k).length := by
  rw [zeroPadded, List.length_append, List.length_replicate]
  omega

theorem le_length_yearText (year : Int) : 4 ≤ (yearText year).length := by
  rw [yearText]
  simp only [List.length_append, List.length_replicate]
  omega

theorem length_yearText {time : Time} (four : FourDigits time) :
    (yearText time.year).length = 4 := by
  obtain ⟨low, high⟩ := four
  have least := le_length_yearText time.year
  rw [yearText] at least ⊢
  simp only [List.length_append, List.length_replicate] at least ⊢
  split at least
  · next negative =>
      have := length_decimal_le (k := 3) (by decide) (show time.year.natAbs < 10 ^ 3 by omega)
      rw [if_pos negative]
      rw [List.length_cons] at least ⊢
      omega
  · next positive =>
      have := length_decimal_le (k := 4) (by decide) (show time.year.natAbs < 10 ^ 4 by omega)
      rw [if_neg positive]
      omega

theorem length_dateText {time : Time} (four : FourDigits time) : (dateText time).length = 10 := by
  have month := time.month.isLt
  have day := time.day.isLt
  have year := length_yearText four
  have twoMonth := length_zeroPadded (n := 2) (k := time.month + 1) (by decide) (by omega)
  have twoDay := length_zeroPadded (n := 2) (k := time.day + 1) (by decide) (by omega)
  rw [dateText]
  simp only [List.length_append, List.length_cons]
  omega

theorem le_length_getTimeString (time : Time) : 13 ≤ (getTimeString time).length := by
  have year := le_length_yearText time.year
  have month := le_length_zeroPadded 2 (time.month + 1)
  have day := le_length_zeroPadded 2 (time.day + 1)
  have hour := le_length_zeroPadded 2 time.hour
  rw [getTimeString, dateText]
  simp only [List.length_append, List.length_cons]
  omega

theorem scan_hour : ∀ hour : Fin 24, scanUnsigned (zeroPadded 2 hour) = hour := by decide

/-- Of a year of four characters, the period comes out. -/
theorem timeFileName_period {divTime : Nat} (some : 0 < divTime) {time : Time}
    (four : FourDigits time) :
    timeFileName divTime (getTimeString time) = .some (periodText divTime time) := by
  have hour := time.hour.isLt
  have date := length_dateText four
  have two := length_zeroPadded (n := 2) (k := time.hour) (by decide) (by omega)
  have two' := length_zeroPadded (n := 2) (k := time.hour - time.hour % divTime) (by decide)
    (by omega)
  have buff : ((getTimeString time).take 13).set 10 95 =
      dateText time ++ [95] ++ zeroPadded 2 time.hour := by
    rw [getTimeString, List.take_of_length_le, List.set_append_right _ _ (by omega), date]
    · simp
    · rw [List.length_append, List.length_cons]
      omega
  have front : (dateText time ++ [95]).length = 11 := by
    rw [List.length_append, date]
    rfl
  rw [timeFileName]
  simp only [buff, if_pos some, List.drop_left' front, List.take_left' front, scan_hour]
  rw [hourArr, if_pos (by omega), Option.map_some, List.take_of_length_le (by omega), periodText,
    List.append_assoc]
  rfl

theorem length_timeFileName {divTime : Nat} {time : Time} {name : Text}
    (made : timeFileName divTime (getTimeString time) = some name) : name.length = 13 := by
  have long := le_length_getTimeString time
  rw [timeFileName] at made
  split at made
  · obtain ⟨hour, known, rfl⟩ := Option.map_eq_some_iff.mp made
    rw [hourArr] at known
    split at known
    · cases known
      rw [List.length_append, List.length_take, List.length_set, List.length_take, List.length_take,
        length_zeroPadded (by decide) (by omega)]
      omega
    · simp at known
  · cases made
    rw [List.length_set, List.length_take]
    omega

theorem timeFileName_zero {divTime : Nat} (none : divTime = 0) (time : Time) :
    ∃ name, timeFileName divTime (getTimeString time) = some name := by
  rw [timeFileName, if_neg (by omega)]
  exact ⟨_, rfl⟩

theorem zero_notMem_zeroPadded (n k : Nat) : 0 ∉ zeroPadded n k := by
  intro zero
  rcases List.mem_append.mp zero with zero | zero
  · exact absurd (List.eq_of_mem_replicate zero) (by decide)
  · exact absurd (Lib.Strings.isDigit_of_mem_decimal zero) (by decide)

theorem zero_notMem_yearText (year : Int) : 0 ∉ yearText year := by
  intro zero
  rcases List.mem_append.mp zero with zero | zero
  · exact absurd (List.eq_of_mem_replicate zero) (by decide)
  · split at zero
    · rcases List.mem_cons.mp zero with zero | zero
      · exact absurd zero (by decide)
      · exact absurd (Lib.Strings.isDigit_of_mem_decimal zero) (by decide)
    · exact absurd (Lib.Strings.isDigit_of_mem_decimal zero) (by decide)

theorem zero_notMem_periodText (divTime : Nat) (time : Time) : 0 ∉ periodText divTime time := by
  have year := zero_notMem_yearText time.year
  have month := zero_notMem_zeroPadded 2 (time.month + 1)
  have day := zero_notMem_zeroPadded 2 (time.day + 1)
  have hour := zero_notMem_zeroPadded 2 (time.hour - time.hour % divTime)
  rw [periodText, dateText]
  simp only [List.mem_append, List.mem_cons, not_or]
  exact ⟨⟨⟨year, by decide, month⟩, by decide, day⟩, by decide, hour⟩

end Periods

/-! ## Looking for a name -/

section Search

variable {files : Files} {pathFileName divFileName : Text}

theorem cString_append_zero (text rest : Text) : cString (text ++ 0 :: rest) = cString text := by
  rw [cString, cString, List.takeWhile_append]
  split
  · next all =>
      rw [(List.takeWhile_prefix _).eq_of_length all]
      exact List.append_nil text
  · rfl

/-- The array holds the name of the file and the period. -/
structure Begun (pathFileName divFileName array : Text) : Prop where
  size : array.length = maxFileNameLen
  front : array.take (pathFileName.length + 14) = pathFileName ++ 95 :: divFileName

theorem prefixName_begun (junk : Nat → UInt8) {a : Appender} (label : a.divFileName.length = 13)
    (room : a.pathFileName.length + 15 ≤ maxFileNameLen) :
    ∃ array, prefixName junk a = some array ∧ Begun a.pathFileName a.divFileName array := by
  have size := length_malloc junk maxFileNameLen
  obtain ⟨first, wrote⟩ : ∃ first,
      writeAt (malloc junk maxFileNameLen) 0 a.pathFileName = some first :=
    ⟨_, writeAt_eq_some (by omega)⟩
  have size₁ := length_writeAt wrote
  have front₁ := take_writeAt wrote
  obtain ⟨second, wrote₂⟩ : ∃ second, writeAt first a.pathFileName.length [95] = some second :=
    ⟨_, writeAt_eq_some (by rw [List.length_singleton]; omega)⟩
  have size₂ := length_writeAt wrote₂
  have front₂ := take_writeAt wrote₂
  obtain ⟨third, wrote₃⟩ : ∃ third,
      writeAt second (a.pathFileName.length + 1) a.divFileName = some third :=
    ⟨_, writeAt_eq_some (by omega)⟩
  have size₃ := length_writeAt wrote₃
  have front₃ := take_writeAt wrote₃
  rw [Nat.zero_add, List.take_zero, List.nil_append] at front₁
  rw [front₁, List.length_singleton] at front₂
  rw [front₂, label, List.append_assoc] at front₃
  refine ⟨third, ?_, by omega, front₃⟩
  rw [prefixName, wrote, Option.bind_some, wrote₂, Option.bind_some, wrote₃]

/-- One turn of the loop puts a candidate into the array. -/
theorem Begun.printed {array : Text} (begun : Begun pathFileName divFileName array)
    (label : divFileName.length = 13) (room : pathFileName.length + 15 ≤ maxFileNameLen) (k : Nat) :
    ∃ ret array', snprintf array ↑(pathFileName.length + 14)
        (sizeSub maxFileNameLen ↑(pathFileName.length + 14)) (suffix k) = some (ret, array') ∧
      Begun pathFileName divFileName array' ∧
      stringIn array' = some (candidate pathFileName divFileName k) := by
  obtain ⟨size, front⟩ := begun
  have rest : sizeSub maxFileNameLen ↑(pathFileName.length + 14) =
      maxFileNameLen - 1 - (pathFileName.length + 14) + 1 := by
    rw [sizeSub, if_pos (by omega)]
    omega
  obtain ⟨shown, isShown⟩ : ∃ shown,
      shown = (suffix k).take (maxFileNameLen - 1 - (pathFileName.length + 14)) := ⟨_, rfl⟩
  have short : shown.length ≤ maxFileNameLen - 1 - (pathFileName.length + 14) := by
    rw [isShown]
    exact List.length_take_le _ _
  obtain ⟨array', wrote⟩ : ∃ array',
      writeAt array (pathFileName.length + 14) (shown ++ [0]) = some array' :=
    ⟨_, writeAt_eq_some (by rw [List.length_append, List.length_singleton]; omega)⟩
  have begins := take_writeAt wrote
  have whole : array' = pathFileName ++ 95 :: divFileName ++ shown ++
      0 :: array'.drop (pathFileName.length + 14 + (shown ++ [0]).length) := by
    rw [front] at begins
    have split := List.take_append_drop (pathFileName.length + 14 + (shown ++ [0]).length) array'
    rw [begins] at split
    simpa using split.symm
  have cut : (pathFileName ++ 95 :: divFileName ++ suffix k).take (maxFileNameLen - 1) =
      pathFileName ++ 95 :: divFileName ++ shown := by
    have front : (pathFileName ++ 95 :: divFileName).length = pathFileName.length + 14 := by
      rw [List.length_append, List.length_cons, label]
    rw [List.take_append, List.take_of_length_le (by omega), front, isShown]
  refine ⟨returned (suffix k), array', ?_, ⟨(length_writeAt wrote).trans size, ?_⟩, ?_⟩
  · rw [snprintf, rest, if_neg (Nat.succ_ne_zero _), if_neg (by omega), Int.toNat_natCast,
      Nat.add_sub_cancel, ← isShown, wrote]
    rfl
  · rw [writeAt_take wrote (Nat.le_refl _), front]
  · rw [stringIn, if_pos (by rw [whole]; simp), candidate, cut, whole, cString_append_zero]

/-- The loop ends at a name that no file has, if there is one. -/
theorem search_free (label : divFileName.length = 13)
    (room : pathFileName.length + 15 ≤ maxFileNameLen) {fuel : Nat} {array : Text} {uid : Nat}
    (begun : Begun pathFileName divFileName array) (inRange : uid < 2 ^ 32)
    (free : ∃ j < fuel, files (candidate pathFileName divFileName ((uid + j) % 2 ^ 32)) = none) :
    ∃ k < 2 ^ 32, search files (pathFileName.length + 14) fuel array uid =
        some (k, candidate pathFileName divFileName k) ∧
      files (candidate pathFileName divFileName k) = none := by
  induction fuel generalizing array uid with
  | zero =>
      obtain ⟨j, below, -⟩ := free
      exact absurd below (Nat.not_lt_zero j)
  | succ fuel ih =>
      obtain ⟨ret, array', printed, begun', named⟩ := begun.printed label room uid
      rw [search, printed, Option.bind_some]
      dsimp only
      rw [named, Option.bind_some]
      cases found : files (candidate pathFileName divFileName uid) with
      | none => exact ⟨uid, inRange, rfl, found⟩
      | some content =>
          refine ih begun' (Nat.mod_lt _ (by decide)) ?_
          obtain ⟨j, below, free⟩ := free
          cases j with
          | zero =>
              rw [Nat.add_zero, Nat.mod_eq_of_lt inRange, found] at free
              cases free
          | succ j =>
              refine ⟨j, by omega, ?_⟩
              rw [Nat.mod_add_mod, Nat.add_assoc, Nat.add_comm 1 j]
              exact free

end Search

/-! ## One message -/

section Step

variable {junk : Nat → UInt8} {s : State} {message : Message} {label : Text}

/-- The appender when it has been given the time of a message. -/
def State.timed (s : State) (message : Message) : Appender :=
  { s.appender with timeArr := getTimeString message.time }

theorem divide_free {files : Files} {a : Appender} {array old : Text} {uid : Nat}
    (begun : Begun a.pathFileName old array) (isOld : old.length = 13)
    (room : a.pathFileName.length + 15 ≤ maxFileNameLen) (inRange : uid < 2 ^ 32)
    (small : a.fileExpUid < 2 ^ 32)
    (free : ∃ k < tries, files (candidate a.pathFileName old k) = none) :
    ∃ k, ∃ next < 2 ^ 32, files (candidate a.pathFileName old k) = none ∧
      divide files a array uid =
        some ({ a with fileExpUid := next, fd := cString a.pathFileName, actSize := 0 },
          (files.renamed (cString a.pathFileName) (candidate a.pathFileName old k)).opened
            (cString a.pathFileName), candidate a.pathFileName old k) := by
  have reached : ∃ j < tries, files (candidate a.pathFileName old ((uid + j) % 2 ^ 32)) = none := by
    obtain ⟨k, below, isFree⟩ := free
    refine ⟨(k + 2 ^ 32 - uid) % 2 ^ 32, Nat.mod_lt _ (by decide), ?_⟩
    have bound : k < 2 ^ 32 := below
    rwa [show (uid + (k + 2 ^ 32 - uid) % 2 ^ 32) % 2 ^ 32 = k by omega]
  obtain ⟨k, kRange, found, isFree⟩ := search_free isOld room begun inRange reached
  rw [divide, found]
  by_cases zero : a.fileExpUid = 0
  · refine ⟨k, a.fileExpUid, small, isFree, ?_⟩
    rw [Option.map_some]
    simp only [zero, ne_eq, not_true_eq_false, if_false]
  · refine ⟨k, (k + 1) % 2 ^ 32, Nat.mod_lt _ (by decide), isFree, ?_⟩
    rw [Option.map_some]
    simp only [ne_eq, zero, not_false_eq_true, if_true]

/-- A message that fits is appended. -/
theorem step_kept
    (named : timeFileName s.appender.divTime (getTimeString message.time) = some label)
    (notDue : ¬ Due s message) {content : Text}
    (exist : s.files (cString s.appender.pathFileName) = some content) :
    step junk s message = some
      { s with
        appender := { s.timed message with actSize := s.appender.actSize + message.text.length }
        files := s.files.appended s.appender.fd message.text
        current := { s.current with messages := s.current.messages ++ [message] } } := by
  rw [Due, named] at notDue
  obtain ⟨same, small⟩ := not_or.mp notDue
  rw [step, checkFile, named, Option.bind_some]
  dsimp only
  rw [if_neg (fun differs => same ⟨differs.1, fun equal => differs.2 (Option.some.inj equal).symm⟩),
    if_neg (fun large => small large.2)]
  simp only [exist, Option.map_some, State.timed]

/-- When the file is divided, the label is the new one in every case. -/
theorem checkFile_due (junk : Nat → UInt8)
    (named : timeFileName s.appender.divTime (getTimeString message.time) = some label)
    (due : Due s message) (clamped : minFileSize ≤ s.appender.maxSize) :
    ∃ uid < 2 ^ 32, checkFile junk s.files (s.timed message) message.text.length =
      (prefixName junk (s.timed message)).bind fun newFileName =>
        (divide s.files { s.timed message with divFileName := label, fileExpUid := uid } newFileName
          s.appender.fileExpUid).map fun (a, files, name) =>
            ({ a with actSize := a.actSize + message.text.length }, files, some name) := by
  have timed : timeFileName (s.timed message).divTime (s.timed message).timeArr = some label :=
    named
  rw [checkFile, timed, Option.bind_some]
  dsimp only
  by_cases period : 0 < (s.timed message).divTime ∧ (s.timed message).divFileName ≠ label
  · refine ⟨0, by decide, ?_⟩
    rw [if_pos period, Option.map_bind]
    refine congrArg _ (funext fun newFileName => ?_)
    rw [Function.comp, Option.map_map]
    exact Option.map_congr fun _ _ => rfl
  · have large : minFileSize ≤ (s.timed message).maxSize ∧
        (s.timed message).maxSize < (s.timed message).actSize + message.text.length := by
      rw [Due, named] at due
      refine ⟨clamped, due.resolve_left fun differs => period ⟨differs.1, fun same => differs.2 ?_⟩⟩
      exact congrArg some same.symm
    rw [if_neg period, if_pos large]
    by_cases same : (s.timed message).divFileName = label
    · refine ⟨((s.timed message).fileExpUid + 1) % 2 ^ 32, Nat.mod_lt _ (by decide), ?_⟩
      rw [if_pos same, Option.map_bind]
      refine congrArg _ (funext fun newFileName => ?_)
      rw [Function.comp, Option.map_map, ← same]
      exact Option.map_congr fun _ _ => rfl
    · refine ⟨0, by decide, ?_⟩
      rw [if_neg same, Option.map_bind]
      refine congrArg _ (funext fun newFileName => ?_)
      rw [Function.comp, Option.map_map]
      exact Option.map_congr fun _ _ => rfl

/-- Before a message that does not fit, the file is renamed. -/
theorem step_divided (junk : Nat → UInt8)
    (named : timeFileName s.appender.divTime (getTimeString message.time) = some label)
    (due : Due s message) (clamped : minFileSize ≤ s.appender.maxSize)
    (isOld : s.appender.divFileName.length = 13) (inRange : s.appender.fileExpUid < 2 ^ 32)
    (room : s.appender.pathFileName.length + 15 ≤ maxFileNameLen)
    (free : ∃ k < tries,
      s.files (candidate s.appender.pathFileName s.appender.divFileName k) = none) :
    ∃ k, ∃ next < 2 ^ 32,
      s.files (candidate s.appender.pathFileName s.appender.divFileName k) = none ∧
      let path := cString s.appender.pathFileName
      let name := candidate s.appender.pathFileName s.appender.divFileName k
      step junk s message = some
        { appender :=
            { s.timed message with
              divFileName := label
              fileExpUid := next
              fd := path
              actSize := message.text.length }
          files := ((s.files.renamed path name).opened path).appended path message.text
          rotated := s.rotated ++ [⟨name, none, s.current⟩]
          current := ⟨[], [message]⟩ } := by
  obtain ⟨array, begins, begun⟩ := prefixName_begun junk isOld room
  have timed : prefixName junk (s.timed message) = some array := begins
  obtain ⟨uid, small, checked⟩ := checkFile_due junk named due clamped
  obtain ⟨k, next, bound, isFree, divided⟩ := divide_free
    (a := { s.timed message with divFileName := label, fileExpUid := uid }) begun isOld room inRange
    small free
  refine ⟨k, next, bound, isFree, ?_⟩
  rw [timed, Option.bind_some, divided, Option.map_some] at checked
  have isNew : s.files (candidate s.appender.pathFileName s.appender.divFileName k) = none := isFree
  simp only [State.timed, Nat.zero_add] at checked
  simp only [step, checked, Option.map_some, isNew, State.timed]

end Step

/-! ## All messages -/

section Runs

/-- The messages in the order of the files. -/
def State.log (s : State) : List Message :=
  (s.rotated.flatMap fun r => r.part.messages) ++ s.current.messages

/-- A renamed file, as it stands among the others. -/
structure Stored (path : Text) (divTime maxSize : Nat) (files : Files) (r : Rotation) : Prop where
  fresh : r.replaced = none
  apart : r.name ≠ path
  content : files r.name = some r.part.content
  bounded : r.part.messages ≠ [] → r.part.content.length ≤ maxSize
  period : 0 < divTime → ∀ m ∈ r.part.messages, path ++ 95 :: periodText divTime m.time <+: r.name

structure Inv (initial pathFileName : Text) (divTime maxSize : Nat) (s : State) : Prop where
  named : s.appender.pathFileName = pathFileName
  opened : s.appender.fd = cString pathFileName
  hours : s.appender.divTime = divTime
  limit : s.appender.maxSize = maxSize
  clamped : minFileSize ≤ maxSize
  label : s.appender.divFileName.length = 13
  dated : 0 < divTime → ∃ time, s.appender.divFileName = periodText divTime time
  uid : s.appender.fileExpUid < 2 ^ 32
  content : s.files (cString pathFileName) = some s.current.content
  counted : s.appender.actSize = s.current.content.length
  bounded : s.current.messages ≠ [] → s.current.content.length ≤ maxSize
  period : 0 < divTime → ∀ m ∈ s.current.messages,
    periodText divTime m.time = s.appender.divFileName
  stored : ∀ r ∈ s.rotated, Stored (cString pathFileName) divTime maxSize s.files r
  whole : (s.rotated.flatMap fun r => r.part.content) ++ s.current.content =
    initial ++ s.log.flatMap Message.text

theorem cString_append {text : Text} (noZero : 0 ∉ text) (rest : Text) :
    cString (text ++ rest) = text ++ cString rest := by
  rw [cString, cString, List.takeWhile_append_of_pos]
  intro c member
  rw [decide_eq_true_eq]
  rintro rfl
  exact noZero member

theorem cString_eq {text : Text} (noZero : 0 ∉ text) : cString text = text := by
  simpa [cString] using cString_append noZero []

/-- A zero in the name of the file ends every candidate. -/
theorem candidate_of_zero {pathFileName : Text} (zero : 0 ∈ pathFileName)
    (room : pathFileName.length + 15 ≤ maxFileNameLen) (divFileName : Text) (k : Nat) :
    candidate pathFileName divFileName k = cString pathFileName := by
  obtain ⟨front, rest, rfl⟩ := List.append_of_mem zero
  rw [List.length_append, List.length_cons] at room
  rw [candidate, List.append_assoc, List.append_assoc, List.cons_append, List.take_append,
    List.take_of_length_le (by omega), cString_append_zero]
  obtain ⟨more, isMore⟩ : ∃ more, maxFileNameLen - 1 - front.length = more + 1 :=
    ⟨maxFileNameLen - 1 - front.length - 1, by omega⟩
  rw [isMore, List.take_succ_cons, cString_append_zero]

theorem candidate_prefix {pathFileName divFileName : Text} (noZero : 0 ∉ pathFileName)
    (noZero' : 0 ∉ divFileName) (isLabel : divFileName.length = 13)
    (room : pathFileName.length + 15 ≤ maxFileNameLen) (k : Nat) :
    pathFileName ++ 95 :: divFileName <+: candidate pathFileName divFileName k := by
  have front : (pathFileName ++ 95 :: divFileName).length = pathFileName.length + 14 := by
    rw [List.length_append, List.length_cons, isLabel]
  have plain : 0 ∉ pathFileName ++ 95 :: divFileName := by
    simp only [List.mem_append, List.mem_cons, not_or]
    exact ⟨noZero, by decide, noZero'⟩
  rw [candidate, List.take_append, List.take_of_length_le (by omega), cString_append plain]
  exact List.prefix_append _ _

/-- The files when one of them has been divided. -/
theorem divided_files {files : Files} {path name content : Text} (known : files path = some content)
    (isFree : files name = none) (text : Text) :
    name ≠ path ∧
      (((files.renamed path name).opened path).appended path text) path = some text ∧
      (((files.renamed path name).opened path).appended path text) name = some content ∧
      ∀ n, n ≠ path → n ≠ name →
        (((files.renamed path name).opened path).appended path text) n = files n := by
  have apart : name ≠ path := by
    rintro rfl
    rw [known] at isFree
    cases isFree
  refine ⟨apart, ?_, ?_, ?_⟩
  · simp [Files.appended, Files.opened, Files.renamed, known, apart.symm]
  · simp [Files.appended, Files.opened, Files.renamed, known, apart]
  · intro n other other'
    simp [Files.appended, Files.opened, Files.renamed, known, other, other']

variable {junk : Nat → UInt8} {initial pathFileName : Text} {divTime maxSize : Nat} {s s' : State}
  {message : Message}

theorem step_log (taken : step junk s message = some s') : s'.log = s.log ++ [message] := by
  obtain ⟨⟨a, files, name⟩, -, rfl⟩ := Option.map_eq_some_iff.mp taken
  cases name with
  | none => simp [State.log]
  | some name => simp [State.log]

theorem exec_log {messages : List Message} (ran : exec (step junk) s messages = some s') :
    s'.log = s.log ++ messages := by
  induction messages generalizing s with
  | nil =>
      cases ran
      rw [List.append_nil]
  | cons message messages ih =>
      obtain ⟨mid, first, later⟩ := Option.bind_eq_some_iff.mp ran
      rw [ih later, step_log first, List.append_assoc]
      rfl

theorem Part.content_append (part : Part) (message : Message) :
    Part.content { part with messages := part.messages ++ [message] } =
      part.content ++ message.text := by
  simp [Part.content]

/-- The period of a message that fits. -/
theorem label_exists {time : Time} (year : 0 < divTime → FourDigits time) :
    ∃ label, timeFileName divTime (getTimeString time) = some label ∧
      (0 < divTime → label = periodText divTime time) := by
  rcases Nat.eq_zero_or_pos divTime with zero | some
  · obtain ⟨label, named⟩ := timeFileName_zero zero time
    exact ⟨label, named, fun pos => by omega⟩
  · exact ⟨_, timeFileName_period some (year some), fun _ => rfl⟩

theorem Inv.kept (inv : Inv initial pathFileName divTime maxSize s)
    (year : 0 < divTime → FourDigits message.time) (notDue : ¬ Due s message) :
    ∃ s', step junk s message = some s' ∧ Inv initial pathFileName divTime maxSize s' := by
  obtain ⟨named, opened, hours, limit, clamped, isLabel, dated, uid, content, counted, bounded,
    period, stored, whole⟩ := inv
  obtain ⟨label, isPeriod, fromTime⟩ := label_exists year
  rw [← hours] at isPeriod
  have exist := content
  rw [← named] at exist
  refine ⟨_, step_kept isPeriod notDue exist, ?_⟩
  rw [Due, isPeriod, hours, limit] at notDue
  obtain ⟨same, small⟩ := not_or.mp notDue
  refine ⟨named, opened, hours, limit, clamped, isLabel, dated, uid, ?_, ?_, ?_, ?_, ?_, ?_⟩
  · rw [Part.content_append]
    simp [Files.appended, opened, content]
  · rw [Part.content_append, List.length_append, counted]
  · intro _
    rw [Part.content_append, List.length_append]
    omega
  · intro some m member
    rcases List.mem_append.mp member with member | member
    · exact period some m member
    · obtain rfl := List.mem_singleton.mp member
      by_contra differs
      refine same ⟨some, fun equal => differs ?_⟩
      rw [← fromTime some]
      exact Option.some.inj equal
  · intro r member
    obtain ⟨fresh, apart, rContent, rBounded, rPeriod⟩ := stored r member
    refine ⟨fresh, apart, ?_, rBounded, rPeriod⟩
    simp [Files.appended, opened, apart, rContent]
  · rw [Part.content_append, ← List.append_assoc, whole]
    simp [State.log]

theorem Inv.divided (inv : Inv initial pathFileName divTime maxSize s)
    (year : 0 < divTime → FourDigits message.time) (due : Due s message)
    (room : pathFileName.length + 15 ≤ maxFileNameLen)
    (free : ∃ k < tries, s.files (candidate pathFileName s.appender.divFileName k) = none) :
    ∃ s', step junk s message = some s' ∧ Inv initial pathFileName divTime maxSize s' := by
  obtain ⟨named, opened, hours, limit, clamped, isLabel, dated, uid, content, counted, bounded,
    period, stored, whole⟩ := inv
  obtain ⟨label, isPeriod, fromTime⟩ := label_exists year
  rw [← hours] at isPeriod
  obtain ⟨k, next, nextSmall, isFree, taken⟩ := step_divided junk isPeriod due
    (by rwa [limit]) isLabel uid (by rwa [named]) (by rwa [named])
  refine ⟨_, taken, ?_⟩
  rw [named] at isFree
  obtain ⟨apart, atPath, atName, elsewhere⟩ := divided_files content isFree message.text
  have noZero : 0 ∉ pathFileName := by
    intro zero
    rw [candidate_of_zero zero room, content] at isFree
    cases isFree
  have newLabel : label.length = 13 := length_timeFileName isPeriod
  have short := message.short
  have large : maxLenLogBuff ≤ minFileSize := by decide
  have alone : Part.content ⟨[], [message]⟩ = message.text := by simp [Part.content]
  refine ⟨named, ?_, hours, limit, clamped, newLabel, ?_, nextSmall, ?_, ?_, ?_, ?_, ?_, ?_⟩
  · exact congrArg cString named
  · intro some
    exact ⟨message.time, fromTime some⟩
  · dsimp only
    rw [named, alone]
    exact atPath
  · rw [alone]
  · intro _
    rw [alone]
    omega
  · intro some m member
    obtain rfl := List.mem_singleton.mp member
    exact (fromTime some).symm
  · intro r member
    dsimp only
    rw [named]
    rcases List.mem_append.mp member with member | member
    · obtain ⟨fresh, rApart, rContent, rBounded, rPeriod⟩ := stored r member
      refine ⟨fresh, rApart, ?_, rBounded, rPeriod⟩
      rw [elsewhere _ rApart, rContent]
      intro same
      rw [same, isFree] at rContent
      cases rContent
    · obtain rfl := List.mem_singleton.mp member
      refine ⟨rfl, by rw [named]; exact apart, by rw [named]; exact atName, bounded, ?_⟩
      intro some m isIn
      obtain ⟨time, isTime⟩ := dated some
      rw [named, cString_eq noZero, period some m isIn]
      refine candidate_prefix noZero ?_ isLabel room k
      rw [isTime]
      exact zero_notMem_periodText divTime time
  · rw [alone]
    simp only [List.flatMap_append, List.flatMap_cons, List.flatMap_nil, List.append_nil, State.log]
      at whole ⊢
    rw [whole]
    simp

/-- A message that meets the condition is written, and everything stays in order. -/
theorem Inv.advance (inv : Inv initial pathFileName divTime maxSize s) (fits : Fits s message) :
    ∃ s', step junk s message = some s' ∧ Inv initial pathFileName divTime maxSize s' := by
  obtain ⟨year, room, free⟩ := fits
  rw [inv.hours] at year
  rw [inv.named] at room free
  by_cases due : Due s message
  · exact inv.divided year due (room due) (free due)
  · exact inv.kept year due

theorem Inv.right (inv : Inv initial pathFileName divTime maxSize s) :
    Right initial (cString pathFileName) divTime maxSize s.log s := by
  have contents : (s.rotated.flatMap fun r => (s.files r.name).getD []) =
      s.rotated.flatMap fun r => r.part.content := by
    rw [List.flatMap_def, List.flatMap_def]
    refine congrArg List.flatten (List.map_congr_left fun r member => ?_)
    rw [(inv.stored r member).content]
    rfl
  refine ⟨fun r member => (inv.stored r member).fresh, ?_, ?_,
    ⟨fun r member => (inv.stored r member).content, inv.content⟩,
    ⟨fun r member => (inv.stored r member).bounded, inv.bounded⟩,
    fun some r member => (inv.stored r member).period some⟩
  · rw [inv.content, inv.counted]
    rfl
  · rw [contents, inv.content]
    exact inv.whole

end Runs

/-! ## What holds of every run -/

section Start

variable {files : Files} {file label : Text} {size divTime : Nat} {created : Time}

/-- `m_pathFileName` as a string. -/
def pathOf (file : Text) : Text := cString (file.take (maxFileNameLen - 1))

theorem clampedDivTime_pos (some : 0 < clampedDivTime divTime) : 0 < divTime := by
  rcases Nat.eq_zero_or_pos divTime with rfl | pos
  · exact some
  · exact pos

theorem le_clampedSize (size : Nat) : minFileSize ≤ clampedSize size := by
  rw [clampedSize]
  split
  · decide
  · split
    · exact Nat.le_refl _
    · split
      · decide
      · omega

theorem start_eq
    (named : timeFileName (clampedDivTime divTime) (getTimeString created) = some label) :
    start files file size divTime created = some
      ⟨⟨file.take (maxFileNameLen - 1), clampedDivTime divTime, label, 0, clampedSize size,
        ((files (pathOf file)).map List.length).getD 0, getTimeString created, pathOf file⟩,
        files.opened (pathOf file), [], ⟨(files (pathOf file)).getD [], []⟩⟩ := by
  rw [start, create, named]
  rfl

/-- A new appender is in order. -/
theorem start_inv (files : Files) (file : Text) (size : Nat)
    (year : 0 < divTime → FourDigits created) :
    ∃ s, start files file size divTime created = some s ∧ s.log = [] ∧
      Inv ((files (pathOf file)).getD []) (file.take (maxFileNameLen - 1))
        (clampedDivTime divTime) (clampedSize size) s := by
  obtain ⟨label, named, fromTime⟩ := label_exists fun pos => year (clampedDivTime_pos pos)
  refine ⟨_, start_eq named, rfl, rfl, rfl, rfl, rfl, le_clampedSize size,
    length_timeFileName named, fun some => ⟨created, fromTime some⟩, Nat.two_pow_pos 32, ?_, ?_, ?_,
    ?_, ?_, ?_⟩
  · simp [Files.opened, Part.content, pathOf]
  · cases files (pathOf file) <;> simp [Part.content]
  · simp
  · simp
  · simp
  · simp [Part.content, State.log]

end Start

/-- In every run whose messages meet the condition, every message is written and nothing is lost. -/
theorem rotation_right (junk : Nat → UInt8) (files : Files) (file : Text) (size divTime : Nat)
    (created : Time) (year : 0 < divTime → FourDigits created) :
    ∃ s₀, start files file size divTime created = some s₀ ∧
      ∀ messages, Meets (step junk) Fits s₀ messages →
        ∃ s, exec (step junk) s₀ messages = some s ∧
          Right ((files (pathOf file)).getD []) (pathOf file) (clampedDivTime divTime)
            (clampedSize size) messages s := by
  obtain ⟨s₀, started, noLog, inv⟩ := start_inv files file size year
  refine ⟨s₀, started, fun messages meets => ?_⟩
  obtain ⟨s, ran, inv⟩ := exec_progress (fun s message inv fits => Inv.advance inv fits) inv meets
  have log := exec_log ran
  rw [noLog, List.nil_append] at log
  have right := inv.right
  rw [log] at right
  exact ⟨s, ran, right⟩

def hourly (hour : Fin 24) : Time := ⟨2020, 0, 0, hour⟩

theorem hourly_digits (hour : Fin 24) : FourDigits (hourly hour) :=
  ⟨show (-1000 : Int) < 2020 by decide, show (2020 : Int) < 10000 by decide⟩

def oneHourLater : Message := ⟨hourly 1, [98], by decide⟩

/-- An appender with a period of one hour, without any files. -/
def fresh (file : Text) : State :=
  ⟨⟨file.take (maxFileNameLen - 1), 1, periodText 1 (hourly 0), 0, clampedSize 0, 0,
    getTimeString (hourly 0), pathOf file⟩,
    Files.opened (fun _ => none) (pathOf file), [], ⟨[], []⟩⟩

theorem start_fresh (file : Text) :
    start (fun _ => none) file 0 1 (hourly 0) = some (fresh file) :=
  start_eq (timeFileName_period (by decide) (hourly_digits 0))

/-- A message of another hour, for which the file "a" is divided. -/
theorem rotation_right_hour :
    ∃ s₀, start (fun _ => none) [97] 0 1 (hourly 0) = some s₀ ∧
      ∃ s, exec (step fun _ => 0) s₀ [oneHourLater] = some s ∧
        Right [] [97] 1 (clampedSize 0) [oneHourLater] s := by
  obtain ⟨s₀, started, all⟩ := rotation_right (fun _ => 0) (fun _ => none) [97] 0 1 (hourly 0)
    fun _ => hourly_digits 0
  obtain rfl : fresh [97] = s₀ := Option.some.inj ((start_fresh [97]).symm.trans started)
  have isFree : (fresh [97]).files (candidate [97] (periodText 1 (hourly 0)) 0) = none := by decide
  have fits : Fits (fresh [97]) oneHourLater :=
    ⟨fun _ => hourly_digits 1, fun _ => by decide, fun _ => ⟨0, by decide, isFree⟩⟩
  exact ⟨_, started, all _ ⟨fits, fun _ _ => trivial⟩⟩

/-- The name of the file and the period are written outside of the array, if it is too short. -/
theorem step_room {junk : Nat → UInt8} {s s' : State} {message : Message} {label : Text}
    (named : timeFileName s.appender.divTime (getTimeString message.time) = some label)
    (due : Due s message) (clamped : minFileSize ≤ s.appender.maxSize)
    (taken : step junk s message = some s') :
    s.appender.pathFileName.length + 1 + s.appender.divFileName.length ≤ maxFileNameLen := by
  obtain ⟨uid, -, checked⟩ := checkFile_due junk named due clamped
  obtain ⟨result, done, -⟩ := Option.map_eq_some_iff.mp taken
  obtain ⟨array, begins, -⟩ := Option.bind_eq_some_iff.mp (checked.symm.trans done)
  obtain ⟨first, wrote₁, begins⟩ := Option.bind_eq_some_iff.mp begins
  obtain ⟨second, wrote₂, wrote₃⟩ := Option.bind_eq_some_iff.mp begins
  have size₁ := length_writeAt wrote₁
  have size₂ := length_writeAt wrote₂
  rw [length_malloc] at size₁
  rw [writeAt] at wrote₃
  split at wrote₃
  · next inside =>
      rw [size₂, size₁] at inside
      exact inside
  · cases wrote₃

def longName : Text := List.replicate 250 97

/-- With a name of 250 characters, the file cannot be divided. -/
theorem long_name_outside :
    ¬ ∃ s₀, start (fun _ => none) longName 0 1 (hourly 0) = some s₀ ∧
      ∃ s, exec (step fun _ => 0) s₀ [oneHourLater] = some s ∧
        Right [] longName 1 (clampedSize 0) [oneHourLater] s := by
  rintro ⟨s₀, started, s, ran, -⟩
  obtain rfl : fresh longName = s₀ := Option.some.inj ((start_fresh longName).symm.trans started)
  obtain ⟨mid, taken, -⟩ := Option.bind_eq_some_iff.mp ran
  have named : timeFileName 1 (getTimeString (hourly 1)) = some (periodText 1 (hourly 1)) :=
    timeFileName_period (by decide) (hourly_digits 1)
  have due : Due (fresh longName) oneHourLater := by
    refine .inl ⟨by decide, fun same => ?_⟩
    exact absurd (Option.some.inj (named.symm.trans same)) (by decide)
  have room := step_room named due (le_clampedSize 0) taken
  have label : (periodText 1 (hourly 0)).length = 13 := by decide
  have long : (longName.take (maxFileNameLen - 1)).length = 250 := by
    rw [List.length_take, longName, List.length_replicate]
    decide
  have most : maxFileNameLen = 256 := rfl
  simp only [fresh] at room
  omega

end MlsImgSearch.Utils.FileAppender
