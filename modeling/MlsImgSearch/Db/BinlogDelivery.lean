import MlsImgSearch.Db.MysqlBinlogReader
import Mathlib.Data.List.Nodup

/-!
# Delivery of the operations of a log

What a reader of the binary log has handed over is what lies between its start
and its position, in order. This holds in every run in which the table map is
filled as far as the position when a file is opened, no operation is appended
between the end of a file and the look at the index, and table ids fit into 32
bits.
-/

namespace MlsImgSearch.Db.MysqlBinlogReader

open MlsImgSearch.Lib.RecordFile
open MlsImgSearch.Lib.Run

/-! ## The operations of a log -/

section Spec

variable {γ β δ : Type} (parseRows : γ → RowKind → β → δ)

/-- The table of an id behind some records: the last table map event with that id. -/
def lastTable (front : List (LogRecord γ β)) (tableId : Nat) : Option (TableMap γ) :=
  front.reverse.findSome? fun r =>
    match r.event with
    | .tableMap table => if table.tableId = tableId then some table else none
    | _ => none

/-- The operation of a record that stands behind others. -/
def opOf (front : List (LogRecord γ β)) (r : LogRecord γ β) : List (Operation δ) :=
  match r.event with
  | .query sql db => [.sql sql db]
  | .rows kind tableId body =>
      ((lastTable front tableId).map fun table =>
        .row kind table.dbName table.tableName (parseRows table.columns kind body)).toList
  | _ => []

/-- The operations of records that stand behind others. -/
def ops : List (LogRecord γ β) → List (LogRecord γ β) → List (Operation δ)
  | _, [] => []
  | front, r :: back => opOf parseRows front r ++ ops (front ++ [r]) back

/-- The operations of the log before a position in file `k`. -/
def opsBefore (log : List (LogFile γ β)) (k : Nat) (front : List (LogRecord γ β)) :
    List (Operation δ) :=
  (log.take k).flatMap (fun file => ops parseRows [] file.records) ++ ops parseRows [] front

def State.delivered (s : State γ δ) : List (Operation δ) := s.returned.filterMap Prod.snd

/-- A log as a server writes it: file names are distinct, each file starts with its format
description, a rotate event is the last of its file and leads to the start of the next one, and every
rows event stands behind a table map event for its table. -/
structure WellFormed (log : List (LogFile γ β)) : Prop where
  distinct : (log.map LogFile.name).Nodup
  listed : ∀ file ∈ log, baseName file.line = file.name
  first : ∀ file ∈ log, ∃ r records, file.records = r :: records ∧ r.event = .other
  rotates : ∀ k file front back r newLogname pos, log[k]? = some file →
    file.records = front ++ r :: back → r.event = .rotate newLogname pos →
      back = [] ∧ pos = binLogHeaderSize ∧ ∃ next, log[k + 1]? = some next ∧ next.name = newLogname
  mapped : ∀ file ∈ log, ∀ front back r kind tableId body, file.records = front ++ r :: back →
    r.event = .rows kind tableId body → lastTable front tableId ≠ none ∧ tableId < 2 ^ 48

/-- A position in a file, behind `front`. Zero means the first event. -/
def Position (pos : Nat) (front : List (LogRecord γ β)) : Prop :=
  pos = binLogHeaderSize + bytes LogRecord.size front ∨ (pos = 0 ∧ front = [])

/-- The position of a reader in the log: it stands in file `k`, behind `front`. -/
structure StandsAt (log : List (LogFile γ β)) (reader : Reader γ) (k : Nat) (file : LogFile γ β)
    (front back : List (LogRecord γ β)) : Prop where
  isFile : log[k]? = some file
  named : file.name = reader.logname
  split : file.records = front ++ back
  position : Position reader.nextPosition front

/-- What was handed over since `before` is what lies before the position of the reader. -/
def InOrder (log : List (LogFile γ β)) (before : List (Operation δ)) (s : State γ δ) : Prop :=
  ∃ k file front back, StandsAt log s.reader k file front back ∧
    before ++ s.delivered = opsBefore parseRows log k front

end Spec

section Records

variable {γ β δ : Type} {parseRows : γ → RowKind → β → δ} {r : LogRecord γ β}
  {front back mid : List (LogRecord γ β)}

theorem positive (r : LogRecord γ β) : 0 < r.size := Nat.lt_of_lt_of_le (by decide) r.long

theorem lastTable_concat (tableId : Nat) :
    lastTable (front ++ [r]) tableId =
      match r.event with
      | .tableMap table => if table.tableId = tableId then some table else lastTable front tableId
      | _ => lastTable front tableId := by
  rw [lastTable, List.reverse_append, List.reverse_singleton, List.singleton_append,
    List.findSome?_cons]
  cases r.event with
  | query sql db => rfl
  | rows kind tableId body => rfl
  | tableMap table =>
      by_cases same : table.tableId = tableId
      · simp [same]
      · simp only [if_neg same]
        rfl
  | rotate newLogname pos => rfl
  | other => rfl

/-- Records without a table map event leave the tables alone. -/
theorem lastTable_append {tableId : Nat}
    (none' : ∀ r ∈ mid, ∀ table, r.event = .tableMap table → table.tableId ≠ tableId) :
    lastTable (front ++ mid) tableId = lastTable front tableId := by
  induction mid generalizing front with
  | nil => rw [List.append_nil]
  | cons r mid ih =>
      obtain ⟨first, later⟩ := List.forall_mem_cons.mp none'
      rw [← List.singleton_append, ← List.append_assoc, ih later, lastTable_concat]
      cases isEvent : r.event with
      | query sql db => rfl
      | rows kind tableId body => rfl
      | tableMap table => exact if_neg (first table isEvent)
      | rotate newLogname pos => rfl
      | other => rfl

theorem ops_append (front mid back : List (LogRecord γ β)) :
    ops parseRows front (mid ++ back) =
      ops parseRows front mid ++ ops parseRows (front ++ mid) back := by
  induction mid generalizing front with
  | nil => rw [List.append_nil]; rfl
  | cons r mid ih =>
      rw [List.cons_append, ops, ih, ops, List.append_assoc front, List.append_assoc]
      rfl

theorem ops_concat (front : List (LogRecord γ β)) (r : LogRecord γ β) :
    ops parseRows [] (front ++ [r]) = ops parseRows [] front ++ opOf parseRows front r := by
  rw [ops_append, List.nil_append, ops, ops, List.append_nil]

theorem opsBefore_concat (log : List (LogFile γ β)) (k : Nat) :
    opsBefore parseRows log k (front ++ [r]) =
      opsBefore parseRows log k front ++ opOf parseRows front r := by
  rw [opsBefore, ops_concat, ← List.append_assoc]
  rfl

def isOperation : Event γ β → Bool
  | .query _ _ => true
  | .rows _ _ _ => true
  | _ => false

/-- Records that are no operations. -/
def Idle (records : List (LogRecord γ β)) : Prop := ∀ r ∈ records, isOperation r.event = false

instance (records : List (LogRecord γ β)) : Decidable (Idle records) :=
  inferInstanceAs (Decidable (∀ r ∈ records, isOperation r.event = false))

theorem opOf_idle (idle : isOperation r.event = false) : opOf parseRows front r = [] := by
  unfold opOf
  cases isEvent : r.event with
  | query sql db => rw [isEvent] at idle; cases idle
  | rows kind tableId body => rw [isEvent] at idle; cases idle
  | tableMap table => rfl
  | rotate newLogname pos => rfl
  | other => rfl

theorem ops_idle (idle : Idle back) : ops parseRows front back = [] := by
  induction back generalizing front with
  | nil => rfl
  | cons r back ih =>
      obtain ⟨first, later⟩ := List.forall_mem_cons.mp idle
      rw [ops, opOf_idle first, ih later]
      rfl

/-- The start of a file comes behind all of the file before it. -/
theorem opsBefore_next {log : List (LogFile γ β)} {k : Nat} {file : LogFile γ β}
    (isFile : log[k]? = some file) (split : file.records = front ++ back) (idle : Idle back) :
    opsBefore parseRows log (k + 1) [] = opsBefore parseRows log k front := by
  obtain ⟨inside, same⟩ := List.getElem?_eq_some_iff.mp isFile
  rw [opsBefore, opsBefore, List.take_succ_eq_append_getElem inside, List.flatMap_append, same,
    List.flatMap_singleton, split, ops_append, ops_idle idle]
  simp only [ops, List.append_nil]

end Records

/-! ## The runs in question -/

section Runs

variable {γ β δ : Type} (log : List (LogFile γ β))

/-- The positions of the table map events, when the first record lies at `base`. -/
def tablePositions : Nat → List (LogRecord γ β) → List Nat
  | _, [] => []
  | base, r :: records =>
      match r.event with
      | .tableMap _ => base :: tablePositions (base + r.size) records
      | _ => tablePositions (base + r.size) records

/-- No table map event lies between two positions of a file. -/
def NoTableBetween (records : List (LogRecord γ β)) (first second : Nat) : Prop :=
  ∀ pos ∈ tablePositions binLogHeaderSize records, pos < min first second ∨ max first second ≤ pos

/-- The table id of a rows event fits into 32 bits. -/
def smallId : ReadResult γ β → Bool
  | .event (.rows _ tableId _) _ => tableId < 2 ^ 32
  | _ => true

def isEvent : ReadResult γ β → Bool
  | .event _ _ => true
  | _ => false

/-- The steps after which nothing is lost. When a file is opened in its middle, no table map event lies
between `start_position_`, up to which they are collected, and `next_position_`, where reading goes on;
a read of this collection does not fail before `next_position_`; table ids fit into 32 bits; and when
the index names a next file, the file has no operation behind `next_position_`. -/
def Allowed (s : State γ δ) (act : Act) : Prop :=
  match act, s.pc with
  | .readHeader _, .header k .format =>
      binLogHeaderSize < s.reader.nextPosition → ∀ file ∈ log[k]?,
        NoTableBetween file.records s.reader.startPosition s.reader.nextPosition
  | .scan ok, .scanning => ∀ fp ∈ s.reader.fp, fp.pos < s.reader.startPosition →
      isEvent (fetch log s fp ok) = false → s.reader.nextPosition ≤ fp.pos
  | .read ok, .reading => ∀ fp ∈ s.reader.fp, smallId (fetch log s fp ok) = true
  | .readIndex ok, .atEnd => nextListed log s ok ≠ [] → ∀ fp ∈ s.reader.fp, ∀ file ∈ log[fp.file]?,
      ∀ back ∈ recordsFrom LogRecord.size file.records binLogHeaderSize
        (max s.reader.nextPosition binLogHeaderSize), Idle back
  | _, _ => True

instance (records : List (LogRecord γ β)) (first second : Nat) :
    Decidable (NoTableBetween records first second) :=
  inferInstanceAs (Decidable (∀ pos ∈ tablePositions binLogHeaderSize records, _ ∨ _))

instance (s : State γ δ) (act : Act) : Decidable (Allowed log s act) := by
  unfold Allowed
  split <;> infer_instance

end Runs

/-! ## The table map -/

section Tables

variable {γ β : Type} {map : List (TableMap γ)} {r : LogRecord γ β}
  {front back mid ahead : List (LogRecord γ β)}

theorem findTable_set (table : TableMap γ) (tableId : Nat) :
    findTable (setTableMapEvent map table) tableId =
      if table.tableId = tableId then some table else findTable map tableId := by
  rw [findTable, setTableMapEvent, List.find?_cons]
  by_cases same : table.tableId = tableId
  · rw [if_pos same, beq_iff_eq.mpr same]
  · rw [if_neg same, beq_eq_false_iff_ne.mpr same]
    dsimp only
    rw [findTable, List.find?_filter]
    refine congrFun (congrArg List.find? (funext fun old => ?_)) map
    by_cases isId : old.tableId = tableId
    · have differs : old.tableId ≠ table.tableId := fun again => same (again.symm.trans isId)
      rw [beq_iff_eq.mpr isId, bne_iff_ne.mpr differs]
      rfl
    · rw [beq_eq_false_iff_ne.mpr isId]
      simp

/-- Only table map events. -/
def AllTables (records : List (LogRecord γ β)) : Prop := ∀ r ∈ records, ∃ table, r.event = .tableMap table

theorem AllTables.idle (all : AllTables mid) : Idle mid := by
  intro r member
  obtain ⟨table, isTable⟩ := all r member
  rw [isTable]
  rfl

/-- The map has the tables behind `front`, except for those that `ahead` brings again. -/
def Filled (map : List (TableMap γ)) (front ahead : List (LogRecord γ β)) : Prop :=
  ∀ tableId, (∀ r ∈ ahead, ∀ table, r.event = .tableMap table → table.tableId ≠ tableId) →
    ∀ table, lastTable front tableId = some table → findTable map tableId = some table

theorem filled_nil : Filled map ([] : List (LogRecord γ β)) ahead := by
  intro tableId _ table found
  cases found

/-- The reader goes back behind `front`; the table map events that it has read come again. -/
theorem Filled.rewind (filled : Filled map (front ++ mid) ahead) : Filled map front (mid ++ ahead) := by
  intro tableId others table found
  refine filled tableId (fun r member => others r (List.mem_append_right _ member)) table ?_
  rw [lastTable_append fun r member => others r (List.mem_append_left _ member)]
  exact found

/-- An event that is no table map event. -/
theorem Filled.skip (filled : Filled map front []) (other : ∀ table, r.event ≠ .tableMap table) :
    Filled map (front ++ [r]) [] := by
  intro tableId others table found
  refine filled tableId others table ?_
  rwa [lastTable_append fun r' member table' isTable =>
    absurd isTable (List.mem_singleton.mp member ▸ other table')] at found

/-- A table map event is read, for the first time or again. -/
theorem Filled.set {table : TableMap γ} (filled : Filled map front ahead)
    (isTable : r.event = .tableMap table) (again : ahead = [] ∨ ∃ later, ahead = r :: later) :
    Filled (setTableMapEvent map table) (front ++ [r]) ahead.tail := by
  intro tableId others found isFound
  rw [lastTable_concat, isTable] at isFound
  rw [findTable_set]
  dsimp only at isFound
  by_cases same : table.tableId = tableId
  · rw [if_pos same] at isFound ⊢
    exact isFound
  · rw [if_neg same] at isFound ⊢
    refine filled tableId ?_ found isFound
    rcases again with rfl | ⟨later, rfl⟩
    · exact fun r' member => nomatch member
    · refine List.forall_mem_cons.mpr ⟨fun table' isTable' => ?_, others⟩
      rw [isTable] at isTable'
      rwa [← Event.tableMap.inj isTable']

theorem mem_tablePositions {table : TableMap γ} (isTable : r.event = .tableMap table)
    (front back : List (LogRecord γ β)) (base : Nat) :
    base + bytes LogRecord.size front ∈ tablePositions base (front ++ r :: back) := by
  induction front generalizing base with
  | nil =>
      rw [List.nil_append, tablePositions, isTable]
      exact List.mem_cons_self
  | cons first front ih =>
      have later := ih (base + first.size)
      rw [Nat.add_assoc, ← bytes_cons] at later
      rw [List.cons_append, tablePositions]
      split
      · exact List.mem_cons_of_mem _ later
      · exact later

end Tables

/-! ## The invariant -/

section Invariant

variable {γ β δ : Type} {log : List (LogFile γ β)} {parseRows : γ → RowKind → β → δ}
  {s : State γ δ} {reader : Reader γ} {k : Nat} {file : LogFile γ β} {fp : Stream}
  {front back : List (LogRecord γ β)} {before : List (Operation δ)}

/-- The stream stands in the file at hand, behind `before`. -/
structure StreamAt (reader : Reader γ) (k : Nat) (file : LogFile γ β) (fp : Stream)
    (before after : List (LogRecord γ β)) : Prop where
  isOpen : reader.fp = some fp
  isFile : fp.file = k
  split : file.records = before ++ after
  pos : fp.pos = binLogHeaderSize + bytes LogRecord.size before

/-- Between the position and the stream lie table map events only, and the tables are known. -/
structure Reading (reader : Reader γ) (k : Nat) (file : LogFile γ β) (front : List (LogRecord γ β))
    (fp : Stream) (mid rest : List (LogRecord γ β)) : Prop
    extends StreamAt reader k file fp (front ++ mid) rest where
  passed : AllTables mid
  filled : ∃ ahead, ahead <+: rest ∧ AllTables ahead ∧ Filled reader.tableMap (front ++ mid) ahead

/-- The table map events before the stream are collected. -/
structure Scanning (reader : Reader γ) (k : Nat) (file : LogFile γ β) (fp : Stream)
    (scanned rest : List (LogRecord γ β)) : Prop
    extends StreamAt reader k file fp scanned rest where
  known : ∀ tableId, findTable reader.tableMap tableId = lastTable scanned tableId
  below : ∀ before r after, scanned = before ++ r :: after →
    binLogHeaderSize + bytes LogRecord.size before < reader.startPosition
  middle : reader.nextPosition ≠ 0
  kept : binLogHeaderSize < reader.nextPosition →
    NoTableBetween file.records reader.startPosition reader.nextPosition

/-- The file is closed. -/
def Closed (reader : Reader γ) : Prop := reader.fp = none ∧ reader.tableMap = []

/-- What holds of the reader at each place of a call. -/
def PcOk (reader : Reader γ) (k : Nat) (file : LogFile γ β) (front : List (LogRecord γ β)) : Pc → Prop
  | .idle => Closed reader ∨
      (reader.nextPosition ≠ 0 ∧ ∃ fp rest, Reading reader k file front fp [] rest)
  | .opening => Closed reader
  | .header k' _ => Closed reader ∧ k' = k
  | .scanning => ∃ fp scanned rest, Scanning reader k file fp scanned rest
  | .reading => ∃ fp mid rest, Reading reader k file front fp mid rest
  | .atEnd => reader.nextPosition ≠ 0 ∧ ∃ fp mid rest, Reading reader k file front fp mid rest

/-- Before the first event of a file is passed, it can be seen. -/
def Shown (log : List (LogFile γ β)) (s : State γ δ) (k : Nat) (file : LogFile γ β) : Prop :=
  s.reader.nextPosition = 0 → s.reader.fp ≠ none → ∃ r records, file.records = r :: records ∧
    binLogHeaderSize + r.size ≤ s.visible log k

/-- The writer is not ahead of its file. -/
def WriterOk (log : List (LogFile γ β)) (s : State γ δ) : Prop :=
  s.written ≤ ((log[s.current]?).map LogFile.size).getD 0

structure Inv (log : List (LogFile γ β)) (parseRows : γ → RowKind → β → δ)
    (before : List (Operation δ)) (s : State γ δ) (k : Nat) (file : LogFile γ β)
    (front back : List (LogRecord γ β)) : Prop where
  stands : StandsAt log s.reader k file front back
  inOrder : before ++ s.delivered = opsBefore parseRows log k front
  pcOk : PcOk s.reader k file front s.pc
  shown : Shown log s k file
  writer : WriterOk log s

theorem fetch_eq (isFile : log[fp.file]? = some file) :
    fetch log s fp true = readLogEvent file (s.visible log fp.file) fp.pos := by
  simp only [fetch, isFile]

/-- An event that is read is the one behind the position, and it can be seen. -/
theorem fetch_event {ok : Bool} {event : Event γ β} {pos : Nat} {prior rest : List (LogRecord γ β)}
    (isFile : log[k]? = some file) (streamAt : StreamAt s.reader k file fp prior rest)
    (fetched : fetch log s fp ok = .event event pos) :
    ∃ r later, rest = r :: later ∧ event = r.event ∧
      pos = binLogHeaderSize + bytes LogRecord.size (prior ++ [r]) ∧ pos ≤ s.visible log k := by
  cases ok with
  | false => cases fetched
  | true =>
      rw [← streamAt.isFile] at isFile
      rw [fetch_eq isFile, readLogEvent, streamAt.pos, streamAt.split,
        recordsFrom_append positive] at fetched
      cases rest with
      | nil => cases fetched
      | cons r later =>
          dsimp only at fetched
          split at fetched
          · next visible =>
              obtain ⟨rfl, rfl⟩ := ReadResult.event.inj fetched
              refine ⟨r, later, rfl, rfl, ?_, streamAt.isFile ▸ visible⟩
              rw [bytes_concat, Nat.add_assoc]
          · cases fetched

/-- At the end of the visible part nothing complete follows. -/
theorem fetch_eof {ok : Bool} {prior rest later : List (LogRecord γ β)} {r : LogRecord γ β}
    (isFile : log[k]? = some file) (streamAt : StreamAt s.reader k file fp prior rest)
    (fetched : fetch log s fp ok = .eof) (isNext : rest = r :: later) :
    s.visible log k < fp.pos + r.size := by
  cases ok with
  | false => cases fetched
  | true =>
      rw [← streamAt.isFile] at isFile
      rw [fetch_eq isFile, readLogEvent, streamAt.pos, streamAt.split, recordsFrom_append positive,
        isNext] at fetched
      dsimp only at fetched
      split at fetched
      · cases fetched
      · next short =>
          rw [streamAt.pos, ← streamAt.isFile]
          omega

theorem visible_mono {s' : State γ δ} (writer : WriterOk log s)
    (more : (s'.current = s.current ∧ s.written ≤ s'.written) ∨ s'.current = s.current + 1) (k : Nat) :
    s.visible log k ≤ s'.visible log k := by
  unfold State.visible
  unfold WriterOk at writer
  rcases more with ⟨same, less⟩ | next
  · rw [same]
    split
    · exact Nat.le_refl _
    · split
      · exact less
      · exact Nat.le_refl _
  · rw [next]
    by_cases earlier : k < s.current
    · have later : k < s.current + 1 := by omega
      simp [earlier, later]
    · rw [if_neg earlier]
      by_cases here : k = s.current
      · rw [if_pos here, if_pos (by omega), here]
        exact writer
      · rw [if_neg here]
        exact Nat.zero_le _

/-- A step of the writer. -/
theorem Inv.writer_step {s' : State γ δ} (inv : Inv log parseRows before s k file front back)
    (same : s'.reader = s.reader ∧ s'.pc = s.pc ∧ s'.returned = s.returned)
    (more : (s'.current = s.current ∧ s.written ≤ s'.written) ∨ s'.current = s.current + 1)
    (writer : WriterOk log s') : Inv log parseRows before s' k file front back := by
  obtain ⟨reader, pc, returned⟩ := same
  refine ⟨by rw [reader]; exact inv.stands, ?_, by rw [reader, pc]; exact inv.pcOk, ?_, writer⟩
  · rw [State.delivered, returned]
    exact inv.inOrder
  · intro atStart isOpen
    rw [reader] at atStart isOpen
    obtain ⟨r, records, split, seen⟩ := inv.shown atStart isOpen
    exact ⟨r, records, split, Nat.le_trans seen (visible_mono inv.writer more k)⟩

/-! The steps of the reader. -/

theorem delivered_give (code : Int) (op : Option (Operation δ)) (reader : Reader γ) :
    (s.give code op reader).delivered = s.delivered ++ op.toList := by
  rw [State.delivered, State.give, List.filterMap_append]
  cases op with
  | none => rfl
  | some op => rfl

/-- A call that returns without an operation and with the file closed. -/
theorem Inv.give_closed {code : Int} (inv : Inv log parseRows before s k file front back)
    (closed : Closed reader) (named : reader.logname = s.reader.logname)
    (position : reader.nextPosition = s.reader.nextPosition) :
    Inv log parseRows before (s.give code none reader) k file front back where
  stands := ⟨inv.stands.isFile, inv.stands.named.trans named.symm, inv.stands.split, by
    show Position reader.nextPosition front
    rw [position]
    exact inv.stands.position⟩
  inOrder := by
    rw [delivered_give]
    exact (congrArg (before ++ ·) (List.append_nil s.delivered)).trans inv.inOrder
  pcOk := Or.inl closed
  shown := fun _ isOpen => absurd closed.1 isOpen
  writer := inv.writer

/-- The reader moves within its call. -/
theorem Inv.move {pc : Pc} (inv : Inv log parseRows before s k file front back)
    (named : reader.logname = s.reader.logname)
    (position : reader.nextPosition = s.reader.nextPosition) (pcOk : PcOk reader k file front pc)
    (shown : Shown log { s with reader := reader, pc := pc } k file) :
    Inv log parseRows before { s with reader := reader, pc := pc } k file front back where
  stands := ⟨inv.stands.isFile, inv.stands.named.trans named.symm, inv.stands.split, by
    show Position reader.nextPosition front
    rw [position]
    exact inv.stands.position⟩
  inOrder := inv.inOrder
  pcOk := pcOk
  shown := shown
  writer := inv.writer

theorem Inv.call_step (inv : Inv log parseRows before s k file front back) (pc : s.pc = .idle) :
    Inv log parseRows before { s with pc := if s.reader.fp = none then .opening else .reading }
      k file front back := by
  have pcOk := inv.pcOk
  rw [pc] at pcOk
  refine inv.move rfl rfl ?_ inv.shown
  rcases pcOk with closed | ⟨_, fp, rest, reading⟩
  · rw [if_pos closed.1]
    exact closed
  · rw [if_neg (by rw [reading.isOpen]; exact Option.some_ne_none _)]
    exact ⟨fp, [], rest, reading⟩

theorem Inv.restart_step (inv : Inv log parseRows before s k file front back) (pc : s.pc = .idle) :
    Inv log parseRows before { s with
      reader := .init s.reader.logname s.reader.nextPosition } k file front back := by
  have closed : Closed (Reader.init s.reader.logname s.reader.nextPosition : Reader γ) := ⟨rfl, rfl⟩
  refine ⟨⟨inv.stands.isFile, inv.stands.named, inv.stands.split, inv.stands.position⟩, inv.inOrder,
    ?_, fun _ isOpen => absurd closed.1 isOpen, inv.writer⟩
  show PcOk _ k file front s.pc
  rw [pc]
  exact Or.inl closed

/-- The name of a file is that of no other one. -/
theorem WellFormed.index_eq (wellFormed : WellFormed log) {k' : Nat} {file' : LogFile γ β}
    (isFile : log[k]? = some file) (isFile' : log[k']? = some file')
    (same : file'.name = file.name) : k' = k := by
  have name : (log.map LogFile.name)[k]? = some file.name := by rw [List.getElem?_map, isFile]; rfl
  have name' : (log.map LogFile.name)[k']? = some file.name := by
    rw [List.getElem?_map, isFile', ← same]
    rfl
  obtain ⟨inside, isName⟩ := List.getElem?_eq_some_iff.mp name
  obtain ⟨inside', isName'⟩ := List.getElem?_eq_some_iff.mp name'
  exact (List.Nodup.getElem_inj_iff wellFormed.distinct).mp (isName'.trans isName.symm)

theorem Inv.openFile_step {ok : Bool} (wellFormed : WellFormed log)
    (inv : Inv log parseRows before s k file front back) (pc : s.pc = .opening) :
    Inv log parseRows before (openFile log s ok) k file front back := by
  have pcOk := inv.pcOk
  rw [pc] at pcOk
  have fails : Inv log parseRows before (s.give (-1) none s.reader) k file front back :=
    inv.give_closed pcOk rfl rfl
  unfold openFile
  cases search : log.findIdx? fun file => file.name = s.reader.logname with
  | none => exact fails
  | some k' =>
      dsimp only
      split
      · obtain ⟨inside, isName, -⟩ := List.findIdx?_eq_some_iff_getElem.mp search
        have same : k' = k := wellFormed.index_eq inv.stands.isFile
          (List.getElem?_eq_getElem inside) ((of_decide_eq_true isName).trans inv.stands.named.symm)
        exact inv.move rfl rfl ⟨pcOk, same⟩ inv.shown
      · exact fails

/-- The file is open; its table map events are collected, or reading starts at once. -/
theorem Inv.opened_step {event : Event γ β} {pos : Nat} {ok : Bool}
    (inv : Inv log parseRows before s k file front back) (closed : Closed s.reader)
    (fetched : fetch log s ⟨k, binLogHeaderSize⟩ ok = .event event pos)
    (kept : binLogHeaderSize < s.reader.nextPosition →
      NoTableBetween file.records s.reader.startPosition s.reader.nextPosition) :
    Inv log parseRows before (opened s k) k file front back := by
  have atStart : StreamAt { s.reader with fp := some ⟨k, binLogHeaderSize⟩ } k file
      ⟨k, binLogHeaderSize⟩ [] file.records := ⟨rfl, rfl, rfl, rfl⟩
  have visible : Shown log (opened s k) k file := by
    intro _ _
    obtain ⟨r, later, split, -, isPos, seen⟩ := fetch_event
      (s := { s with reader := { s.reader with fp := some ⟨k, binLogHeaderSize⟩ } })
      inv.stands.isFile atStart fetched
    refine ⟨r, later, split, ?_⟩
    rw [isPos, List.nil_append, bytes_cons, bytes_nil] at seen
    exact seen
  refine inv.move rfl rfl ?_ visible
  by_cases middle : s.reader.nextPosition ≠ 0
  · rw [if_pos middle]
    refine ⟨_, [], file.records, atStart, ?_, ?_, middle, kept⟩
    · intro tableId
      show findTable s.reader.tableMap tableId = none
      rw [closed.2]
      rfl
    · intro before r after split
      cases before with
      | nil => cases split
      | cons first before => cases split
  · rw [if_neg middle]
    have none' : front = [] := by
      rcases inv.stands.position with position | ⟨-, none'⟩
      · have zero := Classical.not_not.mp middle
        have four : binLogHeaderSize = 4 := rfl
        omega
      · exact none'
    subst none'
    have nothing : AllTables ([] : List (LogRecord γ β)) := fun r member => nomatch member
    exact ⟨_, [], file.records, atStart, nothing, [], List.nil_prefix, nothing, filled_nil⟩

theorem Inv.readHeader_step {stage : Stage} {ok : Bool} {k' : Nat}
    (inv : Inv log parseRows before s k file front back) (pc : s.pc = .header k' stage)
    (allowed : Allowed log s (.readHeader ok)) :
    Inv log parseRows before (readHeader log s k' stage ok) k file front back := by
  have pcOk := inv.pcOk
  rw [pc] at pcOk
  obtain ⟨closed, rfl⟩ := pcOk
  have fails : ∀ code, Inv log parseRows before (s.give code none s.reader) k' file front back :=
    fun code => inv.give_closed closed rfl rfl
  have goes : ∀ stage, Inv log parseRows before { s with pc := .header k' stage } k' file front back :=
    fun stage => inv.move rfl rfl ⟨closed, rfl⟩ inv.shown
  cases stage with
  | magic =>
      rw [readHeader]
      split
      · split
        · exact goes _
        · exact fails _
      · exact fails _
  | probe =>
      rw [readHeader]
      split
      · split
        · exact goes _
        · exact fails _
      · exact fails _
  | format =>
      simp only [Allowed, pc] at allowed
      rw [readHeader]
      cases fetched : fetch log s ⟨k', binLogHeaderSize⟩ ok with
      | event event pos =>
          exact inv.opened_step closed fetched fun middle => allowed middle file inv.stands.isFile
      | eof => exact fails _
      | failed => exact fails _

/-- Records that hold no table map event leave the tables alone. -/
theorem lastTable_between {mid : List (LogRecord γ β)}
    (none' : ∀ before r after table, mid = before ++ r :: after → r.event ≠ .tableMap table)
    (tableId : Nat) : lastTable (front ++ mid) tableId = lastTable front tableId := by
  refine lastTable_append fun r member table isTable => ?_
  obtain ⟨before, after, split⟩ := List.append_of_mem member
  exact absurd isTable (none' before r after table split)

/-- The collected tables are those behind the position. -/
theorem Scanning.filled {scanned rest : List (LogRecord γ β)}
    (scanning : Scanning reader k file fp scanned rest) (split : file.records = front ++ back)
    (position : reader.nextPosition = binLogHeaderSize + bytes LogRecord.size front)
    (enough : reader.startPosition ≤ fp.pos ∨ reader.nextPosition ≤ fp.pos) :
    Filled reader.tableMap front [] := by
  intro tableId _ table found
  have pos := scanning.pos
  by_cases middle : binLogHeaderSize < reader.nextPosition
  · have kept := scanning.kept middle
    have both := scanning.split.symm.trans split
    rw [scanning.known, ← found]
    rcases Nat.le_total (bytes LogRecord.size scanned) (bytes LogRecord.size front) with less | more
    · obtain ⟨mid, rfl⟩ := prefix_of_bytes_le positive both less
      refine (lastTable_between (fun before r after table' isMid isTable => ?_) tableId).symm
      subst isMid
      have listed := mem_tablePositions isTable (scanned ++ before) (after ++ back) binLogHeaderSize
      have whole : scanned ++ before ++ r :: (after ++ back) = file.records := by
        rw [split]
        simp
      have size := positive r
      rw [whole] at listed
      rw [bytes_append, bytes_append, bytes_cons] at position
      rw [bytes_append] at listed
      rcases kept _ listed with low | high
      · omega
      · omega
    · obtain ⟨mid, rfl⟩ := prefix_of_bytes_le positive both.symm more
      refine lastTable_between (fun before r after table' isMid isTable => ?_) tableId
      subst isMid
      have listed := mem_tablePositions isTable (front ++ before) (after ++ rest) binLogHeaderSize
      have below := scanning.below (front ++ before) r after (by rw [List.append_assoc])
      have whole : front ++ before ++ r :: (after ++ rest) = file.records := by
        rw [scanning.split]
        simp
      rw [whole] at listed
      rw [bytes_append] at listed below
      rcases kept _ listed with low | high
      · omega
      · omega
  · -- the position is that of the first event
    have none' : front = [] := by
      cases front with
      | nil => rfl
      | cons r front =>
          have size := positive r
          rw [bytes_cons] at position
          omega
    rw [none'] at found
    cases found

/-- The collection ends, and reading goes on at the position. -/
theorem Inv.scan_done {scanned rest : List (LogRecord γ β)}
    (inv : Inv log parseRows before s k file front back)
    (scanning : Scanning s.reader k file fp scanned rest)
    (enough : s.reader.startPosition ≤ fp.pos ∨ s.reader.nextPosition ≤ fp.pos) :
    Inv log parseRows before { s with reader := s.reader.seek fp, pc := .reading }
      k file front back := by
  have position : s.reader.nextPosition = binLogHeaderSize + bytes LogRecord.size front := by
    rcases inv.stands.position with position | ⟨zero, -⟩
    · exact position
    · exact absurd zero scanning.middle
  have nothing : AllTables ([] : List (LogRecord γ β)) := fun r member => nomatch member
  refine inv.move rfl rfl ⟨_, [], back, ⟨rfl, scanning.isFile, ?_, ?_⟩, nothing, [], List.nil_prefix,
    nothing, ?_⟩ fun zero => absurd zero scanning.middle
  · rw [List.append_nil]
    exact inv.stands.split
  · rw [List.append_nil]
    exact position
  · rw [List.append_nil]
    exact scanning.filled inv.stands.split position enough

theorem Inv.scan_step {ok : Bool} (inv : Inv log parseRows before s k file front back)
    (pc : s.pc = .scanning) (isFp : s.reader.fp = some fp) (allowed : Allowed log s (.scan ok)) :
    Inv log parseRows before (scan log s fp ok) k file front back := by
  have pcOk := inv.pcOk
  rw [pc] at pcOk
  obtain ⟨fp', scanned, rest, scanning⟩ := pcOk
  obtain rfl : fp = fp' := Option.some.inj (isFp.symm.trans scanning.isOpen)
  unfold scan
  split
  · next enough => exact inv.scan_done scanning (Or.inl enough)
  · next early =>
      simp only [Allowed, pc] at allowed
      have late := allowed fp isFp (Nat.lt_of_not_le early)
      cases fetched : fetch log s fp ok with
      | event event pos =>
          obtain ⟨r, later, rfl, rfl, isPos, -⟩ :=
            fetch_event inv.stands.isFile scanning.toStreamAt fetched
          refine inv.move rfl rfl ?_ fun zero => absurd zero scanning.middle
          rw [pc]
          refine ⟨{ fp with pos := pos }, scanned ++ [r], later, ⟨rfl, scanning.isFile, ?_, isPos⟩, ?_, ?_,
            scanning.middle, scanning.kept⟩
          · rw [List.append_assoc]
            exact scanning.split
          · intro tableId
            rw [lastTable_concat]
            dsimp only
            cases r.event with
            | tableMap table =>
                dsimp only
                rw [findTable_set, scanning.known]
            | query sql db => exact scanning.known tableId
            | rows kind tableId' body => exact scanning.known tableId
            | rotate newLogname pos => exact scanning.known tableId
            | other => exact scanning.known tableId
          · intro prior r' after split
            rcases split_of_concat split with rfl | ⟨more, isScanned⟩
            · rw [← scanning.pos]
              exact Nat.lt_of_not_le early
            · exact scanning.below prior r' more isScanned
      | eof => exact inv.scan_done scanning (Or.inr (late (by rw [fetched]; rfl)))
      | failed => exact inv.scan_done scanning (Or.inr (late (by rw [fetched]; rfl)))

/-- There is some position at which the invariant holds. -/
def Invariant (log : List (LogFile γ β)) (parseRows : γ → RowKind → β → δ)
    (before : List (Operation δ)) (s : State γ δ) : Prop :=
  ∃ k file front back, Inv log parseRows before s k file front back

/-- Events that are no operations do not count. -/
theorem opsBefore_append {mid : List (LogRecord γ β)} (idle : Idle mid) :
    opsBefore parseRows log k (front ++ mid) = opsBefore parseRows log k front := by
  rw [opsBefore, ops_append, ops_idle idle, List.append_nil]
  rfl

/-- Before an event that is no table map event all tables are known. -/
theorem Reading.known {mid later : List (LogRecord γ β)} {r : LogRecord γ β}
    (reading : Reading reader k file front fp mid (r :: later))
    (other : ∀ table, r.event ≠ .tableMap table) : Filled reader.tableMap (front ++ mid) [] := by
  obtain ⟨ahead, isAhead, tables, filled⟩ := reading.filled
  cases ahead with
  | nil => exact filled
  | cons first ahead =>
      obtain ⟨table, isTable⟩ := tables first List.mem_cons_self
      obtain ⟨rfl, -⟩ := List.cons_prefix_cons.mp isAhead
      exact absurd isTable (other table)

/-- The reader goes on behind an event, with `op` handed over for it. -/
theorem Inv.pass {mid later : List (LogRecord γ β)} {r : LogRecord γ β} {s' : State γ δ}
    (inv : Inv log parseRows before s k file front back)
    (reading : Reading s.reader k file front fp mid (r :: later))
    (other : ∀ table, r.event ≠ .tableMap table)
    (isReader : s'.reader = { s.reader with
      fp := some { fp with pos := binLogHeaderSize + bytes LogRecord.size (front ++ mid ++ [r]) }
      nextPosition := binLogHeaderSize + bytes LogRecord.size (front ++ mid ++ [r]) })
    (pc : s'.pc = .idle ∨ s'.pc = .reading) (writer : WriterOk log s')
    (given : s'.delivered = s.delivered ++ opOf parseRows (front ++ mid) r) :
    Inv log parseRows before s' k file (front ++ mid ++ [r]) later := by
  have positive' : s'.reader.nextPosition ≠ 0 := by
    rw [isReader]
    have four : binLogHeaderSize = 4 := rfl
    dsimp only
    omega
  have split : file.records = front ++ mid ++ [r] ++ later := by
    rw [reading.split, List.append_assoc (front ++ mid)]
    rfl
  have nothing : AllTables ([] : List (LogRecord γ β)) := fun r member => nomatch member
  have reading' : Reading s'.reader k file (front ++ mid ++ [r])
      { fp with pos := binLogHeaderSize + bytes LogRecord.size (front ++ mid ++ [r]) } [] later := by
    rw [isReader]
    refine ⟨⟨rfl, reading.isFile, ?_, ?_⟩, nothing, [], List.nil_prefix, nothing, ?_⟩
    · rw [List.append_nil]
      exact split
    · rw [List.append_nil]
    · rw [List.append_nil]
      exact (reading.known other).skip other
  refine ⟨⟨inv.stands.isFile, ?_, split, ?_⟩, ?_, ?_, fun zero => absurd zero positive', writer⟩
  · rw [isReader]
    exact inv.stands.named
  · rw [isReader]
    exact Or.inl rfl
  · rw [given, ← List.append_assoc, inv.inOrder, opsBefore_concat,
      opsBefore_append reading.passed.idle]
  · rcases pc with pc | pc
    · rw [pc]
      exact Or.inr ⟨positive', _, later, reading'⟩
    · rw [pc]
      exact ⟨_, [], later, reading'⟩

/-- The reader goes on at the start of the next file. -/
theorem Inv.next_file {newLogname : List UInt8} {pos : Nat} {next : LogFile γ β}
    (inv : Inv log parseRows before s k file front back)
    (isNext : log[k + 1]? = some next) (named : next.name = newLogname) (idle : Idle back)
    (atStart : pos = 0 ∨ pos = binLogHeaderSize) (closed : Closed reader) :
    Inv log parseRows before (s.give 0 none { reader with
      logname := newLogname, nextPosition := pos }) (k + 1) next [] next.records where
  stands := by
    refine ⟨isNext, named, rfl, ?_⟩
    rcases atStart with rfl | rfl
    · exact Or.inr ⟨rfl, rfl⟩
    · exact Or.inl rfl
  inOrder := by
    rw [delivered_give, opsBefore_next inv.stands.isFile inv.stands.split idle]
    exact (congrArg (before ++ ·) (List.append_nil s.delivered)).trans inv.inOrder
  pcOk := Or.inl closed
  shown := fun _ isOpen => absurd closed.1 isOpen
  writer := inv.writer

/-- An event has been read. -/
theorem Inv.handle_step {mid later : List (LogRecord γ β)} {r : LogRecord γ β}
    (wellFormed : WellFormed log) (inv : Inv log parseRows before s k file front back)
    (reading : Reading s.reader k file front fp mid (r :: later)) (pc : s.pc = .reading)
    (small : ∀ kind tableId body, r.event = .rows kind tableId body → tableId < 2 ^ 32) :
    Invariant log parseRows before (handle parseRows s fp r.event
      (binLogHeaderSize + bytes LogRecord.size (front ++ mid ++ [r]))) := by
  have isMember : file ∈ log := List.mem_of_getElem? inv.stands.isFile
  cases isEvent : r.event with
  | query sql db =>
      have other : ∀ table, r.event ≠ .tableMap table := by
        intro table isTable
        rw [isEvent] at isTable
        cases isTable
      refine ⟨k, file, _, later, inv.pass reading other rfl (Or.inl rfl) inv.writer ?_⟩
      rw [handle, delivered_give, opOf, isEvent]
      rfl
  | rows kind tableId body =>
      have other : ∀ table, r.event ≠ .tableMap table := by
        intro table isTable
        rw [isEvent] at isTable
        cases isTable
      refine ⟨k, file, _, later, inv.pass reading other rfl (Or.inl rfl) inv.writer ?_⟩
      obtain ⟨mapped, -⟩ := wellFormed.mapped file isMember (front ++ mid) later r kind tableId body
        reading.split isEvent
      obtain ⟨table, isLast⟩ := Option.ne_none_iff_exists'.mp mapped
      have found := reading.known other tableId (fun r member => nomatch member) table isLast
      rw [handle, delivered_give, opOf, isEvent, processRowsEvent, getTableMapEvent,
        Nat.mod_eq_of_lt (small kind tableId body isEvent)]
      dsimp only
      rw [found, isLast]
  | tableMap table =>
      obtain ⟨ahead, isAhead, tables, filled⟩ := reading.filled
      have again : ahead = [] ∨ ∃ more, ahead = r :: more := by
        cases ahead with
        | nil => exact Or.inl rfl
        | cons first ahead =>
            obtain ⟨rfl, -⟩ := List.cons_prefix_cons.mp isAhead
            exact Or.inr ⟨ahead, rfl⟩
      refine ⟨k, file, front, back, inv.move rfl rfl ?_ fun zero isOpen => ?_⟩
      · rw [pc]
        refine ⟨_, mid ++ [r], later, ⟨rfl, reading.isFile, ?_, ?_⟩, ?_, ahead.tail, ?_, ?_, ?_⟩
        · rw [reading.split]
          simp
        · rw [List.append_assoc]
        · intro r' member
          rcases List.mem_append.mp member with earlier | isLast
          · exact reading.passed r' earlier
          · rw [List.mem_singleton.mp isLast]
            exact ⟨table, isEvent⟩
        · rcases again with rfl | ⟨more, rfl⟩
          · exact List.nil_prefix
          · exact (List.cons_prefix_cons.mp isAhead).2
        · exact fun r' member => tables r' (List.mem_of_mem_tail member)
        · rw [← List.append_assoc]
          exact filled.set isEvent again
      · exact inv.shown zero (by rw [reading.isOpen]; exact Option.some_ne_none _)
  | rotate newLogname pos =>
      obtain ⟨rfl, isStart, next, isNext, named⟩ := wellFormed.rotates k file (front ++ mid) later r
        newLogname pos inv.stands.isFile reading.split isEvent
      have isBack : back = mid ++ [r] := by
        have both := inv.stands.split.symm.trans reading.split
        rw [List.append_assoc] at both
        exact List.append_cancel_left both
      have idle : Idle back := by
        rw [isBack]
        intro r' member
        rcases List.mem_append.mp member with earlier | isLast
        · exact reading.passed.idle r' earlier
        · rw [List.mem_singleton.mp isLast, isEvent]
          rfl
      exact ⟨k + 1, next, [], next.records,
        inv.next_file isNext named idle (Or.inr isStart) ⟨rfl, rfl⟩⟩
  | other =>
      have other : ∀ table, r.event ≠ .tableMap table := by
        intro table isTable
        rw [isEvent] at isTable
        cases isTable
      refine ⟨k, file, _, later, inv.pass reading other rfl (Or.inr pc) inv.writer ?_⟩
      rw [opOf, isEvent]
      exact (List.append_nil _).symm

/-- The end of the file is not found before its first event has been passed. -/
theorem Inv.middle_of_eof {mid rest : List (LogRecord γ β)} {ok : Bool} (wellFormed : WellFormed log)
    (inv : Inv log parseRows before s k file front back)
    (reading : Reading s.reader k file front fp mid rest)
    (fetched : fetch log s fp ok = .eof) : s.reader.nextPosition ≠ 0 := by
  intro zero
  obtain ⟨r, records, split, seen⟩ :=
    inv.shown zero (by rw [reading.isOpen]; exact Option.some_ne_none _)
  obtain ⟨r', records', split', isOther⟩ :=
    wellFormed.first file (List.mem_of_getElem? inv.stands.isFile)
  obtain ⟨rfl, rfl⟩ := List.cons.inj (split.symm.trans split')
  have four : binLogHeaderSize = 4 := rfl
  have none' : front = [] := by
    rcases inv.stands.position with position | ⟨-, none'⟩
    · omega
    · exact none'
  subst none'
  have whole := reading.split
  have pos := reading.pos
  cases mid with
  | nil =>
      have short := fetch_eof inv.stands.isFile reading.toStreamAt fetched (whole.symm.trans split)
      rw [List.nil_append, bytes_nil] at pos
      omega
  | cons first mid =>
      obtain ⟨table, isTable⟩ := reading.passed first List.mem_cons_self
      rw [split] at whole
      obtain ⟨rfl, -⟩ := List.cons.inj whole
      rw [isOther] at isTable
      cases isTable

theorem Inv.read_step {ok : Bool} (wellFormed : WellFormed log)
    (inv : Inv log parseRows before s k file front back) (pc : s.pc = .reading)
    (isFp : s.reader.fp = some fp) (allowed : Allowed log s (.read ok)) :
    Invariant log parseRows before (read log parseRows s fp ok) := by
  have pcOk := inv.pcOk
  rw [pc] at pcOk
  obtain ⟨fp', mid, rest, reading⟩ := pcOk
  obtain rfl : fp = fp' := Option.some.inj (isFp.symm.trans reading.isOpen)
  simp only [Allowed, pc] at allowed
  have small := allowed fp isFp
  unfold read
  cases fetched : fetch log s fp ok with
  | event event pos =>
      rw [fetched] at small
      obtain ⟨r, later, rfl, rfl, rfl, -⟩ :=
        fetch_event inv.stands.isFile reading.toStreamAt fetched
      refine inv.handle_step wellFormed reading pc fun kind tableId body isRows => ?_
      rw [isRows] at small
      exact of_decide_eq_true small
  | eof =>
      exact ⟨k, file, front, back, inv.move rfl rfl
        ⟨inv.middle_of_eof wellFormed reading fetched, fp, mid, rest, reading⟩ inv.shown⟩
  | failed => exact ⟨k, file, front, back, inv.give_closed ⟨rfl, rfl⟩ rfl rfl⟩

/-- The name behind a name in the index. -/
theorem getNextLogname_eq {logname : List UInt8} {lines : List (List UInt8)}
    (some' : getNextLogname logname lines ≠ []) :
    ∃ j line next, lines[j]? = some line ∧ baseName line = logname ∧ lines[j + 1]? = some next ∧
      baseName next = getNextLogname logname lines := by
  induction lines with
  | nil => exact absurd rfl some'
  | cons line lines ih =>
      unfold getNextLogname at some' ⊢
      split at some'
      · next fits =>
          rw [if_pos fits]
          split at some'
          · next isName =>
              rw [if_pos isName]
              cases lines with
              | nil => exact absurd rfl some'
              | cons next lines =>
                  dsimp only at some' ⊢
                  split at some'
                  · next fits' => exact ⟨0, line, next, rfl, isName, rfl, (if_pos fits').symm⟩
                  · exact absurd rfl some'
          · next differs =>
              rw [if_neg differs]
              obtain ⟨j, line', next, isLine, isName, isNext, same⟩ := ih some'
              exact ⟨j + 1, line', next, isLine, isName, isNext, same⟩
      · exact absurd rfl some'

/-- The file that the index names is the next one. -/
theorem Inv.next_of_listed {ok : Bool} (wellFormed : WellFormed log)
    (inv : Inv log parseRows before s k file front back) (some' : nextListed log s ok ≠ []) :
    ∃ next, log[k + 1]? = some next ∧ next.name = nextListed log s ok := by
  unfold nextListed at some' ⊢
  split at some'
  · next opens =>
      rw [if_pos opens]
      obtain ⟨j, line, next, isLine, isName, isNext, same⟩ := getNextLogname_eq some'
      rw [List.getElem?_map] at isLine isNext
      obtain ⟨file', isFile', rfl⟩ := Option.map_eq_some_iff.mp isLine
      obtain ⟨next', isNext', rfl⟩ := Option.map_eq_some_iff.mp isNext
      have inLog : ∀ {i : Nat} {file : LogFile γ β}, (log.take s.listed)[i]? = some file →
          log[i]? = some file := by
        intro i file taken
        rw [List.getElem?_take] at taken
        split at taken
        · exact taken
        · cases taken
      have listed := wellFormed.listed file' (List.mem_of_getElem? (inLog isFile'))
      have isHere : j = k := wellFormed.index_eq inv.stands.isFile (inLog isFile')
        ((listed.symm.trans isName).trans inv.stands.named.symm)
      have listed' := wellFormed.listed next' (List.mem_of_getElem? (inLog isNext'))
      rw [isHere] at isNext'
      exact ⟨next', inLog isNext', listed'.symm.trans same⟩
  · exact absurd rfl some'

theorem Inv.readIndex_step {ok : Bool} (wellFormed : WellFormed log)
    (inv : Inv log parseRows before s k file front back) (pc : s.pc = .atEnd)
    (isFp : s.reader.fp = some fp) (allowed : Allowed log s (.readIndex ok)) :
    Invariant log parseRows before (readIndex log s fp ok) := by
  have pcOk := inv.pcOk
  rw [pc] at pcOk
  obtain ⟨middle, fp', mid, rest, reading⟩ := pcOk
  obtain rfl : fp = fp' := Option.some.inj (isFp.symm.trans reading.isOpen)
  simp only [Allowed, pc] at allowed
  have position : s.reader.nextPosition = binLogHeaderSize + bytes LogRecord.size front := by
    rcases inv.stands.position with position | ⟨zero, -⟩
    · exact position
    · exact absurd zero middle
  unfold readIndex
  dsimp only
  split
  · -- the reader goes back to its position
    obtain ⟨ahead, isAhead, tables, filled⟩ := reading.filled
    have nothing : AllTables ([] : List (LogRecord γ β)) := fun r member => nomatch member
    have isBack : back = mid ++ rest := by
      have both := inv.stands.split.symm.trans reading.split
      rw [List.append_assoc] at both
      exact List.append_cancel_left both
    refine ⟨k, file, front, back, ⟨inv.stands.isFile, inv.stands.named, inv.stands.split,
      inv.stands.position⟩, ?_, Or.inr ⟨middle, _, back, ⟨rfl, reading.isFile, ?_, ?_⟩, nothing,
        mid ++ ahead, ?_, ?_, ?_⟩, fun zero => absurd zero middle, inv.writer⟩
    · rw [delivered_give]
      exact (congrArg (before ++ ·) (List.append_nil s.delivered)).trans inv.inOrder
    · rw [List.append_nil]
      exact inv.stands.split
    · rw [List.append_nil]
      exact position
    · rw [isBack]
      exact (List.prefix_append_right_inj mid).mpr isAhead
    · intro r member
      exact (List.mem_append.mp member).elim (reading.passed r) (tables r)
    · rw [List.append_nil]
      exact filled.rewind
  · next some' =>
      obtain ⟨next, isNext, named⟩ := inv.next_of_listed wellFormed some'
      have idle : Idle back := by
        refine allowed some' fp isFp file (by rw [reading.isFile]; exact inv.stands.isFile) back ?_
        have four : binLogHeaderSize = 4 := rfl
        rw [Nat.max_eq_left (by omega), position, inv.stands.split]
        exact recordsFrom_append positive front back binLogHeaderSize
      exact ⟨k + 1, next, [], next.records,
        inv.next_file isNext named idle (Or.inl rfl) ⟨rfl, rfl⟩⟩

/-- Every step keeps the invariant. -/
theorem step_inv {s' : State γ δ} {act : Act} (wellFormed : WellFormed log)
    (invariant : Invariant log parseRows before s) (allowed : Allowed log s act)
    (taken : step log parseRows s act = some s') : Invariant log parseRows before s' := by
  obtain ⟨k, file, front, back, inv⟩ := invariant
  unfold step at taken
  split at taken
  · next count =>
      split at taken
      · next fits =>
          obtain rfl := Option.some.inj taken
          exact ⟨k, file, front, back, inv.writer_step ⟨rfl, rfl, rfl⟩
            (Or.inl ⟨rfl, Nat.le_add_right _ _⟩) fits⟩
      · cases taken
  · split at taken
    · obtain rfl := Option.some.inj taken
      exact ⟨k, file, front, back, inv.writer_step ⟨rfl, rfl, rfl⟩ (Or.inr rfl) (Nat.zero_le _)⟩
    · cases taken
  · split at taken
    · obtain rfl := Option.some.inj taken
      exact ⟨k, file, front, back, inv.writer_step ⟨rfl, rfl, rfl⟩
        (Or.inl ⟨rfl, Nat.le_refl _⟩) inv.writer⟩
    · cases taken
  · next pc =>
      obtain rfl := Option.some.inj taken
      exact ⟨k, file, front, back, inv.call_step pc⟩
  · next ok pc =>
      obtain rfl := Option.some.inj taken
      exact ⟨k, file, front, back, inv.openFile_step wellFormed pc⟩
  · next ok k' stage pc =>
      obtain rfl := Option.some.inj taken
      exact ⟨k, file, front, back, inv.readHeader_step pc allowed⟩
  · next ok pc =>
      obtain ⟨fp, isFp, rfl⟩ := Option.map_eq_some_iff.mp taken
      exact ⟨k, file, front, back, inv.scan_step pc isFp allowed⟩
  · next ok pc =>
      obtain ⟨fp, isFp, rfl⟩ := Option.map_eq_some_iff.mp taken
      exact inv.read_step wellFormed pc isFp allowed
  · next ok pc =>
      obtain ⟨fp, isFp, rfl⟩ := Option.map_eq_some_iff.mp taken
      exact inv.readIndex_step wellFormed pc isFp allowed
  · next pc =>
      obtain rfl := Option.some.inj taken
      exact ⟨k, file, front, back, inv.restart_step pc⟩
  · cases taken

end Invariant

/-- Two files; the first one holds a query behind its format description. -/
def twoFiles : List (LogFile Unit Nat) :=
  [⟨[97], [46, 47, 97], [⟨.other, 100, by decide⟩, ⟨.query [113] [100], 30, by decide⟩]⟩,
    ⟨[98], [46, 47, 98], [⟨.other, 100, by decide⟩]⟩]

theorem twoFiles_wellFormed : WellFormed twoFiles where
  distinct := by decide +kernel
  listed := by decide +kernel
  first := by
    intro file member
    simp only [twoFiles, List.mem_cons, List.not_mem_nil, or_false] at member
    rcases member with rfl | rfl
    · exact ⟨_, _, rfl, rfl⟩
    · exact ⟨_, _, rfl, rfl⟩
  rotates := by
    intro k file front back r newLogname pos isFile split isRotate
    have member : r ∈ file.records := by rw [split]; simp
    have others : ∀ file ∈ twoFiles, ∀ r ∈ file.records, r.event = .other ∨
        r.event = .query [113] [100] := by decide +kernel
    rcases others file (List.mem_of_getElem? isFile) r member with same | same
    · rw [same] at isRotate
      cases isRotate
    · rw [same] at isRotate
      cases isRotate
  mapped := by
    intro file isFile front back r kind tableId body split isRows
    have member : r ∈ file.records := by rw [split]; simp
    have others : ∀ file ∈ twoFiles, ∀ r ∈ file.records, r.event = .other ∨
        r.event = .query [113] [100] := by decide +kernel
    rcases others file isFile r member with same | same
    · rw [same] at isRows
      cases isRows
    · rw [same] at isRows
      cases isRows

/-- A reader at the start of the first file, of which the format description is written. -/
def beforeQuery : State Unit Nat := { written := 104, reader := .init [97] 0 }

def openActs : List Act :=
  [.call, .openFile true, .readHeader true, .readHeader true, .readHeader true, .read true]

end MlsImgSearch.Db.MysqlBinlogReader
