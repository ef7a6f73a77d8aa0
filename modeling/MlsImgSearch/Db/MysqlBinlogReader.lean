import MlsImgSearch.Lib.RecordFile
import MlsImgSearch.Lib.Run

/-!
# The reader of the binary log

A server writes files of events and lists them in an index. The reader follows
the files while they grow: it reads events until it finds an operation, goes back
to its position when an event is not complete, and goes on with the next file when
the index names one. Rows events name their table by an id; the events that say
which table this is are kept in a map, which is filled again from the file when
the file is opened in its middle.
-/

namespace MlsImgSearch.Db.MysqlBinlogReader

open MlsImgSearch.Lib.RecordFile
open MlsImgSearch.Lib.Run

/-! ## The log -/

/-- A table map event; `columns` is what is needed to read the rows. -/
structure TableMap (γ : Type) where
  tableId : Nat
  dbName : List UInt8
  tableName : List UInt8
  columns : γ
  deriving DecidableEq

inductive RowKind where
  | write
  | update
  | delete
  deriving DecidableEq

inductive Event (γ β : Type) where
  | query (sql db : List UInt8)
  | rows (kind : RowKind) (tableId : Nat) (body : β)
  | tableMap (table : TableMap γ)
  | rotate (newLogname : List UInt8) (pos : Nat)
  | other
  deriving DecidableEq

/-- `LOG_EVENT_MINIMAL_HEADER_LEN` -/
def headerLen : Nat := 19

/-- An event and the bytes that it takes in a file. -/
structure LogRecord (γ β : Type) where
  event : Event γ β
  size : Nat
  long : headerLen ≤ size
  deriving DecidableEq

/-- `line` is the line of the index for the file. -/
structure LogFile (γ β : Type) where
  name : List UInt8
  line : List UInt8
  records : List (LogRecord γ β)
  deriving DecidableEq

/-- `BIN_LOG_HEADER_SIZE` -/
def binLogHeaderSize : Nat := 4

/-- The size of a complete file. -/
def LogFile.size {γ β : Type} (file : LogFile γ β) : Nat :=
  binLogHeaderSize + bytes LogRecord.size file.records

/-- What `GetNextOperation` hands over; `δ` are the rows. -/
inductive Operation (δ : Type) where
  | sql (sql dbname : List UInt8)
  | row (kind : RowKind) (dbName tableName : List UInt8) (changes : δ)
  deriving DecidableEq

/-! ## The index -/

/-- The part of a line behind the last slash. -/
def baseName (line : List UInt8) : List UInt8 := (line.reverse.takeWhile (· != 47)).reverse

/-- `getline` with a buffer of 256 bytes fails at longer lines. -/
def fitsLine (line : List UInt8) : Bool := line.length < 256

/-- The name behind `logname` in the lines of the index; empty when there is none. -/
def getNextLogname (logname : List UInt8) : List (List UInt8) → List UInt8
  | [] => []
  | line :: lines =>
      if fitsLine line then
        if baseName line = logname then
          match lines with
          | [] => []
          | next :: _ => if fitsLine next then baseName next else []
        else getNextLogname logname lines
      else []

/-! ## The reader -/

/-- `fp_`: the file, counted in the log, and the position in it. -/
structure Stream where
  file : Nat
  pos : Nat
  deriving DecidableEq

structure Reader (γ : Type) where
  fp : Option Stream := none
  logname : List UInt8
  startPosition : Nat
  nextPosition : Nat
  tableMap : List (TableMap γ) := []
  deriving DecidableEq

section Tables

variable {γ : Type}

def setTableMapEvent (map : List (TableMap γ)) (table : TableMap γ) : List (TableMap γ) :=
  table :: map.filter fun old => old.tableId != table.tableId

def findTable (map : List (TableMap γ)) (tableId : Nat) : Option (TableMap γ) :=
  map.find? fun table => table.tableId == tableId

/-- The id is passed as a `uint32_t`, while the map has the whole id. -/
def getTableMapEvent (map : List (TableMap γ)) (tableId : Nat) : Option (TableMap γ) :=
  findTable map (tableId % 2 ^ 32)

/-- `Init` of a new reader. -/
def Reader.init (logname : List UInt8) (pos : Nat) : Reader γ :=
  { logname := logname, startPosition := pos, nextPosition := pos }

/-- `TryClose` -/
def Reader.tryClose (reader : Reader γ) : Reader γ := { reader with fp := none, tableMap := [] }

end Tables

/-- What a read of one event comes to: the event and the position behind it, a part of it at the end
of the file, or a failure. -/
inductive ReadResult (γ β : Type) where
  | event (event : Event γ β) (pos : Nat)
  | eof
  | failed

/-- `read_log_event` with `visible` bytes in the file. The header and the rest of an event are read
one after the other; the second read decides, or the first one when it is short. -/
def readLogEvent {γ β : Type} (file : LogFile γ β) (visible pos : Nat) : ReadResult γ β :=
  match recordsFrom LogRecord.size file.records binLogHeaderSize pos with
  | some (r :: _) => if pos + r.size ≤ visible then .event r.event (pos + r.size) else .eof
  | some [] => .eof
  | none => .failed

/-- The reads of `CheckHeader`: the magic number, the first bytes of the first event, and that event. -/
inductive Stage where
  | magic
  | probe
  | format
  deriving DecidableEq

/-- Where a call of `GetNextOperation` stands. -/
inductive Pc where
  | idle
  | opening
  | header (file : Nat) (stage : Stage)
  | scanning
  | reading
  | atEnd
  deriving DecidableEq

/-- The writer has `written` bytes of file `current` out, and `listed` files in the index. A call of
the reader adds its code and its operation to `returned`. -/
structure State (γ δ : Type) where
  current : Nat := 0
  written : Nat := 0
  listed : Nat := 1
  reader : Reader γ
  pc : Pc := .idle
  returned : List (Int × Option (Operation δ)) := []
  deriving DecidableEq

/-- Steps of the writer, and steps of the reader, whose reads and opens may fail. -/
inductive Act where
  | append (count : Nat)
  | create
  | list
  | call
  | openFile (ok : Bool)
  | readHeader (ok : Bool)
  | scan (ok : Bool)
  | read (ok : Bool)
  | readIndex (ok : Bool)
  | restart
  deriving DecidableEq

section Step

variable {γ β δ : Type} (log : List (LogFile γ β)) (parseRows : γ → RowKind → β → δ)

/-- The bytes of a file that a reader can see. -/
def State.visible (s : State γ δ) (k : Nat) : Nat :=
  if k < s.current then ((log[k]?).map LogFile.size).getD 0
  else if k = s.current then s.written
  else 0

/-- A read of the event at the position of a stream; it may fail. -/
def fetch (s : State γ δ) (fp : Stream) (ok : Bool) : ReadResult γ β :=
  match ok, log[fp.file]? with
  | true, some file => readLogEvent file (s.visible log fp.file) fp.pos
  | _, _ => .failed

/-- A call returns. -/
def State.give (s : State γ δ) (code : Int) (op : Option (Operation δ)) (reader : Reader γ) :
    State γ δ :=
  { s with reader := reader, pc := .idle, returned := s.returned ++ [(code, op)] }

/-- `ProcessRowsEvent`; a null pointer when the table is not known. -/
def processRowsEvent (map : List (TableMap γ)) (kind : RowKind) (tableId : Nat) (body : β) :
    Option (Operation δ) :=
  (getTableMapEvent map tableId).map fun table =>
    .row kind table.dbName table.tableName (parseRows table.columns kind body)

/-- `fopen` in `TryOpenLogname`. -/
def openFile (s : State γ δ) (ok : Bool) : State γ δ :=
  match log.findIdx? fun file => file.name = s.reader.logname with
  | some k => if ok ∧ k ≤ s.current then { s with pc := .header k .magic } else s.give (-1) none s.reader
  | none => s.give (-1) none s.reader

/-- The end of `TryOpenLogname`. -/
def opened (s : State γ δ) (k : Nat) : State γ δ :=
  { s with
    reader := { s.reader with fp := some ⟨k, binLogHeaderSize⟩ }
    pc := if s.reader.nextPosition ≠ 0 then .scanning else .reading }

/-- One read of `CheckHeader`; the first two report the end of the file as 1, which the caller takes
for "nothing to read". The first event is the format description. -/
def readHeader (s : State γ δ) (k : Nat) (stage : Stage) (ok : Bool) : State γ δ :=
  match stage with
  | .magic =>
      if ok then
        if binLogHeaderSize ≤ s.visible log k then { s with pc := .header k .probe }
        else s.give 0 none s.reader
      else s.give (-1) none s.reader
  | .probe =>
      if ok then
        if binLogHeaderSize + 13 ≤ s.visible log k then { s with pc := .header k .format }
        else s.give 0 none s.reader
      else s.give (-1) none s.reader
  | .format =>
      match fetch log s ⟨k, binLogHeaderSize⟩ ok with
      | .event _ _ => opened s k
      | .eof => s.give (-1) none s.reader
      | .failed => s.give (-1) none s.reader

/-- `fseek(fp_, next_position_, SEEK_SET)` -/
def Reader.seek (reader : Reader γ) (fp : Stream) : Reader γ :=
  { reader with fp := some { fp with pos := reader.nextPosition } }

/-- One turn of `ScanTableMap`, which ends silently when a read fails. -/
def scan (s : State γ δ) (fp : Stream) (ok : Bool) : State γ δ :=
  if s.reader.startPosition ≤ fp.pos then { s with reader := s.reader.seek fp, pc := .reading }
  else
    match fetch log s fp ok with
    | .event event pos =>
        let tableMap := match event with
          | .tableMap table => setTableMapEvent s.reader.tableMap table
          | _ => s.reader.tableMap
        { s with reader := { s.reader with fp := some { fp with pos := pos }, tableMap := tableMap } }
    | .eof => { s with reader := s.reader.seek fp, pc := .reading }
    | .failed => { s with reader := s.reader.seek fp, pc := .reading }

/-- What the loop of `GetNextOperation` does with an event that ends at `pos`. -/
def handle (s : State γ δ) (fp : Stream) (event : Event γ β) (pos : Nat) : State γ δ :=
  let reader := { s.reader with fp := some { fp with pos := pos } }
  match event with
  | .query sql db => s.give 0 (some (.sql sql db)) { reader with nextPosition := pos }
  | .rows kind tableId body =>
      s.give 0 (processRowsEvent parseRows reader.tableMap kind tableId body)
        { reader with nextPosition := pos }
  | .tableMap table =>
      { s with reader := { reader with tableMap := setTableMapEvent reader.tableMap table } }
  | .rotate newLogname newPos =>
      s.give 0 none { reader.tryClose with logname := newLogname, nextPosition := newPos }
  | .other => { s with reader := { reader with nextPosition := pos } }

/-- One turn of the loop of `GetNextOperation`. -/
def read (s : State γ δ) (fp : Stream) (ok : Bool) : State γ δ :=
  match fetch log s fp ok with
  | .event event pos => handle parseRows s fp event pos
  | .eof => { s with pc := .atEnd }
  | .failed => s.give (-1) none s.reader.tryClose

/-- The name that the index gives now; an index that cannot be opened gives none. -/
def nextListed (s : State γ δ) (ok : Bool) : List UInt8 :=
  if ok then getNextLogname s.reader.logname ((log.take s.listed).map LogFile.line) else []

/-- The end of the file: the index is read, and the next file is taken if there is one. -/
def readIndex (s : State γ δ) (fp : Stream) (ok : Bool) : State γ δ :=
  let next := nextListed log s ok
  if next = [] then s.give 0 none (s.reader.seek fp)
  else s.give 0 none { s.reader.tryClose with logname := next, nextPosition := 0 }

/-- The writer lists and creates a file when the one before it is complete. -/
def complete (s : State γ δ) (k : Nat) : Prop :=
  ∃ file ∈ log[k]?, file.size ≤ s.visible log k

instance (s : State γ δ) (k : Nat) : Decidable (complete log s k) :=
  inferInstanceAs (Decidable (∃ file ∈ log[k]?, file.size ≤ s.visible log k))

def step (s : State γ δ) (act : Act) : Option (State γ δ) :=
  match act, s.pc with
  | .append count, _ =>
      if s.written + count ≤ ((log[s.current]?).map LogFile.size).getD 0 then
        some { s with written := s.written + count }
      else none
  | .create, _ =>
      if complete log s s.current ∧ s.current + 1 < log.length then
        some { s with current := s.current + 1, written := 0 }
      else none
  | .list, _ =>
      if complete log s (s.listed - 1) ∧ s.listed < log.length then
        some { s with listed := s.listed + 1 }
      else none
  | .call, .idle => some { s with pc := if s.reader.fp = none then .opening else .reading }
  | .openFile ok, .opening => some (openFile log s ok)
  | .readHeader ok, .header k stage => some (readHeader log s k stage ok)
  | .scan ok, .scanning => s.reader.fp.map fun fp => scan log s fp ok
  | .read ok, .reading => s.reader.fp.map fun fp => read log parseRows s fp ok
  | .readIndex ok, .atEnd => s.reader.fp.map fun fp => readIndex log s fp ok
  | .restart, .idle =>
      some { s with reader := .init s.reader.logname s.reader.nextPosition }
  | _, _ => none

end Step

end MlsImgSearch.Db.MysqlBinlogReader
