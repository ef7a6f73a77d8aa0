import MlsImgSearch.Db.MysqlBinlogReader
import MlsImgSearch.Db.RowImage

/-!
# The rows of an event

A rows event of the binary log has one image for each row that was inserted or deleted, and two for
each one that was updated. The images stand one behind the other, and a loop makes a list of changes
of them.
-/

namespace MlsImgSearch.Db.RowImage

open MysqlBinlogReader (RowKind)
open Lib.Bytes Lib.Int32

structure MysqlRowChange where
  type : RowKind
  condition : MysqlRow := []
  data : MysqlRow := []
  deriving DecidableEq

/-- A `Rows_log_event` without its rows, and what the table map says about the columns. -/
structure RowsEvent where
  typeCode : RowKind
  mWidth : Nat
  cols : Nat → Bool
  colsAi : Nat → Bool
  table : List (Nat × Nat)

inductive Outcome where
  | running
  | outside
  | done (rows : List MysqlRowChange)
  deriving DecidableEq

def Outcome.addRowChange (rowChange : MysqlRowChange) : Outcome → Outcome
  | .done rows => .done (rowChange :: rows)
  | .running => .running
  | .outside => .outside

section Loop

variable (decimal : Nat → Bytes → Parsed)

/-- The loop of `ProcessRowsEvent` over what is left of the rows. -/
def processRows (event : RowsEvent) : Nat → Bytes → Outcome
  | 0, _ => .running
  | fuel + 1, data =>
      if data = [] then .done []
      else
        match parseOneRow decimal data (int32 event.mWidth) event.cols event.table with
        | none => .outside
        | some (row1, length) =>
            if length = 0 then .done []
            else
              match event.typeCode with
              | .write =>
                  (processRows event fuel (data.drop length)).addRowChange ⟨.write, [], row1⟩
              | .delete =>
                  (processRows event fuel (data.drop length)).addRowChange ⟨.delete, row1, []⟩
              | .update =>
                  let data := data.drop length
                  match parseOneRow decimal data (int32 event.mWidth) event.colsAi event.table with
                  | none => .outside
                  | some (row2, length) =>
                      if length = 0 then .done []
                      else
                        (processRows event fuel (data.drop length)).addRowChange
                          ⟨.update, row1, row2⟩

end Loop

/-! ## Events -/

/-- The cells of a row of a table. -/
structure Row (columns : List Column) where
  cells : List Cell
  typed : cells.map Cell.column = columns

/-- A row before and after a change. Of an inserted row only the second is written, of a deleted one
the first. -/
structure Change (columns : List Column) where
  before : Row columns
  after : Row columns

/-- A rows event and the types of its columns. -/
structure Announced where
  kind : RowKind
  columns : List Column
  cols : Nat → Bool
  colsAi : Nat → Bool

namespace Announced

variable (a : Announced)

def event : RowsEvent :=
  ⟨a.kind, a.columns.length, a.cols, a.colsAi, a.columns.map Column.definition⟩

def images (change : Change a.columns) : List ((Nat → Bool) × Row a.columns) :=
  match a.kind with
  | .write => [(a.cols, change.after)]
  | .delete => [(a.cols, change.before)]
  | .update => [(a.cols, change.before), (a.colsAi, change.after)]

def rowsBuf (changes : List (Change a.columns)) : Bytes :=
  changes.flatMap fun change => (a.images change).flatMap fun e => image e.1 e.2.cells

def rowChange (change : Change a.columns) : MysqlRowChange :=
  match a.kind with
  | .write => ⟨.write, [], expected a.cols change.after.cells⟩
  | .delete => ⟨.delete, expected a.cols change.before.cells, []⟩
  | .update =>
      ⟨.update, expected a.cols change.before.cells, expected a.colsAi change.after.cells⟩

end Announced

/-! ## What is wanted -/

section Wanted

variable (decimal : Nat → Bytes → Parsed)

def allRows (a : Announced) (data : Bytes) : Outcome :=
  processRows decimal a.event (data.length + 1) data

/-- The images of the changes are decoded exactly, and all of them give the changes. -/
def RightRows (a : Announced) (changes : List (Change a.columns)) : Prop :=
  (∀ change ∈ changes, ∀ e ∈ a.images change, Exact decimal e.1 e.2.cells) ∧
    allRows decimal a (a.rowsBuf changes) = .done (changes.map a.rowChange)

/-- A `uint` has room for the length of an event. -/
structure RowsBuf where
  data : Bytes
  size : data.length < 2 ^ 32

def Terminates (a : Announced) (rows : RowsBuf) : Prop := allRows decimal a rows.data ≠ .running

def Inside (a : Announced) (rows : RowsBuf) : Prop := allRows decimal a rows.data ≠ .outside

end Wanted

/-! ## When that holds -/

/-- Every image fits and has at least one column. -/
def RowsFit (a : Announced) (changes : List (Change a.columns)) : Prop :=
  ∀ change ∈ changes, ∀ e ∈ a.images change,
    ImageFits e.1 e.2.cells ∧ present e.1 0 e.2.cells ≠ []

/-- The data are one such row behind the other, or two for each update. Nothing is read of rows
without columns. -/
inductive Laid (a : Announced) : Bytes → Prop where
  | nil : Laid a []
  | empty {data : Bytes} (noColumns : int32 a.columns.length = 0) : Laid a data
  | single {data : Bytes} {stop : Nat} (kind : a.kind ≠ .update)
      (row : LaidRow a.columns a.cols data stop) (rest : Laid a (data.drop stop)) : Laid a data
  | pair {data : Bytes} {stop stop' : Nat} (kind : a.kind = .update)
      (before : LaidRow a.columns a.cols data stop)
      (after : LaidRow a.columns a.colsAi (data.drop stop) stop')
      (rest : Laid a ((data.drop stop).drop stop')) : Laid a data

/-! ## All rows of an event -/

section Rows

variable {decimal : Nat → Bytes → Parsed}

theorem Row.length {columns : List Column} (row : Row columns) :
    row.cells.length = columns.length := by
  simpa using congrArg List.length row.typed

/-- An image of a row of the table is decoded in its event. -/
theorem parseOneRow_row {columns : List Column} {cols : Nat → Bool} {row : Row columns}
    (fits : ImageFits cols row.cells) (rest : Bytes) :
    parseOneRow decimal (image cols row.cells ++ rest) (int32 columns.length) cols
        (columns.map Column.definition) =
      some (expected cols row.cells, (image cols row.cells).length) := by
  have parsed := (parseOneRow_image_iff decimal rest).mpr fits
  have tables : definitions row.cells = columns.map Column.definition := by
    have typed := congrArg (List.map Column.definition) row.typed
    rwa [List.map_map] at typed
  rwa [row.length, tables] at parsed

theorem image_ne_nil {cols : Nat → Bool} {row : List Cell} (some : present cols 0 row ≠ []) :
    0 < (image cols row).length := by
  have := List.length_pos_iff.mpr some
  rw [length_image]
  omega

/-- One change is read, and the rest is left. -/
theorem processRows_change (decimal : Nat → Bytes → Parsed) {a : Announced}
    {change : Change a.columns}
    (fit : ∀ e ∈ a.images change, ImageFits e.1 e.2.cells ∧ present e.1 0 e.2.cells ≠ [])
    (fuel : Nat) (rest : Bytes) :
    0 < ((a.images change).flatMap fun e => image e.1 e.2.cells).length ∧
    processRows decimal a.event (fuel + 1)
        (((a.images change).flatMap fun e => image e.1 e.2.cells) ++ rest) =
      (processRows decimal a.event fuel rest).addRowChange (a.rowChange change) := by
  obtain ⟨kind, columns, cols, colsAi⟩ := a
  cases kind with
  | write | delete =>
      simp only [Announced.images, List.mem_singleton, forall_eq, List.flatMap_cons,
        List.flatMap_nil, List.append_nil] at fit ⊢
      have pos := image_ne_nil fit.2
      have filled := List.append_ne_nil_of_left_ne_nil (List.length_pos_iff.mp pos) rest
      refine ⟨pos, ?_⟩
      rw [processRows, if_neg filled]
      simp only [Announced.event]
      rw [parseOneRow_row fit.1]
      simp only [if_neg (Nat.ne_of_gt pos), List.drop_left, Announced.rowChange]
  | update =>
      simp only [Announced.images, List.mem_cons, List.not_mem_nil, or_false, forall_eq_or_imp,
        forall_eq, List.flatMap_cons, List.flatMap_nil, List.append_nil, List.append_assoc] at fit ⊢
      obtain ⟨before, after⟩ := fit
      have pos := image_ne_nil before.2
      have pos' := image_ne_nil after.2
      have filled := List.append_ne_nil_of_left_ne_nil (List.length_pos_iff.mp pos)
        (image colsAi change.after.cells ++ rest)
      refine ⟨by rw [List.length_append]; omega, ?_⟩
      rw [processRows, if_neg filled]
      simp only [Announced.event]
      rw [parseOneRow_row before.1]
      simp only [if_neg (Nat.ne_of_gt pos), List.drop_left]
      rw [parseOneRow_row after.1]
      simp only [if_neg (Nat.ne_of_gt pos'), List.drop_left, Announced.rowChange]

/-- Images that fit give the changes. -/
theorem processRows_fit {a : Announced} {changes : List (Change a.columns)}
    (fit : RowsFit a changes) {fuel : Nat} (enough : (a.rowsBuf changes).length < fuel) :
    processRows decimal a.event fuel (a.rowsBuf changes) = .done (changes.map a.rowChange) := by
  induction changes generalizing fuel with
  | nil =>
      obtain ⟨fuel, rfl⟩ := Nat.exists_eq_add_of_lt enough
      rfl
  | cons change changes ih =>
      obtain ⟨here, later⟩ := List.forall_mem_cons.mp fit
      cases fuel with
      | zero => exact absurd enough (Nat.not_lt_zero _)
      | succ fuel =>
          obtain ⟨pos, turn⟩ := processRows_change decimal here fuel (a.rowsBuf changes)
          have isBuf : a.rowsBuf (change :: changes) =
            ((a.images change).flatMap fun e => image e.1 e.2.cells) ++ a.rowsBuf changes := rfl
          rw [isBuf, List.length_append] at enough
          rw [isBuf, turn, ih later (by omega)]
          rfl

/-- Without columns there is nothing in the images. -/
theorem image_nil {cols : Nat → Bool} {row : List Cell} (fits : ImageFits cols row)
    (noColumns : int32 row.length = 0) : image cols row = [] := by
  have none : present cols 0 row = [] := by
    rw [List.eq_nil_iff_forall_not_mem]
    intro e member
    have := fits.within e member
    omega
  rw [image, none]
  rfl

theorem rightRows_iff (a : Announced) (changes : List (Change a.columns)) :
    RightRows decimal a changes ↔ RowsFit a changes := by
  constructor
  · rintro ⟨exactly, all⟩ change member e isImage
    have fits := exact_iff.mp (exactly change member e isImage)
    refine ⟨fits, fun none => ?_⟩
    have bitmap := fits.bitmap
    have counted := fits.counted
    rw [none, List.length_nil, e.2.length] at bitmap
    rw [e.2.length] at counted
    have empty : a.rowsBuf changes = [] := by
      rw [Announced.rowsBuf, List.flatMap_eq_nil_iff]
      intro change member
      rw [List.flatMap_eq_nil_iff]
      intro e isImage
      refine image_nil (exact_iff.mp (exactly change member e isImage)) ?_
      rw [e.2.length]
      omega
    rw [allRows, empty] at all
    have nothing : changes.map a.rowChange = [] := (Outcome.done.inj all).symm
    rw [List.map_eq_nil_iff.mp nothing] at member
    exact List.not_mem_nil member
  · intro fit
    exact ⟨fun change member e isImage => exact_iff.mpr (fit change member e isImage).1,
      processRows_fit fit (Nat.lt_succ_self _)⟩

end Rows

/-! ## Any rows -/

section AnyRows

variable {decimal : Nat → Bytes → Parsed}

/-- The read of a row in an event. -/
def RowsEvent.read (decimal : Nat → Bytes → Parsed) (event : RowsEvent) (cols : Nat → Bool)
    (data : Bytes) : Option (MysqlRow × Nat) :=
  parseOneRow decimal data (int32 event.mWidth) cols event.table

/-- What one turn of the loop over the rows comes to. -/
inductive Turn (decimal : Nat → Bytes → Parsed) (event : RowsEvent) (fuel : Nat) (data : Bytes) :
    Outcome → Prop where
  | outside (none : event.read decimal event.cols data = none) :
      Turn decimal event fuel data .outside
  | stop {row : MysqlRow} (zero : event.read decimal event.cols data = some (row, 0)) :
      Turn decimal event fuel data (.done [])
  | single {row : MysqlRow} {length : Nat} (kind : event.typeCode ≠ .update)
      (read : event.read decimal event.cols data = some (row, length)) (pos : 0 < length)
      (change : MysqlRowChange) :
      Turn decimal event fuel data
        ((processRows decimal event fuel (data.drop length)).addRowChange change)
  | outside' {row : MysqlRow} {length : Nat} (kind : event.typeCode = .update)
      (read : event.read decimal event.cols data = some (row, length)) (pos : 0 < length)
      (none : event.read decimal event.colsAi (data.drop length) = none) :
      Turn decimal event fuel data .outside
  | stop' {row row' : MysqlRow} {length : Nat} (kind : event.typeCode = .update)
      (read : event.read decimal event.cols data = some (row, length)) (pos : 0 < length)
      (zero : event.read decimal event.colsAi (data.drop length) = some (row', 0)) :
      Turn decimal event fuel data (.done [])
  | pair {row row' : MysqlRow} {length length' : Nat} (kind : event.typeCode = .update)
      (read : event.read decimal event.cols data = some (row, length)) (pos : 0 < length)
      (read' : event.read decimal event.colsAi (data.drop length) = some (row', length'))
      (change : MysqlRowChange) :
      Turn decimal event fuel data
        ((processRows decimal event fuel ((data.drop length).drop length')).addRowChange change)

theorem processRows_turn (decimal : Nat → Bytes → Parsed) (event : RowsEvent) (fuel : Nat)
    {data : Bytes} (filled : data ≠ []) :
    Turn decimal event fuel data (processRows decimal event (fuel + 1) data) := by
  rw [processRows, if_neg filled]
  cases read : event.read decimal event.cols data with
  | none =>
      rw [RowsEvent.read] at read
      rw [read]
      exact .outside read
  | some e =>
      obtain ⟨row, length⟩ := e
      have known := read
      rw [RowsEvent.read] at known
      rw [known]
      by_cases zero : length = 0
      · subst zero
        exact .stop read
      · have pos := Nat.pos_of_ne_zero zero
        simp only [if_neg zero]
        cases kind : event.typeCode with
        | write => exact .single (by simp [kind]) read pos _
        | delete => exact .single (by simp [kind]) read pos _
        | update =>
            cases read' : event.read decimal event.colsAi (data.drop length) with
            | none =>
                have known := read'
                rw [RowsEvent.read] at known
                simp only [known]
                exact .outside' kind read pos read'
            | some e =>
                obtain ⟨row', length'⟩ := e
                have known := read'
                rw [RowsEvent.read] at known
                simp only [known]
                by_cases zero : length' = 0
                · subst zero
                  exact .stop' kind read pos read'
                · simp only [if_neg zero]
                  exact .pair kind read pos read' _

theorem addRowChange_running {change : MysqlRowChange} {outcome : Outcome} :
    outcome.addRowChange change = .running ↔ outcome = .running := by
  cases outcome <;> simp [Outcome.addRowChange]

theorem addRowChange_outside {change : MysqlRowChange} {outcome : Outcome} :
    outcome.addRowChange change = .outside ↔ outcome = .outside := by
  cases outcome <;> simp [Outcome.addRowChange]

/-- The loop ends for all bytes. -/
theorem processRows_ends (event : RowsEvent) {fuel : Nat} {data : Bytes}
    (enough : data.length < fuel) : processRows decimal event fuel data ≠ .running := by
  induction fuel generalizing data with
  | zero => exact absurd enough (Nat.not_lt_zero _)
  | succ fuel ih =>
      by_cases empty : data = []
      · rw [processRows, if_pos empty]
        simp
      · have some := List.length_pos_iff.mpr empty
        have turn := processRows_turn decimal event fuel empty
        generalize processRows decimal event (fuel + 1) data = result at turn
        cases turn with
        | outside | stop | outside' | stop' => simp
        | single kind read pos change =>
            rw [Ne, addRowChange_running]
            exact ih (by rw [List.length_drop]; omega)
        | pair kind read pos read' change =>
            rw [Ne, addRowChange_running]
            exact ih (by rw [List.length_drop, List.length_drop]; omega)

theorem read_iff (decimal : Nat → Bytes → Parsed) {a : Announced} {data : Bytes}
    (bounded : data.length < 2 ^ 32)
    {cols : Nat → Bool} {stop : Nat} :
    (∃ row, a.event.read decimal cols data = some (row, stop)) ↔
      LaidRow a.columns cols data stop := parseOneRow_iff bounded

/-- Without columns, nothing is read. -/
theorem read_nothing (decimal : Nat → Bytes → Parsed) {a : Announced}
    (noColumns : int32 a.columns.length = 0)
    (cols : Nat → Bool) (data : Bytes) : a.event.read decimal cols data = some ([], 0) := by
  rw [RowsEvent.read, parseOneRow, Announced.event, noColumns, if_neg (by simp)]
  rfl

/-- Bytes that the loop has gone through are laid out in rows. -/
theorem laid_of_inside {a : Announced} {fuel : Nat} {data : Bytes} (bounded : data.length < 2 ^ 32)
    (enough : data.length < fuel) (inside : processRows decimal a.event fuel data ≠ .outside) :
    Laid a data := by
  induction fuel generalizing data with
  | zero => exact absurd enough (Nat.not_lt_zero _)
  | succ fuel ih =>
      by_cases empty : data = []
      · rw [empty]
        exact .nil
      · have some := List.length_pos_iff.mpr empty
        have turn := processRows_turn decimal a.event fuel empty
        generalize processRows decimal a.event (fuel + 1) data = result at turn inside
        have fewer : ∀ n, (data.drop n).length < 2 ^ 32 := by
          intro n
          rw [List.length_drop]
          omega
        cases turn with
        | outside | outside' => exact absurd rfl inside
        | stop zero => exact .empty (((read_iff decimal bounded).mp ⟨_, zero⟩).stop_iff.mp rfl)
        | stop' kind read pos zero =>
            exact .empty (((read_iff decimal (fewer _)).mp ⟨_, zero⟩).stop_iff.mp rfl)
        | single kind read pos change =>
            rw [Ne, addRowChange_outside] at inside
            refine .single kind ((read_iff decimal bounded).mp ⟨_, read⟩) (ih (fewer _) ?_ inside)
            rw [List.length_drop]
            omega
        | pair kind read pos read' change =>
            rw [Ne, addRowChange_outside] at inside
            refine .pair kind ((read_iff decimal bounded).mp ⟨_, read⟩)
              ((read_iff decimal (fewer _)).mp ⟨_, read'⟩) (ih ?_ ?_ inside) <;>
                rw [List.length_drop, List.length_drop] <;> omega

/-- The loop stays inside where no turn leaves the rows. -/
theorem inside_of_turns {event : RowsEvent} {data : Bytes}
    (turns : ∀ fuel result, Turn decimal event fuel data result → result ≠ .outside) (fuel : Nat) :
    processRows decimal event fuel data ≠ .outside := by
  cases fuel with
  | zero => simp [processRows]
  | succ fuel =>
      by_cases empty : data = []
      · simp [processRows, empty]
      · exact turns fuel _ (processRows_turn decimal event fuel empty)

/-- The loop stays inside of rows that are laid out. -/
theorem inside_of_laid {a : Announced} {fuel : Nat} {data : Bytes} (bounded : data.length < 2 ^ 32)
    (laid : Laid a data) : processRows decimal a.event fuel data ≠ .outside := by
  induction laid generalizing fuel with
  | nil => cases fuel <;> simp [processRows]
  | @empty data noColumns =>
      have nothing := read_nothing decimal noColumns a.cols data
      refine inside_of_turns (fun fuel result turn => ?_) fuel
      cases turn with
      | outside none => exact absurd (nothing.symm.trans none) (by simp)
      | stop | stop' => simp
      | single _ read pos | outside' _ read pos | pair _ read pos =>
          cases nothing.symm.trans read
          exact absurd pos (Nat.lt_irrefl 0)
  | @single data stop kind row rest ih =>
      obtain ⟨values, known⟩ := (read_iff decimal bounded).mpr row
      refine inside_of_turns (fun fuel result turn => ?_) fuel
      cases turn with
      | outside none => exact absurd (known.symm.trans none) (by simp)
      | stop | stop' => simp
      | outside' isUpdate | pair isUpdate => exact absurd isUpdate kind
      | single _ read _ change =>
          cases known.symm.trans read
          rw [Ne, addRowChange_outside]
          exact ih (by rw [List.length_drop]; omega)
  | @pair data stop stop' kind before after rest ih =>
      have fewer : (data.drop stop).length < 2 ^ 32 := by
        rw [List.length_drop]
        omega
      obtain ⟨values, known⟩ := (read_iff decimal bounded).mpr before
      obtain ⟨values', known'⟩ := (read_iff decimal fewer).mpr after
      refine inside_of_turns (fun fuel result turn => ?_) fuel
      cases turn with
      | outside none => exact absurd (known.symm.trans none) (by simp)
      | stop | stop' => simp
      | single notUpdate => exact absurd kind notUpdate
      | outside' _ read _ none =>
          cases known.symm.trans read
          exact absurd (known'.symm.trans none) (by simp)
      | pair _ read _ read' change =>
          cases known.symm.trans read
          cases known'.symm.trans read'
          rw [Ne, addRowChange_outside]
          exact ih (by rw [List.length_drop]; omega)

end AnyRows

/-! ## What holds of every rows event -/

/-- Images are decoded exactly, one by one and one behind the other, if and only if they fit. The
loop ends for any bytes, and stays inside if and only if these are laid out in rows. -/
theorem rowImages_right_iff (decimal : Nat → Bytes → Parsed) (a : Announced) :
    (∀ changes, RightRows decimal a changes ↔ RowsFit a changes) ∧
      ∀ rows, Terminates decimal a rows ∧ (Inside decimal a rows ↔ Laid a rows.data) :=
  ⟨rightRows_iff a, fun rows =>
    ⟨processRows_ends a.event (Nat.lt_succ_self _),
      laid_of_inside rows.size (Nat.lt_succ_self _), inside_of_laid rows.size⟩⟩

/-- A row with a `TINY` column whose value is -1. -/
def minusOne : Row [.tiny] where
  cells := [⟨.tiny, some (.number (-1)), by rintro c ⟨⟩; exact ⟨by decide, by decide⟩⟩]
  typed := rfl

/-- Of the inserted value -1, the number 255 is made. -/
theorem negative_tiny_unsigned :
    ¬ RightRows (fun _ _ => none) ⟨.write, [.tiny], fun _ => true, fun _ => true⟩
      [⟨minusOne, minusOne⟩] := by
  intro right
  have fit := (rightRows_iff _ _).mp right
  have fits := fit _ (List.mem_singleton_self _) _ (List.mem_singleton_self _)
  have least : (0 : Int) ≤ -1 := fits.1.values _ (List.mem_singleton_self _) _ rfl
  exact absurd least (by decide)

end MlsImgSearch.Db.RowImage
