import MlsImgSearch.Lib.Strings

/-!
# Several statements in one query

A query with several statements gives one outcome for each of them. The library hands
the outcomes over one by one and hands over none behind an error; a result set that was
stored has to be freed.
-/

namespace MlsImgSearch.Db.BatchExecute

open Lib.Strings (Text)

/-! ## The library -/

/-- A code of `mysql_errno` for an error. -/
abbrev Errno := { code : Nat // code ≠ 0 }

/-- What becomes of a statement. A result set is lost if it cannot be read to its end. -/
inductive Outcome where
  | resultSet
  | noResult (affectedRows : Nat)
  | failed (errno : Errno)
  | lost (errno : Errno)
  deriving DecidableEq

def Outcome.isError : Outcome → Bool
  | .failed _ => true
  | .lost _ => true
  | _ => false

/-- A connection of the library: the outcomes that it has still to hand over, the outcome that it
handed over last and all that it has handed over, the number of the result sets that were stored and
those that were freed. -/
structure Mysql where
  pending : List Outcome
  current : Option Outcome
  consumed : List Outcome
  stored : Nat
  freed : List Nat
  deriving DecidableEq

/-- The connection when a query is sent. -/
def Mysql.query (outcomes : List Outcome) : Mysql := ⟨outcomes, none, [], 0, []⟩

namespace Mysql

variable (m : Mysql)

def handOver (outcome : Outcome) (rest : List Outcome) : Mysql :=
  { m with
    pending := if outcome.isError then [] else rest
    current := some outcome
    consumed := m.consumed ++ [outcome] }

/-- `mysql_real_query` fails if the first statement does. -/
def realQuery (first : Outcome) (rest : List Outcome) : Int × Mysql :=
  match first with
  | .failed _ => (1, m.handOver first rest)
  | _ => (0, m.handOver first rest)

/-- `mysql_next_result`. -/
def nextResult : Int × Mysql :=
  match m.pending with
  | [] => (-1, { m with current := none })
  | .failed errno :: rest => (1, m.handOver (.failed errno) rest)
  | outcome :: rest => (0, m.handOver outcome rest)

/-- `mysql_store_result`; the result set gets a number. -/
def storeResult : Option Nat × Mysql :=
  match m.current with
  | some .resultSet => (some m.stored, { m with stored := m.stored + 1 })
  | _ => (none, m)

/-- Whether `mysql_field_count` is not 0. -/
def hasFields : Bool :=
  match m.current with
  | some .resultSet => true
  | some (.lost _) => true
  | _ => false

def errno : Nat :=
  match m.current with
  | some (.failed errno) => errno
  | some (.lost errno) => errno
  | _ => 0

def affectedRows : Nat :=
  match m.current with
  | some (.noResult affectedRows) => affectedRows
  | _ => 0

/-- The destructor of `CMysqlQueryResProxy`. -/
def freeResult (res : Option Nat) : Mysql := { m with freed := m.freed ++ res.toList }

end Mysql

/-! ## The connection -/

def MYSQL_ERROR_DUP_KEY : Int := -1062

def FAILED_OPERATION : Int := -2

def MYSQL_ERROR : Int := -1

def NON_NULL_RESULT : Int := 0

def NULL_RESULT : Int := 1

def NULL_RESULT_WITHOUT_AFFECTED_ROWS : Int := 1

def NULL_RESULT_WITH_AFFECTED_ROWS : Int := 2

/-- A query in work: what is returned, the result pointer and the connection. -/
structure Answer where
  ret : Int
  res : Option Nat
  mysql : Mysql
  deriving DecidableEq

/-- `RealQuery` of a query whose outcomes are `first` and `rest`. -/
def realQuery (inited : Bool) (sql : Option Text) (first : Outcome) (rest : List Outcome)
    (res : Option Nat) (m : Mysql) : Answer :=
  if inited = false ∨ sql = none ∨ res ≠ none then ⟨-1, res, m⟩
  else
    let (result, m) := m.realQuery first rest
    if result ≠ 0 then
      if MYSQL_ERROR_DUP_KEY = -m.errno then ⟨MYSQL_ERROR_DUP_KEY, res, m⟩
      else ⟨MYSQL_ERROR, res, m⟩
    else
      match m.storeResult with
      | (some stored, m) => ⟨NON_NULL_RESULT, some stored, m⟩
      | (none, m) =>
          if m.hasFields = false then
            if m.affectedRows % 2 ^ 32 = 0 then ⟨NULL_RESULT_WITHOUT_AFFECTED_ROWS, none, m⟩
            else ⟨NULL_RESULT_WITH_AFFECTED_ROWS, none, m⟩
          else if m.errno ≠ 0 then ⟨MYSQL_ERROR, none, m⟩
          else ⟨NULL_RESULT, none, m⟩

def getNextResult (inited : Bool) (res : Option Nat) (needAffected : Bool) (m : Mysql) : Answer :=
  if inited = false ∨ res ≠ none then ⟨-1, res, m⟩
  else
    let (status, m) := m.nextResult
    if 0 < status then ⟨FAILED_OPERATION, res, m⟩
    else if status = -1 then ⟨-1, res, m⟩
    else
      match m.storeResult with
      | (some stored, m) => ⟨NON_NULL_RESULT, some stored, m⟩
      | (none, m) =>
          if m.hasFields = false then
            if needAffected = true ∧ m.affectedRows % 2 ^ 32 = 0 then
              ⟨NULL_RESULT_WITHOUT_AFFECTED_ROWS, none, m⟩
            else ⟨NULL_RESULT_WITH_AFFECTED_ROWS, none, m⟩
          else ⟨-1, none, m⟩

/-- The loop of `BatchExecute`; the pointer keeps its value when its result set is freed. -/
def batchLoop : Nat → Option Nat → Mysql → Option (Int × Mysql)
  | 0, _, _ => none
  | fuel + 1, res, m =>
      let next := getNextResult true res false (m.freeResult res)
      if 0 ≤ next.ret then batchLoop fuel next.res next.mysql
      else if next.ret = FAILED_OPERATION then some (-1, next.mysql)
      else some (0, next.mysql)

/-- What is returned, and the connection; `none` if the loop does not end. -/
def batchExecute (inited : Bool) (sql : Option Text) (first : Outcome) (rest : List Outcome) :
    Option (Int × Mysql) :=
  let m := Mysql.query []
  if inited = false ∨ sql = none then some (-1, m)
  else
    let query := realQuery inited sql first rest none m
    if query.ret < 0 then some (-1, query.mysql)
    else batchLoop (rest.length + 2) query.res query.mysql

/-! ## What is wanted -/

/-- The outcomes up to the first error. -/
def upToError : List Outcome → List Outcome
  | [] => []
  | outcome :: rest => if outcome.isError then [outcome] else outcome :: upToError rest

def resultSets (outcomes : List Outcome) : Nat := outcomes.count .resultSet

/-- A batch succeeds if all its statements do, it consumes their outcomes, and each result set is
freed once. -/
structure Right (outcomes : List Outcome) (ret : Int) (m : Mysql) : Prop where
  succeeds : ret = 0 ↔ ∀ outcome ∈ outcomes, outcome.isError = false
  consumed : m.consumed = upToError outcomes
  freed : m.freed.Perm (List.range (resultSets (upToError outcomes)))

/-- A result set comes last, up to the first error, and is not lost. -/
def Quiet : List Outcome → Prop
  | [] => True
  | .noResult _ :: rest => Quiet rest
  | .failed _ :: _ => True
  | .lost _ :: _ => False
  | .resultSet :: rest => rest = []

/-- The first statement alone may lose its result set. -/
def QuietBatch : Outcome → List Outcome → Prop
  | .lost _, _ => True
  | first, rest => Quiet (first :: rest)

/-! ## The loop -/

/-- What the loop adds to the connection `m` if `outcomes` are still to come. -/
structure RightFrom (m : Mysql) (outcomes : List Outcome) (ret : Int) (m' : Mysql) : Prop where
  succeeds : ret = 0 ↔ ∀ outcome ∈ outcomes, outcome.isError = false
  consumed : m'.consumed = m.consumed ++ upToError outcomes
  freed : m'.freed.Perm (m.freed ++ List.range' m.stored (resultSets (upToError outcomes)))

/-- `GetNextResult` returns −1 for the pointer to a result set that is freed. -/
theorem batchLoop_some (fuel stored : Nat) (m : Mysql) :
    batchLoop (fuel + 1) (some stored) m = some (0, m.freeResult (some stored)) := by
  simp [batchLoop, getNextResult, FAILED_OPERATION]

theorem freeResult_none (m : Mysql) : m.freeResult none = m := by
  simp [Mysql.freeResult]

theorem batchLoop_done (fuel : Nat) {m : Mysql} (pending : m.pending = []) :
    batchLoop (fuel + 1) none m = some (0, { m with current := none }) := by
  simp [batchLoop, freeResult_none, getNextResult, Mysql.nextResult, pending, FAILED_OPERATION]

theorem batchLoop_failed (fuel : Nat) {m : Mysql} {errno : Errno} {rest : List Outcome}
    (pending : m.pending = .failed errno :: rest) :
    batchLoop (fuel + 1) none m = some (-1, m.handOver (.failed errno) rest) := by
  simp [batchLoop, freeResult_none, getNextResult, Mysql.nextResult, pending, FAILED_OPERATION]

/-- A result set that cannot be read is taken for the end. -/
theorem batchLoop_lost (fuel : Nat) {m : Mysql} {errno : Errno} {rest : List Outcome}
    (pending : m.pending = .lost errno :: rest) :
    batchLoop (fuel + 1) none m = some (0, m.handOver (.lost errno) rest) := by
  simp [batchLoop, freeResult_none, getNextResult, Mysql.nextResult, pending, Mysql.handOver,
    Mysql.storeResult, Mysql.hasFields, FAILED_OPERATION]

theorem batchLoop_noResult (fuel : Nat) {m : Mysql} {affectedRows : Nat} {rest : List Outcome}
    (pending : m.pending = .noResult affectedRows :: rest) :
    batchLoop (fuel + 1) none m =
      batchLoop fuel none (m.handOver (.noResult affectedRows) rest) := by
  rw [batchLoop, freeResult_none]
  simp [getNextResult, Mysql.nextResult, pending, Mysql.handOver, Mysql.storeResult,
    Mysql.hasFields, NULL_RESULT_WITH_AFFECTED_ROWS]

theorem batchLoop_resultSet (fuel : Nat) {m : Mysql} {rest : List Outcome}
    (pending : m.pending = .resultSet :: rest) :
    batchLoop (fuel + 1) none m =
      batchLoop fuel (some m.stored)
        { m.handOver .resultSet rest with stored := m.stored + 1 } := by
  rw [batchLoop, freeResult_none]
  simp [getNextResult, Mysql.nextResult, pending, Mysql.handOver, Mysql.storeResult,
    NON_NULL_RESULT]

theorem upToError_eq_nil {outcomes : List Outcome} : upToError outcomes = [] ↔ outcomes = [] := by
  cases outcomes with
  | nil => simp [upToError]
  | cons outcome rest => by_cases error : outcome.isError <;> simp [upToError, error]

/-- A result set ends the loop, whatever follows it. -/
theorem rightFrom_resultSet {m m' : Mysql} {rest : List Outcome}
    (consumed : m'.consumed = m.consumed ++ [.resultSet])
    (freed : m'.freed = m.freed ++ [m.stored]) :
    RightFrom m (.resultSet :: rest) 0 m' ↔ rest = [] := by
  constructor
  · intro right
    have all := right.consumed
    rw [consumed, List.append_cancel_left_eq] at all
    have none_left : upToError rest = [] := by
      simpa [upToError, Outcome.isError] using all.symm
    exact upToError_eq_nil.mp none_left
  · intro last
    subst last
    exact ⟨by simp [Outcome.isError], by simp [consumed, upToError, Outcome.isError],
      by simp [freed, upToError, Outcome.isError, resultSets]⟩

theorem rightFrom_noResult {m m' : Mysql} {affectedRows : Nat} {rest : List Outcome} {ret : Int} :
    RightFrom m (.noResult affectedRows :: rest) ret m' ↔
      RightFrom (m.handOver (.noResult affectedRows) rest) rest ret m' := by
  have sets : resultSets (upToError (.noResult affectedRows :: rest)) =
      resultSets (upToError rest) := by
    simp [resultSets, upToError, Outcome.isError]
  constructor
  · intro right
    exact ⟨by simpa [Outcome.isError] using right.succeeds,
      by simpa [Mysql.handOver, upToError, Outcome.isError] using right.consumed,
      by simpa [Mysql.handOver, sets] using right.freed⟩
  · intro right
    exact ⟨by simpa [Outcome.isError] using right.succeeds,
      by simpa [Mysql.handOver, upToError, Outcome.isError] using right.consumed,
      by simpa [Mysql.handOver, sets] using right.freed⟩

/-- The loop ends, and it does what is wanted if and only if the outcomes are quiet. -/
theorem batchLoop_quiet (outcomes : List Outcome) (m : Mysql) (fuel : Nat)
    (pending : m.pending = outcomes) (enough : outcomes.length + 1 ≤ fuel) :
    ∃ ret m', batchLoop fuel none m = some (ret, m') ∧
      (RightFrom m outcomes ret m' ↔ Quiet outcomes) := by
  induction outcomes generalizing m fuel with
  | nil =>
      obtain ⟨fuel, rfl⟩ : ∃ less, fuel = less + 1 := ⟨fuel - 1, by simp at enough; omega⟩
      refine ⟨0, _, batchLoop_done fuel pending, ?_⟩
      simp only [Quiet, iff_true]
      exact ⟨by simp, by simp [upToError], by simp [upToError, resultSets]⟩
  | cons outcome rest ih =>
      obtain ⟨fuel, rfl⟩ : ∃ less, fuel = less + 1 := ⟨fuel - 1, by simp at enough; omega⟩
      have enough' : rest.length + 1 ≤ fuel := by simpa using enough
      cases outcome with
      | resultSet =>
          obtain ⟨fuel, rfl⟩ : ∃ less, fuel = less + 1 := ⟨fuel - 1, by omega⟩
          refine ⟨0, _, (batchLoop_resultSet _ pending).trans (batchLoop_some _ _ _), ?_⟩
          exact rightFrom_resultSet rfl rfl
      | noResult affectedRows =>
          obtain ⟨ret, m', runs, right⟩ :=
            ih (m.handOver (.noResult affectedRows) rest) fuel rfl enough'
          exact ⟨ret, m', (batchLoop_noResult _ pending).trans runs,
            rightFrom_noResult.trans right⟩
      | failed errno =>
          refine ⟨-1, _, batchLoop_failed _ pending, ?_⟩
          simp only [Quiet, iff_true]
          exact ⟨by simp [Outcome.isError], by simp [Mysql.handOver, upToError, Outcome.isError],
            by simp [Mysql.handOver, upToError, Outcome.isError, resultSets]⟩
      | lost errno =>
          refine ⟨0, _, batchLoop_lost _ pending, ?_⟩
          simp only [Quiet, iff_false]
          intro right
          simpa [Outcome.isError] using right.succeeds

/-! ## The batch -/

theorem right_iff_rightFrom {outcomes : List Outcome} {ret : Int} {m : Mysql} :
    Right outcomes ret m ↔ RightFrom (Mysql.query []) outcomes ret m := by
  constructor
  · intro right
    exact ⟨right.succeeds, by simpa [Mysql.query] using right.consumed,
      by simpa [Mysql.query, List.range_eq_range'] using right.freed⟩
  · intro right
    exact ⟨right.succeeds, by simpa [Mysql.query] using right.consumed,
      by simpa [Mysql.query, List.range_eq_range'] using right.freed⟩

theorem realQuery_resultSet (sql : Text) (rest : List Outcome) (m : Mysql) :
    realQuery true (some sql) .resultSet rest none m =
      ⟨NON_NULL_RESULT, some m.stored,
        { m.handOver .resultSet rest with stored := m.stored + 1 }⟩ := by
  simp [realQuery, Mysql.realQuery, Mysql.storeResult, Mysql.handOver]

theorem realQuery_noResult (sql : Text) (affectedRows : Nat) (rest : List Outcome) (m : Mysql) :
    ∃ ret, 0 ≤ ret ∧ realQuery true (some sql) (.noResult affectedRows) rest none m =
      ⟨ret, none, m.handOver (.noResult affectedRows) rest⟩ := by
  by_cases unaffected : affectedRows % 4294967296 = 0
  · refine ⟨NULL_RESULT_WITHOUT_AFFECTED_ROWS, by decide, ?_⟩
    simp [realQuery, Mysql.realQuery, Mysql.storeResult, Mysql.handOver, Mysql.hasFields,
      Mysql.affectedRows, unaffected]
  · refine ⟨NULL_RESULT_WITH_AFFECTED_ROWS, by decide, ?_⟩
    simp [realQuery, Mysql.realQuery, Mysql.storeResult, Mysql.handOver, Mysql.hasFields,
      Mysql.affectedRows, unaffected]

theorem realQuery_failed (sql : Text) (errno : Errno) (rest : List Outcome) (m : Mysql) :
    ∃ ret < 0, realQuery true (some sql) (.failed errno) rest none m =
      ⟨ret, none, m.handOver (.failed errno) rest⟩ := by
  by_cases duplicate : MYSQL_ERROR_DUP_KEY = -(errno.val : Int)
  · refine ⟨MYSQL_ERROR_DUP_KEY, by decide, ?_⟩
    simp [realQuery, Mysql.realQuery, Mysql.handOver, Mysql.errno, duplicate]
  · refine ⟨MYSQL_ERROR, by decide, ?_⟩
    simp [realQuery, Mysql.realQuery, Mysql.handOver, Mysql.errno, duplicate]

/-- `RealQuery` asks for the error where `GetNextResult` does not. -/
theorem realQuery_lost (sql : Text) (errno : Errno) (rest : List Outcome) (m : Mysql) :
    realQuery true (some sql) (.lost errno) rest none m =
      ⟨MYSQL_ERROR, none, m.handOver (.lost errno) rest⟩ := by
  simp [realQuery, Mysql.realQuery, Mysql.storeResult, Mysql.handOver, Mysql.hasFields,
    Mysql.errno, errno.property]

theorem batchExecute_error (sql : Text) {first : Outcome} (rest : List Outcome) {ret : Int}
    {m : Mysql}
    (query : realQuery true (some sql) first rest none (Mysql.query []) = ⟨ret, none, m⟩)
    (negative : ret < 0) :
    batchExecute true (some sql) first rest = some (-1, m) := by
  simp [batchExecute, query, negative]

theorem batchExecute_loop (sql : Text) {first : Outcome} (rest : List Outcome) {answer : Answer}
    (query : realQuery true (some sql) first rest none (Mysql.query []) = answer)
    (good : 0 ≤ answer.ret) :
    batchExecute true (some sql) first rest =
      batchLoop (rest.length + 2) answer.res answer.mysql := by
  have notNegative : ¬ answer.ret < 0 := by omega
  simp [batchExecute, query, notNegative]

/-- A first statement that fails ends the batch as it should. -/
theorem right_of_error {first : Outcome} (rest : List Outcome) (error : first.isError = true) :
    Right (first :: rest) (-1) ((Mysql.query []).handOver first rest) := by
  refine ⟨?_, by simp [Mysql.handOver, Mysql.query, upToError, error], ?_⟩
  · simp [error]
  · have noSet : first ≠ .resultSet := by
      intro set
      simp [set, Outcome.isError] at error
    simp [Mysql.handOver, Mysql.query, upToError, error, resultSets, noSet]

theorem returns_iff {sql : Text} {first : Outcome} {rest : List Outcome} {ret : Int} {m : Mysql}
    {quiet : Prop} (returns : batchExecute true (some sql) first rest = some (ret, m))
    (right : Right (first :: rest) ret m ↔ quiet) :
    (∃ ret m, batchExecute true (some sql) first rest = some (ret, m) ∧
      Right (first :: rest) ret m) ↔ quiet := by
  rw [← right, returns]
  simp

/-- `BatchExecute` ends; it reports the batch, consumes its outcomes and frees its result sets as it
should if and only if a result set comes last and none is lost behind the first statement. -/
theorem batchExecute_right_iff (sql : Text) (first : Outcome) (rest : List Outcome) :
    (∃ ret m, batchExecute true (some sql) first rest = some (ret, m) ∧
      Right (first :: rest) ret m) ↔ QuietBatch first rest := by
  cases first with
  | resultSet =>
      have query := realQuery_resultSet sql rest (Mysql.query [])
      refine returns_iff ((batchExecute_loop sql rest query (Int.le_refl 0)).trans
        (batchLoop_some _ _ _)) ?_
      rw [right_iff_rightFrom]
      exact rightFrom_resultSet rfl rfl
  | noResult affectedRows =>
      obtain ⟨ret, good, query⟩ := realQuery_noResult sql affectedRows rest (Mysql.query [])
      obtain ⟨ret', m', runs, right⟩ := batchLoop_quiet rest
        ((Mysql.query []).handOver (.noResult affectedRows) rest) (rest.length + 2) rfl (by omega)
      refine returns_iff ((batchExecute_loop sql rest query good).trans runs) ?_
      rw [right_iff_rightFrom, rightFrom_noResult]
      exact right
  | failed errno =>
      obtain ⟨ret, negative, query⟩ := realQuery_failed sql errno rest (Mysql.query [])
      refine returns_iff (batchExecute_error sql rest query negative) ?_
      exact iff_of_true (right_of_error rest rfl) trivial
  | lost errno =>
      have query := realQuery_lost sql errno rest (Mysql.query [])
      refine returns_iff (batchExecute_error sql rest query (by decide)) ?_
      exact iff_of_true (right_of_error rest rfl) trivial

/-- The first statement has a result set and the second one fails. -/
theorem batch_with_failure_succeeds :
    (batchExecute true (some ['s']) .resultSet [.failed ⟨1064, by decide⟩]).map
      (fun (ret, m) => (ret, m.consumed.length)) = some (0, 1) ∧
    ¬ ∃ ret m, batchExecute true (some ['s']) .resultSet [.failed ⟨1064, by decide⟩] =
      some (ret, m) ∧ Right [.resultSet, .failed ⟨1064, by decide⟩] ret m := by
  refine ⟨by decide, ?_⟩
  rintro ⟨ret, m, returns, right⟩
  have same : (0, { (Mysql.query []).handOver .resultSet [.failed ⟨1064, by decide⟩] with
      stored := 1, freed := [0] }) = (ret, m) := Option.some.inj returns
  cases same
  simpa [Outcome.isError] using right.succeeds

end MlsImgSearch.Db.BatchExecute
