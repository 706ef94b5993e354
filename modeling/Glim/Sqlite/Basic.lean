import Glim.Machine.Unwind
import Mathlib.Data.Int.Notation

/-!
# Queries of SQLite

A query holds a prepared statement of SQLite, and remembers in `mChanges` whether the statement has
been executed to its end. SQLite is reduced to the results of its calls, which are arbitrary, and to
a log of the calls; the values in columns are left out. A call whose result is not there yet has not
returned, and the program ends in it.

## Main definitions

* `Event`, `Sqlite3`, `World`: the calls of SQLite, their results, and the query that makes them
* `SqliteQuery.step`, `SqliteQuery.qstep`, `SqliteQuery.ustep`, `SqliteQuery.reset`: queries
* `SqliteParQuery.step`: queries that run in parallel with other processes
-/

namespace Glim.Sqlite

open Machine Unwind

def SQLITE_OK : ℤ := 0
def SQLITE_BUSY : ℤ := 5
def SQLITE_SCHEMA : ℤ := 17
def SQLITE_MISUSE : ℤ := 21
def SQLITE_ROW : ℤ := 100
def SQLITE_DONE : ℤ := 101

/-- A value for a parameter of a statement. -/
inductive Value where
  | text (bytes : List UInt8) (transient : Bool)
  | int (n : ℤ)
  | int64 (n : ℤ)
  deriving DecidableEq, Repr

/-- A call of SQLite, or its result. A statement is a number, or null; `again` says that the call of
`sqlite3_step` is a repetition. -/
inductive Event where
  | prepare (statement : Option ℕ)
  | step (statement : Option ℕ)
  | returned (rc : ℤ) (again : Bool)
  | sleep (ms : ℤ)
  | reset (statement : Option ℕ)
  | bind (statement : Option ℕ) (index : ℤ) (value : Value)
  | transferBindings (old new : Option ℕ)
  | finalize (statement : Option ℕ)
  deriving DecidableEq, Repr

/-- What the functions of SQLite return after the calls in a log. -/
structure Sqlite3 where
  bind : List Event → ℤ
  bindParameterIndex : String → ℤ
  changes : List Event → ℕ
  errmsg : List Event → String

/-- Every statement changes one row, and there is one error. -/
def Sqlite3.plain : Sqlite3 where
  bind _ := SQLITE_OK
  bindParameterIndex _ := 1
  changes _ := 1
  errmsg _ := "database is locked"

/-- `SqliteQuery`. `mChanges` is -1 if the statement isn't DONE. -/
structure SqliteQuery where
  statement : Option ℕ := none
  bindCounter : ℤ := 0
  mChanges : ℤ := -1
  deriving DecidableEq, Repr

/-- SQLite, with the results of the calls of `sqlite3_step` and `sqlite3_prepare_v2` to come, and a
query. The log has the newest call first. -/
structure World where
  sqlite : Sqlite3
  steps : List ℤ
  prepares : List ℤ
  statements : ℕ := 0
  log : List Event := []
  query : SqliteQuery := {}

/-- A program. -/
abbrev Act := Unwind World

/-! ## The calls of SQLite -/

def record (e : Event) : Act Unit := modify fun w => { w with log := e :: w.log }

/-- A call that does not return. -/
def hang {α : Type} : Act α := fun w => (.terminated, w)

/-- `sqlite3_errmsg (*session)`. -/
def sqlite3Errmsg : Act String := do
  let w ← get
  pure (w.sqlite.errmsg w.log)

/-- The result of `sqlite3_step`, which is the next one unless the statement is null. -/
def stepResult : Act ℤ := fun w =>
  match w.query.statement, w.steps with
  | none, _ => (.value SQLITE_MISUSE, w)
  | some _, [] => (.terminated, w)
  | some _, rc :: steps => (.value rc, { w with steps := steps })

/-- `sqlite3_step (statement)`. -/
def sqlite3Step (again : Bool) : Act ℤ := do
  let w ← get
  record (.step w.query.statement)
  let rc ← stepResult
  record (.returned rc again)
  pure rc

/-- `sqlite3_prepare_v2 (.., &statement, NULL)`: a new statement, or null if it fails. -/
def sqlite3Prepare : Act ℤ := fun w =>
  match w.prepares with
  | [] => (.terminated, w)
  | rc :: prepares =>
    let statement := if rc = SQLITE_OK then some w.statements else none
    (.value rc, { w with
      prepares := prepares
      statements := w.statements + 1
      log := .prepare statement :: w.log
      query := { w.query with statement := statement } })

/-! ## `SqliteQuery` -/

/-- `mChanges = changes`. -/
def setChanges (changes : ℤ) : Act Unit := modify fun w =>
  { w with query := { w.query with mChanges := changes } }

/-- `throw SqliteEx (message + sqlite3_errmsg (*session))`. -/
def raiseErrmsg {α : Type} (message : String) : Act α := do
  let errmsg ← sqlite3Errmsg
  raise (message ++ errmsg)

namespace SqliteQuery

/-- `prepare (session, query, queryLength)`. -/
def prepare (query : String) : Act Unit := do
  let rc ← sqlite3Prepare
  when (rc ≠ SQLITE_OK) (raiseErrmsg (query ++ ": "))

/-- `SqliteQuery (session, query)`. -/
def construct (query : String) : Act Unit := do
  modify fun w => { w with query := {} }
  prepare query

/-- `reset`. -/
def reset : Act Unit := do
  modify fun w => { w with query := { w.query with bindCounter := 0, mChanges := -1 } }
  let w ← get
  record (.reset w.query.statement)

/-- `mChanges = sqlite3_changes (*session)`. -/
def finish : Act Unit := do
  let w ← get
  setChanges (w.sqlite.changes w.log)

/-- `step`. -/
def step : Act Bool := do
  let w ← get
  if w.query.mChanges ≥ 0 then do
    setChanges 0
    pure false
  else do
    let ret ← sqlite3Step false
    if ret = SQLITE_ROW then pure true
    else if ret = SQLITE_DONE then do
      finish
      pure false
    else raiseErrmsg ""

/-- `next`. -/
def next : Act Bool := step

/-- `qstep`. -/
def qstep : Act Unit := do
  let fetched ← step
  when (¬ fetched) (raise "qstep: no rows returned / affected")

/-- `ustep`. -/
def ustep : Act ℤ := do
  let ret ← sqlite3Step false
  if ret = SQLITE_DONE then do
    finish
    let w ← get
    pure w.query.mChanges
  else if ret = SQLITE_ROW then pure 0
  else raiseErrmsg ""

/-- `changes`. -/
def changes : Act ℤ := do
  let w ← get
  pure w.query.mChanges

/-- `bind (index, value)`, for all types of values. -/
def bind (index : ℤ) (value : Value) : Act Unit := do
  let w ← get
  record (.bind w.query.statement index value)
  let w ← get
  when (w.sqlite.bind w.log ≠ SQLITE_OK) (raiseErrmsg "")

/-- `operator << (value)`. -/
def shift (value : Value) : Act Unit := do
  modify fun w => { w with query := { w.query with bindCounter := w.query.bindCounter + 1 } }
  let w ← get
  bind w.query.bindCounter value

/-- `bind (name, value)`. -/
def bindName (name : String) (value : Value) : Act Unit := do
  let w ← get
  if w.sqlite.bindParameterIndex name = 0 then
    raise ("No such parameter in the query: " ++ name)
  else bind (w.sqlite.bindParameterIndex name) value

end SqliteQuery

/-! ## `SqliteParQuery` -/

/-- The members that `SqliteParQuery` adds, which do not change: the text of the query, how often it
is repeated when SQLite is busy, and how long it waits before that. -/
structure SqliteParQuery where
  query : String
  repeats : ℤ := 90
  wait : ℤ := 20

namespace SqliteParQuery

variable (par : SqliteParQuery)

/-- The statement is prepared again, with the bindings of the old one. -/
def reprepare : Act Unit := do
  let w ← get
  let old := w.query.statement
  SqliteQuery.prepare par.query
  let w ← get
  record (.transferBindings old w.query.statement)
  record (.finalize old)

/-- `for (int repeat = this->repeat; ret == SQLITE_BUSY && repeat >= 0; --repeat)`, when so many
values of `repeat` are left. -/
def retry : ℕ → ℤ → Act ℤ
  | 0, ret => pure ret
  | left + 1, ret =>
    if ret = SQLITE_BUSY then do
      record (.sleep par.wait)
      let ret ← sqlite3Step true
      retry left ret
    else pure ret

/-- `step`, from the label `repeat` on. Every round takes a result, so that the results end before
the rounds do. -/
def stepFrom : ℕ → Act Bool
  | 0 => hang
  | rounds + 1 => do
    let ret ← sqlite3Step false
    if ret = SQLITE_ROW then pure true
    else if ret = SQLITE_DONE then do
      SqliteQuery.finish
      pure false
    else if ret = SQLITE_SCHEMA then do
      reprepare par
      stepFrom rounds
    else do
      -- `repeat` goes from `this->repeat` down to 0
      let _ ← retry par (par.repeats + 1).toNat ret
      raiseErrmsg par.query

/-- `step`. -/
def step : Act Bool := do
  let w ← get
  if w.query.mChanges ≥ 0 then do
    setChanges 0
    pure false
  else stepFrom par (w.steps.length + 1)

/-- `next`. -/
def next : Act Bool := step par

end SqliteParQuery

end Glim.Sqlite
