import Glim.GString.Order
import Glim.Machine.Exec
import Glim.Table.SortedMap
import Glim.Text.Lex
import Glim.Text.Word

/-!
# The LevelDB wrapper

LevelDB is a sorted map from byte strings to byte strings, and a write batch is a list of
operations that are applied together. Keys and values are typed, and serialized into the
`gstring` that is handed to LevelDB; a byte string is the contents of a `gstring` here. The
outcome of a call of LevelDB is a parameter.

## Main definitions

* `Datum`, `ldbSerialize`, `ldbDeserialize`: typed keys and values
* `Database`, `BatchOp`: LevelDB
* `Trigger`, `Ldb`: the wrapper and its triggers
* `Ldb.putTrigger`, `Ldb.put`, `Ldb.haveKey`, `Ldb.get`, `Ldb.del`: the operations
-/

namespace Glim

open Machine Exec Text Table

/-- The types of keys and values. -/
inductive Kind where
  | gstring
  | string
  | uint32
  deriving DecidableEq, Repr

/-- A key or a value. -/
inductive Datum where
  | gstring (bytes : List UInt8)
  | string (bytes : List UInt8)
  | uint32 (n : UInt32)
  deriving DecidableEq, Repr

/-- The type of a key or a value. -/
def Datum.kind : Datum → Kind
  | .gstring _ => .gstring
  | .string _ => .string
  | .uint32 _ => .uint32

/-! ## Serializing -/

/-- `gstring (0, data, false, length)`: the length is stored modulo `2 ^ 24`. -/
def view (data : List UInt8) : List UInt8 := data.take (data.length % 2 ^ 24)

/-- `ldbSerialize (bytes, data)`: strings replace the bytes, and numbers are appended. -/
def ldbSerialize (bytes : List UInt8) : Datum → List UInt8
  | .gstring data => view data
  | .string data => view data
  | .uint32 ui => bytes ++ word ui

/-- `ldbDeserialize (bytes, data)`. -/
def ldbDeserialize (bytes : List UInt8) : Kind → Except String Datum
  | .gstring => .ok (.gstring bytes)
  | .string => .ok (.string bytes)
  | .uint32 =>
    match ofWord bytes with
    | some ui => .ok (.uint32 ui)
    | none => .error "Not uint32_t, wrong number of bytes"

/-! ## LevelDB -/

/-- The contents of a LevelDB database. -/
abbrev Database := SortedMap (List UInt8) (List UInt8)

/-- How a call of LevelDB ends. -/
inductive Status where
  | ok
  | error (text : String)
  deriving DecidableEq, Repr

/-- An operation in a `WriteBatch`. -/
inductive BatchOp where
  | put (key value : List UInt8)
  | delete (key : List UInt8)
  deriving DecidableEq, Repr

/-- The database after an operation. -/
def BatchOp.apply (db : Database) : BatchOp → Database
  | .put key value => db.insert key value
  | .delete key => db.erase key

/-! ## The wrapper -/

/-- What a trigger appends to the batch, and the exception it ends with, if any. -/
abbrev TriggerResult := List BatchOp × Option String

/-- A trigger. It may read the database, and gets the key and the value with their bytes. -/
structure Trigger where
  put : Database → Datum → List UInt8 → Datum → List UInt8 → TriggerResult
  del : Database → Datum → List UInt8 → TriggerResult

/-- The database with its triggers, in the order of `_triggers`. -/
structure Ldb where
  db : Database
  triggers : List (List UInt8 × Trigger) := []

/-- A trigger appends to the batch, and may throw then. -/
def Trigger.run (result : TriggerResult) : Exec (List BatchOp) Unit := do
  modify (· ++ result.1)
  match result.2 with
  | none => pure ()
  | some message => raise message

/-- The loop over the triggers. -/
def Trigger.runAll {α : Type} (trigger : α → TriggerResult) : List α → Exec (List BatchOp) Unit
  | [] => pure ()
  | t :: ts => do
    Trigger.run (trigger t)
    runAll trigger ts

namespace Ldb

/-- `putTrigger (trigger)`, for a trigger with the given name: the map `_triggers` is ordered by
the names, and keeps the name of a trigger that is replaced. -/
def putTrigger (name : List UInt8) (trigger : Trigger) (ldb : Ldb) : Ldb :=
  let same := ldb.triggers.find? fun t => !gstringLess t.1 name && !gstringLess name t.1
  { ldb with triggers := ldb.triggers.filter (fun t => gstringLess t.1 name) ++
      ((same.map Prod.fst).getD name, trigger) ::
        ldb.triggers.filter fun t => gstringLess name t.1 }

/-- `put (key, value, batch)`. -/
def putBatch (ldb : Ldb) (key value : Datum) : Exec (List BatchOp) Unit := do
  let kbytes := ldbSerialize [] key
  let vbytes := ldbSerialize [] value
  Trigger.runAll (fun trigger => trigger.2.put ldb.db key kbytes value vbytes) ldb.triggers
  modify (· ++ [.put kbytes vbytes])

/-- `del (key, batch)`. -/
def delBatch (ldb : Ldb) (key : Datum) : Exec (List BatchOp) Unit := do
  let kbytes := ldbSerialize [] key
  when (kbytes = []) (raise "del: key is empty")
  Trigger.runAll (fun trigger => trigger.2.del ldb.db key kbytes) ldb.triggers
  modify (· ++ [.delete kbytes])

/-- Fill a batch and write it. -/
def withBatch (fill : Ldb → Exec (List BatchOp) Unit) (text : String) (status : Status) :
    Exec Ldb Unit := fun ldb =>
  match fill ldb [] with
  | .ok _ batch =>
    match status with
    | .ok => .ok () { ldb with db := batch.foldl BatchOp.apply ldb.db }
    | .error message => .throw (text ++ message) ldb
  | .throw message _ => .throw message ldb
  | .fault u => .fault u

/-- `put (key, value)`. -/
def put (key value : Datum) (status : Status) : Exec Ldb Unit :=
  withBatch (fun ldb => ldb.putBatch key value) "Ldb: add: " status

/-- `del (key)`. -/
def del (key : Datum) (status : Status) : Exec Ldb Unit :=
  withBatch (fun ldb => ldb.delBatch key) "Ldb: del: " status

/-- `have (key)`. -/
def haveKey (key : Datum) (status : Status) : Exec Ldb Bool := do
  let ldb ← Exec.get
  match status with
  | .ok => pure (ldb.db.lookup (ldbSerialize [] key)).isSome
  | .error message => raise ("Ldb.have: " ++ message)

/-- `get (key, value)`, for a value of the type `kind`: the value, if the key is found. -/
def get (key : Datum) (kind : Kind) (status : Status) : Exec Ldb (Option Datum) := do
  let ldb ← Exec.get
  match status with
  | .ok =>
    match ldb.db.lookup (ldbSerialize [] key) with
    | none => pure none
    | some str =>
      match ldbDeserialize (view str) kind with
      | .ok value => pure (some value)
      | .error message => raise message
  | .error message => raise ("Ldb.get: " ++ message)

end Ldb

end Glim
