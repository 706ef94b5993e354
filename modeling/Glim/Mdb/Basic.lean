import Glim.Ldb.Basic
import Glim.Machine.Run
import Glim.Table.Tour
import Mathlib.Data.Finset.Sort

/-!
# The LMDB wrapper

A database that LMDB opened with `MDB_DUPSORT` is a finite set of pairs of a key and a value, and
a transaction works on a copy of all databases, which replaces them when it is committed. Every
call of LMDB may fail; what a failed call leaves in the transaction is arbitrary.

## Main definitions

* `Pairs`, `Env`, `Failure`: LMDB, and which of its calls fail
* `mdbPut`, `mdbDel`, `mdbCursorGet`: the calls of LMDB
* `simpleIndexTrigger`: the trigger that keeps an index
* `Mdb.add`, `Mdb.eraseKV`, `Mdb.erase`: the operations, each in a transaction
-/

namespace Glim

open Machine Exec Text Table

/-! ## LMDB -/

/-- The pairs of a key and a value in a database. -/
abbrev Pairs := Finset (List UInt8 × List UInt8)

/-- `MDB_dbi`: the number of a database in the environment. -/
abbrev Dbi := ℕ

/-- A call that fails: the text of its error, and what it leaves in the transaction. -/
structure Failure where
  text : String
  left : Dbi → Pairs

/-- The databases, and which of the calls to come fail. Without an entry a call does not fail. The
limit for keys, which is also one for the values of a database with duplicates, is
`mdb_env_get_maxkeysize (env)`. -/
structure Env where
  databases : Dbi → Pairs
  maxKeySize : ℕ
  failures : List (Option Failure) := []

/-- What a call returns. -/
inductive Rc where
  | success
  | notFound
  | error (text : String)
  deriving DecidableEq, Repr

/-- `strerror (rc)`. -/
def Rc.text : Rc → String
  | .success => "Success"
  | .notFound => "Unknown error -30798"
  | .error text => text

/-- A call of LMDB: it fails if it is to, and has its effect otherwise. -/
def mdbCall {α : Type} (failed : String → α) (effect : (Dbi → Pairs) → α × (Dbi → Pairs)) :
    Exec Env α := fun env =>
  match env.failures.head?.join with
  | some f => .ok (failed f.text) { env with databases := f.left, failures := env.failures.tail }
  | none =>
    .ok (effect env.databases).1
      { env with databases := (effect env.databases).2, failures := env.failures.tail }

/-- A call that has no effect when it succeeds. -/
def mdbOpen : Exec Env Rc := mdbCall .error fun dbs => (.success, dbs)

/-- `MDB_BAD_VALSIZE`. -/
def badValSize : Rc := .error "Unknown error -30781"

/-- `mdb_put (txn, dbi, key, value, 0)`. -/
def mdbPut (dbi : Dbi) (key value : List UInt8) : Exec Env Rc := do
  let env ← get
  mdbCall .error fun dbs =>
    if key = [] ∨ env.maxKeySize < key.length ∨ env.maxKeySize < value.length then
      (badValSize, dbs)
    else (.success, Function.update dbs dbi (insert (key, value) (dbs dbi)))

/-- `mdb_del (txn, dbi, key, value)`: without a value it removes all values of the key. -/
def mdbDel (dbi : Dbi) (key : List UInt8) (value : Option (List UInt8)) : Exec Env Rc :=
  mdbCall .error fun dbs =>
    let removed := (dbs dbi).filter fun e => e.1 = key ∧ ∀ v ∈ value, e.2 = v
    if key = [] then (badValSize, dbs)
    else if removed = ∅ then (.notFound, dbs)
    else (.success, Function.update dbs dbi (dbs dbi \ removed))

/-- The values of a key, in their order. -/
def valuesOf (db : Pairs) (key : List UInt8) : List (List UInt8) :=
  ((db.filter fun e => e.1 = key).image Prod.snd).sort

/-- `mdb_cursor_get (cur, key, value, op)`: the first value of the key for `MDB_SET_KEY`, and the
one behind the current value for `MDB_NEXT_DUP`. -/
def mdbCursorGet (dbi : Dbi) (key : List UInt8) (current : Option (List UInt8)) :
    Exec Env (Except Rc (List UInt8)) :=
  mdbCall (fun text => .error (.error text)) fun dbs =>
    match Tour.next (valuesOf (dbs dbi) key) current with
    | some value => (.ok value, dbs)
    | none => (.error .notFound, dbs)

/-! ## Triggers -/

/-- A trigger, which gets the database, and the bytes of the key and the value. -/
structure MdbTrigger where
  add : Dbi → List UInt8 → List UInt8 → Exec Env Unit
  erase : Dbi → List UInt8 → Exec Env Unit
  eraseKV : Dbi → List UInt8 → List UInt8 → Exec Env Unit

/-- `if (rc && rc != MDB_NOTFOUND) throw MdbEx (message + strerror (rc))`. -/
def raiseUnlessNotFound (message : String) (rc : Rc) : Exec Env Unit :=
  when (rc ≠ .success ∧ rc ≠ .notFound) (raise (message ++ rc.text))

namespace SimpleIndexTrigger

/-- `add`. -/
def add (indexDbi : Dbi) (_ : Dbi) (kbytes vbytes : List UInt8) : Exec Env Unit := do
  let rc ← mdbPut indexDbi vbytes kbytes
  when (rc ≠ .success) (raise ("index, mdb_put: " ++ rc.text))

/-- The rest of `erase`, from the value on that the cursor stands on. -/
def eraseFrom (indexDbi dbi : Dbi) (kbytes : List UInt8) : ℕ → List UInt8 → Exec Env Unit
  | 0, _ => fail .diverges
  | fuel + 1, val => do
    let rc ← mdbDel indexDbi val (some kbytes)
    raiseUnlessNotFound "index, erase, mdb_del: " rc
    match ← mdbCursorGet dbi kbytes (some val) with
    | .ok val => eraseFrom indexDbi dbi kbytes fuel val
    | .error rc => raiseUnlessNotFound "index, erase, mdb_cursor_get: " rc

/-- `erase`: get all the values and remove them from the index. -/
def erase (indexDbi dbi : Dbi) (kbytes : List UInt8) : Exec Env Unit := do
  let rc ← mdbOpen
  when (rc ≠ .success) (raise ("index, erase, mdb_cursor_open: " ++ rc.text))
  match ← mdbCursorGet dbi kbytes none with
  | .ok val => do
    let env ← get
    eraseFrom indexDbi dbi kbytes (env.databases dbi).card val
  | .error rc => raiseUnlessNotFound "index, erase, mdb_cursor_get: " rc

/-- `eraseKV`. -/
def eraseKV (indexDbi : Dbi) (_ : Dbi) (kbytes vbytes : List UInt8) : Exec Env Unit := do
  let rc ← mdbDel indexDbi vbytes (some kbytes)
  raiseUnlessNotFound "index, mdb_del: " rc

end SimpleIndexTrigger

/-- The trigger that keeps the index in the database `indexDbi`. -/
def simpleIndexTrigger (indexDbi : Dbi) : MdbTrigger :=
  ⟨SimpleIndexTrigger.add indexDbi, SimpleIndexTrigger.erase indexDbi,
    SimpleIndexTrigger.eraseKV indexDbi⟩

/-! ## The wrapper -/

/-- `mdbSerialize`, for the types of keys and values. -/
class MdbSerialize (α : Type) where
  mdbSerialize : α → List UInt8

export MdbSerialize (mdbSerialize)

/-- A `gstring` is used directly. -/
instance : MdbSerialize (List UInt8) := ⟨view⟩

/-- Numbers are stored in the network byte order. -/
instance : MdbSerialize UInt32 := ⟨word⟩

/-- A database with its triggers. -/
structure Mdb where
  dbi : Dbi
  triggers : List MdbTrigger := []

/-- `for (auto& trigger: _triggers) ..`. -/
def runTriggers (run : MdbTrigger → Exec Env Unit) : List MdbTrigger → Exec Env Unit
  | [] => pure ()
  | trigger :: triggers => do
    run trigger
    runTriggers run triggers

namespace Mdb

variable {K V : Type} [MdbSerialize K] [MdbSerialize V] (m : Mdb)

/-- `add (key, value, txn)`. -/
def addTxn (key : K) (value : V) : Exec Env Unit := do
  let kbytes := mdbSerialize key
  let vbytes := mdbSerialize value
  runTriggers (fun trigger => trigger.add m.dbi kbytes vbytes) m.triggers
  let rc ← mdbPut m.dbi kbytes vbytes
  when (rc ≠ .success) (raise ("mdb_put: " ++ rc.text))

/-- What `mdb_del` returned. -/
def erased (rc : Rc) : Exec Env Bool := do
  raiseUnlessNotFound "mdb_del: " rc
  pure (rc ≠ .notFound)

/-- `eraseKV (key, value, txn)`. -/
def eraseKVTxn (key : K) (value : V) : Exec Env Bool := do
  let kbytes := mdbSerialize key
  when (kbytes = []) (raise "eraseKV: key is empty")
  let vbytes := mdbSerialize value
  runTriggers (fun trigger => trigger.eraseKV m.dbi kbytes vbytes) m.triggers
  let rc ← mdbDel m.dbi kbytes (some vbytes)
  erased rc

/-- `erase (key, txn)`: all values of the key. -/
def eraseTxn (key : K) : Exec Env Bool := do
  let kbytes := mdbSerialize key
  when (kbytes = []) (raise "erase: key is empty")
  runTriggers (fun trigger => trigger.erase m.dbi kbytes) m.triggers
  let rc ← mdbDel m.dbi kbytes none
  erased rc

end Mdb

/-- `beginTransaction (); body; commitTransaction ()`: an exception aborts the transaction. -/
def inTransaction {α : Type} (body : Exec Env α) : Exec Env α := fun env =>
  let program : Exec Env α := do
    let rc ← mdbOpen
    when (rc ≠ .success) (raise ("mdb_txn_begin: " ++ rc.text))
    let a ← body
    let rc ← mdbOpen
    when (rc ≠ .success) (raise ("mdb_txn_commit: " ++ rc.text))
    pure a
  match program env with
  | .throw e txn => .throw e { env with failures := txn.failures }
  | outcome => outcome

namespace Mdb

variable {K V : Type} [MdbSerialize K] [MdbSerialize V] (m : Mdb)

/-- `add (key, value)`. -/
def add (key : K) (value : V) : Exec Env Unit := inTransaction (m.addTxn key value)

/-- `eraseKV (key, value)`. -/
def eraseKV (key : K) (value : V) : Exec Env Bool := inTransaction (m.eraseKVTxn key value)

/-- `erase (key)`. -/
def erase (key : K) : Exec Env Bool := inTransaction (m.eraseTxn key)

/-- The operations that change the database. -/
inductive Op (K V : Type) where
  | add (key : K) (value : V)
  | eraseKV (key : K) (value : V)
  | erase (key : K)

/-- An operation. -/
def exec : Op K V → Exec Env Unit
  | .add key value => m.add key value
  | .eraseKV key value => do
    let _ ← m.eraseKV key value
    pure ()
  | .erase key => do
    let _ ← m.erase key
    pure ()

end Mdb

end Glim
