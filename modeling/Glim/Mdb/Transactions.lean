import Glim.Machine.Unwind
import Glim.Machine.Ledger
import Mathlib.Data.Int.Notation

/-!
# The transactions and cursors of the LMDB wrapper

Every transaction is owned: by a `Transaction`, a local `unique_ptr` which aborts it, or by the
`IteratorImpl` that the copies of an `Iterator` share, which commits it when the last of them is
destroyed. The same holds for cursors. LMDB is reduced to the return codes of its calls, any of
which may be a failure, and to a ledger of what was begun, ended, opened and closed. The
transactions of all databases are in one ledger.

## Main definitions

* `World`: LMDB, its ledger, the owners of the calls in progress, and the iterators
* `beginTransaction`, `commitTransaction`, `withTransaction`: transactions and their local owners
* `add`, `first`, `all`, `eraseKV`, `erase`: the operations, each in a transaction of its own
* `SimpleIndexTrigger`: a trigger that opens a cursor in the transaction of the operation
* `iterator`, `iteratorAt`, `copyIterator`, `moveIterator`, `destroyIterator`: iterators
-/

namespace Glim.MdbTransactions

open Machine Unwind

/-- How a transaction is given up: by `mdb_txn_commit`, which may fail, or by `mdb_txn_abort`. -/
inductive TxnEnd where
  | commit (ok : Bool)
  | abort
  deriving DecidableEq, Repr

/-- What happens to transactions and to the cursors in them. -/
abbrev Event := Entry ℕ ℕ TxnEnd

/-- LMDB: what its `n`-th call returns, and the texts of its errors. -/
structure Lmdb where
  rc : ℕ → ℤ
  strerror : ℤ → String

/-- `IteratorImpl`: the transaction and the cursor of an iterator and its copies. -/
structure IteratorImpl where
  txn : ℕ
  cur : ℕ
  deriving DecidableEq, Repr

/-- A local `unique_ptr`: a `Transaction`, which may have been released, or the holder of a cursor
that was opened in a transaction. -/
inductive Local where
  | txn (t : Option ℕ)
  | cursor (cur txn : ℕ)
  deriving DecidableEq, Repr

/-- The state of the program. The local objects of the calls in progress are a stack; the shared
pointer of an iterator is null for an end iterator, and after it was moved from or destroyed. -/
structure World where
  lmdb : Lmdb
  calls : ℕ := 0
  log : List Event := []
  txns : ℕ := 0
  cursors : ℕ := 0
  locals : List Local := []
  iters : List (Option IteratorImpl) := []

/-- A program. -/
abbrev Act := Unwind World

def MDB_NOTFOUND : ℤ := -30798
def MDB_RDONLY : ℕ := 0x20000
def MDB_FIRST : ℕ := 0
def MDB_LAST : ℕ := 6

/-! ## LMDB -/

/-- A call of LMDB: its return code. -/
def mdbCall : Act ℤ := fun w => (.value (w.lmdb.rc w.calls), { w with calls := w.calls + 1 })

def record (e : Event) : Act Unit := modify fun w => { w with log := e :: w.log }

/-- `if (rc) throw MdbEx (message + strerror (rc))`. -/
def raiseIf (message : String) (rc : ℤ) : Act Unit := do
  let w ← get
  when (rc ≠ 0) (raise (message ++ w.lmdb.strerror rc))

/-- The transaction that `mdb_txn_begin` has begun. -/
def newTxn : Act ℕ := do
  let w ← get
  modify fun w => { w with log := .acquire w.txns :: w.log, txns := w.txns + 1 }
  pure w.txns

/-- The cursor that `mdb_cursor_open` has opened. -/
def newCursor (txn : ℕ) : Act ℕ := do
  let w ← get
  modify fun w => { w with log := .attach w.cursors txn :: w.log, cursors := w.cursors + 1 }
  pure w.cursors

/-! ## Local owners -/

def push (l : Local) : Act Unit := modify fun w => { w with locals := l :: w.locals }

/-- `txn.release ()` on the innermost `Transaction`. -/
def releaseLocal : Act Unit := modify fun w =>
  match w.locals with
  | .txn _ :: ls => { w with locals := .txn none :: ls }
  | _ => w

/-- The destructor of the innermost local object. -/
def destroyLocal : Act Unit := do
  let w ← get
  modify fun w => { w with locals := w.locals.tail }
  match w.locals.head? with
  | some (.txn (some t)) => record (.release t .abort)
  | some (.cursor cur _) => record (.detach cur)
  | _ => pure ()

/-- A block with a local object. -/
def withLocal {α : Type} (l : Local) (body : Act α) : Act α := do
  push l
  scope body destroyLocal

/-! ## Transactions -/

/-- `beginTransaction (flags)`. -/
def beginTransaction (_flags : ℕ) : Act ℕ := do
  let rc ← mdbCall
  raiseIf "mdb_txn_begin: " rc
  newTxn

/-- `commitTransaction (txn)`, where `release` is `txn.release ()`: it must prevent `mdb_txn_abort`
from happening, even if `rc != 0`. -/
def commitTransaction (txn : ℕ) (release : Act Unit) : Act Unit := do
  let rc ← mdbCall
  record (.release txn (.commit (rc = 0)))
  release
  raiseIf "mdb_txn_commit: " rc

/-- The operations without a `txn` argument: the operation in a transaction of its own. -/
def withTransaction {α : Type} (flags : ℕ) (inner : ℕ → Act α) : Act α := do
  let txn ← beginTransaction flags
  withLocal (.txn (some txn)) do
    let r ← inner txn
    commitTransaction txn releaseLocal
    pure r

/-! ## The operations -/

/-- A trigger, which gets the bytes of the key and the value, and the transaction. -/
structure Trigger where
  add : List UInt8 → List UInt8 → ℕ → Act Unit
  erase : List UInt8 → ℕ → Act Unit
  eraseKV : List UInt8 → List UInt8 → ℕ → Act Unit

/-- `for (auto& trigger: _triggers)`. -/
def runTriggers (run : Trigger → Act Unit) : List Trigger → Act Unit
  | [] => pure ()
  | trigger :: triggers => do
    run trigger
    runTriggers run triggers

section Operations

-- `key` and `value` are `mdbSerialize`, `deserialize` is `mdbDeserialize`
variable (triggers : List Trigger) (key value : Act (List UInt8)) (deserialize : Act Unit)
  (visitor : Act Bool)

def addTxn (txn : ℕ) : Act Unit := do
  let kbytes ← key
  let vbytes ← value
  runTriggers (fun trigger => trigger.add kbytes vbytes txn) triggers
  let rc ← mdbCall -- `mdb_put`
  raiseIf "mdb_put: " rc

def add : Act Unit := withTransaction 0 (addTxn triggers key value)

def firstTxn (_txn : ℕ) : Act Bool := do
  let _ ← key
  let rc ← mdbCall -- `mdb_get`
  if rc = MDB_NOTFOUND then pure false
  else do
    raiseIf "mdb_get: " rc
    deserialize
    pure true

def first : Act Bool := withTransaction MDB_RDONLY (firstTxn key deserialize)

/-- `while (goOn)`, when `left` values are behind the current one. -/
def visitRest : ℕ → ℕ → Act ℕ
  -- behind the last value `mdb_cursor_get` does not succeed
  | 0, count => do
    let rc ← mdbCall
    raiseIf "mdb_cursor_get: " (if rc = MDB_NOTFOUND then 0 else rc)
    pure count
  | left + 1, count => do
    let rc ← mdbCall -- `mdb_cursor_get (.., MDB_NEXT_DUP)`
    if rc = MDB_NOTFOUND then pure count
    else do
      raiseIf "mdb_cursor_get: " rc
      deserialize
      let goOn ← visitor
      if goOn then visitRest left (count + 1) else pure (count + 1)

/-- `all (key, visitor, txn)`, when the key has at most `values + 1` values. -/
def allTxn (values txn : ℕ) : Act ℕ := do
  let _ ← key
  let rc ← mdbCall -- `mdb_cursor_open`
  raiseIf "mdb_cursor_open: " rc
  let cur ← newCursor txn
  withLocal (.cursor cur txn) do
    let rc ← mdbCall -- `mdb_cursor_get (.., MDB_SET_KEY)`
    if rc = MDB_NOTFOUND then pure 0
    else do
      raiseIf "mdb_cursor_get: " rc
      deserialize
      let goOn ← visitor
      if goOn then visitRest deserialize visitor values 1 else pure 1

def all (values : ℕ) : Act ℕ := withTransaction MDB_RDONLY (allTxn key deserialize visitor values)

/-- What `mdb_del` has returned. -/
def erased (rc : ℤ) : Act Bool :=
  if rc = MDB_NOTFOUND then pure false
  else do
    raiseIf "mdb_del: " rc
    pure true

def eraseKVTxn (txn : ℕ) : Act Bool := do
  let kbytes ← key
  when (kbytes = []) (raise "eraseKV: key is empty")
  let vbytes ← value
  runTriggers (fun trigger => trigger.eraseKV kbytes vbytes txn) triggers
  let rc ← mdbCall -- `mdb_del`
  erased rc

def eraseKV : Act Bool := withTransaction 0 (eraseKVTxn triggers key value)

def eraseTxn (txn : ℕ) : Act Bool := do
  let kbytes ← key
  when (kbytes = []) (raise "erase: key is empty")
  runTriggers (fun trigger => trigger.erase kbytes txn) triggers
  let rc ← mdbCall -- `mdb_del`
  erased rc

def erase : Act Bool := withTransaction 0 (eraseTxn triggers key)

end Operations

/-! ## The trigger of an index -/

namespace SimpleIndexTrigger

def add : Act Unit := do
  let rc ← mdbCall -- `mdb_put`
  raiseIf "index, mdb_put: " rc

/-- `if (rc && rc != MDB_NOTFOUND) throw MdbEx (..)`. -/
def raiseUnlessNotFound (message : String) (rc : ℤ) : Act Unit :=
  raiseIf message (if rc = MDB_NOTFOUND then 0 else rc)

/-- `for (;;)`, when `left` values are behind the current one. -/
def eraseRest : ℕ → Act Unit
  -- behind the last value `mdb_cursor_get` does not succeed
  | 0 => do
    let rc ← mdbCall
    raiseUnlessNotFound "index, erase, mdb_cursor_get: " rc
  | left + 1 => do
    let rc ← mdbCall -- `mdb_cursor_get (.., MDB_NEXT_DUP)`
    if rc = MDB_NOTFOUND then pure ()
    else do
      raiseIf "index, erase, mdb_cursor_get: " rc
      let rc ← mdbCall -- `mdb_del`
      raiseUnlessNotFound "index, erase, mdb_del: " rc
      eraseRest left

/-- `erase`, when the key has at most `values + 1` values. -/
def erase (values txn : ℕ) : Act Unit := do
  let rc ← mdbCall -- `mdb_cursor_open`
  raiseIf "index, erase, mdb_cursor_open: " rc
  let cur ← newCursor txn
  withLocal (.cursor cur txn) do
    let rc ← mdbCall -- `mdb_cursor_get (.., MDB_SET_KEY)`
    if rc = MDB_NOTFOUND then pure ()
    else do
      raiseIf "index, erase, mdb_cursor_get: " rc
      let rc ← mdbCall -- `mdb_del`
      raiseUnlessNotFound "index, erase, mdb_del: " rc
      eraseRest values

def eraseKV : Act Unit := do
  let rc ← mdbCall -- `mdb_del`
  raiseUnlessNotFound "index, mdb_del: " rc

def trigger (values : ℕ) : Trigger where
  add _ _ _ := add
  erase _ txn := erase values txn
  eraseKV _ _ _ := eraseKV

end SimpleIndexTrigger

/-! ## Iterators -/

/-- `~IteratorImpl ()`, which no exception may leave. -/
def IteratorImpl.destroy (impl : IteratorImpl) : Act Unit := noexcept do
  record (.detach impl.cur)
  commitTransaction impl.txn (pure ())

/-- `~Iterator ()`: the last iterator that shares an `IteratorImpl` destroys it. -/
def destroyIterator (n : ℕ) : Act Unit := do
  let w ← get
  match (w.iters[n]?).join with
  | some impl => do
    modify fun w => { w with iters := w.iters.set n none }
    when (some impl ∉ w.iters.set n none) impl.destroy
  | none => pure ()

/-- A constructor of `Iterator`: its members are destroyed if it throws. -/
def construct (body : ℕ → Act Unit) : Act ℕ := do
  let w ← get
  modify fun w => { w with iters := w.iters ++ [none] }
  onThrow (body w.iters.length) (destroyIterator w.iters.length)
  pure w.iters.length

/-- `_impl = std::make_shared<IteratorImpl> (mdb, std::move (txn), cur)`. -/
def makeImpl (n txn cur : ℕ) : Act Unit := do
  releaseLocal
  modify fun w => { w with iters := w.iters.set n (some ⟨txn, cur⟩) }

/-- An iterator with a transaction and a cursor, which is moved to its position. -/
def openIterator (position : Act Unit) : Act ℕ := construct fun n => do
  let txn ← beginTransaction 0
  withLocal (.txn (some txn)) do
    let rc ← mdbCall
    when (rc ≠ 0) (raise "mdb_cursor_open")
    let cur ← newCursor txn
    makeImpl n txn cur
    position

/-- `Iterator (mdb, position)`. -/
def iterator (position : ℕ) : Act ℕ := openIterator do
  when (position = MDB_FIRST ∨ position = MDB_LAST) do
    let rc ← mdbCall -- `mdb_cursor_get`
    when (rc ≠ 0) (raise "mdb_cursor_get")

/-- `Iterator (mdb, key, stayInKey)`. -/
def iteratorAt : Act ℕ := openIterator do
  let rc ← mdbCall -- `mdb_cursor_get (.., MDB_SET_KEY)`
  when (rc ≠ MDB_NOTFOUND ∧ rc ≠ 0) (raise "mdb_cursor_get")

/-- `Iterator (EndIteratorFlag)`. -/
def endIterator : Act ℕ := construct fun _ => pure ()

/-- `Iterator (const Iterator&)`. -/
def copyIterator (n : ℕ) : Act Unit := modify fun w =>
  { w with iters := w.iters ++ [(w.iters[n]?).join] }

/-- `Iterator (Iterator&&)`. -/
def moveIterator (n : ℕ) : Act Unit := modify fun w =>
  { w with iters := w.iters.set n none ++ [(w.iters[n]?).join] }

end Glim.MdbTransactions
