import Glim.Machine.Exec
import Glim.Text.Word

/-!
# The serializable pool

A pool is a byte string of fields that are read in place, and the changes that were made
to it, which are kept apart until the pool is serialized. A byte string is the contents of
a gstring here. Reading outside of it, a failed assertion and a signed overflow are `none`.

## Main definitions

* `Pool.original`, `Pool.poolSize`: reading a pool
* `Impl`, `Impl.set`: a pool and its changes
* `Impl.write`, `Impl.toBytes`, `Impl.toBytesDelta`: serializing
-/

namespace Glim.Pool

open Machine Exec Text

/-! ## Reading -/

/-- `(int) a - (int) b < 4` -/
def lessThan4 (a b : UInt32) : Option Bool :=
  let diff := a.toInt32.toInt - b.toInt32.toInt
  if -2 ^ 31 ≤ diff ∧ diff < 2 ^ 31 then some (diff < 4) else none

/-- `gstring (0, pool.data() + off, false, len, ref)`: a string of `len` modulo `2 ^ 24` bytes. -/
def viewAt (pool : List UInt8) (off len : UInt32) : Option (List UInt8) :=
  let count := len.toNat % 2 ^ 24
  if off.toNat + count ≤ pool.length then some ((pool.drop off.toNat).take count) else none

/-- `original (pool, num)`: the field in the pool, empty if there is none. -/
def original (pool : List UInt8) (num : UInt32) : Option (List UInt8) := do
  let poolLength := UInt32.ofNat pool.length
  if poolLength < 4 then some []
  else do
    let valuesStart ← wordAt pool 0
    guard (valuesStart ≤ poolLength)
    let valueOffsetOffset := 4 + num * 4
    if ← lessThan4 valuesStart valueOffsetOffset then some []
    else do
      let valueOffset ← wordAt pool valueOffsetOffset.toNat
      let valueOffsetOffset := valueOffsetOffset + 4
      let last ← lessThan4 valuesStart valueOffsetOffset
      let nextValueOffset ← if last then some poolLength else wordAt pool valueOffsetOffset.toNat
      viewAt pool valueOffset (nextValueOffset - 1 - valueOffset)

/-- `poolSize (pool)`: how many fields are in the pool. -/
def poolSize (pool : List UInt8) : Option UInt32 := do
  if pool.length < 4 then some 0
  else do
    let valuesStart ← wordAt pool 0
    some ((valuesStart - 4) / 4)

/-! ## Changes -/

/-- The pool, and the changes made to it. -/
structure Impl where
  pool : List UInt8 := []
  changes : List (List UInt8) := []
  changed : List Bool := []
  readOnly : Bool := false
  deriving DecidableEq, Repr

/-- `vector::resize (size)`. -/
def resize {α : Type} (size : ℕ) (d : α) (l : List α) : List α :=
  l.take size ++ List.replicate (size - l.length) d

/-- A field, its old and its new value, as a `ChangeVisitor` gets them. -/
structure Visit where
  num : UInt32
  fromValue : List UInt8
  toValue : List UInt8
  deriving DecidableEq, Repr

namespace Impl

/-- `Impl (poolBytes)`. -/
def ofBytes (poolBytes : List UInt8) : Impl := { pool := poolBytes }

/-- `num < changed.size() && changed[num]` -/
def isChanged (impl : Impl) (num : ℕ) : Bool := impl.changed.getD num false

/-- `set (num, value)`. -/
def set (num : UInt32) (value : List UInt8) : Exec Impl Unit := do
  let impl ← get
  when impl.readOnly (raise "Attempt to modify a read-only SerializablePool")
  when (impl.changed.length ≤ num.toNat) (modify fun impl => { impl with
    changed := resize (num + 1).toNat false impl.changed
    changes := resize (num + 1).toNat [] impl.changes })
  let impl ← get
  if num.toNat < impl.changed.length then
    modify fun impl => { impl with
      changed := impl.changed.set num.toNat true
      changes := impl.changes.set num.toNat value }
  else fail .outOfBounds

/-- `current (num)`: the field with the changes. -/
def current (impl : Impl) (num : UInt32) : Option (List UInt8) :=
  if impl.isChanged num.toNat then impl.changes[num.toNat]? else original impl.pool num

/-- `size()`. -/
def size (impl : Impl) : Option UInt32 := do
  let stored ← poolSize impl.pool
  some (max stored (UInt32.ofNat impl.changed.length))

/-! ## Serializing -/

/-- One round of the loop of `toBytes` over the fields: the value and its zero are appended, and
its offset is written into the table. -/
def writeField (impl : Impl) (oldPool : List UInt8) (valuesStart : UInt32)
    (newPool : List UInt8) (num : ℕ) : Option (List UInt8) := do
  let start := UInt32.ofNat newPool.length
  let value ← if impl.isChanged num then impl.changes[num]?
    else original oldPool (UInt32.ofNat num)
  let newPool := newPool ++ value ++ [0]
  let valuesOffsetOffset := 4 + UInt32.ofNat num * 4
  guard (valuesOffsetOffset < valuesStart)
  putWord newPool valuesOffsetOffset.toNat start

/-- The protected `toBytes (newPool, size, oldPool)`. -/
def write (impl : Impl) (size : UInt32) (oldPool : Option (List UInt8)) : Option (List UInt8) :=
  if impl.changed = [] then some []
  else
    let valuesStart := 4 + size * 4
    let header := word valuesStart ++ (List.replicate size.toNat (0 : UInt32)).flatMap word
    (List.range size.toNat).foldlM (impl.writeField (oldPool.getD impl.pool) valuesStart) header

/-- The changed fields among `nums` that differ from `pool`: all of them, or the first one. -/
def findChanges (impl : Impl) (pool : List UInt8) (all : Bool) : List ℕ → Option (List Visit)
  | [] => some []
  | num :: nums =>
    if impl.isChanged num then do
      let fromValue ← original pool (UInt32.ofNat num)
      let toValue ← impl.changes[num]?
      if fromValue ≠ toValue then
        let rest ← if all then impl.findChanges pool all nums else some []
        some (⟨UInt32.ofNat num, fromValue, toValue⟩ :: rest)
      else impl.findChanges pool all nums
    else impl.findChanges pool all nums

/-- `toBytes (newPool, changeVisitor)`: the visits, if there is a visitor, and `newPool`. -/
def toBytes (impl : Impl) (visiting : Bool) : Option (List Visit × List UInt8) := do
  let visits ← if visiting then
      impl.findChanges impl.pool true (List.range impl.changed.length)
    else some []
  let newPool ← impl.write (UInt32.ofNat impl.changed.length) none
  some (visits, newPool)

/-- `toBytesDelta (newPool, oldPool, changeVisitor)`: the visits, the result and `newPool`. -/
def toBytesDelta (impl : Impl) (oldPool : List UInt8) (visiting : Bool) :
    Option (List Visit × Bool × List UInt8) := do
  let found ← impl.findChanges oldPool visiting (List.range impl.changed.length)
  let visits := if visiting then found else []
  if found = [] then some (visits, false, [])
  else do
    let stored ← poolSize oldPool
    let newPool ← impl.write (max (UInt32.ofNat impl.changed.length) stored) (some oldPool)
    some (visits, true, newPool)

/-- Several calls of `set`. -/
def setAll : List (UInt32 × List UInt8) → Exec Impl Unit
  | [] => pure ()
  | s :: sets => do
    set s.1 s.2
    setAll sets

end Impl

end Glim.Pool
