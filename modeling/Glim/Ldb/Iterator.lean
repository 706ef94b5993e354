import Glim.Ldb.Basic
import Glim.Table.Tour

/-!
# Iterators

A LevelDB iterator sees the database as of its creation, and stands on one of its records or on
none. The iterators of the wrapper keep next to it whether they stand on a record of theirs; a
copy of an iterator shares both. Undefined behaviour is `none`.

## Main definitions

* `Lit`: a LevelDB iterator
* `IteratorEntry`: an iterator over the whole database, and `Ldb.range`
* `StartsWithIterator`: an iterator over the keys with a prefix, and `Ldb.startsWith`
-/

namespace Glim

open Text Table

/-! ## LevelDB iterators -/

/-- A LevelDB iterator: the database that it sees, and the key of its record. -/
structure Lit where
  snapshot : Database
  pos : Option (List UInt8) := none
  isPos : Tour.IsPos snapshot.keys pos

namespace Lit

/-- `NewIterator ()`. -/
def newIterator (db : Database) : Lit := ⟨db, none, Tour.isPos_none⟩

/-- `Valid ()`. -/
def valid (lit : Lit) : Bool := lit.pos.isSome

/-- `SeekToFirst ()`. -/
def seekToFirst (lit : Lit) : Lit :=
  { lit with
    pos := lit.snapshot.keys.head?
    isPos := fun _ h => List.mem_of_head? h }

/-- `SeekToLast ()`. -/
def seekToLast (lit : Lit) : Lit :=
  { lit with
    pos := lit.snapshot.keys.getLast?
    isPos := fun _ h => List.mem_of_getLast? h }

/-- `Seek (target)`: the first key that is not less. -/
def seek (target : List UInt8) (lit : Lit) : Lit :=
  { lit with
    pos := lit.snapshot.keys.find? (target ≤ ·)
    isPos := fun _ h => List.mem_of_find?_eq_some h }

/-- `Next ()`, for a valid iterator. -/
def next (lit : Lit) : Option Lit :=
  if lit.valid then
    some { lit with
      pos := Tour.next lit.snapshot.keys lit.pos
      isPos := Tour.isPos_next }
  else none

/-- `Prev ()`, for a valid iterator. -/
def prev (lit : Lit) : Option Lit :=
  if lit.valid then
    some { lit with
      pos := Tour.next lit.snapshot.keys.reverse lit.pos
      isPos := fun k h => List.mem_reverse.mp (Tour.isPos_next k h) }
  else none

variable {lit : Lit} {k : List UInt8} {db : Database}

theorem pos_seek (h : lit.snapshot = db) (target : List UInt8) :
    (lit.seek target).pos = db.keys.find? (target ≤ ·) := by
  subst h
  rfl

theorem pos_seekToLast (h : lit.snapshot = db) : lit.seekToLast.pos = db.keys.reverse.head? := by
  subst h
  exact List.head?_reverse.symm

/-- `Next ()` goes to the next key, or behind the last one. -/
theorem next_eq (h : lit.pos = some k) : ∃ lit', lit.next = some lit' ∧
    lit'.snapshot = lit.snapshot ∧ lit'.pos = Tour.next lit.snapshot.keys (some k) := by
  rw [← h]
  exact ⟨_, if_pos (by rw [valid, h]; rfl), rfl, rfl⟩

/-- `Prev ()` goes to the key before, or in front of the first one. -/
theorem prev_eq (h : lit.pos = some k) : ∃ lit', lit.prev = some lit' ∧
    lit'.snapshot = lit.snapshot ∧ lit'.pos = Tour.next lit.snapshot.keys.reverse (some k) := by
  rw [← h]
  exact ⟨_, if_pos (by rw [valid, h]; rfl), rfl, rfl⟩

end Lit

/-! ## Iterators over the database -/

/-- The entry of an iterator: `_lit` and `_valid`. -/
structure IteratorEntry where
  lit : Lit
  valid : Bool := false

namespace IteratorEntry

/-- `end ()`. -/
def atEnd (entry : IteratorEntry) : Bool := !entry.valid

/-- The key of the record that the iterator stands on, if it stands on one. -/
def position (entry : IteratorEntry) : Option (List UInt8) :=
  if entry.valid then entry.lit.pos else none

/-- `equal (other)`. -/
def equal (entry other : IteratorEntry) : Bool :=
  if !entry.valid then !other.valid
  else if !other.valid then false
  else entry.lit.pos = other.lit.pos

/-- `increment ()`. -/
def increment (entry : IteratorEntry) : Option IteratorEntry := do
  let lit ← if entry.valid then entry.lit.next else some entry.lit.seekToFirst
  some ⟨lit, lit.valid⟩

/-- `decrement ()`. -/
def decrement (entry : IteratorEntry) : Option IteratorEntry := do
  let lit ← if entry.valid then entry.lit.prev else some entry.lit.seekToLast
  some ⟨lit, lit.valid⟩

/-- `seek (key)`. -/
def seek (key : List UInt8) (entry : IteratorEntry) : IteratorEntry :=
  let lit := entry.lit.seek key
  ⟨lit, lit.valid⟩

end IteratorEntry

/-- `range (from, till)`: two iterators, which see the database at their creation. -/
def Ldb.range (first second : Database) (fromKey till : Datum) : IteratorEntry × IteratorEntry :=
  let kbytes := ldbSerialize [] fromKey
  let fit := IteratorEntry.seek kbytes ⟨Lit.newIterator first, false⟩
  let kbytes := ldbSerialize [] till
  let tit := IteratorEntry.seek kbytes ⟨Lit.newIterator second, false⟩
  (fit, tit)

/-! ## Iterators over the keys with a prefix -/

/-- `CHAR_MAX`, for a signed or an unsigned `char`. -/
def charMax (signed : Bool) : UInt8 := if signed then 127 else 255

/-- `<` of two `char`s. -/
def charLess (signed : Bool) (a b : UInt8) : Bool :=
  if signed then a.toInt8 < b.toInt8 else a < b

/-- An iterator over the keys that start with `_starts`. -/
structure StartsWithIterator where
  entry : IteratorEntry
  starts : List UInt8

namespace StartsWithIterator

/-- `checkValidity ()`. -/
def checkValidity (starts : List UInt8) (lit : Lit) : Bool :=
  match lit.pos with
  | some key => starts.isPrefixOf key
  | none => false

/-- `while (--pos >= 0) if (after[pos] < CHAR_MAX) {++after[pos]; break;}` -/
def carry (signed : Bool) (after : List UInt8) : ℕ → Option (List UInt8)
  -- `pos` is unsigned: it wraps around, and `after[pos]` is outside of `after`
  | 0 => none
  | pos + 1 => do
    let c ← after[pos]?
    if charLess signed c (charMax signed) then some (after.set pos (c + 1))
    else carry signed after pos

/-- The loop of `seekLast` that goes back until it is in the prefix. -/
def seekBack (starts : List UInt8) : ℕ → Lit → Option Lit
  | 0, _ => none
  | fuel + 1, lit =>
    match lit.pos with
    | none => some lit
    | some key =>
      if starts.isPrefixOf key then some lit
      else if key < starts then some lit
      else do seekBack starts fuel (← lit.prev)

/-- `seekLast ()`. -/
def seekLast (signed : Bool) (starts : List UInt8) (lit : Lit) : Option Lit := do
  let lit ← if starts ≠ [] then do
      let after ← carry signed starts starts.length
      let lit := lit.seek after
      some (if lit.valid then lit else lit.seekToLast)
    else some lit.seekToLast
  seekBack starts (lit.snapshot.keys.length + 1) lit

/-- `increment ()`. -/
def increment (it : StartsWithIterator) : Option StartsWithIterator := do
  let lit ← if it.entry.valid then it.entry.lit.next else some (it.entry.lit.seek it.starts)
  some { it with entry := ⟨lit, checkValidity it.starts lit⟩ }

/-- `decrement ()`. -/
def decrement (signed : Bool) (it : StartsWithIterator) : Option StartsWithIterator := do
  let lit ← if it.entry.valid then it.entry.lit.prev else seekLast signed it.starts it.entry.lit
  some { it with entry := ⟨lit, checkValidity it.starts lit⟩ }

end StartsWithIterator

/-- `startsWith (key)`: the first entry, and the end. -/
def Ldb.startsWith (db : Database) (key : Datum) : StartsWithIterator × StartsWithIterator :=
  let kbytes := ldbSerialize [] key
  let lit := (Lit.newIterator db).seek kbytes
  (⟨⟨lit, StartsWithIterator.checkValidity kbytes lit⟩, kbytes⟩,
    ⟨⟨Lit.newIterator db, false⟩, kbytes⟩)

end Glim
