import Glim.Mdb.Iteration
import Glim.Table.Ring
import Glim.Thread.Steps

/-!
# Copies of an iterator over an LMDB database

The copies of an `Iterator` share the cursor, but each of them has an entry of its own. What a copy
stands on is what it has read itself, and what it reads next is next to what was read last by any of
them: to each of them it looks as if records were left out, but together they read record after
record. What a cursor does that was moved past the records is left open here.

## Main definitions

* `Iterator.decrement`: going back
* `Copies`, `Copies.step`: programs with the copies of an iterator
* `Numbers`, `Numbers.step`: the numbers of the records that such a program reads

## Main results

* `copies_read_in_turn`: what the copies stand on in a program
-/

namespace Glim.MdbIteration

open Machine Exec Table Thread

/-! ## Going back -/

/-- `mdb_cursor_get (cur, &key, &val, op)`, where `op` is `MDB_PREV_DUP` or `MDB_PREV`. -/
def LmdbDatabase.cursorPrev (db : LmdbDatabase) (dup : Bool) : Exec Cursor (Except Rc Record) :=
  fun cur =>
    let prev := Tour.next db.records.reverse cur
    match if dup then prev.filter fun r => ∀ c ∈ cur, db.cmp c.1 r.1 = .eq else prev with
    | some r => .ok (.ok r) (some r)
    | none => .ok (.error .notFound) cur

/-- `decrement`. -/
def Iterator.decrement (db : LmdbDatabase) (it : Iterator) : Exec Cursor Iterator :=
  if it.impl = false then fail .nullPointer
  else do
    match ← db.cursorPrev it.stayInKey with
    | .ok r => pure { it with entry := r }
    | .error _ => pure { it with entry := ([], []) }

/-! ## Programs -/

/-- The cursor in the `_impl` of an iterator and its copies, and these. -/
structure Copies (ι : Type) where
  cursor : Cursor
  its : ι → Option Iterator

/-- What a program does with the copies. -/
inductive Copies.Label (ι : Type) where
  | copy (t u : ι)
  | increment (t : ι)
  | decrement (t : ι)
  /-- Another copy keeps the `_impl`. -/
  | destroy (t : ι)
  deriving DecidableEq, Repr

namespace Copies

variable {ι : Type} [DecidableEq ι]

/-- The iterator is moved by a method. -/
def move (method : Iterator → Exec Cursor Iterator) (t : ι) (s : Copies ι) : Option (Copies ι) := do
  let it ← s.its t
  match method it s.cursor with
  | .ok it cursor => some ⟨cursor, Function.update s.its t (some it)⟩
  | _ => none

/-- The steps; undefined behaviour is `none`. -/
def step (db : LmdbDatabase) : Label ι → Copies ι → Option (Copies ι)
  | .copy t u, s => (s.its t).map fun it => { s with its := Function.update s.its u (some it) }
  | .increment t, s => s.move (Iterator.increment db) t
  | .decrement t, s => s.move (Iterator.decrement db) t
  | .destroy t, s => some { s with its := Function.update s.its t none }

/-- `Iterator (mdb, position)`. -/
def start (db : LmdbDatabase) (position : CursorOp) (t : ι) : Option (Copies ι) :=
  match Iterator.ofPosition db position none with
  | .ok it cursor => some ⟨cursor, Function.update (fun _ => none) t (some it)⟩
  | _ => none

end Copies

/-- The number of the record that was read last, and of that which each of the copies has read. -/
structure Numbers (ι : Type) where
  last : ℕ
  reads : ι → Option ℕ

namespace Numbers

variable {ι : Type} [DecidableEq ι]

/-- A copy reads a record. -/
def read (t : ι) (i : ℕ) : Numbers ι → Numbers ι
  | ⟨_, reads⟩ => ⟨i, Function.update reads t (some i)⟩

/-- The steps, among `n` records. -/
def step (n : ℕ) : Copies.Label ι → Numbers ι → Option (Numbers ι)
  | .copy t u, a => (a.reads t).map fun i => { a with reads := Function.update a.reads u (some i) }
  | .increment t, a =>
    if (a.reads t).isSome ∧ a.last + 1 < n then some (a.read t (a.last + 1)) else none
  | .decrement t, a =>
    if (a.reads t).isSome ∧ 0 < a.last then some (a.read t (a.last - 1)) else none
  | .destroy t, a => some { a with reads := Function.update a.reads t none }

/-- The first copy has read a record. -/
def start (i : ℕ) (t : ι) : Numbers ι := ⟨i, Function.update (fun _ => none) t (some i)⟩

end Numbers

variable {ι : Type}

/-- An iterator that stands on the record with a number. -/
def iteratorAt (db : LmdbDatabase) (i : ℕ) : Iterator :=
  { impl := true, entry := db.records.getD i ([], []) }

/-- The cursor and the iterators stand on the records with the numbers. -/
structure Reads (db : LmdbDatabase) (s : Copies ι) (a : Numbers ι) : Prop where
  lt : a.last < db.records.length
  cursor : s.cursor = db.records[a.last]?
  its : s.its = Option.map (iteratorAt db) ∘ a.reads

section Reads

variable {db : LmdbDatabase} {s s' : Copies ι} {a a' : Numbers ι} {l : Copies.Label ι} {i : ℕ}
  {t : ι}

theorem pos_natCast (h : i ≤ db.records.length) : Ring.pos db.records i = db.records[i]? := by
  rw [Ring.pos, Ring.index_natCast h]

/-- The record behind another one. -/
theorem next_getElem? (h : i + 1 < db.records.length) :
    Tour.next db.records db.records[i]? = db.records[i + 1]? := by
  rw [← pos_natCast (by omega), Ring.next_pos db.nodup_records, ← pos_natCast h.le]
  rfl

/-- The record before another one. -/
theorem prev_getElem? (hpos : 0 < i) (h : i < db.records.length) :
    Tour.next db.records.reverse db.records[i]? = db.records[i - 1]? := by
  rw [← pos_natCast h.le, Ring.prev_pos db.nodup_records, ← pos_natCast (by omega)]
  congr 1
  omega

/-- What an iterator reads when the cursor goes to a record. -/
theorem iteratorAt_of_getElem? {r : Record} (h : db.records[i]? = some r) :
    iteratorAt db i = { impl := true, entry := r } := by
  rw [iteratorAt, List.getD_eq_getElem?_getD, h]
  rfl

theorem increment_getElem? {j : ℕ} (h : i + 1 < db.records.length) :
    Iterator.increment db (iteratorAt db j) db.records[i]? =
      .ok (iteratorAt db (i + 1)) db.records[i + 1]? := by
  have hr := List.getElem?_eq_getElem h
  have hget : db.cursorGet (iteratorAt db j).entry.1 .next db.records[i]? =
      .ok (.ok db.records[i + 1]) (some db.records[i + 1]) := by
    rw [LmdbDatabase.cursorGet, if_neg (by simp), LmdbDatabase.target, next_getElem? h, hr]
  rw [iteratorAt_of_getElem? hr, hr, Iterator.increment, if_neg (by simp [iteratorAt])]
  exact bind_of_ok hget

theorem decrement_getElem? {j : ℕ} (hpos : 0 < i) (h : i < db.records.length) :
    Iterator.decrement db (iteratorAt db j) db.records[i]? =
      .ok (iteratorAt db (i - 1)) db.records[i - 1]? := by
  have hlt : i - 1 < db.records.length := by omega
  have hr := List.getElem?_eq_getElem hlt
  have hget : db.cursorPrev false db.records[i]? =
      .ok (.ok db.records[i - 1]) (some db.records[i - 1]) := by
    rw [LmdbDatabase.cursorPrev, prev_getElem? hpos h, hr]
    rfl
  rw [iteratorAt_of_getElem? hr, hr, Iterator.decrement, if_neg (by simp [iteratorAt])]
  exact bind_of_ok hget

variable [DecidableEq ι]

/-- One of the copies is another, or is no more. -/
theorem Reads.update (h : Reads db s a) (t : ι) (i : Option ℕ) :
    Function.update s.its t (i.map (iteratorAt db)) =
      Option.map (iteratorAt db) ∘ Function.update a.reads t i := by
  rw [Function.comp_update, h.its]

/-- A method that reads the record with a number. -/
theorem Reads.move (h : Reads db s a) {method : Iterator → Exec Cursor Iterator}
    (hsome : (a.reads t).isSome) (hi : i < db.records.length)
    (hmethod : ∀ j, method (iteratorAt db j) db.records[a.last]? =
      .ok (iteratorAt db i) db.records[i]?) :
    ∃ s', s.move method t = some s' ∧ Reads db s' (a.read t i) := by
  obtain ⟨j, hj⟩ := Option.isSome_iff_exists.mp hsome
  refine ⟨⟨db.records[i]?, Function.update s.its t (some (iteratorAt db i))⟩, ?_,
    hi, rfl, h.update t (some i)⟩
  rw [Copies.move, h.its, h.cursor]
  simp only [Function.comp_apply, hj, Option.map_some, Option.bind_eq_bind, Option.bind_some,
    hmethod]

/-- The program does what the numbers say. -/
theorem reads_step (h : Reads db s a) (hx : Numbers.step db.records.length l a = some a') :
    ∃ s', Copies.step db l s = some s' ∧ Reads db s' a' := by
  cases l with
  | copy t u =>
    obtain ⟨i, hi, rfl⟩ := Option.map_eq_some_iff.mp hx
    refine ⟨{ s with its := Function.update s.its u (some (iteratorAt db i)) }, ?_,
      h.lt, h.cursor, h.update u (some i)⟩
    rw [Copies.step, h.its, Function.comp_apply, hi]
    rw [Option.map_some, Option.map_some, ← h.its]
  | increment t =>
    rw [Numbers.step] at hx
    split_ifs at hx with hcond
    obtain rfl := Option.some.inj hx
    exact h.move hcond.1 hcond.2 fun j => increment_getElem? hcond.2
  | decrement t =>
    rw [Numbers.step] at hx
    split_ifs at hx with hcond
    obtain rfl := Option.some.inj hx
    exact h.move hcond.1 (by have := h.lt; omega) fun j => decrement_getElem? hcond.2 h.lt
  | destroy t =>
    obtain rfl := Option.some.inj hx
    exact ⟨_, rfl, h.lt, h.cursor, h.update t none⟩

theorem reads_runAll {ls : List (Copies.Label ι)} (h : Reads db s a)
    (hx : runAll (Numbers.step db.records.length) ls a = some a') :
    ∃ s', runAll (Copies.step db) ls s = some s' ∧ Reads db s' a' := by
  induction ls generalizing s a with
  | nil =>
    obtain rfl : a = a' := Option.some.inj hx
    exact ⟨s, rfl, h⟩
  | cons l ls ih =>
    obtain ⟨a₁, hx₁, hx⟩ := Option.bind_eq_some_iff.mp hx
    obtain ⟨s₁, hs₁, h₁⟩ := reads_step h hx₁
    obtain ⟨s', hs', h'⟩ := ih h₁ hx
    exact ⟨s', by rw [runAll, hs₁]; exact hs', h'⟩

/-- The first iterator stands on the record that its cursor was moved to. -/
theorem reads_of_target {position : CursorOp} (hposition : position = .first ∨ position = .last)
    (hi : i < db.records.length) (htarget : db.target [] none position = db.records[i]?) (t : ι) :
    ∃ s, Copies.start db position t = some s ∧ Reads db s (Numbers.start i t) := by
  have hr := List.getElem?_eq_getElem hi
  have hget : db.cursorGet [] position none = .ok (.ok db.records[i]) (some db.records[i]) := by
    have hop : ¬ (position = .setKey ∧ ([] : List UInt8) = []) := by
      rintro ⟨rfl, -⟩
      rcases hposition with h | h <;> cases h
    rw [LmdbDatabase.cursorGet, if_neg hop, htarget, hr]
  have hof : Iterator.ofPosition db position none =
      .ok (iteratorAt db i) (some db.records[i]) := by
    rw [iteratorAt_of_getElem? hr, Iterator.ofPosition]
    rw [bind_of_ok (show Iterator.cursorOpen none = .ok () none from rfl), if_pos hposition]
    exact bind_of_ok hget
  refine ⟨⟨some db.records[i], Function.update (fun _ => none) t (some (iteratorAt db i))⟩, ?_,
    hi, hr.symm, ?_⟩
  · rw [Copies.start, hof]
  · rw [Numbers.start, Function.comp_update]
    rfl

/-- The first iterator stands on the first or on the last record. -/
theorem reads_start (hne : db.records ≠ []) (back : Bool) (t : ι) :
    ∃ s, Copies.start db (if back then .last else .first) t = some s ∧
      Reads db s (Numbers.start (if back then db.records.length - 1 else 0) t) := by
  have hpos := List.length_pos_iff.mpr hne
  cases back with
  | false => exact reads_of_target (Or.inl rfl) hpos List.head?_eq_getElem? t
  | true => exact reads_of_target (Or.inr rfl) (Nat.sub_one_lt hpos.ne') List.getLast?_eq_getElem? t

end Reads

/-- **What the copies of an iterator stand on in a program** that does not move them past the
records: every move reads the record next to the one that was read last by any of the copies, and a
copy stands on the record that it has read itself, or had when it was made. -/
theorem copies_read_in_turn [DecidableEq ι] (db : LmdbDatabase) (hne : db.records ≠ [])
    (back : Bool) (t : ι) (ls : List (Copies.Label ι)) (a : Numbers ι)
    (h : runAll (Numbers.step db.records.length) ls
      (Numbers.start (if back then db.records.length - 1 else 0) t) = some a) :
    ∃ s s', Copies.start db (if back then .last else .first) t = some s ∧
      runAll (Copies.step db) ls s = some s' ∧
      ∀ u, (s'.its u).map Iterator.entry = (a.reads u).map fun i => db.records.getD i ([], []) := by
  obtain ⟨s, hs, hreads⟩ := reads_start hne back t
  obtain ⟨s', hs', hreads'⟩ := reads_runAll hreads h
  refine ⟨s, s', hs, hs', fun u => ?_⟩
  rw [hreads'.its, Function.comp_apply, Option.map_map]
  rfl

/-- Three records. -/
def threeRecords : LmdbDatabase where
  dup := true
  cmp := bytewise
  dcmp := bytewise
  records := [([1], [1]), ([1], [2]), ([2], [1])]
  transCmp := instTransCmpListUInt8Bytewise
  lawfulEqCmp := instLawfulEqCmpListUInt8Bytewise
  lawfulEqDcmp := instLawfulEqCmpListUInt8Bytewise
  sorted := by decide
  key_ne_nil := by decide

/-- An iterator that is incremented after its copy was leaves out the second record. -/
theorem copies_read_in_turn_two : ∃ s s' : Copies ℕ,
    Copies.start threeRecords .first 0 = some s ∧
      runAll (Copies.step threeRecords) [.copy 0 1, .increment 1, .increment 0] s = some s' ∧
      (s'.its 0).map Iterator.entry = some ([2], [1]) ∧
      (s'.its 1).map Iterator.entry = some ([1], [2]) := by
  obtain ⟨s, s', hs, hs', hits⟩ := copies_read_in_turn threeRecords (by decide) false 0
    [.copy 0 1, .increment 1, .increment 0] _ rfl
  exact ⟨s, s', hs, hs', hits 0, hits 1⟩

end Glim.MdbIteration
