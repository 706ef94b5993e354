import Glim.Mdb.Index
import Mathlib.Data.List.TakeWhile

/-!
# Iterating over an LMDB database

An `Iterator` holds a cursor and the entry that the cursor has read last. The end is an entry with
an empty key, and two iterators are equal if the comparators of the database say so for their keys
and their values. A loop owns one cursor, whose position is the state of its program.

## Main definitions

* `LmdbDatabase`: the records of a database in the order of its comparators
* `LmdbDatabase.cursorGet`: a cursor that moves over the records
* `Iterator.ofPosition`, `Iterator.ofKey`, `Iterator.increment`, `Iterator.equal`: iterators
* `rangeFor`, `iterateAll`, `iterateValues`: the loops
* `ofPairs`: the databases that the wrapper opens

## Main results

* `rangeFor_eq`: a loop visits the records from its iterator on
* `visits_iff`: when a loop over a database, or over the values of a key, visits its records once
* `exists_iterateValues`: the loop over the values of a key visits its values
-/

namespace Glim.MdbIteration

open Machine Exec Table

/-- A key and a value, which are also the `IteratorEntry` of an iterator. -/
abbrev Record := List UInt8 × List UInt8

/-- A database of LMDB. It has a comparator of values, for values of one key, only if it was opened
with `MDB_DUPSORT`. -/
structure LmdbDatabase where
  dup : Bool
  cmp : List UInt8 → List UInt8 → Ordering
  dcmp : List UInt8 → List UInt8 → Ordering
  records : List Record
  transCmp : Std.TransCmp cmp
  lawfulEqCmp : Std.LawfulEqCmp cmp
  lawfulEqDcmp : Std.LawfulEqCmp dcmp
  sorted : records.Pairwise fun a b =>
    cmp a.1 b.1 = .lt ∨ dup = true ∧ cmp a.1 b.1 = .eq ∧ dcmp a.2 b.2 = .lt
  key_ne_nil : ∀ r ∈ records, r.1 ≠ []

/-- The record that a cursor stands on, or nowhere before it was moved. -/
abbrev Cursor := Option Record

/-- `MDB_cursor_op`. -/
inductive CursorOp where
  | first
  | last
  | setKey
  | next
  | nextDup
  deriving DecidableEq, Repr

/-! ## The calls of LMDB -/

namespace LmdbDatabase

variable (db : LmdbDatabase)

/-- Where an operation moves a cursor to. -/
def target (key : List UInt8) (cur : Cursor) : CursorOp → Option Record
  | .first => db.records.head?
  | .last => db.records.getLast?
  | .setKey => db.records.find? fun r => db.cmp key r.1 = .eq
  | .next => Tour.next db.records cur
  | .nextDup => (Tour.next db.records cur).filter fun r => ∀ c ∈ cur, db.cmp c.1 r.1 = .eq

/-- `mdb_cursor_get (cur, &key, &val, op)`. -/
def cursorGet (key : List UInt8) (op : CursorOp) : Exec Cursor (Except Rc Record) := fun cur =>
  if op = .setKey ∧ key = [] then .ok (.error badValSize) cur
  else match db.target key cur op with
    | some r => .ok (.ok r) (some r)
    | none => .ok (.error .notFound) cur

/-- `mdb_dcmp (txn, dbi, a, b)`, in a database without `MDB_DUPSORT` a null pointer. -/
def mdbDcmp (a b : List UInt8) : Exec Cursor Ordering :=
  if db.dup then pure (db.dcmp a b) else fail .nullPointer

end LmdbDatabase

/-! ## Iterators -/

/-- `Iterator`. The end iterator has no `_impl`, with the transaction and the cursor. -/
structure Iterator where
  impl : Bool := false
  entry : Record := ([], [])
  stayInKey : Bool := false
  deriving DecidableEq, Repr

namespace Iterator

variable (db : LmdbDatabase)

/-- `mdb_cursor_open`. -/
def cursorOpen : Exec Cursor Unit := modify fun _ => none

/-- `Iterator (mdb, position)`. -/
def ofPosition (position : CursorOp) : Exec Cursor Iterator := do
  cursorOpen
  if position = .first ∨ position = .last then
    match ← db.cursorGet [] position with
    | .ok r => pure { impl := true, entry := r }
    | .error _ => raise "mdb_cursor_get"
  else pure { impl := true }

/-- `Iterator (mdb, key, stayInKey)`. -/
def ofKey (key : List UInt8) (stayInKey : Bool) : Exec Cursor Iterator := do
  cursorOpen
  match ← db.cursorGet key .setKey with
  | .ok r => pure { impl := true, entry := r, stayInKey := stayInKey }
  | .error .notFound => pure { impl := true, entry := ([], []), stayInKey := stayInKey }
  | .error _ => raise "mdb_cursor_get"

/-- `Iterator (EndIteratorFlag)`. -/
def ofEnd : Iterator := {}

/-- `equal`. -/
def equal (it other : Iterator) : Exec Cursor Bool :=
  if it.impl = false then fail .nullPointer
  else if db.cmp it.entry.1 other.entry.1 ≠ .eq then pure false
  else do
    let c ← db.mdbDcmp it.entry.2 other.entry.2
    pure (c = .eq)

/-- `increment`. -/
def increment (it : Iterator) : Exec Cursor Iterator :=
  if it.impl = false then fail .nullPointer
  else do
    match ← db.cursorGet it.entry.1 (if it.stayInKey then .nextDup else .next) with
    | .ok r => pure { it with entry := r }
    | .error _ => pure { it with entry := ([], []) }

end Iterator

section Loops

variable (db : LmdbDatabase) {K : Type} [MdbSerialize K]

/-- `begin ()`. -/
def mdbBegin : Exec Cursor Iterator := Iterator.ofPosition db .first

/-- `end ()`. -/
def mdbEnd : Iterator := Iterator.ofEnd

/-- `values (key)`. -/
def values (key : K) : Exec Cursor Iterator := Iterator.ofKey db (mdbSerialize key) true

/-- `valuesRange (key)`. -/
def valuesRange (key : K) : Exec Cursor (Iterator × Iterator) := do
  let it ← values db key
  pure (it, mdbEnd)

/-- `for (auto&& entry: range)`, from the iterator `it` on: the entries it visits. -/
def rangeFor (last : Iterator) : ℕ → Iterator → Exec Cursor (List Record)
  | 0, _ => fail .diverges
  | fuel + 1, it => do
    let done ← it.equal db last
    if done then pure []
    else do
      let next ← it.increment db
      let entries ← rangeFor last fuel next
      pure (it.entry :: entries)

/-- `for (auto&& entry: mdb)`. -/
def iterateAll (fuel : ℕ) : Exec Cursor (List Record) := do
  let it ← mdbBegin db
  rangeFor db mdbEnd fuel it

/-- `for (auto&& entry: mdb.valuesRange (key))`. -/
def iterateValues (key : K) (fuel : ℕ) : Exec Cursor (List Record) := do
  let range ← valuesRange db key
  rangeFor db range.2 fuel range.1

/-- The loop over the database ends, and visits every record once, in their order. -/
def VisitsAll : Prop := ∃ fuel cur, iterateAll db fuel none = .ok db.records cur

/-- The loop over the values of a key ends, and visits every record of the key once. -/
def VisitsValues (key : K) : Prop :=
  ∃ fuel cur, iterateValues db key fuel none =
    .ok (db.records.filter fun r => r.1 = mdbSerialize key) cur

end Loops

/-! ## The order of the records -/

namespace LmdbDatabase

variable {db : LmdbDatabase} {A B : List Record} {r b : Record} {key : List UInt8}

theorem cmp_eq_iff {k k' : List UInt8} : db.cmp k k' = .eq ↔ k = k' := by
  have := db.lawfulEqCmp
  exact Std.LawfulEqCmp.compare_eq_iff_eq

theorem dcmp_self (v : List UInt8) : db.dcmp v v = .eq := by
  have := db.lawfulEqDcmp
  exact Std.LawfulEqCmp.compare_eq_iff_eq.mpr rfl

/-- A record comes only once. -/
theorem nodup_records (db : LmdbDatabase) : db.records.Nodup := by
  refine db.sorted.imp ?_
  rintro a b hab rfl
  rcases hab with hlt | ⟨-, -, hlt⟩
  · rw [cmp_eq_iff.mpr rfl] at hlt
    cases hlt
  · rw [dcmp_self] at hlt
    cases hlt

/-- Behind a record, the records of its key come first. -/
theorem pairwise_key_of_append (h : db.records = A ++ r :: B) :
    B.Pairwise fun a b => b.1 = r.1 → a.1 = r.1 := by
  have := db.transCmp
  have hsorted := db.sorted
  rw [h, List.pairwise_append, List.pairwise_cons] at hsorted
  obtain ⟨-, ⟨hr, hB⟩, -⟩ := hsorted
  refine hB.imp_of_mem fun {a b} ha _ hab hb => ?_
  -- otherwise the key of `a` is between that of `r` and that of `b`, which is the same
  by_contra hne
  have hlt : db.cmp r.1 a.1 = .lt := (hr a ha).resolve_right fun heq =>
    hne (cmp_eq_iff.mp heq.2.1).symm
  have hlt' : db.cmp a.1 b.1 = .lt := hab.resolve_right fun heq =>
    hne ((cmp_eq_iff.mp heq.2.1).trans hb)
  have htrans := Std.TransCmp.lt_trans hlt hlt'
  rw [hb, cmp_eq_iff.mpr rfl] at htrans
  cases htrans

/-- The records of a key, from the first one on. -/
theorem filter_key_eq (h : db.records = A ++ r :: B) (hA : ∀ a ∈ A, a.1 ≠ r.1) :
    (db.records.filter fun a => a.1 = r.1) = r :: B.takeWhile fun a => a.1 = r.1 := by
  have hnone : (A.filter fun a => a.1 = r.1) = [] :=
    List.filter_eq_nil_iff.mpr fun a ha => by simpa using hA a ha
  have htail := Tour.takeWhile_eq_filter (L := B) (q := fun a => a.1 = r.1)
    ((pairwise_key_of_append h).imp fun hab hb =>
      decide_eq_true (hab (of_decide_eq_true hb)))
  rw [h, List.filter_append, hnone, List.nil_append, List.filter_cons_of_pos (by simp), htail]

end LmdbDatabase

/-! ## The databases of the wrapper -/

section Pairs

variable {db : Pairs} {key : List UInt8}

/-- The comparator that LMDB uses unless the database has another one. -/
def bytewise (a b : List UInt8) : Ordering := compareOfLessAndEq a b

theorem bytewise_eq_lt {a b : List UInt8} : bytewise a b = .lt ↔ a < b := compareOfLessAndEq_eq_lt

theorem bytewise_eq_eq {a b : List UInt8} : bytewise a b = .eq ↔ a = b :=
  compareOfLessAndEq_eq_eq le_refl not_le

instance : Std.TransCmp bytewise :=
  Std.TransOrd.compareOfLessAndEq_of_antisymm_of_trans_of_total_of_not_le le_antisymm le_trans
    le_total not_le

instance : Std.LawfulEqCmp bytewise where
  compare_self := bytewise_eq_eq.mpr rfl
  eq_of_compare := bytewise_eq_eq.mp

/-- The records of a database: the values of one key after those of another. -/
def recordsOf (db : Pairs) : List Record :=
  ((db.image Prod.fst).sort).flatMap fun key => (valuesOf db key).map fun v => (key, v)

theorem mem_recordsOf {r : Record} : r ∈ recordsOf db ↔ r ∈ db := by
  obtain ⟨k, v⟩ := r
  simp only [recordsOf, List.mem_flatMap, Finset.mem_sort, Finset.mem_image, List.mem_map,
    Prod.mk.injEq]
  constructor
  · rintro ⟨_, -, _, hv, rfl, rfl⟩
    exact mem_valuesOf.mp hv
  · intro h
    exact ⟨k, ⟨(k, v), h, rfl⟩, v, mem_valuesOf.mpr h, rfl, rfl⟩

theorem pairwise_sort_lt (s : Finset (List UInt8)) : s.sort.Pairwise (· < ·) :=
  ((s.pairwise_sort (· ≤ ·)).and (s.sort_nodup (· ≤ ·))).imp fun h => lt_of_le_of_ne h.1 h.2

theorem pairwise_recordsOf (db : Pairs) : (recordsOf db).Pairwise fun a b =>
    bytewise a.1 b.1 = .lt ∨ bytewise a.1 b.1 = .eq ∧ bytewise a.2 b.2 = .lt := by
  refine List.pairwise_flatMap.mpr ⟨fun key _ => ?_, ?_⟩
  · -- the values of one key
    refine List.pairwise_map.mpr ((pairwise_sort_lt _).imp fun h => .inr ?_)
    exact ⟨bytewise_eq_eq.mpr rfl, bytewise_eq_lt.mpr h⟩
  · refine (pairwise_sort_lt _).imp fun {k k'} h => ?_
    simp only [List.forall_mem_map]
    exact fun _ _ _ _ => .inl (bytewise_eq_lt.mpr h)

/-- A database that the wrapper opened with `MDB_DUPSORT`. -/
def ofPairs (db : Pairs) (h : ∀ e ∈ db, e.1 ≠ []) : LmdbDatabase where
  dup := true
  cmp := bytewise
  dcmp := bytewise
  records := recordsOf db
  transCmp := inferInstance
  lawfulEqCmp := inferInstance
  lawfulEqDcmp := inferInstance
  sorted := (pairwise_recordsOf db).imp fun h => h.imp_right fun heq => ⟨rfl, heq⟩
  key_ne_nil := fun r hr => h r (mem_recordsOf.mp hr)

/-- The records of a key hold its values. -/
theorem map_snd_recordsOf (db : Pairs) (key : List UInt8) :
    ((recordsOf db).filter fun r => r.1 = key).map Prod.snd = valuesOf db key := by
  have hrecords : ((recordsOf db).filter fun r => r.1 = key).Pairwise fun a b => a.2 < b.2 := by
    refine ((pairwise_recordsOf db).filter _).imp_of_mem fun {a b} ha hb h => ?_
    have hkey : a.1 = b.1 :=
      (of_decide_eq_true (List.mem_filter.mp ha).2).trans
        (of_decide_eq_true (List.mem_filter.mp hb).2).symm
    rcases h with hlt | ⟨-, hlt⟩
    · exact absurd (bytewise_eq_lt.mp hlt) (hkey ▸ lt_irrefl _)
    · exact bytewise_eq_lt.mp hlt
  refine (List.pairwise_map.mpr hrecords).eq_of_mem_iff (pairwise_sort_lt _) fun v => ?_
  simp only [List.mem_map, List.mem_filter, mem_recordsOf, decide_eq_true_eq]
  rw [mem_valuesOf]
  constructor
  · rintro ⟨⟨k, v⟩, ⟨h, rfl⟩, rfl⟩
    exact h
  · exact fun h => ⟨(key, v), ⟨h, rfl⟩, rfl⟩

end Pairs

/-! ## The loops -/

section Loops

variable {db : LmdbDatabase} {K : Type} [MdbSerialize K] {A B : List Record} {r b : Record}
  {cur : Cursor} {it : Iterator} {fuel : ℕ}

theorem equal_end (hdup : db.dup = true) (stay : Bool) :
    Iterator.equal db ⟨true, ([], []), stay⟩ mdbEnd cur = .ok true cur := by
  have hcmp : ¬ db.cmp [] [] ≠ .eq := not_not_intro (LmdbDatabase.cmp_eq_iff.mpr rfl)
  have hdcmp : db.mdbDcmp [] [] = pure .eq := by
    rw [LmdbDatabase.mdbDcmp, if_pos hdup, LmdbDatabase.dcmp_self]
  have hequal : Iterator.equal db ⟨true, ([], []), stay⟩ mdbEnd = pure true := by
    simp only [Iterator.equal, mdbEnd, Iterator.ofEnd, Bool.true_eq_false, if_false, if_neg hcmp,
      hdcmp, pure_bind, decide_true]
  rw [hequal]
  rfl

theorem equal_end_of_ne (h : r.1 ≠ []) (stay : Bool) :
    Iterator.equal db ⟨true, r, stay⟩ mdbEnd cur = .ok false cur := by
  have hcmp : db.cmp r.1 [] ≠ .eq := mt LmdbDatabase.cmp_eq_iff.mp h
  have hequal : Iterator.equal db ⟨true, r, stay⟩ mdbEnd = pure false := by
    simp only [Iterator.equal, mdbEnd, Iterator.ofEnd, Bool.true_eq_false, if_false]
    exact if_pos hcmp
  rw [hequal]
  rfl

/-- Two iterators are found equal only by a comparison of values. -/
theorem dup_of_equal {other : Iterator} {cur' : Cursor}
    (h : it.equal db other cur = .ok true cur') : db.dup = true := by
  by_contra hdup
  have hdcmp : db.mdbDcmp it.entry.2 other.entry.2 = fail .nullPointer := if_neg hdup
  rw [Iterator.equal, hdcmp] at h
  split_ifs at h <;> cases h

/-- Whether an iterator at `r`, which may have to stay in the key, goes on to the record `b`. -/
def reaches (stay : Bool) (r b : Record) : Bool := !stay || decide (b.1 = r.1)

/-- An iterator that has to stay in the key of `r` stays in it. -/
theorem reaches_eq {stay : Bool} (h : reaches stay r b = true) :
    reaches stay b = reaches stay r := by
  funext c
  cases stay with
  | false => rfl
  | true =>
    have hb : b.1 = r.1 := of_decide_eq_true h
    rw [reaches, reaches, hb]

/-- The record that an iterator goes on to. -/
theorem target_of_append (h : db.records = A ++ r :: B) (stay : Bool) :
    db.target r.1 (some r) (if stay then .nextDup else .next) =
      B.head?.filter (reaches stay r) := by
  have hr : r ∉ A := by
    have hnodup := db.nodup_records
    rw [h, List.nodup_append] at hnodup
    exact fun hin => hnodup.2.2 r hin r List.mem_cons_self rfl
  have hnext : Tour.next db.records (some r) = B.head? := by rw [h, Tour.next_append hr]
  cases stay with
  | false =>
    show Tour.next db.records (some r) = _
    rw [hnext]
    cases B.head? <;> rfl
  | true =>
    show (Tour.next db.records (some r)).filter _ = _
    rw [hnext]
    congr 1
    funext b
    refine decide_eq_decide.mpr ⟨fun h => (LmdbDatabase.cmp_eq_iff.mp (h r rfl)).symm, ?_⟩
    rintro h _ ⟨⟩
    exact LmdbDatabase.cmp_eq_iff.mpr h.symm

/-- Going on to the next record, or to the end. -/
theorem increment_of_append (h : db.records = A ++ r :: B) (stay : Bool) :
    Iterator.increment db ⟨true, r, stay⟩ (some r) =
      match B.head?.filter (reaches stay r) with
      | some b => .ok ⟨true, b, stay⟩ (some b)
      | none => .ok ⟨true, ([], []), stay⟩ (some r) := by
  have hop : ¬ ((if stay then CursorOp.nextDup else .next) = .setKey ∧ r.1 = []) := by
    cases stay <;> exact fun h => nomatch h.1
  have hget : db.cursorGet r.1 (if stay then .nextDup else .next) (some r) =
      match B.head?.filter (reaches stay r) with
      | some b => .ok (.ok b) (some b)
      | none => .ok (.error .notFound) (some r) := by
    rw [LmdbDatabase.cursorGet, if_neg hop, target_of_append h stay]
  rw [Iterator.increment, if_neg Bool.true_eq_false.mp]
  cases hb : B.head?.filter (reaches stay r) with
  | some b =>
    rw [hb] at hget
    exact bind_of_ok hget
  | none =>
    rw [hb] at hget
    exact bind_of_ok hget

/-- One round of a loop. -/
theorem rangeFor_succ {next : Iterator} {cur' : Cursor} (hne : r.1 ≠ []) {stay : Bool}
    (hnext : Iterator.increment db ⟨true, r, stay⟩ cur = .ok next cur') :
    rangeFor db mdbEnd (fuel + 1) ⟨true, r, stay⟩ cur =
      (do
        let entries ← rangeFor db mdbEnd fuel next
        pure (r :: entries)) cur' := by
  rw [rangeFor, bind_of_ok (equal_end_of_ne hne stay), if_neg (by decide), bind_of_ok hnext]

theorem rangeFor_end (hdup : db.dup = true) (stay : Bool) :
    rangeFor db mdbEnd (fuel + 1) ⟨true, ([], []), stay⟩ cur = .ok [] cur := by
  rw [rangeFor, bind_of_ok (equal_end hdup stay), if_pos rfl]
  rfl

/-- A loop visits the records from its iterator on, as long as it stays in the key. -/
theorem rangeFor_eq (hdup : db.dup = true) (h : db.records = A ++ r :: B) (stay : Bool) :
    ∃ cur, rangeFor db mdbEnd (B.length + 2) ⟨true, r, stay⟩ (some r) =
      .ok (r :: B.takeWhile (reaches stay r)) cur := by
  induction B generalizing A r with
  | nil =>
    have hne := db.key_ne_nil r (by simp [h])
    refine ⟨some r, ?_⟩
    rw [rangeFor_succ hne (increment_of_append h stay), bind_of_ok (rangeFor_end hdup stay)]
    rfl
  | cons b B ih =>
    have hne := db.key_ne_nil r (by simp [h])
    have hnext := increment_of_append h stay
    rw [List.head?_cons] at hnext
    by_cases hb : reaches stay r b = true
    · rw [Option.filter_some_pos hb] at hnext
      have hassoc : db.records = (A ++ [r]) ++ b :: B := by rw [h]; simp
      obtain ⟨cur, hrest⟩ := ih hassoc
      rw [reaches_eq hb] at hrest
      refine ⟨cur, ?_⟩
      rw [List.length_cons, rangeFor_succ hne hnext, bind_of_ok hrest,
        List.takeWhile_cons_of_pos hb]
      rfl
    · rw [Option.filter_some_neg (Bool.eq_false_of_not_eq_true hb)] at hnext
      refine ⟨some r, ?_⟩
      rw [rangeFor_succ hne hnext, bind_of_ok (rangeFor_end hdup stay),
        List.takeWhile_cons_of_neg hb]
      rfl

/-- A loop ends only by finding two iterators equal. -/
theorem dup_of_rangeFor {last : Iterator} {entries : List Record} {cur' : Cursor}
    (h : rangeFor db last fuel it cur = .ok entries cur') : db.dup = true := by
  induction fuel generalizing it cur entries cur' with
  | zero => cases h
  | succ fuel ih =>
    obtain ⟨done, cur₁, hdone, h⟩ := exists_of_bind_eq_ok h
    cases done with
    | true => exact dup_of_equal hdone
    | false =>
      obtain ⟨next, cur₂, -, h⟩ := exists_of_bind_eq_ok h
      obtain ⟨entries', cur₃, hrest, -⟩ := exists_of_bind_eq_ok h
      exact ih hrest

/-! ## The loop over the database -/

theorem mdbBegin_of_nil (h : db.records = []) : mdbBegin db cur = .throw "mdb_cursor_get" none := by
  have hget : db.cursorGet [] .first none = .ok (.error .notFound) none := by
    rw [LmdbDatabase.cursorGet, if_neg (by decide), LmdbDatabase.target, h]
    rfl
  show (Iterator.ofPosition db .first) cur = _
  rw [Iterator.ofPosition, if_pos (.inl rfl)]
  exact (bind_of_ok hget : _ = _)

theorem mdbBegin_of_cons (h : db.records = r :: B) :
    mdbBegin db cur = .ok ⟨true, r, false⟩ (some r) := by
  have hget : db.cursorGet [] .first none = .ok (.ok r) (some r) := by
    rw [LmdbDatabase.cursorGet, if_neg (by decide), LmdbDatabase.target, h]
    rfl
  show (Iterator.ofPosition db .first) cur = _
  rw [Iterator.ofPosition, if_pos (.inl rfl)]
  exact (bind_of_ok hget : _ = _)

/-- A loop over the database visits every record once, if there is one. -/
theorem visitsAll_iff : VisitsAll db ↔ db.dup = true ∧ db.records ≠ [] := by
  constructor
  · rintro ⟨fuel, cur, h⟩
    obtain ⟨it, cur', hbegin, h⟩ := exists_of_bind_eq_ok h
    refine ⟨dup_of_rangeFor h, fun hnil => ?_⟩
    rw [mdbBegin_of_nil hnil] at hbegin
    cases hbegin
  · rintro ⟨hdup, hne⟩
    obtain ⟨r, B, hrecords⟩ := List.exists_cons_of_ne_nil hne
    obtain ⟨cur, hloop⟩ := rangeFor_eq (A := []) hdup hrecords false
    have hall : B.takeWhile (reaches false r) = B := List.takeWhile_eq_self_iff.mpr fun _ _ => rfl
    refine ⟨B.length + 2, cur, ?_⟩
    rw [iterateAll, bind_of_ok (mdbBegin_of_cons hrecords), hloop, hall, hrecords]

/-! ## The loop over the values of a key -/

section Values

variable {key : K}

theorem values_of_nil (h : mdbSerialize key = []) :
    values db key cur = .throw "mdb_cursor_get" none := by
  have hget : db.cursorGet (mdbSerialize key) .setKey none = .ok (.error badValSize) none :=
    if_pos ⟨rfl, h⟩
  exact bind_of_ok hget

theorem values_of_ne_nil (db : LmdbDatabase) (cur : Cursor) (hne : mdbSerialize key ≠ []) :
    values db key cur =
      match db.records.find? fun a => a.1 = mdbSerialize key with
      | some r => .ok ⟨true, r, true⟩ (some r)
      | none => .ok ⟨true, ([], []), true⟩ none := by
  have htarget : db.target (mdbSerialize key) none .setKey =
      db.records.find? fun a => a.1 = mdbSerialize key := by
    rw [LmdbDatabase.target]
    congr 1
    funext a
    rw [decide_eq_decide, LmdbDatabase.cmp_eq_iff, eq_comm]
  have hget : db.cursorGet (mdbSerialize key) .setKey none =
      match db.records.find? fun a => a.1 = mdbSerialize key with
      | some r => .ok (.ok r) (some r)
      | none => .ok (.error .notFound) none := by
    rw [LmdbDatabase.cursorGet, if_neg fun h => hne h.2, htarget]
  cases hfind : db.records.find? fun a => a.1 = mdbSerialize key with
  | some r =>
    rw [hfind] at hget
    exact bind_of_ok hget
  | none =>
    rw [hfind] at hget
    exact bind_of_ok hget

/-- A loop over the values of a key visits the records of the key, if the key is not empty. -/
theorem visitsValues_iff : VisitsValues db key ↔ db.dup = true ∧ mdbSerialize key ≠ [] := by
  constructor
  · rintro ⟨fuel, cur, h⟩
    obtain ⟨range, cur₁, hrange, h⟩ := exists_of_bind_eq_ok h
    -- a loop that ends has compared values, which takes the comparator of duplicates
    refine ⟨dup_of_rangeFor h, fun hnil => ?_⟩
    obtain ⟨it, cur₂, hvalues, -⟩ := exists_of_bind_eq_ok hrange
    rw [values_of_nil hnil] at hvalues
    cases hvalues
  -- enough fuel for the records of the key, and for the end
  · rintro ⟨hdup, hne⟩
    have hrange : ∀ {it cur}, values db key none = .ok it cur →
        ∀ fuel, iterateValues db key fuel none = rangeFor db mdbEnd fuel it cur := by
      intro it cur hit fuel
      have hpair : valuesRange db key none = .ok (it, mdbEnd) cur := bind_of_ok hit
      rw [iterateValues, bind_of_ok hpair]
    have hvalues := values_of_ne_nil db none hne
    cases hfind : db.records.find? fun a => a.1 = mdbSerialize key with
    | none =>
      have hnone : (db.records.filter fun a => a.1 = mdbSerialize key) = [] :=
        List.filter_eq_nil_iff.mpr (List.find?_eq_none.mp hfind)
      rw [hfind] at hvalues
      refine ⟨1, none, ?_⟩
      rw [hrange hvalues, rangeFor_end hdup true, hnone]
    -- the records of the key follow each other from the first one on
    | some r =>
      obtain ⟨hr, A, B, h, hA⟩ := List.find?_eq_some_iff_append.mp hfind
      have hkey : r.1 = mdbSerialize key := of_decide_eq_true hr
      have hfirst : ∀ a ∈ A, a.1 ≠ r.1 := by
        intro a ha heq
        simpa [heq, hkey] using hA a ha
      obtain ⟨cur, hloop⟩ := rangeFor_eq hdup h true
      rw [hfind] at hvalues
      refine ⟨B.length + 2, cur, ?_⟩
      rw [hrange hvalues, hloop, ← hkey, LmdbDatabase.filter_key_eq h hfirst]
      rfl

end Values

/-- The loop over the values of a key visits its values. -/
theorem exists_iterateValues {db : Pairs} (hdb : ∀ e ∈ db, e.1 ≠ []) {key : K}
    (hne : mdbSerialize key ≠ []) :
    ∃ fuel entries cur, iterateValues (ofPairs db hdb) key fuel none = .ok entries cur ∧
      entries.map Prod.snd = valuesOf db (mdbSerialize key) := by
  obtain ⟨fuel, cur, h⟩ := visitsValues_iff.mpr ⟨(rfl : (ofPairs db hdb).dup = true), hne⟩
  exact ⟨fuel, _, cur, h, map_snd_recordsOf db (mdbSerialize key)⟩

/-- The loop over a database visits every record once if and only if values can be compared and the
database is not empty, and the loop over the values of a key visits these once if and only if values
can be compared and the key is not empty. -/
theorem visits_iff (db : LmdbDatabase) :
    (VisitsAll db ↔ db.dup = true ∧ db.records ≠ []) ∧
      ∀ {K : Type} [MdbSerialize K] (key : K),
        VisitsValues db key ↔ db.dup = true ∧ mdbSerialize key ≠ [] :=
  ⟨visitsAll_iff, fun _ => visitsValues_iff⟩

/-- In an empty database, `begin` throws. -/
theorem empty_not_visited :
    mdbBegin (ofPairs ∅ nofun) none = .throw "mdb_cursor_get" none ∧
      ¬ VisitsAll (ofPairs ∅ nofun) := by
  have hnil : (ofPairs ∅ nofun).records = [] := by simp [ofPairs, recordsOf]
  refine ⟨mdbBegin_of_nil hnil, ?_⟩
  rintro ⟨fuel, cur, h⟩
  obtain ⟨it, cur', hbegin, -⟩ := exists_of_bind_eq_ok h
  rw [mdbBegin_of_nil hnil] at hbegin
  cases hbegin

end Loops

end Glim.MdbIteration
