import Glim.Ldb.Iterator

/-!
# Ranges

An iterator over the database goes round its keys. The two iterators of a range are created one
after the other, and the loop over the range ends where they stand on equal keys: it visits the
keys of the interval if and only if both find the same key, or none, from the upper bound on.

## Main definitions

* `IteratorEntry.At`: an iterator that stands on a position

## Main results

* `increment_at`: incrementing goes to the next position
* `range_iff`: when the loop over a range visits the interval
* `range_bounds_iff`: the same for bounds in any order, over a database that does not change
* `range_wraps`: a key that was inserted behind the range lets the loop leave it
-/

namespace Glim

open Text Table

/-- The iterator sees the database and stands on the position. -/
structure IteratorEntry.At (db : Database) (entry : IteratorEntry) (o : Option (List UInt8)) :
    Prop where
  snapshot : entry.lit.snapshot = db
  valid : entry.valid = entry.lit.valid
  pos : entry.lit.pos = o

variable {db db' : Database} {entry entry' : IteratorEntry} {o o' : Option (List UInt8)}

theorem IteratorEntry.At.valid_eq (h : entry.At db o) : entry.valid = o.isSome := by
  rw [h.valid, Lit.valid, h.pos]

theorem position_at (h : entry.At db o) : entry.position = o := by
  rw [IteratorEntry.position, h.valid_eq, h.pos]
  cases o <;> rfl

theorem equal_at (h : entry.At db o) (h' : entry'.At db' o') :
    entry.equal entry' = true ↔ o = o' := by
  rw [IteratorEntry.equal, h.valid_eq, h'.valid_eq, h.pos, h'.pos]
  cases o <;> cases o' <;> simp

/-- Incrementing goes to the next position. -/
theorem increment_at (h : entry.At db o) :
    ∃ entry', entry.increment = some entry' ∧ entry'.At db (Tour.next db.keys o) := by
  rw [IteratorEntry.increment, h.valid_eq]
  cases o with
  | none =>
    refine ⟨⟨entry.lit.seekToFirst, entry.lit.seekToFirst.valid⟩, rfl, h.snapshot, rfl, ?_⟩
    exact congrArg (fun db : Database => db.keys.head?) h.snapshot
  | some k =>
    obtain ⟨lit', hx, hsnapshot, hpos⟩ := Lit.next_eq h.pos
    refine ⟨⟨lit', lit'.valid⟩, ?_, hsnapshot.trans h.snapshot, rfl, ?_⟩
    · rw [Option.isSome_some, if_pos rfl, hx]
      rfl
    · rw [hpos, h.snapshot]

/-- Seeking goes to the first key that is not less. -/
theorem seek_at (db : Database) (key : List UInt8) :
    (IteratorEntry.seek key ⟨Lit.newIterator db, false⟩).At db (db.keys.find? (key ≤ ·)) :=
  ⟨rfl, rfl, rfl⟩

/-- A loop goes from position to position. -/
theorem visit_eq {fit tit : IteratorEntry} {n : ℕ} (hfit : fit.At db o) (htit : tit.At db' o') :
    Tour.visit (fun it => it.equal tit) IteratorEntry.position IteratorEntry.increment n fit =
      Tour.visitPos db.keys o' n o :=
  Tour.visit_eq_visitPos (R := IteratorEntry.At db) (fun _ _ hit => equal_at hit htit)
    (fun _ _ hit => position_at hit) (fun _ _ hit _ => increment_at hit) hfit

/-- The loop from the lower bound on visits the interval if and only if it stops at the first
key from the upper bound on. -/
theorem visit_interval_iff {fit tit : IteratorEntry} {lower upper : List UInt8}
    (hle : lower ≤ upper) (hfit : fit.At db (db.keys.find? (lower ≤ ·))) (htit : tit.At db' o)
    (ho : ∀ k, o = some k → upper ≤ k) :
    (∃ fuel, Tour.visit (fun it => it.equal tit) IteratorEntry.position
        IteratorEntry.increment fuel fit =
      some ((interval lower upper db.keys).map some)) ↔
    o = db.keys.find? (upper ≤ ·) := by
  -- the keys below the interval, in it, and from the upper bound on
  have hbehind := interval_append db.pairwise_keys hle
  have hsplit := filter_lt_append db.pairwise_keys lower
  rw [← hbehind, ← List.append_assoc] at hsplit
  have hstop : ∀ k ∈ interval lower upper db.keys, o ≠ some k := fun k hk hok =>
    absurd (ho k hok) (not_le_of_gt (mem_interval.mp hk).2.2)
  simp only [visit_eq hfit htit]
  rw [← List.head?_filter, ← List.head?_filter, ← hbehind]
  have hnodup := nodup_of_sorted db.pairwise_keys
  rw [← hsplit] at hnodup
  have hiff := Tour.visitPos_eq_iff hnodup hstop
  rwa [hsplit] at hiff

/-- The loop over a range visits exactly the interval of the first database if and only if the
least key from the upper bound on is the same in both databases. -/
theorem range_iff (first : Database) (ops : List BatchOp) (fromKey till : Datum)
    (hle : ldbSerialize [] fromKey ≤ ldbSerialize [] till) :
    let second := ops.foldl BatchOp.apply first
    let range := Ldb.range first second fromKey till
    let lower := ldbSerialize [] fromKey
    let upper := ldbSerialize [] till
    (∃ fuel, Tour.visit (fun it => it.equal range.2) IteratorEntry.position
        IteratorEntry.increment fuel range.1 =
      some ((interval lower upper first.keys).map some)) ↔
    ∀ k, IsLeast {a | a ∈ first.keys ∧ upper ≤ a} k ↔
      IsLeast {a | a ∈ second.keys ∧ upper ≤ a} k := by
  intro second range lower upper
  have hupper : ∀ k, second.keys.find? (upper ≤ ·) = some k → upper ≤ k := by
    intro k hk
    have hge := List.find?_some hk
    rwa [decide_eq_true_eq] at hge
  refine (visit_interval_iff hle (seek_at first lower) (seek_at second upper) hupper).trans ?_
  simp only [← find?_eq_some_iff_isLeast first.pairwise_keys,
    ← find?_eq_some_iff_isLeast second.pairwise_keys]
  constructor
  · intro h k
    rw [h]
  · intro h
    exact (Option.ext h).symm

/-- Between bounds that are the wrong way round there is no key to visit, and the loop visits none
if and only if both bounds find the same key, or none. -/
theorem visit_reversed_iff {fit tit : IteratorEntry} {lower upper : List UInt8}
    (hle : upper ≤ lower) (hfit : fit.At db (db.keys.find? (lower ≤ ·)))
    (htit : tit.At db (db.keys.find? (upper ≤ ·))) :
    (∃ fuel, Tour.visit (fun it => it.equal tit) IteratorEntry.position
        IteratorEntry.increment fuel fit =
      some ((interval lower upper db.keys).map some)) ↔
    interval upper lower db.keys = [] := by
  simp only [visit_eq hfit htit, interval_eq_nil_of_le hle, List.map_nil]
  rw [Tour.visitPos_eq_nil_iff, find?_ge_eq_iff db.pairwise_keys hle]

/-- Over a database that does not change, the loop over a range visits exactly the interval if and
only if there is no key from the upper bound on and below the lower one. -/
theorem range_bounds_iff (db : Database) (fromKey till : Datum) :
    let range := Ldb.range db db fromKey till
    let lower := ldbSerialize [] fromKey
    let upper := ldbSerialize [] till
    (∃ fuel, Tour.visit (fun it => it.equal range.2) IteratorEntry.position
        IteratorEntry.increment fuel range.1 =
      some ((interval lower upper db.keys).map some)) ↔
    ∀ k ∈ db.keys, upper ≤ k → lower ≤ k := by
  intro range lower upper
  have hfit : range.1.At db (db.keys.find? (lower ≤ ·)) := seek_at db lower
  have htit : range.2.At db (db.keys.find? (upper ≤ ·)) := seek_at db upper
  rcases le_total lower upper with hle | hle
  -- the right way round, the interval is visited whatever the keys are
  · refine iff_of_true ?_ fun k _ hk => hle.trans hk
    refine (visit_interval_iff hle hfit htit fun k hk => ?_).mpr rfl
    have hge := List.find?_some hk
    rwa [decide_eq_true_eq] at hge
  · rw [visit_reversed_iff hle hfit htit, List.eq_nil_iff_forall_not_mem]
    constructor
    · intro hnone k hk hge
      by_contra hlt
      exact hnone k (mem_interval.mpr ⟨hk, hge, lt_of_not_ge hlt⟩)
    · intro hall k hk
      obtain ⟨hmem, hge, hlt⟩ := mem_interval.mp hk
      exact absurd (hall k hmem hge) (not_le_of_gt hlt)

/-- A database of the keys `"a"` and `"c"`. -/
def twoKeys : Database := ⟨[([97], [1]), ([99], [])], by decide⟩

/-- Keys below the upper bound come and go. -/
theorem range_twoKeys :
    let range := Ldb.range twoKeys ([.delete [97], .put [98] []].foldl BatchOp.apply twoKeys)
      (.gstring [97]) (.gstring [99])
    ∃ fuel, Tour.visit (fun it => it.equal range.2) IteratorEntry.position
      IteratorEntry.increment fuel range.1 = some [some [97]] := by
  refine (range_iff twoKeys [.delete [97], .put [98] []] (.gstring [97]) (.gstring [99])
    (by decide)).mpr fun k => ?_
  rw [← find?_eq_some_iff_isLeast twoKeys.pairwise_keys,
    ← find?_eq_some_iff_isLeast (SortedMap.pairwise_keys _)]
  rfl

/-- A key that is inserted at the upper bound before the second iterator is created: the loop leaves
the interval, and does not end. -/
theorem range_wraps :
    let range := Ldb.range twoKeys ([.put [98] []].foldl BatchOp.apply twoKeys)
      (.gstring [97]) (.gstring [98])
    ∀ fuel, Tour.visit (fun it => it.equal range.2) IteratorEntry.position
      IteratorEntry.increment fuel range.1 = none := by
  intro range fuel
  have hfit : range.1.At twoKeys (some [97]) := seek_at twoKeys [97]
  have htit : range.2.At _ (some [98]) := seek_at _ [98]
  rw [visit_eq hfit htit]
  refine Tour.visitPos_eq_none (fun hz => ?_) (Tour.isPos_some (by decide))
  exact absurd (hz [98] rfl) (by decide)

/-- From `"c"` to `"a"`: the loop visits `"c"`, and then goes round by the end. -/
theorem range_backwards :
    let range := Ldb.range twoKeys twoKeys (.gstring [99]) (.gstring [97])
    Tour.visit (fun it => it.equal range.2) IteratorEntry.position IteratorEntry.increment 3
        range.1 = some [some [99], none] ∧
      ¬ ∃ fuel, Tour.visit (fun it => it.equal range.2) IteratorEntry.position
          IteratorEntry.increment fuel range.1 =
        some ((interval [99] [97] twoKeys.keys).map some) := by
  intro range
  have hfit : range.1.At twoKeys (twoKeys.keys.find? ([99] ≤ ·)) := seek_at twoKeys [99]
  have htit : range.2.At twoKeys (twoKeys.keys.find? ([97] ≤ ·)) := seek_at twoKeys [97]
  refine ⟨(visit_eq hfit htit).trans rfl, fun hall => ?_⟩
  have hnil := (visit_reversed_iff (by decide) hfit htit).mp hall
  exact absurd hnil (by decide)

end Glim
