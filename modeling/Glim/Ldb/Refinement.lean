import Glim.Ldb.Batch
import Glim.Machine.Run

/-!
# The wrapper is a map

With keys of one type, and strings that a `gstring` can hold, the wrapper is a map of typed
keys and values. `del` refuses the empty key, which `put` accepts. Longer strings are stored
without what their length modulo `2 ^ 24` leaves out.

## Main definitions

* `Op`, `Op.exec`: the operations
* `lastWrite`: the last operation that wrote a key

## Main results

* `deserialize_serialize`, `serialize_inj`: typed keys and values survive serializing
* `lookup_execAll`: the database after any operations
* `refines_map`: the operations are those of a map
* `put_get_iff`: which strings are stored unchanged
-/

namespace Glim

open Machine Exec Text Table

/-! ## Keys and values -/

/-- A value that a `gstring` can hold. -/
def Datum.Short : Datum → Prop
  | .gstring bytes => bytes.length < 2 ^ 24
  | .string bytes => bytes.length < 2 ^ 24
  | .uint32 _ => True

instance : DecidablePred Datum.Short
  | .gstring _ => inferInstanceAs (Decidable (_ < _))
  | .string _ => inferInstanceAs (Decidable (_ < _))
  | .uint32 _ => inferInstanceAs (Decidable True)

section Serialize

variable {d k k' : Datum} {bytes : List UInt8}

/-- A view has all bytes if and only if its length fits. -/
theorem view_eq_self_iff {bytes : List UInt8} : view bytes = bytes ↔ bytes.length < 2 ^ 24 := by
  constructor
  · intro h
    rw [← h, view, List.length_take]
    exact Nat.lt_of_le_of_lt (Nat.min_le_left _ _) (Nat.mod_lt _ (Nat.two_pow_pos 24))
  · intro h
    rw [view, Nat.mod_eq_of_lt h, List.take_length]

theorem view_word (n : UInt32) : view (word n) = word n :=
  view_eq_self_iff.mpr (by rw [length_word]; decide)

/-- What was serialized is read back. -/
theorem deserialize_serialize (hd : d.Short) :
    ldbDeserialize (view (ldbSerialize [] d)) d.kind = .ok d := by
  cases d with
  | gstring bytes =>
    have hview : view bytes = bytes := view_eq_self_iff.mpr hd
    simp only [ldbSerialize, hview, Datum.kind, ldbDeserialize]
  | string bytes =>
    have hview : view bytes = bytes := view_eq_self_iff.mpr hd
    simp only [ldbSerialize, hview, Datum.kind, ldbDeserialize]
  | uint32 n =>
    simp only [ldbSerialize, List.nil_append, view_word, Datum.kind, ldbDeserialize, ofWord_word]

/-- Keys of one type have different bytes. -/
theorem serialize_inj (hkind : k.kind = k'.kind) (hk : k.Short) (hk' : k'.Short) :
    ldbSerialize [] k = ldbSerialize [] k' ↔ k = k' := by
  constructor
  · intro h
    have hread := deserialize_serialize hk
    rw [h, hkind, deserialize_serialize hk'] at hread
    exact (Except.ok.inj hread).symm
  · rintro rfl
    rfl

end Serialize

/-! ## Operations -/

/-- An operation of the wrapper. -/
inductive Op where
  | put (key value : Datum)
  | get (key : Datum) (kind : Kind)
  | haveKey (key : Datum)
  | del (key : Datum)
  deriving DecidableEq, Repr

/-- The key of an operation. -/
def Op.key : Op → Datum
  | .put key _ => key
  | .get key _ => key
  | .haveKey key => key
  | .del key => key

/-- Execute an operation, with LevelDB at work. -/
def Op.exec : Op → Exec Ldb Unit
  | .put key value => Ldb.put key value .ok
  | .get key kind => do
    let _ ← Ldb.get key kind .ok
    pure ()
  | .haveKey key => do
    let _ ← Ldb.haveKey key .ok
    pure ()
  | .del key => Ldb.del key .ok

/-- The key has the given type, and the strings fit. -/
def Op.Ok (kind : Kind) (op : Op) : Prop :=
  op.key.kind = kind ∧ op.key.Short ∧ ∀ key value, op = .put key value → value.Short

/-- What an operation writes under a key: a value, or nothing any more. -/
def Op.writes (key : Datum) : Op → Option (Option Datum)
  | .put key' value => if key' = key then some (some value) else none
  | .del key' => if key' = key ∧ ldbSerialize [] key ≠ [] then some none else none
  | _ => none

/-- What the last operation that wrote the key has written: a value, or nothing any more. -/
def lastWrite (ops : List Op) (key : Datum) : Option (Option Datum) :=
  (ops.filterMap (Op.writes key)).getLast?

section Run

variable {ldb ldb' : Ldb} {op : Op} {ops : List Op} {kind : Kind} {key : Datum}

theorem putBatch_eq (h : ldb.triggers = []) (key value : Datum) (batch : List BatchOp) :
    ldb.putBatch key value batch =
      .ok () (batch ++ [.put (ldbSerialize [] key) (ldbSerialize [] value)]) := by
  rw [Ldb.putBatch, h]
  rfl

theorem put_eq (h : ldb.triggers = []) (key value : Datum) : Ldb.put key value .ok ldb =
    .ok () { ldb with db := ldb.db.insert (ldbSerialize [] key) (ldbSerialize [] value) } := by
  simp only [Ldb.put, Ldb.withBatch, putBatch_eq h]
  rfl

theorem del_eq (h : ldb.triggers = []) (key : Datum) : Ldb.del key .ok ldb =
    if ldbSerialize [] key = [] then .throw "del: key is empty" ldb
    else .ok () { ldb with db := ldb.db.erase (ldbSerialize [] key) } := by
  simp only [Ldb.del, Ldb.withBatch, Ldb.delBatch, h]
  split_ifs with hempty
  · simp only [hempty, when, if_pos]
    rfl
  · simp only [when, if_neg hempty]
    rfl

theorem haveKey_eq (key : Datum) : Ldb.haveKey key .ok ldb =
    .ok (ldb.db.lookup (ldbSerialize [] key)).isSome ldb := rfl

theorem get_of_none (h : ldb.db.lookup (ldbSerialize [] key) = none) (kind : Kind) :
    Ldb.get key kind .ok ldb = .ok none ldb := by
  simp only [Ldb.get, bind, Exec.get, h]
  rfl

theorem get_of_some {str : List UInt8} (h : ldb.db.lookup (ldbSerialize [] key) = some str)
    (kind : Kind) : Ldb.get key kind .ok ldb =
      match ldbDeserialize (view str) kind with
      | .ok value => .ok (some value) ldb
      | .error message => .throw message ldb := by
  simp only [Ldb.get, bind, Exec.get, h]
  cases ldbDeserialize (view str) kind <;> rfl

/-- What one operation leaves under a key. -/
theorem exec_eq (h : ldb.triggers = []) (hop : op.Ok kind) : ∃ ldb',
    (op.exec ldb).Leaves ldb' ∧ ldb'.triggers = [] ∧ ∀ key : Datum, key.kind = kind → key.Short →
      ldb'.db.lookup (ldbSerialize [] key) = match op.writes key with
        | some value => value.map (ldbSerialize [])
        | none => ldb.db.lookup (ldbSerialize [] key) := by
  obtain ⟨hkind, hshort, hvalue⟩ := hop
  cases op with
  | put key' value =>
    refine ⟨{ ldb with db := ldb.db.insert (ldbSerialize [] key') (ldbSerialize [] value) },
      by rw [Op.exec, put_eq h]; rfl, h, fun key hk hs => ?_⟩
    -- keys of one kind are told apart by their serialization
    have hinj : ldbSerialize [] key = ldbSerialize [] key' ↔ key = key' :=
      serialize_inj (hk.trans hkind.symm) hs hshort
    simp only [SortedMap.lookup_insert, hinj, Op.writes, @eq_comm _ key]
    split_ifs <;> rfl
  -- reading does not change anything, whether there is a value or not
  | get key' kind' =>
    refine ⟨ldb, ?_, h, fun key hk hs => rfl⟩
    cases hl : ldb.db.lookup (ldbSerialize [] key') with
    | none =>
      simp only [Op.exec, bind, get_of_none hl]
      rfl
    | some str =>
      simp only [Op.exec, bind, get_of_some hl]
      cases ldbDeserialize (view str) kind' <;> rfl
  | haveKey key' => exact ⟨ldb, rfl, h, fun key hk hs => rfl⟩
  | del key' =>
    have hinj : ∀ key : Datum, key.kind = kind → key.Short →
        (ldbSerialize [] key = ldbSerialize [] key' ↔ key = key') := fun key hk hs =>
      serialize_inj (hk.trans hkind.symm) hs hshort
    -- an empty key is refused, and is none that has been written
    by_cases hempty : ldbSerialize [] key' = []
    · refine ⟨ldb, by rw [Op.exec, del_eq h, if_pos hempty]; rfl, h, fun key hk hs => ?_⟩
      have hnone : ¬ (key' = key ∧ ldbSerialize [] key ≠ []) := by
        rintro ⟨rfl, hne⟩
        exact hne hempty
      simp only [Op.writes, if_neg hnone]
    · refine ⟨{ ldb with db := ldb.db.erase (ldbSerialize [] key') },
        by rw [Op.exec, del_eq h, if_neg hempty]; rfl, h, fun key hk hs => ?_⟩
      simp only [SortedMap.lookup_erase, hinj key hk hs, Op.writes]
      by_cases heq : key = key'
      · subst heq
        rw [if_pos rfl, if_pos ⟨rfl, hempty⟩]
        rfl
      · rw [if_neg heq, if_neg fun hand => heq hand.1.symm]

theorem lastWrite_cons : lastWrite (op :: ops) key = (lastWrite ops key).or (op.writes key) := by
  rw [lastWrite, lastWrite, List.filterMap_cons]
  cases op.writes key with
  | none => simp
  | some w =>
    rw [List.getLast?_cons]
    cases (ops.filterMap (Op.writes key)).getLast? <;> rfl

/-- What any operations leave under a key. -/
theorem lookup_execAll (h : ldb.triggers = []) (hops : ∀ op ∈ ops, op.Ok kind) : ∃ ldb',
    Run.execAll Op.exec ops ldb = some ldb' ∧ ldb'.triggers = [] ∧
    ∀ key : Datum, key.kind = kind → key.Short →
      ldb'.db.lookup (ldbSerialize [] key) = match lastWrite ops key with
        | some value => value.map (ldbSerialize [])
        | none => ldb.db.lookup (ldbSerialize [] key) := by
  induction ops generalizing ldb with
  | nil => exact ⟨ldb, rfl, h, fun _ _ _ => rfl⟩
  | cons op ops ih =>
    obtain ⟨ldb₁, hleaves, h₁, hstep⟩ := exec_eq h (hops op List.mem_cons_self)
    obtain ⟨ldb', hrun, h', hrest⟩ := ih h₁ fun o ho => hops o (List.mem_cons_of_mem op ho)
    refine ⟨ldb', ?_, h', fun key hk hs => ?_⟩
    · rw [Run.execAll]
      cases hx : op.exec ldb with
      | ok a s =>
        rw [hx] at hleaves
        obtain rfl : s = ldb₁ := hleaves
        exact hrun
      | throw e s =>
        rw [hx] at hleaves
        obtain rfl : s = ldb₁ := hleaves
        exact hrun
      | fault u =>
        rw [hx] at hleaves
        exact hleaves.elim
    · rw [hrest key hk hs, lastWrite_cons]
      cases lastWrite ops key with
      | none => exact hstep key hk hs
      | some value => rfl

/-- After any operations on keys of one type: a key is found if and only if the last write left a
value, or there was none and it was there before; `get` returns that value; keys are independent;
and `del` removes every key but the empty one, which it refuses. -/
theorem refines_map (h : ldb.triggers = []) (hops : ∀ op ∈ ops, op.Ok kind) : ∃ ldb',
    Run.execAll Op.exec ops ldb = some ldb' ∧ ∀ key : Datum, key.kind = kind → key.Short →
      (∃ found, Ldb.haveKey key .ok ldb' = .ok found ldb' ∧
        (found = true ↔ (∃ value, lastWrite ops key = some (some value)) ∨
          lastWrite ops key = none ∧ Ldb.haveKey key .ok ldb = .ok true ldb) ∧
        ∀ kind, Ldb.get key kind .ok ldb' = .ok none ldb' ↔ found = false) ∧
      (∀ value, lastWrite ops key = some (some value) →
        Ldb.get key value.kind .ok ldb' = .ok (some value) ldb') ∧
      (∀ op, op.Ok kind → op.key ≠ key → ∃ ldb'', Run.execAll Op.exec [op] ldb' = some ldb'' ∧
        ldb''.db.lookup (ldbSerialize [] key) = ldb'.db.lookup (ldbSerialize [] key)) ∧
      (ldbSerialize [] key ≠ [] → ∃ ldb'', Ldb.del key .ok ldb' = .ok () ldb'' ∧
        Ldb.haveKey key .ok ldb'' = .ok false ldb'') ∧
      (ldbSerialize [] key = [] → Ldb.del key .ok ldb' = .throw "del: key is empty" ldb') := by
  obtain ⟨ldb', hrun, h', hlookup⟩ := lookup_execAll h hops
  refine ⟨ldb', hrun, fun key hk hs => ⟨⟨_, haveKey_eq key, ?_, fun kind => ?_⟩, ?_, ?_, ?_, ?_⟩⟩
  -- the key is there if its last write has stored a value, or if it was there before
  · rw [hlookup key hk hs, haveKey_eq]
    cases hlast : lastWrite ops key with
    | none => simp
    | some value => cases value <;> simp
  · cases hl : ldb'.db.lookup (ldbSerialize [] key) with
    | none => simp [get_of_none hl]
    | some str =>
      rw [get_of_some hl]
      cases ldbDeserialize (view str) kind <;> simp
  -- the value that was written last is read back, since it was short enough to be stored
  · intro value hlast
    obtain ⟨op, hop, hwrites⟩ := List.mem_filterMap.mp (List.mem_of_getLast? hlast)
    -- it comes from one of the operations
    have hshort : value.Short := by
      cases op with
      | put key' value' =>
        rw [Op.writes] at hwrites
        split_ifs at hwrites
        cases hwrites
        exact (hops _ hop).2.2 _ _ rfl
      | del key' =>
        rw [Op.writes] at hwrites
        split_ifs at hwrites
        cases hwrites
      | get key' kind' => cases hwrites
      | haveKey key' => cases hwrites
    have hl := hlookup key hk hs
    rw [hlast] at hl
    rw [get_of_some hl, deserialize_serialize hshort]
  -- a write to another key does not matter
  · intro op hop hne
    obtain ⟨ldb'', hrun', -, hlookup'⟩ :=
      lookup_execAll h' fun o (ho : o ∈ [op]) => by rwa [List.mem_singleton.mp ho]
    refine ⟨ldb'', hrun', ?_⟩
    have hnone : lastWrite [op] key = none := by
      have hwrites : op.writes key = none := by
        cases op with
        | put key' value => exact if_neg hne
        | del key' => exact if_neg fun hand => hne hand.1
        | get key' kind' => rfl
        | haveKey key' => rfl
      rw [lastWrite, List.filterMap_cons, hwrites]
      rfl
    rw [hlookup' key hk hs, hnone]
  -- a key that is not empty is deleted, and the empty one is refused
  · intro hne
    refine ⟨_, (del_eq h' key).trans (if_neg hne), ?_⟩
    rw [haveKey_eq, SortedMap.lookup_erase, if_pos rfl]
    rfl
  · intro hempty
    exact (del_eq h' key).trans (if_pos hempty)

end Run

/-- A value that was replaced, and another one that was deleted. -/
theorem refines_map_four : ∃ ldb', Run.execAll Op.exec
      [.put (.string [97]) (.uint32 1), .put (.string [98]) (.string []),
        .put (.string [97]) (.gstring [120, 0]), .del (.string [98])] ⟨.empty, []⟩ = some ldb' ∧
    Ldb.get (.string [97]) .gstring .ok ldb' = .ok (some (.gstring [120, 0])) ldb' ∧
    Ldb.get (.string [98]) .string .ok ldb' = .ok none ldb' := by
  have hops : ∀ op ∈ [Op.put (.string [97]) (.uint32 1), .put (.string [98]) (.string []),
      .put (.string [97]) (.gstring [120, 0]), .del (.string [98])], op.Ok .string := by
    intro op hop
    simp only [List.mem_cons, List.not_mem_nil, or_false] at hop
    rcases hop with rfl | rfl | rfl | rfl
    · exact ⟨rfl, by decide, by rintro _ _ ⟨⟩; trivial⟩
    · exact ⟨rfl, by decide, by rintro _ _ ⟨⟩; decide⟩
    · exact ⟨rfl, by decide, by rintro _ _ ⟨⟩; decide⟩
    · exact ⟨rfl, by decide, nofun⟩
  have htriggers : (⟨.empty, []⟩ : Ldb).triggers = [] := rfl
  obtain ⟨ldb', hrun, hall⟩ := refines_map htriggers hops
  obtain ⟨-, hget, -⟩ := hall (.string [97]) rfl (by decide)
  obtain ⟨⟨found, -, hfound, hnone⟩, -⟩ := hall (.string [98]) rfl (by decide)
  refine ⟨ldb', hrun, hget _ rfl, (hnone .string).mpr ?_⟩
  rw [Bool.eq_false_iff]
  intro htrue
  rcases hfound.mp htrue with ⟨value, hlast⟩ | ⟨hlast, -⟩
  · cases hlast
  · cases hlast

/-- `put` accepts the empty key, and `del` refuses it. -/
theorem del_refuses_empty : ∃ ldb',
    Ldb.put (.string []) (.string [120]) .ok ⟨.empty, []⟩ = .ok () ldb' ∧
    Ldb.del (.string []) .ok ldb' = .throw "del: key is empty" ldb' ∧
    Ldb.haveKey (.string []) .ok ldb' = .ok true ldb' :=
  ⟨⟨⟨[([], [120])], List.pairwise_singleton _ _⟩, []⟩, rfl, rfl, rfl⟩

/-! ## Strings of any length -/

/-- What a `put` that returns writes last. -/
theorem exists_of_put {ldb ldb' : Ldb} {key value : Datum} {status : Status}
    (h : Ldb.put key value status ldb = .ok () ldb') : ∃ batch, ldb'.db =
      List.foldl BatchOp.apply ldb.db
        (batch ++ [.put (ldbSerialize [] key) (ldbSerialize [] value)]) := by
  by_cases hthrow : ∃ t ∈ ldb.triggers,
      (t.2.put ldb.db key (ldbSerialize [] key) value (ldbSerialize [] value)).2 ≠ none
  · have hx : ∃ message, Ldb.put key value status ldb = .throw message ldb :=
      withBatch_of_throw _ _ (Or.inl (putBatch_of_throw hthrow))
    obtain ⟨message, hx⟩ := hx
    rw [hx] at h
    cases h
  · have hfill := putBatch_of_return ldb [] fun t ht => by
      by_contra hne
      exact hthrow ⟨t, ht, hne⟩
    cases status with
    | ok =>
      rw [Ldb.put, withBatch_of_ok hfill] at h
      cases h
      exact ⟨_, rfl⟩
    | error message =>
      have hx : ∃ message', Ldb.put key value (.error message) ldb = .throw message' ldb :=
        withBatch_of_throw _ _ (Or.inr ⟨⟨_, hfill⟩, by simp⟩)
      obtain ⟨message', hx⟩ := hx
      rw [hx] at h
      cases h

/-- `put` stores a string key and a string value unchanged if and only if both are below the length
that a `gstring` can hold: then `get` returns the value, and LevelDB has it under that key. -/
theorem put_get_iff (key value : List UInt8) :
    (∀ ldb ldb' status, Ldb.put (.string key) (.string value) status ldb = .ok () ldb' →
      Ldb.get (.string key) .string .ok ldb' = .ok (some (.string value)) ldb' ∧
      ldb'.db.lookup key = some value) ↔
    key.length < 2 ^ 24 ∧ value.length < 2 ^ 24 := by
  rw [← view_eq_self_iff, ← @view_eq_self_iff value]
  constructor
  · intro hall
    -- in an empty database there is no other record
    obtain ⟨-, hlookup⟩ := hall ⟨.empty, []⟩ _ .ok (put_eq rfl _ _)
    rw [SortedMap.lookup_insert] at hlookup
    split_ifs at hlookup with hkey
    · exact ⟨hkey.symm, Option.some.inj hlookup⟩
    · cases hlookup
  · rintro ⟨hkey, hvalue⟩ ldb ldb' status hput
    obtain ⟨batch, hbatch⟩ := exists_of_put hput
    have hlookup : ldb'.db.lookup key = some value := by
      rw [hbatch, ldbSerialize, ldbSerialize, hkey, hvalue, List.foldl_append]
      exact SortedMap.lookup_insert.trans (if_pos rfl)
    refine ⟨?_, hlookup⟩
    have hstr : ldb'.db.lookup (ldbSerialize [] (.string key)) = some value := by
      rw [ldbSerialize, hkey, hlookup]
    rw [get_of_some hstr, ldbDeserialize, hvalue]

/-- A key of `2 ^ 24` bytes is stored as the empty one, and a value of so many bytes too. -/
theorem put_shortens : ∃ bytes : List UInt8, bytes.length = 2 ^ 24 ∧
    (∃ ldb', Ldb.put (.string bytes) (.string [120]) .ok ⟨.empty, []⟩ = .ok () ldb' ∧
      ldb'.db.lookup bytes = none ∧ ldb'.db.lookup [] = some [120]) ∧
    ∃ ldb', Ldb.put (.string [107]) (.string bytes) .ok ⟨.empty, []⟩ = .ok () ldb' ∧
      Ldb.get (.string [107]) .string .ok ldb' = .ok (some (.string [])) ldb' := by
  obtain ⟨bytes, hlen⟩ : ∃ bytes : List UInt8, bytes.length = 2 ^ 24 :=
    ⟨List.replicate (2 ^ 24) 0, List.length_replicate⟩
  have hne : bytes ≠ [] := by
    rintro rfl
    exact absurd hlen (by decide)
  have hview : view bytes = [] := by
    rw [view, hlen, Nat.mod_self, List.take_zero]
  refine ⟨bytes, hlen, ⟨_, put_eq rfl _ _, ?_, ?_⟩, _, put_eq rfl _ _, ?_⟩
  · rw [SortedMap.lookup_insert, ldbSerialize, hview, if_neg hne]
    rfl
  · rw [SortedMap.lookup_insert, ldbSerialize, hview, if_pos rfl]
    rfl
  · have hstr : SortedMap.lookup (ldbSerialize [] (.string [107])) (SortedMap.insert
        (ldbSerialize [] (.string [107])) (ldbSerialize [] (.string bytes)) SortedMap.empty) =
        some [] := by
      rw [SortedMap.lookup_insert, if_pos rfl, ldbSerialize, hview]
    rw [get_of_some hstr]
    rfl

end Glim
