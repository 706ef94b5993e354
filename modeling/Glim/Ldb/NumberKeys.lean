import Glim.Ldb.Range
import Glim.Mdb.Basic
import Glim.Text.BigEndian
import Mathlib.Data.Set.List

/-!
# Numbers as keys

Keys of type `uint32_t` are stored as four bytes, the most significant one first, so that a
database of such keys is ordered like the numbers. A range of numbers can be read then like any
other range.

## Main definitions

* `ldbDeserializeUint32`, `mdbDeserializeUint32`: reading a number into a variable
* `OrderEmbedding`: numbers and their bytes have the same order, and nothing else is a number
* `IteratorEntry.getKey`: the key at an iterator

## Main results

* `orderEmbedding_ldb`, `orderEmbedding_mdb`: the encodings of the two wrappers
* `uint32_keys_ordered`: the numbers that a range reads
-/

namespace Glim

open Machine Exec Text Table

/-! ## Reading a number -/

/-- Reading a `uint32_t`: the state is the variable it is read into. -/
def deserializeUint32 (wrongSize : String) (bytes : List UInt8) : Exec UInt32 Unit := do
  when (bytes.length ≠ 4) (raise wrongSize)
  match ofWord bytes with
  | some ui => modify fun _ => ui
  | none => fail .outOfBounds

/-- `ldbDeserialize (bytes, ui)`. -/
def ldbDeserializeUint32 (bytes : List UInt8) : Exec UInt32 Unit :=
  deserializeUint32 "Not uint32_t, wrong number of bytes" bytes

/-- `mdbDeserialize (bytes, ui)`. -/
def mdbDeserializeUint32 (bytes : List UInt8) : Exec UInt32 Unit :=
  deserializeUint32 "Not uint32_t, wrong number of bytes" bytes

/-- `keyView ()`. -/
def IteratorEntry.keyView (entry : IteratorEntry) : List UInt8 :=
  match entry.position with
  | some key => view key
  | none => []

/-- `getKey ()`, for keys of the type `kind`. -/
def IteratorEntry.getKey (kind : Kind) (entry : IteratorEntry) : Except String Datum :=
  ldbDeserialize entry.keyView kind

/-- Numbers are read back from their four bytes, which are ordered like the numbers, and from other
bytes nothing is read. -/
structure OrderEmbedding (serialize : UInt32 → List UInt8)
    (deserialize : List UInt8 → Exec UInt32 Unit) : Prop where
  length_eq : ∀ a, (serialize a).length = 4
  roundtrip : ∀ a ui, deserialize (serialize a) ui = .ok () a
  lt_iff : ∀ a b, serialize a < serialize b ↔ a < b
  refused : ∀ bytes, bytes.length ≠ 4 → ∃ message, ∀ ui, deserialize bytes ui = .throw message ui

section Keys

variable {db : Database} {a b : UInt32} {bytes : List UInt8}

/-! ## The encoding -/

theorem orderEmbedding_word (wrongSize : String) :
    OrderEmbedding word (deserializeUint32 wrongSize) where
  length_eq := length_word
  roundtrip := by
    intro a ui
    have hlen : ¬ (word a).length ≠ 4 := not_not_intro (length_word a)
    rw [deserializeUint32, when_of_not hlen, pure_bind, ofWord_word]
    rfl
  lt_iff := fun _ _ => word_lt_word_iff
  refused := by
    intro bytes hlen
    refine ⟨wrongSize, fun ui => ?_⟩
    rw [deserializeUint32, when_of_pos hlen]
    rfl

theorem orderEmbedding_ldb :
    OrderEmbedding (fun ui => ldbSerialize [] (.uint32 ui)) ldbDeserializeUint32 :=
  orderEmbedding_word _

theorem orderEmbedding_mdb : OrderEmbedding mdbSerialize mdbDeserializeUint32 :=
  orderEmbedding_word _

/-! ## Ranges of numbers -/

/-- A database of keys of four bytes is one of numbers, in ascending order. -/
theorem exists_numbers (hdb : ∀ k ∈ db.keys, k.length = 4) :
    ∃ numbers : List UInt32, db.keys = numbers.map word ∧ numbers.Pairwise (· < ·) := by
  obtain ⟨numbers, hnumbers⟩ : db.keys ∈ Set.range (List.map word) := by
    rw [Set.range_list_map]
    exact fun k hk => (exists_word (hdb k hk)).imp fun _ h => h.symm
  refine ⟨numbers, hnumbers.symm, ?_⟩
  have hsorted := db.pairwise_keys
  rw [← hnumbers, List.pairwise_map] at hsorted
  exact hsorted.imp word_lt_word_iff.mp

/-- The interval between two numbers. -/
theorem interval_map_word (numbers : List UInt32) :
    interval (word a) (word b) (numbers.map word) =
      (numbers.filter fun k => a ≤ k ∧ k < b).map word := by
  rw [interval, List.filter_map]
  congr 1
  refine List.filter_congr fun k _ => ?_
  simp only [Function.comp, word_le_word_iff, word_lt_word_iff]

/-- The key at a position. -/
def keyAt (kind : Kind) (o : Option (List UInt8)) : Except String Datum :=
  ldbDeserialize ((o.map view).getD []) kind

theorem getKey_eq (kind : Kind) : IteratorEntry.getKey kind = fun it => keyAt kind it.position := by
  funext entry
  rw [IteratorEntry.getKey, IteratorEntry.keyView, keyAt]
  cases entry.position <;> rfl

theorem keyAt_word (n : UInt32) : keyAt .uint32 (some (word n)) = .ok (.uint32 n) := by
  have hview : view (word n) = word n := by
    rw [view, length_word, Nat.mod_eq_of_lt (by omega), ← length_word n, List.take_length]
  rw [keyAt, Option.map_some, Option.getD_some, hview, ldbDeserialize, ofWord_word]

/-- The encodings of numbers by both wrappers keep their order; and over a database of keys of four
bytes, a range of numbers reads the stored numbers in the interval, in ascending order. -/
theorem uint32_keys_ordered (db : Database) (hdb : ∀ k ∈ db.keys, k.length = 4) (a b : UInt32)
    (hle : a ≤ b) :
    OrderEmbedding (fun ui => ldbSerialize [] (.uint32 ui)) ldbDeserializeUint32 ∧
      OrderEmbedding mdbSerialize mdbDeserializeUint32 ∧
      ∃ numbers : List UInt32, db.keys = numbers.map word ∧ numbers.Pairwise (· < ·) ∧
        let range := Ldb.range db db (.uint32 a) (.uint32 b)
        ∃ fuel, Tour.visit (fun it => it.equal range.2) (IteratorEntry.getKey .uint32)
            IteratorEntry.increment fuel range.1 =
          some ((numbers.filter fun k => a ≤ k ∧ k < b).map fun k => .ok (.uint32 k)) := by
  obtain ⟨numbers, hnumbers, hsorted⟩ := exists_numbers hdb
  refine ⟨orderEmbedding_ldb, orderEmbedding_mdb, numbers, hnumbers, hsorted, ?_⟩
  intro range
  have hfit : range.1.At db (db.keys.find? (word a ≤ ·)) := seek_at db (word a)
  have htit : range.2.At db (db.keys.find? (word b ≤ ·)) := seek_at db (word b)
  have hstop : ∀ k, db.keys.find? (word b ≤ ·) = some k → word b ≤ k := fun k hk => by
    have hge := List.find?_some hk
    rwa [decide_eq_true_eq] at hge
  obtain ⟨fuel, hvisit⟩ :=
    (visit_interval_iff (word_le_word_iff.mpr hle) hfit htit hstop).mpr rfl
  refine ⟨fuel, ?_⟩
  rw [getKey_eq, Tour.visit_comp, hvisit, hnumbers]
  have hinterval : interval (word a) (word b) (numbers.map word) = _ := interval_map_word numbers
  rw [Option.map_some, hinterval, List.map_map, List.map_map]
  refine congrArg some (List.map_congr_left fun k _ => ?_)
  exact keyAt_word k

end Keys

/-- A database of the keys 1, 256 and 300. -/
def threeNumbers : Database :=
  ⟨[(word 1, []), (word 256, [1]), (word 300, [])], by decide⟩

/-- Between 2 and 300 there is 256. -/
theorem uint32_keys_threeNumbers :
    let range := Ldb.range threeNumbers threeNumbers (.uint32 2) (.uint32 300)
    ∃ fuel, Tour.visit (fun it => it.equal range.2) (IteratorEntry.getKey .uint32)
      IteratorEntry.increment fuel range.1 = some [.ok (.uint32 256)] := by
  intro range
  have hdb : ∀ k ∈ threeNumbers.keys, k.length = 4 := by
    rintro k hk
    simp only [threeNumbers, SortedMap.keys, List.map_cons, List.map_nil, List.mem_cons,
      List.not_mem_nil, or_false] at hk
    rcases hk with rfl | rfl | rfl <;> rfl
  obtain ⟨-, -, numbers, hnumbers, -, fuel, hvisit⟩ :=
    uint32_keys_ordered threeNumbers hdb 2 300 (by decide)
  have heq : numbers = [1, 256, 300] := by
    have hinj : Function.Injective word := fun n m h => by
      rw [← Option.some_inj, ← ofWord_word n, ← ofWord_word m, h]
    exact (List.map_injective_iff.mpr hinj (hnumbers.symm.trans rfl))
  refine ⟨fuel, hvisit.trans ?_⟩
  rw [heq]
  rfl

end Glim
