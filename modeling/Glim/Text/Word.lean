import Mathlib.Tactic.Common
import Mathlib.Data.List.Basic
import Mathlib.Algebra.Group.Int.Defs
import Mathlib.Algebra.Group.Nat.Defs

/-!
# Words in network byte order

A 32-bit word as four bytes, the most significant one first, and reading and writing such
words inside a byte string.

## Main definitions

* `word`, `ofWord`: a word and its bytes
* `wordAt`, `putWord`: a word inside a byte string

## Main results

* `ofWord_word`: reading back a word
* `wordAt_words`, `putWord_append`: a word of a table is found and replaced
* `toInt_toInt32`: a word as a signed number
-/

namespace Text

/-- The bytes of a word, the most significant one first. -/
def word (n : UInt32) : List UInt8 :=
  [UInt8.ofNat (n.toNat / 2 ^ 24), UInt8.ofNat (n.toNat / 2 ^ 16), UInt8.ofNat (n.toNat / 2 ^ 8),
    UInt8.ofNat n.toNat]

/-- The word with the given bytes. -/
def ofWord : List UInt8 → Option UInt32
  | [a, b, c, d] =>
    some (UInt32.ofNat (a.toNat * 2 ^ 24 + b.toNat * 2 ^ 16 + c.toNat * 2 ^ 8 + d.toNat))
  | _ => none

/-- The word at an offset. -/
def wordAt (bytes : List UInt8) (off : ℕ) : Option UInt32 := ofWord ((bytes.drop off).take 4)

/-- The bytes with a word written at an offset, if there is room for it. -/
def putWord (bytes : List UInt8) (off : ℕ) (n : UInt32) : Option (List UInt8) :=
  if off + 4 ≤ bytes.length then some (bytes.take off ++ word n ++ bytes.drop (off + 4)) else none

@[simp] theorem length_word (n : UInt32) : (word n).length = 4 := rfl

/-- Reading back a word. -/
theorem ofWord_word (n : UInt32) : ofWord (word n) = some n := by
  have hn := n.toNat_lt
  have hbytes : (UInt8.ofNat (n.toNat / 2 ^ 24)).toNat * 2 ^ 24 +
      (UInt8.ofNat (n.toNat / 2 ^ 16)).toNat * 2 ^ 16 +
      (UInt8.ofNat (n.toNat / 2 ^ 8)).toNat * 2 ^ 8 + (UInt8.ofNat n.toNat).toNat = n.toNat := by
    simp only [UInt8.toNat_ofNat']
    omega
  rw [word, ofWord, hbytes, UInt32.ofNat_toNat]

variable {pre post : List UInt8} {ns : List UInt32} {n : UInt32}

theorem wordAt_append (pre post : List UInt8) (n : UInt32) :
    wordAt (pre ++ word n ++ post) pre.length = some n := by
  rw [wordAt, List.append_assoc, List.drop_left' rfl, List.take_left' (length_word n), ofWord_word]

theorem putWord_append {old : List UInt8} (hold : old.length = 4) :
    putWord (pre ++ old ++ post) pre.length n = some (pre ++ word n ++ post) := by
  have htake : (pre ++ old ++ post).take pre.length = pre := by
    rw [List.append_assoc]
    exact List.take_left' rfl
  have hdrop : (pre ++ old ++ post).drop (pre.length + 4) = post :=
    List.drop_left' (by rw [List.length_append, hold])
  rw [putWord, htake, hdrop, if_pos (by simp only [List.length_append]; omega)]

/-! ## Tables of words -/

theorem length_words (ns : List UInt32) : (ns.flatMap word).length = 4 * ns.length := by
  induction ns with
  | nil => rfl
  | cons n ns ih =>
    rw [List.flatMap_cons, List.length_append, ih, length_word, List.length_cons]
    omega

/-- The word with a given index. -/
theorem wordAt_words {i : ℕ} (hi : ns[i]? = some n) :
    wordAt (pre ++ ns.flatMap word ++ post) (pre.length + 4 * i) = some n := by
  obtain ⟨hlt, rfl⟩ := List.getElem?_eq_some_iff.mp hi
  have hsplit : ns.flatMap word = (ns.take i).flatMap word ++
      (word ns[i] ++ (ns.drop (i + 1)).flatMap word) := by
    rw [← List.flatMap_cons, ← List.flatMap_append, List.getElem_cons_drop, List.take_append_drop]
  have hbytes : pre ++ ns.flatMap word ++ post =
      (pre ++ (ns.take i).flatMap word) ++ word ns[i] ++
        ((ns.drop (i + 1)).flatMap word ++ post) := by
    rw [hsplit]
    simp only [List.append_assoc]
  have hoff : pre.length + 4 * i = (pre ++ (ns.take i).flatMap word).length := by
    rw [List.length_append, length_words, List.length_take, Nat.min_eq_left (Nat.le_of_lt hlt)]
  rw [hbytes, hoff, wordAt_append]

/-- A word behind the end. -/
theorem wordAt_eq_none {bytes : List UInt8} {off : ℕ} (hoff : bytes.length ≤ off) :
    wordAt bytes off = none := by
  rw [wordAt, List.drop_eq_nil_of_le hoff]
  rfl

/-! ## Words as signed numbers -/

/-- `(int) n`. -/
theorem toInt_toInt32 (n : UInt32) :
    n.toInt32.toInt = if n.toNat < 2 ^ 31 then (n.toNat : ℤ) else (n.toNat : ℤ) - 2 ^ 32 := by
  have hbits : n.toInt32.toInt = n.toBitVec.toInt := rfl
  have hnat : n.toBitVec.toNat = n.toNat := rfl
  rw [hbits, BitVec.toInt_eq_toNat_cond, hnat]
  refine if_congr ?_ rfl rfl
  omega

end Text
