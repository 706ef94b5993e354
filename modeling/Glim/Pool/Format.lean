import Glim.Pool.Basic
import Glim.Table.Patch
import Mathlib.Data.List.GetD

/-!
# The format of a pool

A pool holds the offset of its values, a table with the offset of every value, and the
values, each with a zero behind it. This module defines the bytes of a list of fields, and
reads them back with `original`.

## Main definitions

* `encode`: the bytes of a list of fields
* `Stores`: a pool below the length limit that stores a list of fields

## Main results

* `original_encode`, `poolSize_encode`: reading a pool gives the fields it was made of
-/

namespace Glim.Pool

open Machine Exec Text

/-- The values, each with a zero behind it. -/
def zeroTerminated (fields : List (List UInt8)) : List UInt8 := fields.flatMap (· ++ [0])

/-- The offsets of the values, the first of which begins at `start`. -/
def offsets : ℕ → List (List UInt8) → List UInt32
  | _, [] => []
  | start, v :: vs => UInt32.ofNat start :: offsets (start + v.length + 1) vs

/-- Where the values of `n` fields begin. -/
def valuesAt (n : ℕ) : ℕ := 4 + 4 * n

/-- The bytes of a list of fields. -/
def encode (fields : List (List UInt8)) : List UInt8 :=
  if fields = [] then []
  else word (UInt32.ofNat (valuesAt fields.length)) ++
    (offsets (valuesAt fields.length) fields).flatMap word ++ zeroTerminated fields

/-- The pool stores the fields, in less than `2 ^ 24` bytes. -/
structure Stores (pool : List UInt8) (fields : List (List UInt8)) : Prop where
  eq : pool = encode fields
  short : (encode fields).length < 2 ^ 24

variable {fields : List (List UInt8)} {v : List UInt8} {start i : ℕ} {num : UInt32}
  {pool : List UInt8}

theorem zeroTerminated_append (vs ws : List (List UInt8)) :
    zeroTerminated (vs ++ ws) = zeroTerminated vs ++ zeroTerminated ws := List.flatMap_append

theorem zeroTerminated_cons (v : List UInt8) (vs : List (List UInt8)) :
    zeroTerminated (v :: vs) = v ++ [0] ++ zeroTerminated vs := List.flatMap_cons

theorem length_offsets : (offsets start fields).length = fields.length := by
  induction fields generalizing start with
  | nil => rfl
  | cons v vs ih => rw [offsets, List.length_cons, ih, List.length_cons]

/-- The offset of a field. -/
theorem getElem?_offsets (hi : i < fields.length) : (offsets start fields)[i]? =
    some (UInt32.ofNat (start + (zeroTerminated (fields.take i)).length)) := by
  induction fields generalizing start i with
  | nil => simp at hi
  | cons v vs ih =>
    cases i with
    | zero => rfl
    | succ i =>
      rw [offsets, List.getElem?_cons_succ, ih (Nat.lt_of_succ_lt_succ hi), List.take_succ_cons,
        zeroTerminated_cons]
      simp only [List.length_append, List.length_singleton, Nat.add_assoc]

/-- A field more has one offset more. -/
theorem offsets_append_singleton : offsets start (fields ++ [v]) =
    offsets start fields ++ [UInt32.ofNat (start + (zeroTerminated fields).length)] := by
  induction fields generalizing start with
  | nil => rfl
  | cons w ws ih =>
    rw [List.cons_append, offsets, ih, offsets, List.cons_append, zeroTerminated_cons]
    simp only [List.length_append, List.length_singleton, Nat.add_assoc]

theorem length_encode (hne : fields ≠ []) :
    (encode fields).length = valuesAt fields.length + (zeroTerminated fields).length := by
  rw [encode, if_neg hne, List.length_append, List.length_append, length_words, length_offsets,
    length_word, valuesAt]

/-- A field and its zero lie between two offsets. -/
theorem length_zeroTerminated_take_succ (hi : i < fields.length) :
    (zeroTerminated (fields.take (i + 1))).length =
      (zeroTerminated (fields.take i)).length + fields[i].length + 1 := by
  rw [List.take_succ_eq_append_getElem hi, zeroTerminated_append, List.length_append,
    zeroTerminated_cons, List.length_append, List.length_append]
  rfl

theorem length_le_zeroTerminated_take (fields : List (List UInt8)) (i : ℕ) :
    (zeroTerminated (fields.take i)).length ≤ (zeroTerminated fields).length := by
  conv_rhs => rw [← List.take_append_drop i fields, zeroTerminated_append, List.length_append]
  exact Nat.le_add_right _ _

/-- The bytes of the first fields are not longer. -/
theorem length_encode_take_le (fields : List (List UInt8)) (i : ℕ) :
    (encode (fields.take i)).length ≤ (encode fields).length := by
  by_cases hne : fields.take i = []
  · rw [hne]
    exact Nat.zero_le _
  · have hle := length_le_zeroTerminated_take fields i
    have htake : (fields.take i).length ≤ fields.length := by
      rw [List.length_take]
      exact Nat.min_le_right _ _
    rw [length_encode hne, length_encode (by rintro rfl; exact hne List.take_nil)]
    simp only [valuesAt]
    omega

/-! ## Reading -/

theorem lessThan4_eq {a b : UInt32} (ha : a.toNat < 2 ^ 31) (hb : b.toNat < 2 ^ 31) :
    lessThan4 a b = some (decide (a.toNat < b.toNat + 4)) := by
  rw [lessThan4, toInt_toInt32, toInt_toInt32, if_pos ha, if_pos hb, if_pos (by omega)]
  congr 2
  exact propext (by omega)

theorem viewAt_eq {off len : UInt32} {pre post : List UInt8} (hoff : off.toNat = pre.length)
    (hlen : len.toNat = v.length) (hshort : v.length < 2 ^ 24) :
    viewAt (pre ++ v ++ post) off len = some v := by
  rw [viewAt, hlen, Nat.mod_eq_of_lt hshort, hoff]
  rw [if_pos (by simp only [List.length_append]; omega), List.append_assoc, List.drop_left' rfl,
    List.take_left' rfl]

/-- The first word of a pool. -/
theorem wordAt_encode_zero (hne : fields ≠ []) :
    wordAt (encode fields) 0 = some (UInt32.ofNat (valuesAt fields.length)) := by
  rw [encode, if_neg hne, List.append_assoc]
  exact wordAt_append [] _ _

/-- The offset of a field, in the table of the pool. -/
theorem wordAt_encode (hi : i < fields.length) : wordAt (encode fields) (4 + 4 * i) =
    some (UInt32.ofNat (valuesAt fields.length + (zeroTerminated (fields.take i)).length)) := by
  rw [encode, if_neg (by rintro rfl; simp at hi)]
  exact wordAt_words (getElem?_offsets hi)

/-- Where a field lies. -/
theorem exists_encode_eq_append (hi : i < fields.length) :
    ∃ pre post, encode fields = pre ++ fields[i] ++ post ∧
      pre.length = valuesAt fields.length + (zeroTerminated (fields.take i)).length := by
  have hsplit : zeroTerminated fields = zeroTerminated (fields.take i) ++
      (fields[i] ++ [0] ++ zeroTerminated (fields.drop (i + 1))) := by
    rw [← zeroTerminated_cons, ← zeroTerminated_append, List.getElem_cons_drop,
      List.take_append_drop]
  refine ⟨word (UInt32.ofNat (valuesAt fields.length)) ++
    (offsets (valuesAt fields.length) fields).flatMap word ++ zeroTerminated (fields.take i),
    [0] ++ zeroTerminated (fields.drop (i + 1)), ?_, ?_⟩
  · rw [encode, if_neg (by rintro rfl; simp at hi), hsplit]
    simp only [List.append_assoc]
  · rw [List.length_append, List.length_append, length_words, length_offsets, length_word, valuesAt]

theorem toNat_tableOffset (hnum : num.toNat + 1 < 2 ^ 29) :
    (4 + num * 4).toNat = 4 + 4 * num.toNat := by
  rw [UInt32.toNat_add, UInt32.toNat_mul]
  have h4 : (4 : UInt32).toNat = 4 := rfl
  rw [h4]
  omega

/-- The pool and its values are short enough for an `int`. -/
theorem toNat_encode (hlen : (encode fields).length < 2 ^ 24) (hne : fields ≠ []) :
    (UInt32.ofNat (encode fields).length).toNat = (encode fields).length ∧
      (UInt32.ofNat (valuesAt fields.length)).toNat = valuesAt fields.length ∧
      valuesAt fields.length ≤ (encode fields).length := by
  have hsize : UInt32.size = 2 ^ 32 := rfl
  have hlength := length_encode hne
  exact ⟨UInt32.toNat_ofNat_of_lt' (by omega), UInt32.toNat_ofNat_of_lt' (by omega), by omega⟩

/-- Reading a field, behind the checks of the header. -/
theorem original_encode_of_ne_nil (hlen : (encode fields).length < 2 ^ 24) (hne : fields ≠ []) :
    original (encode fields) num = (do
      if ← lessThan4 (UInt32.ofNat (valuesAt fields.length)) (4 + num * 4) then some []
      else do
        let valueOffset ← wordAt (encode fields) (4 + num * 4).toNat
        let last ← lessThan4 (UInt32.ofNat (valuesAt fields.length)) (4 + num * 4 + 4)
        let nextValueOffset ← if last then some (UInt32.ofNat (encode fields).length)
          else wordAt (encode fields) (4 + num * 4 + 4).toNat
        viewAt (encode fields) valueOffset (nextValueOffset - 1 - valueOffset)) := by
  obtain ⟨hpool, hstart, hle⟩ := toNat_encode hlen hne
  have hlong : ¬ UInt32.ofNat (encode fields).length < 4 := by
    have h4 : (4 : UInt32).toNat = 4 := rfl
    rw [UInt32.lt_iff_toNat_lt, hpool, h4]
    simp only [valuesAt] at hle
    omega
  have hassert : UInt32.ofNat (valuesAt fields.length) ≤ UInt32.ofNat (encode fields).length := by
    rw [UInt32.le_iff_toNat_le, hpool, hstart]
    exact hle
  simp only [original, if_neg hlong, wordAt_encode_zero hne, Option.bind_eq_bind, Option.bind_some,
    guard, if_pos hassert, Option.pure_def]

/-- A field ends one byte before the next value, or before the end of the pool. -/
theorem viewAt_encode (hlen : (encode fields).length < 2 ^ 24) (hi : i < fields.length)
    {next : UInt32} (hnext : next.toNat =
      valuesAt fields.length + (zeroTerminated (fields.take (i + 1))).length) :
    viewAt (encode fields)
      (UInt32.ofNat (valuesAt fields.length + (zeroTerminated (fields.take i)).length))
      (next - 1 - UInt32.ofNat (valuesAt fields.length +
        (zeroTerminated (fields.take i)).length)) = some fields[i] := by
  have hlength := length_encode (by rintro rfl; simp at hi : fields ≠ [])
  have htake := length_zeroTerminated_take_succ hi
  have hle := length_le_zeroTerminated_take fields (i + 1)
  have hone : (1 : UInt32).toNat = 1 := rfl
  obtain ⟨pre, post, hbytes, hpre⟩ := exists_encode_eq_append hi
  have hsize : UInt32.size = 2 ^ 32 := rfl
  have hoffset : (UInt32.ofNat (valuesAt fields.length +
      (zeroTerminated (fields.take i)).length)).toNat = pre.length := by
    rw [UInt32.toNat_ofNat_of_lt' (by omega), hpre]
  have hone' : (next - 1).toNat = next.toNat - 1 := by
    rw [UInt32.toNat_sub_of_le _ _ (UInt32.le_iff_toNat_le.mpr (by omega)), hone]
  rw [hbytes]
  refine viewAt_eq hoffset ?_ (by omega)
  rw [UInt32.toNat_sub_of_le _ _ (UInt32.le_iff_toNat_le.mpr (by omega)), hone', hoffset]
  omega

/-- Reading a field gives what the pool was made of. -/
theorem original_encode (hlen : (encode fields).length < 2 ^ 24) (hnum : num.toNat + 1 < 2 ^ 29) :
    original (encode fields) num = some (fields.getD num.toNat []) := by
  by_cases hne : fields = []
  · subst hne
    rfl
  have hsize : UInt32.size = 2 ^ 32 := rfl
  obtain ⟨hpool, hstart, hshort⟩ := toNat_encode hlen hne
  have hoff := toNat_tableOffset hnum
  have hvalues : valuesAt fields.length = 4 + 4 * fields.length := rfl
  rw [original_encode_of_ne_nil hlen hne,
    lessThan4_eq (by rw [hstart]; omega) (by rw [hoff]; omega), hstart, hoff]
  simp only [Option.bind_eq_bind, Option.bind_some, decide_eq_true_eq]
  by_cases hin : num.toNat < fields.length
  · have hoff' : (4 + num * 4 + 4).toNat = 4 + 4 * (num.toNat + 1) := by
      have h4 : (4 : UInt32).toNat = 4 := rfl
      rw [UInt32.toNat_add, hoff, h4]
      omega
    rw [if_neg (by omega), wordAt_encode hin, Option.bind_some,
      lessThan4_eq (by rw [hstart]; omega) (by rw [hoff']; omega), Option.bind_some, hstart,
      hoff', List.getD_eq_getElem _ _ hin]
    simp only [decide_eq_true_eq]
    have hle := length_le_zeroTerminated_take fields (num.toNat + 1)
    have hlength := length_encode hne
    by_cases hlast : num.toNat + 1 < fields.length
    · rw [if_neg (by omega), wordAt_encode hlast, Option.bind_some]
      exact viewAt_encode hlen hin (UInt32.toNat_ofNat_of_lt' (by omega))
    · rw [if_pos (by omega)]
      refine viewAt_encode hlen hin ?_
      rw [hpool, hlength, List.take_of_length_le (by omega)]
  · rw [if_pos (by omega), List.getD_eq_default _ _ (by omega)]

theorem poolSize_encode (hlen : (encode fields).length < 2 ^ 24) :
    poolSize (encode fields) = some (UInt32.ofNat fields.length) := by
  by_cases hne : fields = []
  · subst hne
    rfl
  have hlength := length_encode hne
  have hpos : 0 < fields.length := List.length_pos_iff.mpr hne
  simp only [valuesAt] at hlength
  rw [poolSize, if_neg (by omega), wordAt_encode_zero hne]
  refine congrArg some (UInt32.toNat_inj.mp ?_)
  have h4 : (4 : UInt32).toNat = 4 := rfl
  have hsize : UInt32.size = 2 ^ 32 := rfl
  have hstart : (UInt32.ofNat (valuesAt fields.length)).toNat = 4 + 4 * fields.length :=
    UInt32.toNat_ofNat_of_lt' (by simp only [valuesAt]; omega)
  rw [UInt32.toNat_div, UInt32.toNat_sub_of_le _ _ (UInt32.le_iff_toNat_le.mpr (by omega)), hstart,
    h4, UInt32.toNat_ofNat_of_lt' (by omega)]
  omega

end Glim.Pool
