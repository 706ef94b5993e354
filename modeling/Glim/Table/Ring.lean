import Glim.Table.Tour
import Mathlib.Data.Int.ModEq
import Mathlib.Tactic.Linarith

/-!
# The positions of a list in a ring

The positions of a cursor that goes round a list are numbered with the integers modulo one more
than the length of the list: the end has the number of the length. Going on adds one, and going back
takes one away.

## Main definitions

* `Ring.pos`: the position with a number

## Main results

* `Ring.next_pos`, `Ring.prev_pos`: going on and going back
* `Ring.exists_pos`: every position has a number
* `Ring.pos_eq_pos_iff`: which numbers have the same position
-/

namespace Table

namespace Ring

variable {α : Type} {L : List α} {o : Option α} {i j : ℤ}

/-- The index in the list of a number. -/
def index (L : List α) (i : ℤ) : ℕ := (i % (L.length + 1)).toNat

/-- The position with a number. -/
def pos (L : List α) (i : ℤ) : Option α := L[index L i]?

theorem coe_index : (index L i : ℤ) = i % (L.length + 1) :=
  Int.toNat_of_nonneg (Int.emod_nonneg i (by omega))

theorem index_le : index L i ≤ L.length := by
  have h := Int.emod_lt_of_pos i (show (0 : ℤ) < L.length + 1 by omega)
  rw [← coe_index] at h
  omega

theorem index_natCast {n : ℕ} (h : n ≤ L.length) : index L n = n := by
  rw [index, Int.emod_eq_of_lt (by omega) (by omega)]
  rfl

/-- Going on from the end leads to the beginning. -/
theorem index_add_one :
    index L (i + 1) = if index L i = L.length then 0 else index L i + 1 := by
  have hmod : ((index L (i + 1) : ℕ) : ℤ) = (index L i + 1 : ℤ) % (L.length + 1) := by
    rw [coe_index, coe_index, Int.emod_add_emod]
  have hle := index_le (L := L) (i := i)
  split_ifs with h
  · rw [h, Int.emod_self] at hmod
    exact_mod_cast hmod
  · rw [Int.emod_eq_of_lt (by omega) (by omega)] at hmod
    exact_mod_cast hmod

theorem pos_of_index (h : index L i = L.length) : pos L i = none := by
  rw [pos, h]
  exact List.getElem?_eq_none le_rfl

/-- Every position has a number. -/
theorem exists_pos (h : Tour.IsPos L o) : ∃ i, pos L i = o := by
  cases o with
  | none => exact ⟨L.length, pos_of_index (index_natCast le_rfl)⟩
  | some k =>
    obtain ⟨n, hn, hk⟩ := List.mem_iff_getElem.mp (h k rfl)
    exact ⟨n, by rw [pos, index_natCast hn.le, List.getElem?_eq_getElem hn, hk]⟩

theorem isPos_pos : Tour.IsPos L (pos L i) := fun _ h => List.mem_of_getElem? h

/-- Numbers have the same position if and only if they are congruent. -/
theorem pos_eq_pos_iff (hL : L.Nodup) :
    pos L i = pos L j ↔ i ≡ j [ZMOD L.length + 1] := by
  have hmod : i ≡ j [ZMOD L.length + 1] ↔ index L i = index L j := by
    rw [Int.ModEq, ← coe_index, ← coe_index, Int.natCast_inj]
  rw [hmod, pos, pos]
  constructor
  · intro h
    rcases index_le.eq_or_lt with hi | hi
    · rcases index_le.eq_or_lt with hj | hj
      · exact hi.trans hj.symm
      · rw [List.getElem?_eq_none hi.ge, List.getElem?_eq_getElem hj] at h
        cases h
    · exact (List.getElem?_inj hi hL).mp h
  · intro h
    rw [h]

variable [DecidableEq α]

/-- Going on adds one to the number. -/
theorem next_pos (hL : L.Nodup) : Tour.next L (pos L i) = pos L (i + 1) := by
  rw [pos.eq_def L (i + 1), index_add_one]
  split_ifs with h
  · rw [pos_of_index h]
    exact List.head?_eq_getElem? ..
  · have hlt : index L i < L.length := lt_of_le_of_ne index_le h
    have hsplit : L = L.take (index L i) ++ L[index L i] :: L.drop (index L i + 1) := by
      rw [List.getElem_cons_drop, List.take_append_drop]
    have hnotin : L[index L i] ∉ L.take (index L i) := by
      rw [hsplit, List.nodup_append] at hL
      intro hin
      exact hL.2.2 _ hin _ List.mem_cons_self rfl
    rw [pos, List.getElem?_eq_getElem hlt]
    calc Tour.next L (some L[index L i])
        = Tour.next (L.take (index L i) ++ L[index L i] :: L.drop (index L i + 1))
            (some L[index L i]) := by rw [← hsplit]
      _ = (L.drop (index L i + 1)).head? := Tour.next_append hnotin
      _ = L[index L i + 1]? := List.head?_drop

/-- Going back takes one away. -/
theorem prev_pos (hL : L.Nodup) : Tour.next L.reverse (pos L i) = pos L (i - 1) := by
  have hnext := next_pos hL (i := i - 1)
  rw [sub_add_cancel] at hnext
  rw [← hnext]
  exact Tour.next_reverse_next hL isPos_pos

end Ring

end Table
