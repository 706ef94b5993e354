import Mathlib.Data.List.Lex
import Mathlib.Order.Lattice
import Mathlib.Tactic.Common

/-!
# The order of byte strings

Byte strings are ordered lexicographically, by unsigned bytes. The strings with a prefix are
an interval that begins at the prefix.

## Main results

* `le_of_isPrefix`, `lt_of_isPrefix_of_not`: the strings with a prefix are an interval
* `lt_of_prefix_cons`: an upper bound of that interval
-/

namespace Text

instance instLinearOrderUInt8 : LinearOrder UInt8 where
  le_refl := UInt8.le_refl
  le_trans _ _ _ := UInt8.le_trans
  lt_iff_le_not_ge a b := by
    rw [UInt8.le_iff_toNat_le, UInt8.le_iff_toNat_le, UInt8.lt_iff_toNat_lt]
    omega
  le_antisymm _ _ := UInt8.le_antisymm
  le_total := UInt8.le_total
  toDecidableLE := inferInstance
  toDecidableLT := inferInstance
  toDecidableEq := inferInstance

/-! Byte strings can be sorted. -/

instance instIsTransBytes : IsTrans (List UInt8) fun k m => k ≤ m := instIsTransLe

instance instAntisymmBytes : Std.Antisymm fun k m : List UInt8 => k ≤ m := instAntisymmLe

instance instTotalBytes : Std.Total fun k m : List UInt8 => k ≤ m := Std.Total.mk le_total

variable {α : Type} [LinearOrder α] {p k m q t t' : List α} {b b' : α}

theorem append_cons_lt (hb : b < b') : q ++ b :: t < q ++ b' :: t' :=
  List.append_left_lt (List.cons_lt_cons_iff.mpr (Or.inl hb))

/-- A prefix comes first. -/
theorem le_of_isPrefix (h : p <+: k) : p ≤ k := by
  obtain ⟨r, rfl⟩ := h
  induction p with
  | nil => exact le_of_not_gt (List.not_lt_nil _)
  | cons a p ih =>
    rw [List.cons_append]
    exact List.cons_le_cons a ih

/-- What comes behind the prefix without having it comes behind all that have it. -/
theorem lt_of_isPrefix_of_not (hm : p <+: m) (hk : p ≤ k) (hn : ¬ p <+: k) : m < k := by
  obtain ⟨r, rfl⟩ := hm
  induction p generalizing k with
  | nil => exact absurd List.nil_prefix hn
  | cons a p ih =>
    cases k with
    | nil => exact absurd (List.nil_lt_cons a p) (not_lt_of_ge hk)
    | cons c k =>
      rw [List.cons_append, List.cons_lt_cons_iff]
      rcases lt_trichotomy a c with hlt | rfl | hgt
      · exact Or.inl hlt
      · refine Or.inr ⟨rfl, ih ?_ fun h => hn (List.cons_prefix_cons.mpr ⟨rfl, h⟩)⟩
        by_contra hlt
        exact not_lt_of_ge hk (List.cons_lt_cons_iff.mpr (Or.inr ⟨rfl, lt_of_not_ge hlt⟩))
      · exact absurd (List.cons_lt_cons_iff.mpr (Or.inl hgt)) (not_lt_of_ge hk)

/-- Incrementing an element of the prefix gives a bound of all that have it. -/
theorem lt_of_prefix_cons (hm : q ++ b :: t <+: m) (hb : b < b') : m < q ++ b' :: t' := by
  obtain ⟨r, rfl⟩ := hm
  rw [List.append_assoc, List.cons_append]
  exact append_cons_lt hb

end Text
