import Glim.Text.Lex
import Mathlib.Data.Prod.Lex

/-!
# The order of strings

`operator <` compares with `strncmp`, which stops at a zero: it orders strings by what is in
front of their first zero, and by their length if that is the same.

## Main definitions

* `strncmp`, `gstringLess`: the comparison
* `cstrPart`: what is in front of the first zero

## Main results

* `gstringLess_iff`: the comparison orders by the front part and then by the length
-/

namespace Glim

open Text

/-- `strncmp (a, b, n)`, for an `n` within both strings. -/
def strncmp : ℕ → List UInt8 → List UInt8 → Ordering
  | n + 1, a :: as, b :: bs =>
    if a < b then .lt else if b < a then .gt else if a = 0 then .eq else strncmp n as bs
  | _, _, _ => .eq

/-- `operator <`. -/
def gstringLess (a b : List UInt8) : Bool :=
  if a.length = b.length then strncmp a.length a b = .lt
  else
    match strncmp (min a.length b.length) a b with
    | .eq => a.length < b.length
    | cmp => cmp = .lt

/-- What is in front of the first zero. -/
def cstrPart (s : List UInt8) : List UInt8 := s.takeWhile (· ≠ 0)

variable {a b : List UInt8} {x : UInt8}

theorem cstrPart_cons (hx : x ≠ 0) : cstrPart (x :: a) = x :: cstrPart a := by
  simp only [cstrPart, List.takeWhile_cons, decide_eq_true hx, if_true]

theorem cstrPart_zero : cstrPart (0 :: a) = [] := rfl

theorem nil_le_cstrPart : [] ≤ cstrPart a := le_of_not_gt (List.not_lt_nil _)

/-- A smaller first byte. -/
theorem cstrPart_cons_lt {y : UInt8} (h : x < y) : cstrPart (x :: a) < cstrPart (y :: b) := by
  have hy : y ≠ 0 := by
    rintro rfl
    exact absurd (UInt8.lt_iff_toNat_lt.mp h) (Nat.not_lt_zero _)
  rw [cstrPart_cons hy]
  by_cases hx : x = 0
  · rw [hx, cstrPart_zero]
    exact List.nil_lt_cons _ _
  · rw [cstrPart_cons hx]
    exact List.cons_lt_cons_iff.mpr (Or.inl h)

/-- What the comparison of two strings up to the length of the shorter one says. -/
theorem strncmp_min (a b : List UInt8) : match strncmp (min a.length b.length) a b with
    | .lt => cstrPart a < cstrPart b
    | .gt => cstrPart b < cstrPart a
    | .eq => (a.length ≤ b.length → cstrPart a ≤ cstrPart b) ∧
        (b.length ≤ a.length → cstrPart b ≤ cstrPart a) := by
  induction a generalizing b with
  | nil =>
    have hnil : strncmp (min ([] : List UInt8).length b.length) [] b = .eq := by
      cases hn : min ([] : List UInt8).length b.length <;> rfl
    rw [hnil]
    refine ⟨fun _ => nil_le_cstrPart, fun h => ?_⟩
    rw [List.length_eq_zero_iff.mp (Nat.le_zero.mp h)]
  | cons x a ih =>
    cases b with
    | nil => exact ⟨fun h => absurd h (Nat.not_succ_le_zero _), fun _ => nil_le_cstrPart⟩
    | cons y b =>
      have hmin : min (x :: a).length (y :: b).length = min a.length b.length + 1 := by
        rw [List.length_cons, List.length_cons]
        omega
      rw [hmin, strncmp]
      by_cases hlt : x < y
      · rw [if_pos hlt]
        exact cstrPart_cons_lt hlt
      by_cases hgt : y < x
      · rw [if_neg hlt, if_pos hgt]
        exact cstrPart_cons_lt hgt
      obtain rfl : x = y := le_antisymm (not_lt.mp hgt) (not_lt.mp hlt)
      rw [if_neg hlt, if_neg hlt]
      by_cases hzero : x = 0
      -- both strings end here
      · rw [if_pos hzero, hzero]
        exact ⟨fun _ => le_refl _, fun _ => le_refl _⟩
      · have hcmp := ih (b := b)
        rw [if_neg hzero, cstrPart_cons hzero, cstrPart_cons hzero]
        cases hc : strncmp (min a.length b.length) a b with
        | lt =>
          rw [hc] at hcmp
          exact List.cons_lt_cons_iff.mpr (Or.inr ⟨rfl, hcmp⟩)
        | gt =>
          rw [hc] at hcmp
          exact List.cons_lt_cons_iff.mpr (Or.inr ⟨rfl, hcmp⟩)
        | eq =>
          rw [hc] at hcmp
          simp only [List.length_cons, Nat.add_le_add_iff_right]
          exact ⟨fun h => List.cons_le_cons x (hcmp.1 h), fun h => List.cons_le_cons x (hcmp.2 h)⟩

/-- What `operator <` orders by. -/
def lessKey (s : List UInt8) : List UInt8 ×ₗ ℕ := toLex (cstrPart s, s.length)

/-- `operator <` orders by the front part, and then by the length. -/
theorem gstringLess_iff : gstringLess a b = true ↔ lessKey a < lessKey b := by
  have hcmp := strncmp_min a b
  rw [lessKey, lessKey, Prod.Lex.toLex_lt_toLex, gstringLess]
  by_cases hlen : a.length = b.length
  -- strings of one length are compared as a whole
  · rw [if_pos hlen, decide_eq_true_eq]
    rw [← hlen, Nat.min_self] at hcmp
    cases hc : strncmp a.length a b with
    | lt =>
      rw [hc] at hcmp
      exact iff_of_true rfl (Or.inl hcmp)
    | gt =>
      rw [hc] at hcmp
      refine iff_of_false nofun ?_
      rintro (h | ⟨-, h⟩)
      · exact lt_asymm h hcmp
      · exact absurd hlen (Nat.ne_of_lt h)
    | eq =>
      rw [hc] at hcmp
      refine iff_of_false nofun ?_
      rintro (h | ⟨-, h⟩)
      · exact absurd (hcmp.2 (Nat.le_refl _)) (not_le_of_gt h)
      · exact absurd hlen (Nat.ne_of_lt h)
  -- of two lengths, the common part is compared, and then the lengths
  · rw [if_neg hlen]
    cases hc : strncmp (min a.length b.length) a b with
    | lt =>
      rw [hc] at hcmp
      exact iff_of_true rfl (Or.inl hcmp)
    | gt =>
      rw [hc] at hcmp
      refine iff_of_false nofun ?_
      rintro (h | ⟨h, -⟩)
      · exact lt_asymm h hcmp
      · exact absurd (Eq.symm h) (ne_of_lt hcmp)
    | eq =>
      rw [hc] at hcmp
      simp only [decide_eq_true_eq]
      constructor
      · intro hlt
        rcases lt_or_eq_of_le (hcmp.1 (Nat.le_of_lt hlt)) with h | h
        · exact Or.inl h
        · exact Or.inr ⟨h, hlt⟩
      · rintro (h | ⟨-, h⟩)
        · by_contra hge
          exact absurd (hcmp.2 (Nat.le_of_not_lt hge)) (not_le_of_gt h)
        · exact h

end Glim
