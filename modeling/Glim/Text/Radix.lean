import Mathlib.Data.Nat.Digits.Lemmas
import Mathlib.Tactic.Common

/-!
# Numbers as text

The text of a number in a base up to 36, most significant digit first and without
leading zeros, and the value of such a text. `Nat.digits` is the arithmetic; this
module adds the characters.

## Main definitions

* `ascii`: the bytes of an ASCII string literal
* `radix`, `decimal`: the text of a natural number
* `signed`: the decimal text of an integer
* `value`: the number a text of decimal digits stands for

## Main results

* `radix_eq_append`: the recursion on the last digit
* `value_decimal`: reading back a decimal text
* `length_radix_le`: how long a text can be
-/

namespace Text

/-- The bytes of an ASCII string. -/
def ascii (s : String) : List UInt8 := s.toList.map fun c => UInt8.ofNat c.toNat

/-- The character of a digit below 36. -/
def digitChar (d : ℕ) : UInt8 := UInt8.ofNat (if d < 10 then 48 + d else 87 + d)

/-- The text of `n` in base `b`. -/
def radix (b n : ℕ) : List UInt8 :=
  if n = 0 then [digitChar 0] else ((Nat.digits b n).map digitChar).reverse

abbrev decimal (n : ℕ) : List UInt8 := radix 10 n

/-- The minus sign. -/
def minus : UInt8 := 45

/-- The text of an integer in base `b`. -/
def signedRadix (b : ℕ) (v : ℤ) : List UInt8 :=
  if v < 0 then minus :: radix b v.natAbs else radix b v.natAbs

abbrev signed (v : ℤ) : List UInt8 := signedRadix 10 v

/-- A decimal digit. -/
def isDigit (c : UInt8) : Bool := 48 ≤ c && c ≤ 57

/-- The number a decimal text stands for. -/
def value (ds : List UInt8) : ℕ := ds.foldl (fun acc c => 10 * acc + (c.toNat - 48)) 0

/-! ## The text of a number -/

variable {b n : ℕ}

theorem radix_of_lt (h : n < b) : radix b n = [digitChar n] := by
  by_cases h0 : n = 0
  · simp [radix, h0]
  · rw [radix, if_neg h0, Nat.digits_of_lt b n h0 h]
    rfl

/-- The recursion on the last digit. -/
theorem radix_eq_append (hb : 1 < b) (h : b ≤ n) :
    radix b n = radix b (n / b) ++ [digitChar (n % b)] := by
  have h0 : n ≠ 0 := by omega
  have hq : n / b ≠ 0 := (Nat.div_pos h (by omega)).ne'
  rw [radix, if_neg h0, radix, if_neg hq, Nat.digits_def' hb (Nat.pos_of_ne_zero h0)]
  simp

theorem radix_ne_nil : radix b n ≠ [] := by
  by_cases h0 : n = 0
  · simp [radix, h0]
  · simp [radix, h0, Nat.digits_eq_nil_iff_eq_zero]

/-- A number below `b ^ k` has at most `k` digits. -/
theorem length_radix_le {k : ℕ} (hb : 1 < b) (hk : 0 < k) (h : n < b ^ k) :
    (radix b n).length ≤ k := by
  by_cases h0 : n = 0
  · simp [radix, h0]; omega
  · simpa [radix, h0] using (Nat.digits_length_le_iff hb n).mpr h

/-- The number of digits, as a bound on the number. -/
theorem length_radix_le_iff {k : ℕ} (hb : 1 < b) (hk : 0 < k) :
    (radix b n).length ≤ k ↔ n < b ^ k := by
  refine ⟨fun h => ?_, length_radix_le hb hk⟩
  by_cases h0 : n = 0
  · rw [h0]
    exact Nat.pow_pos (by omega)
  · exact (Nat.digits_length_le_iff hb n).mp (by simpa [radix, h0] using h)

theorem length_signedRadix (b : ℕ) (v : ℤ) :
    (signedRadix b v).length = (radix b v.natAbs).length + if v < 0 then 1 else 0 := by
  unfold signedRadix
  split_ifs
  · rw [List.length_cons]
  · rfl

theorem length_signedRadix_le {k : ℕ} {v : ℤ} (hb : 1 < b) (hk : 0 < k) (h : v.natAbs < b ^ k) :
    (signedRadix b v).length ≤ k + 1 := by
  have hl := length_radix_le hb hk h
  unfold signedRadix
  split
  · simpa using hl
  · omega

/-! ## Decimal digits -/

theorem isDigit_digitChar {d : ℕ} (h : d < 10) : isDigit (digitChar d) := by
  interval_cases d <;> rfl

theorem toNat_digitChar {d : ℕ} (h : d < 10) : (digitChar d).toNat = 48 + d := by
  interval_cases d <;> rfl

theorem isDigit_of_mem_decimal {c : UInt8} (h : c ∈ decimal n) : isDigit c := by
  by_cases h0 : n = 0
  · simp only [decimal, radix, h0, if_true, List.mem_singleton] at h
    rw [h]; rfl
  · simp only [decimal, radix, h0, if_false, List.mem_reverse, List.mem_map] at h
    obtain ⟨d, hd, rfl⟩ := h
    exact isDigit_digitChar (Nat.digits_lt_base (by decide) hd)

theorem value_append_singleton (ds : List UInt8) (c : UInt8) :
    value (ds ++ [c]) = 10 * value ds + (c.toNat - 48) := by
  simp [value]

/-- A run of `k` digits stands for a number below `10 ^ k`. -/
theorem value_lt {ds : List UInt8} (hds : ∀ d ∈ ds, isDigit d) : value ds < 10 ^ ds.length := by
  induction ds using List.reverseRecOn with
  | nil => exact Nat.one_pos
  | append_singleton ds c ih =>
    have hlt := ih fun d hd => hds d (List.mem_append_left _ hd)
    have hc := hds c (List.mem_append_right _ List.mem_cons_self)
    have hc9 : c.toNat ≤ 57 := by
      simp only [isDigit, Bool.and_eq_true, decide_eq_true_eq, UInt8.le_iff_toNat_le] at hc
      exact hc.2
    rw [value_append_singleton, List.length_append, List.length_singleton, pow_succ]
    omega

/-- The value of a decimal text. -/
theorem value_decimal (n : ℕ) : value (decimal n) = n := by
  induction n using Nat.strongRecOn with
  | ind n ih =>
    by_cases h : n < 10
    · rw [decimal, radix_of_lt h, ← List.nil_append [digitChar n], value_append_singleton,
        toNat_digitChar h]
      simp [value]
    · rw [decimal, radix_eq_append (by decide) (by omega), value_append_singleton,
        ih (n / 10) (by omega), toNat_digitChar (Nat.mod_lt _ (by decide))]
      omega

end Text
