import Glim.Text.Radix

/-!
# `itoa`

The loop of `itoa` writes the digits of the value least significant first, with the
remainder of a division towards zero as the index into a table that is symmetric
around its digit 0, then the sign, and then reverses what it has written.

## Main results

* `itoa_eq_signedRadix`: `itoa` writes the text of its argument
-/

namespace Glim

open Text

/-- The table of `itoa`: the digit `d` stands at `35 + d` and at `35 - d`. -/
def digitTable : List UInt8 :=
  ascii "zyxwvutsrqponmlkjihgfedcba9876543210123456789abcdefghijklmnopqrstuvwxyz"

/-- `35 + (tmp_value - value * base)`. -/
def digitIndex (tmp value base : ℤ) : ℤ := 35 + (tmp - value * base)

/-- The `do`-`while` loop of `itoa`: the characters in the order they are written, and the
last `tmp_value`. An `int64_t` has at most 64 digits in any base. -/
def itoaLoop (base : ℤ) : ℕ → ℤ → List UInt8 × ℤ
  | 0, tmp => ([], tmp)
  | fuel + 1, tmp =>
    let value := tmp.tdiv base
    let ch := digitTable.getD (digitIndex tmp value base).toNat 0
    if value = 0 then ([ch], tmp)
    else
      let (chars, last) := itoaLoop base fuel value
      (ch :: chars, last)

/-- The characters `itoa` leaves before the terminating NUL. -/
def itoa (value : ℤ) (base : ℤ) : List UInt8 :=
  if base < 2 ∨ base > 36 then []
  else
    let (chars, last) := itoaLoop base 64 value
    (if last < 0 then chars ++ [minus] else chars).reverse

/-- The table is symmetric: what is looked up is the digit of the absolute remainder. -/
theorem digitTable_getD {r : ℤ} (h : r.natAbs < 36) :
    digitTable.getD (35 + r).toNat 0 = digitChar r.natAbs := by
  have hpos : ∀ d < 36, digitTable.getD (35 + d) 0 = digitChar d := by decide
  have hneg : ∀ d < 36, digitTable.getD (35 - d) 0 = digitChar d := by decide
  rcases Int.natAbs_eq r with hr | hr
  · rw [← hpos _ h]; congr 1; omega
  · rw [← hneg _ h]; congr 1; omega

/-- One round looks up the remainder. -/
theorem digitIndex_tdiv (v : ℤ) (b : ℕ) : digitIndex v (v.tdiv b) b = 35 + v.tmod b := by
  have hdiv := Int.tmod_add_mul_tdiv v b
  rw [mul_comm] at hdiv
  rw [digitIndex]
  omega

theorem natAbs_tmod_lt {b : ℕ} (hb : 1 < b) (v : ℤ) : (v.tmod b).natAbs < b := by
  have ha : (v.tmod b).natAbs = v.natAbs % b := by simp
  rw [ha]
  exact Nat.mod_lt _ (by omega)

/-- The digit of one round. -/
theorem digitTable_digitIndex {b : ℕ} (hb : 1 < b) (hb' : b ≤ 36) (v : ℤ) :
    digitTable.getD (digitIndex v (v.tdiv b) b).toNat 0 = digitChar (v.natAbs % b) := by
  have ha : (v.tmod b).natAbs = v.natAbs % b := by simp
  rw [digitIndex_tdiv, digitTable_getD (lt_of_lt_of_le (natAbs_tmod_lt hb v) hb'), ha]

/-- The loop writes the digits of `|v|` in reverse and ends on a value of the sign of `v`. -/
theorem itoaLoop_eq {b : ℕ} (hb : 1 < b) (hb' : b ≤ 36) :
    ∀ (fuel : ℕ) (v : ℤ), v.natAbs < b ^ fuel → 0 < fuel →
      (itoaLoop b fuel v).1 = (radix b v.natAbs).reverse ∧
        ((itoaLoop b fuel v).2 < 0 ↔ v < 0)
  | 0, _, _, h => absurd h (by omega)
  | fuel + 1, v, hv, _ => by
    have hq : (v.tdiv b).natAbs = v.natAbs / b := by rw [Int.natAbs_tdiv]; rfl
    simp only [itoaLoop, digitTable_digitIndex hb hb']
    by_cases h0 : v.tdiv b = 0
    · have hlt : v.natAbs < b := by
        rw [h0, Int.natAbs_zero] at hq
        exact (Nat.div_eq_zero_iff_lt (by omega)).mp hq.symm
      simp [h0, radix_of_lt hlt, Nat.mod_eq_of_lt hlt]
    · have hge : b ≤ v.natAbs := by
        by_contra hlt
        exact h0 (Int.natAbs_eq_zero.mp (by rw [hq, Nat.div_eq_of_lt (by omega)]))
      have hfuel : 0 < fuel := by
        rcases Nat.eq_zero_or_pos fuel with rfl | hf
        · simp at hv; omega
        · exact hf
      have hq' : (v.tdiv b).natAbs < b ^ fuel := by
        rw [hq]
        exact Nat.div_lt_of_lt_mul (by rwa [pow_succ, mul_comm] at hv)
      obtain ⟨hd, hs⟩ := itoaLoop_eq hb hb' fuel (v.tdiv b) hq' hfuel
      refine ⟨?_, ?_⟩
      · simp [h0, hd, hq, radix_eq_append hb hge]
      -- the quotient is not zero, so it has the sign of `v`
      · simp only [h0, if_false, hs]
        rcases le_or_gt 0 v with hv0 | hv0
        · have := Int.tdiv_nonneg hv0 (Int.natCast_nonneg b)
          omega
        · have := Int.tdiv_nonneg (Int.neg_nonneg_of_nonpos hv0.le) (Int.natCast_nonneg b)
          rw [Int.neg_tdiv] at this
          omega

/-- `itoa` writes the text of its argument. -/
theorem itoa_eq_signedRadix {b : ℕ} (hb : 1 < b) (hb' : b ≤ 36) {v : ℤ} (hv : v.natAbs < 2 ^ 64) :
    itoa v b = signedRadix b v := by
  have hpow : v.natAbs < b ^ 64 := hv.trans_le (Nat.pow_le_pow_left hb 64)
  obtain ⟨hd, hs⟩ := itoaLoop_eq hb hb' 64 v hpow (by decide)
  have hbase : ¬ ((b : ℤ) < 2 ∨ (b : ℤ) > 36) := by omega
  simp only [itoa, hbase, if_false, hs, hd, signedRadix]
  split <;> simp

/-- `itoa` in its default base. -/
theorem itoa_ten {v : ℤ} (hv : v.natAbs < 2 ^ 64) : itoa v 10 = signed v :=
  itoa_eq_signedRadix (b := 10) (by decide) (by decide) hv

example : itoa (-9223372036854775808) 10 = ascii "-9223372036854775808" := by decide

end Glim
