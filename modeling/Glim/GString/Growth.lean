import Glim.GString.Basic
import Mathlib.Data.Nat.Log

/-!
# The capacity loops

The two loops that look for a power of two, in `reserve` and in the constructor over a
caller's buffer, as logarithms.

## Main results

* `growPower_eq`: the loop of `reserve` finds the least power that is large enough, and
  shifts by 32 for sizes above `2 ^ 31`
* `fitPower_eq`: the loop of the constructor finds the largest power that fits
* `reserve_apply`: what `reserve` does, with the loop solved
-/

namespace Glim.GString

open Machine Exec Method

variable {σ : Type}

theorem shl1_of_lt {n : ℕ} (h : n < 32) : (shl1 n : Exec σ ℕ) = pure (2 ^ n) := if_neg (by omega)

theorem shl1_of_ge {n : ℕ} (h : 32 ≤ n) : (shl1 n : Exec σ ℕ) = fail .wideShift := if_pos h

theorem lt_clog_two {p n : ℕ} (h : 2 ^ p < n) : p < Nat.clog 2 n := by
  rw [← not_le, Nat.clog_le_iff_le_pow (by decide)]
  omega

/-- The loop of `reserve`. -/
theorem growPower_eq (n : ℕ) : ∀ fuel p, 0 < fuel → 33 ≤ p + fuel → p ≤ 32 →
    (growPower n fuel p : Exec σ ℕ) =
      if p ≤ 31 ∧ n ≤ 2 ^ 31 then pure (max p (Nat.clog 2 n)) else fail .wideShift
  | 0, _, h, _, _ => absurd h (by omega)
  | fuel + 1, p, _, hfuel, hp => by
    simp only [growPower]
    by_cases h32 : 32 ≤ p
    · rw [shl1_of_ge h32, if_neg (by omega)]
      rfl
    · rw [shl1_of_lt (by omega)]
      show (if 2 ^ p < n then growPower n fuel (p + 1) else pure p : Exec σ ℕ) = _
      by_cases hn : 2 ^ p < n
      · have hlt : p < Nat.clog 2 n := lt_clog_two hn
        rw [if_pos hn, growPower_eq n fuel (p + 1) (by omega) (by omega) (by omega)]
        by_cases hb : n ≤ 2 ^ 31
        · have hle : Nat.clog 2 n ≤ 31 := Nat.clog_le_of_le_pow hb
          rw [if_pos ⟨by omega, hb⟩, if_pos ⟨by omega, hb⟩, max_eq_right (by omega),
            max_eq_right (by omega)]
        · rw [if_neg fun h => hb h.2, if_neg fun h => hb h.2]
      · have hle : Nat.clog 2 n ≤ p := Nat.clog_le_of_le_pow (by omega)
        have hpow : 2 ^ p ≤ 2 ^ 31 := Nat.pow_le_pow_right (by decide) (by omega)
        rw [if_neg hn, if_pos ⟨by omega, by omega⟩, max_eq_left hle]

/-- The loop of the constructor over a caller's buffer. -/
theorem fitPower_eq (b : ℕ) : ∀ fuel p, 32 ≤ p + fuel → p ≤ 30 →
    (fitPower b fuel p : Exec σ ℕ) =
      if b < 2 ^ 31 then pure (max p (Nat.log 2 b)) else fail .wideShift
  | 0, _, h, hp => absurd h (by omega)
  | fuel + 1, p, hfuel, hp => by
    simp only [fitPower]
    rw [shl1_of_lt (by omega)]
    show (if 2 ^ (p + 1) ≤ b then fitPower b fuel (p + 1) else pure p : Exec σ ℕ) = _
    by_cases hb : 2 ^ (p + 1) ≤ b
    · have hle : p + 1 ≤ Nat.log 2 b := Nat.le_log_of_pow_le (by decide) hb
      rw [if_pos hb]
      by_cases hp' : p + 1 ≤ 30
      · rw [fitPower_eq b fuel (p + 1) (by omega) hp', max_eq_right hle, max_eq_right (by omega)]
      · obtain rfl : p = 30 := by omega
        obtain ⟨fuel, rfl⟩ : ∃ k, fuel = k + 1 := ⟨fuel - 1, by omega⟩
        rw [if_neg (by omega), fitPower, shl1_of_ge (by omega)]
        rfl
    · have hpow : 2 ^ (p + 1) ≤ 2 ^ 31 := Nat.pow_le_pow_right (by decide) (by omega)
      have hlt : Nat.log 2 b < p + 1 := by
        by_cases h0 : b = 0
        · simp [h0]
        · exact Nat.log_lt_of_lt_pow h0 (by omega)
      rw [if_neg hb, if_pos (by omega), max_eq_left (by omega)]

/-- A caller's buffer gets the largest exponent that fits. -/
theorem ofBuffer_eq (size : UInt32) (buf : Option Ptr) (free : Bool) (len : UInt32) (ref : Bool) :
    (ofBuffer size buf free len ref : Exec σ GString) =
      if size.toNat < 2 ^ 31 then
        pure ⟨Meta.pack free ref (Nat.log 2 size.toNat) len.toNat, buf⟩
      else fail .wideShift := by
  rw [ofBuffer, fitPower_eq _ _ _ (by omega) (by omega)]
  split_ifs
  · rw [max_eq_right (Nat.zero_le _)]; rfl
  · rfl

theorem log_two_lt_of_lt {b k : ℕ} (hk : k ≠ 0) (h : b < 2 ^ k) : Nat.log 2 b < k := by
  by_cases h0 : b = 0
  · rw [h0, Nat.log_zero_right]; omega
  · exact Nat.log_lt_of_lt_pow h0 h

/-- What `reserve` does. -/
theorem reserve_apply (n : UInt32) (o : Object) (hp : o.str.power < 32) :
    reserve n o =
      if 2 ^ o.str.power < n.toNat then
        if 2 ^ 31 < n.toNat then .fault .wideShift
        else if 2 ^ 24 < n.toNat then .throw (tooLarge n) o
        else reallocate (Nat.clog 2 n.toNat) o
      else if o.str.power = 0 then reallocate 0 o
      else .ok () o := by
  have hstart : reserve n o = (do
      let size ← shl1 o.str.power
      if size < n.toNat then do
        let power ← growPower n.toNat 33 (o.str.power + 1)
        if power > 24 then raise (tooLarge n) else reallocate power
      else when (o.str.power = 0) (reallocate o.str.power) : Method Unit) o := rfl
  rw [hstart, shl1_of_lt hp]
  show (if 2 ^ o.str.power < n.toNat then _ else _ : Method Unit) o = _
  by_cases hn : 2 ^ o.str.power < n.toNat
  -- the loop finds the first power of two that is large enough
  · have hlt : o.str.power < Nat.clog 2 n.toNat := lt_clog_two hn
    rw [if_pos hn, if_pos hn, growPower_eq _ _ _ (by omega) (by omega) (by omega)]
    by_cases hb : n.toNat ≤ 2 ^ 31
    · have hle : Nat.clog 2 n.toNat ≤ 31 := Nat.clog_le_of_le_pow hb
      -- that power is above 24 for more than `2 ^ 24` bytes
      have h24 : Nat.clog 2 n.toNat > 24 ↔ 2 ^ 24 < n.toNat := by
        rw [gt_iff_lt, ← not_le, Nat.clog_le_iff_le_pow (by decide), not_le]
      rw [if_pos ⟨by omega, hb⟩, max_eq_right (by omega), if_neg (by omega)]
      show (if Nat.clog 2 n.toNat > 24 then _ else _ : Method Unit) o = _
      by_cases hc : 2 ^ 24 < n.toNat
      · rw [if_pos (h24.mpr hc), if_pos hc]; rfl
      · rw [if_neg fun h => hc (h24.mp h), if_neg hc]
    -- beyond `2 ^ 31` bytes no shift of an `int` is large enough
    · rw [if_neg fun h => hb h.2, if_pos (by omega)]
      rfl
  · rw [if_neg hn, if_neg hn]
    -- a string of power 0 is given a buffer of the same power
    by_cases h0 : o.str.power = 0
    · simp only [when, h0, if_true]
    · simp only [when, h0, if_false]
      rfl

end Glim.GString
