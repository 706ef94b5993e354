import Glim.Text.Lex
import Glim.Text.Word
import Mathlib.Tactic.Ring

/-!
# Big-endian numbers

The bytes of a number, the most significant one first, are compared lexicographically like the
number, as long as there are as many of them.

## Main definitions

* `bigEndian`: the number that some bytes stand for

## Main results

* `bigEndian_lt_iff`: the order of numbers is the order of their bytes
* `bigEndian_word`, `exists_word`: the words of four bytes
-/

namespace Text

/-- The number that the bytes stand for. -/
def bigEndian (bytes : List UInt8) : ℕ := bytes.foldl (fun n b => 256 * n + b.toNat) 0

variable {b : UInt8} {bs cs : List UInt8} {n m : UInt32}

theorem foldl_bigEndian (k : ℕ) (bytes : List UInt8) :
    bytes.foldl (fun n b => 256 * n + b.toNat) k = k * 256 ^ bytes.length + bigEndian bytes := by
  induction bytes generalizing k with
  | nil => simp [bigEndian]
  | cons b bytes ih =>
    rw [bigEndian, List.foldl_cons, List.foldl_cons, ih, ih (256 * 0 + b.toNat), List.length_cons,
      pow_succ]
    ring

@[simp] theorem bigEndian_nil : bigEndian [] = 0 := rfl

/-- The first byte is the most significant one. -/
theorem bigEndian_cons : bigEndian (b :: bs) = b.toNat * 256 ^ bs.length + bigEndian bs := by
  rw [bigEndian, List.foldl_cons, foldl_bigEndian, Nat.mul_zero, Nat.zero_add]

theorem bigEndian_lt (bytes : List UInt8) : bigEndian bytes < 256 ^ bytes.length := by
  induction bytes with
  | nil => exact Nat.one_pos
  | cons b bytes ih =>
    have hb : b.toNat + 1 ≤ 256 := b.toNat_lt
    have hle := Nat.mul_le_mul_right (256 ^ bytes.length) hb
    rw [bigEndian_cons, List.length_cons, pow_succ, mul_comm (256 ^ bytes.length)]
    rw [Nat.add_mul, Nat.one_mul] at hle
    omega

/-- The order of numbers is the lexicographic order of their bytes. -/
theorem bigEndian_lt_iff (hlen : bs.length = cs.length) :
    bigEndian bs < bigEndian cs ↔ bs < cs := by
  induction bs generalizing cs with
  | nil =>
    obtain rfl : cs = [] := List.eq_nil_of_length_eq_zero hlen.symm
    exact iff_of_false (Nat.lt_irrefl 0) (lt_irrefl _)
  | cons b bs ih =>
    cases cs with
    | nil => cases hlen
    | cons c cs =>
      have hlen' : bs.length = cs.length := Nat.succ.inj hlen
      have hbs := bigEndian_lt bs
      have hcs := bigEndian_lt cs
      rw [bigEndian_cons, bigEndian_cons, List.cons_lt_cons_iff, ← ih hlen', hlen'] at *
      -- the first bytes decide, unless they are equal
      rcases lt_trichotomy b c with hlt | rfl | hgt
      · have hstep : b.toNat + 1 ≤ c.toNat := UInt8.lt_iff_toNat_lt.mp hlt
        have hle := Nat.mul_le_mul_right (256 ^ cs.length) hstep
        rw [Nat.add_mul, Nat.one_mul] at hle
        exact iff_of_true (by omega) (Or.inl hlt)
      · simp
      · have hstep : c.toNat + 1 ≤ b.toNat := UInt8.lt_iff_toNat_lt.mp hgt
        have hle := Nat.mul_le_mul_right (256 ^ cs.length) hstep
        rw [Nat.add_mul, Nat.one_mul] at hle
        refine iff_of_false (by omega) ?_
        rintro (hlt | ⟨rfl, -⟩)
        · exact lt_asymm hlt hgt
        · exact lt_irrefl _ hgt

/-- As many bytes that stand for the same number are the same. -/
theorem bigEndian_inj (hlen : bs.length = cs.length) : bigEndian bs = bigEndian cs ↔ bs = cs := by
  constructor
  · intro heq
    rcases lt_trichotomy bs cs with hlt | rfl | hgt
    · exact absurd ((bigEndian_lt_iff hlen).mpr hlt) (by omega)
    · rfl
    · exact absurd ((bigEndian_lt_iff hlen.symm).mpr hgt) (by omega)
  · rintro rfl
    rfl

/-! ## Words -/

theorem bigEndian_word (n : UInt32) : bigEndian (word n) = n.toNat := by
  have hn := n.toNat_lt
  simp only [word, bigEndian, List.foldl_cons, List.foldl_nil, UInt8.toNat_ofNat']
  omega

/-- The order of words is the order of their bytes. -/
theorem word_lt_word_iff : word n < word m ↔ n < m := by
  have hlen : (word n).length = (word m).length := rfl
  rw [← bigEndian_lt_iff hlen, bigEndian_word, bigEndian_word, UInt32.lt_iff_toNat_lt]

theorem word_le_word_iff : word n ≤ word m ↔ n ≤ m := by
  rw [← not_lt, word_lt_word_iff, UInt32.lt_iff_toNat_lt, UInt32.le_iff_toNat_le, not_lt]

/-- Four bytes are those of a word. -/
theorem exists_word (hlen : bs.length = 4) : ∃ n, bs = word n := by
  have hlt := bigEndian_lt bs
  rw [hlen] at hlt
  have hsize : UInt32.size = 2 ^ 32 := rfl
  refine ⟨UInt32.ofNat (bigEndian bs), (bigEndian_inj (by rw [hlen, length_word])).mp ?_⟩
  rw [bigEndian_word, UInt32.toNat_ofNat_of_lt' (by omega)]

end Text
