import Mathlib.Tactic.Common
import Mathlib.Tactic.IntervalCases

/-!
# The packed word of a gstring

`_meta` holds two flags, the capacity exponent and the length in one 32-bit word:
bit 31 is `FREE_FLAG`, bit 30 `REF_FLAG`, bits 24 to 29 the exponent and bits 0 to 23
the length. The accessors and updates are the mask expressions of `gstring.hpp`.

## Main results

* `needsFreeing_pack`, `copiedByReference_pack`, `power_pack`, `length_pack`: the
  fields of a word the constructors build
* `length_setLength`, `power_setPower`, `needsFreeing_setFree`: an update sets its
  field; the lemmas between them say that it keeps the others
-/

namespace Glim.Meta

def FREE_FLAG : BitVec 32 := 0x80000000#32
def FREE_OFFSET : ℕ := 31
def REF_FLAG : BitVec 32 := 0x40000000#32
def REF_OFFSET : ℕ := 30
def CAPACITY_MASK : BitVec 32 := 0x3F000000#32
def CAPACITY_OFFSET : ℕ := 24
def LENGTH_MASK : BitVec 32 := 0x00FFFFFF#32

/-- A C++ `bool` converted to `uint32_t`. -/
def ofFlag (b : Bool) : BitVec 32 := if b then 1#32 else 0#32

def needsFreeing (m : BitVec 32) : Bool := m &&& FREE_FLAG != 0#32

def copiedByReference (m : BitVec 32) : Bool := m &&& REF_FLAG != 0#32

/-- The capacity exponent, `(_meta & CAPACITY_MASK) >> CAPACITY_OFFSET`. -/
def power (m : BitVec 32) : ℕ := ((m &&& CAPACITY_MASK) >>> CAPACITY_OFFSET).toNat

def length (m : BitVec 32) : ℕ := (m &&& LENGTH_MASK).toNat

/-- The word the constructors build. -/
def pack (free ref : Bool) (power length : ℕ) : BitVec 32 :=
  (ofFlag free <<< FREE_OFFSET) ||| (ofFlag ref <<< REF_OFFSET) |||
    (BitVec.ofNat 32 power <<< CAPACITY_OFFSET) ||| (BitVec.ofNat 32 length &&& LENGTH_MASK)

/-- `_meta = (_meta & ~LENGTH_MASK) | (len & LENGTH_MASK)`. -/
def setLength (m : BitVec 32) (len : ℕ) : BitVec 32 :=
  (m &&& ~~~LENGTH_MASK) ||| (BitVec.ofNat 32 len &&& LENGTH_MASK)

/-- `_meta = (_meta & ~CAPACITY_MASK) | (power << CAPACITY_OFFSET)`. -/
def setPower (m : BitVec 32) (power : ℕ) : BitVec 32 :=
  (m &&& ~~~CAPACITY_MASK) ||| (BitVec.ofNat 32 power <<< CAPACITY_OFFSET)

/-- `_meta |= FREE_FLAG`. -/
def setFree (m : BitVec 32) : BitVec 32 := m ||| FREE_FLAG

/-! ## The bits of the masks -/

theorem getLsbD_FREE_FLAG (i : ℕ) : FREE_FLAG.getLsbD i = decide (i = 31) := by
  by_cases hi : i < 32
  · interval_cases i <;> rfl
  · rw [BitVec.getLsbD_of_ge _ _ (by omega)]
    simp; omega

theorem getLsbD_REF_FLAG (i : ℕ) : REF_FLAG.getLsbD i = decide (i = 30) := by
  by_cases hi : i < 32
  · interval_cases i <;> rfl
  · rw [BitVec.getLsbD_of_ge _ _ (by omega)]
    simp; omega

theorem getLsbD_CAPACITY_MASK (i : ℕ) :
    CAPACITY_MASK.getLsbD i = decide (24 ≤ i ∧ i < 30) := by
  by_cases hi : i < 32
  · interval_cases i <;> rfl
  · rw [BitVec.getLsbD_of_ge _ _ (by omega)]
    simp; omega

theorem getLsbD_LENGTH_MASK (i : ℕ) : LENGTH_MASK.getLsbD i = decide (i < 24) := by
  by_cases hi : i < 32
  · interval_cases i <;> rfl
  · rw [BitVec.getLsbD_of_ge _ _ (by omega)]
    simp; omega

theorem getLsbD_ofFlag (b : Bool) (i : ℕ) : (ofFlag b).getLsbD i = (b && decide (i = 0)) := by
  cases b
  · simp [ofFlag]
  · by_cases hi : i < 32
    · interval_cases i <;> rfl
    · rw [ofFlag, if_pos rfl, BitVec.getLsbD_of_ge _ _ (by omega)]
      simp; omega

/-! ## The fields as bits and numbers -/

theorem and_flag_ne_zero {m flag : BitVec 32} {k : ℕ} (hk : k < 32)
    (hflag : ∀ i, flag.getLsbD i = decide (i = k)) : (m &&& flag != 0#32) = m.getLsbD k := by
  by_cases hb : m.getLsbD k
  · rw [hb, bne_iff_ne]
    intro h0
    have := congrArg (fun v => v.getLsbD k) h0
    simp [hflag, hb] at this
  · rw [Bool.eq_false_of_not_eq_true hb, bne_eq_false_iff_eq]
    apply BitVec.eq_of_getLsbD_eq
    intro i hi
    simp only [BitVec.getLsbD_and, hflag, BitVec.getLsbD_zero, Bool.and_eq_false_imp,
      decide_eq_false_iff_not]
    rintro hm rfl
    exact hb hm

theorem needsFreeing_eq (m : BitVec 32) : needsFreeing m = m.getLsbD 31 :=
  and_flag_ne_zero (by omega) getLsbD_FREE_FLAG

theorem copiedByReference_eq (m : BitVec 32) : copiedByReference m = m.getLsbD 30 :=
  and_flag_ne_zero (by omega) getLsbD_REF_FLAG

theorem length_eq (m : BitVec 32) : length m = m.toNat % 2 ^ 24 := by
  simp only [length, LENGTH_MASK, BitVec.toNat_and, BitVec.toNat_ofNat]
  exact Nat.and_two_pow_sub_one_eq_mod m.toNat 24

theorem length_lt (m : BitVec 32) : length m < 2 ^ 24 := by
  rw [length_eq]
  exact Nat.mod_lt _ (by decide)

theorem power_eq_testBit (m : BitVec 32) (i : ℕ) :
    (power m).testBit i = (decide (i < 6) && m.getLsbD (24 + i)) := by
  simp only [power, CAPACITY_OFFSET, ← BitVec.getLsbD.eq_1, BitVec.getLsbD_ushiftRight,
    BitVec.getLsbD_and, getLsbD_CAPACITY_MASK]
  by_cases hi : i < 6
  · simp [hi, show 24 + i < 30 by omega]
  · simp [hi, show ¬ 24 + i < 30 by omega]

theorem power_lt (m : BitVec 32) : power m < 64 := by
  have hle : m.toNat &&& CAPACITY_MASK.toNat ≤ CAPACITY_MASK.toNat := Nat.and_le_right
  have hmask : CAPACITY_MASK.toNat = 63 * 2 ^ 24 := rfl
  rw [power, BitVec.toNat_ushiftRight, BitVec.toNat_and, Nat.shiftRight_eq_div_pow, CAPACITY_OFFSET]
  omega

theorem length_testBit (m : BitVec 32) (i : ℕ) :
    (length m).testBit i = (decide (i < 24) && m.getLsbD i) := by
  rw [length, ← BitVec.getLsbD.eq_1, BitVec.getLsbD_and, getLsbD_LENGTH_MASK, Bool.and_comm]

/-- A power that fits its field has no bits outside it. -/
theorem testBit_of_lt_64 {p i : ℕ} (hp : p < 64) (hi : 6 ≤ i) : p.testBit i = false :=
  Nat.testBit_lt_two_pow (hp.trans_le (Nat.pow_le_pow_right (n := 2) (by decide) hi))

/-! ## The bits of an updated word -/

theorem getLsbD_pack (free ref : Bool) (p len i : ℕ) :
    (pack free ref p len).getLsbD i =
      ((free && decide (i = 31)) || (ref && decide (i = 30)) ||
        (decide (24 ≤ i ∧ i < 32) && p.testBit (i - 24)) ||
          (decide (i < 24) && len.testBit i)) := by
  by_cases hi : i < 32
  · simp only [pack, BitVec.getLsbD_or, BitVec.getLsbD_and, BitVec.getLsbD_shiftLeft,
      getLsbD_ofFlag, getLsbD_LENGTH_MASK, BitVec.getLsbD_ofNat, FREE_OFFSET, REF_OFFSET,
      CAPACITY_OFFSET, hi]
    grind
  · rw [BitVec.getLsbD_of_ge _ _ (by omega)]
    grind

theorem getLsbD_setLength (m : BitVec 32) (len i : ℕ) :
    (setLength m len).getLsbD i =
      ((m.getLsbD i && decide (24 ≤ i)) || (decide (i < 24) && len.testBit i)) := by
  by_cases hi : i < 32
  · simp only [setLength, BitVec.getLsbD_or, BitVec.getLsbD_and, BitVec.getLsbD_not,
      getLsbD_LENGTH_MASK, BitVec.getLsbD_ofNat, hi]
    grind
  · rw [BitVec.getLsbD_of_ge _ _ (by omega), BitVec.getLsbD_of_ge _ _ (by omega)]
    grind

theorem getLsbD_setPower {m : BitVec 32} {p : ℕ} (hp : p < 64) (i : ℕ) :
    (setPower m p).getLsbD i =
      ((m.getLsbD i && decide (¬ (24 ≤ i ∧ i < 30))) ||
        (decide (24 ≤ i ∧ i < 30) && p.testBit (i - 24))) := by
  by_cases hi : i < 32
  · have hb : 30 ≤ i → p.testBit (i - 24) = false := fun h => testBit_of_lt_64 hp (by omega)
    simp only [setPower, BitVec.getLsbD_or, BitVec.getLsbD_and, BitVec.getLsbD_not,
      getLsbD_CAPACITY_MASK, BitVec.getLsbD_shiftLeft, BitVec.getLsbD_ofNat, CAPACITY_OFFSET, hi]
    grind
  · rw [BitVec.getLsbD_of_ge _ _ (by omega), BitVec.getLsbD_of_ge _ _ (by omega)]
    grind

theorem getLsbD_setFree (m : BitVec 32) (i : ℕ) :
    (setFree m).getLsbD i = (m.getLsbD i || decide (i = 31)) := by
  rw [setFree, BitVec.getLsbD_or, getLsbD_FREE_FLAG]

/-! ## What the updates do -/

section Pack

variable (free ref : Bool) (p len : ℕ)

@[simp] theorem needsFreeing_pack (hp : p < 64) : needsFreeing (pack free ref p len) = free := by
  rw [needsFreeing_eq, getLsbD_pack, testBit_of_lt_64 hp (by decide)]
  simp

@[simp] theorem copiedByReference_pack (hp : p < 64) :
    copiedByReference (pack free ref p len) = ref := by
  rw [copiedByReference_eq, getLsbD_pack, testBit_of_lt_64 hp (by decide)]
  simp

@[simp] theorem power_pack (hp : p < 64) : power (pack free ref p len) = p := by
  apply Nat.eq_of_testBit_eq
  intro i
  have hb : 6 ≤ i → p.testBit i = false := testBit_of_lt_64 hp
  rw [power_eq_testBit, getLsbD_pack, Nat.add_sub_cancel_left]
  grind

@[simp] theorem length_pack : length (pack free ref p len) = len % 2 ^ 24 := by
  apply Nat.eq_of_testBit_eq
  intro i
  rw [length_testBit, getLsbD_pack, Nat.testBit_mod_two_pow]
  grind

end Pack

section Updates

variable (m : BitVec 32) (p len : ℕ)

@[simp] theorem length_setLength : length (setLength m len) = len % 2 ^ 24 := by
  apply Nat.eq_of_testBit_eq
  intro i
  rw [length_testBit, getLsbD_setLength, Nat.testBit_mod_two_pow]
  grind

@[simp] theorem power_setLength : power (setLength m len) = power m := by
  apply Nat.eq_of_testBit_eq
  intro i
  rw [power_eq_testBit, power_eq_testBit, getLsbD_setLength]
  grind

@[simp] theorem needsFreeing_setLength : needsFreeing (setLength m len) = needsFreeing m := by
  rw [needsFreeing_eq, needsFreeing_eq, getLsbD_setLength]
  simp

@[simp] theorem copiedByReference_setLength :
    copiedByReference (setLength m len) = copiedByReference m := by
  rw [copiedByReference_eq, copiedByReference_eq, getLsbD_setLength]
  simp

@[simp] theorem length_setPower (hp : p < 64) : length (setPower m p) = length m := by
  apply Nat.eq_of_testBit_eq
  intro i
  rw [length_testBit, length_testBit, getLsbD_setPower hp]
  grind

@[simp] theorem power_setPower (hp : p < 64) : power (setPower m p) = p := by
  apply Nat.eq_of_testBit_eq
  intro i
  have hb : 6 ≤ i → p.testBit i = false := testBit_of_lt_64 hp
  rw [power_eq_testBit, getLsbD_setPower hp, Nat.add_sub_cancel_left]
  grind

@[simp] theorem needsFreeing_setPower (hp : p < 64) :
    needsFreeing (setPower m p) = needsFreeing m := by
  rw [needsFreeing_eq, needsFreeing_eq, getLsbD_setPower hp]
  simp

@[simp] theorem copiedByReference_setPower (hp : p < 64) :
    copiedByReference (setPower m p) = copiedByReference m := by
  rw [copiedByReference_eq, copiedByReference_eq, getLsbD_setPower hp]
  simp

@[simp] theorem length_setFree : length (setFree m) = length m := by
  apply Nat.eq_of_testBit_eq
  intro i
  rw [length_testBit, length_testBit, getLsbD_setFree]
  grind

@[simp] theorem power_setFree : power (setFree m) = power m := by
  apply Nat.eq_of_testBit_eq
  intro i
  rw [power_eq_testBit, power_eq_testBit, getLsbD_setFree]
  grind

@[simp] theorem needsFreeing_setFree : needsFreeing (setFree m) = true := by
  rw [needsFreeing_eq, getLsbD_setFree]
  simp

@[simp] theorem copiedByReference_setFree :
    copiedByReference (setFree m) = copiedByReference m := by
  rw [copiedByReference_eq, copiedByReference_eq, getLsbD_setFree]
  simp

end Updates

end Glim.Meta
