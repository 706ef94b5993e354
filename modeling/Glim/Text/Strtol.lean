import Glim.Text.Stream

/-!
# `strtol`

The number at the beginning of a text, as the C library reads it: white space, a sign, a
base prefix and the longest run of digits, with the value clamped to a 64-bit `long`. The
text is what can be read behind a pointer, so it has to end with a byte that is not part of
the number: a number that runs up to the end of the text is read past it.

## Main definitions

* `digitValue`: the value of a digit in bases up to 36
* `strtol`: the number, and how many bytes it takes

## Main results

* `takeWhile_isDigit_decimal`: a decimal text is the run of its digits
* `strtol_digits`: reading a run of digits
* `strtol_signedRadix`: reading back the text of a number in any base
-/

namespace Text

/-- The value of a digit, 36 if there is none. -/
def digitValue (c : UInt8) : ℕ :=
  if isDigit c then c.toNat - 48
  else if 97 ≤ c ∧ c ≤ 122 then c.toNat - 87
  else if 65 ≤ c ∧ c ≤ 90 then c.toNat - 55
  else 36

/-- The number a run of digits stands for. -/
def valueIn (base : ℕ) (ds : List UInt8) : ℕ :=
  ds.foldl (fun acc c => base * acc + digitValue c) 0

/-- The nearest `long`. -/
def clampLong (v : ℤ) : ℤ := max (-2 ^ 63) (min v (2 ^ 63 - 1))

/-- The text begins with `0x` and a hexadecimal digit. -/
def hexPrefix : List UInt8 → Bool
  | 48 :: x :: c :: _ => (x == 120 || x == 88) && decide (digitValue c < 16)
  | _ => false

/-- The base of the digits, and how long its prefix is. -/
def radixOf (base : ℕ) (text : List UInt8) : ℕ × ℕ :=
  if (base = 0 ∨ base = 16) ∧ hexPrefix text then (16, 2)
  else if base = 0 then (if text.head? = some 48 then 8 else 10, 0)
  else (base, 0)

/-- `strtol (text, &end, base)`: the number and the offset of `end`, unless the text ends before
the number does. -/
def strtol (base : ℕ) (text : List UInt8) : Option (ℤ × ℕ) :=
  let spaces := text.takeWhile isSpace
  let unsigned := splitSign (text.dropWhile isSpace)
  let radix := radixOf base unsigned.2
  let body := unsigned.2.drop radix.2
  let digits := body.takeWhile fun c => digitValue c < radix.1
  if digits.length = body.length then none
  else if digits = [] then some (0, 0)
  else
    let v : ℤ := valueIn radix.1 digits
    let sign := (text.length - spaces.length) - unsigned.2.length
    some (clampLong (if unsigned.1 then -v else v),
      spaces.length + sign + radix.2 + digits.length)

/-! ## Decimal text -/

variable {n : ℕ} {c : UInt8} {rest : List UInt8}

theorem isDigit_iff : isDigit c ↔ 48 ≤ c.toNat ∧ c.toNat ≤ 57 := by
  simp only [isDigit, Bool.and_eq_true, decide_eq_true_eq, UInt8.le_iff_toNat_le]
  rfl

theorem digitValue_lt_ten_iff : digitValue c < 10 ↔ isDigit c := by
  unfold digitValue
  split_ifs with h h97 h65
  · have := isDigit_iff.mp h
    exact ⟨fun _ => h, fun _ => by omega⟩
  · have : 97 ≤ c.toNat := UInt8.le_iff_toNat_le.mp h97.1
    exact ⟨fun _ => by omega, fun hd => absurd hd h⟩
  · have : 65 ≤ c.toNat := UInt8.le_iff_toNat_le.mp h65.1
    exact ⟨fun _ => by omega, fun hd => absurd hd h⟩
  · exact ⟨fun _ => by omega, fun hd => absurd hd h⟩

theorem isSpace_of_isDigit (h : isDigit c) : isSpace c = false := by
  have h48 := (isDigit_iff.mp h).1
  simp only [isSpace, Bool.or_eq_false_iff, beq_eq_false_iff_ne, Bool.and_eq_false_iff,
    decide_eq_false_iff_not]
  refine ⟨fun h32 => ?_, Or.inr fun h13 => ?_⟩
  · rw [h32] at h48
    exact absurd h48 (by decide)
  · have : c.toNat ≤ 13 := UInt8.le_iff_toNat_le.mp h13
    omega

theorem splitSign_of_isDigit (h : isDigit c) : splitSign (c :: rest) = (false, c :: rest) := by
  have hne : ∀ d, isDigit d = false → c ≠ d := fun d hd hcd => by rw [hcd, hd] at h; cases h
  rw [splitSign, if_neg (hne minus rfl), if_neg (hne 43 rfl)]

/-- A run and what follows it. -/
theorem takeWhile_run (rest : List UInt8) {p : UInt8 → Bool} {front : List UInt8}
    (hfront : ∀ d ∈ front, p d) (hc : p c = false) :
    (front ++ c :: rest).takeWhile p = front ∧ (front ++ c :: rest).dropWhile p = c :: rest := by
  constructor
  · rw [List.takeWhile_append_of_pos hfront, List.takeWhile_cons_of_neg (by simp [hc]),
      List.append_nil]
  · rw [List.dropWhile_append_of_pos hfront, List.dropWhile_cons_of_neg (by simp [hc])]

/-- A decimal text is not empty, and begins with a digit. -/
theorem exists_decimal_eq_cons (n : ℕ) : ∃ d ds, decimal n = d :: ds ∧ isDigit d := by
  obtain ⟨d, ds, h⟩ := List.exists_cons_of_ne_nil (radix_ne_nil (b := 10) (n := n))
  exact ⟨d, ds, h, isDigit_of_mem_decimal (n := n) (by rw [decimal, h]; exact List.mem_cons_self)⟩

/-- A decimal text is the run of its digits. -/
theorem takeWhile_isDigit_decimal (hc : isDigit c = false) :
    (decimal n ++ c :: rest).takeWhile isDigit = decimal n :=
  (takeWhile_run rest (fun _ h => isDigit_of_mem_decimal h) hc).1

theorem dropWhile_isDigit_decimal (hc : isDigit c = false) :
    (decimal n ++ c :: rest).dropWhile isDigit = c :: rest :=
  (takeWhile_run rest (fun _ h => isDigit_of_mem_decimal h) hc).2

/-- There is neither white space nor a sign before a decimal text. -/
theorem dropWhile_isSpace_decimal : (decimal n ++ rest).dropWhile isSpace = decimal n ++ rest := by
  obtain ⟨d, ds, hn, hd⟩ := exists_decimal_eq_cons n
  rw [hn, List.cons_append, List.dropWhile_cons_of_neg (by simp [isSpace_of_isDigit hd])]

theorem splitSign_decimal : splitSign (decimal n ++ rest) = (false, decimal n ++ rest) := by
  obtain ⟨d, ds, hn, hd⟩ := exists_decimal_eq_cons n
  rw [hn, List.cons_append, splitSign_of_isDigit hd]

theorem valueIn_ten {ds : List UInt8} (h : ∀ c ∈ ds, isDigit c) : valueIn 10 ds = value ds := by
  unfold valueIn value
  refine List.foldl_ext _ _ 0 fun acc c hc => ?_
  rw [digitValue, if_pos (h c hc)]

/-- Reading a run of digits. -/
theorem strtol_digits {ds : List UInt8} (hds : ∀ d ∈ ds, isDigit d) (hc : isDigit c = false)
    (hfirst : ds = [] → isSpace c = false ∧ c ≠ minus ∧ c ≠ 43) (hv : value ds < 2 ^ 63) :
    strtol 10 (ds ++ c :: rest) = some ((value ds : ℤ), ds.length) := by
  have hdigit : (fun c => decide (digitValue c < 10)) = isDigit := by
    funext d
    rw [Bool.eq_iff_iff, decide_eq_true_iff, digitValue_lt_ten_iff]
  have hclamp : clampLong (value ds) = value ds := by
    unfold clampLong
    omega
  have hradix : ∀ text, radixOf 10 text = (10, 0) := fun _ => rfl
  -- neither white space nor a sign comes first
  have hstart : (ds ++ c :: rest).takeWhile isSpace = [] ∧
      (ds ++ c :: rest).dropWhile isSpace = ds ++ c :: rest ∧
      splitSign (ds ++ c :: rest) = (false, ds ++ c :: rest) := by
    cases ds with
    | nil =>
      obtain ⟨hspace, hminus, hplus⟩ := hfirst rfl
      rw [List.nil_append, List.takeWhile_cons_of_neg (by simp [hspace]),
        List.dropWhile_cons_of_neg (by simp [hspace]), splitSign, if_neg hminus, if_neg hplus]
      exact ⟨rfl, rfl, rfl⟩
    | cons d ds =>
      have hd : isDigit d := hds d List.mem_cons_self
      have hspace := isSpace_of_isDigit hd
      rw [List.cons_append, List.takeWhile_cons_of_neg (by simp [hspace]),
        List.dropWhile_cons_of_neg (by simp [hspace]), splitSign_of_isDigit hd]
      exact ⟨rfl, rfl, rfl⟩
  simp only [strtol, hstart.1, hstart.2.1, hstart.2.2, hradix, List.drop_zero, hdigit,
    (takeWhile_run rest hds hc).1]
  rw [if_neg (by simp), valueIn_ten hds]
  by_cases hnil : ds = []
  · rw [if_pos hnil, hnil]
    rfl
  · rw [if_neg hnil]
    simp [hclamp]

/-! ## Text in any base -/

section Radix

variable {b n d : ℕ} {v : ℤ}

/-- What `strtol` sees in the digits up to base 36. -/
theorem digitChar_facts (hd : d < 36) :
    isSpace (digitChar d) = false ∧ digitChar d ≠ minus ∧ digitChar d ≠ 43 ∧
      digitValue (digitChar d) = d := by
  revert hd
  revert d
  decide

theorem mem_radix {c : UInt8} (hb : 1 < b) (h : c ∈ radix b n) : ∃ d < b, c = digitChar d := by
  by_cases h0 : n = 0
  · rw [radix, if_pos h0, List.mem_singleton] at h
    exact ⟨0, by omega, h⟩
  · rw [radix, if_neg h0, List.mem_reverse, List.mem_map] at h
    obtain ⟨d, hd, rfl⟩ := h
    exact ⟨d, Nat.digits_lt_base hb hd, rfl⟩

theorem valueIn_append_singleton (ds : List UInt8) (c : UInt8) :
    valueIn b (ds ++ [c]) = b * valueIn b ds + digitValue c := by
  simp [valueIn]

/-- The value of the text of a number. -/
theorem valueIn_radix (hb : 1 < b) (hb' : b ≤ 36) (n : ℕ) : valueIn b (radix b n) = n := by
  induction n using Nat.strongRecOn with
  | ind n ih =>
    by_cases h : n < b
    · rw [radix_of_lt h, ← List.nil_append [digitChar n], valueIn_append_singleton,
        (digitChar_facts (by omega)).2.2.2]
      exact (congrArg (· + n) (Nat.mul_zero b)).trans (Nat.zero_add n)
    · have hlt : n / b < n := Nat.div_lt_self (by omega) hb
      have hmod := Nat.mod_lt n (by omega : b > 0)
      rw [radix_eq_append hb (by omega), valueIn_append_singleton, ih _ hlt,
        (digitChar_facts (by omega)).2.2.2]
      exact Nat.div_add_mod n b

/-- A text has no leading zero, unless it is the text of zero. -/
theorem radix_head (hb : 1 < b) (hb' : b ≤ 36) (h : (radix b n).head? = some 48) : n = 0 := by
  by_contra h0
  rw [radix, if_neg h0, List.head?_reverse, List.getLast?_map, Option.map_eq_some_iff] at h
  obtain ⟨d, hd, hchar⟩ := h
  have hne : Nat.digits b n ≠ [] := Nat.digits_ne_nil_iff_ne_zero.mpr h0
  have hlast : d = (Nat.digits b n).getLast hne :=
    Option.some.inj (hd.symm.trans (List.getLast?_eq_some_getLast hne))
  have hlt : d < b := Nat.digits_lt_base hb (hlast ▸ List.getLast_mem hne)
  have hzero : d = 0 := by
    have hvalue := (digitChar_facts (d := d) (by omega)).2.2.2
    rw [hchar] at hvalue
    exact hvalue.symm
  exact Nat.getLast_digit_ne_zero b h0 (hlast ▸ hzero)

/-- Reading back the text of a number in its base, up to a terminator. -/
theorem strtol_signedRadix (hb : 1 < b) (hb' : b ≤ 36) (hv : -2 ^ 63 ≤ v) (hv' : v < 2 ^ 63) :
    strtol b (signedRadix b v ++ [0]) = some (v, (signedRadix b v).length) := by
  obtain ⟨c, cs, hcs⟩ := List.exists_cons_of_ne_nil (radix_ne_nil (b := b) (n := v.natAbs))
  obtain ⟨d, hd, hc⟩ := mem_radix (n := v.natAbs) hb (by rw [hcs]; exact List.mem_cons_self)
  obtain ⟨hspace, hminus, hplus, -⟩ := digitChar_facts (d := d) (by omega)
  rw [← hc] at hspace hminus hplus
  -- the sign, and the digits
  have hsplit : splitSign (radix b v.natAbs ++ [0]) = (false, radix b v.natAbs ++ [0]) := by
    rw [hcs, List.cons_append, splitSign, if_neg hminus, if_neg hplus]
  have hsign : (signedRadix b v ++ [0]).takeWhile isSpace = [] ∧
      splitSign ((signedRadix b v ++ [0]).dropWhile isSpace) =
        (decide (v < 0), radix b v.natAbs ++ [0]) := by
    unfold signedRadix
    split_ifs with hneg
    · rw [decide_eq_true hneg]
      exact ⟨rfl, rfl⟩
    · rw [decide_eq_false hneg, ← hsplit, hcs, List.cons_append,
        List.takeWhile_cons_of_neg (by simp [hspace]),
        List.dropWhile_cons_of_neg (by simp [hspace])]
      exact ⟨rfl, rfl⟩
  have hdigits : (radix b v.natAbs ++ [0]).takeWhile (fun c => decide (digitValue c < b)) =
      radix b v.natAbs := by
    rw [List.takeWhile_append_of_pos fun c hc => ?_, List.takeWhile_cons_of_neg, List.append_nil]
    · have : digitValue 0 = 36 := rfl
      rw [this, decide_eq_true_eq]
      omega
    · obtain ⟨d, hd, rfl⟩ := mem_radix hb hc
      rw [decide_eq_true_eq, (digitChar_facts (by omega)).2.2.2]
      exact hd
  -- only a zero begins with the digit of the prefix, and then it ends
  have hhex : hexPrefix (radix b v.natAbs ++ [0]) = false := by
    by_cases h0 : v.natAbs = 0
    · rw [h0]
      simp [radix, hexPrefix]
    · rw [hcs, List.cons_append]
      have hne : c ≠ 48 := fun h => h0 (radix_head (n := v.natAbs) hb hb' (by rw [hcs, h]; rfl))
      unfold hexPrefix
      split
      · next heq => exact absurd (List.cons.inj heq).1 hne
      · rfl
  have hradix : radixOf b (radix b v.natAbs ++ [0]) = (b, 0) := by
    rw [radixOf, if_neg (by rw [hhex]; simp), if_neg (by omega)]
  have hclamp : clampLong (if decide (v < 0) = true then -(v.natAbs : ℤ) else v.natAbs) = v := by
    unfold clampLong
    split_ifs with hneg
    · rw [decide_eq_true_eq] at hneg
      omega
    · rw [decide_eq_true_eq] at hneg
      omega
  simp only [strtol, hsign.1, hsign.2, hradix, List.drop_zero, hdigits]
  rw [if_neg (by simp), if_neg radix_ne_nil, valueIn_radix hb hb', hclamp]
  simp only [List.length_append, List.length_nil, List.length_singleton, Option.some.injEq,
    Prod.mk.injEq, true_and]
  unfold signedRadix
  split_ifs
  · rw [List.length_cons]
    omega
  · omega

end Radix

end Text
