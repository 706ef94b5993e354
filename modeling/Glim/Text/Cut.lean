import Glim.Text.Strtol
import Mathlib.Data.List.TakeWhile

/-!
# Numbers in the beginning of a text

A text that is cut off and terminated there. Of white space, a sign, a base prefix and digits a
cut keeps what lies before it, and the terminator is none of these. So a number that ends before
the cut is read the same.

## Main definitions

* `cut n text`: the first `n` bytes of a text, and a terminator
* `digitsOf`: the digits in a text, behind the base prefix

## Main results

* `takeWhile_cut`, `dropWhile_cut`, `splitSign_cut`, `radixOf_cut`: the parts of a number
* `exists_strtol`: a terminated text is not read past its end
* `strtol_cut`: a number that ends before the cut
* `strtol_longer`: a number with zeros behind it
-/

namespace Text

/-- The first `n` bytes, and a terminator. -/
def cut (n : ℕ) (text : List UInt8) : List UInt8 := text.take n ++ [0]

section Cut

variable {n base : ℕ} {text : List UInt8} {p : UInt8 → Bool}

/-! ## White space and the sign -/

theorem length_cut (n : ℕ) (text : List UInt8) : (cut n text).length = min n text.length + 1 := by
  rw [cut, List.length_append, List.length_take, List.length_singleton]

theorem cut_zero (text : List UInt8) : cut 0 text = [0] := rfl

theorem cut_succ_cons (n : ℕ) (c : UInt8) (text : List UInt8) :
    cut (n + 1) (c :: text) = c :: cut n text := rfl

theorem takeWhile_cut (h0 : p 0 = false) (n : ℕ) (text : List UInt8) :
    (cut n text).takeWhile p = (text.takeWhile p).take n := by
  induction text generalizing n with
  | nil => simp [cut, h0]
  | cons c text ih =>
    cases n with
    | zero => simp [cut_zero, h0]
    | succ n =>
      rw [cut_succ_cons, List.takeWhile_cons, List.takeWhile_cons]
      split
      · rw [ih, List.take_succ_cons]
      · rfl

theorem dropWhile_cut (h0 : p 0 = false) (n : ℕ) (text : List UInt8) :
    (cut n text).dropWhile p = cut (n - (text.takeWhile p).length) (text.dropWhile p) := by
  induction text generalizing n with
  | nil => simp [cut, h0]
  | cons c text ih =>
    cases n with
    | zero => simp [cut_zero, h0]
    | succ n =>
      rw [cut_succ_cons, List.dropWhile_cons, List.dropWhile_cons, List.takeWhile_cons]
      split
      · rw [ih, List.length_cons, Nat.add_sub_add_right]
      · rfl

theorem drop_cut {k : ℕ} (hn : k ≤ n) (hk : k ≤ text.length) :
    (cut n text).drop k = cut (n - k) (text.drop k) := by
  rw [cut, List.drop_append_of_le_length (by rw [List.length_take]; omega), List.drop_take, cut]

/-- The sign, if it lies before the cut. -/
theorem splitSign_cut (n : ℕ) (text : List UInt8) :
    splitSign (cut n text) = (decide (0 < n) && (splitSign text).1,
      cut (n - (text.length - (splitSign text).2.length)) (splitSign text).2) := by
  cases n with
  | zero => simp [cut_zero, splitSign, minus]
  | succ n =>
    cases text with
    | nil => simp [cut, splitSign, minus]
    | cons c text =>
      rw [cut_succ_cons, splitSign, splitSign]
      split_ifs
      · simp
      · simp
      · simp [cut_succ_cons]

/-! ## The base -/

theorem hexPrefix_cons (a x c : UInt8) (text : List UInt8) :
    hexPrefix (a :: x :: c :: text) =
      (a == 48 && (x == 120 || x == 88) && decide (digitValue c < 16)) := by
  by_cases ha : a = 48
  · rw [ha]
    rfl
  · rw [hexPrefix, beq_eq_false_iff_ne.mpr ha]
    · rfl
    · intro x c rest h
      exact absurd (List.cons.inj h).1 ha

theorem hexPrefix_of_length_lt (h : text.length < 3) : hexPrefix text = false := by
  rw [hexPrefix]
  rintro x c rest rfl
  simp only [List.length_cons] at h
  omega

theorem hexPrefix_terminator (a x : UInt8) (text : List UInt8) :
    hexPrefix (a :: x :: 0 :: text) = false := by
  have h0 : ¬ digitValue 0 < 16 := by decide
  rw [hexPrefix_cons, decide_eq_false h0, Bool.and_false]

/-- A base prefix counts only if the digit behind it lies before the cut. -/
theorem hexPrefix_cut (n : ℕ) (text : List UInt8) :
    hexPrefix (cut n text) = (decide (3 ≤ n) && hexPrefix text) := by
  match n, text with
  | n, [] => simp [cut, hexPrefix_of_length_lt]
  | n, [a] =>
    rw [hexPrefix_of_length_lt (by rw [length_cut, List.length_singleton]; omega),
      hexPrefix_of_length_lt (by simp), Bool.and_false]
  -- the cut is too short for a prefix and a digit
  | 0, _ :: _ :: _ =>
    rw [cut_zero, hexPrefix_of_length_lt (by simp)]
    rfl
  | 1, a :: x :: _ =>
    rw [cut_succ_cons, cut_zero, hexPrefix_of_length_lt (by simp)]
    rfl
  -- the terminator stands where the digit would be
  | 2, a :: x :: text =>
    rw [cut_succ_cons, cut_succ_cons, cut_zero, hexPrefix_terminator]
    rfl
  | n + 3, [a, x] =>
    rw [cut_succ_cons, cut_succ_cons, cut, List.take_nil, List.nil_append, hexPrefix_terminator,
      hexPrefix_of_length_lt (by simp), Bool.and_false]
  | n + 3, a :: x :: c :: text =>
    rw [cut_succ_cons, cut_succ_cons, cut_succ_cons, hexPrefix_cons, hexPrefix_cons,
      decide_eq_true (Nat.le_add_left 3 n), Bool.true_and]

theorem head?_cut (hn : 0 < n) (text : List UInt8) :
    (cut n text).head? = some 48 ↔ text.head? = some 48 := by
  obtain ⟨n, rfl⟩ := Nat.exists_eq_add_one_of_ne_zero hn.ne'
  cases text with
  | nil => simp [cut]
  | cons c text => simp [cut_succ_cons]

/-- The base, if the cut is behind the prefix. -/
theorem radixOf_cut (hn : (radixOf base text).2 < n) :
    radixOf base (cut n text) = radixOf base text := by
  have hhead := head?_cut (by omega : 0 < n) text
  have hcut := hexPrefix_cut n text
  unfold radixOf at hn ⊢
  by_cases hhex : (base = 0 ∨ base = 16) ∧ hexPrefix text
  · rw [if_pos hhex] at hn
    have hhex' : hexPrefix (cut n text) = true := by
      rw [hcut, hhex.2, decide_eq_true (by omega : 3 ≤ n)]
      rfl
    rw [if_pos hhex, if_pos ⟨hhex.1, hhex'⟩]
  · rw [if_neg hhex, if_neg]
    · simp only [hhead]
    · rintro ⟨hbase, h⟩
      rw [hcut, Bool.and_eq_true] at h
      exact hhex ⟨hbase, h.2⟩

theorem exists_of_hexPrefix (h : hexPrefix text) :
    ∃ x c rest, text = 48 :: x :: c :: rest ∧ x ≠ 0 ∧ digitValue c < 16 := by
  unfold hexPrefix at h
  split at h
  · next x c rest =>
    rw [Bool.and_eq_true, decide_eq_true_eq] at h
    refine ⟨x, c, rest, rfl, ?_, h.2⟩
    rintro rfl
    exact absurd h.1 (by decide)
  · cases h

theorem radixOf_le (hbase : base ≤ 36) (text : List UInt8) : (radixOf base text).1 ≤ 36 := by
  unfold radixOf
  split_ifs <;> simp only <;> omega

/-- A prefix is followed by a digit. -/
theorem radixOf_cases (base : ℕ) (text : List UInt8) :
    (radixOf base text).2 = 0 ∨ radixOf base text = (16, 2) ∧ hexPrefix text := by
  unfold radixOf
  split_ifs with hhex
  · exact Or.inr ⟨rfl, hhex.2⟩
  · exact Or.inl rfl
  · exact Or.inl rfl
  · exact Or.inl rfl

/-! ## The digits -/

/-- The digits in a text, behind the prefix. -/
def digitsOf (base : ℕ) (text : List UInt8) : List UInt8 :=
  (text.drop (radixOf base text).2).takeWhile fun c => digitValue c < (radixOf base text).1

theorem not_isDigit_terminator (hbase : base ≤ 36) :
    decide (digitValue 0 < (radixOf base text).1) = false := by
  have h0 : digitValue 0 = 36 := rfl
  have hle := radixOf_le hbase text
  rw [h0, decide_eq_false_iff_not]
  omega

theorem radixOf_le_length (base : ℕ) (text : List UInt8) :
    (radixOf base text).2 ≤ text.length := by
  rcases radixOf_cases base text with h | ⟨h, hhex⟩
  · omega
  · obtain ⟨x, c, rest, rfl, -⟩ := exists_of_hexPrefix hhex
    rw [h, List.length_cons, List.length_cons]
    omega

theorem radixOf_eq_zero_of_nil (h : digitsOf base text = []) : (radixOf base text).2 = 0 := by
  rcases radixOf_cases base text with h0 | ⟨hr, hhex⟩
  · exact h0
  · obtain ⟨x, c, rest, rfl, -, hc⟩ := exists_of_hexPrefix hhex
    rw [digitsOf, hr, List.drop_succ_cons, List.drop_succ_cons, List.drop_zero,
      List.takeWhile_cons] at h
    simp only [hc, decide_true] at h
    cases h

theorem digitsOf_cut (hbase : base ≤ 36) (hn : (radixOf base text).2 < n) :
    digitsOf base (cut n text) = (digitsOf base text).take (n - (radixOf base text).2) := by
  rw [digitsOf, radixOf_cut hn, drop_cut hn.le (radixOf_le_length base text),
    takeWhile_cut (not_isDigit_terminator hbase), digitsOf]

/-- A cut does not make a number out of a text that is none. -/
theorem digitsOf_cut_of_nil (hbase : base ≤ 36) (h : digitsOf base text = []) (n : ℕ) :
    digitsOf base (cut n text) = [] := by
  have hbehind := radixOf_eq_zero_of_nil h
  rcases Nat.eq_zero_or_pos n with rfl | hpos
  · have hnone : (radixOf base [0]).2 = 0 := by
      rcases radixOf_cases base [0] with h0 | ⟨-, hhex⟩
      · exact h0
      · cases hhex
    rw [cut_zero, digitsOf, hnone, List.drop_zero,
      List.takeWhile_cons_of_neg (by rw [not_isDigit_terminator hbase]; nofun)]
  · rw [digitsOf_cut hbase (by omega), h, List.take_nil]

/-! ## The number -/

/-- A number in terms of its digits. -/
theorem strtol_eq {front rest body : List UInt8} {neg : Bool}
    (hfront : text.takeWhile isSpace = front) (hrest : text.dropWhile isSpace = rest)
    (hbody : splitSign rest = (neg, body)) :
    strtol base text =
      if (digitsOf base body).length = (body.drop (radixOf base body).2).length then none
      else if digitsOf base body = [] then some (0, 0)
      else
        let v : ℤ := valueIn (radixOf base body).1 (digitsOf base body)
        some (clampLong (if neg then -v else v), front.length + (rest.length - body.length) +
          (radixOf base body).2 + (digitsOf base body).length) := by
  have hlength : text.length - front.length = rest.length := by
    rw [← List.takeWhile_append_dropWhile (p := isSpace) (l := text), hfront, hrest,
      List.length_append, Nat.add_sub_cancel_left]
  simp only [strtol, hfront, hrest, hbody, hlength, digitsOf]
  rfl

/-- What has been read of a number. -/
theorem strtol_cases {front rest body : List UInt8} {neg : Bool} {v : ℤ} {used : ℕ}
    (hfront : text.takeWhile isSpace = front) (hrest : text.dropWhile isSpace = rest)
    (hbody : splitSign rest = (neg, body)) (h : strtol base text = some (v, used)) :
    (digitsOf base body).length < body.length - (radixOf base body).2 ∧
      (digitsOf base body = [] ∧ v = 0 ∧ used = 0 ∨
        digitsOf base body ≠ [] ∧
          v = clampLong (if neg then -(valueIn (radixOf base body).1 (digitsOf base body) : ℤ)
            else valueIn (radixOf base body).1 (digitsOf base body)) ∧
          used = front.length + (rest.length - body.length) + (radixOf base body).2 +
            (digitsOf base body).length) := by
  have hle : (digitsOf base body).length ≤ (body.drop (radixOf base body).2).length :=
    (List.takeWhile_sublist _).length_le
  rw [strtol_eq hfront hrest hbody] at h
  by_cases hend : (digitsOf base body).length = (body.drop (radixOf base body).2).length
  · rw [if_pos hend] at h
    cases h
  rw [if_neg hend] at h
  rw [List.length_drop] at hle hend
  refine ⟨by omega, ?_⟩
  by_cases hnil : digitsOf base body = []
  · rw [if_pos hnil] at h
    obtain ⟨rfl, rfl⟩ := Prod.mk.inj (Option.some.inj h)
    exact Or.inl ⟨hnil, rfl, rfl⟩
  · rw [if_neg hnil] at h
    obtain ⟨rfl, rfl⟩ := Prod.mk.inj (Option.some.inj h)
    exact Or.inr ⟨hnil, rfl, rfl⟩

theorem length_splitSign_le {neg : Bool} {rest body : List UInt8}
    (h : splitSign rest = (neg, body)) : body.length ≤ rest.length := by
  cases rest with
  | nil =>
    obtain ⟨-, rfl⟩ := Prod.mk.inj h
    exact le_rfl
  | cons c text =>
    rw [splitSign] at h
    split_ifs at h <;> obtain ⟨-, rfl⟩ := Prod.mk.inj h
    · exact Nat.le_succ _
    · exact Nat.le_succ _
    · exact le_rfl

/-- A number ends inside of the text. -/
theorem strtol_lt_length {v : ℤ} {used : ℕ} (h : strtol base text = some (v, used)) :
    used < text.length := by
  obtain ⟨neg, body, hbody⟩ : ∃ neg body, splitSign (text.dropWhile isSpace) = (neg, body) :=
    ⟨_, _, rfl⟩
  have hsign := length_splitSign_le hbody
  have hlength := congrArg List.length (List.takeWhile_append_dropWhile (p := isSpace) (l := text))
  rw [List.length_append] at hlength
  obtain ⟨hlt, ⟨-, -, rfl⟩ | ⟨-, -, rfl⟩⟩ := strtol_cases rfl rfl hbody h
  · omega
  · omega

theorem mem_splitSign {c : UInt8} (hc : c ∈ text) (hminus : c ≠ minus) (hplus : c ≠ 43) :
    c ∈ (splitSign text).2 := by
  cases text with
  | nil => cases hc
  | cons d text =>
    rw [splitSign]
    split_ifs with h h
    · exact (List.mem_cons.mp hc).resolve_left fun hcd => hminus (hcd.trans h)
    · exact (List.mem_cons.mp hc).resolve_left fun hcd => hplus (hcd.trans h)
    · exact hc

/-- The terminator is behind the prefix. -/
theorem mem_drop_radixOf (base : ℕ) (h0 : 0 ∈ text) : 0 ∈ text.drop (radixOf base text).2 := by
  rcases radixOf_cases base text with h | ⟨h, hhex⟩
  · rwa [h, List.drop_zero]
  · obtain ⟨x, c, rest, rfl, hx, -⟩ := exists_of_hexPrefix hhex
    rw [h]
    rcases List.mem_cons.mp h0 with h48 | hmem
    · exact absurd h48 (by decide)
    · exact (List.mem_cons.mp hmem).resolve_left hx.symm

/-- A terminated text is not read past its end. -/
theorem exists_strtol (hbase : base ≤ 36) (h0 : 0 ∈ text) : ∃ r, strtol base text = some r := by
  obtain ⟨neg, body, hbody⟩ : ∃ neg body, splitSign (text.dropWhile isSpace) = (neg, body) :=
    ⟨_, _, rfl⟩
  have hrest : 0 ∈ text.dropWhile isSpace := by
    rw [← List.takeWhile_append_dropWhile (p := isSpace) (l := text)] at h0
    refine (List.mem_append.mp h0).resolve_left fun hspace => ?_
    exact absurd (List.mem_takeWhile_imp hspace) (by decide)
  have hmem : 0 ∈ body.drop (radixOf base body).2 := by
    have hmem := mem_splitSign hrest (by decide) (by decide)
    rw [hbody] at hmem
    exact mem_drop_radixOf base hmem
  -- the digits stop before the terminator
  have hend : (digitsOf base body).length ≠ (body.drop (radixOf base body).2).length := fun h => by
    have hall := (List.takeWhile_prefix _).eq_of_length h
    rw [← hall] at hmem
    have hdigit := List.mem_takeWhile_imp hmem
    rw [not_isDigit_terminator hbase] at hdigit
    cases hdigit
  rw [strtol_eq rfl rfl hbody, if_neg hend]
  by_cases hnil : digitsOf base body = []
  · exact ⟨_, if_pos hnil⟩
  · exact ⟨_, if_neg hnil⟩

/-- A number that ends before the cut is read the same. -/
theorem strtol_cut {v : ℤ} {used : ℕ} (hbase : base ≤ 36)
    (h : strtol base text = some (v, used)) (hused : used ≤ n) :
    strtol base (cut n text) = some (v, used) := by
  have hspace : isSpace 0 = false := rfl
  obtain ⟨front, hfront⟩ : ∃ front, text.takeWhile isSpace = front := ⟨_, rfl⟩
  obtain ⟨rest, hrest⟩ : ∃ rest, text.dropWhile isSpace = rest := ⟨_, rfl⟩
  obtain ⟨neg, body, hbody⟩ : ∃ neg body, splitSign rest = (neg, body) := ⟨_, _, rfl⟩
  have hsign := length_splitSign_le hbody
  -- the same parts, as far as they lie before the cut
  have hfront' := takeWhile_cut hspace n text
  have hrest' := dropWhile_cut hspace n text
  have hbody' := splitSign_cut (n - front.length) rest
  rw [hfront] at hfront' hrest'
  rw [hrest] at hrest'
  rw [hbody] at hbody'
  rw [strtol_eq hfront' hrest' hbody']
  obtain ⟨m, hm⟩ : ∃ m, n - front.length - (rest.length - body.length) = m := ⟨_, rfl⟩
  simp only [hm]
  obtain ⟨hlt, ⟨hnil, rfl, rfl⟩ | ⟨hnil, rfl, rfl⟩⟩ := strtol_cases hfront hrest hbody h
  · -- there is no number before the cut either
    have hnil' := digitsOf_cut_of_nil hbase hnil m
    rw [if_neg, if_pos hnil']
    rw [hnil', radixOf_eq_zero_of_nil hnil', List.drop_zero, length_cut]
    nofun
  · -- a digit lies before the cut, and so do the sign and the prefix
    have hpos := List.length_pos_iff.mpr hnil
    have hbehind : (radixOf base body).2 < m := by omega
    have hdigits : digitsOf base (cut m body) = digitsOf base body := by
      rw [digitsOf_cut hbase hbehind, List.take_of_length_le (by omega)]
    rw [hdigits, radixOf_cut hbehind, if_neg, if_neg hnil,
      decide_eq_true (by omega : 0 < n - front.length), Bool.true_and, length_cut, length_cut,
      List.length_take]
    · congr 2
      omega
    · rw [List.length_drop, length_cut]
      omega

end Cut

/-! ## Longer numbers -/

section Longer

variable {base k : ℕ} {text body : List UInt8}

/-- Digits are not a base prefix. -/
theorem hexPrefix_of_digits {ds : List UInt8} (hds : ∀ d ∈ ds, digitValue d < 16) :
    hexPrefix (ds ++ [0]) = false := by
  match ds with
  | [] => rfl
  | [a] => exact hexPrefix_of_length_lt (by simp)
  | [a, x] => exact hexPrefix_terminator a x []
  | a :: x :: c :: ds =>
    have hx := hds x (by simp)
    have hne : ∀ y, ¬ digitValue y < 16 → (x == y) = false := by
      intro y hy
      refine beq_eq_false_iff_ne.mpr ?_
      rintro rfl
      exact hy hx
    rw [List.cons_append, List.cons_append, List.cons_append, hexPrefix_cons,
      hne 120 (by decide), hne 88 (by decide), Bool.or_self, Bool.and_false, Bool.false_and]

theorem digitValue_lt_of_mem {d : UInt8} (hd : d ∈ digitsOf base body) :
    digitValue d < (radixOf base body).1 := by
  have hdigit := List.mem_takeWhile_imp hd
  exact of_decide_eq_true hdigit

/-- The digits, between the prefix and the rest. -/
theorem take_digitsOf (base : ℕ) (body : List UInt8) :
    body.take ((radixOf base body).2 + (digitsOf base body).length) =
      body.take (radixOf base body).2 ++ digitsOf base body := by
  rw [List.take_add]
  exact congrArg _ (List.prefix_iff_eq_take.mp (List.takeWhile_prefix _)).symm

/-- The base of a number whose digits are others, but for the first. -/
theorem radixOf_longer {d : UInt8} {rest ds : List UInt8} (hcons : digitsOf base body = d :: rest)
    (hdigits : ∀ e ∈ d :: ds, digitValue e < (radixOf base body).1) :
    radixOf base (body.take (radixOf base body).2 ++ (d :: ds ++ [0])) = radixOf base body := by
  rcases radixOf_cases base body with h0 | ⟨hr, hhex⟩
  · -- the first digit is the first byte
    rw [h0, List.take_zero, List.nil_append]
    have hhead : (d :: ds ++ [0]).head? = body.head? := by
      rw [digitsOf, h0, List.drop_zero] at hcons
      rw [← List.takeWhile_append_dropWhile (p := fun c => decide (digitValue c <
        (radixOf base body).1)) (l := body), hcons]
      rfl
    have hno : ¬ ((base = 0 ∨ base = 16) ∧ hexPrefix body) := fun h => by
      rw [radixOf, if_pos h] at h0
      cases h0
    have hradix : radixOf base body =
        if base = 0 then (if body.head? = some 48 then 8 else 10, 0) else (base, 0) := by
      rw [radixOf, if_neg hno]
    have hno' : ¬ ((base = 0 ∨ base = 16) ∧ hexPrefix (d :: ds ++ [0])) := by
      rintro ⟨hb, hhex⟩
      have hle : (radixOf base body).1 ≤ 16 := by
        rw [hradix]
        rcases hb with rfl | rfl
        · rw [if_pos rfl]
          split_ifs <;> decide
        · exact le_rfl
      rw [hexPrefix_of_digits fun e he => (hdigits e he).trans_le hle] at hhex
      cases hhex
    rw [radixOf, if_neg hno', hhead, hradix]
  · -- the prefix, and the first digit behind it
    obtain ⟨x, c, tail, rfl, -, hc⟩ := exists_of_hexPrefix hhex
    have hfirst : d = c := by
      rw [digitsOf, hr, List.drop_succ_cons, List.drop_succ_cons, List.drop_zero,
        List.takeWhile_cons] at hcons
      simp only [hc, decide_true, if_true] at hcons
      exact (List.cons.inj hcons).1.symm
    have hhex' : hexPrefix ((48 :: x :: c :: tail).take 2 ++ (d :: ds ++ [0])) = true := by
      rw [hfirst]
      simp only [List.take_succ_cons, List.take_zero, List.cons_append, List.nil_append]
      rw [hexPrefix_cons] at hhex ⊢
      exact hhex
    have hb : base = 0 ∨ base = 16 := by
      by_contra hb
      rw [radixOf, if_neg fun h => hb h.1] at hr
      split_ifs at hr <;> cases hr
    rw [hr, radixOf, if_pos ⟨hb, hhex'⟩]

/-- A number that goes on with zeros. -/
theorem digitsOf_longer (hbase : base ≤ 36) (hne : digitsOf base body ≠ []) (k : ℕ) :
    radixOf base (body.take (radixOf base body).2 ++
        (digitsOf base body ++ List.replicate k 48 ++ [0])) = radixOf base body ∧
      digitsOf base (body.take (radixOf base body).2 ++
        (digitsOf base body ++ List.replicate k 48 ++ [0])) =
          digitsOf base body ++ List.replicate k 48 := by
  obtain ⟨d, rest, hcons⟩ := List.exists_cons_of_ne_nil hne
  have hdigits : ∀ e ∈ digitsOf base body ++ List.replicate k 48,
      digitValue e < (radixOf base body).1 := by
    intro e he
    rcases List.mem_append.mp he with he | he
    · exact digitValue_lt_of_mem he
    · rw [List.eq_of_mem_replicate he]
      exact Nat.zero_lt_of_lt (digitValue_lt_of_mem (hcons ▸ List.mem_cons_self))
  have hradix : radixOf base (body.take (radixOf base body).2 ++
      (digitsOf base body ++ List.replicate k 48 ++ [0])) = radixOf base body := by
    rw [hcons] at hdigits ⊢
    exact radixOf_longer hcons hdigits
  refine ⟨hradix, ?_⟩
  rw [digitsOf, hradix, List.drop_left' (List.length_take_of_le (radixOf_le_length base body))]
  have hend : decide (digitValue 0 < (radixOf base body).1) = false := not_isDigit_terminator hbase
  exact (takeWhile_run [] (fun e he => decide_eq_true (hdigits e he)) hend).1

/-- The sign of a text that is cut off behind it. -/
theorem splitSign_take {neg : Bool} {rest tail : List UInt8} {n : ℕ}
    (h : splitSign rest = (neg, body)) (hbody : body ≠ []) (hn : 0 < n) :
    splitSign (rest.take (rest.length - body.length + n) ++ tail) = (neg, body.take n ++ tail) := by
  obtain ⟨n, rfl⟩ := Nat.exists_eq_add_one_of_ne_zero hn.ne'
  cases rest with
  | nil =>
    obtain ⟨-, rfl⟩ := Prod.mk.inj h
    exact absurd rfl hbody
  | cons c rest =>
    rw [splitSign] at h
    split_ifs at h with hminus hplus
    · obtain ⟨rfl, rfl⟩ := Prod.mk.inj h
      rw [List.length_cons, Nat.add_sub_cancel_left, Nat.add_comm 1, List.take_succ_cons,
        List.cons_append, splitSign, if_pos hminus]
    · obtain ⟨rfl, rfl⟩ := Prod.mk.inj h
      rw [List.length_cons, Nat.add_sub_cancel_left, Nat.add_comm 1, List.take_succ_cons,
        List.cons_append, splitSign, if_neg hminus, if_pos hplus]
    · obtain ⟨rfl, rfl⟩ := Prod.mk.inj h
      rw [Nat.sub_self, Nat.zero_add, List.take_succ_cons, List.cons_append, splitSign,
        if_neg hminus, if_neg hplus]

/-- **A number goes on with the zeros** that are put behind it. -/
theorem strtol_longer {v : ℤ} {used : ℕ} (hbase : base ≤ 36)
    (h : strtol base text = some (v, used)) (hused : 0 < used) (k : ℕ) :
    ∃ v', strtol base (text.take used ++ (List.replicate k 48 ++ [0])) = some (v', used + k) := by
  obtain ⟨front, hfront⟩ : ∃ front, text.takeWhile isSpace = front := ⟨_, rfl⟩
  obtain ⟨rest, hrest⟩ : ∃ rest, text.dropWhile isSpace = rest := ⟨_, rfl⟩
  obtain ⟨neg, body, hbody⟩ : ∃ neg body, splitSign rest = (neg, body) := ⟨_, _, rfl⟩
  have hsign := length_splitSign_le hbody
  obtain ⟨hlt, ⟨-, -, rfl⟩ | ⟨hne, -, rfl⟩⟩ := strtol_cases hfront hrest hbody h
  · exact absurd rfl hused.ne
  obtain ⟨n, hn⟩ : ∃ n, (radixOf base body).2 + (digitsOf base body).length = n := ⟨_, rfl⟩
  obtain ⟨hradix, hdigits⟩ := digitsOf_longer hbase hne k
  have hpos : 0 < (digitsOf base body).length := List.length_pos_iff.mpr hne
  have hne' : body ≠ [] := by
    rintro rfl
    exact absurd hlt (by simp)
  -- the same parts, up to the digits
  have htext : text = front ++ rest := by
    rw [← hfront, ← hrest, List.takeWhile_append_dropWhile]
  have hbody' : splitSign (rest.take (rest.length - body.length + n) ++
      (List.replicate k 48 ++ [0])) = (neg, body.take n ++ (List.replicate k 48 ++ [0])) :=
    splitSign_take hbody hne' (by omega)
  obtain ⟨c, tail, hc⟩ := List.exists_cons_of_ne_nil
    (List.ne_nil_of_length_pos (by omega : 0 < rest.length))
  have hspace : isSpace c = false := by
    have hhead := List.head?_dropWhile_not isSpace text
    rw [hrest, hc] at hhead
    simpa using hhead
  obtain ⟨m, hm⟩ : ∃ m, rest.length - body.length + n = m + 1 :=
    Nat.exists_eq_add_one_of_ne_zero (by omega)
  have hcut : text.take (front.length + (rest.length - body.length) + (radixOf base body).2 +
      (digitsOf base body).length) ++ (List.replicate k 48 ++ [0]) =
        front ++ c :: (tail.take m ++ (List.replicate k 48 ++ [0])) := by
    rw [htext, Nat.add_assoc _ (radixOf base body).2, hn, Nat.add_assoc, hm, List.take_append,
      List.take_of_length_le (by omega), Nat.add_sub_cancel_left, hc, List.take_succ_cons,
      List.append_assoc]
    rfl
  have hrest' : rest.take (rest.length - body.length + n) ++ (List.replicate k 48 ++ [0]) =
      c :: (tail.take m ++ (List.replicate k 48 ++ [0])) := by
    rw [hm, hc, List.take_succ_cons]
    rfl
  have hspaces : ∀ d ∈ front, isSpace d := by
    intro d hd
    rw [← hfront] at hd
    exact List.mem_takeWhile_imp hd
  obtain ⟨hfront', hdrop'⟩ := takeWhile_run (tail.take m ++ (List.replicate k 48 ++ [0])) hspaces
    hspace
  rw [hrest', ← hn, take_digitsOf, List.append_assoc, ← List.append_assoc (digitsOf base body)]
    at hbody'
  rw [hcut, strtol_eq hfront' hdrop' hbody', hradix, hdigits, if_neg, if_neg]
  · refine ⟨_, congrArg some (Prod.ext rfl ?_)⟩
    have hlen := congrArg List.length hrest'
    rw [List.length_append, List.length_take_of_le (by omega)] at hlen
    have hprefix := List.length_take_of_le (radixOf_le_length base body)
    simp only [List.length_append, List.length_replicate, List.length_singleton, hprefix] at hlen ⊢
    omega
  · exact fun hnil => hne (List.append_eq_nil_iff.mp hnil).1
  · rw [List.drop_left' (List.length_take_of_le (radixOf_le_length base body))]
    simp

end Longer

end Text
