import Glim.Text.Netstring
import Mathlib.Data.List.TakeWhile

/-!
# The header of a netstring on a stream

A stream reads a number with `>>`, which skips white space and takes a sign. What it accepts as
the header of a netstring is therefore more than the decimal digits and the colon of one.

## Main definitions

* `Header`: a text that begins with a number, as `>>` reads it, and a colon

## Main results

* `IStream.header_iff`: the streams on which a number and a colon are read
* `IStream.netstring_of_header_eq_some_iff`: what is read as a netstring behind a header
-/

namespace Text

/-- The text begins with white space, a sign, decimal digits and a colon, and `after` is what
follows. The number is an `int32_t` that is not negative. -/
structure Header (text spaces sign digits after : List UInt8) : Prop where
  text_eq : text = spaces ++ (sign ++ (digits ++ colon :: after))
  space : ∀ c ∈ spaces, isSpace c
  sign_eq : sign = [] ∨ sign = [minus] ∨ sign = [43]
  ne_nil : digits ≠ []
  digit : ∀ c ∈ digits, isDigit c
  nonneg : sign = [minus] → value digits = 0
  small : value digits < 2 ^ 31

theorem isSpace_minus : isSpace minus = false := rfl

theorem isDigit_colon : isDigit colon = false := rfl

namespace Header

variable {text spaces sign digits after : List UInt8}

/-- The sign and the digits begin with no space, and the sign is split off. -/
theorem split (hh : Header text spaces sign digits after) :
    text.dropWhile isSpace = sign ++ (digits ++ colon :: after) ∧
      splitSign (sign ++ (digits ++ colon :: after)) =
        (decide (sign = [minus]), digits ++ colon :: after) := by
  obtain ⟨d, ds, rfl⟩ := List.exists_cons_of_ne_nil hh.ne_nil
  have hd : isDigit d := hh.digit d List.mem_cons_self
  rw [hh.text_eq]
  rcases hh.sign_eq with rfl | rfl | rfl
  · exact ⟨(takeWhile_run _ hh.space (isSpace_of_isDigit hd)).2, splitSign_of_isDigit hd⟩
  · exact ⟨(takeWhile_run _ hh.space isSpace_minus).2, rfl⟩
  · exact ⟨(takeWhile_run _ hh.space (c := 43) rfl).2, rfl⟩

/-- Reading the number. -/
theorem extractInt32 (hh : Header text spaces sign digits after) :
    IStream.extractInt32 { rest := text } =
      ((value digits : ℤ), { rest := colon :: after }) := by
  obtain ⟨hdrop, hsplit⟩ := hh.split
  obtain ⟨htake, hrest⟩ := takeWhile_run after hh.digit isDigit_colon
  have hn : (if sign = [minus] then -(value digits : ℤ) else value digits) = value digits := by
    split_ifs with hs
    · rw [hh.nonneg hs]
      rfl
    · rfl
  have hsmall := hh.small
  have hgood : IStream.good { rest := text } = true := rfl
  simp only [IStream.extractInt32, hgood, if_true, hdrop, hsplit, htake, hrest, decide_eq_true_eq,
    hn]
  have hbad : ¬ (digits = [] ∨ (value digits : ℤ) < -2 ^ 31 ∨ 2 ^ 31 ≤ (value digits : ℤ)) := by
    rintro (h | h | h)
    · exact hh.ne_nil h
    · omega
    · omega
  simp only [hbad, decide_false, List.isEmpty_cons]

theorem takeWhile_isSpace (hh : Header text spaces sign digits after) :
    text.takeWhile isSpace = spaces := by
  obtain ⟨d, ds, rfl⟩ := List.exists_cons_of_ne_nil hh.ne_nil
  have hd : isDigit d := hh.digit d List.mem_cons_self
  rw [hh.text_eq]
  rcases hh.sign_eq with rfl | rfl | rfl
  · exact (takeWhile_run _ hh.space (isSpace_of_isDigit hd)).1
  · exact (takeWhile_run _ hh.space isSpace_minus).1
  · exact (takeWhile_run _ hh.space (c := 43) rfl).1

/-- A text has one header. -/
theorem unique {spaces' sign' digits' after' : List UInt8}
    (hh : Header text spaces sign digits after) (hh' : Header text spaces' sign' digits' after') :
    spaces = spaces' ∧ sign = sign' ∧ digits = digits' ∧ after = after' := by
  have hspaces : spaces = spaces' := hh.takeWhile_isSpace.symm.trans hh'.takeWhile_isSpace
  obtain ⟨hdrop, hsplit⟩ := hh.split
  obtain ⟨hdrop', hsplit'⟩ := hh'.split
  have hbody : digits ++ colon :: after = digits' ++ colon :: after' := by
    rw [← hdrop, hdrop', hsplit'] at hsplit
    exact (Prod.mk.inj hsplit).2.symm
  have hsign : sign = sign' := by
    have htext := hdrop.symm.trans hdrop'
    rw [hbody] at htext
    exact List.append_cancel_right htext
  obtain ⟨htake, hrest⟩ := takeWhile_run after hh.digit isDigit_colon
  obtain ⟨htake', hrest'⟩ := takeWhile_run after' hh'.digit isDigit_colon
  rw [hbody] at htake hrest
  exact ⟨hspaces, hsign, htake.symm.trans htake',
    (List.cons.inj (hrest.symm.trans hrest')).2⟩

end Header

namespace IStream

variable {s s' : IStream} {body : List UInt8}

theorem eq_of_good (hs : s.good) : s = { rest := s.rest } := by
  obtain ⟨rest, eof, fail⟩ := s
  simp only [good, Bool.and_eq_true, Bool.not_eq_true'] at hs
  rw [hs.1, hs.2]

theorem getChar_cons (c : UInt8) (rest : List UInt8) :
    getChar { rest := c :: rest } = (some c, { rest := rest }) := rfl

/-- A character that was read from a good stream. -/
theorem getChar_eq_some_iff {c : UInt8} :
    (s.getChar.2.good ∧ s.getChar.1 = some c) ↔ s.good ∧ ∃ rest, s.rest = c :: rest := by
  unfold getChar
  by_cases hs : s.good
  · rw [if_pos hs]
    cases hrest : s.rest with
    | nil => simp
    | cons d rest =>
      have hgood : good { s with rest := rest } = true := hs
      simp only [hgood, Option.some.injEq, true_and, hs, List.cons.injEq]
      exact ⟨fun h => ⟨rest, h, rfl⟩, fun ⟨_, h, _⟩ => h⟩
  · rw [if_neg hs]
    simp [hs]

/-- The text behind the sign is empty, or begins where the sign ends. -/
theorem splitSign_cases (text : List UInt8) :
    ∃ sign, text = sign ++ (splitSign text).2 ∧ (sign = [] ∨ sign = [minus] ∨ sign = [43]) ∧
      ((splitSign text).1 = true ↔ sign = [minus]) := by
  cases text with
  | nil => exact ⟨[], rfl, Or.inl rfl, by decide⟩
  | cons c cs =>
    rw [splitSign]
    split_ifs with hminus hplus
    · exact ⟨[minus], by rw [hminus]; rfl, Or.inr (Or.inl rfl), by simp⟩
    · exact ⟨[43], by rw [hplus]; rfl, Or.inr (Or.inr rfl), by decide⟩
    · exact ⟨[], rfl, Or.inl rfl, by simp⟩

/-- A number that is not negative and a colon are read from the streams that begin with them. -/
theorem header_iff :
    ((s.extractInt32.2.good ∧ 0 ≤ s.extractInt32.1) ∧
        (s.extractInt32.2.getChar.2.good ∧ s.extractInt32.2.getChar.1 = some colon)) ↔
      s.good ∧ ∃ spaces sign digits after, Header s.rest spaces sign digits after := by
  constructor
  · rintro ⟨⟨hgood, hnonneg⟩, hcolon⟩
    obtain ⟨-, after, hafter⟩ := getChar_eq_some_iff.mp hcolon
    by_cases hs : s.good
    · refine ⟨hs, ?_⟩
      obtain ⟨sign, htext, hsign, hneg⟩ := splitSign_cases (s.rest.dropWhile isSpace)
      simp only [extractInt32, hs, if_true] at hgood hnonneg hafter
      -- the sign and what is behind it are two parts of the text
      generalize splitSign (s.rest.dropWhile isSpace) = split at htext hneg hgood hnonneg hafter
      simp only [good, Bool.and_eq_true, Bool.not_eq_true', decide_eq_false_iff_not,
        not_or] at hgood
      -- the number has a digit, and fits an `int32_t`
      obtain ⟨-, hne, -, hlt⟩ := hgood
      refine ⟨s.rest.takeWhile isSpace, sign, split.2.takeWhile isDigit, after, ?_, ?_, hsign, hne,
        ?_, fun hs => ?_, ?_⟩
      · rw [← hafter, List.takeWhile_append_dropWhile, ← htext, List.takeWhile_append_dropWhile]
      · exact fun c hc => List.mem_takeWhile_imp hc
      · exact fun c hc => List.mem_takeWhile_imp hc
      · rw [if_pos (hneg.mpr hs)] at hnonneg
        omega
      · split_ifs at hlt hnonneg
        · omega
        · omega
    · simp only [extractInt32, hs, Bool.false_eq_true, if_false] at hgood
      simp [good] at hgood
  · rintro ⟨hs, spaces, sign, digits, after, hh⟩
    rw [eq_of_good hs, hh.extractInt32, getChar_cons]
    exact ⟨⟨rfl, Int.natCast_nonneg _⟩, rfl, rfl⟩

/-- Reading `n` bytes and a comma. -/
theorem read_comma_iff {text : List UInt8} {n : ℕ} :
    ((read { rest := text } n).2.good ∧ (read { rest := text } n).2.getChar.1 = some comma) ↔
      ∃ body rest, text = body ++ comma :: rest ∧ body.length = n := by
  have hread : read { rest := text } n =
      if n ≤ text.length then (text.take n, { rest := text.drop n }) else (text, exhausted) := rfl
  rw [hread]
  split_ifs with hn
  · have hgood : good { rest := text.drop n } = true := rfl
    simp only [hgood, true_and]
    constructor
    · intro hcomma
      cases hdrop : text.drop n with
      | nil =>
        rw [hdrop] at hcomma
        cases hcomma
      | cons c rest =>
        rw [hdrop, getChar_cons, Option.some.injEq] at hcomma
        refine ⟨text.take n, rest, ?_, List.length_take.trans (Nat.min_eq_left hn)⟩
        rw [← hcomma, ← hdrop, List.take_append_drop]
    · rintro ⟨body, rest, rfl, rfl⟩
      rw [List.drop_left' rfl, getChar_cons]
  · refine iff_of_false (fun h => ?_) ?_
    · exact Bool.noConfusion h.1
    · rintro ⟨body, rest, rfl, rfl⟩
      rw [List.length_append] at hn
      omega

theorem toNat_extractInt32 {spaces sign digits after : List UInt8} (hs : s.good)
    (hh : Header s.rest spaces sign digits after) : s.extractInt32.1.toNat = value digits := by
  rw [eq_of_good hs, hh.extractInt32, Int.toNat_natCast]

/-- Behind a header, a body and a comma are read. -/
theorem netstring_of_header {spaces sign digits after : List UInt8} (hs : s.good)
    (hh : Header s.rest spaces sign digits after) :
    s.netstring =
      if (read { rest := after } (value digits)).2.good ∧
          (read { rest := after } (value digits)).2.getChar.1 = some comma then
        some ((read { rest := after } (value digits)).1,
          (read { rest := after } (value digits)).2.getChar.2)
      else none := by
  have hhead := header_iff.mpr ⟨hs, spaces, sign, digits, after, hh⟩
  have hnumber := hh.extractInt32
  rw [← eq_of_good hs] at hnumber
  have hvalue := toNat_extractInt32 hs hh
  have hafter : s.extractInt32.2.getChar.2 = { rest := after } := by rw [hnumber, getChar_cons]
  have hstart : s.netstring =
      if (s.extractInt32.2.good ∧ 0 ≤ s.extractInt32.1) ∧
          (s.extractInt32.2.getChar.2.good ∧ s.extractInt32.2.getChar.1 = some colon) ∧
          (s.extractInt32.2.getChar.2.read s.extractInt32.1.toNat).2.good ∧
          (s.extractInt32.2.getChar.2.read s.extractInt32.1.toNat).2.getChar.1 = some comma then
        some ((s.extractInt32.2.getChar.2.read s.extractInt32.1.toNat).1,
          (s.extractInt32.2.getChar.2.read s.extractInt32.1.toNat).2.getChar.2)
      else none := rfl
  rw [hstart]
  simp only [hhead.1.1, hhead.1.2, hhead.2.2, and_self, true_and, hvalue, hafter, good_mk]

/-- A body and a comma that are there. -/
theorem read_append (body rest : List UInt8) :
    read { rest := body ++ comma :: rest } body.length = (body, { rest := comma :: rest }) := by
  have hread : read { rest := body ++ comma :: rest } body.length =
      if body.length ≤ (body ++ comma :: rest).length then
        ((body ++ comma :: rest).take body.length,
          { rest := (body ++ comma :: rest).drop body.length })
      else (body ++ comma :: rest, exhausted) := rfl
  rw [hread, if_pos (by rw [List.length_append]; omega), List.take_left' rfl, List.drop_left' rfl]

/-- What is read as a netstring behind a header. -/
theorem netstring_of_header_eq_some_iff {spaces sign digits after : List UInt8} (hs : s.good)
    (hh : Header s.rest spaces sign digits after) :
    s.netstring = some (body, s') ↔
      ∃ rest, after = body ++ comma :: rest ∧ body.length = value digits ∧
        s' = { rest := rest } := by
  rw [netstring_of_header hs hh]
  constructor
  · intro hsome
    split_ifs at hsome with hread
    obtain ⟨body', rest, rfl, hlen⟩ := read_comma_iff.mp hread
    rw [← hlen, read_append, getChar_cons] at hsome
    obtain ⟨rfl, rfl⟩ := Prod.mk.inj (Option.some.inj hsome)
    exact ⟨rest, rfl, hlen, rfl⟩
  · rintro ⟨rest, rfl, hlen, rfl⟩
    rw [if_pos (read_comma_iff.mpr ⟨body, rest, rfl, hlen⟩), ← hlen, read_append, getChar_cons]

end IStream

end Text
