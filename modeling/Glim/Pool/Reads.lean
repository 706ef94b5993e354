import Glim.Pool.Stored
import Mathlib.Data.UInt

/-!
# Reading every field number

A field number is a `uint32_t`, and its place in the table of a pool is `4 + num * 4` modulo
`2 ^ 32`, compared as an `int`. Numbers from `2 ^ 30` on are read like their remainder modulo
`2 ^ 30`, and behind the half of those remainders the place is negative: the comparison lets it
pass. The vectors of changes are resized to `num + 1`, which is 0 for the highest number.

## Main definitions

* `InTable`: the number is not taken for another one, and its place is not negative
* `ReadsRight`: a field can be read after some calls of `set`, and has the right value

## Main results

* `original_encode_iff`: the fields that `original` reads
* `readsRight_iff`: the numbers for which reading is right
-/

namespace Glim.Pool

open Machine Exec Text Table

/-- What a read of the fields of a pool needs of the number. -/
def InTable (T : List (List UInt8)) (num : UInt32) : Prop :=
  T = [] ∨ num.toNat % 2 ^ 30 + 1 < 2 ^ 29 ∧
    (num.toNat < 2 ^ 30 ∨ T.getD (num.toNat % 2 ^ 30) [] = [])

/-- The calls of `set` return, and the field has its last value, or the one in the pool. -/
def ReadsRight (P : List UInt8) (T : List (List UInt8)) (sets : List (UInt32 × List UInt8))
    (num : UInt32) : Prop :=
  ∃ impl, Impl.setAll sets (Impl.ofBytes P) = .ok () impl ∧
    impl.current num = some ((lastSet sets num).getD (T.getD num.toNat [])) ∧
    original P num = some (T.getD num.toNat [])

section Original

variable {T : List (List UInt8)} {num num' : UInt32} {P : List UInt8}

/-! ## Reading a pool -/

/-- A field is found by its place in the table. -/
theorem original_congr (h : num * 4 = num' * 4) : original P num = original P num' := by
  simp only [original, h]

theorem original_mod (P : List UInt8) (num : UInt32) :
    original P num = original P (UInt32.ofNat (num.toNat % 2 ^ 30)) := by
  apply original_congr
  have hsize : UInt32.size = 2 ^ 32 := rfl
  have h4 : (4 : UInt32).toNat = 4 := rfl
  rw [← UInt32.toNat_inj, UInt32.toNat_mul, UInt32.toNat_mul,
    UInt32.toNat_ofNat_of_lt' (by omega), h4]
  omega

/-- A place from `2 ^ 31` on is negative as an `int`: it does not count as behind the table, if
the difference does not overflow. -/
theorem lessThan4_of_negative {a b : UInt32} (ha : 4 ≤ a.toNat) (ha' : a.toNat < 2 ^ 31)
    (hb : 2 ^ 31 ≤ b.toNat) : lessThan4 a b ≠ some true := by
  have hlt := b.toNat_lt
  rw [lessThan4, toInt_toInt32, toInt_toInt32, if_pos ha', if_neg (Nat.not_lt.mpr hb)]
  split_ifs with hfits
  · intro h
    have hdiff := of_decide_eq_true (Option.some.inj h)
    omega
  · rintro ⟨⟩

/-- The place of a number in the table, modulo `2 ^ 32`. -/
theorem toNat_place (num : UInt32) :
    (4 + num * 4).toNat = (4 + 4 * (num.toNat % 2 ^ 30)) % 2 ^ 32 := by
  have hsize : UInt32.size = 2 ^ 32 := rfl
  have h4 : (4 : UInt32).toNat = 4 := rfl
  rw [UInt32.toNat_add, UInt32.toNat_mul, h4]
  omega

/-- The place of the highest number is the beginning of the pool: the field would begin with the
values, and end before them. -/
theorem original_encode_wraps (hlen : (encode T).length < 2 ^ 24) (hne : T ≠ [])
    (hwrap : num.toNat % 2 ^ 30 + 1 = 2 ^ 30) : original (encode T) num = none := by
  obtain ⟨hpool, hstart, hle⟩ := toNat_encode hlen hne
  have hpos : 0 < T.length := List.length_pos_iff.mpr hne
  have hvalues : valuesAt T.length = 4 + 4 * T.length := rfl
  have hzero : 4 + num * 4 = 0 := by
    rw [← UInt32.toNat_inj, toNat_place, UInt32.toNat_zero]
    omega
  have hbehind : lessThan4 (UInt32.ofNat (valuesAt T.length)) 0 = some false := by
    rw [lessThan4_eq (by rw [hstart]; omega) (by decide), hstart, UInt32.toNat_zero]
    exact congrArg some (decide_eq_false (by omega))
  have hlast : lessThan4 (UInt32.ofNat (valuesAt T.length)) (0 + 4) = some false := by
    have h04 : (0 + 4 : UInt32).toNat = 4 := rfl
    rw [lessThan4_eq (by rw [hstart]; omega) (by decide), hstart, h04]
    exact congrArg some (decide_eq_false (by omega))
  have hfirst : wordAt (encode T) (0 + 4 : UInt32).toNat =
      some (UInt32.ofNat (valuesAt T.length)) := wordAt_encode hpos
  have hcount : (UInt32.ofNat (valuesAt T.length) - 1 -
      UInt32.ofNat (valuesAt T.length)).toNat % 2 ^ 24 = 2 ^ 24 - 1 := by
    have hone : (1 : UInt32).toNat = 1 := rfl
    rw [UInt32.toNat_sub, UInt32.toNat_sub, hstart, hone]
    omega
  rw [original_encode_of_ne_nil hlen hne, hzero, hbehind, UInt32.toNat_zero,
    wordAt_encode_zero hne, hlast, hfirst]
  simp only [Option.bind_eq_bind, Option.bind_some, Bool.false_eq_true, if_false]
  rw [viewAt, hcount, hstart]
  exact if_neg (by omega)

/-- A negative place passes the comparison, and lies behind the pool. -/
theorem original_encode_of_negative (hlen : (encode T).length < 2 ^ 24) (hne : T ≠ [])
    (hplace : 2 ^ 31 ≤ (4 + num * 4).toNat) : original (encode T) num = none := by
  obtain ⟨hpool, hstart, hle⟩ := toNat_encode hlen hne
  have hvalues : valuesAt T.length = 4 + 4 * T.length := rfl
  have hread : wordAt (encode T) (4 + num * 4).toNat = none := wordAt_eq_none (by omega)
  have hless := lessThan4_of_negative (a := UInt32.ofNat (valuesAt T.length))
    (b := 4 + num * 4) (by omega) (by omega) hplace
  rw [original_encode_of_ne_nil hlen hne]
  cases hcmp : lessThan4 (UInt32.ofNat (valuesAt T.length)) (4 + num * 4) with
  | none => rfl
  | some less =>
    cases less with
    | true => exact absurd hcmp hless
    | false =>
      rw [hread]
      rfl

/-- In a pool with fields, the place of a number from `2 ^ 29 - 1` on is negative or wraps around
to the beginning, and what is read lies outside of the pool. -/
theorem original_encode_eq_none (hlen : (encode T).length < 2 ^ 24) (hne : T ≠ [])
    (hnum : 2 ^ 29 ≤ num.toNat % 2 ^ 30 + 1) : original (encode T) num = none := by
  by_cases hwrap : num.toNat % 2 ^ 30 + 1 = 2 ^ 30
  · exact original_encode_wraps hlen hne hwrap
  · apply original_encode_of_negative hlen hne
    rw [toNat_place]
    omega

/-- The fields that `original` reads. -/
theorem original_encode_iff (hlen : (encode T).length < 2 ^ 24) :
    original (encode T) num = some (T.getD num.toNat []) ↔ InTable T num := by
  have hsize : UInt32.size = 2 ^ 32 := rfl
  have hfew := (Stores.mk rfl hlen).length_lt
  by_cases hne : T = []
  · subst hne
    exact iff_of_true rfl (Or.inl rfl)
  by_cases hnum : num.toNat % 2 ^ 30 + 1 < 2 ^ 29
  · have hmod : (UInt32.ofNat (num.toNat % 2 ^ 30)).toNat = num.toNat % 2 ^ 30 :=
      UInt32.toNat_ofNat_of_lt' (by omega)
    rw [original_mod, original_encode hlen (by omega), hmod, Option.some_inj]
    constructor
    · intro heq
      by_cases hlow : num.toNat < 2 ^ 30
      · exact Or.inr ⟨hnum, Or.inl hlow⟩
      · rw [List.getD_eq_default T [] (by omega : T.length ≤ num.toNat)] at heq
        exact Or.inr ⟨hnum, Or.inr heq⟩
    · rintro (hnil | ⟨-, hlow | hempty⟩)
      · exact absurd hnil hne
      · rw [Nat.mod_eq_of_lt hlow]
      · rw [hempty]
        by_cases hlow : num.toNat < 2 ^ 30
        · rwa [Nat.mod_eq_of_lt hlow, eq_comm] at hempty
        · exact (List.getD_eq_default _ _ (by omega)).symm
  · rw [original_encode_eq_none hlen hne (by omega)]
    exact iff_of_false nofun fun h => hnum (h.resolve_left hne).1

end Original

/-! ## Reading with changes -/

section Reads

variable {P : List UInt8} {T : List (List UInt8)} {sets : List (UInt32 × List UInt8)}
  {impl : Impl} {num : UInt32}

/-- A bound on the numbers that are set. -/
theorem setEnd_lt_iff {k : ℕ} (hk : 0 < k) :
    setEnd sets < k ↔ ∀ s ∈ sets, s.1.toNat + 1 < k := by
  induction sets with
  | nil => exact iff_of_true hk nofun
  | cons s sets ih =>
    have hcons : setEnd (s :: sets) = max (s.1.toNat + 1) (setEnd sets) := rfl
    rw [hcons, Nat.max_lt, ih, List.forall_mem_cons]

/-- The calls of `set` return if and only if the highest number is not set. -/
theorem exists_setAll_iff (P : List UInt8) :
    (∃ impl, Impl.setAll sets (Impl.ofBytes P) = .ok () impl) ↔
      ∀ s ∈ sets, s.1.toNat + 1 < 2 ^ 32 := by
  rw [← setEnd_lt_iff (Nat.two_pow_pos 32)]
  constructor
  · rintro ⟨impl, hx⟩
    exact (made_of_setAll (made_ofBytes P) hx).end_lt
  · intro hend
    obtain ⟨impl, hx, -⟩ := setAll_eq sets (made_ofBytes P) hend
    exact ⟨impl, hx⟩

theorem ReadsRight.inTable (h : ReadsRight P T sets num) (hT : Stores P T) : InTable T num := by
  obtain ⟨-, -, -, horiginal⟩ := h
  rw [hT.eq] at horiginal
  exact (original_encode_iff hT.short).mp horiginal

/-- The calls of `set` return and a field is read right if and only if the highest number is not
set, and the number of the field is not taken for that of another one. -/
theorem readsRight_iff (hP : Stored P) : (∃ T, Stores P T) ∧ ∀ T sets num, Stores P T →
    poolSize P = some (UInt32.ofNat T.length) ∧
      (ReadsRight P T sets num ↔ (∀ s ∈ sets, s.1.toNat + 1 < 2 ^ 32) ∧ InTable T num) := by
  refine ⟨hP.exists_stores, fun T sets num hT => ⟨?_, ?_⟩⟩
  · rw [hT.eq, poolSize_encode hT.short]
  constructor
  · intro h
    have htable := h.inTable hT
    obtain ⟨impl, hx, -⟩ := h
    exact ⟨(exists_setAll_iff P).mp ⟨impl, hx⟩, htable⟩
  · rintro ⟨hsets, htable⟩
    obtain ⟨impl, hx⟩ := (exists_setAll_iff P).mpr hsets
    have hm := made_of_setAll (made_ofBytes P) hx
    have horiginal : original P num = some (T.getD num.toNat []) := by
      rw [hT.eq]
      exact (original_encode_iff hT.short).mpr htable
    refine ⟨impl, hx, ?_, horiginal⟩
    rw [current_eq_elim hm, List.nil_append, horiginal]
    cases lastSet sets num <;> rfl

end Reads

/-- The second of two fields is set, and the first one is read. -/
theorem readsRight_twoFields : ReadsRight twoFields [[97], [98]] [(1, [120])] 0 := by
  obtain ⟨-, hall⟩ := readsRight_iff stored_twoFields
  refine (hall [[97], [98]] [(1, [120])] 0 ⟨rfl, by decide⟩).2.mpr ⟨?_, ?_⟩
  · exact List.forall_mem_singleton.mpr (by decide)
  · exact Or.inr ⟨by decide, Or.inl (by decide)⟩

/-- Behind the two fields of a pool there are no others, but the number `2 ^ 30` is read like 0. The
highest number can be neither set nor read. -/
theorem read_wraps : Stored twoFields ∧ Stores twoFields [[97], [98]] ∧
    original twoFields (2 ^ 30) = some [97] ∧ original twoFields (2 ^ 32 - 1) = none ∧
    ¬ ReadsRight twoFields [[97], [98]] [] (2 ^ 30) ∧
    ¬ ReadsRight twoFields [[97], [98]] [(2 ^ 32 - 1, [120])] 0 := by
  have hstores : Stores twoFields [[97], [98]] := ⟨rfl, by decide⟩
  refine ⟨stored_twoFields, hstores, by decide, by decide, fun h => ?_, fun h => ?_⟩
  · rcases h.inTable hstores with hnil | ⟨-, hlow | hempty⟩
    · cases hnil
    · exact absurd hlow (by decide)
    · exact absurd hempty (by decide)
  · obtain ⟨impl, hx, -⟩ := h
    have hall := (exists_setAll_iff twoFields).mp ⟨impl, hx⟩
    exact absurd (hall _ List.mem_cons_self) (by decide)

end Glim.Pool
