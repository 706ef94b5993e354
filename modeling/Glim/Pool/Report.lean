import Glim.Pool.Reads

/-!
# What `toBytesDelta` reports

`toBytesDelta` looks for the fields that are set to another value than the pool has that it is
given, and shows them to the visitor. Without a visitor it stops at the first one. The fields it
shows are those in which the stored pool differs from the one before: the new pool if there is
one, and otherwise the pool stays.

## Main definitions

* `Reports`: the visits are the differences between two pools

## Main results

* `toBytesDelta_reports`: the visitor sees the differences between the pool before and after
-/

namespace Glim.Pool

open Machine Exec Text Table

/-- The visits are the fields in which the two pools differ, once each and in ascending order, with
both values. -/
structure Reports (old new : List UInt8) (visits : List Visit) : Prop where
  ascending : visits.Pairwise fun v w => v.num < w.num
  mem_iff : ∀ v, v ∈ visits ↔ v.num.toNat + 1 < 2 ^ 29 ∧ original old v.num = some v.fromValue ∧
    original new v.num = some v.toValue ∧ v.fromValue ≠ v.toValue

section Differences

variable {impl : Impl} {P pool old : List UInt8} {T : List (List UInt8)}
  {sets : List (UInt32 × List UInt8)} {nums : List ℕ} {n : ℕ} {v : Visit}

/-! ## The search -/

/-- Below `2 ^ 32`, the differences are in ascending order. -/
theorem differences_ascending (hn : n < 2 ^ 32) :
    (impl.differences T (List.range n)).Pairwise fun v w => v.num < w.num := by
  have hsize : UInt32.size = 2 ^ 32 := rfl
  have hnum : ∀ {m : ℕ} {v : Visit}, m < n → v ∈ ((impl.patch.field m).bind fun w =>
      if T.getD m [] = w then none else some ⟨UInt32.ofNat m, T.getD m [], w⟩) →
      v.num.toNat = m := by
    intro m v hm hv
    obtain ⟨w, -, hv⟩ := Option.bind_eq_some_iff.mp hv
    split_ifs at hv
    cases hv
    exact UInt32.toNat_ofNat_of_lt' (by omega)
  rw [Impl.differences, List.pairwise_filterMap]
  refine List.pairwise_lt_range.imp_of_mem fun {i j} hi hj hlt v hv w hw => ?_
  rw [UInt32.lt_iff_toNat_lt, hnum (List.mem_range.mp hi) hv, hnum (List.mem_range.mp hj) hw]
  exact hlt

/-! ## The differences between the pools -/

/-- A pool does not differ from itself. -/
theorem reports_nil (old : List UInt8) : Reports old old [] := by
  refine ⟨List.Pairwise.nil, fun v => iff_of_false List.not_mem_nil ?_⟩
  rintro ⟨-, hfrom, hto, hne⟩
  exact hne (Option.some.inj (hfrom.symm.trans hto))

/-- The differences are those between the pool before and the patched one. -/
theorem reports_differences (hm : Made P sets impl) (hold : Stores old T)
    (hend : setEnd sets < 2 ^ 29) (hfit : (encode ((setPatch sets).apply [] T)).length < 2 ^ 24) :
    Reports old (encode ((setPatch sets).apply [] T))
      (impl.differences T (List.range impl.changed.length)) := by
  have hsize : UInt32.size = 2 ^ 32 := rfl
  have hlt := hm.end_lt
  refine ⟨differences_ascending (by rw [hm.end_eq]; exact hlt), fun v => ?_⟩
  rw [mem_differences_iff]
  -- the fields before and after
  have hbefore : v.num.toNat + 1 < 2 ^ 29 →
      original old v.num = some (T.getD v.num.toNat []) := fun hnum => by
    rw [hold.eq, original_encode hold.short hnum]
  have hafter : v.num.toNat + 1 < 2 ^ 29 →
      original (encode ((setPatch sets).apply [] T)) v.num =
        some ((impl.patch.field v.num.toNat).getD (T.getD v.num.toNat [])) := fun hnum => by
    rw [original_encode hfit hnum, Patch.getD_apply, hm.patch_eq]
  constructor
  · rintro ⟨n, hn, hw, hv, hfrom, hne⟩
    rw [List.mem_range, hm.end_eq] at hn
    have hnum : v.num.toNat = n := by
      rw [hv]
      exact UInt32.toNat_ofNat_of_lt' (by omega)
    have hreach : v.num.toNat + 1 < 2 ^ 29 := by omega
    refine ⟨hreach, ?_, ?_, hne⟩
    · rw [hbefore hreach, hnum, hfrom]
    · rw [hafter hreach, hnum, hw, Option.getD_some]
  · rintro ⟨hreach, hfrom, hto, hne⟩
    rw [hbefore hreach] at hfrom
    rw [hafter hreach] at hto
    have hfrom := Option.some.inj hfrom
    have hto := Option.some.inj hto
    cases hfield : impl.patch.field v.num.toNat with
    | none =>
      rw [hfield, Option.getD_none] at hto
      exact absurd (hfrom.symm.trans hto) hne
    | some w =>
      rw [hfield, Option.getD_some] at hto
      refine ⟨v.num.toNat, ?_, by rw [← hto, hfield], UInt32.ofNat_toNat.symm, hfrom.symm, hne⟩
      rw [List.mem_range]
      by_contra hge
      rw [Patch.field_eq_none_of_le (by rw [length_patch]; omega)] at hfield
      cases hfield

/-- The visitor of `toBytesDelta` sees the differences between the pool before and after, which is
the new pool if `true` is returned and the old one otherwise; and a visitor makes no difference. -/
theorem toBytesDelta_reports (P : List UInt8) (hold : Stores old T)
    (hsets : ∀ s ∈ sets, s.1.toNat + 1 < 2 ^ 29)
    (hfit : (setPatch sets).Changes [] T →
      (encode ((setPatch sets).apply [] T)).length < 2 ^ 24) :
    ∃ impl visits saved newPool, Impl.setAll sets (Impl.ofBytes P) = .ok () impl ∧
      impl.toBytesDelta old true = some (visits, saved, newPool) ∧
      impl.toBytesDelta old false = some ([], saved, newPool) ∧
      Reports old (if saved then newPool else old) visits ∧
      (saved = true ↔ ∃ num : UInt32, num.toNat + 1 < 2 ^ 29 ∧
        original (if saved then newPool else old) num ≠ original old num) ∧
      (saved = false → newPool = []) := by
  have hend := (setEnd_lt_iff (Nat.two_pow_pos 29)).mpr hsets
  obtain ⟨impl, hx, hm⟩ := setAll_eq sets (made_ofBytes P) (by rw [List.nil_append]; omega)
  rw [List.nil_append] at hm
  by_cases hc : (setPatch sets).Changes [] T
  · have hfew := (Stores.mk rfl (hfit hc)).length_lt
    rw [Patch.length_apply, length_setPatch] at hfew
    have hreports := reports_differences hm hold hend (hfit hc)
    refine ⟨impl, _, true, _, hx, toBytesDelta_of_changes true hm hold (by omega) hc,
      toBytesDelta_of_changes false hm hold (by omega) hc, hreports, iff_of_true rfl ?_, nofun⟩
    -- one of the visits is a difference
    obtain ⟨v, hv⟩ := List.exists_mem_of_ne_nil _ ((differences_ne_nil_iff hm).mpr hc)
    obtain ⟨hreach, hfrom, hto, hne⟩ := (hreports.mem_iff v).mp hv
    refine ⟨v.num, hreach, fun hsame => hne ?_⟩
    exact (Option.some.inj (hto.symm.trans (hsame.trans hfrom))).symm
  · refine ⟨impl, [], false, [], hx, toBytesDelta_of_not_changes true hm hold hend hc,
      toBytesDelta_of_not_changes false hm hold hend hc, reports_nil old, ?_, fun _ => rfl⟩
    exact iff_of_false Bool.false_ne_true fun ⟨num, _, hne⟩ => hne rfl

end Differences

/-- Of two fields that are set, the first one changes. -/
theorem reports_twoFields :
    ∃ impl visits newPool, Impl.setAll [(0, [120]), (1, [98])] (Impl.ofBytes twoFields) =
        .ok () impl ∧
      impl.toBytesDelta twoFields true = some (visits, true, newPool) ∧
      Reports twoFields newPool visits := by
  have hsets : ∀ s ∈ [((0 : UInt32), ([120] : List UInt8)), (1, [98])], s.1.toNat + 1 < 2 ^ 29 :=
    List.forall_mem_cons.mpr ⟨by decide, List.forall_mem_singleton.mpr (by decide)⟩
  have hstores : Stores twoFields [[97], [98]] := ⟨rfl, by decide⟩
  obtain ⟨impl, visits, saved, newPool, hx, hdelta, -, hreports, hiff, -⟩ :=
    toBytesDelta_reports twoFields hstores hsets fun _ => by decide
  have hsaved : saved = true := by
    have hrun : Impl.setAll [(0, [120]), (1, [98])] (Impl.ofBytes twoFields) =
        .ok () ⟨twoFields, [[120], [98]], [true, true], false⟩ := rfl
    rw [hrun] at hx
    cases hx
    have hgives : Impl.toBytesDelta ⟨twoFields, [[120], [98]], [true, true], false⟩ twoFields true =
        some ([⟨0, [97], [120]⟩], true, encode [[120], [98]]) := rfl
    rw [hgives] at hdelta
    cases hdelta
    rfl
  subst hsaved
  exact ⟨impl, visits, newPool, hx, hdelta, hreports⟩

/-- Without a change the new pool is empty, and differs from the old one in fields that are not
reported. -/
theorem empty_not_reported :
    ∃ impl, Impl.setAll [] (Impl.ofBytes twoFields) = .ok () impl ∧
      impl.toBytesDelta twoFields true = some ([], false, []) ∧
      original [] 0 = some [] ∧ original twoFields 0 = some [97] ∧ ¬ Reports twoFields [] [] := by
  refine ⟨_, rfl, rfl, rfl, rfl, fun h => ?_⟩
  exact List.not_mem_nil ((h.mem_iff ⟨0, [97], []⟩).mpr ⟨by decide, rfl, rfl, by decide⟩)

end Glim.Pool
