import Glim.Pool.Fields

/-!
# Stored pools, and what `toBytes` keeps

`toBytesDelta` writes the fields of the pool it is given, patched. `toBytes` writes as many
fields as the vector of changes is long: a pool with more fields than that loses the others,
and a pool without changes loses all of them.

## Main definitions

* `Impl.differences`: the fields that are set to another value
* `Stored`: the pools that serializing can produce

## Main results

* `findChanges_eq_differences`: the search for changes finds the differences, or the first one
* `toBytes_eq`, `toBytesDelta_eq`: what serializing returns
* `Stored.exists_stores`: a stored pool stores a list of fields
* `toBytes_keeps_iff`: when `toBytes` keeps every field
* `toBytes_loses`: a field above the last one that was set is lost
-/

namespace Glim.Pool

open Machine Exec Text Table

variable {impl : Impl} {P pool old newPool : List UInt8} {T : List (List UInt8)}
  {sets : List (UInt32 × List UInt8)} {nums : List ℕ} {visiting all saved : Bool}
  {visits : List Visit} {n m : ℕ} {num : UInt32} {v : Visit}

/-! ## Looking for changes -/

/-- The fields among `nums` that are set to another value than the one among the fields `T`. -/
def Impl.differences (impl : Impl) (T : List (List UInt8)) (nums : List ℕ) : List Visit :=
  nums.filterMap fun n => (impl.patch.field n).bind fun w =>
    if T.getD n [] = w then none else some ⟨UInt32.ofNat n, T.getD n [], w⟩

/-- The search finds all differences, or the first one. -/
theorem findChanges_eq_differences (all : Bool) (hl : impl.changes.length = impl.changed.length)
    (hpool : Stores pool T) (hnums : ∀ n ∈ nums, n + 1 < 2 ^ 29) :
    impl.findChanges pool all nums =
      some (if all then impl.differences T nums else (impl.differences T nums).take 1) := by
  induction nums with
  | nil => cases all <;> rfl
  | cons n nums ih =>
    have hrest := ih fun m hm => hnums m (List.mem_cons_of_mem n hm)
    rw [Impl.findChanges, Impl.differences, List.filterMap_cons]
    by_cases hc : impl.isChanged n = true
    · obtain ⟨w, hw⟩ := getElem?_changes hl hc
      have hfield : impl.patch.field n = some w := by rw [field_patch, if_pos hc, hw]
      have hsize : UInt32.size = 2 ^ 32 := rfl
      -- the number is small enough to be found in the table
      have hn := hnums n List.mem_cons_self
      have hnum : (UInt32.ofNat n).toNat = n := UInt32.toNat_ofNat_of_lt' (by omega)
      have horiginal : original pool (UInt32.ofNat n) = some (T.getD n []) := by
        rw [hpool.eq, original_encode hpool.short (by rw [hnum]; exact hn), hnum]
      rw [if_pos hc, horiginal, hw, hfield]
      simp only [Option.bind_eq_bind, Option.bind_some]
      -- a field that was set to the value it had is no change
      by_cases heq : T.getD n [] = w
      · rw [if_neg (not_not_intro heq), if_pos heq, hrest]
        rfl
      · rw [if_pos heq, if_neg heq]
        -- the search for one change stops at the first
        cases all with
        | false => rfl
        | true =>
          rw [if_pos rfl, hrest]
          rfl
    · have hfield : impl.patch.field n = none := by rw [field_patch, if_neg hc]
      rw [if_neg hc, hrest, hfield]
      rfl

/-- The search through all fields that were set. -/
theorem findChanges_range_eq (all : Bool) (hm : Made P sets impl) (hpool : Stores pool T)
    (hend : setEnd sets < 2 ^ 29) :
    impl.findChanges pool all (List.range impl.changed.length) =
      some (if all then impl.differences T (List.range impl.changed.length)
        else (impl.differences T (List.range impl.changed.length)).take 1) := by
  refine findChanges_eq_differences all hm.length_eq hpool fun n hn => ?_
  rw [List.mem_range, hm.end_eq] at hn
  omega

/-- A difference is a field that is set to another value. -/
theorem mem_differences_iff : v ∈ impl.differences T nums ↔
    ∃ n ∈ nums, impl.patch.field n = some v.toValue ∧ v.num = UInt32.ofNat n ∧
      v.fromValue = T.getD n [] ∧ v.fromValue ≠ v.toValue := by
  rw [Impl.differences, List.mem_filterMap]
  constructor
  · rintro ⟨n, hn, hv⟩
    obtain ⟨w, hw, hv⟩ := Option.bind_eq_some_iff.mp hv
    split_ifs at hv with heq
    cases hv
    exact ⟨n, hn, hw, rfl, rfl, heq⟩
  · obtain ⟨num, fromValue, toValue⟩ := v
    rintro ⟨n, hn, hw, rfl, rfl, hne⟩
    refine ⟨n, hn, ?_⟩
    rw [hw, Option.bind_some, if_neg hne]

/-- Every change of a field is a difference. -/
theorem differences_ne_nil_iff (hm : Made P sets impl) :
    impl.differences T (List.range impl.changed.length) ≠ [] ↔ (setPatch sets).Changes [] T := by
  rw [← hm.patch_eq]
  constructor
  · intro hne
    obtain ⟨v, hv⟩ := List.exists_mem_of_ne_nil _ hne
    obtain ⟨n, -, hw, -, hfrom, hne⟩ := mem_differences_iff.mp hv
    exact ⟨n, v.toValue, hw, hfrom ▸ hne⟩
  · rintro ⟨n, w, hw, hne⟩
    have hn : n < impl.changed.length := by
      by_contra hge
      rw [Patch.field_eq_none_of_le (by rw [length_patch]; omega)] at hw
      cases hw
    refine List.ne_nil_of_mem (a := ⟨UInt32.ofNat n, T.getD n [], w⟩) ?_
    exact mem_differences_iff.mpr ⟨n, List.mem_range.mpr hn, hw, rfl, rfl, hne⟩

/-! ## Serializing -/

theorem fields_eq_apply (hm : Made pool sets impl) :
    impl.fields T (max (setEnd sets) T.length) = (setPatch sets).apply [] T := by
  rw [Impl.fields, Patch.apply, hm.patch_eq, length_setPatch]

theorem fields_eq_take (hm : Made P sets impl) :
    impl.fields T (setEnd sets) = ((setPatch sets).apply [] T).take (setEnd sets) := by
  rw [← fields_eq_apply hm, Impl.fields, Impl.fields, ← List.map_take, List.take_range,
    Nat.min_eq_left (Nat.le_max_left _ _)]

theorem changed_ne_nil (hm : Made pool sets impl) (hpos : 0 < setEnd sets) :
    impl.changed ≠ [] := by
  rw [← List.length_pos_iff, hm.end_eq]
  exact hpos

theorem max_ofNat (hn : n < 2 ^ 32) (hm : m < 2 ^ 32) :
    max (UInt32.ofNat n) (UInt32.ofNat m) = UInt32.ofNat (max n m) := by
  have hle : UInt32.ofNat n ≤ UInt32.ofNat m ↔ n ≤ m := by
    rw [UInt32.le_iff_toNat_le, UInt32.toNat_ofNat_of_lt' hn, UInt32.toNat_ofNat_of_lt' hm]
  have hmax : max (UInt32.ofNat n) (UInt32.ofNat m) =
      if UInt32.ofNat n ≤ UInt32.ofNat m then UInt32.ofNat m else UInt32.ofNat n := rfl
  rw [hmax]
  split_ifs with h
  · rw [Nat.max_eq_right (hle.mp h)]
  · rw [Nat.max_eq_left (Nat.le_of_not_le (mt hle.mpr h))]

/-- `toBytes` writes the fields below the end of the changes. -/
theorem toBytes_eq (visiting : Bool) (hm : Made P sets impl) (hP : Stores P T)
    (hend : setEnd sets < 2 ^ 28) :
    ∃ visits, impl.toBytes visiting = some (visits, encode (impl.fields T (setEnd sets))) := by
  have hwrite : impl.write (UInt32.ofNat impl.changed.length) none =
      some (encode (impl.fields T (setEnd sets))) := by
    rw [hm.end_eq]
    -- without changes there is nothing to write, and no fields below the end
    by_cases hpos : 0 < setEnd sets
    · exact write_eq_encode hm.length_eq (by rw [hm.pool]; exact hP) (changed_ne_nil hm hpos) hpos
        hend
    · have hzero : setEnd sets = 0 := by omega
      have hnil : impl.changed = [] := by rw [← List.length_eq_zero_iff, hm.end_eq, hzero]
      rw [Impl.write, if_pos hnil, hzero]
      rfl
  have hfound := findChanges_range_eq true hm (by rwa [hm.pool] : Stores impl.pool T) (by omega)
  refine ⟨if visiting then impl.differences T (List.range impl.changed.length) else [], ?_⟩
  by_cases hv : visiting = true
  · simp only [Impl.toBytes, Option.bind_eq_bind, hwrite, if_pos hv, hfound, Option.bind_some,
      if_true]
  · simp only [Impl.toBytes, Option.bind_eq_bind, hwrite, if_neg hv, Option.bind_some]

/-- The number of fields that `toBytesDelta` writes. -/
theorem max_poolSize (hm : Made P sets impl) (hold : Stores old T)
    (hend : setEnd sets < 2 ^ 32) (hT : T.length < 2 ^ 32) :
    poolSize old = some (UInt32.ofNat T.length) ∧
      max (UInt32.ofNat impl.changed.length) (UInt32.ofNat T.length) =
        UInt32.ofNat (max (setEnd sets) T.length) := by
  refine ⟨?_, ?_⟩
  · rw [hold.eq, poolSize_encode hold.short]
  · rw [hm.end_eq]
    exact max_ofNat hend hT

/-- Without a change, `toBytesDelta` returns `false`. -/
theorem toBytesDelta_of_not_changes (visiting : Bool) (hm : Made P sets impl) (hold : Stores old T)
    (hend : setEnd sets < 2 ^ 29) (hc : ¬ (setPatch sets).Changes [] T) :
    impl.toBytesDelta old visiting = some ([], false, []) := by
  have hnil : impl.differences T (List.range impl.changed.length) = [] := by
    by_contra hne
    exact hc ((differences_ne_nil_iff hm).mp hne)
  rw [Impl.toBytesDelta, findChanges_range_eq visiting hm hold hend, hnil]
  cases visiting <;> rfl

/-- With a change, `toBytesDelta` shows the differences to a visitor and writes the patched
fields. -/
theorem toBytesDelta_of_changes (visiting : Bool) (hm : Made P sets impl) (hold : Stores old T)
    (hend : max (setEnd sets) T.length < 2 ^ 28) (hc : (setPatch sets).Changes [] T) :
    impl.toBytesDelta old visiting =
      some (if visiting then impl.differences T (List.range impl.changed.length) else [], true,
        encode ((setPatch sets).apply [] T)) := by
  have hsize : UInt32.size = 2 ^ 32 := rfl
  have hne := (differences_ne_nil_iff hm).mpr hc
  have hpos : 0 < setEnd sets := by
    obtain ⟨n, w, hw, -⟩ := hc
    by_contra hzero
    rw [Patch.field_eq_none_of_le (by rw [length_setPatch]; omega)] at hw
    cases hw
  -- `write` gets the larger one of the two numbers of fields
  obtain ⟨hstored, hmax⟩ := max_poolSize hm hold (by omega) (by omega)
  have hwrite : impl.write (UInt32.ofNat (max (setEnd sets) T.length)) (some old) =
      some (encode (impl.fields T (max (setEnd sets) T.length))) :=
    write_eq_encode hm.length_eq hold (changed_ne_nil hm hpos) (by omega) hend
  rw [Impl.toBytesDelta, findChanges_range_eq visiting hm hold (by omega)]
  obtain ⟨v, vs, hvs⟩ := List.exists_cons_of_ne_nil hne
  rw [← fields_eq_apply hm, hvs]
  cases visiting with
  | false =>
    simp only [Bool.false_eq_true, if_false, List.take_succ_cons, List.take_zero,
      Option.bind_eq_bind, Option.bind_some, if_neg (List.cons_ne_nil v _), hstored, hmax, hwrite]
  | true =>
    simp only [if_true, Option.bind_eq_bind, Option.bind_some, if_neg (List.cons_ne_nil v vs),
      hstored, hmax, hwrite]

/-- `toBytesDelta` patches the fields of the pool it is given, if that changes any. -/
theorem toBytesDelta_eq (visiting : Bool) (hm : Made P sets impl) (hold : Stores old T)
    (hend : max (setEnd sets) T.length < 2 ^ 28) :
    ∃ visits saved, impl.toBytesDelta old visiting =
        some (visits, saved, if saved then encode ((setPatch sets).apply [] T) else []) ∧
      (saved = true ↔ (setPatch sets).Changes [] T) := by
  by_cases hc : (setPatch sets).Changes [] T
  · exact ⟨_, true, toBytesDelta_of_changes visiting hm hold hend hc, iff_of_true rfl hc⟩
  · exact ⟨_, false, toBytesDelta_of_not_changes visiting hm hold (by omega) hc,
      iff_of_false Bool.false_ne_true hc⟩

/-! ## Stored pools -/

/-- The pools that serializing can produce: the empty one, and the ones that `toBytes` and
`toBytesDelta` return, below the length limit. -/
inductive Stored : List UInt8 → Prop
  | empty : Stored []
  | toBytes {P newPool : List UInt8} {sets : List (UInt32 × List UInt8)} {impl : Impl}
      {visiting : Bool} {visits : List Visit} (hP : Stored P)
      (hset : Impl.setAll sets (Impl.ofBytes P) = .ok () impl)
      (hx : impl.toBytes visiting = some (visits, newPool)) (hlen : newPool.length < 2 ^ 24) :
      Stored newPool
  | toBytesDelta {P old newPool : List UInt8} {sets : List (UInt32 × List UInt8)} {impl : Impl}
      {visiting : Bool} {visits : List Visit} (hP : Stored P) (hold : Stored old)
      (hset : Impl.setAll sets (Impl.ofBytes P) = .ok () impl)
      (hx : impl.toBytesDelta old visiting = some (visits, true, newPool))
      (hlen : newPool.length < 2 ^ 24) : Stored newPool

/-- A pool below the length limit has few fields. -/
theorem Stores.length_lt (hT : Stores P T) : T.length < 2 ^ 22 := by
  by_cases hne : T = []
  · rw [hne]
    exact Nat.two_pow_pos 22
  · have hlen := length_encode hne
    have hshort := hT.short
    simp only [valuesAt] at hlen
    omega

theorem write_of_toBytes (hx : impl.toBytes visiting = some (visits, newPool)) :
    impl.write (UInt32.ofNat impl.changed.length) none = some newPool := by
  by_cases hv : visiting = true
  · simp only [Impl.toBytes, Option.bind_eq_bind, if_pos hv, Option.bind_eq_some_iff,
      Option.some.injEq, Prod.mk.injEq] at hx
    obtain ⟨-, -, bytes, hwrite, -, rfl⟩ := hx
    exact hwrite
  · simp only [Impl.toBytes, Option.bind_eq_bind, if_neg hv, Option.bind_some,
      Option.bind_eq_some_iff, Option.some.injEq, Prod.mk.injEq] at hx
    obtain ⟨bytes, hwrite, -, rfl⟩ := hx
    exact hwrite

theorem write_of_toBytesDelta {stored : UInt32} (hstored : poolSize old = some stored)
    (hx : impl.toBytesDelta old visiting = some (visits, true, newPool)) :
    impl.write (max (UInt32.ofNat impl.changed.length) stored) (some old) = some newPool := by
  simp only [Impl.toBytesDelta, Option.bind_eq_bind, hstored, Option.bind_some,
    Option.bind_eq_some_iff] at hx
  obtain ⟨found, -, hx⟩ := hx
  by_cases hnil : found = []
  · rw [if_pos hnil] at hx
    cases hx
  · rw [if_neg hnil] at hx
    simp only [Option.bind_eq_some_iff, Option.some.injEq, Prod.mk.injEq] at hx
    obtain ⟨bytes, hwrite, -, -, rfl⟩ := hx
    exact hwrite

/-- What `toBytes` returns below the length limit stores the fields below the end. -/
theorem stores_of_toBytes (hm : Made P sets impl) (hP : Stores P T)
    (hx : impl.toBytes visiting = some (visits, newPool)) (hlen : newPool.length < 2 ^ 24) :
    Stores newPool (impl.fields T (setEnd sets)) := by
  have hsize : UInt32.size = 2 ^ 32 := rfl
  have hend : setEnd sets < 2 ^ 28 := by
    -- every field takes four bytes of the table at least, so that a short pool has few
    by_cases hpos : 0 < setEnd sets
    · have hle := length_le_write (changed_ne_nil hm hpos) (write_of_toBytes hx)
      have hlt := hm.end_lt
      rw [hm.end_eq, UInt32.toNat_ofNat_of_lt' (by omega)] at hle
      omega
    · omega
  obtain ⟨visits', hx'⟩ := toBytes_eq visiting hm hP hend
  rw [hx'] at hx
  cases hx
  exact ⟨rfl, hlen⟩

/-- What `toBytesDelta` returns below the length limit stores the patched fields. -/
theorem stores_of_toBytesDelta (hm : Made P sets impl) (hold : Stores old T)
    (hx : impl.toBytesDelta old visiting = some (visits, true, newPool))
    (hlen : newPool.length < 2 ^ 24) : Stores newPool ((setPatch sets).apply [] T) := by
  have hsize : UInt32.size = 2 ^ 32 := rfl
  have hT := hold.length_lt
  have hend : max (setEnd sets) T.length < 2 ^ 28 := by
    by_cases hpos : 0 < setEnd sets
    · have hlt := hm.end_lt
      obtain ⟨hstored, hmax⟩ := max_poolSize hm hold (by omega) (by omega)
      have hwrite := write_of_toBytesDelta hstored hx
      rw [hmax] at hwrite
      have hle := length_le_write (changed_ne_nil hm hpos) hwrite
      rw [UInt32.toNat_ofNat_of_lt' (by omega)] at hle
      omega
    · omega
  obtain ⟨visits', saved, hx', -⟩ := toBytesDelta_eq visiting hm hold hend
  rw [hx'] at hx
  cases hx
  exact ⟨rfl, hlen⟩

/-- A stored pool stores a list of fields. -/
theorem Stored.exists_stores (hP : Stored P) : ∃ T, Stores P T := by
  -- by how the pool has been made
  induction hP with
  | empty => exact ⟨[], rfl, Nat.two_pow_pos 24⟩
  | toBytes _ hset hx hlen ih =>
    obtain ⟨T, hT⟩ := ih
    exact ⟨_, stores_of_toBytes (made_of_setAll (made_ofBytes _) hset) hT hx hlen⟩
  | toBytesDelta _ _ hset hx hlen _ ihold =>
    obtain ⟨T, hT⟩ := ihold
    exact ⟨_, stores_of_toBytesDelta (made_of_setAll (made_ofBytes _) hset) hT hx hlen⟩

/-! ## What `toBytes` keeps -/

/-- The number of fields of a pool with changes. -/
theorem size_eq (hm : Made P sets impl) (hP : Stores P T) :
    impl.size = some (UInt32.ofNat (max (setEnd sets) T.length)) := by
  have hlt := hm.end_lt
  have hT := hP.length_lt
  rw [Impl.size, hm.pool, hP.eq, poolSize_encode hP.short, hm.end_eq]
  refine congrArg some ((max_ofNat (by omega) hlt).trans ?_)
  rw [Nat.max_comm]

/-- A field of a pool with changes is the last value it was set to, or else that of the pool. -/
theorem current_eq_elim (hm : Made P sets impl) :
    impl.current num = (lastSet sets num).elim (original P num) some := by
  have hfield := hm.field num
  rw [field_patch] at hfield
  rw [Impl.current, hm.pool, ← hfield]
  split_ifs with hc
  · obtain ⟨v, hv⟩ := getElem?_changes hm.length_eq hc
    rw [hv]
    rfl
  · rfl

/-- A field of a pool with changes. -/
theorem current_eq (hm : Made P sets impl) (hP : Stores P T) (hnum : num.toNat + 1 < 2 ^ 29) :
    impl.current num = some ((lastSet sets num).getD (T.getD num.toNat [])) := by
  rw [current_eq_elim hm, hP.eq, original_encode hP.short hnum]
  cases lastSet sets num <;> rfl

/-- A field of what `toBytes` returns. -/
theorem getD_fields (hm : Made P sets impl) : (impl.fields T m).getD num.toNat [] =
    if num.toNat < m then (lastSet sets num).getD (T.getD num.toNat []) else [] := by
  split_ifs with hlt
  · have hin : num.toNat < (impl.fields T m).length := by rwa [length_fields]
    rw [List.getD_eq_getElem _ _ hin, getElem_fields hin, hm.field]
  · exact List.getD_eq_default _ _ (by rw [length_fields]; omega)

/-- `toBytes` keeps every field if and only if the fields from the end of the changes on are
empty. -/
theorem toBytes_keeps_iff (hP : Stored P) : (∃ T, Stores P T) ∧ ∀ T sets visiting, Stores P T →
    (encode ((setPatch sets).apply [] T)).length < 2 ^ 24 →
    ∃ impl visits newPool size, Impl.setAll sets (Impl.ofBytes P) = .ok () impl ∧
      impl.toBytes visiting = some (visits, newPool) ∧ impl.size = some size ∧
      (∀ n < size, impl.current n = some ((lastSet sets n).getD (T.getD n.toNat []))) ∧
      ((∀ n < size, original newPool n = impl.current n) ↔
        ∀ n, setEnd sets ≤ n → T.getD n [] = []) := by
  refine ⟨hP.exists_stores, fun T sets visiting hT hlen => ?_⟩
  have hsize : UInt32.size = 2 ^ 32 := rfl
  have hfew := (Stores.mk rfl hlen).length_lt
  rw [Patch.length_apply, length_setPatch] at hfew
  -- setting the fields does not fail, and gives their last values
  obtain ⟨impl, hx, hm⟩ := setAll_eq sets (made_ofBytes P) (by
    rw [List.nil_append]
    omega)
  rw [List.nil_append] at hm
  obtain ⟨visits, hbytes⟩ := toBytes_eq visiting hm hT (by omega)
  have hnew : Stores (encode (impl.fields T (setEnd sets))) (impl.fields T (setEnd sets)) := by
    refine ⟨rfl, ?_⟩
    have hle := length_encode_take_le ((setPatch sets).apply [] T) (setEnd sets)
    rw [fields_eq_take hm]
    omega
  have hlt : ∀ n : UInt32, n < UInt32.ofNat (max (setEnd sets) T.length) ↔
      n.toNat < max (setEnd sets) T.length := by
    intro n
    rw [UInt32.lt_iff_toNat_lt, UInt32.toNat_ofNat_of_lt' (by omega)]
  refine ⟨impl, visits, _, _, hx, hbytes, size_eq hm hT, fun n hn => ?_, ?_, ?_⟩
  · rw [hlt] at hn
    exact current_eq hm hT (by omega)
  -- a field that is lost was not set
  · intro hall n hn
    by_cases hin : n < T.length
    · have hnum : (UInt32.ofNat n).toNat = n := UInt32.toNat_ofNat_of_lt' (by omega)
      have hkept := hall (UInt32.ofNat n) ((hlt _).mpr (by omega))
      have hnone : lastSet sets (UInt32.ofNat n) = none := by
        rw [← hm.field, hnum]
        exact Patch.field_eq_none_of_le (by rw [length_patch, hm.end_eq]; exact hn)
      rw [current_eq hm hT (by omega), original_encode hnew.short (by omega), getD_fields hm, hnone,
        hnum, if_neg (by omega)] at hkept
      exact (Option.some.inj hkept).symm
    · exact List.getD_eq_default _ _ (by omega)
  · intro hempty n hn
    rw [hlt] at hn
    rw [current_eq hm hT (by omega), original_encode hnew.short (by omega), getD_fields hm]
    split_ifs with hin
    · rfl
    · have hnone : lastSet sets n = none := by
        rw [← hm.field]
        exact Patch.field_eq_none_of_le (by rw [length_patch, hm.end_eq]; omega)
      rw [hnone, Option.getD_none, hempty n.toNat (by omega)]

/-- A pool of the fields `"a"` and `"b"`. -/
def twoFields : List UInt8 := encode [[97], [98]]

theorem stored_twoFields : Stored twoFields := by
  have hset : Impl.setAll [(0, [97]), (1, [98])] (Impl.ofBytes []) =
      .ok () ⟨[], [[97], [98]], [true, true], false⟩ := rfl
  have hx : Impl.toBytes ⟨[], [[97], [98]], [true, true], false⟩ false = some ([], twoFields) := rfl
  exact Stored.empty.toBytes hset hx (by decide)

/-- Both fields are kept when the last one is set. -/
theorem toBytes_keeps_twoFields :
    ∃ impl visits newPool size, Impl.setAll [(1, [120])] (Impl.ofBytes twoFields) = .ok () impl ∧
      impl.toBytes true = some (visits, newPool) ∧ impl.size = some size ∧
      ∀ n < size, original newPool n = impl.current n := by
  obtain ⟨-, hall⟩ := toBytes_keeps_iff stored_twoFields
  obtain ⟨impl, visits, newPool, size, hset, hx, hsize, -, hiff⟩ :=
    hall [[97], [98]] [(1, [120])] true ⟨rfl, by decide⟩ (by decide)
  refine ⟨impl, visits, newPool, size, hset, hx, hsize, hiff.mpr fun n hn => ?_⟩
  exact List.getD_eq_default _ _ hn

/-- A field above the last one that was set is lost, and every field if none was set. -/
theorem toBytes_loses : Stored twoFields ∧
    (∃ impl newPool, Impl.setAll [(0, [120])] (Impl.ofBytes twoFields) = .ok () impl ∧
      impl.toBytes false = some ([], newPool) ∧ impl.size = some 2 ∧
      original newPool 1 = some [] ∧ impl.current 1 = some [98]) ∧
    ∃ impl newPool, Impl.setAll [] (Impl.ofBytes twoFields) = .ok () impl ∧
      impl.toBytes false = some ([], newPool) ∧ impl.size = some 2 ∧
      original newPool 0 = some [] ∧ impl.current 0 = some [97] :=
  ⟨stored_twoFields, ⟨⟨twoFields, [[120]], [true], false⟩, encode [[120]], rfl, rfl, rfl, rfl, rfl⟩,
    ⟨⟨twoFields, [], [], false⟩, [], rfl, rfl, rfl, rfl, rfl⟩⟩

end Glim.Pool
