import Glim.Pool.Stored

/-!
# Saving with `toBytesDelta`

Users load a version of a stored pool, change it, and save it later: a save reads the pool
that is stored by then, calls `toBytesDelta` with it, and stores the result if there are
changes. A save is one atomic step. Whatever the order of the saves is, each one merges a
patch into the stored fields.

## Main definitions

* `User`, `User.save`: a pool that was loaded, the calls of `set`, and its save
* `saves`: the saves of some users, one after another
* `Fits`: every pool stored on the way is below the length limit

## Main results

* `stores_of_saves`: the stored fields after the saves
* `saves_last_wins`: no update is lost, and disjoint ones can be saved in any order
-/

namespace Glim.Pool

open Machine Exec Text Table

/-- A user of a stored pool: the version that was loaded, and the calls of `set`. -/
structure User where
  version : List UInt8
  sets : List (UInt32 × List UInt8)
  visiting : Bool

/-- A save: the stored pool is replaced if `toBytesDelta` returns `true`. -/
def User.save (store : List UInt8) (user : User) : Option (List UInt8) :=
  match Impl.setAll user.sets (Impl.ofBytes user.version) with
  | .ok _ impl => do
    let (_, saved, newPool) ← impl.toBytesDelta store user.visiting
    some (if saved then newPool else store)
  | _ => none

/-- The saves of the users, in order. -/
def saves (store : List UInt8) (users : List User) : Option (List UInt8) :=
  users.foldlM User.save store

/-- The pool that the user holds is below the length limit, with the changes. -/
def User.Ok (user : User) : Prop :=
  Stored user.version ∧ ∃ V, Stores user.version V ∧
    (encode ((setPatch user.sets).apply [] V)).length < 2 ^ 24

/-- Every pool that is stored on the way is below the length limit. -/
def Fits : List UInt8 → List User → Prop
  | store, [] => store.length < 2 ^ 24
  | store, user :: users =>
    store.length < 2 ^ 24 ∧ ∀ store', user.save store = some store' → Fits store' users

/-- The value that the last user who set the field has set it to. -/
def lastSave (users : List User) (num : UInt32) : Option (List UInt8) :=
  (users.filterMap fun user => lastSet user.sets num).getLast?

/-- The users set different fields. -/
def User.Disjoint (u v : User) : Prop := ∀ s ∈ u.sets, ∀ t ∈ v.sets, s.1 ≠ t.1

variable {P store store' : List UInt8} {T : List (List UInt8)} {user u v : User}
  {users users' : List User} {num : UInt32} {n : ℕ}

theorem Fits.length_lt (hfit : Fits store users) : store.length < 2 ^ 24 := by
  cases users with
  | nil => exact hfit
  | cons user users => exact hfit.1

theorem User.Ok.setEnd_lt (hu : user.Ok) : setEnd user.sets < 2 ^ 22 := by
  obtain ⟨V, -, hshort⟩ := hu.2
  have hlt := (Stores.mk rfl hshort).length_lt
  rw [Patch.length_apply, length_setPatch] at hlt
  omega

/-! ## One save -/

/-- A save merges the patch of the user into the stored fields. -/
theorem save_eq (hu : user.Ok) (hT : Stores store T) :
    user.save store = some (encode ((setPatch user.sets).merge [] T)) := by
  have hend := hu.setEnd_lt
  have hlen := hT.length_lt
  obtain ⟨impl, hx, hm⟩ := setAll_eq user.sets (made_ofBytes user.version) (by
    rw [List.nil_append]
    omega)
  rw [List.nil_append] at hm
  obtain ⟨visits, saved, hdelta, hiff⟩ := toBytesDelta_eq user.visiting hm hT (by omega)
  rw [User.save, hx]
  simp only [hdelta, Option.bind_eq_bind, Option.bind_some]
  -- the store is replaced only by a save that changes it
  by_cases hc : (setPatch user.sets).Changes [] T
  · rw [Patch.merge, if_pos hc, if_pos (hiff.mpr hc), if_pos (hiff.mpr hc)]
  · rw [Patch.merge_of_not_changes hc, if_neg (mt hiff.mp hc), hT.eq]

/-! ## All saves -/

/-- The stored fields after the saves: the patches of the users, merged in order. -/
theorem stores_of_saves (hT : Stores store T) (hok : ∀ u ∈ users, u.Ok) (hfit : Fits store users) :
    ∃ final, saves store users = some final ∧
      Stores final ((users.map fun u => setPatch u.sets).foldl (Patch.merge []) T) := by
  -- each save is from a store that the saves before it have made
  induction users generalizing store T with
  | nil => exact ⟨store, rfl, hT⟩
  | cons user users ih =>
    have hsave := save_eq (hok user List.mem_cons_self) hT
    have hfit' := hfit.2 _ hsave
    obtain ⟨final, hx, hfinal⟩ :=
      ih ⟨rfl, hfit'.length_lt⟩ (fun u hu => hok u (List.mem_cons_of_mem user hu)) hfit'
    refine ⟨final, ?_, hfinal⟩
    rw [saves, List.foldlM_cons, hsave]
    exact hx

/-- A field of the patch of a user. -/
theorem field_setPatch (hu : user.Ok) : (setPatch user.sets).field num.toNat =
    lastSet user.sets num := by
  have hend := hu.setEnd_lt
  obtain ⟨impl, -, hm⟩ := setAll_eq user.sets (made_ofBytes user.version) (by
    rw [List.nil_append]
    omega)
  rw [List.nil_append] at hm
  rw [← hm.patch_eq, hm.field]

theorem exists_of_field {w : List UInt8} {sets : List (UInt32 × List UInt8)}
    (hw : (setPatch sets).field n = some w) : ∃ s ∈ sets, s.1 = UInt32.ofNat n := by
  by_cases hn : n < setEnd sets
  · rw [Patch.field, setPatch, List.getElem?_map, List.getElem?_range hn] at hw
    have hlast : lastSet sets (UInt32.ofNat n) = some w := hw
    obtain ⟨s, hs, -⟩ := List.mem_map.mp (List.mem_of_getLast? hlast)
    rw [List.mem_filter, decide_eq_true_eq] at hs
    exact ⟨s, hs.1, hs.2⟩
  · rw [Patch.field_eq_none_of_le (by rw [length_setPatch]; omega)] at hw
    cases hw

/-- Users that set different fields have disjoint patches. -/
theorem User.Disjoint.patch (h : u.Disjoint v) :
    (setPatch u.sets).Disjoint (setPatch v.sets) := by
  intro n
  by_contra hboth
  rw [not_or] at hboth
  obtain ⟨w, hw⟩ := Option.ne_none_iff_exists'.mp hboth.1
  obtain ⟨w', hw'⟩ := Option.ne_none_iff_exists'.mp hboth.2
  -- a field of a patch was set by its user
  obtain ⟨s, hs, hn⟩ := exists_of_field hw
  obtain ⟨t, ht, hn'⟩ := exists_of_field hw'
  exact h s hs t ht (hn.trans hn'.symm)

/-- A field after the saves has the value of the last user that set it, or the stored one if
there is none; and users that set different fields can save in any order. A stored pool has
less than `2 ^ 22` fields; `original` reads the fields below `2 ^ 29 - 1` without an overflow. -/
theorem saves_last_wins (hP : Stored P) (hok : ∀ u ∈ users, u.Ok) (hfit : Fits P users) :
    ∃ final, saves P users = some final ∧
      (∀ n : UInt32, n.toNat + 1 < 2 ^ 29 →
        ∃ v, original final n = some v ∧ (lastSave users n).elim (original P n) some = some v) ∧
      (users.Pairwise User.Disjoint → ∀ users', users.Perm users' → Fits P users' →
        saves P users' = some final) := by
  obtain ⟨T, hT⟩ := hP.exists_stores
  obtain ⟨final, hx, hfinal⟩ := stores_of_saves hT hok hfit
  refine ⟨final, hx, fun n hn => ⟨(lastSave users n).getD (T.getD n.toNat []), ?_, ?_⟩,
    fun hdisj users' hperm hfit' => ?_⟩
  · have hfields : (users.map fun u => setPatch u.sets).filterMap (fun u => u.field n.toNat) =
        users.filterMap fun u => lastSet u.sets n := by
      rw [List.filterMap_map]
      exact List.filterMap_congr fun u hu => field_setPatch (hok u hu)
    rw [hfinal.eq, original_encode hfinal.short hn, Patch.getD_foldl_merge, hfields, lastSave]
  · rw [hT.eq, original_encode hT.short hn]
    cases lastSave users n with
    | none => rfl
    | some v => rfl
  -- the patches are disjoint, so that merging them commutes
  · obtain ⟨final', hx', hfinal'⟩ :=
      stores_of_saves hT (fun u hu => hok u (hperm.mem_iff.mpr hu)) hfit'
    have hpatches : (users.map fun u => setPatch u.sets).Pairwise Patch.Disjoint :=
      List.pairwise_map.mpr (hdisj.imp User.Disjoint.patch)
    rw [hx', hfinal'.eq, hfinal.eq,
      Patch.foldl_merge_perm (hperm.map fun u => setPatch u.sets) hpatches]

/-- A user of the pool of the fields `"a"` and `"b"`, who sets the first one. -/
def firstUser : User := ⟨twoFields, [(0, [120])], false⟩

/-- A user of the empty pool, who sets the second field twice. -/
def secondUser : User := ⟨[], [(1, [121, 122]), (1, [])], true⟩

theorem saves_twoFields : ∃ final, saves twoFields [firstUser, secondUser] = some final ∧
    original final 0 = some [120] ∧ original final 1 = some [] ∧
    saves twoFields [secondUser, firstUser] = some final := by
  have hok : ∀ u ∈ [firstUser, secondUser], u.Ok := by
    intro u hu
    rcases List.mem_pair.mp hu with rfl | rfl
    · exact ⟨stored_twoFields, [[97], [98]], ⟨rfl, by decide⟩, by decide⟩
    · exact ⟨.empty, [], ⟨rfl, by decide⟩, by decide⟩
  -- what each user stores, alone and behind the other
  have hfirst : firstUser.save twoFields = some (encode [[120], [98]]) := rfl
  have hsecond : secondUser.save twoFields = some (encode [[97], []]) := rfl
  have hthen : secondUser.save (encode [[120], [98]]) = some (encode [[120], []]) := rfl
  have hthen' : firstUser.save (encode [[97], []]) = some (encode [[120], []]) := rfl
  have hfit : Fits twoFields [firstUser, secondUser] := by
    refine ⟨by decide, fun store' h => ?_⟩
    cases hfirst.symm.trans h
    refine ⟨by decide, fun store'' h => ?_⟩
    cases hthen.symm.trans h
    exact (by decide : (encode [[120], []]).length < 2 ^ 24)
  have hfit' : Fits twoFields [secondUser, firstUser] := by
    refine ⟨by decide, fun store' h => ?_⟩
    cases hsecond.symm.trans h
    refine ⟨by decide, fun store'' h => ?_⟩
    cases hthen'.symm.trans h
    exact (by decide : (encode [[120], []]).length < 2 ^ 24)
  obtain ⟨final, hx, hfields, hperm⟩ := saves_last_wins stored_twoFields hok hfit
  -- the users set different fields
  have hdisj : [firstUser, secondUser].Pairwise User.Disjoint := by
    refine List.pairwise_pair.mpr fun s hs t ht => ?_
    simp only [firstUser, List.mem_singleton] at hs
    rcases List.mem_pair.mp ht with rfl | rfl
    · rw [hs]
      decide
    · rw [hs]
      decide
  refine ⟨final, hx, ?_, ?_, hperm hdisj _ (List.Perm.swap _ _ _) hfit'⟩
  · obtain ⟨v, hv, hlast⟩ := hfields 0 (by decide)
    rw [hv, ← hlast]
    rfl
  · obtain ⟨v, hv, hlast⟩ := hfields 1 (by decide)
    rw [hv, ← hlast]
    rfl

end Glim.Pool
