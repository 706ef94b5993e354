import Mathlib.Tactic.Common
import Mathlib.Data.List.GetD
import Mathlib.Data.List.Pairwise
import Mathlib.Data.List.Perm.Basic

/-!
# Patches of a table

A table is a list of values, with a default value behind its end. A patch sets some of its
fields, also fields behind the end. Merging a patch that changes nothing leaves the table
alone; merging any other one makes the table long enough for the patch.

## Main definitions

* `Patch`, `Patch.field`: the fields that a patch sets
* `Patch.merge`: the table after a patch

## Main results

* `getD_foldl_merge`: of the patches merged one after another, the last one that sets a
  field wins
* `foldl_merge_perm`: patches of disjoint fields can be merged in any order
-/

namespace Table

/-- The fields that are set. -/
abbrev Patch (α : Type) := List (Option α)

namespace Patch

variable {α : Type} {d : α} {T : List α} {u v : Patch α} {us us' : List (Patch α)} {n : ℕ}

/-- What a field is set to, if it is. -/
def field (u : Patch α) (n : ℕ) : Option α := u[n]?.join

/-- The table with the fields of the patch. -/
def apply (d : α) (T : List α) (u : Patch α) : List α :=
  (List.range (max u.length T.length)).map fun n => (u.field n).getD (T.getD n d)

/-- Some field is set to another value. -/
def Changes (d : α) (T : List α) (u : Patch α) : Prop :=
  ∃ n w, u.field n = some w ∧ T.getD n d ≠ w

open Classical in
/-- The table after a patch. -/
noncomputable def merge (d : α) (T : List α) (u : Patch α) : List α :=
  if u.Changes d T then u.apply d T else T

/-- No field is set by both. -/
def Disjoint (u v : Patch α) : Prop := ∀ n, u.field n = none ∨ v.field n = none

theorem field_eq_none_of_le (h : u.length ≤ n) : u.field n = none := by
  rw [field, List.getElem?_eq_none h]
  rfl

theorem length_apply : (u.apply d T).length = max u.length T.length := by
  rw [apply, List.length_map, List.length_range]

theorem getD_apply : (u.apply d T).getD n d = (u.field n).getD (T.getD n d) := by
  by_cases hn : n < max u.length T.length
  · rw [List.getD_eq_getElem _ _ (by rwa [length_apply])]
    simp only [apply, List.getElem_map, List.getElem_range]
  · have hu : u.length ≤ n := by omega
    have hT : T.length ≤ n := by omega
    rw [List.getD_eq_default _ _ (by rw [length_apply]; omega), field_eq_none_of_le hu,
      List.getD_eq_default _ _ hT]
    rfl

/-- A field of the merged table. -/
theorem getD_merge : (u.merge d T).getD n d = (u.field n).getD (T.getD n d) := by
  unfold merge
  split_ifs with hc
  · exact getD_apply
  · cases hn : u.field n with
    | none => rfl
    | some w =>
      by_contra hne
      exact hc ⟨n, w, hn, hne⟩

theorem length_merge_of_changes (hc : u.Changes d T) :
    (u.merge d T).length = max u.length T.length := by
  rw [merge, if_pos hc, length_apply]

theorem merge_of_not_changes (hc : ¬ u.Changes d T) : u.merge d T = T := if_neg hc

/-! ## The last writer wins -/

/-- The last of the patches that set a field decides it. -/
theorem getD_foldl_merge : (us.foldl (merge d) T).getD n d =
    (us.filterMap fun u => u.field n).getLast?.getD (T.getD n d) := by
  induction us generalizing T with
  | nil => rfl
  | cons u us ih =>
    rw [List.foldl_cons, ih, getD_merge, List.filterMap_cons]
    cases hu : u.field n with
    | none => rfl
    | some w =>
      rw [List.getLast?_cons]
      cases (us.filterMap fun u => u.field n).getLast? <;> rfl

/-! ## Disjoint patches commute -/

theorem Disjoint.symm (h : Disjoint u v) : Disjoint v u := fun n => (h n).symm

instance : Std.Symm (Disjoint (α := α)) where
  symm _ _ := Disjoint.symm

/-- A patch does not see what a disjoint one did. -/
theorem Disjoint.changes_merge_iff (h : Disjoint u v) :
    v.Changes d (u.merge d T) ↔ v.Changes d T := by
  have hsame : ∀ n w, v.field n = some w → (u.merge d T).getD n d = T.getD n d := by
    intro n w hw
    have hu : u.field n = none := (h n).resolve_right (by rw [hw]; nofun)
    rw [getD_merge, hu, Option.getD_none]
  constructor
  · rintro ⟨n, w, hw, hne⟩
    exact ⟨n, w, hw, hsame n w hw ▸ hne⟩
  · rintro ⟨n, w, hw, hne⟩
    exact ⟨n, w, hw, (hsame n w hw).symm ▸ hne⟩

theorem ext_getD {l l' : List α} (hl : l.length = l'.length) (h : ∀ n, l.getD n d = l'.getD n d) :
    l = l' := by
  refine List.ext_getElem hl fun n hn hn' => ?_
  rw [← List.getD_eq_getElem _ d hn, ← List.getD_eq_getElem _ d hn', h n]

/-- Disjoint patches commute. -/
theorem Disjoint.merge_comm (h : Disjoint u v) :
    v.merge d (u.merge d T) = u.merge d (v.merge d T) := by
  refine ext_getD (d := d) ?_ fun n => ?_
  · by_cases hu : u.Changes d T <;> by_cases hv : v.Changes d T
    · rw [length_merge_of_changes (h.changes_merge_iff.mpr hv), length_merge_of_changes hu,
        length_merge_of_changes (h.symm.changes_merge_iff.mpr hu), length_merge_of_changes hv]
      omega
    · rw [merge_of_not_changes (mt h.changes_merge_iff.mp hv), merge_of_not_changes hv]
    · rw [merge_of_not_changes hu, merge_of_not_changes (mt h.symm.changes_merge_iff.mp hu)]
    · rw [merge_of_not_changes hu, merge_of_not_changes hv, merge_of_not_changes hu]
  · rw [getD_merge, getD_merge, getD_merge, getD_merge]
    rcases h n with hn | hn
    · rw [hn, Option.getD_none, Option.getD_none]
    · rw [hn, Option.getD_none, Option.getD_none]

/-- Patches of disjoint fields can be merged in any order. -/
theorem foldl_merge_perm (hperm : us.Perm us') (hdisj : us.Pairwise Disjoint) :
    us.foldl (merge d) T = us'.foldl (merge d) T := by
  refine hperm.foldl_eq' (fun u hu v hv T => ?_) T
  by_cases huv : u = v
  · rw [huv]
  · exact (hdisj.forall hu hv huv).merge_comm

end Patch

end Table
