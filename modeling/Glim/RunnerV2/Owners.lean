import Glim.RunnerV2.Basic
import Mathlib.Data.Finset.Card

/-!
# The owners of the cURL runner

While there are owners, `_references` is their number; the one who brings it to zero is the only
one left.

## Main definitions

* `RunnerV2.Held`: the owners that have a reference, and their number
* `RunnerV2.State.Only`: one owner is left

## Main results

* `RunnerV2.stepOwner_held`: a step of an owner keeps the count, or is the last release
* `RunnerV2.stepOwner_frame`: what an owner that has a reference leaves alone
-/

namespace Glim.RunnerV2

variable {ι : Type}

/-- The owners in `H` have references, and no one else has to do with the runner. -/
structure Held (owner : ι → OwnerPoint) (references : ℤ) (H : Finset ι) : Prop where
  nonempty : H.Nonempty
  holding : ∀ t ∈ H, owner t = .holding
  others : ∀ t, t ∉ H → owner t = .none
  card : references = H.card

theorem Held.references_pos {owner : ι → OwnerPoint} {references : ℤ} {H : Finset ι}
    (h : Held owner references H) : 0 < references := by
  rw [h.card]
  exact_mod_cast Finset.card_pos.mpr h.nonempty

/-- No owner but `t` has to do with the runner. -/
def State.Only (s : State ι) (t : ι) (p : OwnerPoint) : Prop :=
  s.owner t = p ∧ ∀ u ≠ t, s.owner u = .none

variable [DecidableEq ι] {s s' : State ι} {t u : ι} {b : OwnerAction ι} {o : RunnerV2}
  {p : OwnerPoint} {H : Finset ι}

section Move

variable (s) (t) (o) (p)

@[simp] theorem State.object_move : (s.move t o p).object = o := rfl

@[simp] theorem State.run_move : (s.move t o p).run = s.run := rfl

@[simp] theorem State.owner_move_self : (s.move t o p).owner t = p := by
  simp [State.move]

theorem State.owner_move_of_ne (h : u ≠ t) : (s.move t o p).owner u = s.owner u := by
  simp [State.move, h]

theorem State.owner_move_none (h : ∀ u ≠ t, s.owner u = .none) (u : ι) :
    (s.move t o .none).owner u = .none := by
  by_cases hu : u = t
  · rw [hu, owner_move_self]
  · rw [owner_move_of_ne _ _ _ _ hu, h u hu]

end Move

theorem State.Only.move {q : OwnerPoint} (h : s.Only t p) (o : RunnerV2) :
    (s.move t o q).Only t q := by
  refine ⟨s.owner_move_self t o q, fun u hu => ?_⟩
  rw [s.owner_move_of_ne t o q hu, h.2 u hu]

/-- Those who have nothing to do with the runner take no steps. -/
theorem stepOwner_of_none (h : s.owner t = .none) : stepOwner t b o s = none := by
  cases b <;> simp [stepOwner, h]

/-- Where there is only one owner, that one takes the step. -/
theorem State.Only.eq_of_step (h : s.Only t p) (hx : stepOwner u b o s = some s') : u = t := by
  by_contra hu
  rw [stepOwner_of_none (h.2 u hu)] at hx
  cases hx

theorem Held.mem_of_step (h : Held s.owner o.references H) (hx : stepOwner t b o s = some s') :
    t ∈ H := by
  by_contra ht
  rw [stepOwner_of_none (h.others t ht)] at hx
  cases hx

theorem Held.owner_of_step (h : Held s.owner o.references H)
    (hx : stepOwner t b o s = some s') : s.owner t = .holding :=
  h.holding t (h.mem_of_step hx)

/-- The creator takes the first reference. -/
theorem held_first (h : s.Only t .creating) (href : o.references = 0) :
    Held (s.move t { o with references := o.references + 1 } .holding).owner
      (o.references + 1) {t} where
  nonempty := Finset.singleton_nonempty t
  holding := by
    intro u hu
    rw [Finset.mem_singleton.mp hu, State.owner_move_self]
  others := by
    intro u hu
    rw [Finset.mem_singleton] at hu
    rw [s.owner_move_of_ne _ _ _ hu, h.2 u hu]
  card := by simp [href]

/-- An owner copies its reference. -/
theorem Held.copy (h : Held s.owner o.references H) (hu : s.owner u = .none) :
    Held (s.move u { o with references := o.references + 1 } .holding).owner
      (o.references + 1) (insert u H) where
  nonempty := Finset.insert_nonempty u H
  holding := by
    intro v hv
    by_cases hvu : v = u
    · rw [hvu, State.owner_move_self]
    · rw [s.owner_move_of_ne _ _ _ hvu]
      exact h.holding v (Finset.mem_of_mem_insert_of_ne hv hvu)
  others := by
    intro v hv
    rw [Finset.mem_insert, not_or] at hv
    rw [s.owner_move_of_ne _ _ _ hv.1]
    exact h.others v hv.2
  card := by
    have hmem : u ∉ H := by
      intro hmem
      cases hu.symm.trans (h.holding u hmem)
    rw [Finset.card_insert_of_notMem hmem, h.card]
    rfl

theorem Held.card_erase (h : Held s.owner o.references H) (ht : t ∈ H) :
    o.references - 1 = (H.erase t).card := by
  have hpos := Finset.card_pos.mpr h.nonempty
  rw [Finset.card_erase_of_mem ht, h.card]
  omega

/-- An owner that is not the last one releases its reference. -/
theorem Held.release (h : Held s.owner o.references H) (ht : t ∈ H) (hlast : o.references - 1 ≠ 0) :
    Held (s.move t { o with references := o.references - 1 } .none).owner
      (o.references - 1) (H.erase t) where
  nonempty := by
    rw [← Finset.card_pos]
    have := h.card_erase ht
    omega
  holding := by
    intro v hv
    rw [s.owner_move_of_ne _ _ _ (Finset.ne_of_mem_erase hv)]
    exact h.holding v (Finset.mem_of_mem_erase hv)
  others := by
    intro v hv
    by_cases hvt : v = t
    · rw [hvt, State.owner_move_self]
    · rw [s.owner_move_of_ne _ _ _ hvt]
      exact h.others v fun hmem => hv (Finset.mem_erase.mpr ⟨hvt, hmem⟩)
  card := h.card_erase ht

/-- The last owner releases its reference. -/
theorem Held.last (h : Held s.owner o.references H) (ht : t ∈ H) (hlast : o.references - 1 = 0) :
    (s.move t { o with references := o.references - 1 } .released).Only t .released := by
  have hempty : H.erase t = ∅ := by
    rw [← Finset.card_eq_zero]
    have := h.card_erase ht
    omega
  refine ⟨s.owner_move_self _ _ _, fun u hu => ?_⟩
  rw [s.owner_move_of_ne _ _ _ hu]
  refine h.others u fun hmem => ?_
  simpa [hempty] using Finset.mem_erase.mpr ⟨hu, hmem⟩

/-- **A step of an owner** keeps the count of the owners, or releases the last reference. -/
theorem stepOwner_held (h : Held s.owner o.references H) (hx : stepOwner t b o s = some s') :
    (∃ H', Held s'.owner s'.object.references H') ∨
      s'.Only t .released ∧ s'.object.references = 0 := by
  have ht := h.mem_of_step hx
  unfold stepOwner at hx
  rw [h.holding t ht] at hx
  cases b with
  | go => cases hx
  | copy u =>
    simp only at hx
    split_ifs at hx with hu
    cases hx
    exact Or.inl ⟨_, h.copy hu⟩
  | push easyHandle =>
    simp only at hx
    split_ifs at hx
    · cases hx
      exact Or.inl ⟨H, h⟩
    · cases hx
      exact Or.inl ⟨H, h⟩
  | release =>
    cases hx
    -- the last reference deletes the object
    by_cases hlast : o.references - 1 = 0
    · rw [if_pos hlast]
      exact Or.inr ⟨h.last ht hlast, hlast⟩
    · rw [if_neg hlast]
      exact Or.inl ⟨_, h.release ht hlast⟩

/-- An owner that has a reference takes part in the counting, and leaves the rest alone. -/
theorem stepOwner_frame (ht : s.owner t = .holding) (hx : stepOwner t b o s = some s') :
    s'.run = s.run ∧ s'.object.running = o.running ∧ s'.object.deletions = o.deletions ∧
      s'.object.usedAfter = o.usedAfter := by
  unfold stepOwner at hx
  rw [ht] at hx
  cases b with
  | go => cases hx
  | copy u =>
    simp only at hx
    split_ifs at hx
    cases hx
    exact ⟨rfl, rfl, rfl, rfl⟩
  | push easyHandle =>
    simp only at hx
    split_ifs at hx <;> cases hx <;> exact ⟨rfl, rfl, rfl, rfl⟩
  | release =>
    cases hx
    exact ⟨rfl, rfl, rfl, rfl⟩

end Glim.RunnerV2
