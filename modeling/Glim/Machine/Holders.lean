import Mathlib.Data.List.Basic
import Mathlib.Logic.Function.Basic
import Mathlib.Tactic.Common

/-!
# Resources and holders

Every resource of a pool is held by exactly one holder. A holder keeps its resources as a list, the
one that it got last first. A resource comes into the pool at a holder, goes from holder to holder,
and leaves the pool from a holder.

## Main definitions

* `HeldOnce`: every resource is held once, and nothing else is held

## Main results

* `HeldOnce.add`, `HeldOnce.remove`, `HeldOnce.move`: what keeps it
-/

namespace Machine

variable {H R : Type}

/-- Every resource of the pool is held once, by one holder, and nothing else is held. -/
structure HeldOnce (pool : List R) (held : H → List R) : Prop where
  nodup : ∀ h, (held h).Nodup
  unique : ∀ h h' r, r ∈ held h → r ∈ held h' → h = h'
  mem_iff : ∀ r, r ∈ pool ↔ ∃ h, r ∈ held h

namespace HeldOnce

variable {pool pool' rest : List R} {held : H → List R} {h h' : H} {r : R}

theorem empty : HeldOnce [] fun _ : H => ([] : List R) where
  nodup := fun _ => List.nodup_nil
  unique := nofun
  mem_iff := fun r => by simp

/-- The order of the pool plays no role. -/
theorem congr (hh : HeldOnce pool held) (hpool : ∀ r, r ∈ pool' ↔ r ∈ pool) :
    HeldOnce pool' held where
  nodup := hh.nodup
  unique := hh.unique
  mem_iff := fun r => (hpool r).trans (hh.mem_iff r)

theorem mem_pool (hh : HeldOnce pool held) (hr : r ∈ held h) : r ∈ pool :=
  (hh.mem_iff r).mpr ⟨h, hr⟩

theorem not_mem_of_ne (hh : HeldOnce pool held) (hr : r ∈ held h) (hne : h' ≠ h) : r ∉ held h' :=
  fun hr' => hne (hh.unique h' h r hr' hr)

variable [DecidableEq H]

/-- A new resource comes to a holder. -/
theorem add (hh : HeldOnce pool held) (hr : r ∉ pool) (h : H) :
    HeldOnce (r :: pool) (Function.update held h (r :: held h)) := by
  have hnew : ∀ k, r ∉ held k := fun k hk => hr (hh.mem_pool hk)
  -- what a holder has is the new resource or what it had
  have hmem : ∀ k x, x ∈ Function.update held h (r :: held h) k ↔ x = r ∧ k = h ∨ x ∈ held k := by
    intro k x
    by_cases hk : k = h
    · subst hk
      simp
    · simp [hk]
  refine ⟨fun k => ?_, fun k k' x hx hx' => ?_, fun x => ?_⟩
  · by_cases hk : k = h
    · subst hk
      rw [Function.update_self]
      exact List.nodup_cons.mpr ⟨hnew k, hh.nodup k⟩
    · rw [Function.update_of_ne hk]
      exact hh.nodup k
  · rw [hmem] at hx hx'
    rcases hx with ⟨rfl, rfl⟩ | hx
    · rcases hx' with ⟨-, rfl⟩ | hx'
      · rfl
      · exact absurd hx' (hnew k')
    · rcases hx' with ⟨rfl, -⟩ | hx'
      · exact absurd hx (hnew k)
      · exact hh.unique k k' x hx hx'
  · simp only [hmem, List.mem_cons, hh.mem_iff]
    constructor
    · rintro (rfl | ⟨k, hk⟩)
      · exact ⟨h, Or.inl ⟨rfl, rfl⟩⟩
      · exact ⟨k, Or.inr hk⟩
    · rintro ⟨k, ⟨rfl, -⟩ | hk⟩
      · exact Or.inl rfl
      · exact Or.inr ⟨k, hk⟩

/-- The resource that a holder got last leaves the pool. -/
theorem remove [DecidableEq R] (hh : HeldOnce pool held) (hheld : held h = r :: rest) :
    HeldOnce (pool.filter (· ≠ r)) (Function.update held h rest) := by
  have hself : r ∈ held h := by
    rw [hheld]
    exact List.mem_cons_self
  have hnodup := hh.nodup h
  rw [hheld] at hnodup
  obtain ⟨hnot, hrest⟩ := List.nodup_cons.mp hnodup
  -- what a holder has is what it had, but for the resource
  have hmem : ∀ k x, x ∈ Function.update held h rest k ↔ x ≠ r ∧ x ∈ held k := by
    intro k x
    by_cases hk : k = h
    · subst hk
      rw [Function.update_self, hheld, List.mem_cons]
      constructor
      · intro hx
        exact ⟨fun heq => hnot (heq ▸ hx), Or.inr hx⟩
      · rintro ⟨hne, rfl | hx⟩
        · exact absurd rfl hne
        · exact hx
    · rw [Function.update_of_ne hk]
      refine ⟨fun hx => ⟨?_, hx⟩, fun hx => hx.2⟩
      rintro rfl
      exact hh.not_mem_of_ne hself hk hx
  refine ⟨fun k => ?_, fun k k' x hx hx' => ?_, fun x => ?_⟩
  · by_cases hk : k = h
    · subst hk
      rw [Function.update_self]
      exact hrest
    · rw [Function.update_of_ne hk]
      exact hh.nodup k
  · exact hh.unique k k' x ((hmem k x).mp hx).2 ((hmem k' x).mp hx').2
  · simp only [hmem, List.mem_filter, decide_eq_true_eq, hh.mem_iff]
    exact ⟨fun ⟨⟨k, hk⟩, hne⟩ => ⟨k, hne, hk⟩, fun ⟨k, hne, hk⟩ => ⟨⟨k, hk⟩, hne⟩⟩

/-- The resource that a holder got last goes to another holder. -/
theorem move [DecidableEq R] (hh : HeldOnce pool held) (hheld : held h = r :: rest) (hne : h' ≠ h) :
    HeldOnce pool (Function.update (Function.update held h rest) h' (r :: held h')) := by
  have hpool : r ∈ pool := hh.mem_pool (h := h) (by rw [hheld]; exact List.mem_cons_self)
  have hadd := (hh.remove hheld).add (r := r) (by simp) h'
  rw [Function.update_of_ne hne] at hadd
  refine hadd.congr fun x => ?_
  by_cases hx : x = r
  · subst hx
    exact iff_of_true hpool List.mem_cons_self
  · simp [hx]

end HeldOnce

end Machine
