import Glim.Thread.Steps

/-!
# Custody of a part of the state

At most one thread is critical. It has a part of the shared state in custody, and what holds of
that depends on who it is and where it is; while there is no critical thread, that part is free.
The other threads may change the rest.

## Main definitions

* `Custody`: at most one thread is critical, and the state is as it has it, or free

## Main results

* `Custody.keep`, `Custody.giveBack`, `Custody.take`, `Custody.leave`: what a step has to do to keep
  the custody, by whether its thread was critical and is
-/

namespace Thread

variable {ι σ π : Type} {critical : π → Prop} {Free : σ → Prop} {Held : ι → π → σ → Prop}

/-- At most one thread is critical, and the state is as it has it in custody, or free. -/
structure Custody (critical : π → Prop) (Free : σ → Prop) (Held : ι → π → σ → Prop)
    (c : Config ι σ π) : Prop where
  unique : ∀ t u, critical (c.pc t) → critical (c.pc u) → t = u
  free : (∀ t, ¬ critical (c.pc t)) → Free c.shared
  held : ∀ t, critical (c.pc t) → Held t (c.pc t) c.shared

namespace Custody

variable {c : Config ι σ π} {t u : ι}

theorem not_critical_of_ne (h : Custody critical Free Held c) (ht : critical (c.pc t))
    (hne : u ≠ t) : ¬ critical (c.pc u) :=
  fun hu => hne (h.unique u t hu ht)

variable [DecidableEq ι] {s' : σ} {p' : π}

/-- After a step of the only critical thread it has the state in custody. -/
theorem of_only (honly : ∀ u, critical ((c.move t s' p').pc u) → u = t) (hp' : critical p')
    (hheld : Held t p' s') : Custody critical Free Held (c.move t s' p') := by
  refine ⟨fun u v hu hv => (honly u hu).trans (honly v hv).symm, fun hnone => ?_, fun u hu => ?_⟩
  · refine absurd ?_ (hnone t)
    rwa [Config.pc_move_self]
  · obtain rfl := honly u hu
    rw [Config.pc_move_self]
    exact hheld

/-- The critical thread keeps the state. -/
theorem keep (h : Custody critical Free Held c) (hp : critical (c.pc t)) (hp' : critical p')
    (hheld : Held t (c.pc t) c.shared → Held t p' s') :
    Custody critical Free Held (c.move t s' p') := by
  refine of_only (fun u hu => ?_) hp' (hheld (h.held t hp))
  by_contra hne
  rw [Config.pc_move_of_ne _ _ _ _ hne] at hu
  exact h.not_critical_of_ne hp hne hu

/-- The critical thread gives the state back. -/
theorem giveBack (h : Custody critical Free Held c) (hp : critical (c.pc t)) (hp' : ¬ critical p')
    (hfree : Held t (c.pc t) c.shared → Free s') :
    Custody critical Free Held (c.move t s' p') := by
  have hnone : ∀ u, ¬ critical ((c.move t s' p').pc u) := by
    intro u hu
    rcases eq_or_ne u t with rfl | hne
    · rw [Config.pc_move_self] at hu
      exact hp' hu
    · rw [Config.pc_move_of_ne _ _ _ _ hne] at hu
      exact h.not_critical_of_ne hp hne hu
  exact ⟨fun u v hu => absurd hu (hnone u), fun _ => hfree (h.held t hp),
    fun u hu => absurd hu (hnone u)⟩

/-- A thread takes the state when no other one has it. -/
theorem take (h : Custody critical Free Held c) (hp : ¬ critical (c.pc t)) (hp' : critical p')
    (hnone : ∀ u ≠ t, critical (c.pc u) → ¬ Held u (c.pc u) c.shared)
    (hheld : Free c.shared → Held t p' s') : Custody critical Free Held (c.move t s' p') := by
  have hfree : ∀ u, ¬ critical (c.pc u) := by
    intro u hu
    rcases eq_or_ne u t with rfl | hne
    · exact hp hu
    · exact hnone u hne hu (h.held u hu)
  refine of_only (fun u hu => ?_) hp' (hheld (h.free hfree))
  by_contra hne
  rw [Config.pc_move_of_ne _ _ _ _ hne] at hu
  exact hfree u hu

/-- A thread that is not critical leaves the part alone that is in custody. -/
theorem leave (h : Custody critical Free Held c) (hp : ¬ critical (c.pc t)) (hp' : ¬ critical p')
    (hfree : Free c.shared → Free s')
    (hheld : ∀ u ≠ t, critical (c.pc u) → Held u (c.pc u) c.shared → Held u (c.pc u) s') :
    Custody critical Free Held (c.move t s' p') := by
  have hpc : ∀ u, critical ((c.move t s' p').pc u) →
      u ≠ t ∧ (c.move t s' p').pc u = c.pc u := by
    intro u hu
    rcases eq_or_ne u t with rfl | hne
    · rw [Config.pc_move_self] at hu
      exact absurd hu hp'
    · exact ⟨hne, Config.pc_move_of_ne _ _ _ _ hne⟩
  refine ⟨fun u v hu hv => ?_, fun hnone => hfree (h.free fun u hu => ?_), fun u hu => ?_⟩
  · rw [(hpc u hu).2] at hu
    rw [(hpc v hv).2] at hv
    exact h.unique u v hu hv
  · rcases eq_or_ne u t with rfl | hne
    · exact hp hu
    · refine hnone u ?_
      rwa [Config.pc_move_of_ne _ _ _ _ hne]
  · obtain ⟨hne, heq⟩ := hpc u hu
    rw [heq] at hu ⊢
    exact hheld u hne hu (h.held u hu)

end Custody

end Thread
