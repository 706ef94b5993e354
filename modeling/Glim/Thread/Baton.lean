import Glim.Thread.Custody

/-!
# Passing a baton

At most one thread is at a critical point of its program. What holds of the shared state depends
on where this thread is; while there is none, the state is free. A thread may become critical only
in a state that rules out that another one is. This is custody of the whole state, where it does not
matter which thread has it.

## Main definitions

* `Baton`: at most one thread is critical, and the shared state fits its program point
* `Baton.Passes`: a step of a program that keeps this

## Main results

* `baton_iff_custody`: the baton is a custody
* `Baton.step`: a step of a thread that passes the baton keeps it
* `Baton.of_steps`: so do all steps
-/

namespace Thread

variable {ι σ π A : Type} {critical : π → Prop} {Free : σ → Prop} {Held : π → σ → Prop}

/-- At most one thread is critical, and the state is as it holds it, or free. -/
inductive Baton (critical : π → Prop) (Free : σ → Prop) (Held : π → σ → Prop) (c : Config ι σ π) :
    Prop
  | free (hnone : ∀ t, ¬ critical (c.pc t)) (hfree : Free c.shared)
  | held (t : ι) (ht : critical (c.pc t)) (honly : ∀ u, critical (c.pc u) → u = t)
      (hheld : Held (c.pc t) c.shared)

/-- What a step from `(p, s)` to `(p', s')` has to do with the baton: a critical thread keeps it or
gives it back, and another one takes it when the state shows that it is free, or leaves it alone. -/
structure Baton.Passes (critical : π → Prop) (Free : σ → Prop) (Held : π → σ → Prop)
    (p p' : π) (s s' : σ) : Prop where
  keep : critical p → critical p' → Held p s → Held p' s'
  giveBack : critical p → ¬ critical p' → Held p s → Free s'
  free : ¬ critical p → critical p' → ∀ q, critical q → ¬ Held q s
  take : ¬ critical p → critical p' → Free s → Held p' s'
  leave : ¬ critical p → ¬ critical p' → s' = s

namespace Baton.Passes

variable {p p' : π} {s s' : σ}

/-- A critical thread stays critical. -/
theorem of_keep (hp : critical p) (hp' : critical p') (h : Held p s → Held p' s') :
    Passes critical Free Held p p' s s' :=
  ⟨fun _ _ => h, fun _ hn => absurd hp' hn, fun hn => absurd hp hn, fun hn => absurd hp hn,
    fun hn => absurd hp hn⟩

/-- A critical thread gives the baton back. -/
theorem of_giveBack (hp : critical p) (hp' : ¬ critical p') (h : Held p s → Free s') :
    Passes critical Free Held p p' s s' :=
  ⟨fun _ h' => absurd h' hp', fun _ _ => h, fun hn => absurd hp hn, fun hn => absurd hp hn,
    fun hn => absurd hp hn⟩

/-- A thread takes the baton. -/
theorem of_take (hp : ¬ critical p) (hp' : critical p') (hfree : ∀ q, ¬ Held q s)
    (h : Free s → Held p' s') : Passes critical Free Held p p' s s' :=
  ⟨fun h' => absurd h' hp, fun h' => absurd h' hp, fun _ _ q _ => hfree q, fun _ _ => h,
    fun _ hn => absurd hp' hn⟩

/-- A thread has nothing to do with the baton. -/
theorem of_leave (hp : ¬ critical p) (hp' : ¬ critical p') : Passes critical Free Held p p' s s :=
  ⟨fun h' => absurd h' hp, fun h' => absurd h' hp, fun _ h' => absurd h' hp',
    fun _ h' => absurd h' hp', fun _ _ => rfl⟩

end Baton.Passes

variable {c c' : Config ι σ π} {t : ι}

/-- The baton is the custody of the state, by whatever thread. -/
theorem baton_iff_custody :
    Baton critical Free Held c ↔ Custody critical Free (fun _ => Held) c := by
  constructor
  · intro h
    cases h with
    | free hnone hfree =>
      exact ⟨fun t _ ht => absurd ht (hnone t), fun _ => hfree, fun t ht => absurd ht (hnone t)⟩
    | held t ht honly hheld =>
      refine ⟨fun u v hu hv => (honly u hu).trans (honly v hv).symm,
        fun hnone => absurd ht (hnone t), fun u hu => ?_⟩
      obtain rfl := honly u hu
      exact hheld
  · intro h
    by_cases hcritical : ∃ t, critical (c.pc t)
    · obtain ⟨t, ht⟩ := hcritical
      exact .held t ht (fun u hu => h.unique u t hu ht) (h.held t ht)
    · have hnone : ∀ t, ¬ critical (c.pc t) := fun t ht => hcritical ⟨t, ht⟩
      exact .free hnone (h.free hnone)

namespace Baton

variable [DecidableEq ι]

/-- A step that passes the baton keeps it. -/
theorem step {p' : π} {s' : σ} (h : Baton critical Free Held c)
    (hpasses : Passes critical Free Held (c.pc t) p' c.shared s') :
    Baton critical Free Held (c.move t s' p') := by
  rw [baton_iff_custody] at h ⊢
  by_cases hp : critical (c.pc t)
  · by_cases hp' : critical p'
    · exact h.keep hp hp' (hpasses.keep hp hp')
    · exact h.giveBack hp hp' (hpasses.giveBack hp hp')
  · by_cases hp' : critical p'
    · exact h.take hp hp' (fun u _ hu => hpasses.free hp hp' _ hu) (hpasses.take hp hp')
    · rw [hpasses.leave hp hp']
      exact h.leave hp hp' id fun _ _ _ => id

/-- A program all of whose steps pass the baton keeps it. -/
theorem of_steps {prog : π → A → σ → Option (σ × π)} {guard : ι × A → Config ι σ π → Prop}
    (hprog : ∀ p a s s' p', prog p a s = some (s', p') → Passes critical Free Held p p' s s')
    {ls : List (ι × A)} (hr : Steps (Config.step prog) guard c ls c')
    (h : Baton critical Free Held c) : Baton critical Free Held c' := by
  refine hr.invariant (I := Baton critical Free Held) ?_ h
  rintro ⟨t, a⟩ d d' hd - hx
  obtain ⟨s, p, hp, rfl⟩ := Config.step_eq_some_iff.mp hx
  exact hd.step (hprog _ _ _ _ _ hp)

end Baton

end Thread
