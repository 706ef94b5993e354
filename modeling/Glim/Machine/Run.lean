import Glim.Machine.Exec

/-!
# Runs

A run executes labelled programs one after the other. An exception ends a program
but not the run, which goes on from the state the exception left; a fault ends the
run. A guard says which labels may be executed in which state.

## Main definitions

* `Outcome.Leaves`: the state a program leaves behind, unless it faults
* `Run`: the runs under a guard
* `Run.execAll`: executing a list of labels
* `Along`: what holds of every label in the state it is executed in

## Main results

* `Run.invariant`: what every guarded step keeps, every run keeps
* `Run.exists_execAll`: programs that keep an invariant and do not fault execute
* `Along.iff_of_invariant`: what is equivalent under an invariant is so along a run
-/

namespace Machine

/-- The program ended in the state `s'`, by returning or by throwing. -/
def Outcome.Leaves {σ α : Type} (s' : σ) : Outcome σ α → Prop
  | .ok _ s => s = s'
  | .throw _ s => s = s'
  | .fault _ => False

instance {σ α : Type} [DecidableEq σ] (s' : σ) : DecidablePred (Outcome.Leaves (α := α) s') :=
  fun o => match o with
    | .ok _ s => inferInstanceAs (Decidable (s = s'))
    | .throw _ s => inferInstanceAs (Decidable (s = s'))
    | .fault _ => inferInstanceAs (Decidable False)

theorem Outcome.Leaves.eq_ok_or_throw {σ α : Type} {o : Outcome σ α} {s : σ} (h : o.Leaves s) :
    (∃ a, o = .ok a s) ∨ ∃ e, o = .throw e s := by
  cases o with
  | ok a s' => exact Or.inl ⟨a, congrArg _ h⟩
  | throw e s' => exact Or.inr ⟨e, congrArg _ h⟩
  | fault f => exact h.elim

theorem Outcome.leaves_or_fault {σ α : Type} (o : Outcome σ α) :
    (∃ s, o.Leaves s) ∨ ∃ f, o = .fault f := by
  cases o with
  | ok a s => exact Or.inl ⟨s, rfl⟩
  | throw e s => exact Or.inl ⟨s, rfl⟩
  | fault f => exact Or.inr ⟨f, rfl⟩

variable {σ L : Type}

/-- The runs of the programs `exec l` whose labels satisfy `guard` in the state they start from. -/
inductive Run (exec : L → Exec σ Unit) (guard : L → σ → Prop) : σ → List L → σ → Prop
  | nil (s : σ) : Run exec guard s [] s
  | cons {s s' s'' : σ} {l : L} {ls : List L} (hg : guard l s) (hl : (exec l s).Leaves s')
      (hr : Run exec guard s' ls s'') : Run exec guard s (l :: ls) s''

namespace Run

variable {exec : L → Exec σ Unit} {guard : L → σ → Prop} {s s' : σ} {ls : List L}

/-- A program that meets its specification leaves a state within the postconditions. -/
theorem leaves_of_wp {x : Exec σ Unit} {Q : σ → Prop} {F : Fault → Prop}
    (h : Exec.wp x (fun _ => Q) (fun _ => Q) F s) (hl : (x s).Leaves s') : Q s' := by
  simp only [Exec.wp] at h
  cases hx : x s with
  | ok a t => rw [hx] at h hl; exact hl ▸ h
  | throw e t => rw [hx] at h hl; exact hl ▸ h
  | fault u => rw [hx] at hl; exact hl.elim

/-- What every guarded step keeps, every run keeps. -/
theorem invariant {I : σ → Prop} (hstep : ∀ l s s', I s → guard l s → (exec l s).Leaves s' → I s')
    (hr : Run exec guard s ls s') (hs : I s) : I s' := by
  induction hr with
  | nil => exact hs
  | cons hg hl _ ih => exact ih (hstep _ _ _ hs hg hl)

/-- The state after executing `ls`, unless one of them faults. -/
def execAll (exec : L → Exec σ Unit) : List L → σ → Option σ
  | [], s => some s
  | l :: ls, s =>
    match exec l s with
    | .ok _ s' => execAll exec ls s'
    | .throw _ s' => execAll exec ls s'
    | .fault _ => none

/-- What executes is a run. -/
theorem of_execAll (hg : ∀ l ∈ ls, ∀ s, guard l s) (h : execAll exec ls s = some s') :
    Run exec guard s ls s' := by
  induction ls generalizing s with
  | nil =>
    obtain rfl : s = s' := Option.some.inj h
    exact .nil s
  | cons l ls ih =>
    have hgl := hg l List.mem_cons_self s
    have hgs : ∀ k ∈ ls, ∀ s, guard k s := fun k hk => hg k (List.mem_cons_of_mem l hk)
    simp only [execAll] at h
    cases hx : exec l s with
    | ok a t =>
      rw [hx] at h
      exact .cons hgl (by rw [hx]; rfl) (ih hgs h)
    | throw e t =>
      rw [hx] at h
      exact .cons hgl (by rw [hx]; rfl) (ih hgs h)
    | fault u => rw [hx] at h; cases h

/-- Programs that keep an invariant and do not fault execute one after the other. -/
theorem exists_execAll {I : σ → Prop} (hkeep : ∀ l, Exec.Preserves I (fun _ => False) (exec l))
    (hs : I s) : ∃ s', execAll exec ls s = some s' ∧ I s' := by
  induction ls generalizing s with
  | nil => exact ⟨s, rfl, hs⟩
  | cons l ls ih =>
    have hl := hkeep l s hs
    unfold Exec.wp at hl
    unfold execAll
    cases hx : exec l s with
    | ok a t =>
      rw [hx] at hl
      exact ih hl
    | throw e t =>
      rw [hx] at hl
      exact ih hl
    | fault u =>
      rw [hx] at hl
      exact hl.elim

end Run

/-- `P` holds of every label of a list, in the state that it is executed in. -/
def Along (exec : L → Exec σ Unit) (P : L → σ → Prop) : List L → σ → Prop
  | [], _ => True
  | l :: ls, s => P l s ∧ ∀ s', (exec l s).Leaves s' → Along exec P ls s'

/-- What is equivalent in the states of an invariant, is equivalent along the runs from them. -/
theorem Along.iff_of_invariant {exec : L → Exec σ Unit} {P P' : L → σ → Prop} {I : σ → Prop}
    (hstep : ∀ l s s', I s → (exec l s).Leaves s' → I s') (hiff : ∀ l s, I s → (P l s ↔ P' l s))
    {ls : List L} {s : σ} (hs : I s) : Along exec P ls s ↔ Along exec P' ls s := by
  induction ls generalizing s with
  | nil => exact Iff.rfl
  | cons l ls ih =>
    refine and_congr (hiff l s hs) (forall_congr' fun s' => forall_congr' fun hl => ?_)
    exact ih (hstep l s s' hs hl)

end Machine
