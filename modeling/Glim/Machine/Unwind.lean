import Mathlib.Tactic.Common

/-!
# Executions with destructors

A program over a state returns, throws, or is terminated, and leaves a state in every case. When it
throws, the objects it has constructed are destroyed on the way out; an exception that would leave
a destructor terminates the program instead, and then nothing is destroyed any more.

## Main definitions

* `Unwind`: programs over a state, a monad
* `Unwind.scope`, `Unwind.onThrow`: a program, and what is destroyed when it ends, or throws
* `Unwind.wp`: the weakest precondition for a triple of postconditions, one for each way a program
  can end

## Main results

* `wp_bind`, `wp_scope`, `wp_onThrow`: weakest preconditions compose
* `wp_mono`: weaker postconditions have weaker preconditions
* `Within.bind`: the states before and after the parts of a program, and those of the program
-/

namespace Machine

/-- How a program ends. -/
inductive Ending (α : Type) where
  | value (a : α)
  | thrown (message : String)
  | terminated
  deriving DecidableEq, Repr

/-- A program over the state `σ` with the result `α`. -/
def Unwind (σ α : Type) : Type := σ → Ending α × σ

namespace Unwind

variable {σ α β : Type}

instance : Monad (Unwind σ) where
  pure a := fun s => (.value a, s)
  bind x f := fun s =>
    match x s with
    | (.value a, s') => f a s'
    | (.thrown e, s') => (.thrown e, s')
    | (.terminated, s') => (.terminated, s')

/-- The current state. -/
def get : Unwind σ σ := fun s => (.value s, s)

/-- Replace the state. -/
def modify (f : σ → σ) : Unwind σ Unit := fun s => (.value (), f s)

/-- Throw an exception with the given text. -/
def raise (message : String) : Unwind σ α := fun s => (.thrown message, s)

/-- Run `x` if `c` holds. -/
def when (c : Prop) [Decidable c] (x : Unwind σ Unit) : Unwind σ Unit := if c then x else pure ()

/-- A function that an exception must not leave. -/
def noexcept (x : Unwind σ α) : Unwind σ α := fun s =>
  match x s with
  | (.thrown _, s') => (.terminated, s')
  | r => r

/-- Run `x`, and if it throws then `d` before the exception goes on. -/
def onThrow (x : Unwind σ α) (d : Unwind σ Unit) : Unwind σ α := fun s =>
  match x s with
  | (.thrown e, s') => (noexcept d >>= fun _ => raise e) s'
  | r => r

/-- Run `x`, and then `d`, also if `x` throws: `d` is the destructor of a local object. -/
def scope (x : Unwind σ α) (d : Unwind σ Unit) : Unwind σ α := do
  let a ← onThrow x d
  noexcept d
  pure a

/-- Run `x` and go on if it throws. -/
def attempt (x : Unwind σ α) : Unwind σ Unit := fun s =>
  match x s with
  | (.value _, s') => (.value (), s')
  | (.thrown _, s') => (.value (), s')
  | (.terminated, s') => (.terminated, s')

/-! ## Weakest preconditions -/

/-- From `s`, the program `x` returns within `Q`, throws within `E`, or is terminated within `T`. -/
def wp (x : Unwind σ α) (Q : α → σ → Prop) (E : String → σ → Prop) (T : σ → Prop) (s : σ) : Prop :=
  match x s with
  | (.value a, s') => Q a s'
  | (.thrown e, s') => E e s'
  | (.terminated, s') => T s'

variable {x : Unwind σ α} {Q Q' : α → σ → Prop} {E E' : String → σ → Prop} {T T' : σ → Prop}
  {s : σ}

@[simp] theorem wp_pure (a : α) : wp (pure a : Unwind σ α) Q E T s ↔ Q a s := Iff.rfl

@[simp] theorem wp_get {Q : σ → σ → Prop} : wp get Q E T s ↔ Q s s := Iff.rfl

@[simp] theorem wp_modify {Q : Unit → σ → Prop} (f : σ → σ) :
    wp (modify f) Q E T s ↔ Q () (f s) := Iff.rfl

@[simp] theorem wp_raise (e : String) : wp (raise e : Unwind σ α) Q E T s ↔ E e s := Iff.rfl

/-- Weakest preconditions compose. -/
@[simp] theorem wp_bind {Q : β → σ → Prop} (f : α → Unwind σ β) :
    wp (x >>= f) Q E T s ↔ wp x (fun a s' => wp (f a) Q E T s') E T s := by
  simp only [wp, bind]
  rcases x s with ⟨_ | _ | _, s'⟩ <;> rfl

@[simp] theorem wp_ite (c : Prop) [Decidable c] (y : Unwind σ α) :
    wp (if c then x else y) Q E T s ↔ (c → wp x Q E T s) ∧ (¬ c → wp y Q E T s) := by
  by_cases h : c <;> simp [h]

@[simp] theorem wp_when {Q : Unit → σ → Prop} (c : Prop) [Decidable c] (y : Unwind σ Unit) :
    wp (when c y) Q E T s ↔ (c → wp y Q E T s) ∧ (¬ c → Q () s) :=
  wp_ite c (pure ())

@[simp] theorem wp_noexcept : wp (noexcept x) Q E T s ↔ wp x Q (fun _ => T) T s := by
  simp only [wp, noexcept]
  rcases x s with ⟨_ | _ | _, s'⟩ <;> rfl

@[simp] theorem wp_onThrow (d : Unwind σ Unit) :
    wp (onThrow x d) Q E T s ↔
      wp x Q (fun e s' => wp d (fun _ => E e) (fun _ => T) T s') T s := by
  have hd : ∀ e s', wp (noexcept d >>= fun _ => (raise e : Unwind σ α)) Q E T s' ↔
      wp d (fun _ => E e) (fun _ => T) T s' := fun e s' => by
    simp only [wp_bind, wp_noexcept, wp_raise]
  simp only [wp, onThrow] at hd ⊢
  rcases x s with ⟨_ | e | _, s'⟩
  · rfl
  · exact hd e s'
  · rfl

/-- A local object is destroyed however its scope is left. -/
@[simp] theorem wp_scope (d : Unwind σ Unit) :
    wp (scope x d) Q E T s ↔
      wp x (fun a s' => wp d (fun _ => Q a) (fun _ => T) T s')
        (fun e s' => wp d (fun _ => E e) (fun _ => T) T s') T s := by
  simp only [scope, wp_bind, wp_onThrow, wp_noexcept, wp_pure]

@[simp] theorem wp_attempt {Q : Unit → σ → Prop} :
    wp (attempt x) Q E T s ↔ wp x (fun _ => Q ()) (fun _ => Q ()) T s := by
  simp only [wp, attempt]
  rcases x s with ⟨_ | _ | _, s'⟩ <;> rfl

/-- A program of which every other ending is excluded is terminated. -/
theorem eq_terminated_of_wp {s' : σ} (h : wp x (fun _ _ => False) (fun _ _ => False) (· = s') s) :
    x s = (.terminated, s') := by
  simp only [wp] at h
  rcases hx : x s with ⟨a | e | _, s₁⟩
  · rw [hx] at h
    exact h.elim
  · rw [hx] at h
    exact h.elim
  · rw [hx] at h
    exact congrArg _ h

/-- Weaker postconditions have weaker preconditions. -/
theorem wp_mono (h : wp x Q E T s) (hQ : ∀ a s', Q a s' → Q' a s')
    (hE : ∀ e s', E e s' → E' e s') (hT : ∀ s', T s' → T' s') : wp x Q' E' T' s := by
  simp only [wp] at h ⊢
  rcases hx : x s with ⟨a | e | _, s'⟩
  · rw [hx] at h
    exact hQ a s' h
  · rw [hx] at h
    exact hE e s' h
  · rw [hx] at h
    exact hT s' h

/-- A specification says where a program ends. -/
theorem snd_of_wp {P : σ → Prop} (h : wp x (fun _ => P) (fun _ => P) P s) : P (x s).2 := by
  simp only [wp] at h
  rcases hx : x s with ⟨a | e | _, s'⟩
  all_goals
    rw [hx] at h
    exact h

/-- What holds where a program ends holds however it ends. -/
theorem wp_of_snd {P : σ → Prop} (h : P (x s).2) : wp x (fun _ => P) (fun _ => P) P s := by
  simp only [wp]
  rcases hx : x s with ⟨a | e | _, s'⟩
  all_goals
    rw [hx] at h
    exact h

/-! ## The states before and after -/

/-- However the program ends, `R` relates the state it began in to the one it leaves. -/
def Within (R : σ → σ → Prop) (x : Unwind σ α) : Prop := ∀ s, R s (x s).2

section Within

variable {R : σ → σ → Prop} {f : α → Unwind σ β}

theorem within_pure [Std.Refl R] (a : α) : Within R (pure a : Unwind σ α) := Std.Refl.refl

theorem within_get [Std.Refl R] : Within R (get : Unwind σ σ) := Std.Refl.refl

theorem within_raise [Std.Refl R] (e : String) : Within R (raise e : Unwind σ α) := Std.Refl.refl

theorem within_modify {g : σ → σ} (h : ∀ s, R s (g s)) : Within R (modify g) := h

/-- What comes behind the first part of a program. -/
theorem snd_bind [Trans R R R] {t : σ} (hx : R t (x s).2) (hf : ∀ a, Within R (f a)) :
    R t ((x >>= f) s).2 := by
  simp only [bind]
  rcases h : x s with ⟨a | e | _, s'⟩
  · rw [h] at hx
    exact Trans.trans hx (hf a s')
  · rw [h] at hx
    exact hx
  · rw [h] at hx
    exact hx

theorem snd_bind_pure (b : β) : ((x >>= fun _ => pure b) s).2 = (x s).2 := by
  simp only [bind]
  rcases x s with ⟨_ | _ | _, s'⟩ <;> rfl

theorem Within.bind [Trans R R R] (hx : Within R x) (hf : ∀ a, Within R (f a)) :
    Within R (x >>= f) := fun s => snd_bind (hx s) hf

theorem Within.ite {c : Prop} [Decidable c] {y : Unwind σ α} (hx : Within R x)
    (hy : Within R y) : Within R (if c then x else y) := by
  by_cases h : c
  · rwa [if_pos h]
  · rwa [if_neg h]

theorem Within.when [Std.Refl R] {c : Prop} [Decidable c] {y : Unwind σ Unit} (hy : Within R y) :
    Within R (when c y) := hy.ite (within_pure ())

theorem snd_attempt : (attempt x s).2 = (x s).2 := by
  simp only [attempt]
  rcases x s with ⟨_ | _ | _, s'⟩ <;> rfl

theorem Within.attempt (hx : Within R x) : Within R (attempt x) := by
  intro s
  rw [snd_attempt]
  exact hx s

end Within

end Unwind

end Machine
