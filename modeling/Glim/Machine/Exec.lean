import Mathlib.Tactic.Common

/-!
# Executions with exceptions and faults

A program over the state `σ` returns, throws a message, or runs into behaviour
that its language leaves undefined. The exception keeps the state it was thrown
from, a fault keeps nothing.

## Main definitions

* `Exec`: programs over a state, a monad
* `Exec.wp`: the weakest precondition for a triple of postconditions, one for each
  way a program can end
* `Exec.zoom`: a program over a component of the state

## Main results

* `wp_bind`: weakest preconditions compose
* `wp_mono`: weaker postconditions have weaker preconditions
* `Preserves.bind`: what every part of a program preserves, the program preserves
-/

namespace Machine

/-- The undefined behaviour a program can run into. -/
inductive Fault where
  | nullPointer
  | outOfBounds
  | useAfterFree
  | doubleFree
  | foreignFree
  /-- A copy between overlapping ranges. -/
  | overlap
  | wideShift
  | assertion
  /-- A loop that does not end within its fuel. -/
  | diverges
  deriving DecidableEq, Repr

/-- How a program over `σ` ends. -/
inductive Outcome (σ α : Type) where
  | ok (a : α) (s : σ)
  | throw (message : String) (s : σ)
  | fault (f : Fault)
  deriving DecidableEq, Repr

/-- A program over the state `σ` with the result `α`. -/
def Exec (σ α : Type) : Type := σ → Outcome σ α

namespace Exec

variable {σ τ α β : Type}

instance : Monad (Exec σ) where
  pure a := fun s => .ok a s
  bind x f := fun s =>
    match x s with
    | .ok a s' => f a s'
    | .throw e s' => .throw e s'
    | .fault u => .fault u

instance : LawfulMonad (Exec σ) := LawfulMonad.mk' _
  (fun x => by
    funext s
    simp only [Functor.map]
    cases x s <;> rfl)
  (fun _ _ => rfl)
  (fun x _ _ => by
    funext s
    simp only [bind]
    cases x s <;> rfl)

/-- The current state. -/
def get : Exec σ σ := fun s => .ok s s

/-- Replace the state. -/
def modify (f : σ → σ) : Exec σ Unit := fun s => .ok () (f s)

/-- Throw an exception with the given text. -/
def raise (message : String) : Exec σ α := fun s => .throw message s

/-- Run into undefined behaviour. -/
def fail (f : Fault) : Exec σ α := fun _ => .fault f

/-- Run `x` if `c` holds. -/
def when (c : Prop) [Decidable c] (x : Exec σ Unit) : Exec σ Unit := if c then x else pure ()

/-- Run `x` on the component of the state that `view` reads and `put` writes. -/
def zoom (view : σ → τ) (put : τ → σ → σ) (x : Exec τ α) : Exec σ α := fun s =>
  match x (view s) with
  | .ok a t => .ok a (put t s)
  | .throw e t => .throw e (put t s)
  | .fault u => .fault u

theorem when_of_not {c : Prop} [Decidable c] {x : Exec σ Unit} (h : ¬ c) : when c x = pure () :=
  if_neg h

/-- Run `x` `n` times, each time from what it returned the last time. -/
def iterate (x : τ → Exec σ (α × τ)) : ℕ → τ → Exec σ (List α × τ)
  | 0, t => pure ([], t)
  | n + 1, t => do
    let (a, t) ← x t
    let (as, t) ← iterate x n t
    pure (a :: as, t)

/-! ## Runs that return -/

theorem bind_of_ok {x : Exec σ α} {f : α → Exec σ β} {a : α} {s s' : σ} (h : x s = .ok a s') :
    (x >>= f) s = f a s' := by
  simp only [bind, h]

/-- A program that returns, returns from each of its parts. -/
theorem exists_of_bind_eq_ok {x : Exec σ α} {f : α → Exec σ β} {b : β} {s s' : σ}
    (h : (x >>= f) s = .ok b s') : ∃ a t, x s = .ok a t ∧ f a t = .ok b s' := by
  simp only [bind] at h
  cases hx : x s with
  | ok a t =>
    rw [hx] at h
    exact ⟨a, t, rfl, h⟩
  | throw e t =>
    rw [hx] at h
    cases h
  | fault u =>
    rw [hx] at h
    cases h

theorem zoom_of_ok {view : σ → τ} {put : τ → σ → σ} {x : Exec τ α} {a : α} {s : σ} {t : τ}
    (h : x (view s) = .ok a t) : zoom view put x s = .ok a (put t s) := by
  simp only [zoom, h]

theorem when_of_pos {c : Prop} [Decidable c] {x : Exec σ Unit} (h : c) : when c x = x := if_pos h

/-! ## Weakest preconditions -/

/-- From `s`, the program `x` returns within `Q`, throws within `E`, or faults within `F`. -/
def wp (x : Exec σ α) (Q : α → σ → Prop) (E : String → σ → Prop) (F : Fault → Prop)
    (s : σ) : Prop :=
  match x s with
  | .ok a s' => Q a s'
  | .throw e s' => E e s'
  | .fault u => F u

variable {x : Exec σ α} {Q Q' : α → σ → Prop} {E E' : String → σ → Prop} {F F' : Fault → Prop}
  {s : σ}

@[simp] theorem wp_pure (a : α) : wp (pure a : Exec σ α) Q E F s ↔ Q a s := Iff.rfl

@[simp] theorem wp_get {Q : σ → σ → Prop} : wp get Q E F s ↔ Q s s := Iff.rfl

@[simp] theorem wp_modify {Q : Unit → σ → Prop} (f : σ → σ) :
    wp (modify f) Q E F s ↔ Q () (f s) := Iff.rfl

@[simp] theorem wp_raise (e : String) : wp (raise e : Exec σ α) Q E F s ↔ E e s := Iff.rfl

@[simp] theorem wp_fail (u : Fault) : wp (fail u : Exec σ α) Q E F s ↔ F u := Iff.rfl

/-- Weakest preconditions compose. -/
@[simp] theorem wp_bind {Q : β → σ → Prop} (f : α → Exec σ β) :
    wp (x >>= f) Q E F s ↔ wp x (fun a s' => wp (f a) Q E F s') E F s := by
  simp only [wp, bind]
  cases x s <;> rfl

@[simp] theorem wp_map {Q : β → σ → Prop} (f : α → β) :
    wp (f <$> x) Q E F s ↔ wp x (fun a => Q (f a)) E F s := by
  simp only [wp, Functor.map]
  cases x s <;> rfl

@[simp] theorem wp_ite (c : Prop) [Decidable c] (y : Exec σ α) :
    wp (if c then x else y) Q E F s ↔
      (c → wp x Q E F s) ∧ (¬ c → wp y Q E F s) := by
  by_cases h : c <;> simp [h]

@[simp] theorem wp_when {Q : Unit → σ → Prop} (c : Prop) [Decidable c] (y : Exec σ Unit) :
    wp (when c y) Q E F s ↔ (c → wp y Q E F s) ∧ (¬ c → Q () s) :=
  wp_ite c (pure ())

@[simp] theorem wp_zoom {Q : α → σ → Prop} {view : σ → τ} {put : τ → σ → σ} {y : Exec τ α} :
    wp (zoom view put y) Q E F s ↔
      wp y (fun a t => Q a (put t s)) (fun e t => E e (put t s)) F (view s) := by
  simp only [wp, zoom]
  cases y (view s) <;> rfl

/-- Weaker postconditions have weaker preconditions. -/
theorem wp_mono (h : wp x Q E F s) (hQ : ∀ a s', Q a s' → Q' a s')
    (hE : ∀ e s', E e s' → E' e s') (hF : ∀ u, F u → F' u) : wp x Q' E' F' s := by
  simp only [wp] at h ⊢
  cases hx : x s with
  | ok a s' => rw [hx] at h; exact hQ a s' h
  | throw e s' => rw [hx] at h; exact hE e s' h
  | fault u => rw [hx] at h; exact hF u h

/-- A program that meets two specifications meets both. -/
theorem wp_and (h : wp x Q E F s) (h' : wp x Q' E' F' s) :
    wp x (fun a s' => Q a s' ∧ Q' a s') (fun e s' => E e s' ∧ E' e s')
      (fun u => F u ∧ F' u) s := by
  simp only [wp] at h h' ⊢
  cases hx : x s with
  | ok a s' => rw [hx] at h h'; exact ⟨h, h'⟩
  | throw e s' => rw [hx] at h h'; exact ⟨h, h'⟩
  | fault u => rw [hx] at h h'; exact ⟨h, h'⟩

/-- No program meets two specifications that exclude each other. -/
theorem wp_excludes (h : wp x Q E F s) (h' : wp x Q' E' F' s) (hQ : ∀ a s', Q a s' → ¬ Q' a s')
    (hE : ∀ e s', E e s' → ¬ E' e s') (hF : ∀ u, F u → ¬ F' u) : False := by
  have hboth := wp_and h h'
  simp only [wp] at hboth
  split at hboth
  · exact hQ _ _ hboth.1 hboth.2
  · exact hE _ _ hboth.1 hboth.2
  · exact hF _ hboth.1 hboth.2

/-- A postcondition that holds of every result. -/
theorem wp_of_forall (h : ∀ a s', Q a s') : wp x Q (fun _ _ => True) (fun _ => True) s := by
  simp only [wp]
  cases x s with
  | ok a s' => exact h a s'
  | throw e s' => trivial
  | fault u => trivial

/-- A program that neither throws nor faults returns. -/
theorem exists_ok_of_wp (h : wp x Q (fun _ _ => False) (fun _ => False) s) :
    ∃ a s', x s = .ok a s' ∧ Q a s' := by
  simp only [wp] at h
  cases hx : x s with
  | ok a s' => rw [hx] at h; exact ⟨a, s', rfl, h⟩
  | throw e s' => rw [hx] at h; exact h.elim
  | fault u => rw [hx] at h; exact h.elim

/-- A program that takes one item off a list of items takes them all off. -/
theorem wp_iterate {step : τ → Exec σ (α × τ)} {f : β → α} {I : List β → τ → σ → Prop}
    (hstep : ∀ b bs t s, I (b :: bs) t s →
      wp (step t) (fun r s' => r.1 = f b ∧ I bs r.2 s') (fun _ _ => False) (fun _ => False) s)
    {bs : List β} {t : τ} (h : I bs t s) :
    wp (iterate step bs.length t) (fun r s' => r.1 = bs.map f ∧ I [] r.2 s') (fun _ _ => False)
      (fun _ => False) s := by
  induction bs generalizing t s with
  | nil => exact ⟨rfl, h⟩
  | cons b bs ih =>
    simp only [List.length_cons, iterate, wp_bind, wp_pure]
    refine wp_mono (hstep b bs t s h) (fun r s' hr => ?_) (fun _ _ h => h) fun _ h => h
    refine wp_mono (ih hr.2) (fun r' s'' hr' => ⟨?_, hr'.2⟩) (fun _ _ h => h) fun _ h => h
    rw [hr.1, hr'.1, List.map_cons]

/-! ## Preservation -/

/-- `x` keeps `I`, also when it throws, and faults only within `F`. -/
def Preserves (I : σ → Prop) (F : Fault → Prop) (x : Exec σ α) : Prop :=
  ∀ s, I s → wp x (fun _ => I) (fun _ => I) F s

variable {I : σ → Prop}

theorem Preserves.pure (a : α) : Preserves I F (Pure.pure a : Exec σ α) := fun _ h => h

theorem Preserves.get : Preserves I F (get : Exec σ σ) := fun _ h => h

theorem Preserves.modify {f : σ → σ} (h : ∀ s, I s → I (f s)) : Preserves I F (modify f) := h

theorem Preserves.raise (e : String) : Preserves I F (raise e : Exec σ α) := fun _ h => h

theorem Preserves.fail {u : Fault} (h : F u) : Preserves I F (fail u : Exec σ α) := fun _ _ => h

theorem Preserves.bind {f : α → Exec σ β} (hx : Preserves I F x)
    (hf : ∀ a, Preserves I F (f a)) : Preserves I F (x >>= f) := fun s h =>
  wp_bind f |>.mpr (wp_mono (hx s h) (fun a s' h' => hf a s' h') (fun _ _ h' => h') fun _ h' => h')

theorem Preserves.map {f : α → β} (hx : Preserves I F x) : Preserves I F (f <$> x) :=
  fun s h => (wp_map f).mpr (hx s h)

theorem Preserves.ite {c : Prop} [Decidable c] {y : Exec σ α} (hx : c → Preserves I F x)
    (hy : ¬ c → Preserves I F y) : Preserves I F (if c then x else y) := by
  by_cases h : c
  · simpa only [h, if_true] using hx h
  · simpa only [h, if_false] using hy h

theorem Preserves.when {c : Prop} [Decidable c] {y : Exec σ Unit} (hy : c → Preserves I F y) :
    Preserves I F (Exec.when c y) :=
  Preserves.ite hy fun _ => Preserves.pure _

end Exec

end Machine
