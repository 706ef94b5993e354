import Mathlib.Tactic.Common

/-!
# A variable with scopes

A program has a variable that it sets for the extent of a scope: the object that does so saves the
value, and sets it back when the scope is left, by returning or by throwing. Such a program does
what one does that is given the value, and passes another one on to its scopes. The two may differ
in what they throw and in the rest of their states, as long as these stay related.

## Main definitions

* `Dynamic`: programs with a variable, and their constructs
* `Environment`: programs that are given a value, and the same constructs
* `Agrees`: a program with a variable does what one does that is given the value

## Main results

* `Agrees.seq`, `Agrees.scope`, `Agrees.catching`, ..: a construct of programs that agree
-/

namespace Machine

/-- How a program is left. -/
inductive Leaving (ε : Type) where
  | returned
  | thrown (e : ε)
  | terminated
  deriving DecidableEq, Repr

/-- A program with a variable, over the rest of the state. -/
def Dynamic (V σ ε : Type) : Type := V → σ → Leaving ε × V × σ

/-- A program that is given a value. -/
def Environment (V σ ε : Type) : Type := V → σ → Leaving ε × σ

variable {V σ σ' ε ε' : Type}

namespace Dynamic

/-- Do something that throws nothing. -/
def act (f : V → σ → σ) : Dynamic V σ ε := fun v s => (.returned, v, f v s)

/-- Make an exception, and throw it. -/
def throwing (f : V → σ → ε × σ) : Dynamic V σ ε := fun v s => (.thrown (f v s).1, v, (f v s).2)

/-- Throw what is at hand. -/
def rethrow (top : σ → Option ε) : Dynamic V σ ε := fun v s =>
  match top s with
  | some e => (.thrown e, v, s)
  | none => (.terminated, v, s)

def seq (x y : Dynamic V σ ε) : Dynamic V σ ε := fun v s =>
  match x v s with
  | (.returned, v', s') => y v' s'
  | r => r

def ite (c : σ → Bool) (x y : Dynamic V σ ε) : Dynamic V σ ε := fun v s =>
  if c s then x v s else y v s

/-- Run `x` a number of times. -/
def repeated (x : Dynamic V σ ε) : ℕ → Dynamic V σ ε
  | 0 => act fun _ => id
  | n + 1 => seq x (repeated x n)

/-- Run `x` as many times as the state says. -/
def loop (count : σ → ℕ) (x : Dynamic V σ ε) : Dynamic V σ ε := fun v s => repeated x (count s) v s

/-- Run `x` in the scope of an object that sets the variable, and has its destructor set it back. -/
def scope (set : V → V) (restore : V → V → V) (x : Dynamic V σ ε) : Dynamic V σ ε := fun v s =>
  match x (set v) s with
  | (.terminated, r) => (.terminated, r)
  | (l, v', s') => (l, restore v v', s')

/-- Run `x`, and `y` if it throws: then the exception is at hand for `y`. -/
def catching (push : ε → σ → σ) (pop : σ → σ) (x y : Dynamic V σ ε) : Dynamic V σ ε := fun v s =>
  match x v s with
  | (.thrown e, v', s') =>
    match y v' (push e s') with
    | (l, v'', s'') => (l, v'', pop s'')
  | r => r

end Dynamic

namespace Environment

def act (f : V → σ → σ) : Environment V σ ε := fun v s => (.returned, f v s)

def throwing (f : V → σ → ε × σ) : Environment V σ ε := fun v s => (.thrown (f v s).1, (f v s).2)

def rethrow (top : σ → Option ε) : Environment V σ ε := fun _ s =>
  match top s with
  | some e => (.thrown e, s)
  | none => (.terminated, s)

def seq (x y : Environment V σ ε) : Environment V σ ε := fun v s =>
  match x v s with
  | (.returned, s') => y v s'
  | r => r

def ite (c : σ → Bool) (x y : Environment V σ ε) : Environment V σ ε := fun v s =>
  if c s then x v s else y v s

def repeated (x : Environment V σ ε) : ℕ → Environment V σ ε
  | 0 => act fun _ => id
  | n + 1 => seq x (repeated x n)

def loop (count : σ → ℕ) (x : Environment V σ ε) : Environment V σ ε := fun v s =>
  repeated x (count s) v s

/-- Run `x` with another value. -/
def scope (set : V → V) (x : Environment V σ ε) : Environment V σ ε := fun v s => x (set v) s

def catching (push : ε → σ → σ) (pop : σ → σ) (x y : Environment V σ ε) : Environment V σ ε :=
  fun v s =>
    match x v s with
    | (.thrown e, s') =>
      match y v (push e s') with
      | (l, s'') => (l, pop s'')
    | r => r

end Environment

/-- Both programs are left in the same way, with related exceptions. -/
inductive Leaving.Rel (T : ε → ε' → Prop) : Leaving ε → Leaving ε' → Prop
  | returned : Rel T .returned .returned
  | thrown {e : ε} {e' : ε'} (h : T e e') : Rel T (.thrown e) (.thrown e')
  | terminated : Rel T .terminated .terminated

/-- From related states, the programs are left in the same way, with related exceptions, and in
related states. The variable is as it was, unless the process is terminated. -/
def Agrees (R : σ → σ' → Prop) (T : ε → ε' → Prop) (x : Dynamic V σ ε) (y : Environment V σ' ε') :
    Prop :=
  ∀ v s s', R s s' → Leaving.Rel T (x v s).1 (y v s').1 ∧ R (x v s).2.2 (y v s').2 ∧
    ((x v s).1 ≠ .terminated → (x v s).2.1 = v)

namespace Agrees

variable {R : σ → σ' → Prop} {T : ε → ε' → Prop} {x x₁ x₂ : Dynamic V σ ε}
  {y y₁ y₂ : Environment V σ' ε'}

theorem act {f : V → σ → σ} {g : V → σ' → σ'} (h : ∀ v s s', R s s' → R (f v s) (g v s')) :
    Agrees R T (.act f) (.act g) :=
  fun v s s' hs => ⟨.returned, h v s s' hs, fun _ => rfl⟩

theorem throwing {f : V → σ → ε × σ} {g : V → σ' → ε' × σ'}
    (h : ∀ v s s', R s s' → T (f v s).1 (g v s').1 ∧ R (f v s).2 (g v s').2) :
    Agrees R T (.throwing f) (.throwing g) :=
  fun v s s' hs => ⟨.thrown (h v s s' hs).1, (h v s s' hs).2, fun _ => rfl⟩

theorem rethrow {top : σ → Option ε} {top' : σ' → Option ε'}
    (h : ∀ s s', R s s' → Option.Rel T (top s) (top' s')) :
    Agrees R T (.rethrow top : Dynamic V σ ε) (.rethrow top') := by
  intro v s s' hs
  have htop := h s s' hs
  rw [Dynamic.rethrow, Environment.rethrow]
  cases htop' : top s <;> cases htop'' : top' s' <;> rw [htop', htop''] at htop <;> cases htop
  · exact ⟨.terminated, hs, fun _ => rfl⟩
  · exact ⟨.thrown ‹_›, hs, fun _ => rfl⟩

theorem seq (h₁ : Agrees R T x₁ y₁) (h₂ : Agrees R T x₂ y₂) :
    Agrees R T (x₁.seq x₂) (y₁.seq y₂) := by
  intro v s s' hs
  have h := h₁ v s s' hs
  rw [Dynamic.seq, Environment.seq]
  rcases hx : x₁ v s with ⟨l, v', t⟩
  rcases hy : y₁ v s' with ⟨l', t'⟩
  rw [hx, hy] at h
  obtain ⟨hl, ht, hv⟩ := h
  cases hl with
  | returned =>
    obtain rfl : v' = v := hv nofun
    exact h₂ v' t t' ht
  | thrown he => exact ⟨.thrown he, ht, hv⟩
  | terminated => exact ⟨.terminated, ht, hv⟩

theorem ite {c : σ → Bool} {c' : σ' → Bool} (hc : ∀ s s', R s s' → c s = c' s')
    (h₁ : Agrees R T x₁ y₁) (h₂ : Agrees R T x₂ y₂) :
    Agrees R T (.ite c x₁ x₂) (.ite c' y₁ y₂) := by
  intro v s s' hs
  rw [Dynamic.ite, Environment.ite, hc s s' hs]
  split_ifs
  · exact h₁ v s s' hs
  · exact h₂ v s s' hs

theorem repeated (h : Agrees R T x y) (n : ℕ) : Agrees R T (x.repeated n) (y.repeated n) := by
  induction n with
  | zero => exact act fun v s s' hs => hs
  | succ n ih => exact h.seq ih

theorem loop {count : σ → ℕ} {count' : σ' → ℕ} (hcount : ∀ s s', R s s' → count s = count' s')
    (h : Agrees R T x y) : Agrees R T (.loop count x) (.loop count' y) := by
  intro v s s' hs
  rw [Dynamic.loop, Environment.loop, hcount s s' hs]
  exact h.repeated _ v s s' hs

/-- The destructor sets the variable back, where the scope has left it as it was. -/
theorem scope {set : V → V} {restore : V → V → V} (hset : ∀ v, restore v (set v) = v)
    (h : Agrees R T x y) : Agrees R T (.scope set restore x) (.scope set y) := by
  intro v s s' hs
  have h := h (set v) s s' hs
  rw [Dynamic.scope, Environment.scope]
  rcases hx : x (set v) s with ⟨l, v', t⟩
  rcases hy : y (set v) s' with ⟨l', t'⟩
  rw [hx, hy] at h
  obtain ⟨hl, ht, hv⟩ := h
  cases hl with
  | returned =>
    obtain rfl : v' = set v := hv nofun
    exact ⟨.returned, ht, fun _ => hset v⟩
  | thrown he =>
    obtain rfl : v' = set v := hv nofun
    exact ⟨.thrown he, ht, fun _ => hset v⟩
  | terminated => exact ⟨.terminated, ht, fun h => absurd rfl h⟩

theorem catching {push : ε → σ → σ} {pop : σ → σ} {push' : ε' → σ' → σ'} {pop' : σ' → σ'}
    (hpush : ∀ e e' s s', T e e' → R s s' → R (push e s) (push' e' s'))
    (hpop : ∀ s s', R s s' → R (pop s) (pop' s')) (h₁ : Agrees R T x₁ y₁)
    (h₂ : Agrees R T x₂ y₂) :
    Agrees R T (.catching push pop x₁ x₂) (.catching push' pop' y₁ y₂) := by
  intro v s s' hs
  have h := h₁ v s s' hs
  rw [Dynamic.catching, Environment.catching]
  rcases hx : x₁ v s with ⟨l, v', t⟩
  rcases hy : y₁ v s' with ⟨l', t'⟩
  rw [hx, hy] at h
  obtain ⟨hl, ht, hv⟩ := h
  cases hl with
  | returned => exact ⟨.returned, ht, hv⟩
  | thrown he =>
    obtain rfl : v' = v := hv nofun
    obtain ⟨hl', ht', hv'⟩ := h₂ v' _ _ (hpush _ _ t t' he ht)
    exact ⟨hl', hpop _ _ ht', hv'⟩
  | terminated => exact ⟨.terminated, ht, hv⟩

end Agrees

end Machine
