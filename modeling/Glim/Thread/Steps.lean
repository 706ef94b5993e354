import Mathlib.Logic.Function.Basic
import Mathlib.Tactic.Common

/-!
# Steps of a system

A system takes labelled steps from state to state; a step that is not enabled is `none`. A guard
says which steps may be taken in which state. A system of threads has a shared state and a program
point for each thread, and every step is one of a single thread.

## Main definitions

* `Steps`: the sequences of steps under a guard
* `runAll`: taking a list of steps
* `AllAlong`: what holds of every state that a list of steps goes through
* `recorded`: the steps of a system that keeps a record of them
* `Config`, `Config.step`: threads that run a program over a shared state

## Main results

* `Steps.invariant`: what every guarded step keeps, every sequence keeps
* `Steps.simulates`: the steps of another system that a sequence performs
* `Steps.allAlong`: and it holds of every state on the way
* `Steps.forget`: steps under a guard on the record are steps under one on the state
-/

namespace Thread

variable {σ L : Type}

/-- The sequences of steps whose labels satisfy `guard` in the state that they are taken from. -/
inductive Steps (step : L → σ → Option σ) (guard : L → σ → Prop) : σ → List L → σ → Prop
  | nil (s : σ) : Steps step guard s [] s
  | cons {s s' s'' : σ} {l : L} {ls : List L} (hg : guard l s) (hx : step l s = some s')
      (hr : Steps step guard s' ls s'') : Steps step guard s (l :: ls) s''

/-- Steps under no guard. -/
abbrev AllSteps (step : L → σ → Option σ) : σ → List L → σ → Prop := Steps step fun _ _ => True

/-- The state after a list of steps, if they are enabled one after the other. -/
def runAll (step : L → σ → Option σ) : List L → σ → Option σ
  | [], s => some s
  | l :: ls, s => (step l s).bind (runAll step ls)

section Steps

variable {step : L → σ → Option σ} {guard guard' : L → σ → Prop} {s s' s'' : σ} {ls ls' : List L}

/-- What every guarded step keeps, every sequence of steps keeps. -/
theorem Steps.invariant {I : σ → Prop}
    (hstep : ∀ l s s', I s → guard l s → step l s = some s' → I s')
    (hr : Steps step guard s ls s') (hs : I s) : I s' := by
  induction hr with
  | nil => exact hs
  | cons hg hx _ ih => exact ih (hstep _ _ _ hs hg hx)

theorem Steps.append (hr : Steps step guard s ls s') (hr' : Steps step guard s' ls' s'') :
    Steps step guard s (ls ++ ls') s'' := by
  induction hr with
  | nil => exact hr'
  | cons hg hx _ ih => exact .cons hg hx (ih hr')

theorem Steps.mono (hguard : ∀ l s, guard l s → guard' l s) (hr : Steps step guard s ls s') :
    Steps step guard' s ls s' := by
  induction hr with
  | nil => exact .nil _
  | cons hg hx _ ih => exact .cons (hguard _ _ hg) hx ih

/-- Steps whose labels satisfy a guard that does not look at the state. -/
theorem Steps.of_forall_mem {ok : L → Prop} (hr : AllSteps step s ls s')
    (hls : ∀ l ∈ ls, ok l) : Steps step (fun l _ => ok l) s ls s' := by
  induction hr with
  | nil => exact .nil _
  | cons _ hx _ ih =>
    obtain ⟨hl, hls⟩ := List.forall_mem_cons.mp hls
    exact .cons hl hx (ih hls)

/-- Steps that are steps of another system under an abstraction, where those without a label of the
other system do nothing. -/
theorem Steps.simulates {σ' L' : Type} {step' : L' → σ' → Option σ'} {f : σ → σ'}
    {label : L → Option L'}
    (hsome : ∀ l s s' l', label l = some l' → step l s = some s' → step' l' (f s) = some (f s'))
    (hnone : ∀ l s s', label l = none → step l s = some s' → f s' = f s)
    (hr : Steps step guard s ls s') : AllSteps step' (f s) (ls.filterMap label) (f s') := by
  induction hr with
  | nil => exact .nil _
  | @cons s s' s'' l ls _ hx _ ih =>
    cases hl : label l with
    | none =>
      rw [List.filterMap_cons_none hl, ← hnone l s s' hl hx]
      exact ih
    | some l' =>
      rw [List.filterMap_cons_some hl]
      exact .cons trivial (hsome l s s' l' hl hx) ih

/-- Every state that the steps of a list go through satisfies `I`. -/
def AllAlong (step : L → σ → Option σ) (I : σ → Prop) : List L → σ → Prop
  | [], s => I s
  | l :: ls, s => I s ∧ ∀ s', step l s = some s' → AllAlong step I ls s'

/-- An invariant of guarded steps holds all along. -/
theorem Steps.allAlong {I J : σ → Prop}
    (hstep : ∀ l s s', I s → guard l s → step l s = some s' → I s') (hJ : ∀ s, I s → J s)
    (hr : Steps step guard s ls s') (hs : I s) : AllAlong step J ls s := by
  induction hr with
  | nil => exact hJ _ hs
  | cons hg hx _ ih =>
    refine ⟨hJ _ hs, fun t ht => ?_⟩
    rw [hx] at ht
    obtain rfl := Option.some.inj ht
    exact ih (hstep _ _ _ hs hg hx)

/-- The steps of a list are a sequence of steps. -/
theorem steps_of_runAll (h : runAll step ls s = some s') : AllSteps step s ls s' := by
  induction ls generalizing s with
  | nil =>
    obtain rfl : s = s' := Option.some.inj h
    exact .nil s
  | cons l ls ih =>
    obtain ⟨t, hx, hrest⟩ := Option.bind_eq_some_iff.mp h
    exact .cons trivial hx (ih hrest)

/-- Taking a list of steps whose labels satisfy `guard`. -/
def runGuarded (step : L → σ → Option σ) (guard : L → σ → Prop) [∀ l s, Decidable (guard l s)] :
    List L → σ → Option σ
  | [], s => some s
  | l :: ls, s => if guard l s then (step l s).bind (runGuarded step guard ls) else none

theorem steps_of_runGuarded [∀ l s, Decidable (guard l s)]
    (h : runGuarded step guard ls s = some s') : Steps step guard s ls s' := by
  induction ls generalizing s with
  | nil =>
    obtain rfl : s = s' := Option.some.inj h
    exact .nil s
  | cons l ls ih =>
    unfold runGuarded at h
    split_ifs at h with hg
    obtain ⟨t, hx, hrest⟩ := Option.bind_eq_some_iff.mp h
    exact .cons hg hx (ih hrest)

/-- Steps one after the other, from an intermediate state. -/
theorem runAll_append : runAll step (ls ++ ls') s = some s'' ↔
    ∃ s', runAll step ls s = some s' ∧ runAll step ls' s' = some s'' := by
  induction ls generalizing s with
  | nil => simp [runAll]
  | cons l ls ih =>
    rw [List.cons_append, runAll, runAll]
    cases step l s with
    | none => simp
    | some t => exact ih

/-! ## Recorded steps -/

/-- A step that is recorded: the labels of the past steps, the latest in front. -/
def recorded (step : L → σ → Option σ) (l : L) (s : List L × σ) : Option (List L × σ) :=
  (step l s.2).map fun s' => (l :: s.1, s')

theorem recorded_eq_some_iff {l : L} {r r' : List L × σ} : recorded step l r = some r' ↔
    ∃ s', step l r.2 = some s' ∧ r' = (l :: r.1, s') := by
  unfold recorded
  rw [Option.map_eq_some_iff]
  exact exists_congr fun s' => and_congr_right fun _ => eq_comm

theorem Steps.recorded (hr : AllSteps step s ls s') (past : List L) :
    AllSteps (recorded step) (past, s) ls (ls.reverse ++ past, s') := by
  induction hr generalizing past with
  | nil => exact .nil _
  | cons _ hx _ ih =>
    rw [List.reverse_cons, List.append_assoc]
    exact .cons trivial (recorded_eq_some_iff.mpr ⟨_, hx, rfl⟩) (ih _)

/-- Recorded steps under a guard are steps under one that follows from it and an invariant. -/
theorem Steps.forget {guard : L → List L × σ → Prop} {guard' : L → σ → Prop}
    {I : List L × σ → Prop} {r r' : List L × σ}
    (hstep : ∀ l r r', I r → Thread.recorded step l r = some r' → I r')
    (hguard : ∀ l r, I r → guard l r → guard' l r.2)
    (hr : Steps (Thread.recorded step) guard r ls r') (hI : I r) :
    Steps step guard' r.2 ls r'.2 := by
  induction hr with
  | nil => exact .nil _
  | @cons r _ _ l _ hg hx _ ih =>
    have hI' := hstep _ _ _ hI hx
    obtain ⟨s', hx', rfl⟩ := recorded_eq_some_iff.mp hx
    exact .cons (hguard l r hI hg) hx' (ih hI')

end Steps

/-! ## Threads -/

/-- The shared state, and where each thread is in its program. -/
structure Config (ι σ π : Type) where
  shared : σ
  pc : ι → π

variable {ι π A : Type} [DecidableEq ι]

section Move

variable (c : Config ι σ π) (t : ι) (s : σ) (p : π)

/-- The thread `t` has gone to `p`, and left the shared state `s`. -/
def Config.move : Config ι σ π := ⟨s, Function.update c.pc t p⟩

@[simp] theorem Config.shared_move : (c.move t s p).shared = s := rfl

@[simp] theorem Config.pc_move_self : (c.move t s p).pc t = p := by
  simp [Config.move]

theorem Config.pc_move_of_ne {u : ι} (h : u ≠ t) : (c.move t s p).pc u = c.pc u := by
  simp [Config.move, h]

end Move

/-- A step of the thread `l.1`: the program gives the shared state and where the thread goes. -/
def Config.step (prog : π → A → σ → Option (σ × π)) (l : ι × A) (c : Config ι σ π) :
    Option (Config ι σ π) :=
  (prog (c.pc l.1) l.2 c.shared).map fun r => c.move l.1 r.1 r.2

/-- What a step does. -/
theorem Config.step_eq_some_iff {prog : π → A → σ → Option (σ × π)} {t : ι} {a : A}
    {c c' : Config ι σ π} : Config.step prog (t, a) c = some c' ↔
      ∃ s p, prog (c.pc t) a c.shared = some (s, p) ∧ c' = c.move t s p := by
  unfold Config.step
  rw [Option.map_eq_some_iff]
  constructor
  · rintro ⟨⟨s, p⟩, hx, rfl⟩
    exact ⟨s, p, hx, rfl⟩
  · rintro ⟨s, p, hx, rfl⟩
    exact ⟨(s, p), hx, rfl⟩

end Thread
