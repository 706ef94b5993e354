import Glim.Machine.Cells
import Glim.Table.Ring
import Glim.Thread.Steps

/-!
# Programs with iterators

A program makes iterators over something that changes, copies them, and moves them on and back. A
copy shares the cursor of the iterator it was made from, so that moving the one on moves the other.
An iterator can also be made from another one that is of no use then. Iterators that go round the
list of what they have seen when they were made are where the number of their moves has brought
them.

## Main definitions

* `Walker`: how iterators are made, and how they are moved
* `Walker.State`, `Walker.step`: programs
* `Rounds`: iterators that go round
* `Rounds.net`: how far an iterator was moved

## Main results

* `Rounds.pos_of_steps`: where an iterator is after a program
* `Rounds.isSome_step`: what a program can do
-/

namespace Table

open Machine Thread

/-- Iterators of the type `α` over what is of the type `ω`: how they are made, and how they are
moved. -/
structure Walker (ω α C M : Type) where
  make : C → ω → α
  move : M → α → Option α

namespace Walker

variable {ι ω α κ C M : Type}

/-- What a program does. -/
inductive Label (ι ω C M : Type) where
  /-- What is iterated over becomes another. -/
  | change (world : ω)
  | make (t : ι) (c : C)
  /-- `u` is a copy of `t` from now on. -/
  | copy (t u : ι)
  /-- `u` has what `t` had, and `t` is null from now on. -/
  | take (t u : ι)
  | move (t : ι) (m : M)
  deriving DecidableEq, Repr

/-- What is iterated over, and the iterators. -/
structure State (ι ω α : Type) where
  world : ω
  its : Cells ι α

variable [DecidableEq ι]

/-- The steps: only what was made is moved on. -/
def step (W : Walker ω α C M) : Label ι ω C M → State ι ω α → Option (State ι ω α)
  | .change world, s => some { s with world }
  | .make t c, s => some { s with its := s.its.new t (W.make c s.world) }
  | .copy t u, s => some { s with its := s.its.copy t u }
  | .take t u, s => some { s with its := s.its.take t u }
  | .move t m, s => do
    let x ← s.its.read t
    let x' ← W.move m x
    some { s with its := s.its.store t (some x') }

end Walker

open Walker

/-- Iterators that go round a list. Those that are made well have a position in a list of their own,
and a move goes so many positions further, or elsewhere. -/
structure Rounds {ω α C M : Type} (W : Walker ω α C M) (κ : Type) where
  Good : C → ω → Prop
  Inv : α → Prop
  keys : α → List κ
  pos : α → Option κ
  shift : M → Option ℤ
  make_inv : ∀ {c world}, Good c world → Inv (W.make c world)
  move_inv : ∀ {m x}, Inv x → ∃ x', W.move m x = some x' ∧ Inv x' ∧ keys x' = keys x
  move_pos : ∀ {m x x' n i}, Inv x → W.move m x = some x' → shift m = some n →
    pos x = Ring.pos (keys x) i → pos x' = Ring.pos (keys x) (i + n)

namespace Rounds

variable {ι ω α κ C M : Type} [DecidableEq ι] {W : Walker ω α C M} (R : Rounds W κ)

/-- The iterators are made well. -/
def Made : Label ι ω C M → State ι ω α → Prop
  | .make _ c, s => R.Good c s.world
  | _, _ => True

/-- The iterator is not assigned or taken, and neither it nor a copy goes elsewhere. -/
def Keeps (t : ι) : Label ι ω C M → State ι ω α → Prop
  | .change _, _ => True
  | .make u _, _ => u ≠ t
  | .copy _ u, _ => u ≠ t
  | .take u v, _ => u = v ∨ u ≠ t ∧ v ≠ t
  | .move u m, s => s.its.target u = s.its.target t → (R.shift m).isSome

/-- How far the iterator goes, by itself or by a copy. -/
def shiftOf (t : ι) (l : Label ι ω C M) (s : State ι ω α) : ℤ :=
  match l with
  | .move u m => if s.its.target u = s.its.target t then (R.shift m).getD 0 else 0
  | _ => 0

/-- How far the iterator goes in a program. -/
def net (t : ι) : List (Label ι ω C M) → State ι ω α → ℤ
  | [], _ => 0
  | l :: ls, s => R.shiftOf t l s + ((W.step l s).map (net t ls)).getD 0

/-- The iterators were made well. -/
def Sound (s : State ι ω α) : Prop := ∀ x ∈ s.its.cells, R.Inv x

variable {s s' : State ι ω α} {t : ι} {l : Label ι ω C M} {ls : List (Label ι ω C M)} {x : α}
  {i : ℤ}

omit [DecidableEq ι] in
theorem sound_empty (world : ω) : R.Sound (ι := ι) ⟨world, .empty⟩ := nofun

variable {R}

omit [DecidableEq ι] in
theorem Sound.inv_of_read (h : R.Sound s) (hx : s.its.read t = some x) : R.Inv x := by
  obtain ⟨a, -, ha⟩ := Cells.exists_target_of_read hx
  exact h x (List.mem_of_getElem? ha)

/-- A move of an iterator. -/
theorem exists_of_move {m : M} (h : R.Sound s) (hx : W.step (.move t m) s = some s') :
    ∃ x x', s.its.read t = some x ∧ W.move m x = some x' ∧ R.Inv x ∧ R.Inv x' ∧
      R.keys x' = R.keys x ∧ s' = { s with its := s.its.store t (some x') } := by
  rw [step] at hx
  obtain ⟨x, hread, hx⟩ := Option.bind_eq_some_iff.mp hx
  obtain ⟨x', hmove, hx⟩ := Option.bind_eq_some_iff.mp hx
  obtain ⟨x'', hmove', hinv', hkeys⟩ := R.move_inv (m := m) (h.inv_of_read hread)
  obtain rfl := Option.some.inj (hmove.symm.trans hmove')
  exact ⟨x, x', hread, hmove, h.inv_of_read hread, hinv', hkeys, (Option.some.inj hx).symm⟩

/-- The iterators stay well made. -/
theorem sound_step (h : R.Sound s) (hl : R.Made l s) (hx : W.step l s = some s') : R.Sound s' := by
  cases l with
  | change world =>
    obtain rfl := Option.some.inj hx
    exact h
  | make u c =>
    obtain rfl := Option.some.inj hx
    intro y hy
    rcases List.mem_append.mp hy with hy | hy
    · exact h y hy
    · rw [List.mem_singleton.mp hy]
      exact R.make_inv hl
  | copy u v =>
    obtain rfl := Option.some.inj hx
    exact h
  | take u v =>
    obtain rfl := Option.some.inj hx
    intro y hy
    exact h y (by rwa [Cells.cells_take] at hy)
  | move u m =>
    obtain ⟨x, x', -, -, -, hinv', -, rfl⟩ := exists_of_move h hx
    intro y hy
    rcases Cells.mem_cells_store hy with rfl | hy
    · exact hinv'
    · exact h y hy

theorem sound_of_steps {guard : Label ι ω C M → State ι ω α → Prop}
    (hguard : ∀ l s, guard l s → R.Made l s) (hr : Steps W.step guard s ls s') (h : R.Sound s) :
    R.Sound s' :=
  hr.invariant (fun l _ _ h hg hx => sound_step h (hguard l _ hg) hx) h

/-- **Everything is possible in a program**, but moving an iterator on that was not made, or was
taken. -/
theorem isSome_step (h : R.Sound s) :
    (W.step l s).isSome ↔ ∀ u m, l = .move u m → (s.its.read u).isSome := by
  cases l with
  | move u m =>
    cases hread : s.its.read u with
    | none => simp [step, hread]
    | some x =>
      obtain ⟨x', hmove, -⟩ := R.move_inv (m := m) (h.inv_of_read hread)
      simp [step, hread, hmove]
  | _ => simp [step]

/-- Where an iterator is after a step. -/
theorem pos_step (h : R.Sound s) (hkeeps : R.Keeps t l s) (hx : W.step l s = some s')
    (hread : s.its.read t = some x) (hpos : R.pos x = Ring.pos (R.keys x) i) :
    ∃ x', s'.its.read t = some x' ∧ R.keys x' = R.keys x ∧
      R.pos x' = Ring.pos (R.keys x) (i + R.shiftOf t l s) := by
  obtain ⟨a, ht, ha⟩ := Cells.exists_target_of_read hread
  -- what leaves the iterator and its cell
  have hstay (its : Cells ι α) (ht' : its.target t = some a) (ha' : its.cells[a]? = some x) :
      ∃ x', its.read t = some x' ∧ R.keys x' = R.keys x ∧
        R.pos x' = Ring.pos (R.keys x) (i + 0) :=
    ⟨x, (Cells.read_of_target ht').trans ha', rfl, by rw [add_zero, hpos]⟩
  cases l with
  | change world =>
    obtain rfl := Option.some.inj hx
    exact hstay _ ht ha
  | make u c =>
    obtain rfl := Option.some.inj hx
    refine hstay _ ?_ (Cells.getElem?_new ha)
    exact (Function.update_of_ne (Ne.symm hkeeps) _ _).trans ht
  | copy u v =>
    obtain rfl := Option.some.inj hx
    refine hstay _ ?_ ha
    exact (Function.update_of_ne (Ne.symm hkeeps) _ _).trans ht
  | take u v =>
    obtain rfl := Option.some.inj hx
    refine hstay _ ((Cells.target_take_of_ne hkeeps).trans ht) ?_
    rw [Cells.cells_take]
    exact ha
  | move u m =>
    obtain ⟨y, y', hy, hmove, hinv, -, hkeys, rfl⟩ := exists_of_move h hx
    rw [shiftOf]
    split_ifs with hu
    · -- the iterator that is moved has the cursor of this one
      obtain rfl : x = y := by
        rw [Cells.read, hu] at hy
        exact Option.some.inj (hread.symm.trans hy)
      obtain ⟨n, hn⟩ := Option.isSome_iff_exists.mp (hkeeps hu)
      refine ⟨y', Cells.read_store_of_shares (hu.trans ht) hu.symm, hkeys, ?_⟩
      rw [hn]
      exact R.move_pos hinv hmove hn hpos
    · have hne : s.its.target u ≠ some a := fun hua => hu (hua.trans ht.symm)
      refine hstay _ ?_ (Cells.getElem?_store_of_ne hne ha)
      rw [Cells.target_store_of_ne]
      · exact ht
      · rintro rfl
        exact hu rfl

/-- **Where an iterator is after a program**: where the moves have brought it, its own and those of
its copies, whatever has become of what it iterates over, and of the other iterators. -/
theorem pos_of_steps {guard : Label ι ω C M → State ι ω α → Prop}
    (hguard : ∀ l s, guard l s → R.Made l s ∧ R.Keeps t l s) (hr : Steps W.step guard s ls s')
    (h : R.Sound s) (hread : s.its.read t = some x) (hpos : R.pos x = Ring.pos (R.keys x) i) :
    ∃ x', s'.its.read t = some x' ∧ R.keys x' = R.keys x ∧
      R.pos x' = Ring.pos (R.keys x) (i + R.net t ls s) := by
  induction hr generalizing x i with
  | nil => exact ⟨x, hread, rfl, by rw [net, add_zero, hpos]⟩
  | @cons s s₁ s' l ls hg hx hr ih =>
    obtain ⟨hmade, hkeeps⟩ := hguard l s hg
    obtain ⟨x₁, hread₁, hkeys₁, hpos₁⟩ := pos_step h hkeeps hx hread hpos
    rw [← hkeys₁] at hpos₁
    obtain ⟨x', hread', hkeys', hpos'⟩ := ih (sound_step h hmade hx) hread₁ hpos₁
    refine ⟨x', hread', hkeys'.trans hkeys₁, ?_⟩
    rw [net, hx, hpos', hkeys₁, add_assoc]
    rfl

end Rounds

end Table
