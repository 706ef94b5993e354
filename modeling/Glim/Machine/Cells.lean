import Mathlib.Tactic.Common

/-!
# Shared cells

Names that are null, or point to a cell. Several names can point to one cell, and what is written
through one of them is read through all. A cell that no name points to is never found again.

## Main definitions

* `Cells`: cells and the names that point to them
* `Cells.read`, `Cells.store`: through a name
* `Cells.new`, `Cells.clear`, `Cells.copy`, `Cells.take`: what a name points to

## Main results

* `Cells.exists_target_of_read`: what is read is in the cell that the name points to
* `Cells.read_store_of_shares`: what is stored is read through the names that share the cell
* `Cells.getElem?_store_of_ne`: a cell changes through the names that point to it only
-/

namespace Machine

/-- Cells, and names that are null or point to one of them. -/
structure Cells (ι α : Type) where
  cells : List α
  target : ι → Option ℕ
  bound : ∀ i a, target i = some a → a < cells.length

namespace Cells

variable {ι α : Type}

/-- All names are null. -/
def empty : Cells ι α := ⟨[], fun _ => none, by simp⟩

/-- What is in the cell that the name points to. -/
def read (c : Cells ι α) (i : ι) : Option α := (c.target i).bind (c.cells[·]?)

variable {c : Cells ι α} {i j : ι} {x : Option α} {y z : α} {a : ℕ}

theorem read_of_target (h : c.target i = some a) : c.read i = c.cells[a]? := by
  rw [read, h]
  rfl

theorem read_of_null (h : c.target i = none) : c.read i = none := by
  rw [read, h]
  rfl

theorem isSome_read : (c.read i).isSome = (c.target i).isSome := by
  cases h : c.target i with
  | none =>
    rw [read_of_null h]
    rfl
  | some a =>
    rw [read_of_target h, List.getElem?_eq_getElem (c.bound i a h)]
    rfl

/-- A cell is read through every name that points to it. -/
theorem exists_target_of_read (h : c.read i = some y) :
    ∃ a, c.target i = some a ∧ c.cells[a]? = some y := by
  cases hi : c.target i with
  | none =>
    rw [read_of_null hi] at h
    cases h
  | some a =>
    rw [read_of_target hi] at h
    exact ⟨a, rfl, h⟩

variable [DecidableEq ι]

/-- The name points to a new cell. -/
def new (i : ι) (x : α) (c : Cells ι α) : Cells ι α where
  cells := c.cells ++ [x]
  target := Function.update c.target i (some c.cells.length)
  bound j a h := by
    rw [List.length_append, List.length_singleton]
    by_cases hj : j = i
    · rw [hj, Function.update_self] at h
      obtain rfl := Option.some.inj h
      exact Nat.lt_succ_self _
    · rw [Function.update_of_ne hj] at h
      exact Nat.lt_succ_of_lt (c.bound j a h)

/-- The name is null. -/
def clear (i : ι) (c : Cells ι α) : Cells ι α where
  cells := c.cells
  target := Function.update c.target i none
  bound j a h := by
    by_cases hj : j = i
    · rw [hj, Function.update_self] at h
      cases h
    · rw [Function.update_of_ne hj] at h
      exact c.bound j a h

/-- `j` points to where `i` points, or is null, too. -/
def copy (i j : ι) (c : Cells ι α) : Cells ι α where
  cells := c.cells
  target := Function.update c.target j (c.target i)
  bound k a h := by
    by_cases hk : k = j
    · rw [hk, Function.update_self] at h
      exact c.bound i a h
    · rw [Function.update_of_ne hk] at h
      exact c.bound k a h

/-- `j` points to where `i` has pointed, and `i` is null, unless it is the same name. -/
def take (i j : ι) (c : Cells ι α) : Cells ι α :=
  if i = j then c else (c.copy i j).clear i

@[simp] theorem cells_take : (c.take i j).cells = c.cells := by
  rw [take]
  split_ifs <;> rfl

/-- What points to where it has pointed. -/
theorem target_take_of_ne {k : ι} (h : i = j ∨ i ≠ k ∧ j ≠ k) :
    (c.take i j).target k = c.target k := by
  rw [take]
  split_ifs with hij
  · rfl
  · obtain ⟨hi, hj⟩ := h.resolve_left hij
    exact (Function.update_of_ne hi.symm _ _).trans (Function.update_of_ne hj.symm _ _)

/-- Another thing in a cell. -/
def set (a : ℕ) (x : α) (c : Cells ι α) : Cells ι α where
  cells := c.cells.set a x
  target := c.target
  bound j b h := by
    rw [List.length_set]
    exact c.bound j b h

/-- What is to be behind the name: in its cell, or in a new one if it is null. -/
def store (i : ι) (x : Option α) (c : Cells ι α) : Cells ι α :=
  match x with
  | none => c
  | some x =>
    match c.target i with
    | none => c.new i x
    | some a => c.set a x

@[simp] theorem store_none : c.store i none = c := rfl

theorem store_of_null (h : c.target i = none) : c.store i (some y) = c.new i y := by
  rw [store, h]

theorem cells_store (h : c.target i = some a) :
    (c.store i (some y)).cells = c.cells.set a y := by
  rw [store, h]
  rfl

theorem target_store (h : c.target i = some a) : (c.store i x).target = c.target := by
  cases x with
  | none => rfl
  | some y =>
    rw [store, h]
    rfl

theorem target_store_of_ne (h : j ≠ i) : (c.store i x).target j = c.target j := by
  cases x with
  | none => rw [store_none]
  | some y =>
    cases hi : c.target i with
    | none =>
      rw [store_of_null hi]
      exact Function.update_of_ne h _ _
    | some a => rw [target_store hi]

/-- A cell stays where it is when there are new ones. -/
theorem getElem?_new (h : c.cells[a]? = some z) : (c.new i y).cells[a]? = some z := by
  rw [new, List.getElem?_append_left (List.getElem?_eq_some_iff.mp h).1]
  exact h

/-- **A cell changes** through the names that point to it only. -/
theorem getElem?_store_of_ne (hne : c.target i ≠ some a) (h : c.cells[a]? = some z) :
    (c.store i x).cells[a]? = some z := by
  cases x with
  | none =>
    rw [store_none]
    exact h
  | some y =>
    cases hi : c.target i with
    | none =>
      rw [store_of_null hi]
      exact getElem?_new h
    | some b =>
      have hba : b ≠ a := fun hba => hne (hi.trans (congrArg some hba))
      rw [cells_store hi, List.getElem?_set_ne hba]
      exact h

/-- What is stored through a name is read through all the names that point to its cell. -/
theorem read_store_of_shares (h : c.target i = some a) (hj : c.target j = c.target i) :
    (c.store i (some y)).read j = some y := by
  rw [read_of_target ((congrFun (target_store h) j).trans (hj.trans h)), cells_store h]
  exact List.getElem?_set_self (c.bound i a h)

/-- What is in the cells is what was in them, or what is stored. -/
theorem mem_cells_store (hz : z ∈ (c.store i (some y)).cells) : z = y ∨ z ∈ c.cells := by
  cases h : c.target i with
  | none =>
    rw [store_of_null h, new] at hz
    exact (List.mem_append.mp hz).symm.imp_left List.mem_singleton.mp
  | some a =>
    rw [cells_store h] at hz
    exact (List.mem_or_eq_of_mem_set hz).symm

end Cells

end Machine
