import Mathlib.Tactic.Common

/-!
# Recursive mutexes

A recursive mutex is free, or a thread has locked it so many times; only that thread can lock it
once more, or unlock it.

## Main definitions

* `RecursiveMutex`, `RecursiveMutex.lock`, `RecursiveMutex.unlock`

## Main results

* `RecursiveMutex.lock_heldBy`, `RecursiveMutex.lock_of_ne`: who can lock it once more
-/

namespace Thread

variable {ι : Type}

/-- The thread that has locked the mutex, and how many times it has done so once more. -/
structure RecursiveMutex (ι : Type) where
  holder : Option (ι × ℕ) := none
  deriving DecidableEq, Repr

namespace RecursiveMutex

/-- The thread `t` has locked the mutex `n + 1` times. -/
def heldBy (t : ι) (n : ℕ) : RecursiveMutex ι := ⟨some (t, n)⟩

/-- The mutex is free. -/
def free : RecursiveMutex ι := ⟨none⟩

def owner (m : RecursiveMutex ι) : Option ι := m.holder.map Prod.fst

@[simp] theorem owner_heldBy (t : ι) (n : ℕ) : (heldBy t n).owner = some t := rfl

@[simp] theorem owner_free : (free : RecursiveMutex ι).owner = none := rfl

variable [DecidableEq ι]

/-- The mutex after `lock` by `t`, if `t` does not have to wait. -/
def lock (t : ι) (m : RecursiveMutex ι) : Option (RecursiveMutex ι) :=
  match m.holder with
  | none => some (heldBy t 0)
  | some (u, n) => if u = t then some (heldBy t (n + 1)) else none

/-- The mutex after `unlock` by `t`, which must have locked it. -/
def unlock (t : ι) (m : RecursiveMutex ι) : Option (RecursiveMutex ι) :=
  match m.holder with
  | none => none
  | some (u, 0) => if u = t then some free else none
  | some (u, n + 1) => if u = t then some (heldBy t n) else none

variable (t : ι) (n : ℕ)

@[simp] theorem lock_free : free.lock t = some (heldBy t 0) := rfl

@[simp] theorem lock_heldBy : (heldBy t n).lock t = some (heldBy t (n + 1)) := if_pos rfl

@[simp] theorem unlock_zero : (heldBy t 0).unlock t = some free := if_pos rfl

@[simp] theorem unlock_succ : (heldBy t (n + 1)).unlock t = some (heldBy t n) := if_pos rfl

variable {t n} {u : ι}

/-- Another thread has to wait. -/
theorem lock_of_ne (h : u ≠ t) : (heldBy u n).lock t = none := if_neg h

end RecursiveMutex

end Thread
