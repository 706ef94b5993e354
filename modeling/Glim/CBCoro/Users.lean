import Glim.Thread.Steps
import Mathlib.Data.Finset.Card
import Mathlib.Data.Int.Notation

/-!
# The users of a coroutine

The constructor of a `CBCoroPtr` counts it in `_users`, and the destructor takes it out of the
count and deletes the coroutine at zero. The copy constructor is the one of the compiler, and does
not count. Without copies the count is the number of handles, and the coroutine is deleted with the
last one of them; with the first copy this ends.

## Main definitions

* `Users`: the counter of a coroutine and its handles
* `Users.Life`: the count is right, and the coroutine is deleted when it should be
* `Users.step`: creating, copying and destroying handles

## Main results

* `Users.Life.create`, `Users.Life.destroy`: what creating and destroying a handle does
* `Users.counted_iff`: the count is right at every point exactly if no handle is copied
-/

namespace Glim.CBCoro

open Thread

variable {α : Type}

/-- `_users` and `_delete`, the handles that live, and how many times the coroutine was deleted. -/
structure Users (α : Type) where
  users : ℤ := 0
  delete : Bool := true
  live : Finset α := ∅
  deletions : ℕ := 0

namespace Users

variable [DecidableEq α]

/-- `CBCoroPtr (coro)`. -/
def create (h : α) (u : Users α) : Users α :=
  { u with users := u.users + 1, live := insert h u.live }

/-- The copy constructor of `CBCoroPtr`: the copy `h` has the same `_coro`. -/
def copy (h : α) (u : Users α) : Users α := { u with live := insert h u.live }

/-- `~CBCoroPtr()`. -/
def destroy (h : α) (u : Users α) : Users α :=
  { u with
    users := u.users - 1
    live := u.live.erase h
    deletions := if u.users - 1 ≤ 0 ∧ u.delete = true then u.deletions + 1 else u.deletions }

/-- The count is the number of handles, and the coroutine is deleted when there are none. -/
inductive Life (u : Users α) : Prop
  | held (hlive : u.live.Nonempty) (husers : u.users = u.live.card) (hdeletions : u.deletions = 0)
      (hdelete : u.delete = true)
  | gone (hlive : u.live = ∅) (husers : u.users = 0) (hdeletions : u.deletions = 1)

/-- The first handle. -/
theorem life_first (h : α) : (create h {}).Life := by
  refine .held (Finset.insert_nonempty h ∅) ?_ rfl rfl
  change (0 : ℤ) + 1 = (insert h (∅ : Finset α)).card
  rw [Finset.card_insert_of_notMem (Finset.notMem_empty h)]
  rfl

namespace Life

variable {u : Users α} {h : α}

omit [DecidableEq α] in
theorem users_eq (hu : u.Life) : u.users = u.live.card := by
  rcases hu with ⟨-, husers, -⟩ | ⟨hlive, husers, -⟩
  · exact husers
  · rw [husers, hlive]
    rfl

omit [DecidableEq α] in
theorem deletions_le (hu : u.Life) : u.deletions ≤ 1 := by
  rcases hu with ⟨-, -, hdeletions, -⟩ | ⟨-, -, hdeletions⟩
  · exact hdeletions.trans_le (Nat.zero_le 1)
  · exact hdeletions.le

omit [DecidableEq α] in
/-- While a handle lives, the coroutine is not deleted. -/
theorem deletions_eq_zero (hu : u.Life) (hlive : u.live.Nonempty) : u.deletions = 0 := by
  rcases hu with ⟨-, -, hdeletions, -⟩ | ⟨hempty, -⟩
  · exact hdeletions
  · exact absurd hempty hlive.ne_empty

omit [DecidableEq α] in
/-- When no handle lives, the coroutine is deleted. -/
theorem deletions_eq_one (hu : u.Life) (hempty : u.live = ∅) : u.deletions = 1 := by
  rcases hu with ⟨hlive, -⟩ | ⟨-, -, hdeletions⟩
  · exact absurd hempty hlive.ne_empty
  · exact hdeletions

/-- A handle is created while the coroutine is there. -/
theorem create (hu : u.Life) (hmem : h ∉ u.live) (hzero : u.deletions = 0) :
    (u.create h).Life := by
  rcases hu with ⟨-, husers, -, hdelete⟩ | ⟨-, -, hdeletions⟩
  · refine .held (Finset.insert_nonempty h u.live) ?_ hzero hdelete
    change u.users + 1 = (insert h u.live).card
    rw [Finset.card_insert_of_notMem hmem, husers]
    rfl
  · rw [hzero] at hdeletions
    cases hdeletions

/-- A handle is destroyed, with the coroutine if it is the last one. -/
theorem destroy (hu : u.Life) (hmem : h ∈ u.live) : (u.destroy h).Life := by
  have hcard : u.users - 1 = (u.live.erase h).card := by
    have hpos := Finset.card_pos.mpr ⟨h, hmem⟩
    rw [Finset.card_erase_of_mem hmem, hu.users_eq]
    omega
  rcases hu with ⟨-, -, hdeletions, hdelete⟩ | ⟨hempty, -⟩
  · rcases (u.live.erase h).eq_empty_or_nonempty with hlast | hne
    · have hzero : u.users - 1 = 0 := by
        rw [hcard, hlast]
        rfl
      refine .gone hlast hzero ?_
      change ite _ _ _ = 1
      rw [if_pos ⟨hzero.le, hdelete⟩, hdeletions]
    · have hpos := Finset.card_pos.mpr hne
      refine .held hne hcard ?_ hdelete
      change ite _ _ _ = 0
      rw [if_neg (by omega), hdeletions]
  · rw [hempty] at hmem
    exact absurd hmem (Finset.notMem_empty h)

end Life

/-! ## Sequences of handles -/

/-- What happens to the handles. -/
inductive Event (α : Type) where
  | create (h : α)
  /-- The handle `h'` is made from the handle `h`. -/
  | copy (h h' : α)
  | destroy (h : α)
  deriving DecidableEq, Repr

def Event.isCopy : Event α → Bool
  | .copy _ _ => true
  | _ => false

/-- A handle is created from a coroutine that has not been deleted, copied from one that lives, and
destroyed once. -/
def step (e : Event α) (u : Users α) : Option (Users α) :=
  match e with
  | .create h => if h ∉ u.live ∧ u.deletions = 0 then some (u.create h) else none
  | .copy h h' => if h ∈ u.live ∧ h' ∉ u.live then some (u.copy h') else none
  | .destroy h => if h ∈ u.live then some (u.destroy h) else none

/-- What `CBCoroPtr` is for, after the events `es`. -/
structure Counted (es : List (Event α)) (u : Users α) : Prop where
  users_eq : u.users = u.live.card
  held : u.live.Nonempty → u.deletions = 0
  gone : u.live = ∅ → es ≠ [] → u.deletions = 1

variable {u u' : Users α} {e : Event α} {es : List (Event α)}

omit [DecidableEq α] in
theorem Life.counted (hu : u.Life) : Counted es u :=
  ⟨hu.users_eq, hu.deletions_eq_zero, fun hempty _ => hu.deletions_eq_one hempty⟩

/-- Creating and destroying keep the count. -/
theorem life_step (hu : u.Life) (he : e.isCopy = false) (hx : step e u = some u') : u'.Life := by
  unfold step at hx
  cases e with
  | create h =>
    simp only at hx
    split_ifs at hx with hcond
    cases hx
    exact hu.create hcond.1 hcond.2
  | copy h h' => cases he
  | destroy h =>
    simp only at hx
    split_ifs at hx with hmem
    cases hx
    exact hu.destroy hmem

/-- There is nothing to copy or to destroy at first. -/
theorem life_step_first (hx : step e {} = some u) : u.Life := by
  unfold step at hx
  cases e with
  | create h =>
    simp only at hx
    split_ifs at hx
    cases hx
    exact life_first h
  | copy h h' =>
    simp only at hx
    split_ifs at hx with hcond
    exact absurd hcond.1 (Finset.notMem_empty h)
  | destroy h =>
    simp only at hx
    split_ifs at hx with hmem
    exact absurd hmem (Finset.notMem_empty h)

theorem life_runAll (hu : u.Life) (hes : ∀ e ∈ es, e.isCopy = false)
    (hx : runAll step es u = some u') : u'.Life := by
  induction es generalizing u with
  | nil =>
    cases hx
    exact hu
  | cons e es ih =>
    obtain ⟨v, hv, hx⟩ := Option.bind_eq_some_iff.mp hx
    rw [List.forall_mem_cons] at hes
    exact ih (life_step hu hes.1 hv) hes.2 hx

/-- Without copies the count is right. -/
theorem counted_runAll (hes : ∀ e ∈ es, e.isCopy = false) (hx : runAll step es {} = some u) :
    Counted es u := by
  cases es with
  | nil =>
    cases hx
    exact ⟨rfl, fun _ => rfl, fun _ hne => absurd rfl hne⟩
  | cons e es =>
    obtain ⟨v, hv, hx⟩ := Option.bind_eq_some_iff.mp hx
    rw [List.forall_mem_cons] at hes
    exact (life_runAll (life_step_first hv) hes.2 hx).counted

/-- A copy is one handle more, and is not counted. -/
theorem not_counted_copy {h h' : α} (hu : u.users = u.live.card)
    (hx : step (.copy h h') u = some u') : u'.users ≠ u'.live.card := by
  simp only [step] at hx
  split_ifs at hx with hcond
  cases hx
  change u.users ≠ (insert h' u.live).card
  rw [Finset.card_insert_of_notMem hcond.2, hu]
  omega

/-- **The handles are counted**, and the coroutine is deleted with the last one and not before, at
every point of a sequence of events exactly if no handle is copied in it. -/
theorem counted_iff (es : List (Event α)) (u : Users α) (hx : runAll step es {} = some u) :
    (∀ before after u', es = before ++ after → runAll step before {} = some u' →
      Counted before u') ↔ ∀ e ∈ es, e.isCopy = false := by
  constructor
  · intro hcounted e he
    obtain ⟨before, after, rfl⟩ := List.append_of_mem he
    cases e with
    | create h => rfl
    | destroy h => rfl
    | copy h h' =>
      -- the count is right before the copy, and wrong after it
      obtain ⟨u₁, hx₁, hx₂⟩ := runAll_append.mp hx
      obtain ⟨u₂, hcopy, -⟩ := Option.bind_eq_some_iff.mp hx₂
      have hbefore := hcounted before _ u₁ rfl hx₁
      have hafter := hcounted (before ++ [.copy h h']) after u₂ (by simp)
        (runAll_append.mpr ⟨u₁, hx₁, by rw [runAll, hcopy]; rfl⟩)
      exact absurd hafter.users_eq (not_counted_copy hbefore.users_eq hcopy)
  · rintro hes before after u' rfl hx'
    exact counted_runAll (fun e he => hes e (List.mem_append_left _ he)) hx'

/-- Two handles are created, as `start` and `yieldForCallback` do, and destroyed. -/
theorem counted_iff_two :
    let es : List (Event ℕ) := [.create 0, .create 1, .destroy 0, .destroy 1]
    ∃ u, runAll step es {} = some u ∧ u.deletions = 1 ∧
      ∀ before after u', es = before ++ after → runAll step before {} = some u' →
        Counted before u' := by
  intro es
  obtain ⟨u, hx⟩ : ∃ u, runAll step es {} = some u := ⟨_, rfl⟩
  refine ⟨u, hx, ?_, (counted_iff es u hx).mpr (by decide)⟩
  cases hx
  rfl

/-- A returned handle is stored by copying it: the coroutine is deleted with the returned handle,
and once more with the copy. -/
theorem copy_uncounted :
    (∃ u, runAll step [.create 0, .copy 0 1] ({} : Users ℕ) = some u ∧
      u.users = 1 ∧ u.live.card = 2) ∧
    (∃ u, runAll step [.create 0, .copy 0 1, .destroy 0] ({} : Users ℕ) = some u ∧
      1 ∈ u.live ∧ u.deletions = 1) ∧
    ∃ u, runAll step [.create 0, .copy 0 1, .destroy 0, .destroy 1] ({} : Users ℕ) = some u ∧
      u.deletions = 2 :=
  ⟨⟨_, rfl, rfl, rfl⟩, ⟨_, rfl, by decide, rfl⟩, _, rfl, rfl⟩

end Users

end Glim.CBCoro
