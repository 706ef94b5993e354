import Mathlib.Tactic.Common
import Mathlib.Data.List.Count

/-!
# A ledger of resources

A ledger records which resources were acquired and released, and which dependents were attached to
an open resource and detached from it, the newest entry first. It is proper if every entry was
allowed when it was made: a resource is released once, and only when nothing is attached to it.

## Main definitions

* `Entry`: what is recorded
* `Ledger.Open`, `Ledger.Attached`: what has not been released, and not been detached
* `Ledger.Proper`: every entry was allowed

## Main results

* `Proper.countP_releases`: a resource that was acquired is open, or was released exactly once
* `Proper.countP_detaches`: a dependent is attached, or was detached exactly once
* `Proper.detach_mem`: what was attached to a resource was detached before the release
-/

namespace Machine

/-- An entry. A release says how the resource was given up. -/
inductive Entry (R D τ : Type) where
  | acquire (r : R)
  | release (r : R) (how : τ)
  | attach (d : D) (r : R)
  | detach (d : D)
  deriving DecidableEq, Repr

variable {R D τ : Type}

namespace Entry

/-- The entry releases `r`. -/
def releases [DecidableEq R] (r : R) : Entry R D τ → Bool
  | release r' _ => r' = r
  | _ => false

/-- The entry detaches `d`. -/
def detaches [DecidableEq D] (d : D) : Entry R D τ → Bool
  | detach d' => d' = d
  | _ => false

end Entry

namespace Ledger

/-- The resource was acquired, and not released. -/
def Open (log : List (Entry R D τ)) (r : R) : Prop :=
  .acquire r ∈ log ∧ ∀ how, .release r how ∉ log

/-- The dependent was attached to the resource, and not detached. -/
def Attached (log : List (Entry R D τ)) (d : D) (r : R) : Prop :=
  .attach d r ∈ log ∧ .detach d ∉ log

/-- What may be recorded next. -/
def Allowed (log : List (Entry R D τ)) : Entry R D τ → Prop
  | .acquire r => .acquire r ∉ log
  | .release r _ => Open log r ∧ ∀ d, ¬ Attached log d r
  | .attach d r => Open log r ∧ ∀ r', .attach d r' ∉ log
  | .detach d => ∃ r, Attached log d r

/-- Every entry was allowed when it was made. -/
def Proper : List (Entry R D τ) → Prop
  | [] => True
  | e :: log => Allowed log e ∧ Proper log

variable {log : List (Entry R D τ)} {r r' : R} {d d' : D} {how : τ}

/-! ## What entries imply -/

theorem Proper.acquire_mem (hp : Proper log) (hr : .release r how ∈ log) : .acquire r ∈ log := by
  induction log with
  | nil => cases hr
  | cons e log ih =>
    rcases List.mem_cons.mp hr with rfl | hmem
    · exact List.mem_cons_of_mem _ hp.1.1.1
    · exact List.mem_cons_of_mem _ (ih hp.2 hmem)

theorem Proper.attach_mem (hp : Proper log) (hd : .detach d ∈ log) : ∃ r, .attach d r ∈ log := by
  induction log with
  | nil => cases hd
  | cons e log ih =>
    rcases List.mem_cons.mp hd with rfl | hmem
    · obtain ⟨r, hattached⟩ := hp.1
      exact ⟨r, List.mem_cons_of_mem _ hattached.1⟩
    · obtain ⟨r, hr⟩ := ih hp.2 hmem
      exact ⟨r, List.mem_cons_of_mem _ hr⟩

/-- A dependent is attached to one resource. -/
theorem Proper.attach_unique (hp : Proper log) (hr : .attach d r ∈ log)
    (hr' : .attach d r' ∈ log) : r = r' := by
  induction log with
  | nil => cases hr
  | cons e log ih =>
    rcases List.mem_cons.mp hr with rfl | hmem
    · rcases List.mem_cons.mp hr' with heq | hmem'
      · cases heq
        rfl
      · exact absurd hmem' (hp.1.2 r')
    · rcases List.mem_cons.mp hr' with rfl | hmem'
      · exact absurd hmem (hp.1.2 r)
      · exact ih hp.2 hmem hmem'

/-! ## What an entry changes -/

section Cons

theorem open_acquire (hp : Proper log) (hnew : .acquire r ∉ log) :
    Open (.acquire r :: log) r' ↔ r' = r ∨ Open log r' := by
  constructor
  · rintro ⟨hmem, hnot⟩
    rcases List.mem_cons.mp hmem with heq | hmem
    · cases heq
      exact Or.inl rfl
    · exact Or.inr ⟨hmem, fun how hrel => hnot how (List.mem_cons_of_mem _ hrel)⟩
  · rintro (rfl | ⟨hmem, hnot⟩)
    · refine ⟨List.mem_cons_self, fun how hrel => ?_⟩
      exact hnew (hp.acquire_mem ((List.mem_cons.mp hrel).resolve_left nofun))
    · exact ⟨List.mem_cons_of_mem _ hmem, fun how hrel =>
        hnot how ((List.mem_cons.mp hrel).resolve_left nofun)⟩

theorem open_release : Open (.release r how :: log) r' ↔ Open log r' ∧ r' ≠ r := by
  constructor
  · rintro ⟨hmem, hnot⟩
    refine ⟨⟨(List.mem_cons.mp hmem).resolve_left nofun, fun how hrel =>
      hnot how (List.mem_cons_of_mem _ hrel)⟩, ?_⟩
    rintro rfl
    exact hnot how List.mem_cons_self
  · rintro ⟨⟨hmem, hnot⟩, hne⟩
    refine ⟨List.mem_cons_of_mem _ hmem, fun how hrel => ?_⟩
    rcases List.mem_cons.mp hrel with heq | hrel
    · cases heq
      exact hne rfl
    · exact hnot how hrel

theorem open_attach : Open (.attach d r :: log) r' ↔ Open log r' := by
  simp [Open]

theorem open_detach : Open (.detach d :: log) r' ↔ Open log r' := by
  simp [Open]

theorem attached_acquire : Attached (.acquire r :: log) d r' ↔ Attached log d r' := by
  simp [Attached]

theorem attached_release : Attached (.release r how :: log) d r' ↔ Attached log d r' := by
  simp [Attached]

theorem attached_attach (hp : Proper log) (hnew : ∀ r', .attach d r' ∉ log) :
    Attached (.attach d r :: log) d' r' ↔ d' = d ∧ r' = r ∨ Attached log d' r' := by
  constructor
  · rintro ⟨hmem, hnot⟩
    rcases List.mem_cons.mp hmem with heq | hmem
    · cases heq
      exact Or.inl ⟨rfl, rfl⟩
    · exact Or.inr ⟨hmem, fun hdet => hnot (List.mem_cons_of_mem _ hdet)⟩
  · rintro (⟨rfl, rfl⟩ | ⟨hmem, hnot⟩)
    · refine ⟨List.mem_cons_self, fun hdet => ?_⟩
      obtain ⟨s, hs⟩ := hp.attach_mem ((List.mem_cons.mp hdet).resolve_left nofun)
      exact hnew s hs
    · exact ⟨List.mem_cons_of_mem _ hmem, fun hdet =>
        hnot ((List.mem_cons.mp hdet).resolve_left nofun)⟩

theorem attached_detach : Attached (.detach d :: log) d' r' ↔ Attached log d' r' ∧ d' ≠ d := by
  constructor
  · rintro ⟨hmem, hnot⟩
    refine ⟨⟨(List.mem_cons.mp hmem).resolve_left nofun, fun hdet =>
      hnot (List.mem_cons_of_mem _ hdet)⟩, ?_⟩
    rintro rfl
    exact hnot List.mem_cons_self
  · rintro ⟨⟨hmem, hnot⟩, hne⟩
    refine ⟨List.mem_cons_of_mem _ hmem, fun hdet => ?_⟩
    rcases List.mem_cons.mp hdet with heq | hdet
    · cases heq
      exact hne rfl
    · exact hnot hdet

end Cons

/-! ## Exactly once -/

section Count

theorem countP_releases_eq_zero [DecidableEq R] (h : ∀ how, .release r how ∉ log) :
    log.countP (Entry.releases r) = 0 := by
  refine List.countP_eq_zero.mpr fun e he hrel => ?_
  cases e with
  | release r' how =>
    obtain rfl : r' = r := of_decide_eq_true hrel
    exact h how he
  | _ => cases hrel

theorem countP_detaches_eq_zero [DecidableEq D] (h : .detach d ∉ log) :
    log.countP (Entry.detaches d) = 0 := by
  refine List.countP_eq_zero.mpr fun e he hdet => ?_
  cases e with
  | detach d' =>
    obtain rfl : d' = d := of_decide_eq_true hdet
    exact h he
  | _ => cases hdet

/-- A resource that is not open was released once. -/
theorem Proper.countP_releases [DecidableEq R] (hp : Proper log) (hr : .acquire r ∈ log) :
    Open log r ∧ log.countP (Entry.releases r) = 0 ∨
      ¬ Open log r ∧ log.countP (Entry.releases r) = 1 := by
  -- an open resource has not been released yet
  by_cases hopen : Open log r
  · exact Or.inl ⟨hopen, countP_releases_eq_zero hopen.2⟩
  refine Or.inr ⟨hopen, ?_⟩
  induction log with
  | nil => cases hr
  | cons e log ih =>
    cases e with
    | acquire r' =>
      rw [open_acquire hp.2 hp.1, not_or] at hopen
      have hmem : Entry.acquire r ∈ log :=
        List.mem_of_ne_of_mem (fun h => hopen.1 (by cases h; rfl)) hr
      rw [List.countP_cons_of_neg (by simp [Entry.releases]), ih hp.2 hmem hopen.2]
    | release r' how =>
      have hmem : Entry.acquire r ∈ log := (List.mem_cons.mp hr).resolve_left nofun
      -- the last entry is the one that has released it
      by_cases hrr : r' = r
      · subst hrr
        rw [List.countP_cons_of_pos (by simp [Entry.releases]),
          countP_releases_eq_zero hp.1.1.2]
      · have hnot : ¬ Open log r := fun h => hopen (open_release.mpr ⟨h, Ne.symm hrr⟩)
        rw [List.countP_cons_of_neg (by simp [Entry.releases, hrr]), ih hp.2 hmem hnot]
    | attach d r' =>
      rw [open_attach] at hopen
      rw [List.countP_cons_of_neg (by simp [Entry.releases]),
        ih hp.2 ((List.mem_cons.mp hr).resolve_left nofun) hopen]
    | detach d =>
      rw [open_detach] at hopen
      rw [List.countP_cons_of_neg (by simp [Entry.releases]),
        ih hp.2 ((List.mem_cons.mp hr).resolve_left nofun) hopen]

/-- A dependent that is not attached was detached once. -/
theorem Proper.countP_detaches [DecidableEq D] (hp : Proper log) (hd : .attach d r ∈ log) :
    Attached log d r ∧ log.countP (Entry.detaches d) = 0 ∨
      ¬ Attached log d r ∧ log.countP (Entry.detaches d) = 1 := by
  by_cases hatt : Attached log d r
  · exact Or.inl ⟨hatt, countP_detaches_eq_zero hatt.2⟩
  refine Or.inr ⟨hatt, ?_⟩
  induction log with
  | nil => cases hd
  | cons e log ih =>
    cases e with
    | acquire r' =>
      rw [attached_acquire] at hatt
      rw [List.countP_cons_of_neg (by simp [Entry.detaches]),
        ih hp.2 ((List.mem_cons.mp hd).resolve_left nofun) hatt]
    | release r' how =>
      rw [attached_release] at hatt
      rw [List.countP_cons_of_neg (by simp [Entry.detaches]),
        ih hp.2 ((List.mem_cons.mp hd).resolve_left nofun) hatt]
    | attach d' r' =>
      rw [attached_attach hp.2 hp.1.2, not_or] at hatt
      have hmem : Entry.attach d r ∈ log :=
        List.mem_of_ne_of_mem (fun h => hatt.1 (by cases h; exact ⟨rfl, rfl⟩)) hd
      rw [List.countP_cons_of_neg (by simp [Entry.detaches]), ih hp.2 hmem hatt.2]
    | detach d' =>
      have hmem : Entry.attach d r ∈ log := (List.mem_cons.mp hd).resolve_left nofun
      by_cases hdd : d' = d
      · subst hdd
        obtain ⟨s, hs⟩ := hp.1
        rw [List.countP_cons_of_pos (by simp [Entry.detaches]), countP_detaches_eq_zero hs.2]
      · have hnot : ¬ Attached log d r := fun h => hatt (attached_detach.mpr ⟨h, Ne.symm hdd⟩)
        rw [List.countP_cons_of_neg (by simp [Entry.detaches, hdd]), ih hp.2 hmem hnot]

end Count

theorem Proper.of_append {later earlier : List (Entry R D τ)} (hp : Proper (later ++ earlier)) :
    Proper earlier := by
  induction later with
  | nil => exact hp
  | cons e later ih => exact ih hp.2

/-- Nothing is attached to a resource after its release. -/
theorem Proper.attach_mem_earlier {later earlier : List (Entry R D τ)}
    (hp : Proper (later ++ .release r how :: earlier))
    (hd : .attach d r ∈ later ++ .release r how :: earlier) : .attach d r ∈ earlier := by
  induction later with
  | nil => exact (List.mem_cons.mp hd).resolve_left nofun
  | cons e later ih =>
    rcases List.mem_cons.mp hd with rfl | hmem
    · exact absurd (List.mem_append_right _ List.mem_cons_self) (hp.1.1.2 how)
    · exact ih hp.2 hmem

/-- What was attached to a resource was detached before the release. -/
theorem Proper.detach_mem {later earlier : List (Entry R D τ)}
    (hp : Proper (later ++ .release r how :: earlier))
    (hd : .attach d r ∈ later ++ .release r how :: earlier) : .detach d ∈ earlier := by
  have hmem := hp.attach_mem_earlier hd
  by_contra hnot
  exact hp.of_append.1.2 d ⟨hmem, hnot⟩

end Ledger

end Machine
