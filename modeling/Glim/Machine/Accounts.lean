import Glim.Machine.Ledger

/-!
# Balanced ledgers

A ledger is balanced with a system if it is proper, what is open in it is what the system owns, and
what is attached in it is what the system has joined. Every entry changes both sides alike.

## Main definitions

* `Ledger.Balanced`: a ledger, what is owned and what is joined

## Main results

* `Balanced.acquire`, `Balanced.release`, `Balanced.attach`, `Balanced.detach`: the four entries
* `Balanced.releaseAll`: releasing a list of resources
* `Balanced.countP_releases`: what was acquired and is not owned was released exactly once
-/

namespace Machine.Ledger

variable {R D τ : Type}

/-- The ledger is proper, and agrees with what is owned and what is joined. -/
structure Balanced (log : List (Entry R D τ)) (owned : R → Prop) (joined : D → R → Prop) :
    Prop where
  proper : Proper log
  open_iff : ∀ r, Open log r ↔ owned r
  attached_iff : ∀ d r, Attached log d r ↔ joined d r

variable {log : List (Entry R D τ)} {r r' : R} {d d' : D} {how : τ}

/-- What something is attached to has not been released. -/
theorem Proper.open_of_attached (hp : Proper log) (hd : Attached log d r) : Open log r := by
  induction log with
  | nil => exact absurd hd.1 (List.not_mem_nil)
  | cons e log ih =>
    cases e with
    | acquire r' =>
      rw [open_acquire hp.2 hp.1]
      exact Or.inr (ih hp.2 (attached_acquire.mp hd))
    | release r' how =>
      have hd' := attached_release.mp hd
      refine open_release.mpr ⟨ih hp.2 hd', ?_⟩
      rintro rfl
      exact hp.1.2 d hd'
    | attach d' r' =>
      rw [open_attach]
      rcases (attached_attach hp.2 hp.1.2).mp hd with ⟨rfl, rfl⟩ | hd'
      · exact hp.1.1
      · exact ih hp.2 hd'
    | detach d' =>
      rw [open_detach]
      exact ih hp.2 (attached_detach.mp hd).1

namespace Balanced

variable {owned owned' : R → Prop} {joined joined' : D → R → Prop}

theorem nil : Balanced ([] : List (Entry R D τ)) (fun _ => False) fun _ _ => False where
  proper := trivial
  open_iff := fun r => by simp [Open]
  attached_iff := fun d r => by simp [Attached]

theorem congr (h : Balanced log owned joined) (howned : ∀ r, owned' r ↔ owned r)
    (hjoined : ∀ d r, joined' d r ↔ joined d r) : Balanced log owned' joined' where
  proper := h.proper
  open_iff := fun r => (h.open_iff r).trans (howned r).symm
  attached_iff := fun d r => (h.attached_iff d r).trans (hjoined d r).symm

/-- What something is joined to is owned. -/
theorem owned_of_joined (h : Balanced log owned joined) (hd : joined d r) : owned r :=
  (h.open_iff r).mp (h.proper.open_of_attached ((h.attached_iff d r).mpr hd))

theorem acquire_mem (h : Balanced log owned joined) (hr : owned r) : .acquire r ∈ log :=
  ((h.open_iff r).mpr hr).1

theorem attach_mem (h : Balanced log owned joined) (hd : joined d r) : .attach d r ∈ log :=
  ((h.attached_iff d r).mpr hd).1

theorem acquire (h : Balanced log owned joined) (hnew : .acquire r ∉ log) :
    Balanced (.acquire r :: log) (fun r' => r' = r ∨ owned r') joined where
  proper := ⟨hnew, h.proper⟩
  open_iff := fun r' => by rw [open_acquire h.proper hnew, h.open_iff]
  attached_iff := fun d r' => by rw [attached_acquire, h.attached_iff]

theorem release (h : Balanced log owned joined) (how : τ) (hr : owned r)
    (hnone : ∀ d, ¬ joined d r) :
    Balanced (.release r how :: log) (fun r' => owned r' ∧ r' ≠ r) joined where
  proper := ⟨⟨(h.open_iff r).mpr hr, fun d hd => hnone d ((h.attached_iff d r).mp hd)⟩, h.proper⟩
  open_iff := fun r' => by rw [open_release, h.open_iff]
  attached_iff := fun d r' => by rw [attached_release, h.attached_iff]

theorem attach (h : Balanced log owned joined) (hr : owned r) (hnew : ∀ r', .attach d r' ∉ log) :
    Balanced (.attach d r :: log) owned fun d' r' => d' = d ∧ r' = r ∨ joined d' r' where
  proper := ⟨⟨(h.open_iff r).mpr hr, hnew⟩, h.proper⟩
  open_iff := fun r' => by rw [open_attach, h.open_iff]
  attached_iff := fun d' r' => by rw [attached_attach h.proper hnew, h.attached_iff]

theorem detach (h : Balanced log owned joined) (hd : joined d r) :
    Balanced (.detach d :: log) owned fun d' r' => joined d' r' ∧ d' ≠ d where
  proper := ⟨⟨r, (h.attached_iff d r).mpr hd⟩, h.proper⟩
  open_iff := fun r' => by rw [open_detach, h.open_iff]
  attached_iff := fun d' r' => by rw [attached_detach, h.attached_iff]

/-- Releasing one resource after the other. -/
theorem releaseAll (h : Balanced log owned joined) (how : τ) {rs : List R} (hnodup : rs.Nodup)
    (hrs : ∀ r ∈ rs, owned r) (hnone : ∀ r ∈ rs, ∀ d, ¬ joined d r) :
    Balanced (rs.map (.release · how) ++ log) (fun r' => owned r' ∧ r' ∉ rs) joined := by
  induction rs with
  | nil => exact h.congr (fun r' => by simp) fun d r' => Iff.rfl
  | cons r rs ih =>
    obtain ⟨hnotin, hnodup⟩ := List.nodup_cons.mp hnodup
    obtain ⟨hr, hrs⟩ := List.forall_mem_cons.mp hrs
    obtain ⟨hr', hnone⟩ := List.forall_mem_cons.mp hnone
    have hrest := ih hnodup hrs hnone
    refine (hrest.release how ⟨hr, hnotin⟩ hr').congr (fun r' => ?_) fun d r' => Iff.rfl
    simp only [List.mem_cons, not_or]
    exact ⟨fun ⟨hr, hne, hnot⟩ => ⟨⟨hr, hnot⟩, hne⟩, fun ⟨⟨hr, hnot⟩, hne⟩ => ⟨hr, hne, hnot⟩⟩

/-- What was acquired and is not owned any more was released exactly once. -/
theorem countP_releases [DecidableEq R] (h : Balanced log owned joined)
    (hr : .acquire r ∈ log) (hnot : ¬ owned r) : log.countP (Entry.releases r) = 1 := by
  rcases h.proper.countP_releases hr with ⟨hopen, -⟩ | ⟨-, hone⟩
  · exact absurd ((h.open_iff r).mp hopen) hnot
  · exact hone

/-- What is owned has not been released. -/
theorem countP_releases_of_owned [DecidableEq R] (h : Balanced log owned joined)
    (hr : owned r) : log.countP (Entry.releases r) = 0 :=
  countP_releases_eq_zero ((h.open_iff r).mpr hr).2

end Balanced

end Machine.Ledger
