import Glim.RunnerV2.Owners

/-!
# Serving the queue of the cURL runner

The run thread looks for a reference before it starts its loop, and the creator takes the first
reference after it has started the thread. Where cURL and `eventfd` work and the listeners throw no
exceptions, the thread serves the queue for as long as there are owners if it looks after the
creator has taken the reference; otherwise it never does.

## Main definitions

* `RunnerV2.InTime`: the thread looks for a reference when there is one
* `RunnerV2.Service`: who is there for the queue

## Main results

* `RunnerV2.State.drains`: the run thread takes the handles from the queue by its own steps
* `RunnerV2.served_iff`: while there are owners, the queue is served exactly if the thread has
  looked in time
-/

namespace Glim.RunnerV2

open Thread

variable {ι : Type}

/-- The run thread has not left its loop. -/
def RunPoint.inLoop : RunPoint → Prop
  | .exiting => False
  | .exitRunning => False
  | .deleting => False
  | .stopping => False
  | .ended => False
  | _ => True

/-- The initialization succeeds, and no exception escapes a listener. -/
def Succeeds (l : Label ι) (_ : State ι) : Prop := l ≠ .run .throws

/-- The run thread looks for a reference after the creator has taken one. -/
def InTime (l : Label ι) (s : State ι) : Prop :=
  Succeeds l s ∧ (l = .run .go → s.run = .starting → 0 < s.object.references)

/-- No pushed handle is lost between the queue and cURL. -/
def Kept (o : RunnerV2) : Prop := o.added ++ o.queue = o.pushed

/-- Who is there for the queue. -/
inductive Service (s : State ι) : Prop
  /-- The creator has yet to take the first reference, and the thread to look for it. -/
  | coming (t : ι) (honly : s.Only t .creating) (href : s.object.references = 0)
      (hrun : s.run = .starting) (hkept : Kept s.object)
  /-- There are owners, and the thread has not left its loop. -/
  | on (H : Finset ι) (hheld : Held s.owner s.object.references H) (hrun : s.run.inLoop)
      (hkept : Kept s.object)
  /-- The last owner has released the runner. -/
  | gone (hgone : ∀ t, s.owner t ≠ .creating ∧ s.owner t ≠ .holding)

/-! ## The run thread -/

section Run

variable {r r' : RunPoint} {a : RunAction} {o o' : RunnerV2}

/-- While there are references, the thread stays in its loop. -/
theorem stepRun_inLoop (hx : stepRun r a o = some (o', r')) (ha : a ≠ .throws) (hr : r.inLoop)
    (href : 0 < o.references) : r'.inLoop ∧ o'.references = o.references := by
  unfold stepRun at hx
  split at hx
  case h_1 =>
    cases hx
    rw [if_neg (by omega)]
    exact ⟨trivial, rfl⟩
  case h_7 =>
    cases hx
    rw [if_pos href]
    exact ⟨trivial, rfl⟩
  case h_8 => split at hx <;> cases hx <;> exact ⟨trivial, rfl⟩
  case h_16 => cases hx
  all_goals
    cases hx
    first
    | exact ⟨trivial, rfl⟩
    | exact absurd rfl ha
    | exact absurd hr not_false

/-- A thread that has left its loop does not come back. -/
theorem stepRun_not_inLoop (hx : stepRun r a o = some (o', r')) (hr : ¬ r.inLoop) :
    ¬ r'.inLoop := by
  unfold stepRun at hx
  split at hx
  case h_12 => cases hx; split_ifs <;> exact not_false
  case h_13 => cases hx; split_ifs <;> exact not_false
  case h_14 => cases hx; exact not_false
  case h_15 => cases hx; exact not_false
  case h_16 => cases hx
  all_goals exact absurd trivial hr

/-- The thread takes handles from the queue only to add them to cURL. -/
theorem stepRun_kept (hx : stepRun r a o = some (o', r')) (hkept : Kept o) : Kept o' := by
  unfold stepRun at hx
  split at hx
  case h_8 =>
    split at hx
    · cases hx
      exact hkept
    · next hqueue =>
      cases hx
      unfold Kept at hkept ⊢
      rw [hqueue] at hkept
      simpa using hkept
  case h_16 => cases hx
  all_goals
    cases hx
    exact hkept

end Run

variable [DecidableEq ι] {s s' : State ι} {t : ι} {a : RunAction} {b : OwnerAction ι}

/-! ## The queue -/

/-- The run thread takes all handles from the queue by its own steps. -/
def State.Drains (s : State ι) : Prop :=
  ∃ n s', runAll step (List.replicate n (.run .go)) s = some s' ∧ s'.object.queue = [] ∧
    s'.object.added = s.object.added ++ s.object.queue

/-- One more step of the thread, which leaves the queue to the next steps. -/
theorem State.Drains.cons (hx : step (.run .go) s = some s')
    (hqueue : s'.object.added ++ s'.object.queue = s.object.added ++ s.object.queue)
    (h : s'.Drains) : s.Drains := by
  obtain ⟨n, s'', hrun, hempty, hadded⟩ := h
  refine ⟨n + 1, s'', ?_, hempty, hadded.trans hqueue⟩
  rw [List.replicate_succ, runAll, hx]
  exact hrun

/-- In the loop that pops them, the handles are added one after another. -/
theorem drains_draining (hrun : s.run = .draining) : s.Drains := by
  induction h : s.object.queue generalizing s with
  | nil => exact ⟨0, s, rfl, h, by rw [h, List.append_nil]⟩
  | cons easy queue ih =>
    have hx : step (.run .go) s = some { s with
        object := { s.object.access with queue, added := s.object.added ++ [easy] }
        run := .draining } := by
      simp [step, stepRun, hrun, access, h]
    refine .cons hx ?_ (ih rfl rfl)
    simp [h]

/-- How many steps the thread is away from taking handles. -/
def RunPoint.distance : RunPoint → ℕ
  | .looping => 1
  | .initEventFd => 2
  | .performing => 2
  | .initMulti => 3
  | .checked => 4
  | .starting => 5
  | _ => 0

/-- One step towards taking handles. -/
theorem step_inLoop (href : 0 < s.object.references) (hrun : s.run.inLoop)
    (hne : s.run ≠ .draining) : ∃ s', step (.run .go) s = some s' ∧
      0 < s'.object.references ∧ s'.run.inLoop ∧ s'.run.distance < s.run.distance ∧
        s'.object.added ++ s'.object.queue = s.object.added ++ s.object.queue := by
  -- every step comes nearer to draining the queue, and none of them takes from it
  cases h : s.run with
  | starting =>
    refine ⟨{ s with object := s.object.access, run := .checked }, ?_, href, trivial,
      Nat.lt_succ_self 4, rfl⟩
    simp [step, stepRun, h, access, not_le.mpr href]
  | checked =>
    refine ⟨{ s with object := { s.object.access with running := true }, run := .initMulti }, ?_,
      href, trivial, Nat.lt_succ_self 3, rfl⟩
    simp [step, stepRun, h]
  | initMulti =>
    refine ⟨{ s with object := s.object.access, run := .initEventFd }, ?_, href, trivial,
      Nat.lt_succ_self 2, rfl⟩
    simp [step, stepRun, h]
  | initEventFd =>
    refine ⟨{ s with object := s.object.access, run := .looping }, ?_, href, trivial,
      Nat.lt_succ_self 1, rfl⟩
    simp [step, stepRun, h]
  | looping =>
    refine ⟨{ s with object := s.object.access, run := .draining }, ?_, href, trivial,
      Nat.lt_succ_self 0, rfl⟩
    simp [step, stepRun, h, access, href]
  | draining => exact absurd h hne
  | performing =>
    refine ⟨{ s with object := s.object.access, run := .looping }, ?_, href, trivial,
      Nat.lt_succ_self 1, rfl⟩
    simp [step, stepRun, h]
  -- the thread has left the loop
  | exiting => rw [h] at hrun; exact hrun.elim
  | exitRunning => rw [h] at hrun; exact hrun.elim
  | deleting => rw [h] at hrun; exact hrun.elim
  | stopping => rw [h] at hrun; exact hrun.elim
  | ended => rw [h] at hrun; exact hrun.elim

/-- **The thread drains the queue** from every point of the loop and before it. -/
theorem State.drains (href : 0 < s.object.references) (hrun : s.run.inLoop) : s.Drains := by
  induction h : s.run.distance using Nat.strong_induction_on generalizing s with
  | h n ih =>
    by_cases hdraining : s.run = .draining
    · exact drains_draining hdraining
    · obtain ⟨s', hx, href', hrun', hlt, hqueue⟩ := step_inLoop href hrun hdraining
      rw [h] at hlt
      exact .cons hx hqueue (ih _ hlt href' hrun' rfl)

/-! ## The steps -/

/-- Where nobody has a reference or is going to have one, it stays so. -/
theorem stepOwner_gone {o : RunnerV2} (hx : stepOwner t b o s = some s')
    (hgone : ∀ t, s.owner t ≠ .creating ∧ s.owner t ≠ .holding) :
    ∀ u, s'.owner u ≠ .creating ∧ s'.owner u ≠ .holding := by
  have hmove : ∀ (o : RunnerV2) (p : OwnerPoint), p ≠ .creating → p ≠ .holding →
      ∀ u, (s.move t o p).owner u ≠ .creating ∧ (s.move t o p).owner u ≠ .holding := by
    intro o p hcreating hholding u
    by_cases hu : u = t
    · rw [hu, State.owner_move_self]
      exact ⟨hcreating, hholding⟩
    · rw [s.owner_move_of_ne _ _ _ hu]
      exact hgone u
  unfold stepOwner at hx
  split at hx
  case h_1 h => exact absurd h (hgone t).1
  case h_2 h => exact absurd h (hgone t).2
  case h_3 h => exact absurd h (hgone t).2
  case h_4 h => exact absurd h (hgone t).2
  case h_5 =>
    cases hx
    refine hmove _ _ ?_ ?_ <;> split_ifs <;> exact nofun
  case h_6 =>
    cases hx
    exact hmove _ _ nofun nofun
  case h_7 => cases hx

/-- An owner that has a reference puts handles into the queue as they are pushed. -/
theorem stepOwner_kept {o : RunnerV2} (hx : stepOwner t b o s = some s') (hkept : Kept o) :
    Kept s'.object := by
  unfold stepOwner at hx
  split at hx
  case h_2 =>
    split_ifs at hx
    cases hx
    exact hkept
  case h_3 =>
    split_ifs at hx
    · cases hx
      unfold Kept at hkept ⊢
      simp only
      rw [← hkept, List.append_assoc]
    · cases hx
      exact hkept
  case h_7 => cases hx
  all_goals
    cases hx
    exact hkept

theorem stepOwner_run {o : RunnerV2} (hx : stepOwner t b o s = some s') : s'.run = s.run := by
  unfold stepOwner at hx
  split at hx
  case h_2 => split_ifs at hx; cases hx; rfl
  case h_3 => split_ifs at hx <;> cases hx <;> rfl
  case h_7 => cases hx
  all_goals
    cases hx
    rfl

/-- A step of the run thread keeps the service up. -/
theorem service_run (hs : Service s) (hin : InTime (.run a) s) (hstep : step (.run a) s = some s') :
    Service s' := by
  obtain ⟨⟨o', r'⟩, hx, rfl⟩ := Option.map_eq_some_iff.mp hstep
  have ha : a ≠ .throws := by
    rintro rfl
    exact hin.1 rfl
  cases hs with
  | coming t honly href hrun hkept =>
    -- the thread does not look before there is a reference
    have hgo : a = .go := by
      cases a with
      | go => rfl
      | throws => exact absurd rfl ha
    have hpos := hin.2 (by rw [hgo]) hrun
    omega
  | on H hheld hrun hkept =>
    obtain ⟨hrun', href'⟩ := stepRun_inLoop hx ha hrun hheld.references_pos
    refine .on H ?_ hrun' (stepRun_kept hx hkept)
    show Held s.owner o'.references H
    rw [href']
    exact hheld
  | gone hgone => exact .gone hgone

/-- A step of an owner keeps the service up. -/
theorem service_owner (hs : Service s) (hstep : step (.owner t b) s = some s') : Service s' := by
  have hx : stepOwner t b s.object.access s = some s' := hstep
  cases hs with
  | coming t₀ honly href hrun hkept =>
    obtain rfl := honly.eq_of_step hx
    unfold stepOwner at hx
    rw [honly.1] at hx
    cases b <;> cases hx
    refine .on {t} (held_first honly href) ?_ hkept
    rw [State.run_move, hrun]
    trivial
  | on H hheld hrun hkept =>
    change Held s.owner s.object.access.references H at hheld
    have ht := hheld.owner_of_step hx
    rcases stepOwner_held hheld hx with ⟨H', hheld'⟩ | ⟨honly, -⟩
    · refine .on H' hheld' ?_ (stepOwner_kept hx hkept)
      rw [(stepOwner_frame ht hx).1]
      exact hrun
    · refine .gone fun u => ?_
      by_cases hu : u = t
      · rw [hu, honly.1]
        exact ⟨nofun, nofun⟩
      · rw [honly.2 u hu]
        exact ⟨nofun, nofun⟩
  | gone hgone => exact .gone (stepOwner_gone hx hgone)

/-! ## Runs -/

variable {ls : List (Label ι)}

theorem service_of_steps (hr : Steps step InTime s ls s') (hs : Service s) : Service s' := by
  refine hr.invariant ?_ hs
  rintro (a | ⟨t, b⟩) s s' hs hin hx
  · exact service_run hs hin hx
  · exact service_owner hs hx

/-- Once the thread has left its loop, it is never in it again. -/
theorem not_inLoop_of_steps (hr : Steps step Succeeds s ls s') (hrun : ¬ s.run.inLoop) :
    ¬ s'.run.inLoop := by
  refine hr.invariant (I := fun s => ¬ s.run.inLoop) ?_ hrun
  rintro (a | ⟨t, b⟩) s s' hrun - hstep
  · obtain ⟨⟨o', r'⟩, hx, rfl⟩ := Option.map_eq_some_iff.mp hstep
    exact stepRun_not_inLoop hx hrun
  · have hx : stepOwner t b s.object.access s = some s' := hstep
    rw [stepOwner_run hx]
    exact hrun

/-- A thread that is in its loop has looked in time. -/
theorem inTime_of_inLoop (hr : Steps step Succeeds s ls s') (hrun : s'.run.inLoop) :
    Steps step InTime s ls s' := by
  induction hr with
  | nil => exact .nil _
  | @cons s s₁ s' l ls hg hstep hr ih =>
    refine .cons ⟨hg, fun hgo hstarting => ?_⟩ hstep (ih hrun)
    by_contra href
    -- the thread exits, and is not in its loop any more
    subst hgo
    obtain ⟨⟨o', r'⟩, hx, rfl⟩ := Option.map_eq_some_iff.mp hstep
    have hnone : s.object.access.references ≤ 0 := not_lt.mp href
    rw [hstarting, stepRun, if_pos hnone] at hx
    cases hx
    exact not_inLoop_of_steps hr not_false hrun

theorem service_start (creator : ι) : Service (start creator) := by
  refine .coming creator ⟨?_, fun u hu => ?_⟩ rfl rfl rfl
  · simp [start]
  · simp [start, hu]

/-- **The queue is served while there are owners**, in a run where the initialization succeeds and
no exception escapes a listener, exactly if the run thread has looked for a reference after the
creator took one: it has not left its loop, it has lost no handle, and it takes those that are in
the queue by its own steps. -/
theorem served_iff (creator : ι) (ls : List (Label ι)) (s : State ι) (t : ι)
    (hr : Steps step Succeeds (start creator) ls s) (ht : s.owner t = .holding) :
    (s.run.inLoop ∧ s.object.added ++ s.object.queue = s.object.pushed ∧ s.Drains) ↔
      Steps step InTime (start creator) ls s := by
  constructor
  · rintro ⟨hrun, -⟩
    exact inTime_of_inLoop hr hrun
  · intro hin
    cases service_of_steps hin (service_start creator) with
    | coming t₀ honly =>
      by_cases htt : t = t₀
      · rw [htt, honly.1] at ht
        cases ht
      · rw [honly.2 t htt] at ht
        cases ht
    | on H hheld hrun hkept => exact ⟨hrun, hkept, s.drains hheld.references_pos hrun⟩
    | gone hgone => exact absurd ht (hgone t).2

/-- The creator takes its reference, the run thread looks for it, and a handle is pushed. -/
theorem served_iff_push :
    let ls : List (Label ℕ) := [.owner 0 .go, .run .go, .owner 0 (.push 7)]
    ∃ s, runAll step ls (start 0) = some s ∧ s.object.queue = [7] ∧
      s.run.inLoop ∧ s.object.added ++ s.object.queue = s.object.pushed ∧ s.Drains := by
  intro ls
  obtain ⟨s, hx⟩ : ∃ s, runAll step ls (start 0) = some s := ⟨_, rfl⟩
  refine ⟨s, hx, ?_, (served_iff 0 ls s 0 ?_ ?_).mpr ?_⟩
  · cases hx
    rfl
  · cases hx
    exact .cons nofun rfl (.cons nofun rfl (.cons nofun rfl (.nil _)))
  · cases hx
    rfl
  · cases hx
    refine .cons ⟨nofun, nofun⟩ rfl (.cons ⟨nofun, fun _ _ => ?_⟩ rfl ?_)
    · exact Int.zero_lt_one
    · exact .cons ⟨nofun, nofun⟩ rfl (.nil _)

/-- The run thread looks for a reference before the creator takes one, and ends: the handle that the
creator pushes stays in the queue. -/
theorem queue_unserved :
    ∃ s, Steps step Succeeds (start 0) [.run .go, .run .go, .run .go, .owner 0 .go,
        .owner 0 (.push 7)] s ∧ s.owner 0 = .holding ∧ ¬ s.run.inLoop ∧
      s.object.queue = [7] ∧ ∀ a, step (.run a) s = none := by
  refine ⟨_, .cons nofun rfl (.cons nofun rfl (.cons nofun rfl (.cons nofun rfl
    (.cons nofun rfl (.nil _))))), rfl, not_false, rfl, fun a => ?_⟩
  cases a <;> rfl

end Glim.RunnerV2
