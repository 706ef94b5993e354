import Glim.RunnerV2.Owners

/-!
# Deleting the cURL runner

The last owner deletes the runner where it finds that the run thread is not running, and the run
thread deletes it where it finds no references. This works out in runs where neither of the two
decides on what the other one is about to change: the last owner looks at `_running` while the
thread has yet to look at `_references`, or after its end, and the thread looks at `_references`
while no owner has yet to look at `_running`. Otherwise the runner may be used after it has been
deleted, deleted twice, or not deleted at all.

## Main definitions

* `RunnerV2.Apart`: the condition on the steps in which the two sides look at the members
* `RunnerV2.Phase`: how far the runner is in its life

## Main results

* `RunnerV2.phase_run`, `RunnerV2.phase_owner`: what a step of the run thread and of an owner does
* `RunnerV2.deleted_once`: where the two sides decide apart, the runner is deleted once, and not
  used after
-/

namespace Glim.RunnerV2

open Thread

variable {ι : Type}

/-- The value of `_running` that goes with a point of the run thread, if there is only one. -/
def RunPoint.expects : RunPoint → Option Bool
  | .starting => some false
  | .checked => some false
  | .ended => some false
  | .exiting => none
  | .stopping => none
  | _ => some true

/-- `_running` is as the point of the run thread says. -/
def State.Fits (s : State ι) : Prop := ∀ b, s.run.expects = some b → s.object.running = b

/-- How far the runner is in its life. -/
inductive Phase (s : State ι) : Prop
  /-- There is no reference yet. -/
  | born (t : ι) (honly : s.Only t .creating) (href : s.object.references = 0)
      (hrunning : s.object.running = false)
      (hrun : s.run = .starting ∨ s.run = .exiting ∨ s.run = .stopping ∨ s.run = .ended)
      (hdeletions : s.object.deletions = 0)
  /-- The owners in `H` have references. -/
  | held (H : Finset ι) (hheld : Held s.owner s.object.references H) (hfits : s.Fits)
      (hrun : s.run ≠ .deleting) (hdeletions : s.object.deletions = 0)
  /-- The last owner has yet to look at `_running`. -/
  | released (t : ι) (honly : s.Only t .released) (href : s.object.references = 0)
      (hfits : s.Fits) (hrun : s.run ≠ .deleting) (hdeletions : s.object.deletions = 0)
  /-- The last owner is going to delete the runner, behind the end of the run thread. -/
  | ownerDeletes (t : ι) (honly : s.Only t .deleting) (hrun : s.run = .ended)
      (hdeletions : s.object.deletions = 0)
  /-- The run thread is going to delete the runner. -/
  | threadDeletes (hnone : ∀ t, s.owner t = .none) (href : s.object.references = 0)
      (hrunning : s.object.running = true) (hfits : s.Fits) (hrun : s.run ≠ .stopping)
      (hdeletions : s.object.deletions = 0)
  | deleted (hnone : ∀ t, s.owner t = .none) (hrun : s.run = .ended)
      (hdeletions : s.object.deletions = 1)

/-- The two sides do not decide on what is about to change: when the run thread looks at
`_references` in the end, no owner is between its last release and its look at `_running`; and when
an owner looks at `_running` there, the thread is not about to reset it, or to set it. -/
def Apart : Label ι → State ι → Prop
  | .run _, s => s.run = .exitRunning → ∀ t, s.owner t ≠ .released
  | .owner t _, s => s.owner t = .released →
    s.run ≠ .stopping ∧ (s.object.running = false → s.run = .ended)

theorem access_of_deletions {o : RunnerV2} (h : o.deletions = 0) : o.access = o := by
  obtain ⟨references, running, queue, added, pushed, deletions, usedAfter⟩ := o
  cases h
  simp [access]

/-! ## The run thread -/

section Run

variable {r r' : RunPoint} {a : RunAction} {o o' : RunnerV2}

/-- The run thread leaves the references alone, and deletes the runner in one place. -/
theorem stepRun_frame (hx : stepRun r a o = some (o', r')) (hr : r ≠ .deleting) :
    o'.references = o.references ∧ o'.deletions = o.deletions ∧ o'.usedAfter = o.usedAfter := by
  unfold stepRun at hx
  split at hx
  case h_8 => split at hx <;> cases hx <;> exact ⟨rfl, rfl, rfl⟩
  case h_14 => exact absurd rfl hr
  case h_16 => cases hx
  all_goals
    cases hx
    exact ⟨rfl, rfl, rfl⟩

/-- `_running` goes with the point of the run thread. -/
theorem stepRun_fits (hx : stepRun r a o = some (o', r')) (hr : r ≠ .deleting)
    (hfits : ∀ b, r.expects = some b → o.running = b) :
    ∀ b, r'.expects = some b → o'.running = b := by
  unfold stepRun at hx
  split at hx
  case h_1 =>
    cases hx
    split_ifs
    · exact nofun
    · exact hfits
  case h_7 =>
    cases hx
    split_ifs
    · exact hfits
    · exact nofun
  case h_8 => split at hx <;> cases hx <;> exact hfits
  case h_12 =>
    -- the point behind `exiting` shows what was read
    cases hx
    split_ifs with hrunning
    · rintro b ⟨⟩
      exact hrunning
    · exact nofun
  case h_13 =>
    cases hx
    split_ifs
    · exact hfits
    · exact nofun
  case h_14 => exact absurd rfl hr
  case h_16 => cases hx
  all_goals
    cases hx
    first
    | exact hfits
    | (rintro b ⟨⟩; rfl)
    | exact nofun

/-- While nobody has a reference and the thread does not run, it goes to its end. -/
theorem stepRun_born (hx : stepRun r a o = some (o', r')) (href : o.references = 0)
    (hrunning : o.running = false)
    (hr : r = .starting ∨ r = .exiting ∨ r = .stopping ∨ r = .ended) :
    o'.running = false ∧ (r' = .starting ∨ r' = .exiting ∨ r' = .stopping ∨ r' = .ended) := by
  rcases hr with rfl | rfl | rfl | rfl <;> cases a <;> simp only [stepRun] at hx <;> cases hx
  · simp [hrunning, href]
  · simp [hrunning]
  · exact ⟨rfl, by simp⟩

/-- A thread that runs does not come to `_running = false` once there are no references. -/
theorem stepRun_dying (hx : stepRun r a o = some (o', r')) (href : o.references = 0)
    (hrunning : o.running = true) (hr : r ≠ .stopping) (hdeleting : r ≠ .deleting) :
    o'.running = true ∧ r' ≠ .stopping := by
  unfold stepRun at hx
  split at hx
  case h_8 => split at hx <;> cases hx <;> exact ⟨hrunning, nofun⟩
  case h_14 => exact absurd rfl hdeleting
  case h_15 => exact absurd rfl hr
  case h_16 => cases hx
  all_goals
    cases hx
    simp [hrunning, href]

/-- The thread comes to delete the runner only from where it finds no references. -/
theorem stepRun_ne_deleting (hx : stepRun r a o = some (o', r'))
    (href : r = .exitRunning → o.references ≠ 0) : r' ≠ .deleting := by
  unfold stepRun at hx
  split at hx
  case h_8 => split at hx <;> cases hx <;> exact nofun
  case h_13 =>
    cases hx
    rw [if_neg (href rfl)]
    exact nofun
  case h_16 => cases hx
  all_goals
    cases hx
    first
    | (split_ifs <;> exact nofun)
    | exact nofun

/-- The thread deletes the runner in its last step. -/
theorem stepRun_deleting (hx : stepRun .deleting a o = some (o', r')) :
    o' = o.delete ∧ r' = .ended := by
  cases a with
  | go => cases hx; exact ⟨rfl, rfl⟩
  | throws => cases hx

end Run

variable [DecidableEq ι] {s s' : State ι} {t : ι} {a : RunAction} {b : OwnerAction ι}

/-- **A step of the run thread** takes the runner from phase to phase. -/
theorem phase_run (hp : Phase s) (huse : s.object.usedAfter = false) (ho : Apart (.run a) s)
    (hstep : step (.run a) s = some s') : Phase s' ∧ s'.object.usedAfter = false := by
  obtain ⟨⟨o', r'⟩, hx, rfl⟩ := Option.map_eq_some_iff.mp hstep
  cases hp with
  | born t honly href hrunning hrun hdeletions =>
    rw [access_of_deletions hdeletions] at hx
    have hne : s.run ≠ .deleting := by
      rcases hrun with h | h | h | h <;> rw [h] <;> exact nofun
    obtain ⟨href', hdeletions', huse'⟩ := stepRun_frame hx hne
    obtain ⟨hrunning', hrun'⟩ := stepRun_born hx href hrunning hrun
    exact ⟨.born t honly (href'.trans href) hrunning' hrun' (hdeletions'.trans hdeletions),
      huse'.trans huse⟩
  | held H hheld hfits hrun hdeletions =>
    rw [access_of_deletions hdeletions] at hx
    obtain ⟨href', hdeletions', huse'⟩ := stepRun_frame hx hrun
    have hrun' : r' ≠ .deleting := stepRun_ne_deleting hx fun _ => hheld.references_pos.ne'
    refine ⟨.held H ?_ (stepRun_fits hx hrun hfits) hrun' (hdeletions'.trans hdeletions),
      huse'.trans huse⟩
    simpa only [href'] using hheld
  | released t honly href hfits hrun hdeletions =>
    rw [access_of_deletions hdeletions] at hx
    obtain ⟨href', hdeletions', huse'⟩ := stepRun_frame hx hrun
    -- the thread does not look at the references now
    have hrun' : r' ≠ .deleting :=
      stepRun_ne_deleting hx fun hexit => absurd honly.1 (ho hexit t)
    exact ⟨.released t honly (href'.trans href) (stepRun_fits hx hrun hfits) hrun'
      (hdeletions'.trans hdeletions), huse'.trans huse⟩
  | ownerDeletes t honly hrun hdeletions =>
    -- the thread has ended
    rw [hrun] at hx
    cases a <;> cases hx
  | threadDeletes hnone href hrunning hfits hrun hdeletions =>
    rw [access_of_deletions hdeletions] at hx
    by_cases hdel : s.run = .deleting
    · rw [hdel] at hx
      obtain ⟨rfl, rfl⟩ := stepRun_deleting hx
      exact ⟨.deleted hnone rfl (congrArg (· + 1) hdeletions), huse⟩
    · obtain ⟨href', hdeletions', huse'⟩ := stepRun_frame hx hdel
      obtain ⟨hrunning', hrun'⟩ := stepRun_dying hx href hrunning hrun hdel
      exact ⟨.threadDeletes hnone (href'.trans href) hrunning' (stepRun_fits hx hdel hfits) hrun'
        (hdeletions'.trans hdeletions), huse'.trans huse⟩
  | deleted hnone hrun hdeletions =>
    -- the thread has ended
    rw [hrun] at hx
    cases a <;> cases hx

/-! ## The owners -/

/-- **A step of an owner** takes the runner from phase to phase. -/
theorem phase_owner (hp : Phase s) (huse : s.object.usedAfter = false) (ho : Apart (.owner t b) s)
    (hstep : step (.owner t b) s = some s') : Phase s' ∧ s'.object.usedAfter = false := by
  have hx : stepOwner t b s.object.access s = some s' := hstep
  cases hp with
  | born t₀ honly href hrunning hrun hdeletions =>
    rw [access_of_deletions hdeletions] at hx
    obtain rfl := honly.eq_of_step hx
    unfold stepOwner at hx
    rw [honly.1] at hx
    cases b <;> cases hx
    refine ⟨.held {t} (held_first honly href) ?_ ?_ hdeletions, huse⟩
    -- the thread does not run before there is a reference
    · intro b hb
      change s.object.running = b
      change s.run.expects = some b at hb
      rcases hrun with h | h | h | h <;> rw [h] at hb <;> cases hb <;> exact hrunning
    · rcases hrun with h | h | h | h <;> simp [h]
  | held H hheld hfits hrun hdeletions =>
    rw [access_of_deletions hdeletions] at hx
    obtain ⟨hrun', hrunning', hdeletions', huse'⟩ := stepOwner_frame (hheld.owner_of_step hx) hx
    have hfits' : s'.Fits := by
      intro b hb
      rw [hrun'] at hb
      rw [hrunning', hfits b hb]
    rcases stepOwner_held hheld hx with ⟨H', hheld'⟩ | ⟨honly, href⟩
    · exact ⟨.held H' hheld' hfits' (hrun' ▸ hrun) (hdeletions'.trans hdeletions),
        huse'.trans huse⟩
    · exact ⟨.released t honly href hfits' (hrun' ▸ hrun) (hdeletions'.trans hdeletions),
        huse'.trans huse⟩
  | released t₀ honly href hfits hrun hdeletions =>
    rw [access_of_deletions hdeletions] at hx
    obtain rfl := honly.eq_of_step hx
    unfold stepOwner at hx
    rw [honly.1] at hx
    cases b <;> cases hx
    obtain ⟨hstopping, hended⟩ := ho honly.1
    cases hrunning : s.object.running with
    | true =>
      exact ⟨.threadDeletes (s.owner_move_none _ _ honly.2) href hrunning hfits hstopping
        hdeletions, huse⟩
    | false => exact ⟨.ownerDeletes t (honly.move _) (hended hrunning) hdeletions, huse⟩
  | ownerDeletes t₀ honly hrun hdeletions =>
    rw [access_of_deletions hdeletions] at hx
    obtain rfl := honly.eq_of_step hx
    unfold stepOwner at hx
    rw [honly.1] at hx
    cases b <;> cases hx
    exact ⟨.deleted (s.owner_move_none _ _ honly.2) hrun (congrArg (· + 1) hdeletions), huse⟩
  | threadDeletes hnone =>
    rw [stepOwner_of_none (hnone t)] at hx
    cases hx
  | deleted hnone =>
    rw [stepOwner_of_none (hnone t)] at hx
    cases hx

/-! ## Runs -/

theorem phase_start (creator : ι) : Phase (start creator) := by
  refine .born creator ⟨?_, fun u hu => ?_⟩ rfl rfl (Or.inl rfl) rfl
  · simp [start]
  · simp [start, hu]

theorem phase_of_steps {ls : List (Label ι)} (hr : Steps step Apart s ls s') (hp : Phase s)
    (huse : s.object.usedAfter = false) : Phase s' ∧ s'.object.usedAfter = false := by
  refine hr.invariant (I := fun s => Phase s ∧ s.object.usedAfter = false) ?_ ⟨hp, huse⟩
  rintro (a | ⟨t, b⟩) s s' ⟨hp, huse⟩ ho hx
  · exact phase_run hp huse ho hx
  · exact phase_owner hp huse ho hx

/-- **The runner is deleted once**, and not used after that, in every run in which the two sides
decide apart; when the run thread has ended and no owner has to do with the runner, it has been
deleted. -/
theorem deleted_once (creator : ι) (ls : List (Label ι)) (s : State ι)
    (hr : Steps step Apart (start creator) ls s) :
    s.object.deletions ≤ 1 ∧ s.object.usedAfter = false ∧
      (s.run = .ended → (∀ t, s.owner t = .none) → s.object.deletions = 1) := by
  obtain ⟨hp, huse⟩ := phase_of_steps hr (phase_start creator) rfl
  cases hp with
  | born t honly href hrunning hrun hdeletions =>
    refine ⟨hdeletions.trans_le (Nat.zero_le 1), huse, fun _ hnone => ?_⟩
    cases honly.1.symm.trans (hnone t)
  | held H hheld hfits hrun hdeletions =>
    refine ⟨hdeletions.trans_le (Nat.zero_le 1), huse, fun _ hnone => ?_⟩
    obtain ⟨t, ht⟩ := hheld.nonempty
    cases (hheld.holding t ht).symm.trans (hnone t)
  | released t honly href hfits hrun hdeletions =>
    refine ⟨hdeletions.trans_le (Nat.zero_le 1), huse, fun _ hnone => ?_⟩
    cases honly.1.symm.trans (hnone t)
  | ownerDeletes t honly hrun hdeletions =>
    refine ⟨hdeletions.trans_le (Nat.zero_le 1), huse, fun _ hnone => ?_⟩
    cases honly.1.symm.trans (hnone t)
  | threadDeletes hnone href hrunning hfits hrun hdeletions =>
    refine ⟨hdeletions.trans_le (Nat.zero_le 1), huse, fun hended _ => ?_⟩
    -- a thread that has ended does not run
    have hfalse := hfits false (by rw [hended]; rfl)
    rw [hrunning] at hfalse
    cases hfalse
  | deleted hnone hrun hdeletions => exact ⟨hdeletions.le, huse, fun _ _ => hdeletions⟩

/-- The creator takes and releases its reference while the run thread is in its loop, and looks at
`_running` before the thread looks at `_references`. -/
theorem deleted_once_loop :
    let ls : List (Label ℕ) := [.owner 0 .go, .run .go, .run .go, .run .go, .run .go, .run .go,
      .owner 0 .release, .owner 0 .go, .run .go, .run .go, .run .go, .run .go, .run .go, .run .go]
    ∃ s, runAll step ls (start 0) = some s ∧ s.run = .ended ∧
      s.object.deletions ≤ 1 ∧ s.object.usedAfter = false ∧
      (s.run = .ended → (∀ t, s.owner t = .none) → s.object.deletions = 1) := by
  intro ls
  obtain ⟨s, hx⟩ : ∃ s, runAll step ls (start 0) = some s := ⟨_, rfl⟩
  refine ⟨s, hx, ?_, deleted_once 0 ls s ?_⟩
  · cases hx
    rfl
  · cases hx
    refine .cons nofun rfl (.cons nofun rfl (.cons nofun rfl (.cons nofun rfl ?_)))
    refine .cons nofun rfl (.cons nofun rfl (.cons nofun rfl ?_))
    -- the thread is in its loop when the last owner looks at `_running`
    refine .cons (fun _ => ⟨nofun, nofun⟩) rfl (.cons nofun rfl (.cons nofun rfl ?_))
    -- and the owner has left when the thread looks at `_references`
    refine .cons nofun rfl (.cons nofun rfl (.cons (fun _ t => ?_) rfl (.cons nofun rfl (.nil _))))
    by_cases ht : t = 0
    · subst ht
      exact nofun
    · simp [State.move, start, ht]

/-- The run thread deletes the runner before the last owner looks at `_running`; the last owner and
the run thread both delete the runner, as the owner looks at `_running` before the thread sets it;
and the thread finds a reference after it has failed to start, and resets `_running` after the last
owner has looked at it, so that nobody deletes the runner. -/
theorem deleted_wrongly :
    (∃ s, AllSteps step (start 0) [.owner 0 .go, .run .go, .run .go, .run .go, .run .go,
        .owner 0 .release, .run .go, .run .go, .run .go, .run .go, .owner 0 .go] s ∧
      s.object.usedAfter = true) ∧
    (∃ s, AllSteps step (start 0) [.owner 0 .go, .run .go, .owner 0 .release, .owner 0 .go,
        .run .go, .run .go, .run .go, .run .go, .run .go, .run .go, .run .go, .owner 0 .go] s ∧
      s.object.deletions = 2) ∧
    ∃ s, AllSteps step (start 0) [.owner 0 .go, .run .go, .run .go, .run .throws, .run .go,
        .run .go, .owner 0 .release, .owner 0 .go, .run .go] s ∧
      s.run = .ended ∧ s.owner 0 = .none ∧ (∀ t ≠ 0, s.owner t = .none) ∧
      s.object.deletions = 0 := by
  refine ⟨⟨_, steps_of_runAll rfl, rfl⟩, ⟨_, steps_of_runAll rfl, rfl⟩, _, steps_of_runAll rfl, rfl,
    rfl, fun t ht => ?_, rfl⟩
  simp [State.move, start, ht]

end Glim.RunnerV2
