import Glim.Runner.Jobs

/-!
# Removed jobs

`run` invokes the jobs that it has copied, and a job that is removed in the meantime is one of them.
After a removal a pass that has copied its jobs before it may still start the job that was
registered; no other pass starts a job under the name until one is scheduled again.

## Main definitions

* `Runner.Point.pending`: the copied jobs that a thread has yet to invoke
* `Runner.Removes`: the step removes what is registered under a name

## Main results

* `Runner.pending_of_steps`: what a thread has yet to invoke under a name without jobs
* `Runner.removed_or_copied`: which invocations start after a removal
* `Runner.removed_job_invoked`: a job that another job of the pass removes is still invoked
-/

namespace Glim.Runner

open Text Table Thread

/-- The copied jobs that the thread has yet to invoke. -/
def Point.pending : Point → List (List UInt8 × JobInfo)
  | .outside => []
  | .running jobs => jobs
  | .invoking _ _ jobs => jobs
  | .removing _ jobs => jobs

section Step

variable {r r' : Runner} {p p' : Point} {a : Action} {name : List UInt8}

/-- A job is registered by `schedule` only. -/
theorem registered_of_step {job : ℕ} (hx : step p a r = some (r', p'))
    (hreg : Registered r' name job) :
    Registered r name job ∨ ∃ pauseSec ct, a = .schedule name pauseSec ct := by
  cases moves_of_step hx with
  | @schedule p name' pauseSec ct =>
    rcases registered_schedule.mp hreg with ⟨rfl, -⟩ | ⟨-, hreg⟩
    · exact Or.inr ⟨pauseSec, ct, rfl⟩
    · exact Or.inl hreg
  | job => exact Or.inl (registered_job.mp hreg)
  | removeJob | remove => exact Or.inl (registered_removeJob.mp hreg).2
  | run => exact Or.inl (registered_copyJobs.mp hreg)
  | _ => exact Or.inl hreg

/-- A thread comes by a job to invoke in the locked section of `run` only, and there it is a
registered one. -/
theorem pending_step {jobInfo : JobInfo} (hx : step p a r = some (r', p'))
    (he : (name, jobInfo) ∈ p'.pending) :
    (name, jobInfo) ∈ p.pending ∧ (∀ ct order, a ≠ .run ct order) ∨
      (r.jobs.lookup name).map JobInfo.job = some jobInfo.job := by
  cases moves_of_step hx with
  | @run ct order =>
    rcases mem_copyJobs (fun jobInfo => shouldRun_job jobInfo ct) order r [] he with hin | hname
    · cases hin
    · exact Or.inr hname
  | done => cases he
  -- the next of the copied jobs is invoked
  | invoke => exact Or.inl ⟨List.mem_cons_of_mem _ he, nofun⟩
  | _ => exact Or.inl ⟨he, nofun⟩

/-- The invocation that a step of `run` starts is that of the next of the copied jobs. -/
theorem running_of_invoking {jobInfo : JobInfo} {jobs : List (List UInt8 × JobInfo)}
    (hx : step p .go r = some (r', .invoking name jobInfo jobs)) :
    p = .running ((name, jobInfo) :: jobs) := by
  cases moves_of_step hx
  rfl

end Step

variable {ι : Type} [DecidableEq ι]

/-- The step is the call of `removeJob (name)`, by anyone or by `run` itself. -/
def Removes (name : List UInt8) (l : ι × Action) (c : Config ι Runner Point) : Prop :=
  l.2 = .removeJob name ∨ ∃ jobs, c.pc l.1 = .removing name jobs ∧ l.2 = .go

/-- The label is a call of `schedule (name, ..)`. -/
def Schedules (name : List UInt8) (l : ι × Action) : Prop :=
  ∃ pauseSec ct, l.2 = .schedule name pauseSec ct

/-- The label is the locked section of `run` in the thread `t`. -/
def Copies (t : ι) (l : ι × Action) : Prop := ∃ ct order, l = (t, .run ct order)

section Runs

variable {c c₁ c₂ c' : Config ι Runner Point} {l : ι × Action} {ls : List (ι × Action)} {t : ι}
  {name : List UInt8} {jobInfo : JobInfo} {jobs : List (List UInt8 × JobInfo)}

/-- Nothing is registered under the name that was removed. -/
theorem not_registered_of_removes (hl : Removes name l c)
    (hx : Config.step step l c = some c') (job : ℕ) : ¬ Registered c'.shared name job := by
  obtain ⟨t, a⟩ := l
  obtain ⟨r, p, hp, rfl⟩ := Config.step_eq_some_iff.mp hx
  have hr : r = c.shared.removeJob name := by
    rcases hl with rfl | ⟨jobs, hpc, rfl⟩
    · cases hpc : c.pc t <;> rw [hpc] at hp <;> cases hp <;> rfl
    · rw [show c.pc t = _ from hpc] at hp
      cases hp
      rfl
  subst hr
  intro hreg
  exact (registered_removeJob.mp hreg).1 rfl

/-- Under a name without jobs, a thread has yet to invoke only what it had before, until one is
scheduled. -/
theorem pending_of_steps {job : ℕ} (hr : AllSteps (Config.step step) c ls c')
    (hc : ∀ job, ¬ Registered c.shared name job) (hls : ¬ ∃ l ∈ ls, Schedules name l)
    (he : (name, jobInfo) ∈ (c'.pc t).pending) (hjob : jobInfo.job = some job) :
    (name, jobInfo) ∈ (c.pc t).pending ∧ ¬ ∃ l ∈ ls, Copies t l := by
  induction hr with
  | nil => exact ⟨he, by simp⟩
  | @cons d d' d'' l ls _ hx _ ih =>
    obtain ⟨u, a⟩ := l
    obtain ⟨r, p, hp, rfl⟩ := Config.step_eq_some_iff.mp hx
    rw [List.exists_mem_cons_iff, not_or] at hls ⊢
    -- the first step registers nothing under the name
    have hnone : ∀ job, ¬ Registered r name job := by
      intro job hreg
      rcases registered_of_step hp hreg with hreg | hschedule
      · exact hc job hreg
      · exact hls.1 hschedule
    obtain ⟨hin, hcopies⟩ := ih hnone hls.2 he
    rcases eq_or_ne t u with rfl | hne
    · rw [Config.pc_move_self] at hin
      rcases pending_step hp hin with ⟨hin, hrun⟩ | hreg
      · refine ⟨hin, fun ⟨ct, order, heq⟩ => ?_, hcopies⟩
        exact hrun ct order (Prod.mk.inj heq).2
      -- a job that is copied is registered
      · rw [hjob] at hreg
        exact absurd hreg (hc job)
    · rw [Config.pc_move_of_ne _ _ _ _ hne] at hin
      refine ⟨hin, fun ⟨ct, order, heq⟩ => ?_, hcopies⟩
      exact hne (Prod.mk.inj heq).1.symm

/-- **A removed job is not started any more** unless the name is scheduled again after the removal,
or the pass that invokes it had copied it before: it was one of the jobs that its thread had yet to
invoke when it was removed, and the thread has copied nothing since. -/
theorem removed_or_copied {job : ℕ} (hremove : Removes name l c)
    (hl : Config.step step l c = some c₁) (hr : AllSteps (Config.step step) c₁ ls c₂)
    (hgo : Config.step step (t, .go) c₂ = some c')
    (hpc : c'.pc t = .invoking name jobInfo jobs) (hjob : jobInfo.job = some job) :
    (∃ l ∈ ls, Schedules name l) ∨
      (name, jobInfo) ∈ (c₁.pc t).pending ∧ ¬ ∃ l ∈ ls, Copies t l := by
  by_cases hls : ∃ l ∈ ls, Schedules name l
  · exact Or.inl hls
  · obtain ⟨r, p, hp, rfl⟩ := Config.step_eq_some_iff.mp hgo
    rw [Config.pc_move_self] at hpc
    subst hpc
    have hrunning := running_of_invoking hp
    refine Or.inr (pending_of_steps hr (not_registered_of_removes hremove hl) hls ?_ hjob)
    rw [hrunning]
    exact List.mem_cons_self

end Runs

/-- A job that is removed and scheduled again is started by the next pass. -/
theorem removed_or_copied_again :
    let post : List (ℕ × Action) := [(0, .schedule [97] 0.0 {}), (1, .run {} [[97]])]
    ∃ c c₁ c₂ c', Config.step step (0, .schedule [97] 0.0 {}) (start ℕ) = some c ∧
      Config.step step (0, .removeJob [97]) c = some c₁ ∧
      runAll (Config.step step) post c₁ = some c₂ ∧ Config.step step (1, .go) c₂ = some c' ∧
      ((∃ l ∈ post, Schedules [97] l) ∨
        ([97], { job := some 1, pauseSec := 0.0 }) ∈ (c₁.pc 1).pending ∧
          ¬ ∃ l ∈ post, Copies 1 l) := by
  intro post
  obtain ⟨c, hc⟩ : ∃ c, Config.step step (0, .schedule [97] 0.0 {}) (start ℕ) = some c := ⟨_, rfl⟩
  obtain ⟨c₁, hc₁⟩ : ∃ c₁, Config.step step (0, .removeJob [97]) c = some c₁ := by
    cases hc
    exact ⟨_, rfl⟩
  obtain ⟨c₂, hc₂⟩ : ∃ c₂, runAll (Config.step step) post c₁ = some c₂ := by
    cases hc
    cases hc₁
    exact ⟨_, rfl⟩
  obtain ⟨c', hc', hpc⟩ : ∃ c', Config.step step (1, .go) c₂ = some c' ∧
      c'.pc 1 = .invoking [97] { job := some 1, pauseSec := 0.0 } [] := by
    cases hc
    cases hc₁
    cases hc₂
    exact ⟨_, rfl, rfl⟩
  exact ⟨c, c₁, c₂, c', hc, hc₁, hc₂, hc',
    removed_or_copied (Or.inl rfl) hc₁ (steps_of_runAll hc₂) hc' hpc rfl⟩

/-- Two jobs are scheduled and copied, and one of them is invoked. -/
def invokesFirst : List (ℕ × Action) :=
  [(0, .schedule [97] 0.0 {}), (0, .schedule [98] 0.0 {}), (0, .run {} [[97], [98]]), (0, .go)]

/-- A job that another job of the same pass removes is still invoked by it. -/
theorem removed_job_invoked :
    let post : List (ℕ × Action) := [(0, .returns true)]
    ∃ c c₁ c₂ c' jobInfo, AllSteps (Config.step step) (start ℕ) invokesFirst c ∧
      Config.step step (0, .removeJob [97]) c = some c₁ ∧
      AllSteps (Config.step step) c₁ post c₂ ∧ Config.step step (0, .go) c₂ = some c' ∧
      c'.pc 0 = .invoking [97] jobInfo [] ∧ jobInfo.job = some 0 ∧
      ¬ ∃ l ∈ post, Schedules [97] l := by
  intro post
  refine ⟨_, _, _, _, _, steps_of_runAll rfl, rfl, steps_of_runAll rfl, rfl, rfl, rfl, ?_⟩
  rintro ⟨l, hl, pauseSec, ct, heq⟩
  obtain rfl := List.mem_singleton.mp hl
  cases heq

end Glim.Runner
