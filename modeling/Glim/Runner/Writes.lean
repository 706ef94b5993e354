import Glim.Runner.Removal

/-!
# What jobs write

A job receives a reference to its `JobInfo`, which is the copy that the pass has made of the
registered one. The copy is not looked at again when the job has returned: what the job has written
into it is lost. Nothing else becomes of a write, so that a run performs the steps that it would
perform without the writes.

## Main definitions

* `Runner.Callback`: where a thread is in `run`, and the `JobInfo` that its job may write
* `Runner.writeStep`: the steps of a thread, the writes of its jobs among them
* `Runner.LeavesAlone`: the step does not schedule or remove a job that is copied somewhere

## Main results

* `Runner.steps_erase`: the run without the writes
* `Runner.agree_of_steps`: the copies of a job agree with what is registered
* `Runner.takesEffect_iff`: what a job leaves in its `JobInfo` is registered when it has not changed
  anything
-/

namespace Glim

open Text Table Thread

/-- The fields that `schedule` sets, and a job may change. -/
def JobInfo.settings (jobInfo : JobInfo) : Option ℕ × Float32 := (jobInfo.job, jobInfo.pauseSec)

namespace Runner

/-- Where a thread is in `run`, and the element `jobs[jn]` that its job was given. -/
structure Callback where
  point : Point := .outside
  given : JobInfo := {}

/-- What a thread does, and a job to its `JobInfo`. -/
inductive Callback.Action where
  | does (a : Runner.Action)
  | writes (jobInfo : JobInfo)

/-- The `JobInfo` that the job has, when its thread goes from one point to another one. -/
def Point.given : Point → Point → JobInfo → JobInfo
  | .running _, .invoking _ jobInfo _, _ => jobInfo
  | _, _, jobInfo => jobInfo

/-- The steps of a thread and of its job. -/
def writeStep : Callback → Callback.Action → Runner → Option (Runner × Callback)
  | ⟨p, given⟩, .does a, r =>
    (step p a r).map fun (r', p') => (r', ⟨p', p.given p' given⟩)
  | ⟨.invoking name jobInfo jobs, _⟩, .writes given, r =>
    some (r, ⟨.invoking name jobInfo jobs, given⟩)
  | _, .writes _, _ => none

/-- What the job has left in its `JobInfo` is what is registered. -/
def TakesEffect (name : List UInt8) (given : JobInfo) (r : Runner) : Prop :=
  (r.jobs.lookup name).map JobInfo.settings = some given.settings

section Step

variable {r r' : Runner} {p p' : Point} {a : Action} {name : List UInt8} {ct : Timespec}

theorem shouldRun_settings (jobInfo : JobInfo) (ct : Timespec) :
    (shouldRun jobInfo ct).2.settings = jobInfo.settings := by
  unfold shouldRun
  simp only
  split_ifs <;> rfl

/-- Every copy of the job of a name has the settings that are registered. -/
def Agree (name : List UInt8) (r : Runner) (p : Point) : Prop :=
  ∀ jobInfo, (name, jobInfo) ∈ p.jobs →
    (r.jobs.lookup name).map JobInfo.settings = some jobInfo.settings

/-- The step schedules the name, or removes it. -/
def Changes (name : List UInt8) (p : Point) (a : Action) : Prop :=
  (∃ pauseSec ct, a = .schedule name pauseSec ct) ∨ a = .removeJob name ∨
    ∃ jobs, p = .removing name jobs ∧ a = .go

/-- What is registered under a name where a step neither schedules nor removes it. -/
theorem settings_step (hx : step p a r = some (r', p')) (ha : ¬ Changes name p a)
    {settings : Option ℕ × Float32}
    (h : (r.jobs.lookup name).map JobInfo.settings = some settings) :
    (r'.jobs.lookup name).map JobInfo.settings = some settings := by
  cases moves_of_step hx with
  | @schedule p name' pauseSec ct =>
    have hne : name ≠ name' := by
      rintro rfl
      exact ha (Or.inl ⟨pauseSec, ct, rfl⟩)
    unfold schedule
    rwa [map_lookup_insert, if_neg hne]
  | @job p name' =>
    -- what is there is left
    unfold Runner.job
    rw [map_lookup_insert]
    split_ifs with heq
    · subst heq
      unfold entry
      cases hl : r.jobs.lookup name with
      | none =>
        rw [hl] at h
        cases h
      | some jobInfo => rwa [hl] at h
    · exact h
  | @removeJob p name' =>
    have hne : name ≠ name' := by
      rintro rfl
      exact ha (Or.inr (Or.inl rfl))
    unfold removeJob
    rwa [SortedMap.lookup_erase, if_neg hne]
  | @run ct order => rwa [map_lookup_copyJobs fun jobInfo => shouldRun_settings jobInfo ct]
  | @remove name' jobs =>
    have hne : name ≠ name' := by
      rintro rfl
      exact ha (Or.inr (Or.inr ⟨jobs, rfl, rfl⟩))
    unfold removeJob
    rwa [SortedMap.lookup_erase, if_neg hne]
  | _ => exact h

/-- The copies of a thread after one of its steps are those that it had, or registered jobs. -/
theorem jobs_step {e : List UInt8 × JobInfo} (hx : step p a r = some (r', p'))
    (he : e ∈ p'.jobs) :
    e ∈ p.jobs ∨ (r'.jobs.lookup e.1).map JobInfo.settings = some e.2.settings := by
  cases moves_of_step hx with
  | @run ct order =>
    rcases mem_copyJobs (fun jobInfo => shouldRun_settings jobInfo ct) order r [] he with
      hin | hname
    · cases hin
    · refine Or.inr ?_
      rwa [map_lookup_copyJobs fun jobInfo => shouldRun_settings jobInfo ct]
  | done => cases he
  | again | ends | throws => exact Or.inl (List.mem_cons_of_mem _ he)
  | _ => exact Or.inl he

end Step

/-! ## Runs -/

variable {ι : Type} [DecidableEq ι]

/-- No job is scheduled or removed under the name while a thread has a copy of one. A pass that
removes its own job has no copy of it left. -/
def LeavesAlone (name : List UInt8) (l : ι × Callback.Action) (c : Config ι Runner Callback) :
    Prop :=
  ∀ a, l.2 = .does a → Changes name (c.pc l.1).point a →
    ∀ t jobInfo, (name, jobInfo) ∉ (c.pc t).point.jobs

/-- A runner without jobs. -/
def writeStart (ι : Type) : Config ι Runner Callback := ⟨{}, fun _ => {}⟩

/-- The threads without what their jobs have written. -/
def erase (c : Config ι Runner Callback) : Config ι Runner Point :=
  ⟨c.shared, fun t => (c.pc t).point⟩

/-- A label without the writes. -/
def label : ι × Callback.Action → Option (ι × Action)
  | (t, .does a) => some (t, a)
  | (_, .writes _) => none

section Runs

variable {c c' : Config ι Runner Callback} {ls : List (ι × Callback.Action)} {t : ι}
  {name : List UInt8}

theorem erase_move (r : Runner) (p : Callback) :
    erase (c.move t r p) = (erase c).move t r p.point := by
  unfold erase Config.move
  congr 1
  ext u
  rcases eq_or_ne u t with rfl | hne
  · simp
  · simp [hne]

/-- A step that is not a write. -/
theorem step_erase {a : Action} (hx : Config.step writeStep (t, .does a) c = some c') :
    Config.step step (t, a) (erase c) = some (erase c') := by
  obtain ⟨r, p, hp, rfl⟩ := Config.step_eq_some_iff.mp hx
  obtain ⟨⟨r', p'⟩, hstep, heq⟩ := Option.map_eq_some_iff.mp hp
  obtain ⟨rfl, rfl⟩ := Prod.mk.inj heq
  exact Config.step_eq_some_iff.mpr ⟨_, _, hstep, erase_move _ _⟩

/-- A write changes neither what is registered nor where the threads are. -/
theorem write_erase {given : JobInfo} (hx : Config.step writeStep (t, .writes given) c = some c') :
    erase c' = erase c := by
  obtain ⟨r, p, hp, rfl⟩ := Config.step_eq_some_iff.mp hx
  rw [erase_move]
  unfold erase Config.move
  congr 1
  · cases hpc : c.pc t with
    | mk point given' =>
      rw [hpc] at hp
      cases point <;> cases hp
      rfl
  · ext u
    rcases eq_or_ne u t with rfl | hne
    · cases hpc : c.pc u with
      | mk point given' =>
        rw [hpc] at hp
        cases point <;> cases hp
        simp
    · simp [hne]

/-- A run performs the steps of one without the writes. -/
theorem steps_erase (hr : AllSteps (Config.step writeStep) c ls c') :
    AllSteps (Config.step step) (erase c) (ls.filterMap label) (erase c') := by
  refine hr.simulates ?_ ?_
  · rintro ⟨t, a | given⟩ d d' l hl hx
    · cases hl
      exact step_erase hx
    · cases hl
  · rintro ⟨t, a | given⟩ d d' hl hx
    · cases hl
    · exact write_erase hx

/-- The copies of a job have the settings that are registered, while none is scheduled or removed
under the name of a copy. -/
theorem agree_of_steps (hr : Steps (Config.step writeStep) (LeavesAlone name) c ls c')
    (hc : ∀ t, Agree name c.shared (c.pc t).point) : ∀ t, Agree name c'.shared (c'.pc t).point := by
  refine hr.invariant (I := fun d => ∀ t, Agree name d.shared (d.pc t).point) ?_ hc
  rintro ⟨t, a | given⟩ d d' hd hg hx u jobInfo he
  · obtain ⟨r, p, hp, heq⟩ := Config.step_eq_some_iff.mp (step_erase hx)
    have hshared : (erase d').shared = r := by rw [heq, Config.shared_move]
    have hpoint : (erase d').pc u = ((erase d).move t r p).pc u := by rw [heq]
    rw [show d'.shared = r from hshared]
    rw [show (d'.pc u).point = _ from hpoint] at he
    -- the copy was there before the step, or it is what is registered after it
    have hor : (name, jobInfo) ∈ (d.pc u).point.jobs ∨
        (r.jobs.lookup name).map JobInfo.settings = some jobInfo.settings := by
      rcases eq_or_ne u t with rfl | hne
      · rw [Config.pc_move_self] at he
        exact jobs_step hp he
      · rw [Config.pc_move_of_ne _ _ _ _ hne] at he
        exact Or.inl he
    rcases hor with hin | hreg
    · refine settings_step hp (fun hchanges => ?_) (hd u jobInfo hin)
      exact hg a rfl hchanges u jobInfo hin
    · exact hreg
  · have hshared : (erase d').shared = (erase d).shared := by rw [write_erase hx]
    have hpoint : (erase d').pc u = (erase d).pc u := by rw [write_erase hx]
    rw [show d'.shared = d.shared from hshared]
    rw [show (d'.pc u).point = (d.pc u).point from hpoint] at he
    exact hd u jobInfo he

/-- **What a job writes into its `JobInfo`**, when it returns `true` and nothing has been scheduled
or removed under its name since it was copied, is registered afterwards if and only if it has left
the settings as they were. The other jobs are never affected: what is registered and copied
afterwards is what it would be without any writes. -/
theorem takesEffect_iff {jobInfo : JobInfo} {jobs : List (List UInt8 × JobInfo)}
    (hr : Steps (Config.step writeStep) (LeavesAlone name) (writeStart ι) ls c)
    (hpc : (c.pc t).point = .invoking name jobInfo jobs)
    (hreturn : Config.step writeStep (t, .does (.returns true)) c = some c') :
    (TakesEffect name (c.pc t).given c'.shared ∧
        AllSteps (Config.step step) (start ι) (ls.filterMap label ++ [(t, .returns true)])
          (erase c')) ↔
      (c.pc t).given.settings = jobInfo.settings := by
  have hreturned := step_erase hreturn
  -- the run goes on in the same way without the writes
  have herase := (steps_erase (hr.mono fun _ _ _ => trivial)).append
    (.cons trivial hreturned (.nil _))
  -- what is registered is what was copied
  have hagree : TakesEffect name jobInfo c.shared := by
    refine agree_of_steps hr (fun _ => nofun) t jobInfo ?_
    rw [hpc]
    exact List.mem_cons_self
  have hshared : c'.shared = c.shared := by
    obtain ⟨r, p, hp, heq⟩ := Config.step_eq_some_iff.mp hreturned
    rw [show (erase c).pc t = _ from hpc] at hp
    have hr : r = c.shared := by
      cases hjob : jobInfo.job with
      | none => simp [step, hjob] at hp
      | some job =>
        simp only [step, hjob, if_true, Option.some.injEq, Prod.mk.injEq] at hp
        exact hp.1.symm
    have hshared' : (erase c').shared = r := by rw [heq, Config.shared_move]
    rw [← hr]
    exact hshared'
  unfold TakesEffect at hagree ⊢
  rw [hshared, hagree]
  constructor
  · rintro ⟨heq, -⟩
    exact (Option.some.inj heq).symm
  · exact fun heq => ⟨congrArg some heq.symm, herase⟩

end Runs

/-- A job is scheduled, invoked, and writes into its `JobInfo`. -/
def writesOnce (given : JobInfo) : List (ℕ × Callback.Action) :=
  [(0, .does (.schedule [97] 0.0 {})), (0, .does (.run {} [[97]])), (0, .does .go),
    (0, .writes given)]

/-- Nobody touches the name of the job meanwhile. -/
theorem steps_writesOnce (given : JobInfo) : ∃ c : Config ℕ Runner Callback,
    Steps (Config.step writeStep) (LeavesAlone [97]) (writeStart ℕ) (writesOnce given) c ∧
      c.pc 0 = ⟨.invoking [97] { job := some 0, pauseSec := 0.0 } [], given⟩ ∧
      c.shared.jobs.lookup [97] = some { job := some 0, pauseSec := 0.0 } := by
  refine ⟨_, .cons ?_ rfl (.cons ?_ rfl (.cons ?_ rfl (.cons ?_ rfl (.nil _)))), rfl, rfl⟩
  · exact fun a _ _ t jobInfo => nofun
  · rintro a ⟨⟩ (⟨_, _, ⟨⟩⟩ | ⟨⟨⟩⟩ | ⟨_, _, ⟨⟩⟩)
  · rintro a ⟨⟩ (⟨_, _, ⟨⟩⟩ | ⟨⟨⟩⟩ | ⟨_, ⟨⟩, _⟩)
  · exact fun a h => nomatch h

/-- A job that writes what was there. -/
theorem takesEffect_unchanged : ∃ c c' : Config ℕ Runner Callback,
    Config.step writeStep (0, .does (.returns true)) c = some c' ∧
      ((TakesEffect [97] (c.pc 0).given c'.shared ∧ AllSteps (Config.step step) (start ℕ)
          ((writesOnce { job := some 0, pauseSec := 0.0 }).filterMap label ++ [(0, .returns true)])
          (erase c')) ↔
        (c.pc 0).given.settings = (some 0, 0.0)) := by
  obtain ⟨c, hr, hpc, -⟩ := steps_writesOnce { job := some 0, pauseSec := 0.0 }
  obtain ⟨c', hreturn⟩ : ∃ c', Config.step writeStep (0, .does (.returns true)) c = some c' := by
    unfold Config.step
    rw [hpc]
    exact ⟨_, rfl⟩
  have hpoint : (c.pc 0).point = .invoking [97] { job := some 0, pauseSec := 0.0 } [] := by rw [hpc]
  exact ⟨c, c', hreturn, takesEffect_iff hr hpoint hreturn⟩

/-- A job that puts another function in its place: the old one stays registered. -/
theorem write_lost : ∃ c c' : Config ℕ Runner Callback,
    Steps (Config.step writeStep) (LeavesAlone [97]) (writeStart ℕ)
        (writesOnce { job := some 1, pauseSec := 0.0 }) c ∧
      Config.step writeStep (0, .does (.returns true)) c = some c' ∧
      ¬ TakesEffect [97] (c.pc 0).given c'.shared := by
  obtain ⟨c, hr, hpc, hlookup⟩ := steps_writesOnce { job := some 1, pauseSec := 0.0 }
  obtain ⟨c', hreturn, hshared⟩ : ∃ c',
      Config.step writeStep (0, .does (.returns true)) c = some c' ∧ c'.shared = c.shared := by
    unfold Config.step
    rw [hpc]
    exact ⟨_, rfl, rfl⟩
  refine ⟨c, c', hr, hreturn, ?_⟩
  unfold TakesEffect
  rw [hshared, hlookup, hpc]
  intro heq
  cases congrArg (Option.map Prod.fst) heq

end Runner

end Glim
