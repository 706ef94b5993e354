import Glim.Runner.Basic

/-!
# Registered jobs

A job is lost where `run` removes by its name a job that returned `false`, and the name has been
scheduled again since it was copied. In a run where this does not happen, a job stays registered
until it returns `false`, it is removed, or another one replaces it.

## Main definitions

* `Runner.Numbered`: the numbers of all jobs are those of past calls of `schedule`
* `Runner.scheduledSince`: the names that were scheduled since a thread copied the jobs
* `Runner.Timely`: no name is removed by `run` that was scheduled since its jobs were copied
* `Runner.Point.Current`: what a thread has copied is registered, unless it was scheduled since

## Main results

* `Runner.registered_step`: what one step keeps registered
* `Runner.current_step`: the copies of a thread remain what is registered under their names
* `Runner.job_kept`: what a run keeps registered
* `Runner.job_lost`: a job that is scheduled while its predecessor runs is removed with it
-/

namespace Glim.Runner

open Text Table Thread

/-! ## What stays registered -/

section Registered

variable {r r' : Runner} {name : List UInt8} {job : ℕ} {ct : Timespec}

theorem shouldRun_job (jobInfo : JobInfo) (ct : Timespec) :
    (shouldRun jobInfo ct).2.job = jobInfo.job := by
  unfold shouldRun
  simp only
  split_ifs <;> rfl

/-- The jobs of the map after an entry has been written under a name. -/
theorem map_lookup_insert {α : Type} (f : JobInfo → α) (jobs : SortedMap (List UInt8) JobInfo)
    (name' : List UInt8) (jobInfo : JobInfo) : ((jobs.insert name' jobInfo).lookup name).map f =
      if name = name' then some (f jobInfo) else (jobs.lookup name).map f := by
  rw [SortedMap.lookup_insert]
  split_ifs <;> rfl

section Copy

/-! What `shouldRun` leaves as it is, the loop that copies the jobs leaves as it is. -/

variable {α : Type} {f : JobInfo → α} (hf : ∀ jobInfo, f (shouldRun jobInfo ct).2 = f jobInfo)
include hf

theorem map_lookup_shouldRun {jobs : SortedMap (List UInt8) JobInfo} {name' : List UInt8}
    {jobInfo : JobInfo} (hl : jobs.lookup name' = some jobInfo) :
    ((jobs.insert name' (shouldRun jobInfo ct).2).lookup name).map f =
      (jobs.lookup name).map f := by
  rw [map_lookup_insert, hf]
  split_ifs with heq
  · rw [heq, hl]
    rfl
  · rfl

theorem map_lookup_copyJobs (order : List (List UInt8)) (r : Runner)
    (copied : List (List UInt8 × JobInfo)) :
    ((copyJobs ct order r copied).1.jobs.lookup name).map f = (r.jobs.lookup name).map f := by
  -- each turn writes back the entry of its name
  induction order generalizing r copied with
  | nil => rfl
  | cons name' order ih =>
    unfold copyJobs
    cases hl : r.jobs.lookup name' with
    | none => exact ih r copied
    | some jobInfo =>
      simp only
      rw [ih, map_lookup_shouldRun hf hl]

/-- The copied jobs are registered ones, under their names. -/
theorem mem_copyJobs (order : List (List UInt8)) (r : Runner)
    (copied : List (List UInt8 × JobInfo)) {e : List UInt8 × JobInfo}
    (he : e ∈ (copyJobs ct order r copied).2) :
    e ∈ copied ∨ (r.jobs.lookup e.1).map f = some (f e.2) := by
  induction order generalizing r copied with
  | nil => exact Or.inl he
  | cons name' order ih =>
    unfold copyJobs at he
    cases hl : r.jobs.lookup name' with
    | none =>
      rw [hl] at he
      exact ih r copied he
    | some jobInfo =>
      rw [hl] at he
      rcases ih _ _ he with hin | hname
      -- the entry is the one that was copied in this turn, or an earlier one
      · cases hdue : (shouldRun jobInfo ct).1 with
        | true =>
          rw [hdue, if_pos rfl] at hin
          rcases List.mem_cons.mp hin with rfl | hin
          · refine Or.inr ?_
            rw [hl]
            exact congrArg some (hf jobInfo).symm
          · exact Or.inl hin
        | false =>
          rw [hdue, if_neg Bool.false_ne_true] at hin
          exact Or.inl hin
      · rw [map_lookup_shouldRun hf hl] at hname
        exact Or.inr hname

end Copy

theorem scheduled_copyJobs (order : List (List UInt8)) (r : Runner)
    (copied : List (List UInt8 × JobInfo)) :
    (copyJobs ct order r copied).1.scheduled = r.scheduled ∧
      (copyJobs ct order r copied).1.returned = r.returned := by
  induction order generalizing r copied with
  | nil => exact ⟨rfl, rfl⟩
  | cons name' order ih =>
    unfold copyJobs
    cases r.jobs.lookup name' with
    | none => exact ih r copied
    | some jobInfo => exact ih _ _

/-! What is registered after each of the locked sections. -/

theorem registered_schedule {name' : List UInt8} {pauseSec : Float32} :
    Registered (r.schedule name' pauseSec ct) name job ↔
      name = name' ∧ job = r.scheduled ∨ name ≠ name' ∧ Registered r name job := by
  unfold Registered schedule
  rw [map_lookup_insert]
  split_ifs with heq hpause
  · simp [heq, eq_comm]
  · simp [heq, eq_comm]
  · simp [heq]

/-- `job` writes the entry that is there, or one with an empty function. -/
theorem registered_job {name' : List UInt8} :
    Registered (r.job name') name job ↔ Registered r name job := by
  unfold Registered Runner.job
  rw [map_lookup_insert]
  split_ifs with heq
  · subst heq
    unfold entry
    cases hl : r.jobs.lookup name with
    | none => exact ⟨nofun, nofun⟩
    | some jobInfo => exact Iff.rfl
  · exact Iff.rfl

theorem registered_removeJob {name' : List UInt8} :
    Registered (r.removeJob name') name job ↔ name ≠ name' ∧ Registered r name job := by
  unfold Registered removeJob
  rw [SortedMap.lookup_erase]
  split_ifs with heq
  · simp [heq]
  · simp [heq]

theorem registered_copyJobs {order : List (List UInt8)} {copied : List (List UInt8 × JobInfo)} :
    Registered (copyJobs ct order r copied).1 name job ↔ Registered r name job := by
  unfold Registered
  rw [map_lookup_copyJobs fun jobInfo => shouldRun_job jobInfo ct]

/-- The actions that remove the job of a name, or put another one in its place. -/
def Action.ends (name : List UInt8) : Action → Prop
  | .schedule name' _ _ => name' = name
  | .removeJob name' => name' = name
  | _ => False

/-- A step keeps a job registered unless it replaces it, removes it explicitly, or removes the job
of that name after one has returned `false`. -/
theorem registered_step {p p' : Point} {a : Action} (hx : step p a r = some (r', p'))
    (hreg : Registered r name job) :
    Registered r' name job ∨ a.ends name ∨ ∃ jobs, p = .removing name jobs ∧ a = .go := by
  cases moves_of_step hx with
  | @schedule p name' pauseSec ct =>
    by_cases heq : name' = name
    · exact Or.inr (Or.inl heq)
    · exact Or.inl (registered_schedule.mpr (Or.inr ⟨Ne.symm heq, hreg⟩))
  | job => exact Or.inl (registered_job.mpr hreg)
  | @removeJob p name' =>
    by_cases heq : name' = name
    · exact Or.inr (Or.inl heq)
    · exact Or.inl (registered_removeJob.mpr ⟨Ne.symm heq, hreg⟩)
  | run => exact Or.inl (registered_copyJobs.mpr hreg)
  | done | invoke | again | ends | throws => exact Or.inl hreg
  | @remove name' jobs =>
    by_cases heq : name' = name
    · subst heq
      exact Or.inr (Or.inr ⟨jobs, rfl, rfl⟩)
    · exact Or.inl (registered_removeJob.mpr ⟨Ne.symm heq, hreg⟩)

end Registered

/-! ## The numbers of the jobs -/

/-- The copied jobs of a thread. -/
def Point.jobs : Point → List (List UInt8 × JobInfo)
  | .outside => []
  | .running jobs => jobs
  | .invoking name jobInfo jobs => (name, jobInfo) :: jobs
  | .removing _ jobs => jobs

/-- The numbers of the copied jobs are below `n`. -/
def Point.Below (n : ℕ) (p : Point) : Prop := ∀ e ∈ p.jobs, ∀ job, e.2.job = some job → job < n

/-- The numbers of the jobs are those of past calls of `schedule`. -/
structure Numbered (r : Runner) : Prop where
  registered : ∀ name job, Registered r name job → job < r.scheduled
  returned : ∀ job ∈ r.returned, job < r.scheduled

theorem Point.Below.mono {p : Point} {n n' : ℕ} (h : p.Below n) (hle : n ≤ n') : p.Below n' :=
  fun e he job hjob => (h e he job hjob).trans_le hle

/-- The numbers while nothing is scheduled. -/
theorem Numbered.of_registered {r r' : Runner} (hr : r.Numbered)
    (hscheduled : r'.scheduled = r.scheduled) (hreturned : r'.returned = r.returned)
    (hreg : ∀ name job, Registered r' name job → Registered r name job) : r'.Numbered := by
  refine ⟨fun name job h => ?_, fun job hjob => ?_⟩
  · rw [hscheduled]
    exact hr.registered name job (hreg name job h)
  · rw [hreturned] at hjob
    rw [hscheduled]
    exact hr.returned job hjob

/-- What one step does to the numbers. -/
theorem numbered_step {p p' : Point} {a : Action} {r r' : Runner}
    (hx : step p a r = some (r', p')) (hr : r.Numbered) (hp : p.Below r.scheduled) :
    r'.Numbered ∧ p'.Below r'.scheduled ∧ r.scheduled ≤ r'.scheduled := by
  cases moves_of_step hx with
  | @schedule p name' pauseSec ct =>
    have hle : r.scheduled ≤ (r.schedule name' pauseSec ct).scheduled := Nat.le_succ _
    refine ⟨⟨fun name job hreg => ?_, fun job hjob => ?_⟩, hp.mono hle, hle⟩
    · rcases registered_schedule.mp hreg with ⟨-, rfl⟩ | ⟨-, hreg⟩
      · exact Nat.lt_succ_self _
      · exact (hr.registered name job hreg).trans_le hle
    · exact (hr.returned job hjob).trans_le hle
  | job => exact ⟨hr.of_registered rfl rfl fun _ _ => registered_job.mp, hp, le_refl _⟩
  | removeJob =>
    exact ⟨hr.of_registered rfl rfl fun _ _ h => (registered_removeJob.mp h).2, hp, le_refl _⟩
  | @run ct order =>
    obtain ⟨hscheduled, hreturned⟩ := @scheduled_copyJobs ct order r []
    refine ⟨hr.of_registered hscheduled hreturned fun _ _ => registered_copyJobs.mp,
      fun e he job hjob => ?_, hscheduled.symm.le⟩
    -- a copied job is one that is registered
    rcases mem_copyJobs (fun jobInfo => shouldRun_job jobInfo ct) order r [] he with hin | hname
    · cases hin
    · rw [hjob] at hname
      rw [hscheduled]
      exact hr.registered e.1 job hname
  | done => exact ⟨hr, nofun, le_refl _⟩
  | invoke => exact ⟨hr, hp, le_refl _⟩
  | again => exact ⟨hr, fun e he => hp e (List.mem_cons_of_mem _ he), le_refl _⟩
  | ends hjob =>
    refine ⟨⟨hr.registered, fun job' hin => ?_⟩,
      fun e he => hp e (List.mem_cons_of_mem _ he), le_refl _⟩
    rcases List.mem_cons.mp hin with rfl | hin
    · exact hp _ List.mem_cons_self job' hjob
    · exact hr.returned job' hin
  | throws => exact ⟨hr, fun e he => hp e (List.mem_cons_of_mem _ he), le_refl _⟩
  | remove =>
    exact ⟨hr.of_registered rfl rfl fun _ _ h => (registered_removeJob.mp h).2, hp, le_refl _⟩

/-- The jobs that have returned `false` are not forgotten. -/
theorem returned_step {p p' : Point} {a : Action} {r r' : Runner}
    (hx : step p a r = some (r', p')) : ∀ job ∈ r.returned, job ∈ r'.returned := by
  cases moves_of_step hx with
  | run =>
    intro job hjob
    rwa [(scheduled_copyJobs _ _ _).2]
  | ends => exact fun job hjob => List.mem_cons_of_mem _ hjob
  | _ => exact fun job hjob => hjob

/-! ## Runs -/

variable {ι : Type} [DecidableEq ι]

/-- The numbers of all jobs, those that are copied included, are those of past calls. -/
theorem numbered_of_steps {c c' : Config ι Runner Point} {ls : List (ι × Action)}
    (hr : AllSteps (Config.step step) c ls c')
    (h : c.shared.Numbered ∧ ∀ t, (c.pc t).Below c.shared.scheduled) :
    c'.shared.Numbered ∧ ∀ t, (c'.pc t).Below c'.shared.scheduled := by
  refine hr.invariant
    (I := fun c => c.shared.Numbered ∧ ∀ t, (c.pc t).Below c.shared.scheduled) ?_ h
  rintro ⟨t, a⟩ d d' ⟨hd, hpcs⟩ - hx
  obtain ⟨r, p, hp, rfl⟩ := Config.step_eq_some_iff.mp hx
  obtain ⟨hnumbered, hbelow, hle⟩ := numbered_step hp hd (hpcs t)
  refine ⟨hnumbered, fun u => ?_⟩
  rcases eq_or_ne u t with rfl | hne
  · rw [Config.pc_move_self]
    exact hbelow
  · rw [Config.pc_move_of_ne _ _ _ _ hne]
    exact (hpcs u).mono hle

/-! ## What is scheduled behind the copies -/

/-- The names that have been scheduled, and not removed explicitly, since `t` copied the jobs: the
latest step is in front. -/
def scheduledSince (t : ι) : List (ι × Action) → List (List UInt8)
  | [] => []
  | (u, .run _ _) :: past => if u = t then [] else scheduledSince t past
  | (_, .schedule name _ _) :: past => name :: scheduledSince t past
  | (_, .removeJob name) :: past => (scheduledSince t past).filter (· ≠ name)
  | _ :: past => scheduledSince t past

/-- The scheduling that no job is lost under: when `run` removes a name because the copy of its job
has returned `false`, the name has not been scheduled since that copy was taken. -/
def Timely (l : ι × Action) (r : List (ι × Action) × Config ι Runner Point) : Prop :=
  ∀ name jobs, r.2.pc l.1 = .removing name jobs → l.2 = .go → name ∉ scheduledSince l.1 r.1

/-- Under a name that was not scheduled since, only the job that was copied is registered, and the
one that is to be removed has returned `false`. -/
structure Point.Current (r : Runner) (since : List (List UInt8)) (p : Point) : Prop where
  copied : ∀ e ∈ p.jobs, ∀ job, Registered r e.1 job → e.1 ∉ since → e.2.job = some job
  removed : ∀ name jobs, p = .removing name jobs → ∀ job, Registered r name job → name ∉ since →
    job ∈ r.returned

section Current

variable {t u : ι} {a : Action} {past : List (ι × Action)} {r r' : Runner} {p p' q : Point}

/-- While a thread does not copy the jobs, what is registered under a name that has not been
scheduled was registered before. -/
theorem registered_unscheduled {name : List UInt8} {job : ℕ} (hx : step p a r = some (r', p'))
    (hrun : u = t → ∀ ct order, a ≠ .run ct order) (hreg : Registered r' name job)
    (hsince : name ∉ scheduledSince t ((u, a) :: past)) :
    Registered r name job ∧ name ∉ scheduledSince t past := by
  cases moves_of_step hx with
  | schedule =>
    rcases registered_schedule.mp hreg with ⟨heq, -⟩ | ⟨-, hreg⟩
    · exact absurd heq (List.ne_of_not_mem_cons hsince)
    · exact ⟨hreg, List.not_mem_of_not_mem_cons hsince⟩
  | job => exact ⟨registered_job.mp hreg, hsince⟩
  | removeJob =>
    obtain ⟨hne, hreg⟩ := registered_removeJob.mp hreg
    exact ⟨hreg, fun hin => hsince (List.mem_filter.mpr ⟨hin, decide_eq_true hne⟩)⟩
  | @run ct order =>
    -- another thread copies the jobs
    have hne : u ≠ t := fun h => hrun h ct order rfl
    unfold scheduledSince at hsince
    rw [if_neg hne] at hsince
    exact ⟨registered_copyJobs.mp hreg, hsince⟩
  | remove => exact ⟨(registered_removeJob.mp hreg).2, hsince⟩
  | _ => exact ⟨hreg, hsince⟩

/-- A step that is not a call of `run` of the thread, and that leaves the thread with copies that it
had. -/
theorem Point.Current.mono (h : q.Current r (scheduledSince t past))
    (hx : step p a r = some (r', p')) (hrun : u = t → ∀ ct order, a ≠ .run ct order) {q' : Point}
    (hjobs : ∀ e ∈ q'.jobs, e ∈ q.jobs)
    (hremoving : ∀ name jobs, q' = .removing name jobs → q = .removing name jobs) :
    q'.Current r' (scheduledSince t ((u, a) :: past)) := by
  refine ⟨fun e he job hreg hsince => ?_, fun name jobs hq job hreg hsince => ?_⟩
  · obtain ⟨hreg, hsince⟩ := registered_unscheduled hx hrun hreg hsince
    exact h.copied e (hjobs e he) job hreg hsince
  · obtain ⟨hreg, hsince⟩ := registered_unscheduled hx hrun hreg hsince
    exact returned_step hx job (h.removed name jobs (hremoving name jobs hq) job hreg hsince)

/-- A step of another thread. -/
theorem Point.Current.of_ne (h : q.Current r (scheduledSince t past)) (hne : u ≠ t)
    (hx : step p a r = some (r', p')) : q.Current r' (scheduledSince t ((u, a) :: past)) :=
  h.mono hx (fun heq => absurd heq hne) (fun _ he => he) fun _ _ hq => hq

/-- A step of the thread itself. -/
theorem current_step (h : p.Current r (scheduledSince t past)) (hx : step p a r = some (r', p')) :
    p'.Current r' (scheduledSince t ((t, a) :: past)) := by
  cases moves_of_step hx with
  | @run ct order =>
    refine ⟨fun e he job hreg _ => ?_, nofun⟩
    -- the copies have just been taken
    rcases mem_copyJobs (fun jobInfo => shouldRun_job jobInfo ct) order r [] he with hin | hname
    · cases hin
    · have hreg := registered_copyJobs.mp hreg
      unfold Registered at hreg
      rw [hname] at hreg
      exact Option.some.inj hreg
  | @ends name jobInfo jobs job hjob =>
    refine ⟨fun e he => h.copied e (List.mem_cons_of_mem _ he), ?_⟩
    -- the job that is to be removed is the one that was copied
    rintro name' jobs' ⟨⟩ job' hreg hsince
    obtain rfl : job = job' := by
      have hcopied := h.copied (name, jobInfo) List.mem_cons_self job' hreg hsince
      rw [hjob] at hcopied
      exact Option.some.inj hcopied
    exact List.mem_cons_self
  | done => exact h.mono hx nofun nofun nofun
  | invoke => exact h.mono hx nofun (fun _ he => he) nofun
  | again | throws => exact h.mono hx nofun (fun e he => List.mem_cons_of_mem _ he) nofun
  | remove => exact h.mono hx nofun (fun _ he => he) nofun
  | schedule | job | removeJob => exact h.mono hx nofun (fun _ he => he) fun _ _ hq => hq

end Current

/-- The step does not remove a job that has not returned `false` itself: where `run` removes a job
by its name, the job of that name is one that has returned `false`, or there is none. -/
def RemovesItsOwn (l : ι × Action) (c : Config ι Runner Point) : Prop :=
  ∀ name jobs, c.pc l.1 = .removing name jobs → l.2 = .go →
    ∀ job, Registered c.shared name job → job ∈ c.shared.returned

/-- A step keeps the copies of all threads current. -/
theorem current_of_recorded {l : ι × Action} {r r' : List (ι × Action) × Config ι Runner Point}
    (hx : recorded (Config.step step) l r = some r')
    (h : ∀ t, (r.2.pc t).Current r.2.shared (scheduledSince t r.1)) :
    ∀ t, (r'.2.pc t).Current r'.2.shared (scheduledSince t r'.1) := by
  intro t
  obtain ⟨u, a⟩ := l
  obtain ⟨c', hc, rfl⟩ := recorded_eq_some_iff.mp hx
  obtain ⟨s, p, hp, rfl⟩ := Config.step_eq_some_iff.mp hc
  rcases eq_or_ne t u with rfl | hne
  · simp only [Config.pc_move_self, Config.shared_move]
    exact current_step (h t) hp
  · simp only [Config.pc_move_of_ne _ _ _ _ hne, Config.shared_move]
    exact (h t).of_ne hne.symm hp

/-- While no name is removed that was scheduled since its jobs were copied, `run` removes only jobs
that have returned `false`. -/
theorem removesItsOwn_of_steps {r r' : List (ι × Action) × Config ι Runner Point}
    {ls : List (ι × Action)} (hr : Steps (recorded (Config.step step)) Timely r ls r')
    (h : ∀ t, (r.2.pc t).Current r.2.shared (scheduledSince t r.1)) :
    Steps (Config.step step) RemovesItsOwn r.2 ls r'.2 := by
  refine hr.forget (fun l r r' h hx => current_of_recorded hx h) ?_ h
  rintro ⟨t, a⟩ ⟨past, c⟩ h htimely name jobs hpc ha job hreg
  exact (h t).removed name jobs hpc job hreg (htimely name jobs hpc ha)

/-- A registered job stays so until it returns `false`, or the name is scheduled again or
removed. -/
theorem registered_of_steps {c c' : Config ι Runner Point} {ls : List (ι × Action)}
    {name : List UInt8} {job : ℕ} (hr : Steps (Config.step step) RemovesItsOwn c ls c')
    (h : Registered c.shared name job ∨ job ∈ c.shared.returned) :
    Registered c'.shared name job ∨ job ∈ c'.shared.returned ∨ ∃ l ∈ ls, l.2.ends name := by
  -- once the job has returned `false`, it does not matter whether it is registered
  induction hr with
  | nil => exact h.imp_right Or.inl
  | @cons d d' d'' l ls hg hx _ ih =>
    obtain ⟨t, a⟩ := l
    obtain ⟨r, p, hp, rfl⟩ := Config.step_eq_some_iff.mp hx
    have hlater : (Registered r name job ∨ job ∈ r.returned) → Registered d''.shared name job ∨
        job ∈ d''.shared.returned ∨ ∃ l ∈ (t, a) :: ls, l.2.ends name := fun h => by
      rcases ih h with hreg | hreturned | ⟨l, hl, hends⟩
      · exact Or.inl hreg
      · exact Or.inr (Or.inl hreturned)
      · exact Or.inr (Or.inr ⟨l, List.mem_cons_of_mem _ hl, hends⟩)
    rcases h with hreg | hreturned
    · rcases registered_step hp hreg with hreg' | hends | ⟨jobs, hpc, rfl⟩
      · exact hlater (Or.inl hreg')
      · exact Or.inr (Or.inr ⟨(t, a), List.mem_cons_self, hends⟩)
      -- the guard: the removed job has returned `false`
      · exact hlater (Or.inr (returned_step hp job (hg name jobs hpc rfl job hreg)))
    · exact hlater (Or.inr (returned_step hp job hreturned))

/-- **No registered job is lost** in a run in which no name is removed by `run` that was scheduled
since its jobs were copied: a job that is scheduled stays registered until it returns `false`, which
it has not done yet, or its name is scheduled again or removed explicitly. -/
theorem job_kept {c c₁ : Config ι Runner Point} {pre post : List (ι × Action)} {t : ι}
    {name : List UInt8} {pauseSec : Float32} {ct : Timespec}
    {r : List (ι × Action) × Config ι Runner Point}
    (hpre : AllSteps (Config.step step) (start ι) pre c)
    (hschedule : Config.step step (t, .schedule name pauseSec ct) c = some c₁)
    (hpost : Steps (recorded (Config.step step)) Timely
      ((t, .schedule name pauseSec ct) :: pre.reverse, c₁) post r) :
    c.shared.scheduled ∉ c₁.shared.returned ∧
      (Registered r.2.shared name c.shared.scheduled ∨ c.shared.scheduled ∈ r.2.shared.returned ∨
        ∃ l ∈ post, l.2.ends name) := by
  have hnumbered := (numbered_of_steps hpre ⟨⟨nofun, nofun⟩, fun _ => nofun⟩).1
  -- before the job is scheduled, and by that, the copies are current
  have hcurrent : ∀ u, (c₁.pc u).Current c₁.shared
      (scheduledSince u ((t, .schedule name pauseSec ct) :: pre.reverse)) := by
    have hsteps := (hpre.append (.cons trivial hschedule (.nil c₁))).recorded []
    rw [List.reverse_append, List.append_nil] at hsteps
    exact hsteps.invariant (I := fun r => ∀ u, (r.2.pc u).Current r.2.shared (scheduledSince u r.1))
      (fun l r r' h _ hx => current_of_recorded hx h) fun _ => ⟨nofun, nofun⟩
  have hpost := removesItsOwn_of_steps hpost hcurrent
  obtain ⟨s, p, hp, rfl⟩ := Config.step_eq_some_iff.mp hschedule
  have hs : s = c.shared.schedule name pauseSec ct := by
    cases hpc : c.pc t <;> rw [hpc] at hp <;> cases hp <;> rfl
  subst hs
  refine ⟨fun hin => ?_, registered_of_steps hpost (Or.inl ?_)⟩
  · exact absurd (hnumbered.returned _ hin) (Nat.lt_irrefl _)
  · exact registered_schedule.mpr (Or.inl ⟨rfl, rfl⟩)

/-- A job is scheduled, invoked, and removed when it returns `false`, while another thread schedules
a job of another name. -/
theorem job_kept_once :
    let post : List (ℕ × Action) := [(0, .run {} [[97]]), (0, .go), (1, .schedule [98] 1.0 {}),
      (0, .returns false), (0, .go), (0, .go)]
    ∃ c₁ r, Config.step step (0, .schedule [97] 0.0 {}) (start ℕ) = some c₁ ∧
      runAll (recorded (Config.step step)) post ([(0, .schedule [97] 0.0 {})], c₁) = some r ∧
      0 ∉ c₁.shared.returned ∧ (Registered r.2.shared [97] 0 ∨ 0 ∈ r.2.shared.returned ∨
        ∃ l ∈ post, l.2.ends [97]) := by
  intro post
  obtain ⟨c₁, hx⟩ : ∃ c₁, Config.step step (0, .schedule [97] 0.0 {}) (start ℕ) = some c₁ :=
    ⟨_, rfl⟩
  obtain ⟨r, hx'⟩ : ∃ r, runAll (recorded (Config.step step)) post
      ([(0, .schedule [97] 0.0 {})], c₁) = some r := by
    cases hx
    exact ⟨_, rfl⟩
  refine ⟨c₁, r, hx, hx', job_kept (.nil _) hx ?_⟩
  cases hx
  cases hx'
  refine .cons nofun rfl (.cons nofun rfl (.cons nofun rfl (.cons nofun rfl ?_)))
  refine .cons ?_ rfl (.cons nofun rfl (.nil _))
  -- the step that removes the job by its name
  rintro name jobs ⟨⟩ -
  decide

/-- A job that is scheduled while an older one of its name runs is removed when that one returns
`false`, although it has not run yet. -/
theorem job_lost :
    let post : List (ℕ × Action) := [(0, .returns false), (0, .go)]
    ∃ c c₁ c', AllSteps (Config.step step) (start ℕ)
        [(0, .schedule [97] 0.0 {}), (0, .run {} [[97]]), (0, .go)] c ∧
      Config.step step (1, .schedule [97] 0.0 {}) c = some c₁ ∧
      AllSteps (Config.step step) c₁ post c' ∧ ¬ Registered c'.shared [97] c.shared.scheduled ∧
      c.shared.scheduled ∉ c'.shared.returned ∧ ¬ ∃ l ∈ post, l.2.ends [97] := by
  intro post
  refine ⟨_, _, _, steps_of_runAll rfl, rfl, steps_of_runAll rfl, ?_, ?_, ?_⟩
  · exact nofun
  · decide
  · rintro ⟨l, hl, hends⟩
    simp only [post, List.mem_cons, List.not_mem_nil, or_false] at hl
    rcases hl with rfl | rfl
    · exact hends
    · exact hends

end Glim.Runner
