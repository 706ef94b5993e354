import Glim.Table.SortedMap
import Glim.Text.Lex
import Glim.Thread.Steps

/-!
# The jobs of the runner

`run` copies the jobs that are due while it holds the lock, and then invokes the copies without
it; a job that returns `false` is removed by its name. Jobs and other threads register and remove
jobs at any time between the locked sections, which are one step each. What a job does when it
is invoked is arbitrary, so that a job is the number of the call of `schedule` that registered it.

## Main definitions

* `JobInfo`, `shouldRun`: a registered job, and whether it is due
* `Runner`: the registered jobs
* `Runner.Point`: where a thread is in `run`
* `Runner.step`: the steps of a thread
-/

namespace Glim

open Text Table Thread

/-- `struct timespec`. -/
structure Timespec where
  tv_sec : ℤ := 0
  tv_nsec : ℤ := 0

/-- `JobInfo`. The function `job` is empty, or was registered by the call of `schedule` with
that number. -/
structure JobInfo where
  job : Option ℕ := none
  pauseSec : Float32 := 1.0
  ran : Timespec := {}

/-- `shouldRun (entry, ct)`: whether the job is due, and its entry after that. -/
def shouldRun (jobInfo : JobInfo) (ct : Timespec) : Bool × JobInfo :=
  if jobInfo.pauseSec ≤ 0.0 then (true, jobInfo)
  else if jobInfo.ran.tv_sec = 0 then (true, { jobInfo with ran := ct })
  else
    let delta := Float32.ofInt (ct.tv_sec - jobInfo.ran.tv_sec)
    let delta := delta + Float32.ofInt (ct.tv_nsec - jobInfo.ran.tv_nsec) / 1000000000.0
    if jobInfo.pauseSec ≤ delta then (true, { jobInfo with ran := ct }) else (false, jobInfo)

/-- The jobs by their names, how many times `schedule` was called, and which jobs have returned
`false`. -/
structure Runner where
  jobs : SortedMap (List UInt8) JobInfo := .empty
  scheduled : ℕ := 0
  returned : List ℕ := []

/-- Where a thread is in `run`. -/
inductive Runner.Point where
  | outside
  /-- Before the next turn of the loop, with the copied jobs that are left. -/
  | running (jobs : List (List UInt8 × JobInfo))
  /-- In a job. -/
  | invoking (name : List UInt8) (jobInfo : JobInfo) (jobs : List (List UInt8 × JobInfo))
  /-- Before `removeJob (jobNames[jn])`. -/
  | removing (name : List UInt8) (jobs : List (List UInt8 × JobInfo))

/-- What a thread does. A job may do everything that happens outside of jobs. -/
inductive Runner.Action where
  | schedule (name : List UInt8) (pauseSec : Float32) (ct : Timespec)
  | job (name : List UInt8)
  | removeJob (name : List UInt8)
  /-- The locked section of `run`, which comes across the names in some order. -/
  | run (ct : Timespec) (order : List (List UInt8))
  /-- The next step of `run`. -/
  | go
  /-- The job returns. -/
  | returns (again : Bool)
  /-- The job throws an exception, which is logged. -/
  | throws

namespace Runner

/-- `_jobs[name]`: a job that is not registered is registered with its defaults. -/
def entry (name : List UInt8) (r : Runner) : JobInfo := (r.jobs.lookup name).getD {}

/-- `job (name)`. -/
def job (name : List UInt8) (r : Runner) : Runner :=
  { r with jobs := r.jobs.insert name (r.entry name) }

/-- `schedule (name, pauseSec, job)`. -/
def schedule (name : List UInt8) (pauseSec : Float32) (ct : Timespec) (r : Runner) : Runner :=
  let jobInfo := { r.entry name with job := some r.scheduled, pauseSec }
  let jobInfo := if 0.0 < pauseSec then { jobInfo with ran := ct } else jobInfo
  { r with jobs := r.jobs.insert name jobInfo, scheduled := r.scheduled + 1 }

/-- `removeJob (name)`. -/
def removeJob (name : List UInt8) (r : Runner) : Runner := { r with jobs := r.jobs.erase name }

/-- The loop that copies the jobs that are due: the last one is in front. -/
def copyJobs (ct : Timespec) : List (List UInt8) → Runner → List (List UInt8 × JobInfo) →
    Runner × List (List UInt8 × JobInfo)
  | [], r, copied => (r, copied)
  | name :: order, r, copied =>
    match r.jobs.lookup name with
    | none => copyJobs ct order r copied
    | some jobInfo =>
      let due := shouldRun jobInfo ct
      copyJobs ct order { r with jobs := r.jobs.insert name due.2 }
        (if due.1 then (name, due.2) :: copied else copied)

/-- The steps of a thread. -/
def step : Point → Action → Runner → Option (Runner × Point)
  | p, .schedule name pauseSec ct, r => some (r.schedule name pauseSec ct, p)
  | p, .job name, r => some (r.job name, p)
  | p, .removeJob name, r => some (r.removeJob name, p)
  | .outside, .run ct order, r =>
    if order.Perm r.jobs.keys then
      let (r, copied) := copyJobs ct order r []
      some (r, .running copied)
    else none
  -- `for (; jn >= 0; --jn)`, and `restartTimer ()` behind it
  | .running [], .go, r => some (r, .outside)
  | .running ((name, jobInfo) :: jobs), .go, r => some (r, .invoking name jobInfo jobs)
  | .invoking name jobInfo jobs, .returns again, r =>
    -- an empty function does not return: its invocation throws
    match jobInfo.job with
    | none => none
    | some job =>
      if again then some (r, .running jobs)
      else some ({ r with returned := job :: r.returned }, .removing name jobs)
  | .invoking _ _ jobs, .throws, r => some (r, .running jobs)
  | .removing name jobs, .go, r => some (r.removeJob name, .running jobs)
  | _, _, _ => none

/-- What a step of a thread does, and where. -/
inductive Moves (r : Runner) : Point → Action → Runner → Point → Prop
  | schedule {p : Point} {name : List UInt8} {pauseSec : Float32} {ct : Timespec} :
    Moves r p (.schedule name pauseSec ct) (r.schedule name pauseSec ct) p
  | job {p : Point} {name : List UInt8} : Moves r p (.job name) (r.job name) p
  | removeJob {p : Point} {name : List UInt8} : Moves r p (.removeJob name) (r.removeJob name) p
  | run {ct : Timespec} {order : List (List UInt8)} : order.Perm r.jobs.keys →
    Moves r .outside (.run ct order) (copyJobs ct order r []).1
      (.running (copyJobs ct order r []).2)
  | done : Moves r (.running []) .go r .outside
  | invoke {name : List UInt8} {jobInfo : JobInfo} {jobs : List (List UInt8 × JobInfo)} :
    Moves r (.running ((name, jobInfo) :: jobs)) .go r (.invoking name jobInfo jobs)
  | again {name : List UInt8} {jobInfo : JobInfo} {jobs : List (List UInt8 × JobInfo)} {job : ℕ} :
    jobInfo.job = some job →
    Moves r (.invoking name jobInfo jobs) (.returns true) r (.running jobs)
  | ends {name : List UInt8} {jobInfo : JobInfo} {jobs : List (List UInt8 × JobInfo)} {job : ℕ} :
    jobInfo.job = some job →
    Moves r (.invoking name jobInfo jobs) (.returns false)
      { r with returned := job :: r.returned } (.removing name jobs)
  | throws {name : List UInt8} {jobInfo : JobInfo} {jobs : List (List UInt8 × JobInfo)} :
    Moves r (.invoking name jobInfo jobs) .throws r (.running jobs)
  | remove {name : List UInt8} {jobs : List (List UInt8 × JobInfo)} :
    Moves r (.removing name jobs) .go (r.removeJob name) (.running jobs)

theorem moves_of_step {p p' : Point} {a : Action} {r r' : Runner}
    (hx : step p a r = some (r', p')) : Moves r p a r' p' := by
  unfold step at hx
  split at hx
  · cases hx
    exact .schedule
  · cases hx
    exact .job
  · cases hx
    exact .removeJob
  · split_ifs at hx with horder
    cases hx
    exact .run horder
  · cases hx
    exact .done
  · cases hx
    exact .invoke
  · next again =>
    split at hx
    · cases hx
    · next hjob =>
      cases again with
      | true =>
        cases hx
        exact .again hjob
      | false =>
        cases hx
        exact .ends hjob
  · cases hx
    exact .throws
  · cases hx
    exact .remove
  · cases hx

/-- A runner without jobs. -/
def start (ι : Type) : Config ι Runner Point := ⟨{}, fun _ => .outside⟩

/-- The job is registered under the name. -/
def Registered (r : Runner) (name : List UInt8) (job : ℕ) : Prop :=
  (r.jobs.lookup name).map JobInfo.job = some (some job)

end Runner

end Glim
