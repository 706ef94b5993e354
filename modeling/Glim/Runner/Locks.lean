import Glim.Runner.Finished

/-!
# The lock of a pass

`run` locks the mutex by hand, and unlocks it when it has looked for finished transfers and copied
the jobs that are due. An exception that escapes from there leaves the mutex locked; one that
escapes from a job does not.

## Main definitions

* `Runner.Calls`: what the functions do that a pass calls, and what they throw
* `Runner.run`: a pass
* `Runner.ErrLog.Catches`: the exception of a handler goes no further
* `Runner.handledJobs`: the jobs as the handlers leave them

## Main results

* `Runner.thrown_checkForFinishedCurlJobs`: which exception escapes from the loop over the messages
* `Runner.held_runJobs`: the jobs of a pass leave the mutex as it is
* `Runner.held_run_iff`: a pass gives the mutex back exactly if nothing escapes before it unlocks it
-/

namespace Glim.Runner

open Text Table

/-- How a job ends. -/
inductive JobOutcome where
  | returns (again : Bool)
  | throws (thrown : Thrown)

/-- What the functions do that a pass calls, and what they throw, and in which order a pass comes
across the names of the jobs. -/
structure Calls where
  errlog : ErrLog := {}
  copyName : List UInt8 → Option Thrown := fun _ => none
  copyJobInfo : JobInfo → Option Thrown := fun _ => none
  job : JobInfo → Runner → JobOutcome × Runner := fun _ r => (.returns true, r)
  order : Runner → List (List UInt8) := fun r => r.jobs.keys
  perm : ∀ r, (order r).Perm r.jobs.keys := by exact fun _ => .refl _

/-- How many times the thread holds `_mutex`, and what the lock protects. -/
structure Locked where
  held : ℕ := 0
  transfers : Transfers := {}

namespace Locked

def lock (s : Locked) : Locked := { s with held := s.held + 1 }

def unlock (s : Locked) : Locked := { s with held := s.held - 1 }

/-- The jobs are replaced. -/
def put (r : Runner) (s : Locked) : Locked :=
  { s with transfers := { s.transfers with runner := r } }

/-- `removeJob (name)`, with its guard of the mutex. -/
def removeJob (name : List UInt8) (s : Locked) : Locked :=
  let s := s.lock
  let s := s.put (s.transfers.runner.removeJob name)
  s.unlock

/-- An error is put together, and logged. -/
def log (e : ErrLog) (error : List UInt8) (s : Locked) : Option Thrown × Locked :=
  let (thrown, transfers) := s.transfers.log e error
  (thrown, { s with transfers })

end Locked

/-- The loop that copies the jobs that are due, up to a copy that throws. -/
def copyOrThrow (calls : Calls) (ct : Timespec) : List (List UInt8) → Runner →
    List (List UInt8 × JobInfo) → Option Thrown × Runner × List (List UInt8 × JobInfo)
  | [], r, copied => (none, r, copied)
  | name :: order, r, copied =>
    match r.jobs.lookup name with
    | none => copyOrThrow calls ct order r copied
    | some jobInfo =>
      let due := shouldRun jobInfo ct
      let r := { r with jobs := r.jobs.insert name due.2 }
      if due.1 then
        match (calls.copyName name).or (calls.copyJobInfo due.2) with
        | some thrown => (some thrown, r, copied)
        | none => copyOrThrow calls ct order r ((name, due.2) :: copied)
      else copyOrThrow calls ct order r copied

/-- The text of the exception of a job. -/
def jobError (name what : List UInt8) : List UInt8 :=
  ascii "glim::Runner: error in job " ++ name ++ ascii ": " ++ what

/-- The loop over the copied jobs. -/
def runJobs (calls : Calls) : List (List UInt8 × JobInfo) → Locked → Option Thrown × Locked
  | [], s => (none, s)
  | (name, jobInfo) :: jobs, s =>
    let (outcome, r) := calls.job jobInfo s.transfers.runner
    let s := s.put r
    match outcome with
    | .returns again => runJobs calls jobs (if again then s else s.removeJob name)
    | .throws (.exception what) =>
      match s.log calls.errlog (jobError name what) with
      | (some thrown, s) => (some thrown, s)
      | (none, s) => runJobs calls jobs s
    | .throws .other => (some .other, s)

/-- `run ()`: what it throws, and what it leaves. -/
def run (calls : Calls) (ct : Timespec) (messages : List ℕ) (s : Locked) :
    Option Thrown × Locked :=
  let s := s.lock
  let checked := checkForFinishedCurlJobs calls.errlog messages s.transfers
  let s := { s with transfers := checked.transfers }
  match checked.thrown with
  | some thrown => (some thrown, s)
  | none =>
    let r := s.transfers.runner
    let (thrown, r, copied) := copyOrThrow calls ct (calls.order r) r []
    let s := s.put r
    match thrown with
    | some thrown => (some thrown, s)
    | none => runJobs calls copied s.unlock

/-- What a handler throws is caught and logged, and goes no further. -/
def ErrLog.Catches (e : ErrLog) : Thrown → Prop
  | .exception what => e.appends (handlerError what) = none ∧ e.logs (handlerError what) = none
  | .other => False

/-- The jobs as the handlers of the queue leave them, up to the one that throws. -/
def handledJobs (s : Transfers) : List ℕ → Runner → Runner
  | [], r => r
  | curl :: messages, r =>
    match s.handlers.lookup curl with
    | none => handledJobs s messages r
    | some handler =>
      if handler.throws.isSome then handler.does r else handledJobs s messages (handler.does r)

/-- The jobs that are due can be copied. -/
def Calls.Copies (calls : Calls) (ct : Timespec) (r : Runner) : Prop :=
  ∀ name jobInfo, r.jobs.lookup name = some jobInfo → (shouldRun jobInfo ct).1 →
    calls.copyName name = none ∧ calls.copyJobInfo (shouldRun jobInfo ct).2 = none

/-! ## The finished transfers -/

section Check

variable {e : ErrLog} {messages : List ℕ} {s : Transfers} {curl : ℕ}

/-- Which exception escapes from the loop over the messages. -/
theorem thrown_checkForFinishedCurlJobs : (checkForFinishedCurlJobs e messages s).thrown = none ↔
    ∀ thrown, (messages.findSome? fun curl => s.throws curl) = some thrown → e.Catches thrown := by
  induction messages generalizing s with
  | nil => exact ⟨fun _ => by simp, fun _ => rfl⟩
  | cons curl messages ih =>
    cases hthrows : s.throws curl with
    | none =>
      -- the other handlers throw what they threw before the turn
      have hturn : (fun c => (s.turn curl).throws c) = fun c => s.throws c := by
        funext c
        rw [throws_turn]
        split_ifs with hc
        · rw [hc, hthrows]
        · rfl
      rw [checkForFinishedCurlJobs_cons hthrows, ih, hturn, List.findSome?_cons, hthrows]
    | some thrown =>
      rw [List.findSome?_cons, hthrows, checkForFinishedCurlJobs, hthrows]
      simp only [Option.some.injEq, forall_eq']
      cases thrown with
      | other => exact ⟨by simp, False.elim⟩
      | exception what =>
        show ((s.turn curl).log e (handlerError what)).1 = none ↔
          e.appends (handlerError what) = none ∧ e.logs (handlerError what) = none
        unfold Transfers.log
        cases e.appends (handlerError what) with
        | some thrown => exact ⟨by simp, fun h => absurd h.1 (Option.some_ne_none _)⟩
        | none => exact ⟨fun h => ⟨rfl, h⟩, And.right⟩

theorem handledJobs_turn (hcurl : curl ∉ messages) (r : Runner) :
    handledJobs (s.turn curl) messages r = handledJobs s messages r := by
  induction messages generalizing r with
  | nil => rfl
  | cons c messages ih =>
    obtain ⟨hne, hcurl⟩ := List.ne_and_not_mem_of_not_mem_cons hcurl
    unfold handledJobs
    rw [lookup_turn, if_neg hne.symm]
    cases s.handlers.lookup c with
    | none => exact ih hcurl r
    | some handler =>
      simp only
      rw [ih hcurl]

/-- The jobs after the loop over the messages. -/
theorem runner_checkForFinishedCurlJobs (hnodup : messages.Nodup) :
    (checkForFinishedCurlJobs e messages s).transfers.runner = handledJobs s messages s.runner := by
  induction messages generalizing s with
  | nil => rfl
  | cons curl messages ih =>
    obtain ⟨hcurl, hnodup⟩ := List.nodup_cons.mp hnodup
    cases hthrows : s.throws curl with
    | none =>
      -- the handler returns, and the loop goes on
      rw [checkForFinishedCurlJobs_cons hthrows, ih hnodup, handledJobs_turn hcurl, handledJobs]
      unfold Transfers.throws at hthrows
      unfold Transfers.turn Transfers.handle Transfers.freeCurl
      cases hl : s.handlers.lookup curl with
      | none => rfl
      | some handler =>
        rw [hl] at hthrows
        have hreturns : handler.throws = none := hthrows
        simp [hreturns]
    | some thrown =>
      -- the job of a handler that throws is kept, and the loop ends
      have hturn : (s.turn curl).runner = handledJobs s (curl :: messages) s.runner := by
        unfold Transfers.throws at hthrows
        unfold Transfers.turn Transfers.handle Transfers.freeCurl handledJobs
        cases hl : s.handlers.lookup curl with
        | none =>
          rw [hl] at hthrows
          cases hthrows
        | some handler =>
          rw [hl] at hthrows
          have hthrown : handler.throws = some thrown := hthrows
          simp [hthrown]
      rw [← hturn, checkForFinishedCurlJobs, hthrows]
      cases thrown with
      | other => rfl
      | exception what =>
        -- logging the exception does not touch the jobs, whether it throws or not
        show ((s.turn curl).log e (handlerError what)).2.runner = (s.turn curl).runner
        unfold Transfers.log
        cases e.appends (handlerError what) <;> rfl

end Check

/-! ## The copies of the jobs -/

section Copy

variable {calls : Calls} {ct : Timespec}

/-- The copies of a pass, where none throws. -/
theorem copyOrThrow_eq (order : List (List UInt8)) (r : Runner)
    (copied : List (List UInt8 × JobInfo)) (h : (copyOrThrow calls ct order r copied).1 = none) :
    (copyOrThrow calls ct order r copied).2 = copyJobs ct order r copied := by
  induction order generalizing r copied with
  | nil => rfl
  | cons name order ih =>
    unfold copyOrThrow at h ⊢
    unfold copyJobs
    cases hl : r.jobs.lookup name with
    | none =>
      rw [hl] at h
      exact ih r copied h
    | some jobInfo =>
      rw [hl] at h
      simp only at h ⊢
      split_ifs at h ⊢ with hdue
      · cases hor : (calls.copyName name).or (calls.copyJobInfo (shouldRun jobInfo ct).2) with
        | some thrown =>
          rw [hor] at h
          cases h
        | none =>
          rw [hor] at h
          exact ih _ _ h
      · exact ih _ _ h

/-- A pass copies its jobs if those that are due can be copied. -/
theorem thrown_copyOrThrow {order : List (List UInt8)} (hnodup : order.Nodup) (r : Runner)
    (copied : List (List UInt8 × JobInfo)) : (copyOrThrow calls ct order r copied).1 = none ↔
      ∀ name ∈ order, ∀ jobInfo, r.jobs.lookup name = some jobInfo → (shouldRun jobInfo ct).1 →
        calls.copyName name = none ∧ calls.copyJobInfo (shouldRun jobInfo ct).2 = none := by
  induction order generalizing r copied with
  | nil => exact ⟨fun _ => nofun, fun _ => rfl⟩
  | cons name order ih =>
    obtain ⟨hname, hnodup⟩ := List.nodup_cons.mp hnodup
    rw [List.forall_mem_cons]
    unfold copyOrThrow
    cases hl : r.jobs.lookup name with
    | none =>
      rw [ih hnodup r copied]
      exact ⟨fun h => ⟨nofun, h⟩, And.right⟩
    | some jobInfo =>
      -- the entry of the name is written back, and not looked at again
      have hrest : ∀ name' ∈ order, (r.jobs.insert name (shouldRun jobInfo ct).2).lookup name' =
          r.jobs.lookup name' := by
        intro name' hin
        rw [SortedMap.lookup_insert, if_neg]
        rintro rfl
        exact hname hin
      have hih : ∀ copied, (copyOrThrow calls ct order
          { r with jobs := r.jobs.insert name (shouldRun jobInfo ct).2 } copied).1 = none ↔
            ∀ name ∈ order, ∀ jobInfo, r.jobs.lookup name = some jobInfo →
              (shouldRun jobInfo ct).1 → calls.copyName name = none ∧
                calls.copyJobInfo (shouldRun jobInfo ct).2 = none := by
        intro copied
        refine (ih hnodup _ copied).trans (forall₂_congr fun name' hin => ?_)
        rw [hrest name' hin]
      simp only [Option.some.injEq, forall_eq']
      split_ifs with hdue
      · cases hor : (calls.copyName name).or (calls.copyJobInfo (shouldRun jobInfo ct).2) with
        | some thrown =>
          refine ⟨nofun, fun ⟨hcopies, _⟩ => ?_⟩
          rw [Option.or_eq_none_iff.mpr (hcopies hdue)] at hor
          cases hor
        | none =>
          simp only
          rw [hih]
          exact ⟨fun h => ⟨fun _ => Option.or_eq_none_iff.mp hor, h⟩, And.right⟩
      · rw [hih]
        exact ⟨fun h => ⟨fun hdue' => absurd hdue' hdue, h⟩, And.right⟩

/-- In any order of the names. -/
theorem copies_iff (r : Runner) (copied : List (List UInt8 × JobInfo)) :
    (copyOrThrow calls ct (calls.order r) r copied).1 = none ↔ calls.Copies ct r := by
  have hnodup : (calls.order r).Nodup :=
    (calls.perm r).nodup_iff.mpr (nodup_of_sorted r.jobs.pairwise_keys)
  refine (thrown_copyOrThrow hnodup r copied).trans (forall_congr' fun name => ?_)
  refine ⟨fun h jobInfo hl => h ?_ jobInfo hl, fun h _ => h⟩
  rw [(calls.perm r).mem_iff]
  exact List.mem_map_of_mem (SortedMap.lookup_eq_some_iff.mp hl)

end Copy

/-! ## The pass -/

section Pass

variable {calls : Calls}

theorem held_removeJob (name : List UInt8) (s : Locked) : (s.removeJob name).held = s.held :=
  Nat.add_sub_cancel s.held 1

/-- The jobs of a pass leave the mutex as it is, whatever they throw. -/
theorem held_runJobs (jobs : List (List UInt8 × JobInfo)) (s : Locked) :
    (runJobs calls jobs s).2.held = s.held := by
  induction jobs generalizing s with
  | nil => rfl
  | cons e jobs ih =>
    obtain ⟨name, jobInfo⟩ := e
    unfold runJobs
    rcases calls.job jobInfo s.transfers.runner with ⟨outcome, r⟩
    cases outcome with
    | returns again =>
      refine (ih _).trans ?_
      cases again with
      | true => rfl
      | false => exact held_removeJob name _
    | throws thrown =>
      cases thrown with
      | other => rfl
      | exception what =>
        -- the error is logged, or that throws
        have hlog : ((s.put r).log calls.errlog (jobError name what)).2.held = s.held := rfl
        simp only
        generalize (s.put r).log calls.errlog (jobError name what) = logged at hlog
        obtain ⟨_ | thrown, s'⟩ := logged
        · exact (ih s').trans hlog
        · exact hlog

/-- **A pass gives the mutex back** if and only if the exception of the first handler that throws,
where one does, is a `std::exception` which is logged without another exception, and the jobs that
are due can be copied. -/
theorem held_run_iff (calls : Calls) (ct : Timespec) (messages : Messages) (s : Locked) :
    (run calls ct messages.curls s).2.held = s.held ↔
      (∀ thrown, (messages.curls.findSome? fun curl => s.transfers.throws curl) = some thrown →
        calls.errlog.Catches thrown) ∧
      calls.Copies ct (handledJobs s.transfers messages.curls s.transfers.runner) := by
  rw [← thrown_checkForFinishedCurlJobs, ← runner_checkForFinishedCurlJobs messages.nodup,
    ← copies_iff _ []]
  have hone : s.held + 1 ≠ s.held := Nat.succ_ne_self s.held
  unfold run
  simp only [Locked.lock]
  generalize checkForFinishedCurlJobs calls.errlog messages.curls s.transfers = checked
  obtain ⟨thrown, left, transfers⟩ := checked
  cases thrown with
  | some thrown =>
    -- an exception of a handler escapes
    exact ⟨fun h => absurd h hone, fun h => nomatch h.1⟩
  | none =>
    simp only [true_and]
    generalize copyOrThrow calls ct (calls.order transfers.runner) transfers.runner [] = copies
    obtain ⟨thrown, r, copied⟩ := copies
    cases thrown with
    | some thrown => exact ⟨fun h => absurd h hone, nofun⟩
    | none => exact ⟨fun _ => rfl, fun _ => held_runJobs copied _⟩

end Pass

/-- A handler that throws something that is not a `std::exception`. -/
def throwsOther : Locked :=
  { transfers := { handlers := SortedMap.empty.insert 1 { throws := some .other } } }

/-- The pass ends with the mutex locked. -/
theorem left_locked : (run {} {} [1] throwsOther).2.held ≠ throwsOther.held := by
  decide

end Glim.Runner
