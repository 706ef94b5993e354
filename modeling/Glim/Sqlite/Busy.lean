import Glim.Sqlite.Basic
import Mathlib.Data.List.Count

/-!
# A busy database

A step of a `SqliteParQuery` prepares the statement again when the schema has changed, and repeats
the call when the database is busy. The result of a repetition is thrown away, whatever it is.

## Main definitions

* `Ahead`: the results that a step meets
* `Survives`: what a step is to do with them

## Main results

* `step_of_not_busy`: a step of a database that is not busy
* `step_of_busy`: a step of a busy database throws
* `survives_iff`: when a step does what it is to do
-/

namespace Glim.Sqlite

open Machine Unwind

/-- How often `sqlite3_step` was called. -/
def stepCalls (log : List Event) : ℕ :=
  log.countP fun
    | .step _ => true
    | _ => false

@[simp] theorem stepCalls_step (s : Option ℕ) (log : List Event) :
    stepCalls (.step s :: log) = stepCalls log + 1 := List.countP_cons_of_pos rfl

@[simp] theorem stepCalls_returned (rc : ℤ) (again : Bool) (log : List Event) :
    stepCalls (.returned rc again :: log) = stepCalls log := List.countP_cons_of_neg nofun

@[simp] theorem stepCalls_sleep (ms : ℤ) (log : List Event) :
    stepCalls (.sleep ms :: log) = stepCalls log := List.countP_cons_of_neg nofun

/-- A step will be told `schemas` times that the schema has changed, the statement can be prepared
again each time, then `busys` times that the database is busy, and then `rc`. -/
structure Ahead (schemas busys : ℕ) (rc : ℤ) (w : World) : Prop where
  statement : w.query.statement ≠ none
  steps : ∃ rest, w.steps =
    List.replicate schemas SQLITE_SCHEMA ++ List.replicate busys SQLITE_BUSY ++ rc :: rest
  prepares : ∃ rest, w.prepares = List.replicate schemas SQLITE_OK ++ rest
  rc_ne_schema : rc ≠ SQLITE_SCHEMA
  rc_ne_busy : rc ≠ SQLITE_BUSY

/-- What a step of a query that is not finished is to do: go on with `rc` if the database is not
busy for longer than `repeat` times, and throw otherwise, after at most `repeat` repetitions. -/
structure Survives (par : SqliteParQuery) (schemas busys : ℕ) (rc : ℤ) (w : World) : Prop where
  row : busys ≤ par.repeats → rc = SQLITE_ROW → ∃ w', SqliteParQuery.step par w = (.value true, w')
  done : busys ≤ par.repeats → rc = SQLITE_DONE →
    ∃ w', SqliteParQuery.step par w = (.value false, w') ∧
      w'.query.mChanges = w.sqlite.changes w'.log
  error : busys ≤ par.repeats → rc ≠ SQLITE_ROW → rc ≠ SQLITE_DONE →
    ∃ message w', SqliteParQuery.step par w = (.thrown message, w')
  busy : par.repeats < busys →
    ∃ message w', SqliteParQuery.step par w = (.thrown message, w') ∧
      stepCalls w'.log ≤ stepCalls w.log + schemas + 1 + par.repeats

section

variable (par : SqliteParQuery) {schemas busys left : ℕ} {rc : ℤ} {rest : List ℤ} {w : World}

theorem bind_of_value {α β : Type} {x : Act α} {f : α → Act β} {a : α} {w' : World}
    (h : x w = (.value a, w')) : (x >>= f) w = f a w' := by
  simp only [bind, h]

/-! ## The calls of `sqlite3_step` -/

/-- The state after a call of `sqlite3_step`. -/
def World.stepped (w : World) (rc : ℤ) (again : Bool) (rest : List ℤ) : World :=
  { w with steps := rest, log := .returned rc again :: .step w.query.statement :: w.log }

theorem sqlite3Step_of_cons (again : Bool) (hs : w.query.statement ≠ none)
    (h : w.steps = rc :: rest) : sqlite3Step again w = (.value rc, w.stepped rc again rest) := by
  obtain ⟨s, hs⟩ := Option.ne_none_iff_exists'.mp hs
  have hresult : stepResult { w with log := .step w.query.statement :: w.log } =
      (.value rc, { w with steps := rest, log := .step w.query.statement :: w.log }) := by
    simp only [stepResult, hs, h]
  exact bind_of_value hresult

/-! ## Repetitions -/

theorem retry_of_ne (hrc : rc ≠ SQLITE_BUSY) : SqliteParQuery.retry par left rc = pure rc := by
  cases left with
  | zero => rfl
  | succ left => exact if_neg hrc

/-- One repetition, after a pause. -/
theorem retry_succ (left : ℕ) (hs : w.query.statement ≠ none) (h : w.steps = rc :: rest) :
    ∃ w', SqliteParQuery.retry par (left + 1) SQLITE_BUSY w = SqliteParQuery.retry par left rc w' ∧
      w'.query = w.query ∧ w'.steps = rest ∧ stepCalls w'.log = stepCalls w.log + 1 := by
  let w₁ : World := { w with log := .sleep par.wait :: w.log }
  have hsleep : record (.sleep par.wait) w = (.value (), w₁) := rfl
  have hcall : sqlite3Step true w₁ = (.value rc, w₁.stepped rc true rest) :=
    sqlite3Step_of_cons true hs h
  refine ⟨w₁.stepped rc true rest, ?_, rfl, rfl, ?_⟩
  · rw [SqliteParQuery.retry, if_pos rfl, bind_of_value hsleep, bind_of_value hcall]
  · simp [World.stepped, w₁]

/-- The repetitions go on until the database is not busy any more, or none are left. -/
theorem retry_of_busy (left : ℕ) (hs : w.query.statement ≠ none)
    (hrc : rc ≠ SQLITE_BUSY)
    (h : w.steps = List.replicate busys SQLITE_BUSY ++ rc :: rest) :
    ∃ ret w', SqliteParQuery.retry par left SQLITE_BUSY w = (.value ret, w') ∧
      stepCalls w'.log = stepCalls w.log + min left (busys + 1) := by
  induction left generalizing w busys with
  | zero => exact ⟨SQLITE_BUSY, w, rfl, by simp⟩
  | succ left ih =>
    cases busys with
    | zero =>
      obtain ⟨w', hretry, -, -, hcalls⟩ := retry_succ par left hs h
      rw [retry_of_ne par hrc] at hretry
      exact ⟨rc, w', hretry, by omega⟩
    | succ busys =>
      rw [List.replicate_succ, List.cons_append] at h
      obtain ⟨w₁, hretry, hquery, hsteps, hcalls⟩ := retry_succ par left hs h
      rw [← hquery] at hs
      obtain ⟨ret, w', hrest, hcalls'⟩ := ih hs hsteps
      exact ⟨ret, w', hretry.trans hrest, by omega⟩

/-! ## The rounds of a step -/

/-- The statement is prepared again. -/
theorem reprepare_of_ok {prepares : List ℤ} (h : w.prepares = SQLITE_OK :: prepares) :
    ∃ w', SqliteParQuery.reprepare par w = (.value (), w') ∧ w'.query.statement ≠ none ∧
      w'.steps = w.steps ∧ w'.prepares = prepares ∧ w'.sqlite = w.sqlite ∧
      stepCalls w'.log = stepCalls w.log := by
  obtain ⟨sqlite, steps, prepares, statements, log, query⟩ := w
  subst h
  refine ⟨_, rfl, Option.some_ne_none _, rfl, rfl, rfl, ?_⟩
  simp only [stepCalls]
  rfl

theorem stepFrom_of_schema (rounds : ℕ) (hs : w.query.statement ≠ none)
    (hsteps : w.steps = SQLITE_SCHEMA :: rest) {prepares : List ℤ}
    (hprepares : w.prepares = SQLITE_OK :: prepares) :
    ∃ w', SqliteParQuery.stepFrom par (rounds + 1) w = SqliteParQuery.stepFrom par rounds w' ∧
      w'.query.statement ≠ none ∧ w'.steps = rest ∧ w'.prepares = prepares ∧
      w'.sqlite = w.sqlite ∧ stepCalls w'.log = stepCalls w.log + 1 := by
  have hcall := sqlite3Step_of_cons false hs hsteps
  obtain ⟨w', hreprepare, hstatement, hsteps', hprepares', hsqlite, hcalls⟩ :=
    reprepare_of_ok par (w := w.stepped SQLITE_SCHEMA false rest) hprepares
  refine ⟨w', ?_, hstatement, hsteps', hprepares', hsqlite, by simpa [World.stepped] using hcalls⟩
  rw [SqliteParQuery.stepFrom, bind_of_value hcall, if_neg (by decide), if_neg (by decide),
    if_pos rfl, bind_of_value hreprepare]

/-- The rounds in which the schema has changed. -/
theorem stepFrom_of_schemas (rounds : ℕ) (h : Ahead schemas busys rc w) :
    ∃ w', SqliteParQuery.stepFrom par (rounds + schemas) w =
        SqliteParQuery.stepFrom par rounds w' ∧
      Ahead 0 busys rc w' ∧ w'.sqlite = w.sqlite ∧
      stepCalls w'.log = stepCalls w.log + schemas := by
  induction schemas generalizing w with
  | zero => exact ⟨w, rfl, h, rfl, rfl⟩
  | succ schemas ih =>
    obtain ⟨hs, ⟨rest, hsteps⟩, ⟨prepares, hprepares⟩, hschema, hbusy⟩ := h
    rw [List.replicate_succ, List.cons_append, List.cons_append] at hsteps
    rw [List.replicate_succ, List.cons_append] at hprepares
    obtain ⟨w₁, hround, hs₁, hsteps₁, hprepares₁, hsqlite₁, hcalls₁⟩ :=
      stepFrom_of_schema par (rounds + schemas) hs hsteps hprepares
    obtain ⟨w', hrest, hahead, hsqlite, hcalls⟩ :=
      ih ⟨hs₁, ⟨rest, hsteps₁⟩, ⟨prepares, hprepares₁⟩, hschema, hbusy⟩
    exact ⟨w', hround.trans hrest, hahead, hsqlite.trans hsqlite₁, by omega⟩

/-! ## Steps -/

theorem step_of_open (hopen : w.query.mChanges < 0) :
    SqliteParQuery.step par w = SqliteParQuery.stepFrom par (w.steps.length + 1) w := by
  show (if w.query.mChanges ≥ 0 then (do setChanges 0; pure false : Act Bool)
    else SqliteParQuery.stepFrom par (w.steps.length + 1)) w = _
  rw [if_neg (Int.not_le.mpr hopen)]

/-- The step of a query that is not finished. -/
theorem step_of_ahead (hopen : w.query.mChanges < 0) (h : Ahead schemas busys rc w) :
    ∃ rounds w', SqliteParQuery.step par w = SqliteParQuery.stepFrom par (rounds + 1) w' ∧
      Ahead 0 busys rc w' ∧ w'.sqlite = w.sqlite ∧
      stepCalls w'.log = stepCalls w.log + schemas := by
  obtain ⟨rest, hsteps⟩ := h.steps
  have hrounds : w.steps.length + 1 = (busys + rest.length + 1) + 1 + schemas := by
    simp [hsteps]
    omega
  obtain ⟨w', hrest, hahead⟩ := stepFrom_of_schemas par (busys + rest.length + 1 + 1) h
  refine ⟨busys + rest.length + 1, w', ?_, hahead⟩
  rw [← hrest, ← hrounds, step_of_open par hopen]

/-- A step of a database that is not busy goes on with the result. -/
theorem step_of_not_busy (hopen : w.query.mChanges < 0) (h : Ahead schemas 0 rc w) :
    (rc = SQLITE_ROW → ∃ w', SqliteParQuery.step par w = (.value true, w')) ∧
    (rc = SQLITE_DONE → ∃ w', SqliteParQuery.step par w = (.value false, w') ∧
      w'.query.mChanges = w.sqlite.changes w'.log) ∧
    (rc ≠ SQLITE_ROW → rc ≠ SQLITE_DONE →
      ∃ message w', SqliteParQuery.step par w = (.thrown message, w')) := by
  obtain ⟨rounds, w₁, hstep, hahead, hsqlite, -⟩ := step_of_ahead par hopen h
  obtain ⟨rest, hsteps⟩ := hahead.steps
  have hcall := sqlite3Step_of_cons false hahead.statement hsteps
  rw [SqliteParQuery.stepFrom, bind_of_value hcall] at hstep
  -- the round dispatches on its result
  refine ⟨?_, ?_, ?_⟩
  · rintro rfl
    exact ⟨_, hstep⟩
  · rintro rfl
    rw [if_neg (by decide), if_pos rfl] at hstep
    refine ⟨_, hstep, ?_⟩
    rw [← hsqlite]
    rfl
  · intro hrow hdone
    rw [if_neg hrow, if_neg hdone, if_neg hahead.rc_ne_schema, retry_of_ne par hahead.rc_ne_busy]
      at hstep
    exact ⟨_, _, hstep⟩

/-- A step of a busy database throws, whatever the repetitions return. -/
theorem step_of_busy (hopen : w.query.mChanges < 0) (h : Ahead schemas (busys + 1) rc w) :
    ∃ message w', SqliteParQuery.step par w = (.thrown message, w') ∧
      stepCalls w'.log =
        stepCalls w.log + schemas + 1 + min (par.repeats + 1).toNat (busys + 1) := by
  obtain ⟨rounds, w₁, hstep, hahead, hsqlite, hcalls⟩ := step_of_ahead par hopen h
  obtain ⟨rest, hsteps⟩ := hahead.steps
  have hsteps' : w₁.steps =
      SQLITE_BUSY :: (List.replicate busys SQLITE_BUSY ++ rc :: rest) := hsteps
  have hcall := sqlite3Step_of_cons false hahead.statement hsteps'
  obtain ⟨ret, w', hretry, hcalls'⟩ := retry_of_busy par (par.repeats + 1).toNat
    (w := w₁.stepped SQLITE_BUSY false (List.replicate busys SQLITE_BUSY ++ rc :: rest))
    hahead.statement hahead.rc_ne_busy rfl
  -- what is behind the loop throws, and does not look at `ret`
  rw [SqliteParQuery.stepFrom, bind_of_value hcall, if_neg (by decide), if_neg (by decide),
    if_neg (by decide), bind_of_value hretry] at hstep
  refine ⟨_, w', hstep, ?_⟩
  rw [hcalls', World.stepped, stepCalls_returned, stepCalls_step, hcalls]

/-- **A step survives a busy database** if and only if the database is not busy, or is not busy for
longer than `repeat` times and there is another error behind that: the result of a repetition is
never used, and there is one repetition more than `repeat`. -/
theorem survives_iff (hopen : w.query.mChanges < 0) (hrepeats : 0 ≤ par.repeats)
    (h : Ahead schemas busys rc w) :
    Survives par schemas busys rc w ↔
      busys = 0 ∨ busys ≤ par.repeats ∧ rc ≠ SQLITE_ROW ∧ rc ≠ SQLITE_DONE := by
  cases busys with
  | zero =>
    obtain ⟨hrow, hdone, herror⟩ := step_of_not_busy par hopen h
    have hfew : ¬ par.repeats < (0 : ℕ) := by omega
    exact ⟨fun _ => .inl rfl, fun _ => ⟨fun _ => hrow, fun _ => hdone, fun _ => herror,
      fun hbusy => absurd hbusy hfew⟩⟩
  | succ busys =>
    obtain ⟨message, w', hthrown, hcalls⟩ := step_of_busy par hopen h
    constructor
    · intro hsurvives
      have hle : ((busys + 1 : ℕ) : ℤ) ≤ par.repeats := by
        -- otherwise the call is repeated once more than allowed
        by_contra hmany
        obtain ⟨message', w'', hthrown', hle⟩ := hsurvives.busy (by omega)
        obtain rfl : w' = w'' := congrArg Prod.snd (hthrown.symm.trans hthrown')
        omega
      refine .inr ⟨hle, fun hrow => ?_, fun hdone => ?_⟩
      · obtain ⟨w'', hvalue⟩ := hsurvives.row hle hrow
        cases hthrown.symm.trans hvalue
      · obtain ⟨w'', hvalue, -⟩ := hsurvives.done hle hdone
        cases hthrown.symm.trans hvalue
    · rintro (hzero | ⟨hle, hrow, hdone⟩)
      · cases hzero
      · exact ⟨fun _ heq => absurd heq hrow, fun _ heq => absurd heq hdone,
          fun _ _ _ => ⟨message, w', hthrown⟩, fun hbusy => absurd hbusy (by omega)⟩

end

/-- A prepared query, and the results of its calls to come. -/
def World.prepared (steps prepares : List ℤ) : World where
  sqlite := .plain
  steps := steps
  prepares := prepares
  statements := 1
  query := { statement := some 0 }

/-- The schema has changed once, and then there is a row. -/
theorem survives_schema :
    Survives ⟨"SELECT 1", 90, 20⟩ 1 0 SQLITE_ROW
      (World.prepared [SQLITE_SCHEMA, SQLITE_ROW] [SQLITE_OK]) :=
  (survives_iff _ (by decide) (by decide) ⟨Option.some_ne_none 0, ⟨[], rfl⟩, ⟨[], rfl⟩, by decide,
    by decide⟩).mpr (.inl rfl)

/-- A row that is fetched by the first repetition is lost. -/
theorem row_lost :
    ¬ Survives ⟨"SELECT 1", 90, 20⟩ 0 1 SQLITE_ROW
      (World.prepared [SQLITE_BUSY, SQLITE_ROW] []) := by
  intro h
  obtain ⟨w', hvalue⟩ := h.row (by decide) rfl
  have hthrown : (SqliteParQuery.step ⟨"SELECT 1", 90, 20⟩
      (World.prepared [SQLITE_BUSY, SQLITE_ROW] [])).1 =
      .thrown "SELECT 1database is locked" := rfl
  rw [hvalue] at hthrown
  cases hthrown

end Glim.Sqlite
