import Glim.Sqlite.Basic

/-!
# Finished queries

SQLite executes a statement from its beginning when it is stepped behind its end, and that must not
happen before the query is reset. The guard is `mChanges`, which is negative unless the query is
finished: `ustep` does not look at it, and it is not set when a repetition of a step finishes the
statement.

## Main definitions

* `finished`, `finishedAgain`: the statement is finished, by a call or by a repetition
* `NotReexecuted`: no finished statement is stepped
* `Call`, `runAll`: the calls of a query
* `Respects`: the relations between states that the parts of the calls respect
* `Guarded`: the calls that are not made for a finished statement

## Main results

* `Call.inv`: a guarded call does not step a finished statement, and keeps the guard
* `not_notReexecuted_of_not_guarded`: a call that is not guarded does
* `notReexecuted_iff`: a program steps no finished statement if and only if its calls are guarded
-/

namespace Glim.Sqlite

open Machine Unwind

/-! ## What a log says -/

/-- `sqlite3_step` has returned `SQLITE_DONE`, and the query was not reset since then. -/
def finished : List Event → Bool
  | [] => false
  | .returned rc _ :: log => rc = SQLITE_DONE || finished log
  | .reset _ :: _ => false
  | _ :: log => finished log

/-- The last `SQLITE_DONE` since the query was reset was the result of a repetition. -/
def finishedAgain : List Event → Bool
  | [] => false
  | .returned rc again :: log => if rc = SQLITE_DONE then again else finishedAgain log
  | .reset _ :: _ => false
  | _ :: log => finishedAgain log

/-- `sqlite3_step` was not called for a finished statement. -/
def NotReexecuted : List Event → Prop
  | [] => True
  | .step _ :: log => finished log = false ∧ NotReexecuted log
  | _ :: log => NotReexecuted log

theorem NotReexecuted.tail {e : Event} {log : List Event} (h : NotReexecuted (e :: log)) :
    NotReexecuted log := by
  cases e with
  | step => exact h.2
  | _ => exact h

theorem NotReexecuted.of_suffix {log log' : List Event} (hs : log <:+ log')
    (h : NotReexecuted log') : NotReexecuted log := by
  obtain ⟨front, rfl⟩ := hs
  induction front with
  | nil => exact h
  | cons e front ih => exact ih h.tail

/-! ## Programs -/

/-- A call of a query. -/
inductive Call where
  | step
  | next
  | qstep
  | ustep
  | changes
  | reset
  | bind (index : ℤ) (value : Value)
  | bindName (name : String) (value : Value)
  | shift (value : Value)
  deriving DecidableEq, Repr

/-- A call is made as that of a `SqliteQuery`, also of the base of a `SqliteParQuery`, or as that of
a `SqliteParQuery`, which has its own `step` and `next`. -/
structure Op where
  par : Option SqliteParQuery
  call : Call

namespace Op

/-- `step`, which is not virtual. -/
def step : Option SqliteParQuery → Act Bool
  | none => SqliteQuery.step
  | some par => SqliteParQuery.step par

/-- `next`, which is not virtual. -/
def next : Option SqliteParQuery → Act Bool
  | none => SqliteQuery.next
  | some par => SqliteParQuery.next par

/-- What a call does, without its result. -/
def exec (op : Op) : Act Unit :=
  match op.call with
  | .step => do
    let _ ← step op.par
  | .next => do
    let _ ← next op.par
  | .qstep => SqliteQuery.qstep
  | .ustep => do
    let _ ← SqliteQuery.ustep
  | .changes => do
    let _ ← SqliteQuery.changes
  | .reset => SqliteQuery.reset
  | .bind index value => SqliteQuery.bind index value
  | .bindName name value => SqliteQuery.bindName name value
  | .shift value => SqliteQuery.shift value

end Op

/-- The calls one after the other, which go on after an exception. -/
def runAll : List Op → Act Unit
  | [] => pure ()
  | op :: ops => do
    attempt op.exec
    runAll ops

/-- A query is constructed, and then called. -/
def program (query : String) (ops : List Op) : Act Unit := do
  SqliteQuery.construct query
  runAll ops

/-- A call that is not made for a finished statement: `ustep` never is, and the other calls that
step are if a repetition has finished it. -/
def Op.Guarded (op : Op) (log : List Event) : Prop :=
  finished log = true →
    match op.call with
    | .step | .next | .qstep => finishedAgain log = false
    | .ustep => False
    | _ => True

/-- Every call is guarded in the state it is made in. -/
def Guarded : List Op → World → Prop
  | [], _ => True
  | op :: ops, w =>
    op.Guarded w.log ∧
      match attempt op.exec w with
      | (.value _, w') => Guarded ops w'
      | _ => True

/-! ## The parts of the calls -/

/-- The call is one for this statement, or none for a statement, and neither prepares nor finalizes
one. -/
def Event.Touches (statement : Option ℕ) : Event → Prop
  | .step s => s = statement
  | .reset s => s = statement
  | .bind s _ _ => s = statement
  | .returned _ _ => True
  | .sleep _ => True
  | _ => False

/-- The relation holds between the states before and after the parts of a call that prepares
nothing: SQLite is called for the statement of the query, a result is taken, or the query changes
but for its statement. -/
structure Respects (R : World → World → Prop) : Prop where
  record : ∀ w e, e.Touches w.query.statement → R w { w with log := e :: w.log }
  steps : ∀ w steps, R w { w with steps := steps }
  query : ∀ w q, q.statement = w.query.statement → R w { w with query := q }

section Respects

variable {R : World → World → Prop} [Std.Refl R] [Trans R R R] (hR : Respects R)
include hR

omit [Std.Refl R] [Trans R R R] in
theorem Respects.setChanges (changes : ℤ) : Within R (setChanges changes) :=
  within_modify fun w => hR.query w _ rfl

omit [Trans R R R] hR in
theorem within_hang {α : Type} : Within R (hang : Act α) := Std.Refl.refl

omit hR in
theorem within_raiseErrmsg {α : Type} (message : String) :
    Within R (raiseErrmsg message : Act α) :=
  (within_get.bind fun _ => within_pure _).bind fun _ => within_raise _

omit [Trans R R R] in
theorem Respects.stepResult : Within R stepResult := by
  intro w
  rw [Sqlite.stepResult]
  split
  · exact Std.Refl.refl w
  · exact Std.Refl.refl w
  · exact hR.steps w _

/-- From the call of `sqlite3_step` on. -/
theorem Respects.snd_sqlite3Step (again : Bool) (w : World) :
    R { w with log := .step w.query.statement :: w.log } (sqlite3Step again w).2 :=
  (hR.stepResult.bind fun rc => Within.bind (within_modify fun w => hR.record w (.returned rc again)
    trivial) fun _ => within_pure rc) { w with log := .step w.query.statement :: w.log }

theorem Respects.sqlite3Step (again : Bool) : Within R (sqlite3Step again) := fun w =>
  Trans.trans (hR.record w (.step w.query.statement) rfl) (hR.snd_sqlite3Step again w)

theorem Respects.finish : Within R SqliteQuery.finish :=
  within_get.bind fun _ => hR.setChanges _

omit [Std.Refl R] in
theorem Respects.reset : Within R SqliteQuery.reset := fun w =>
  Trans.trans (hR.query w { w.query with bindCounter := 0, mChanges := -1 } rfl)
    (hR.record { w with query := { w.query with bindCounter := 0, mChanges := -1 } }
      (.reset w.query.statement) rfl)

theorem Respects.queryStep : Within R SqliteQuery.step :=
  within_get.bind fun _ => ((hR.setChanges _).bind fun _ => within_pure _).ite
    ((hR.sqlite3Step false).bind fun _ => (within_pure _).ite <|
      (hR.finish.bind fun _ => within_pure _).ite (within_raiseErrmsg _))

theorem Respects.qstep : Within R SqliteQuery.qstep :=
  hR.queryStep.bind fun _ => (within_raise _).when

theorem Respects.ustep : Within R SqliteQuery.ustep :=
  (hR.sqlite3Step false).bind fun _ =>
    (hR.finish.bind fun _ => within_get.bind fun _ => within_pure _).ite
      ((within_pure _).ite (within_raiseErrmsg _))

theorem Respects.bind (index : ℤ) (value : Value) :
    Within R (SqliteQuery.bind index value) := by
  intro w
  have hbound : R _ ((get >>= fun w => when (w.sqlite.bind w.log ≠ SQLITE_OK) (raiseErrmsg ""))
      { w with log := .bind w.query.statement index value :: w.log }).2 :=
    (within_get.bind fun _ => (within_raiseErrmsg _).when) _
  exact Trans.trans (hR.record w (.bind w.query.statement index value) rfl) hbound

theorem Respects.shift (value : Value) : Within R (SqliteQuery.shift value) :=
  Within.bind (within_modify fun w => hR.query w _ rfl) fun _ => within_get.bind fun _ =>
    hR.bind _ _

theorem Respects.bindName (name : String) (value : Value) :
    Within R (SqliteQuery.bindName name value) :=
  within_get.bind fun _ => (within_raise _).ite (hR.bind _ _)

variable (par : SqliteParQuery)

theorem Respects.retry (left : ℕ) (ret : ℤ) : Within R (par.retry left ret) := by
  induction left generalizing ret with
  | zero => exact within_pure ret
  | succ left ih =>
    exact (Within.bind (within_modify fun w => hR.record w (.sleep par.wait) trivial) fun _ =>
      (hR.sqlite3Step true).bind ih).ite (within_pure ret)

/-- The steps of a `SqliteParQuery`, which may prepare its statement again. -/
theorem Respects.stepFrom (hreprepare : Within R par.reprepare) (rounds : ℕ) :
    Within R (par.stepFrom rounds) := by
  induction rounds with
  | zero => exact within_hang
  | succ rounds ih =>
    exact (hR.sqlite3Step false).bind fun _ => (within_pure _).ite <|
      (hR.finish.bind fun _ => within_pure _).ite <|
      (hreprepare.bind fun _ => ih).ite <|
      (hR.retry par _ _).bind fun _ => within_raiseErrmsg _

theorem Respects.parStep (hreprepare : Within R par.reprepare) : Within R par.step :=
  within_get.bind fun _ => ((hR.setChanges _).bind fun _ => within_pure _).ite
    (hR.stepFrom par hreprepare _)

/-- A call relates the states before and after it, if the two functions `step` do. -/
theorem Respects.exec (op : Op) {w : World} (hstep : R w (Op.step op.par w).2)
    (hnext : R w (Op.next op.par w).2) : R w (op.exec w).2 := by
  rw [Op.exec]
  cases op.call with
  | step => exact snd_bind hstep fun _ => within_pure _
  | next => exact snd_bind hnext fun _ => within_pure _
  | qstep => exact hR.qstep w
  | ustep => exact (hR.ustep.bind fun _ => within_pure _) w
  | changes =>
    have hchanges : Within R SqliteQuery.changes := within_get.bind fun _ => within_pure _
    exact (hchanges.bind fun _ => within_pure _) w
  | reset => exact hR.reset w
  | bind index value => exact hR.bind index value w
  | bindName name value => exact hR.bindName name value w
  | shift value => exact hR.shift value w

end Respects

/-! ## Logs only grow -/

/-- The log of one state is the older part of that of another. -/
def Grows (w w' : World) : Prop := w.log <:+ w'.log

instance : Std.Refl Grows := ⟨fun w => List.suffix_refl w.log⟩

instance : Trans Grows Grows Grows := ⟨List.IsSuffix.trans⟩

section Grows

variable {w : World} {again : Bool}

theorem respects_grows : Respects Grows where
  record := fun w e _ => List.suffix_cons e w.log
  steps := fun w _ => List.suffix_refl w.log
  query := fun w _ _ => List.suffix_refl w.log

/-- A call of `sqlite3_step` is in the log, whatever comes of it. -/
theorem suffix_sqlite3Step :
    .step w.query.statement :: w.log <:+ (sqlite3Step again w).2.log :=
  respects_grows.snd_sqlite3Step again w

theorem grows_record (e : Event) : Within Grows (record e) :=
  within_modify fun w => List.suffix_cons e w.log

theorem grows_sqlite3Prepare : Within Grows sqlite3Prepare := by
  intro w
  rw [sqlite3Prepare]
  split
  · exact List.suffix_refl w.log
  · exact List.suffix_cons _ w.log

theorem grows_prepare (query : String) : Within Grows (SqliteQuery.prepare query) :=
  grows_sqlite3Prepare.bind fun _ => (within_raiseErrmsg _).when

variable (par : SqliteParQuery)

theorem grows_reprepare : Within Grows par.reprepare :=
  within_get.bind fun _ => (grows_prepare _).bind fun _ => within_get.bind fun _ =>
    (grows_record _).bind fun _ => grows_record _

theorem grows_exec (op : Op) : Within Grows op.exec := by
  intro w
  refine respects_grows.exec op ?_ ?_
  · cases op.par with
    | none => exact respects_grows.queryStep w
    | some par => exact respects_grows.parStep par (grows_reprepare par) w
  · cases op.par with
    | none => exact respects_grows.queryStep w
    | some par => exact respects_grows.parStep par (grows_reprepare par) w

theorem grows_runAll (ops : List Op) : Within Grows (runAll ops) := by
  induction ops with
  | nil => exact within_pure ()
  | cons op ops ih => exact (grows_exec op).attempt.bind fun _ => ih

end Grows

/-! ## Guarded calls -/

/-- The statement may be stepped. -/
structure Running (w : World) : Prop where
  notReexecuted : NotReexecuted w.log
  finished_eq : finished w.log = false

/-- What holds between two calls: the guard misses only what a repetition has finished. -/
structure Inv (w : World) : Prop where
  notReexecuted : NotReexecuted w.log
  guard : finished w.log = true → (finishedAgain w.log = true ↔ w.query.mChanges < 0)

section Inv

variable {w : World} {again : Bool} {par : SqliteParQuery} {α : Type} {message : String}

theorem Running.inv (h : Running w) : Inv w :=
  ⟨h.notReexecuted, fun hf => by simp [h.finished_eq] at hf⟩

/-- What a call of `sqlite3_step` for a statement that is not finished leaves behind. -/
theorem wp_sqlite3Step {Q : ℤ → World → Prop} {E : String → World → Prop} {T : World → Prop}
    (h : Running w)
    (hQ : ∀ rc w', NotReexecuted w'.log → finished w'.log = decide (rc = SQLITE_DONE) →
      (rc = SQLITE_DONE → finishedAgain w'.log = again) → w'.query = w.query → Q rc w')
    (hT : ∀ w', Running w' → T w') : wp (sqlite3Step again) Q E T w := by
  have hcall : NotReexecuted (.step w.query.statement :: w.log) :=
    ⟨h.finished_eq, h.notReexecuted⟩
  have hreturned : ∀ rc w', w'.log = .returned rc again :: .step w.query.statement :: w.log →
      w'.query = w.query → Q rc w' := by
    intro rc w' hlog hquery
    refine hQ rc w' (hlog ▸ hcall) ?_ ?_ hquery
    · have hfinished : finished (.step w.query.statement :: w.log) = false := h.finished_eq
      rw [hlog, finished, hfinished, Bool.or_false]
    · intro hrc
      rw [hlog, finishedAgain, if_pos hrc]
  simp only [sqlite3Step, record, wp_bind, wp_get, wp_modify, wp_pure]
  rw [wp, stepResult]
  split <;> rename_i heq <;> split at heq <;> cases heq
  · exact hreturned _ _ rfl rfl
  · exact hreturned _ _ rfl rfl
  · exact hT _ ⟨hcall, h.finished_eq⟩

theorem wp_raiseErrmsg {Q : α → World → Prop} {T : World → Prop} (h : Inv w) :
    wp (raiseErrmsg message : Act α) Q (fun _ => Inv) T w := h

/-- The end of a statement, when the result is not that of a repetition. -/
theorem inv_finish (hlog : NotReexecuted w.log) (hagain : finishedAgain w.log = false) :
    Inv (SqliteQuery.finish w).2 := by
  refine ⟨hlog, fun _ => ?_⟩
  have hlt : ¬ ((w.sqlite.changes w.log : ℤ) < 0) := Int.not_lt.mpr (Int.natCast_nonneg _)
  constructor
  · intro h
    rw [show finishedAgain (SqliteQuery.finish w).2.log = false from hagain] at h
    cases h
  · exact fun h => absurd h hlt

/-- The guard lets a call through only if the statement may be stepped. -/
theorem running_of_open (h : Inv w) (hopen : w.query.mChanges < 0)
    (hg : finished w.log = true → finishedAgain w.log = false) : Running w := by
  refine ⟨h.notReexecuted, ?_⟩
  by_contra hf
  rw [Bool.not_eq_false] at hf
  have hagain := (h.guard hf).mpr hopen
  rw [hg hf] at hagain
  cases hagain

/-- The guard stops a call, and the number of changes is forgotten. -/
theorem inv_setChanges (h : Inv w) (hdone : w.query.mChanges ≥ 0) : Inv (setChanges 0 w).2 := by
  refine ⟨h.notReexecuted, fun hf => ?_⟩
  have hagain : ¬ finishedAgain w.log = true := fun ha => Int.not_lt.mpr hdone ((h.guard hf).mp ha)
  exact ⟨fun ha => absurd ha hagain, fun hlt => absurd hlt (Int.lt_irrefl 0)⟩

theorem inv_step (h : Inv w) (hg : finished w.log = true → finishedAgain w.log = false) :
    wp SqliteQuery.step (fun _ => Inv) (fun _ => Inv) Inv w := by
  simp only [SqliteQuery.step, wp_bind, wp_get, wp_ite]
  refine ⟨fun hdone => inv_setChanges h hdone, fun hopen => ?_⟩
  refine wp_sqlite3Step (running_of_open h (Int.not_le.mp hopen) hg) ?_ fun _ => Running.inv
  intro rc w' hlog hfinished hagain _
  refine ⟨fun hrow => ?_, fun _ => ⟨fun hdone => inv_finish hlog (hagain hdone), fun hdone => ?_⟩⟩
  · rw [hrow] at hfinished
    exact Running.inv ⟨hlog, hfinished⟩
  · rw [decide_eq_false hdone] at hfinished
    exact wp_raiseErrmsg (Running.inv ⟨hlog, hfinished⟩)

theorem inv_qstep (h : Inv w) (hg : finished w.log = true → finishedAgain w.log = false) :
    wp SqliteQuery.qstep (fun _ => Inv) (fun _ => Inv) Inv w := by
  simp only [SqliteQuery.qstep, wp_bind]
  refine wp_mono (inv_step h hg) (fun fetched w' hw' => ?_) (fun _ _ => id) fun _ => id
  exact (wp_when _ _).mpr ⟨fun _ => hw', fun _ => hw'⟩

theorem inv_ustep (h : Inv w) (hg : finished w.log = false) :
    wp SqliteQuery.ustep (fun _ => Inv) (fun _ => Inv) Inv w := by
  simp only [SqliteQuery.ustep, wp_bind, wp_ite]
  refine wp_sqlite3Step ⟨h.notReexecuted, hg⟩ ?_ fun _ => Running.inv
  intro rc w' hlog hfinished hagain _
  refine ⟨fun hdone => inv_finish hlog (hagain hdone), fun hdone => ?_⟩
  rw [decide_eq_false hdone] at hfinished
  have hinv := Running.inv ⟨hlog, hfinished⟩
  exact ⟨fun _ => hinv, fun _ => wp_raiseErrmsg hinv⟩

theorem inv_reset (h : Inv w) : Inv (SqliteQuery.reset w).2 := by
  refine ⟨h.notReexecuted, fun hf => ?_⟩
  rw [show finished (SqliteQuery.reset w).2.log = false from rfl] at hf
  cases hf

/-- What is not in the guard may change. -/
theorem Inv.of_eq {w' : World} (h : Inv w) (hlog : w'.log = w.log)
    (hchanges : w'.query.mChanges = w.query.mChanges) : Inv w' := by
  obtain ⟨hn, hg⟩ := h
  rw [← hlog] at hn hg
  rw [← hchanges] at hg
  exact ⟨hn, hg⟩

theorem inv_bind (h : Inv w) (index : ℤ) (value : Value) :
    wp (SqliteQuery.bind index value) (fun _ => Inv) (fun _ => Inv) Inv w := by
  have hw : Inv { w with log := .bind w.query.statement index value :: w.log } :=
    ⟨h.notReexecuted, h.guard⟩
  simp only [SqliteQuery.bind, record, wp_bind, wp_get, wp_modify, wp_when]
  exact ⟨fun _ => wp_raiseErrmsg hw, fun _ => hw⟩

theorem inv_shift (h : Inv w) (value : Value) :
    wp (SqliteQuery.shift value) (fun _ => Inv) (fun _ => Inv) Inv w := by
  simp only [SqliteQuery.shift, wp_bind, wp_get, wp_modify]
  apply inv_bind
  exact h.of_eq rfl rfl

theorem inv_bindName (h : Inv w) (name : String) (value : Value) :
    wp (SqliteQuery.bindName name value) (fun _ => Inv) (fun _ => Inv) Inv w := by
  simp only [SqliteQuery.bindName, wp_bind, wp_get, wp_ite]
  exact ⟨fun _ => h, fun _ => inv_bind h _ value⟩

/-! ### Steps of a `SqliteParQuery` -/

theorem running_prepare (h : Running w) (hopen : w.query.mChanges < 0) (query : String) :
    wp (SqliteQuery.prepare query) (fun _ w' => Running w' ∧ w'.query.mChanges < 0) (fun _ => Inv)
      Inv w := by
  simp only [SqliteQuery.prepare, wp_bind, wp_when]
  rw [wp, sqlite3Prepare]
  split <;> rename_i heq <;> split at heq <;> cases heq
  · -- the call has returned
    have hw : ∀ w', w'.log = .prepare w'.query.statement :: w.log → Running w' := by
      intro w' hlog
      have hn : NotReexecuted (.prepare w'.query.statement :: w.log) := h.notReexecuted
      have hf : finished (.prepare w'.query.statement :: w.log) = false := h.finished_eq
      rw [← hlog] at hn hf
      exact ⟨hn, hf⟩
    exact ⟨fun _ => wp_raiseErrmsg (hw _ rfl).inv, fun _ => ⟨hw _ rfl, hopen⟩⟩
  · exact h.inv

theorem running_reprepare (h : Running w) (hopen : w.query.mChanges < 0) :
    wp par.reprepare (fun _ w' => Running w' ∧ w'.query.mChanges < 0) (fun _ => Inv) Inv w := by
  simp only [SqliteParQuery.reprepare, wp_bind, wp_get, record, wp_modify]
  exact wp_mono (running_prepare h hopen par.query)
    (fun _ _ hw => ⟨⟨hw.1.notReexecuted, hw.1.finished_eq⟩, hw.2⟩) (fun _ _ => id) fun _ => id

/-- The repetitions: when one of them finishes the statement, `mChanges` does not say so. -/
theorem inv_retry (h : Running w) (hopen : w.query.mChanges < 0) (left : ℕ) (ret : ℤ) :
    wp (par.retry left ret) (fun _ => Inv) (fun _ => Inv) Inv w := by
  induction left generalizing w ret with
  | zero => exact h.inv
  | succ left ih =>
    simp only [SqliteParQuery.retry, wp_ite, wp_bind, record, wp_modify]
    refine ⟨fun _ => ?_, fun _ => h.inv⟩
    have hsleep : Running { w with log := .sleep par.wait :: w.log } := ⟨h.1, h.2⟩
    refine wp_sqlite3Step hsleep (fun rc w' hlog hfinished hagain hquery => ?_) fun _ => Running.inv
    have hopen' : w'.query.mChanges < 0 := hquery ▸ hopen
    by_cases hdone : rc = SQLITE_DONE
    · -- the loop ends, as `rc` is not `SQLITE_BUSY`
      have hinv : Inv w' := ⟨hlog, fun _ => ⟨fun _ => hopen', fun _ => hagain hdone⟩⟩
      cases left with
      | zero => exact hinv
      | succ left =>
        have hend : par.retry (left + 1) rc = pure rc := if_neg (by rw [hdone]; decide)
        rw [hend]
        exact hinv
    · rw [decide_eq_false hdone] at hfinished
      exact ih ⟨hlog, hfinished⟩ hopen' rc

theorem inv_stepFrom (h : Running w) (hopen : w.query.mChanges < 0) (rounds : ℕ) :
    wp (par.stepFrom rounds) (fun _ => Inv) (fun _ => Inv) Inv w := by
  induction rounds generalizing w with
  | zero => exact h.inv
  | succ rounds ih =>
    simp only [SqliteParQuery.stepFrom, wp_bind, wp_ite]
    refine wp_sqlite3Step h (fun rc w' hlog hfinished hagain hquery => ?_) fun _ => Running.inv
    have hopen' : w'.query.mChanges < 0 := hquery ▸ hopen
    have hrunning : rc ≠ SQLITE_DONE → Running w' := fun hdone =>
      ⟨hlog, hfinished.trans (decide_eq_false hdone)⟩
    refine ⟨fun hrow => ?_, fun _ => ⟨fun hdone => ?_, fun hdone => ⟨fun _ => ?_, fun _ => ?_⟩⟩⟩
    · exact (hrunning (by rw [hrow]; decide)).inv
    · -- this call is no repetition, and `mChanges` is set
      exact inv_finish hlog (hagain hdone)
    · -- the schema has changed: the new statement is not finished either
      exact wp_mono (running_reprepare (hrunning hdone) hopen') (fun _ _ hw => ih hw.1 hw.2)
        (fun _ _ => id) fun _ => id
    · -- the repetitions, and the exception behind them
      exact wp_mono (inv_retry (hrunning hdone) hopen' _ rc) (fun _ _ hw => wp_raiseErrmsg hw)
        (fun _ _ => id) fun _ => id

theorem inv_parStep (h : Inv w) (hg : finished w.log = true → finishedAgain w.log = false) :
    wp par.step (fun _ => Inv) (fun _ => Inv) Inv w := by
  simp only [SqliteParQuery.step, wp_bind, wp_get, wp_ite]
  exact ⟨fun hdone => inv_setChanges h hdone, fun hopen =>
    inv_stepFrom (running_of_open h (Int.not_le.mp hopen) hg) (Int.not_le.mp hopen) _⟩

/-- A guarded call does not step a finished statement, and keeps the guard. -/
theorem Op.inv (op : Op) (h : Inv w) (hg : op.Guarded w.log) :
    wp op.exec (fun _ => Inv) (fun _ => Inv) Inv w := by
  obtain ⟨par, call⟩ := op
  have hstep : (finished w.log = true → finishedAgain w.log = false) →
      wp (Op.step par) (fun _ => Inv) (fun _ => Inv) Inv w := fun hagain => by
    cases par with
    | none => exact inv_step h hagain
    | some par => exact inv_parStep h hagain
  have hnext : (finished w.log = true → finishedAgain w.log = false) →
      wp (Op.next par) (fun _ => Inv) (fun _ => Inv) Inv w := fun hagain => by
    cases par with
    | none => exact inv_step h hagain
    | some par => exact inv_parStep h hagain
  cases call with
  | step => exact (wp_bind _).mpr (hstep hg)
  | next => exact (wp_bind _).mpr (hnext hg)
  | qstep => exact inv_qstep h hg
  | ustep => exact (wp_bind _).mpr (inv_ustep h ((Bool.not_eq_true _).mp hg))
  | changes => exact h
  | reset => exact inv_reset h
  | bind index value => exact inv_bind h index value
  | bindName name value => exact inv_bindName h name value
  | shift value => exact inv_shift h value

end Inv

/-! ## Calls that are not guarded -/

section Unguarded

variable {w : World}

/-- The state in which the statement is being stepped. -/
def World.stepping (w : World) : World := { w with log := .step w.query.statement :: w.log }

theorem grows_stepping_step (hopen : w.query.mChanges < 0) :
    Grows w.stepping (SqliteQuery.step w).2 := by
  show Grows _ ((if w.query.mChanges ≥ 0 then _ else _ : Act Bool) w).2
  rw [if_neg (Int.not_le.mpr hopen)]
  exact snd_bind suffix_sqlite3Step fun _ => (within_pure _).ite <|
    (respects_grows.finish.bind fun _ => within_pure _).ite (within_raiseErrmsg _)

theorem grows_stepping_parStep (par : SqliteParQuery) (hopen : w.query.mChanges < 0) :
    Grows w.stepping (par.step w).2 := by
  show Grows _ ((if w.query.mChanges ≥ 0 then _ else _ : Act Bool) w).2
  rw [if_neg (Int.not_le.mpr hopen), SqliteParQuery.stepFrom]
  exact snd_bind suffix_sqlite3Step fun _ => (within_pure _).ite <|
    (respects_grows.finish.bind fun _ => within_pure _).ite <|
    ((grows_reprepare par).bind fun _ =>
      respects_grows.stepFrom par (grows_reprepare par) _).ite <|
    (respects_grows.retry par _ _).bind fun _ => within_raiseErrmsg _

/-- A call that is not guarded steps a finished statement. -/
theorem Op.grows_stepping (op : Op) (h : Inv w) (hg : ¬ op.Guarded w.log) :
    Grows w.stepping (op.exec w).2 ∧ finished w.log = true := by
  obtain ⟨par, call⟩ := op
  rw [Op.Guarded, Classical.not_imp] at hg
  obtain ⟨hf, hg⟩ := hg
  refine ⟨?_, hf⟩
  -- the guard of `step` misses what a repetition has finished
  have hopen : finishedAgain w.log ≠ false → w.query.mChanges < 0 := fun hagain =>
    (h.guard hf).mp ((Bool.not_eq_false _).mp hagain)
  cases call with
  | step =>
    cases par with
    | none => exact snd_bind (grows_stepping_step (hopen hg)) fun _ => within_pure _
    | some par => exact snd_bind (grows_stepping_parStep par (hopen hg)) fun _ => within_pure _
  | next =>
    cases par with
    | none => exact snd_bind (grows_stepping_step (hopen hg)) fun _ => within_pure _
    | some par => exact snd_bind (grows_stepping_parStep par (hopen hg)) fun _ => within_pure _
  | qstep => exact snd_bind (grows_stepping_step (hopen hg)) fun _ => (within_raise _).when
  | ustep =>
    refine snd_bind (snd_bind suffix_sqlite3Step fun _ => ?_) fun _ => within_pure _
    exact (respects_grows.finish.bind fun _ => within_get.bind fun _ => within_pure _).ite
      ((within_pure _).ite (within_raiseErrmsg _))
  | changes => exact absurd trivial hg
  | reset => exact absurd trivial hg
  | bind index value => exact absurd trivial hg
  | bindName name value => exact absurd trivial hg
  | shift value => exact absurd trivial hg

end Unguarded

/-! ## Programs -/

/-- Calls step no finished statement if and only if they are guarded. -/
theorem notReexecuted_runAll_iff {ops : List Op} {w : World} (h : Inv w) :
    NotReexecuted (runAll ops w).2.log ↔ Guarded ops w := by
  induction ops generalizing w with
  | nil => exact ⟨fun _ => trivial, fun _ => h.notReexecuted⟩
  | cons op ops ih =>
    have hrun : Grows (op.exec w).2 (runAll (op :: ops) w).2 :=
      snd_bind (snd_attempt ▸ List.suffix_refl _) fun _ => grows_runAll ops
    by_cases hg : op.Guarded w.log
    · have hinv : Inv (attempt op.exec w).2 := by
        rw [snd_attempt]
        exact snd_of_wp (op.inv h hg)
      have hguarded : Guarded (op :: ops) w ↔ match attempt op.exec w with
          | (.value _, w') => Guarded ops w'
          | _ => True := and_iff_right hg
      rw [hguarded, runAll]
      simp only [bind]
      -- the other calls are made only if this one has returned
      rcases hx : attempt op.exec w with ⟨_ | e | _, w'⟩
      all_goals rw [hx] at hinv
      · exact ih hinv
      · exact ⟨fun _ => trivial, fun _ => hinv.notReexecuted⟩
      · exact ⟨fun _ => trivial, fun _ => hinv.notReexecuted⟩
    · -- the call leaves a step of a finished statement in the log, and logs only grow
      refine ⟨fun hn => ?_, fun hguarded => absurd hguarded.1 hg⟩
      obtain ⟨hstepping, hf⟩ := op.grows_stepping h hg
      have hstep := (hn.of_suffix hrun).of_suffix hstepping
      rw [hstep.1] at hf
      cases hf

/-- The state in which a program begins. -/
def World.initial (sqlite : Sqlite3) (steps prepares : List ℤ) : World where
  sqlite := sqlite
  steps := steps
  prepares := prepares

/-- Every call of a program is guarded. -/
def GuardedProgram (query : String) (ops : List Op) (w : World) : Prop :=
  match SqliteQuery.construct query w with
  | (.value _, w') => Guarded ops w'
  | _ => True

/-- **A program steps no finished statement** before the query is reset, if and only if it does not
call `ustep` for a finished statement, nor `step`, `next` or `qstep` for one that the repetition of
a step has finished. -/
theorem notReexecuted_iff (sqlite : Sqlite3) (steps prepares : List ℤ) (query : String)
    (ops : List Op) :
    NotReexecuted (program query ops (World.initial sqlite steps prepares)).2.log ↔
      GuardedProgram query ops (World.initial sqlite steps prepares) := by
  have hrunning : Running (World.initial sqlite steps prepares) := ⟨trivial, rfl⟩
  have hopen : (-1 : ℤ) < 0 := by decide
  have hinv : Inv (SqliteQuery.construct query (World.initial sqlite steps prepares)).2 :=
    snd_of_wp (wp_mono (running_prepare hrunning hopen query) (fun _ _ hw => hw.1.inv)
      (fun _ _ => id) fun _ => id)
  rw [GuardedProgram, program]
  simp only [bind]
  rcases hx : SqliteQuery.construct query (World.initial sqlite steps prepares)
    with ⟨_ | e | _, w'⟩
  all_goals rw [hx] at hinv
  · exact notReexecuted_runAll_iff hinv
  · exact ⟨fun _ => trivial, fun _ => hinv.notReexecuted⟩
  · exact ⟨fun _ => trivial, fun _ => hinv.notReexecuted⟩

/-- A second `ustep`, and a step behind one that was repeated, execute a statement again. -/
theorem executed_twice :
    ¬ NotReexecuted (program "INSERT" [⟨none, .ustep⟩, ⟨none, .ustep⟩]
      (World.initial .plain [SQLITE_DONE, SQLITE_DONE] [SQLITE_OK])).2.log ∧
    ¬ NotReexecuted (program "INSERT" [⟨some ⟨"INSERT", 90, 20⟩, .step⟩, ⟨none, .step⟩]
      (World.initial .plain [SQLITE_BUSY, SQLITE_DONE, SQLITE_DONE] [SQLITE_OK])).2.log := by
  refine ⟨fun h => ?_, fun h => ?_⟩
  · have hfinished : finished [.returned SQLITE_DONE false, .step (some 0), .prepare (some 0)] =
        false := h.1
    cases hfinished
  · have hfinished : finished [.returned SQLITE_DONE true, .step (some 0), .sleep 20,
        .returned SQLITE_BUSY false, .step (some 0), .prepare (some 0)] = false := h.1
    cases hfinished

end Glim.Sqlite
