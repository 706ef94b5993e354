import Glim.Sqlite.Reexecution

/-!
# Prepared statements

A query holds at most one statement, and its destructor finalizes that. A `SqliteParQuery` replaces
its statement when the schema has changed, and overwrites the pointer to the old one before it is
known whether there is a new one: where there is none, the old statement is lost.

## Main definitions

* `NotUsedFinalized`: no statement was used after it had been finalized
* `Open`: a statement has been prepared, and was not finalized
* `Replaces`: the open statements of other queries stay open, and whether one is lost
* `Op.Reprepares`: the statement is prepared again whenever the schema has changed

## Main results

* `Op.replaces`: a call loses the statement of the query exactly if it does not prepare it again
* `replaces_construct`, `replaces_destroy`: the constructor and the destructor lose none
-/

namespace Glim.Sqlite

open Machine Unwind

/-- `~SqliteQuery`: the statement is finalized, if there is one. -/
def SqliteQuery.destroy : Act Unit := do
  let w ← get
  when (w.query.statement ≠ none) (record (.finalize w.query.statement))

/-! ## Statements -/

/-- The call is made for the statement `n`. -/
def Event.Uses (n : ℕ) : Event → Prop
  | .step s => s = some n
  | .reset s => s = some n
  | .bind s _ _ => s = some n
  | .transferBindings old new => old = some n ∨ new = some n
  | .finalize s => s = some n
  | _ => False

/-- No statement was used after it had been finalized. -/
def NotUsedFinalized : List Event → Prop
  | [] => True
  | e :: log => (∀ n, e.Uses n → .finalize (some n) ∉ log) ∧ NotUsedFinalized log

/-- The statement has been prepared, and was not finalized. -/
def Open (log : List Event) (n : ℕ) : Prop :=
  .prepare (some n) ∈ log ∧ .finalize (some n) ∉ log

/-- The statements in the log have smaller numbers than `k`. -/
def Fresh (log : List Event) (k : ℕ) : Prop :=
  ∀ n, .prepare (some n) ∈ log ∨ .finalize (some n) ∈ log → n < k

section Log

variable {log : List Event} {e : Event} {m n k k' : ℕ}

theorem open_cons (hprepare : e ≠ .prepare (some n)) (hfinalize : e ≠ .finalize (some n)) :
    Open (e :: log) n ↔ Open log n := by
  rw [Open, Open, List.mem_cons, List.mem_cons, or_iff_right hprepare.symm,
    or_iff_right hfinalize.symm]

theorem open_cons_prepare (hnew : .finalize (some m) ∉ log) :
    Open (.prepare (some m) :: log) n ↔ n = m ∨ Open log n := by
  by_cases hn : n = m
  · subst hn
    refine iff_of_true ⟨List.mem_cons_self, fun hmem => ?_⟩ (Or.inl rfl)
    cases hmem with
    | tail _ hmem => exact hnew hmem
  · rw [or_iff_right hn]
    refine open_cons (fun heq => hn ?_) nofun
    cases heq
    rfl

theorem open_cons_finalize : Open (.finalize (some m) :: log) n ↔ n ≠ m ∧ Open log n := by
  by_cases hn : n = m
  · subst hn
    exact iff_of_false (fun hopen => hopen.2 List.mem_cons_self) fun hne => hne.1 rfl
  · rw [and_iff_right hn]
    refine open_cons nofun fun heq => hn ?_
    cases heq
    rfl

theorem Fresh.cons (h : Fresh log k) (hk : k ≤ k')
    (he : ∀ n, e = .prepare (some n) ∨ e = .finalize (some n) → n < k') : Fresh (e :: log) k' := by
  intro n hn
  rw [List.mem_cons, List.mem_cons] at hn
  rcases hn with (heq | hmem) | heq | hmem
  · exact he n (Or.inl heq.symm)
  · exact Nat.lt_of_lt_of_le (h n (Or.inl hmem)) hk
  · exact he n (Or.inr heq.symm)
  · exact Nat.lt_of_lt_of_le (h n (Or.inr hmem)) hk

/-- A statement that is not in the log was not finalized. -/
theorem Fresh.finalize_notMem (h : Fresh log k) : .finalize (some k) ∉ log := fun hmem =>
  absurd (h k (Or.inr hmem)) (Nat.lt_irrefl k)

theorem Fresh.not_open (h : Fresh log k) : ¬ Open log k := fun hopen =>
  absurd (h k (Or.inl hopen.1)) (Nat.lt_irrefl k)

end Log

/-- The statements in a log have been prepared before, and were not used after they had been
finalized. -/
structure Sound (w : World) : Prop where
  fresh : Fresh w.log w.statements
  notUsed : NotUsedFinalized w.log
  opened : ∀ n, w.query.statement = some n → Open w.log n

/-- The statement is open, and not that of the query. -/
def Rest (w : World) (n : ℕ) : Prop := Open w.log n ∧ w.query.statement ≠ some n

/-- `P'` holds wherever `P` does, and nowhere else exactly if `kept`. -/
structure Extends {α : Type} (kept : Prop) (P P' : α → Prop) : Prop where
  grows : ∀ n, P n → P' n
  kept_iff : kept ↔ ∀ n, P' n → P n

/-- The open statements of other queries stay open, and no other statements are open exactly if
`kept`: otherwise that of the query is lost. -/
structure Replaces (kept : Prop) (w w' : World) : Prop where
  sound : Sound w'
  rest : Extends kept (Rest w) (Rest w')

section Extends

variable {α : Type} {P P' P'' : α → Prop} {kept kept' : Prop}

theorem Extends.of_forall_iff (h : ∀ n, P' n ↔ P n) : Extends True P P' :=
  ⟨fun n => (h n).mpr, iff_of_true trivial fun n => (h n).mp⟩

theorem Extends.of_iff (hiff : kept ↔ kept') (h : Extends kept P P') : Extends kept' P P' :=
  ⟨h.grows, hiff.symm.trans h.kept_iff⟩

theorem Extends.trans (h : Extends kept P P') (h' : Extends kept' P' P'') :
    Extends (kept ∧ kept') P P'' where
  grows := fun n hn => h'.grows n (h.grows n hn)
  kept_iff := by
    constructor
    · rintro ⟨hk, hk'⟩ n hn
      exact h.kept_iff.mp hk n (h'.kept_iff.mp hk' n hn)
    · intro hall
      refine ⟨h.kept_iff.mpr fun n hn => ?_, h'.kept_iff.mpr fun n hn => ?_⟩
      · exact hall n (h'.grows n hn)
      · exact h.grows n (hall n hn)

end Extends

section Replaces

variable {w w' w'' : World} {kept kept' : Prop}

theorem Replaces.refl (h : Sound w) : Replaces True w w := ⟨h, .of_forall_iff fun _ => Iff.rfl⟩

theorem Replaces.trans (h : Replaces kept w w') (h' : Replaces kept' w' w'') :
    Replaces (kept ∧ kept') w w'' := ⟨h'.sound, h.rest.trans h'.rest⟩

theorem Replaces.of_iff (hiff : kept ↔ kept') (h : Replaces kept w w') : Replaces kept' w w' :=
  ⟨h.sound, h.rest.of_iff hiff⟩

/-- Calls for the statement of the query, which neither prepare nor finalize one. -/
structure Touches (w w' : World) : Prop where
  statement : w'.query.statement = w.query.statement
  statements : w'.statements = w.statements
  prepares : w'.prepares = w.prepares
  log : ∃ front, w'.log = front ++ w.log ∧ ∀ e ∈ front, e.Touches w.query.statement

instance : Std.Refl Touches := ⟨fun _ => ⟨rfl, rfl, rfl, [], rfl, nofun⟩⟩

instance : Trans Touches Touches Touches where
  trans := by
    rintro w w' w'' ⟨h₁, h₂, h₃, front, hlog, hfront⟩ ⟨h₁', h₂', h₃', front', hlog', hfront'⟩
    refine ⟨h₁'.trans h₁, h₂'.trans h₂, h₃'.trans h₃, front' ++ front, ?_, ?_⟩
    · rw [hlog', hlog, List.append_assoc]
    · intro e he
      rcases List.mem_append.mp he with he | he
      · exact h₁ ▸ hfront' e he
      · exact hfront e he

theorem respects_touches : Respects Touches where
  record := fun _ e he => ⟨rfl, rfl, rfl, [e], rfl, fun _ he' => List.mem_singleton.mp he' ▸ he⟩
  steps := fun _ _ => ⟨rfl, rfl, rfl, [], rfl, nofun⟩
  query := fun _ _ hq => ⟨hq, rfl, rfl, [], rfl, nofun⟩

/-- Such a call is not one of `sqlite3_prepare_v2` or `sqlite3_finalize`. -/
theorem Event.Touches.not_mem {front : List Event} {statement : Option ℕ}
    (h : ∀ e ∈ front, e.Touches statement) (s : Option ℕ) :
    .prepare s ∉ front ∧ .finalize s ∉ front :=
  ⟨fun he => h _ he, fun he => h _ he⟩

/-- They use the open statement of the query. -/
theorem Touches.replaces (h : Sound w) (ht : Touches w w') : Replaces True w w' := by
  obtain ⟨hstatement, hstatements, -, front, hlog, hfront⟩ := ht
  -- none of the calls prepares or finalizes
  have hprepare : ∀ n, .prepare (some n) ∈ w'.log ↔ .prepare (some n) ∈ w.log := fun n => by
    rw [hlog, List.mem_append, or_iff_right (Event.Touches.not_mem hfront _).1]
  have hfinalize : ∀ n, .finalize (some n) ∈ w'.log ↔ .finalize (some n) ∈ w.log := fun n => by
    rw [hlog, List.mem_append, or_iff_right (Event.Touches.not_mem hfront _).2]
  have hopen : ∀ n, Open w'.log n ↔ Open w.log n := fun n => by
    rw [Open, Open, hprepare, hfinalize]
  have hrest : ∀ n, Rest w' n ↔ Rest w n := fun n => by
    rw [Rest, Rest, hopen, hstatement]
  refine ⟨⟨fun n hn => ?_, ?_, fun n hn => ?_⟩, .of_forall_iff hrest⟩
  · rw [hprepare, hfinalize] at hn
    rw [hstatements]
    exact h.fresh n hn
  · -- on the calls: each of them uses the statement of the query, if any
    clear hprepare hfinalize hopen hrest
    rw [hlog]
    clear hlog
    induction front with
    | nil => exact h.notUsed
    | cons e front ih =>
      obtain ⟨he, hfront⟩ := List.forall_mem_cons.mp hfront
      refine ⟨fun n huses => ?_, ih hfront⟩
      have hn : w.query.statement = some n := by
        cases e with
        | step s => exact he.symm.trans huses
        | reset s => exact he.symm.trans huses
        | bind s _ _ => exact he.symm.trans huses
        | returned => cases huses
        | sleep => cases huses
        | prepare => cases huses
        | transferBindings => cases he
        | finalize => cases he
      intro hmem
      rcases List.mem_append.mp hmem with hmem | hmem
      · exact (Event.Touches.not_mem hfront _).2 hmem
      · exact (h.opened n hn).2 hmem
  · rw [hstatement] at hn
    exact (hopen n).mpr (h.opened n hn)

end Replaces

/-! ## Steps of a `SqliteParQuery` -/

/-- Whenever the schema has changed, the statement is prepared again. -/
def Reprepared : List ℤ → List ℤ → Prop
  | rc :: steps, prepares =>
    if rc = SQLITE_SCHEMA then
      match prepares with
      | [] => True
      | rc' :: prepares => rc' = SQLITE_OK ∧ Reprepared steps prepares
    else True
  | [], _ => True

section Step

variable {w : World} {par : SqliteParQuery}

/-- The calls for a new statement in the place of the old one. -/
theorem replaces_of_reprepared (h : Sound w) {old : ℕ} (hold : w.query.statement = some old)
    {w' : World} (hstatement : w'.query.statement = some w.statements)
    (hstatements : w'.statements = w.statements + 1)
    (hlog : w'.log = .finalize (some old) :: .transferBindings (some old) (some w.statements) ::
      .prepare (some w.statements) :: w.log) : Replaces True w w' := by
  have hopened := h.opened old hold
  have hlt : old < w.statements := h.fresh old (Or.inl hopened.1)
  have hnew := h.fresh.finalize_notMem
  -- the new statement is open in the place of the old one
  have hopen : ∀ n, Open w'.log n ↔ n ≠ old ∧ (n = w.statements ∨ Open w.log n) := fun n => by
    rw [hlog, open_cons_finalize,
      open_cons (e := .transferBindings (some old) (some w.statements)) nofun nofun,
      open_cons_prepare hnew]
  have hrest : ∀ n, Rest w' n ↔ Rest w n := by
    intro n
    rw [Rest, Rest, hopen, hstatement, hold]
    constructor
    · rintro ⟨⟨hne, rfl | hn⟩, hnot⟩
      · exact absurd rfl hnot
      · exact ⟨hn, fun heq => hne (Option.some.inj heq).symm⟩
    · rintro ⟨hn, hne⟩
      refine ⟨⟨fun heq => hne (congrArg some heq.symm), Or.inr hn⟩, fun heq => ?_⟩
      exact h.fresh.not_open (Option.some.inj heq ▸ hn)
  refine ⟨⟨?_, ?_, fun n hn => ?_⟩, .of_forall_iff hrest⟩
  · rw [hlog, hstatements]
    refine ((h.fresh.cons (Nat.le_succ _) ?_).cons (Nat.le_refl _) ?_).cons (Nat.le_refl _) ?_
    · rintro n (⟨⟨⟩⟩ | ⟨⟨⟩⟩)
      exact Nat.lt_succ_self _
    · rintro n (⟨⟨⟩⟩ | ⟨⟨⟩⟩)
    · rintro n (⟨⟨⟩⟩ | ⟨⟨⟩⟩)
      exact Nat.lt_succ_of_lt hlt
  · rw [hlog]
    refine ⟨?_, ?_, nofun, h.notUsed⟩
    · rintro n ⟨⟩ hmem
      simp [hopened.2] at hmem
    · rintro n (⟨⟨⟩⟩ | ⟨⟨⟩⟩) hmem
      · simp [hopened.2] at hmem
      · simp [hnew] at hmem
  · rw [hstatement] at hn
    obtain rfl := Option.some.inj hn
    exact (hopen _).mpr ⟨Nat.ne_of_gt hlt, Or.inl rfl⟩

/-- A query that had no statement has one. -/
theorem replaces_of_prepared (h : Sound w) (hnone : w.query.statement = none) {w' : World}
    (hstatement : w'.query.statement = some w.statements)
    (hstatements : w'.statements = w.statements + 1)
    (hlog : w'.log = .prepare (some w.statements) :: w.log) : Replaces True w w' := by
  have hopen : ∀ n, Open w'.log n ↔ n = w.statements ∨ Open w.log n := fun n => by
    rw [hlog, open_cons_prepare h.fresh.finalize_notMem]
  have hrest : ∀ n, Rest w' n ↔ Rest w n := by
    intro n
    rw [Rest, Rest, hopen, hstatement, hnone]
    constructor
    · rintro ⟨rfl | hn, hnot⟩
      · exact absurd rfl hnot
      · exact ⟨hn, nofun⟩
    · rintro ⟨hn, -⟩
      exact ⟨Or.inr hn, fun heq => h.fresh.not_open (Option.some.inj heq ▸ hn)⟩
  refine ⟨⟨?_, ?_, fun n hn => ?_⟩, .of_forall_iff hrest⟩
  · rw [hlog, hstatements]
    refine h.fresh.cons (Nat.le_succ _) ?_
    rintro n (⟨⟨⟩⟩ | ⟨⟨⟩⟩)
    exact Nat.lt_succ_self _
  · rw [hlog]
    exact ⟨nofun, h.notUsed⟩
  · rw [hstatement] at hn
    exact (hopen n).mpr (Or.inl (Option.some.inj hn).symm)

/-- A failing call of `sqlite3_prepare_v2`: the statement of the query is lost, if there is one. -/
theorem replaces_of_failed (h : Sound w) {w' : World} (hstatement : w'.query.statement = none)
    (hstatements : w'.statements = w.statements + 1) (hlog : w'.log = .prepare none :: w.log) :
    Replaces (w.query.statement = none) w w' := by
  have hrest : ∀ n, Rest w' n ↔ Open w.log n := by
    intro n
    rw [Rest, hlog, open_cons (e := .prepare none) nofun nofun, hstatement]
    exact and_iff_left nofun
  refine ⟨⟨?_, ?_, fun n hn => ?_⟩, fun n hn => (hrest n).mpr hn.1, ?_⟩
  · rw [hlog, hstatements]
    refine h.fresh.cons (Nat.le_succ _) ?_
    rintro n (⟨⟨⟩⟩ | ⟨⟨⟩⟩)
  · rw [hlog]
    exact ⟨nofun, h.notUsed⟩
  · rw [hstatement] at hn
    cases hn
  · constructor
    · intro hnone n hn
      refine ⟨(hrest n).mp hn, ?_⟩
      rw [hnone]
      exact nofun
    · -- the statement of the query is open, and that of no query any more
      intro hall
      refine Option.eq_none_iff_forall_ne_some.mpr fun old hold => ?_
      exact (hall old ((hrest old).mpr (h.opened old hold))).2 hold

/-- The statement is prepared again, or it is lost, or the call does not return. -/
theorem wp_reprepare (h : Sound w) (hold : w.query.statement ≠ none) :
    wp par.reprepare
      (fun _ w' => ∃ prepares, w.prepares = SQLITE_OK :: prepares ∧ w'.prepares = prepares ∧
        w'.steps = w.steps ∧ w'.query.statement ≠ none ∧ Replaces True w w')
      (fun _ w' => ∃ rc prepares, w.prepares = rc :: prepares ∧ rc ≠ SQLITE_OK ∧
        Replaces False w w')
      (fun w' => w.prepares = [] ∧ Replaces True w w') w := by
  obtain ⟨old, hold⟩ := Option.ne_none_iff_exists'.mp hold
  simp only [SqliteParQuery.reprepare, SqliteQuery.prepare, record, wp_bind, wp_get, wp_modify,
    wp_when, hold]
  rw [wp, sqlite3Prepare]
  split <;> rename_i heq <;> split at heq <;> cases heq
  · rename_i rc _ prepares hprepares
    -- `statement` is overwritten before the result is looked at
    refine ⟨fun hrc => ⟨rc, prepares, hprepares, hrc, ?_⟩,
      fun hrc => ⟨prepares, ?_, rfl, rfl, ?_, ?_⟩⟩
    · refine (replaces_of_failed h (if_neg hrc) rfl (by rw [if_neg hrc])).of_iff ?_
      exact iff_of_false (by simp [hold]) id
    · rw [hprepares, Classical.not_not.mp hrc]
    · rw [if_pos (Classical.not_not.mp hrc)]
      rintro ⟨⟩
    · refine replaces_of_reprepared h hold (if_pos (Classical.not_not.mp hrc)) rfl ?_
      rw [if_pos (Classical.not_not.mp hrc)]
  · rename_i hprepares
    exact ⟨hprepares, .refl h⟩

/-- What a call of `sqlite3_step` leaves behind, when there is a statement. -/
theorem touches_sqlite3Step {Q : ℤ → World → Prop} {E : String → World → Prop} {T : World → Prop}
    (hstatement : w.query.statement ≠ none) {again : Bool}
    (hQ : ∀ rc w', w.steps = rc :: w'.steps → Touches w w' → Q rc w')
    (hT : w.steps = [] → ∀ w', Touches w w' → T w') : wp (sqlite3Step again) Q E T w := by
  have htouches := respects_touches.sqlite3Step again w
  obtain ⟨n, hn⟩ := Option.ne_none_iff_exists'.mp hstatement
  cases hsteps : w.steps with
  | nil =>
    have hrun : (sqlite3Step again w).1 = .terminated := by
      simp [sqlite3Step, record, bind, Unwind.get, Unwind.modify, stepResult, hn, hsteps]
    have heq : sqlite3Step again w = (.terminated, (sqlite3Step again w).2) := Prod.ext hrun rfl
    rw [wp, heq]
    exact hT hsteps _ htouches
  | cons rc steps =>
    have hrun : (sqlite3Step again w).1 = .value rc ∧ (sqlite3Step again w).2.steps = steps := by
      simp [sqlite3Step, record, bind, Unwind.get, Unwind.modify, stepResult, hn, hsteps, pure]
    have heq : sqlite3Step again w = (.value rc, (sqlite3Step again w).2) := Prod.ext hrun.1 rfl
    rw [wp, heq]
    exact hQ rc _ (by rw [hsteps, hrun.2]) htouches

/-- A result that does not say that the schema has changed. -/
theorem reprepared_cons {rc : ℤ} (hrc : rc ≠ SQLITE_SCHEMA) (steps prepares : List ℤ) :
    Reprepared (rc :: steps) prepares ↔ True := by
  unfold Reprepared
  rw [if_neg hrc]

theorem reprepared_schema {rc : ℤ} {steps prepares : List ℤ} :
    Reprepared (SQLITE_SCHEMA :: steps) (rc :: prepares) ↔
      rc = SQLITE_OK ∧ Reprepared steps prepares := by
  rw [Reprepared, if_pos rfl]

/-- `step`, from the label `repeat` on, loses the statement exactly if it is not prepared again. -/
theorem wp_stepFrom (h : Sound w) (hstatement : w.query.statement ≠ none) {rounds : ℕ}
    (hrounds : w.steps.length < rounds) :
    wp (par.stepFrom rounds) (fun _ => Replaces (Reprepared w.steps w.prepares) w)
      (fun _ => Replaces (Reprepared w.steps w.prepares) w)
      (Replaces (Reprepared w.steps w.prepares) w) w := by
  -- on the rounds: each of them takes a result
  induction rounds generalizing w with
  | zero => exact absurd hrounds (Nat.not_lt_zero _)
  | succ rounds ih =>
    simp only [SqliteParQuery.stepFrom, wp_bind, wp_ite]
    refine touches_sqlite3Step hstatement (fun rc w₁ hsteps ht => ?_) fun hsteps w₁ ht => ?_
    · have hreplaces := ht.replaces h
      have hlast : rc ≠ SQLITE_SCHEMA → ∀ w₂, Touches w₁ w₂ →
          Replaces (Reprepared w.steps w.prepares) w w₂ := fun hrc w₂ ht' => by
        rw [hsteps]
        exact (Touches.replaces h (Trans.trans ht ht')).of_iff (reprepared_cons hrc _ _).symm
      refine ⟨fun hrow => hlast (by rw [hrow]; decide) w₁ (Std.Refl.refl w₁), fun _ =>
        ⟨fun hdone => hlast (by rw [hdone]; decide) _ (respects_touches.finish w₁), fun _ =>
          ⟨fun hschema => ?_, fun hschema => ?_⟩⟩⟩
      · -- the schema has changed
        subst hschema
        have hprepares : w₁.prepares = w.prepares := ht.prepares
        refine wp_mono (wp_reprepare hreplaces.sound (ht.statement ▸ hstatement)) ?_ ?_ ?_
        · -- there is a new statement, and the other rounds are for it
          rintro - w₂ ⟨prepares, hcons, hrest, hsteps₂, hstatement₂, hreplaces₂⟩
          have hlength : w₂.steps.length < rounds := by
            rw [hsteps₂]
            rw [hsteps, List.length_cons] at hrounds
            exact Nat.lt_of_succ_lt_succ hrounds
          have hiff : (True ∧ True) ∧ Reprepared w₂.steps w₂.prepares ↔
              Reprepared w.steps w.prepares := by
            rw [hsteps, ← hprepares, hcons, reprepared_schema, hsteps₂, hrest]
            simp
          have hstep : ∀ w₃, Replaces (Reprepared w₂.steps w₂.prepares) w₂ w₃ →
              Replaces (Reprepared w.steps w.prepares) w w₃ := fun w₃ hw₃ =>
            ((hreplaces.trans hreplaces₂).trans hw₃).of_iff hiff
          exact wp_mono (ih hreplaces₂.sound hstatement₂ hlength) (fun _ => hstep) (fun _ => hstep)
            hstep
        · -- `prepare` throws, and the old statement is lost
          rintro - w₂ ⟨rc, prepares, hcons, hrc, hlost⟩
          refine (hreplaces.trans hlost).of_iff ?_
          rw [hsteps, ← hprepares, hcons, reprepared_schema]
          exact iff_of_false (fun hfalse => hfalse.2) fun hok => hrc hok.1
        · -- the call of `sqlite3_prepare_v2` does not return
          rintro w₂ ⟨hnil, hreplaces₂⟩
          refine (hreplaces.trans hreplaces₂).of_iff ?_
          rw [hsteps, ← hprepares, hnil]
          exact iff_of_true ⟨trivial, trivial⟩ trivial
      · -- the repetitions, and the exception behind them
        rw [← wp_bind]
        refine wp_of_snd (hlast hschema _ ?_)
        exact ((respects_touches.retry par _ _).bind fun _ => within_raiseErrmsg _) w₁
    · -- the call of `sqlite3_step` does not return
      rw [hsteps]
      exact ht.replaces h

end Step

/-! ## Calls -/

/-- Whenever the call finds the schema changed, it prepares the statement again. Only the functions
`step` and `next` of a `SqliteParQuery` look whether the schema has changed, if the statement is not
finished. -/
def Op.Reprepares (op : Op) (w : World) : Prop :=
  match op.par, op.call with
  | some _, .step | some _, .next =>
    w.query.mChanges < 0 → w.query.statement ≠ none → Reprepared w.steps w.prepares
  | _, _ => True

section Calls

variable {w : World}

theorem touches_sqlite3Step_of_none {E : String → World → Prop} {T : World → Prop}
    (hstatement : w.query.statement = none) :
    wp (sqlite3Step false) (fun rc w' => rc = SQLITE_MISUSE ∧ Touches w w') E T w := by
  have hrun : (sqlite3Step false w).1 = .value SQLITE_MISUSE := by
    simp [sqlite3Step, record, bind, Unwind.get, Unwind.modify, stepResult, hstatement, pure]
  have heq : sqlite3Step false w = (.value SQLITE_MISUSE, (sqlite3Step false w).2) :=
    Prod.ext hrun rfl
  rw [wp, heq]
  exact ⟨rfl, respects_touches.sqlite3Step false w⟩

/-- Without a statement there is nothing to prepare again. -/
theorem touches_stepFrom_of_none (par : SqliteParQuery) (hstatement : w.query.statement = none)
    (rounds : ℕ) : Touches w (par.stepFrom rounds w).2 := by
  cases rounds with
  | zero => exact Std.Refl.refl w
  | succ rounds =>
    refine snd_of_wp ?_
    rw [SqliteParQuery.stepFrom, wp_bind]
    refine wp_mono (touches_sqlite3Step_of_none hstatement) ?_ (fun _ _ => False.elim)
      fun _ => False.elim
    rintro - w' ⟨rfl, ht⟩
    rw [if_neg (by decide), if_neg (by decide), if_neg (by decide)]
    have hretry : Within Touches (par.retry (par.repeats + 1).toNat SQLITE_MISUSE >>= fun _ =>
        (raiseErrmsg par.query : Act Bool)) :=
      (respects_touches.retry par _ _).bind fun _ => within_raiseErrmsg _
    exact wp_of_snd (Trans.trans ht (hretry w'))

theorem replaces_parStep (par : SqliteParQuery) (h : Sound w) :
    Replaces (w.query.mChanges < 0 → w.query.statement ≠ none → Reprepared w.steps w.prepares) w
      (par.step w).2 := by
  show Replaces _ w ((if w.query.mChanges ≥ 0 then _ else _ : Act Bool) w).2
  by_cases hdone : w.query.mChanges ≥ 0
  · -- a finished query does not look at SQLite
    rw [if_pos hdone]
    refine (Touches.replaces h ?_).of_iff (iff_of_true trivial fun hlt =>
      absurd hdone (Int.not_le.mpr hlt))
    exact ((respects_touches.setChanges 0).bind fun _ => within_pure _) w
  · rw [if_neg hdone]
    by_cases hstatement : w.query.statement = none
    · refine ((touches_stepFrom_of_none par hstatement _).replaces h).of_iff ?_
      exact iff_of_true trivial fun _ hne => absurd hstatement hne
    · refine (snd_of_wp (wp_stepFrom h hstatement (Nat.lt_succ_self _))).of_iff ?_
      exact ⟨fun hall _ _ => hall, fun hall => hall (Int.not_le.mp hdone) hstatement⟩

/-- What a call does to the open statements: it loses that of the query exactly if it finds the
schema changed and does not prepare it again. -/
theorem Op.replaces (op : Op) (h : Sound w) : Replaces (op.Reprepares w) w (op.exec w).2 := by
  obtain ⟨par, call⟩ := op
  have hbase : Replaces True w (Op.exec ⟨none, call⟩ w).2 := by
    refine Touches.replaces h (respects_touches.exec ⟨none, call⟩ ?_ ?_)
    · exact respects_touches.queryStep w
    · exact respects_touches.queryStep w
  cases par with
  | none => exact hbase.of_iff (iff_of_true trivial (by cases call <;> trivial))
  | some par =>
    cases call with
    | step =>
      rw [show (Op.exec ⟨some par, .step⟩ w).2 = (par.step w).2 from snd_bind_pure ()]
      exact replaces_parStep par h
    | next =>
      rw [show (Op.exec ⟨some par, .next⟩ w).2 = (par.step w).2 from snd_bind_pure ()]
      exact replaces_parStep par h
    | _ => exact hbase

/-- The constructor prepares a statement, and there is no other one to lose. -/
theorem replaces_construct (h : Sound w) (hquery : w.query = {}) (query : String) :
    wp (SqliteQuery.construct query) (fun _ => Replaces True w)
      (fun _ w' => Replaces True w w' ∧ w'.query.statement = none) (Replaces True w) w := by
  have hnone : w.query.statement = none := by rw [hquery]
  simp only [SqliteQuery.construct, SqliteQuery.prepare, wp_bind, wp_modify, wp_when]
  rw [wp, ← hquery, sqlite3Prepare]
  split <;> rename_i heq <;> split at heq <;> cases heq
  · rename_i rc _ prepares hprepares
    refine ⟨fun hrc => ?_, fun hrc => ?_⟩
    · refine ⟨(replaces_of_failed h (if_neg hrc) rfl ?_).of_iff (iff_of_true hnone trivial),
        if_neg hrc⟩
      rw [if_neg hrc]
    · refine replaces_of_prepared h hnone (if_pos (Classical.not_not.mp hrc)) rfl ?_
      rw [if_pos (Classical.not_not.mp hrc)]
  · exact .refl h

/-- The destructor finalizes the statement of the query. -/
theorem replaces_destroy (h : Sound w) :
    Replaces True w { (SqliteQuery.destroy w).2 with query := {} } := by
  cases hstatement : w.query.statement with
  | none =>
    -- without a statement there is nothing to finalize
    have hrun : (SqliteQuery.destroy w).2 = w := by
      simp [SqliteQuery.destroy, bind, Unwind.get, when, hstatement, pure]
    rw [hrun]
    have hrest : ∀ n, Rest { w with query := {} } n ↔ Rest w n := fun n => by
      rw [Rest, Rest, hstatement]
    exact ⟨⟨h.fresh, h.notUsed, by simp⟩, .of_forall_iff hrest⟩
  | some old =>
    have hopened := h.opened old hstatement
    have hrun : (SqliteQuery.destroy w).2 = { w with log := .finalize (some old) :: w.log } := by
      simp [SqliteQuery.destroy, bind, Unwind.get, Unwind.modify, record, when, hstatement]
    rw [hrun]
    -- the statement is closed, and the others are open as before
    have hrest : ∀ n, Rest { w with log := .finalize (some old) :: w.log, query := {} } n ↔
        Rest w n := by
      intro n
      rw [Rest, Rest, open_cons_finalize, hstatement]
      constructor
      · rintro ⟨⟨hne, hn⟩, -⟩
        exact ⟨hn, fun heq => hne (Option.some.inj heq).symm⟩
      · rintro ⟨hn, hne⟩
        exact ⟨⟨fun heq => hne (congrArg some heq.symm), hn⟩, by simp⟩
    refine ⟨⟨h.fresh.cons (Nat.le_refl _) ?_, ⟨?_, h.notUsed⟩, by simp⟩, .of_forall_iff hrest⟩
    · rintro n (⟨⟨⟩⟩ | ⟨⟨⟩⟩)
      exact h.fresh old (Or.inl hopened.1)
    · rintro n ⟨⟩
      exact hopened.2

end Calls

end Glim.Sqlite
