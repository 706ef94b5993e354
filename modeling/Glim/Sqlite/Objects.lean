import Glim.Sqlite.Statements
import Glim.Thread.Steps

/-!
# Objects that hold statements

A program constructs objects of both classes, moves them, calls them and destroys them, in any
order. Every object holds at most one statement and no two of them the same, since a move takes the
statement away from the object that is moved from, and a failing constructor leaves no object
behind. An open statement that no object holds is never finalized.

## Main definitions

* `SqliteObject`, `Objects`: the objects of a program
* `ObjectAct`, `Objects.step`: what is done with them
* `Objects.Leaked`: an open statement that no object holds
* `ObjectAct.Reprepares`: the statement is prepared again whenever the schema has changed

## Main results

* `Objects.Inv.put`: what is done with one object keeps the statements of the others
* `Objects.Inv.step`: a step leaks a statement exactly if one is not prepared again
* `Objects.finalizedOnce_iff`: every statement is finalized once, exactly if the statements are
  prepared again whenever the schema has changed
-/

namespace Glim.Sqlite

open Machine Unwind Thread

/-- An object of the class `SqliteParQuery`, which has members of its own, or `SqliteQuery`. -/
structure SqliteObject where
  par : Option SqliteParQuery
  query : SqliteQuery

/-- SQLite, and the objects by number. The program ends in a call of SQLite that does not return:
it is `hung`. The query in `world` is that of the last call, and plays no role. -/
structure Objects where
  world : World
  objects : ℕ → Option SqliteObject := fun _ => none
  hung : Bool := false

/-- What is done with objects. A `SqliteQuery` may also be moved from a `SqliteParQuery`, and the
functions of the base may be called for one. -/
inductive ObjectAct where
  | construct (i : ℕ) (query : String)
  | constructPar (i : ℕ) (par : SqliteParQuery)
  | move (i j : ℕ) (asPar : Bool)
  | call (i : ℕ) (asPar : Bool) (call : Call)
  | destroy (i : ℕ)

/-- The call is made as that of a `SqliteParQuery`, if the object is one. -/
def SqliteObject.op (o : SqliteObject) (asPar : Bool) (call : Call) : Op where
  par := if asPar then o.par else none
  call := call

namespace Objects

/-- What a member function of an object with the query `query` sees. -/
def seen (s : Objects) (query : SqliteQuery) : World := { s.world with query := query }

/-- A member function of the object `i` is executed, and `object` is there behind it. -/
def exec (s : Objects) (i : ℕ) (query : SqliteQuery) (x : Act Unit)
    (object : Ending Unit → SqliteQuery → Option SqliteObject) : Objects where
  world := (x (s.seen query)).2
  objects := Function.update s.objects i (object (x (s.seen query)).1 (x (s.seen query)).2.query)
  hung := decide ((x (s.seen query)).1 = .terminated)

/-- A constructor that throws leaves no object behind. -/
def constructed (par : Option SqliteParQuery) : Ending Unit → SqliteQuery → Option SqliteObject
  | .thrown _, _ => none
  | _, query => some ⟨par, query⟩

/-- `SqliteQuery (SqliteQuery&& rvalue)`, also as a part of that of a `SqliteParQuery`: `rvalue` is
the object `i`, which is `o`. -/
def moveTo (s : Objects) (i j : ℕ) (o : SqliteObject) (par : Option SqliteParQuery) : Objects :=
  -- `rvalue.statement = nullptr`
  let rvalue : SqliteObject := { o with query := { o.query with statement := none } }
  { s with
    objects := Function.update (Function.update s.objects i (some rvalue)) j (some ⟨par, o.query⟩) }

/-- What is done, if the program has not ended. -/
def act (s : Objects) : ObjectAct → Option Objects
  | .construct i query =>
    if (s.objects i).isSome then none
    else some (s.exec i {} (SqliteQuery.construct query) (constructed none))
  | .constructPar i par =>
    if (s.objects i).isSome then none
    else some (s.exec i {} (SqliteQuery.construct par.query) (constructed (some par)))
  | .move i j asPar =>
    match s.objects i, s.objects j with
    | some o, none => some (s.moveTo i j o (if asPar then o.par else none))
    | _, _ => none
  | .call i asPar call =>
    match s.objects i with
    | some o => some (s.exec i o.query (o.op asPar call).exec fun _ query => some ⟨o.par, query⟩)
    | none => none
  | .destroy i =>
    match s.objects i with
    | some o => some (s.exec i o.query SqliteQuery.destroy fun _ _ => none)
    | none => none

/-- One step of a program. -/
def step (a : ObjectAct) (s : Objects) : Option Objects := if s.hung then none else s.act a

/-- The state in which a program begins. -/
def start (sqlite : Sqlite3) (steps prepares : List ℤ) : Objects where
  world := World.initial sqlite steps prepares

/-- The statement that the object `i` holds, if there is one. -/
def holds (s : Objects) (i : ℕ) : Option ℕ := (s.objects i).bind fun o => o.query.statement

/-- The statement is open, and no object holds it. -/
def Leaked (s : Objects) (n : ℕ) : Prop := Open s.world.log n ∧ ∀ i, s.holds i ≠ some n

/-- Every object holds a statement of its own, which is open. -/
structure Inv (s : Objects) : Prop where
  fresh : Fresh s.world.log s.world.statements
  notUsed : NotUsedFinalized s.world.log
  opened : ∀ i n, s.holds i = some n → Open s.world.log n
  unique : ∀ i j n, s.holds i = some n → s.holds j = some n → i = j

section Inv

variable {s s' : Objects} {kept : Prop}

theorem Inv.start (sqlite : Sqlite3) (steps prepares : List ℤ) :
    (Objects.start sqlite steps prepares).Inv where
  fresh := fun n hn => by rcases hn with hn | hn <;> cases hn
  notUsed := trivial
  opened := nofun
  unique := nofun

/-- What a member function of an object sees. -/
theorem Inv.seen (h : s.Inv) {i : ℕ} {query : SqliteQuery} (hquery : s.holds i = query.statement) :
    Sound (s.seen query) :=
  ⟨h.fresh, h.notUsed, fun n hn => h.opened i n (hquery.trans hn)⟩

/-- A leaked statement is one that is open but not that of the object `i`, nor that of another
object. -/
theorem leaked_iff {i : ℕ} {query : SqliteQuery} (hquery : s.holds i = query.statement) {n : ℕ} :
    s.Leaked n ↔ Rest (s.seen query) n ∧ ∀ j, j ≠ i → s.holds j ≠ some n := by
  constructor
  · rintro ⟨hopen, hall⟩
    exact ⟨⟨hopen, fun hi => hall i (hquery.trans hi)⟩, fun j _ => hall j⟩
  · rintro ⟨⟨hopen, hi⟩, hall⟩
    refine ⟨hopen, fun j hj => ?_⟩
    by_cases hji : j = i
    · subst hji
      exact hi (hquery.symm.trans hj)
    · exact hall j hji hj

/-- What is done with one object keeps the statements of the others. -/
theorem Inv.put (h : s.Inv) {i : ℕ} {query query' : SqliteQuery}
    (hquery : s.holds i = query.statement) (hquery' : s'.holds i = query'.statement)
    (hothers : ∀ j, j ≠ i → s'.holds j = s.holds j)
    (hreplaces : Replaces kept (s.seen query) (s'.seen query')) :
    s'.Inv ∧ Extends kept s.Leaked s'.Leaked := by
  obtain ⟨⟨hfresh, hnotUsed, hopened⟩, hgrows, hkept⟩ := hreplaces
  -- the statement of another object is open and not that of the object `i`, and stays so
  have hrest : ∀ j n, j ≠ i → s'.holds j = some n → Rest (s.seen query) n := fun j n hj hn => by
    rw [hothers j hj] at hn
    exact ⟨h.opened j n hn, fun hi => hj (h.unique j i n hn (hquery.trans hi))⟩
  have hleaked : ∀ n, s'.Leaked n ↔
      Rest (s'.seen query') n ∧ ∀ j, j ≠ i → s.holds j ≠ some n := by
    intro n
    rw [leaked_iff hquery']
    exact and_congr_right fun _ => forall₂_congr fun j hj => by rw [hothers j hj]
  refine ⟨⟨hfresh, hnotUsed, fun j n hj => ?_, fun j k n hj hk => ?_⟩, fun n hn => ?_, ?_⟩
  · by_cases hji : j = i
    · subst hji
      exact hopened n (hquery'.symm.trans hj)
    · exact (hgrows n (hrest j n hji hj)).1
  · by_cases hji : j = i
    · subst hji
      by_contra hne
      have hne' : k ≠ j := fun heq => hne heq.symm
      exact (hgrows n (hrest k n hne' hk)).2 (hquery'.symm.trans hj)
    · by_cases hki : k = i
      · subst hki
        exact absurd (hquery'.symm.trans hk) (hgrows n (hrest j n hji hj)).2
      · rw [hothers j hji] at hj
        rw [hothers k hki] at hk
        exact h.unique j k n hj hk
  · obtain ⟨hn, hall⟩ := (leaked_iff hquery).mp hn
    exact (hleaked n).mpr ⟨hgrows n hn, hall⟩
  · rw [hkept]
    constructor
    · intro hall n hn
      obtain ⟨hn, hothers⟩ := (hleaked n).mp hn
      exact (leaked_iff hquery).mpr ⟨hall n hn, hothers⟩
    · -- a statement that is lost is not that of another object, which was open before
      intro hall n hn
      by_cases hother : ∃ j, j ≠ i ∧ s'.holds j = some n
      · obtain ⟨j, hj, hjn⟩ := hother
        exact hrest j n hj hjn
      · refine ((leaked_iff hquery).mp (hall n ((leaked_iff hquery').mpr ⟨hn, ?_⟩))).1
        exact fun j hj hjn => hother ⟨j, hj, hjn⟩

/-- The object of a call holds what the call leaves. -/
theorem holds_exec_self {i : ℕ} {query : SqliteQuery} {x : Act Unit}
    {object : Ending Unit → SqliteQuery → Option SqliteObject} :
    (s.exec i query x object).holds i =
      (object (x (s.seen query)).1 (x (s.seen query)).2.query).bind fun o => o.query.statement :=
  congrArg (Option.bind · _) (Function.update_self i _ s.objects)

theorem holds_exec_of_ne {i j : ℕ} (hj : j ≠ i) {query : SqliteQuery} {x : Act Unit}
    {object : Ending Unit → SqliteQuery → Option SqliteObject} :
    (s.exec i query x object).holds j = s.holds j :=
  congrArg (Option.bind · _) (Function.update_of_ne hj _ s.objects)

/-- A program is executed for one object. -/
theorem Inv.exec (h : s.Inv) {i : ℕ} {query : SqliteQuery} (query' : SqliteQuery)
    (hquery : s.holds i = query.statement) {x : Act Unit}
    {object : Ending Unit → SqliteQuery → Option SqliteObject}
    (hobject : (s.exec i query x object).holds i = query'.statement)
    (hreplaces : Replaces kept (s.seen query) { (x (s.seen query)).2 with query := query' }) :
    (s.exec i query x object).Inv ∧ Extends kept s.Leaked (s.exec i query x object).Leaked :=
  h.put hquery hobject (fun _ hj => holds_exec_of_ne hj) hreplaces

theorem holds_of_none {i : ℕ} (hi : s.objects i = none) : s.holds i = none := by
  rw [holds, hi, Option.bind_none]

theorem holds_of_some {i : ℕ} {o : SqliteObject} (hi : s.objects i = some o) :
    s.holds i = o.query.statement := by
  rw [holds, hi, Option.bind_some]

/-- A constructor. -/
theorem Inv.construct (h : s.Inv) {i : ℕ} (hi : s.objects i = none) (text : String)
    (par : Option SqliteParQuery) :
    (s.exec i {} (SqliteQuery.construct text) (constructed par)).Inv ∧
      Extends True s.Leaked
        (s.exec i {} (SqliteQuery.construct text) (constructed par)).Leaked := by
  have hholds : s.holds i = ({} : SqliteQuery).statement := holds_of_none hi
  have hwp := replaces_construct (h.seen hholds) rfl text
  refine h.exec (SqliteQuery.construct text (s.seen {})).2.query hholds ?_ ?_
  · rw [holds_exec_self]
    rw [wp] at hwp
    rcases hx : SqliteQuery.construct text (s.seen {}) with ⟨_ | e | _, w⟩
    · rfl
    · -- a statement that could not be prepared is null
      rw [hx] at hwp
      exact hwp.2.symm
    · rfl
  · exact snd_of_wp (wp_mono hwp (fun _ _ => id) (fun _ _ hw => hw.1) fun _ => id)

/-- The destructor. -/
theorem Inv.destroy (h : s.Inv) {i : ℕ} {o : SqliteObject} (hi : s.objects i = some o) :
    (s.exec i o.query SqliteQuery.destroy fun _ _ => none).Inv ∧
      Extends True s.Leaked (s.exec i o.query SqliteQuery.destroy fun _ _ => none).Leaked := by
  refine h.exec {} (holds_of_some hi) holds_exec_self ?_
  exact replaces_destroy (h.seen (holds_of_some hi))

/-- A call. -/
theorem Inv.call (h : s.Inv) {i : ℕ} {o : SqliteObject} (hi : s.objects i = some o) (op : Op) :
    (s.exec i o.query op.exec fun _ query => some ⟨o.par, query⟩).Inv ∧
      Extends (op.Reprepares (s.seen o.query)) s.Leaked
        (s.exec i o.query op.exec fun _ query => some ⟨o.par, query⟩).Leaked := by
  refine h.exec (op.exec (s.seen o.query)).2.query (holds_of_some hi) holds_exec_self ?_
  exact op.replaces (h.seen (holds_of_some hi))

/-- The moved object holds the statement of `rvalue`, which holds none any more. -/
theorem holds_moveTo_iff {i j : ℕ} {o : SqliteObject} (hi : s.objects i = some o)
    (hj : s.objects j = none) {par : Option SqliteParQuery} {k n : ℕ} :
    (s.moveTo i j o par).holds k = some n ↔
      k = j ∧ s.holds i = some n ∨ k ≠ i ∧ s.holds k = some n := by
  by_cases hkj : k = j
  · subst hkj
    have hself : (s.moveTo i k o par).holds k = s.holds i := by
      simp [holds, moveTo, hi]
    rw [hself, holds_of_none hj]
    simp
  · by_cases hki : k = i
    · subst hki
      simp [holds, moveTo, hkj]
    · simp [holds, moveTo, hkj, hki]

/-- The same statements are held. -/
theorem exists_holds_moveTo_iff {i j : ℕ} {o : SqliteObject} (hi : s.objects i = some o)
    (hj : s.objects j = none) {par : Option SqliteParQuery} {n : ℕ} :
    (∃ k, (s.moveTo i j o par).holds k = some n) ↔ ∃ k, s.holds k = some n := by
  constructor
  · rintro ⟨k, hk⟩
    rcases (holds_moveTo_iff hi hj).mp hk with ⟨-, hk⟩ | ⟨-, hk⟩
    · exact ⟨i, hk⟩
    · exact ⟨k, hk⟩
  · rintro ⟨k, hk⟩
    by_cases hki : k = i
    · exact ⟨j, (holds_moveTo_iff hi hj).mpr (Or.inl ⟨rfl, hki ▸ hk⟩)⟩
    · exact ⟨k, (holds_moveTo_iff hi hj).mpr (Or.inr ⟨hki, hk⟩)⟩

/-- A move leaks nothing. -/
theorem Inv.move (h : s.Inv) {i j : ℕ} {o : SqliteObject} (hi : s.objects i = some o)
    (hj : s.objects j = none) (par : Option SqliteParQuery) :
    (s.moveTo i j o par).Inv ∧ Extends True s.Leaked (s.moveTo i j o par).Leaked := by
  refine ⟨⟨h.fresh, h.notUsed, fun k n hk => ?_, fun k l n hk hl => ?_⟩,
    .of_forall_iff fun n => ?_⟩
  · obtain ⟨k', hk'⟩ := (exists_holds_moveTo_iff hi hj).mp ⟨k, hk⟩
    exact h.opened k' n hk'
  · rcases (holds_moveTo_iff hi hj).mp hk with ⟨hkj, hki⟩ | ⟨hne, hk'⟩
    · rcases (holds_moveTo_iff hi hj).mp hl with ⟨hlj, -⟩ | ⟨hne, hl'⟩
      · exact hkj.trans hlj.symm
      -- the object that was moved from would hold its statement as well
      · exact absurd (h.unique l i n hl' hki) hne
    · rcases (holds_moveTo_iff hi hj).mp hl with ⟨-, hli⟩ | ⟨-, hl'⟩
      · exact absurd (h.unique k i n hk' hli) hne
      · exact h.unique k l n hk' hl'
  · refine and_congr_right fun _ => ?_
    rw [← not_exists, ← not_exists, exists_holds_moveTo_iff hi hj]

end Inv

/-! ## Programs -/

end Objects

/-- Whenever a call finds the schema changed, it prepares the statement again. -/
def ObjectAct.Reprepares (a : ObjectAct) (s : Objects) : Prop :=
  match a with
  | .call i asPar c => ∀ o, s.objects i = some o → (o.op asPar c).Reprepares (s.seen o.query)
  | _ => True

namespace Objects

variable {s s' : Objects}

/-- What is done leaks a statement exactly if one is not prepared again. -/
theorem Inv.act (h : s.Inv) {a : ObjectAct} (hx : s.act a = some s') :
    s'.Inv ∧ Extends (a.Reprepares s) s.Leaked s'.Leaked := by
  cases a with
  | construct i query =>
    -- an object is constructed where there is none
    cases hi : s.objects i with
    | some o => simp [Objects.act, hi] at hx
    | none =>
      simp only [Objects.act, hi] at hx
      cases hx
      exact h.construct hi query none
  | constructPar i par =>
    cases hi : s.objects i with
    | some o => simp [Objects.act, hi] at hx
    | none =>
      simp only [Objects.act, hi] at hx
      cases hx
      exact h.construct hi par.query (some par)
  | move i j asPar =>
    cases hi : s.objects i with
    | none => simp [Objects.act, hi] at hx
    | some o =>
      cases hj : s.objects j with
      | some p => simp [Objects.act, hi, hj] at hx
      | none =>
        simp only [Objects.act, hi, hj] at hx
        cases hx
        exact h.move hi hj _
  | call i asPar c =>
    cases hi : s.objects i with
    | none => simp [Objects.act, hi] at hx
    | some o =>
      simp only [Objects.act, hi] at hx
      cases hx
      obtain ⟨hinv, hleaked⟩ := h.call hi (o.op asPar c)
      refine ⟨hinv, hleaked.of_iff ⟨fun hr p hp => ?_, fun hr => hr o hi⟩⟩
      rw [hi] at hp
      obtain rfl := Option.some.inj hp
      exact hr
  | destroy i =>
    cases hi : s.objects i with
    | none => simp [Objects.act, hi] at hx
    | some o =>
      simp only [Objects.act, hi] at hx
      cases hx
      exact h.destroy hi

theorem Inv.step (h : s.Inv) {a : ObjectAct} (hx : Objects.step a s = some s') :
    s'.Inv ∧ Extends (a.Reprepares s) s.Leaked s'.Leaked := by
  rw [Objects.step] at hx
  split at hx
  · cases hx
  · exact h.act hx

/-- A program leaks a statement exactly if one of its steps does. -/
theorem Inv.steps {ls : List ObjectAct} (h : s.Inv) (hr : AllSteps Objects.step s ls s') :
    s'.Inv ∧ Extends (Steps Objects.step ObjectAct.Reprepares s ls s') s.Leaked s'.Leaked := by
  induction hr with
  | nil s =>
    have hsame : Extends True s.Leaked s.Leaked := .of_forall_iff fun _ => Iff.rfl
    exact ⟨h, hsame.of_iff (iff_of_true trivial (.nil s))⟩
  | @cons s s' s'' a ls _ hx _ ih =>
    -- what the first step has leaked stays leaked
    obtain ⟨hinv, hleaked⟩ := h.step hx
    obtain ⟨hinv', hleaked'⟩ := ih hinv
    refine ⟨hinv', (hleaked.trans hleaked').of_iff ⟨fun hr => .cons hr.1 hx hr.2, fun hr => ?_⟩⟩
    cases hr with
    | cons hg hx' hrest =>
      obtain rfl : s' = _ := Option.some.inj (hx.symm.trans hx')
      exact ⟨hg, hrest⟩

/-- Every statement that was prepared has been finalized exactly once. -/
def FinalizedOnce (log : List Event) : Prop :=
  ∀ n, .prepare (some n) ∈ log → log.count (.finalize (some n)) = 1

/-- A statement that is finalized is not finalized a second time. -/
theorem count_le_one {log : List Event} (h : NotUsedFinalized log) (n : ℕ) :
    log.count (.finalize (some n)) ≤ 1 := by
  induction log with
  | nil => exact Nat.zero_le 1
  | cons e log ih =>
    obtain ⟨he, hlog⟩ := h
    by_cases heq : e = .finalize (some n)
    · -- it would be used after it has been finalized
      subst heq
      have hone : (Event.finalize (some n) :: log).count (.finalize (some n)) = 1 := by
        rw [List.count_cons_self, List.count_eq_zero.mpr (he n rfl)]
      exact Nat.le_of_eq hone
    · rw [List.count_cons_of_ne heq]
      exact ih hlog

/-- Without objects, the statements that are not finalized are those that have been leaked. -/
theorem Inv.finalizedOnce_iff_leaked (h : s.Inv) (hdone : ∀ i, s.objects i = none) :
    FinalizedOnce s.world.log ↔ ∀ n, ¬ s.Leaked n := by
  constructor
  · rintro honce n ⟨⟨hprepare, hfinalize⟩, -⟩
    have hcount := honce n hprepare
    rw [List.count_eq_zero.mpr hfinalize] at hcount
    cases hcount
  · intro hall n hprepare
    -- it would be open, and there is no object to hold it
    have hmem : .finalize (some n) ∈ s.world.log := by
      by_contra hfinalize
      refine hall n ⟨⟨hprepare, hfinalize⟩, fun i => ?_⟩
      rw [holds_of_none (hdone i)]
      exact nofun
    exact Nat.le_antisymm (count_le_one h.notUsed n) (List.count_pos_iff.mpr hmem)

/-- **Every prepared statement is finalized exactly once** by the time all objects are destroyed, if
and only if every call that has found the schema changed has prepared its statement again. No
statement is used after it has been finalized. -/
theorem finalizedOnce_iff {sqlite : Sqlite3} {steps prepares : List ℤ} {ls : List ObjectAct}
    (hr : AllSteps step (start sqlite steps prepares) ls s) :
    NotUsedFinalized s.world.log ∧ ((∀ i, s.objects i = none) →
      (FinalizedOnce s.world.log ↔
        Steps step ObjectAct.Reprepares (start sqlite steps prepares) ls s)) := by
  obtain ⟨hinv, hleaked⟩ := (Inv.start sqlite steps prepares).steps hr
  refine ⟨hinv.notUsed, fun hdone => ?_⟩
  rw [hinv.finalizedOnce_iff_leaked hdone, hleaked.kept_iff]
  -- nothing is leaked in the beginning
  refine forall_congr' fun n => ⟨fun hn hleak => absurd hleak hn, fun hn hleak => ?_⟩
  cases (hn hleak).1.1

/-- An object is constructed, stepped and destroyed. -/
def stepped : List ObjectAct :=
  [.constructPar 0 ⟨"SELECT 1", 90, 20⟩, .call 0 true .step, .destroy 0]

/-- The schema changes, and the statement is prepared again. -/
theorem finalizedOnce_reprepared : ∃ s,
    AllSteps step (start .plain [SQLITE_SCHEMA, SQLITE_ROW] [SQLITE_OK, SQLITE_OK]) stepped s ∧
      NotUsedFinalized s.world.log ∧ FinalizedOnce s.world.log := by
  have hreprepared : Reprepared [SQLITE_SCHEMA, SQLITE_ROW] [SQLITE_OK] :=
    reprepared_schema.mpr ⟨rfl, (reprepared_cons (by decide) _ _).mpr trivial⟩
  have hrun : ∃ s, Steps step ObjectAct.Reprepares
      (start .plain [SQLITE_SCHEMA, SQLITE_ROW] [SQLITE_OK, SQLITE_OK]) stepped s ∧
        ∀ i, s.objects i = none := by
    refine ⟨_, .cons trivial rfl (.cons ?_ rfl (.cons trivial rfl (.nil _))), fun i => ?_⟩
    · rintro o ⟨⟩ - -
      exact hreprepared
    · cases i <;> rfl
  obtain ⟨s, hr, hdone⟩ := hrun
  have hresult := finalizedOnce_iff (hr.mono fun _ _ _ => trivial)
  exact ⟨s, hr.mono fun _ _ _ => trivial, hresult.1, (hresult.2 hdone).mpr hr⟩

/-- The schema changes, and the statement cannot be prepared again: no object holds the old one any
more, and it is never finalized. -/
theorem never_finalized : ∃ s,
    AllSteps step (start .plain [SQLITE_SCHEMA] [SQLITE_OK, 1]) stepped s ∧
      (∀ i, s.objects i = none) ∧ ¬ FinalizedOnce s.world.log := by
  refine ⟨_, .cons trivial rfl (.cons trivial rfl (.cons trivial rfl (.nil _))), fun i => ?_,
    fun honce => ?_⟩
  · cases i <;> rfl
  · have hcount := honce 0 (by decide)
    revert hcount
    decide

end Objects

end Glim.Sqlite
