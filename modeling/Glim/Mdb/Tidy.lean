import Glim.Mdb.Owners

/-!
# What an operation does to its callers

Every operation leaves the local objects of its callers alone, only adds to the ledger and keeps the
invariant, whether it returns or throws. There is one way to lose the owners: `~IteratorImpl`
commits, and an exception that leaves a destructor terminates the program.

## Main definitions

* `Keeps`, `Stops`, `Tidy`: what an operation may do to its callers
* `Callback`, `TidyTrigger`: serializers, visitors and triggers, which may throw and may use the
  database themselves
* `SimpleIndexTrigger.tidyTrigger`: the trigger of an index is tidy
* `GaveUp`: how the transaction that an operation has begun was given up

## Main results

* `wp_withTransaction`: an operation has committed if it returns, and has aborted or attempted to
  commit if it throws
* `wp_openIterator`: an iterator owns its transaction, or its constructor has ended it
* `wp_destroyIterator`: the last iterator commits, or the program is terminated
-/

namespace Glim.MdbTransactions

open Machine Unwind Ledger

/-- What is open has its owner, the ledger was only added to, and the local objects are as
before. -/
structure Keeps (w w' : World) : Prop where
  inv : Inv w'
  log : w.log <:+ w'.log
  locals : w'.locals = w.locals

/-- LMDB refuses the commit of `~IteratorImpl` in the state `v`, which terminates the program. -/
def IteratorImpl.Refused (impl : IteratorImpl) (v w : World) : Prop :=
  v.lmdb.rc v.calls ≠ 0 ∧ impl.destroy v = (.terminated, w)

/-- The program was terminated by a commit that was refused. -/
structure Stops (w w' : World) : Prop where
  inv : Inv w'
  log : w.log <:+ w'.log
  refused : ∃ impl v, IteratorImpl.Refused impl v w'

/-- A program that may be run where the local objects satisfy `P`. -/
def Tidy {α : Type} (P : List Local → Prop) (x : Act α) : Prop :=
  ∀ w, Inv w → P w.locals → wp x (fun _ => Keeps w) (fun _ => Keeps w) (Stops w) w

/-- The transaction has a local owner. -/
def Has (t : ℕ) (ls : List Local) : Prop := .txn (some t) ∈ ls

section Tidy

variable {α β : Type} {P P' : List Local → Prop} {w w' w'' : World} {x : Act α}

theorem Keeps.refl (h : Inv w) : Keeps w w := ⟨h, List.suffix_rfl, rfl⟩

theorem Keeps.trans (h : Keeps w w') (h' : Keeps w' w'') : Keeps w w'' :=
  ⟨h'.inv, h.log.trans h'.log, h'.locals.trans h.locals⟩

theorem Keeps.stops (h : Keeps w w') (h' : Stops w' w'') : Stops w w'' :=
  ⟨h'.inv, h.log.trans h'.log, h'.refused⟩

theorem Keeps.calls (h : Inv w) (n : ℕ) : Keeps w { w with calls := n } :=
  ⟨h.calls n, List.suffix_rfl, rfl⟩

theorem Tidy.mono (hx : Tidy P x) (hP : ∀ ls, P' ls → P ls) : Tidy P' x :=
  fun w hw hp => hx w hw (hP _ hp)

theorem Tidy.pure (a : α) : Tidy P (pure a : Act α) := fun _ hw _ => Keeps.refl hw

theorem Tidy.raise (e : String) : Tidy P (raise e : Act α) := fun _ hw _ => Keeps.refl hw

theorem Tidy.bind {f : α → Act β} (hx : Tidy P x) (hf : ∀ a, Tidy P (f a)) :
    Tidy P (x >>= f) := by
  intro w hw hp
  refine (wp_bind _).mpr (wp_mono (hx w hw hp) (fun a w' hk => ?_) (fun _ _ h => h) fun _ h => h)
  refine wp_mono (hf a w' hk.inv (hk.locals ▸ hp)) (fun _ _ h => hk.trans h)
    (fun _ _ h => hk.trans h) fun _ h => hk.stops h

theorem Tidy.ite {c : Prop} [Decidable c] {y : Act α} (hx : Tidy P x) (hy : Tidy P y) :
    Tidy P (if c then x else y) := by
  split_ifs
  · exact hx
  · exact hy

theorem Tidy.when {c : Prop} [Decidable c] {x : Act Unit} (hx : Tidy P x) :
    Tidy P (when c x) := Tidy.ite hx (Tidy.pure ())

theorem tidy_mdbCall : Tidy P mdbCall := fun _ hw _ => Keeps.calls hw _

theorem tidy_raiseIf (message : String) (rc : ℤ) : Tidy P (raiseIf message rc) := by
  intro w hw hp
  simp only [raiseIf, wp_bind, wp_get]
  exact Tidy.when (Tidy.raise _) w hw hp

end Tidy

/-! ## Local owners -/

section Locals

variable {α : Type} {w : World} {Q : α → World → Prop} {E : String → World → Prop}
  {T : World → Prop} {c t : ℕ} {ls : List Local}

theorem wp_mdbCall {Q : ℤ → World → Prop} :
    wp mdbCall Q E T w ↔ Q (w.lmdb.rc w.calls) { w with calls := w.calls + 1 } := Iff.rfl

theorem wp_raiseIf {Q : Unit → World → Prop} {message : String} {rc : ℤ}
    (hok : rc = 0 → Q () w) (hthrow : rc ≠ 0 → ∀ e, E e w) : wp (raiseIf message rc) Q E T w := by
  simp only [raiseIf, wp_bind, wp_get, wp_when, wp_raise]
  exact ⟨fun h => hthrow h _, fun h => hok (Classical.not_not.mp h)⟩

theorem wp_destroyLocal_cursor {Q : Unit → World → Prop} (hl : w.locals = .cursor c t :: ls)
    (hQ : Q () { w with log := .detach c :: w.log, locals := ls }) : wp destroyLocal Q E T w := by
  simpa only [destroyLocal, record, wp_bind, wp_get, wp_modify, hl, List.head?_cons,
    List.tail_cons] using hQ

theorem wp_destroyLocal_txn {Q : Unit → World → Prop} (hl : w.locals = .txn (some t) :: ls)
    (hQ : Q () { w with log := .release t .abort :: w.log, locals := ls }) :
    wp destroyLocal Q E T w := by
  simpa only [destroyLocal, record, wp_bind, wp_get, wp_modify, hl, List.head?_cons,
    List.tail_cons] using hQ

theorem wp_destroyLocal_null {Q : Unit → World → Prop} (hl : w.locals = .txn none :: ls)
    (hQ : Q () { w with locals := ls }) : wp destroyLocal Q E T w := by
  simpa only [destroyLocal, wp_bind, wp_get, wp_modify, wp_pure, hl, List.head?_cons,
    List.tail_cons] using hQ

/-- A cursor and its holder. -/
theorem tidy_withCursor {body : Act α} (hbody : Tidy (fun _ => True) body) (t : ℕ) :
    Tidy (Has t) (do
      let cur ← newCursor t
      withLocal (.cursor cur t) body) := by
  intro w hw ht
  simp only [newCursor, withLocal, push, wp_bind, wp_get, wp_modify, wp_pure, wp_scope]
  have hopened := hw.cursorOpened ht
  have hlog : w.log <:+ .attach w.cursors t :: w.log := List.suffix_cons _ _
  -- the holder closes the cursor however the body ends
  have hclosed : ∀ w', Keeps { w with
        log := .attach w.cursors t :: w.log, cursors := w.cursors + 1,
        locals := .cursor w.cursors t :: w.locals } w' →
      Keeps w { w' with log := .detach w.cursors :: w'.log, locals := w.locals } := fun w' hk =>
    ⟨hk.inv.cursorClosed hk.locals, (hlog.trans hk.log).trans (List.suffix_cons _ _), rfl⟩
  exact wp_mono (hbody _ hopened trivial)
    (fun _ w' hk => wp_destroyLocal_cursor hk.locals (hclosed w' hk))
    (fun _ w' hk => wp_destroyLocal_cursor hk.locals (hclosed w' hk))
    fun w' hs => ⟨hs.inv, hlog.trans hs.log, hs.refused⟩

/-! ## Transactions -/

/-- A transaction is begun, or nothing happens. -/
theorem wp_beginTransaction {Q : ℕ → World → Prop} (flags : ℕ)
    (hok : Q w.txns { w with
      calls := w.calls + 1, log := .acquire w.txns :: w.log, txns := w.txns + 1 })
    (hthrow : ∀ e, E e { w with calls := w.calls + 1 }) :
    wp (beginTransaction flags) Q E T w := by
  simp only [beginTransaction, newTxn, wp_bind, wp_get, wp_modify, wp_pure]
  exact wp_raiseIf (fun _ => hok) fun _ => hthrow

/-- The transaction is given up, however the commit ends. -/
theorem wp_commitTransaction {Q : Unit → World → Prop} {release : Act Unit} {f : World → World}
    (hrelease : release = modify f)
    (hok : w.lmdb.rc w.calls = 0 → Q () (f { w with
      calls := w.calls + 1, log := .release t (.commit true) :: w.log }))
    (hthrow : w.lmdb.rc w.calls ≠ 0 → ∀ e, E e (f { w with
      calls := w.calls + 1, log := .release t (.commit false) :: w.log })) :
    wp (commitTransaction t release) Q E T w := by
  subst hrelease
  simp only [commitTransaction, record, wp_bind, wp_modify]
  show wp (raiseIf _ (w.lmdb.rc w.calls)) Q E T (f { w with
    calls := w.calls + 1, log := .release t (.commit (decide (w.lmdb.rc w.calls = 0))) :: w.log })
  refine wp_raiseIf (fun h0 => ?_) fun hne => ?_
  · rw [decide_eq_true h0]
    exact hok h0
  · rw [decide_eq_false hne]
    exact hthrow hne

end Locals

/-- From `w` a transaction was begun, the first thing that happened, and it was given up. -/
def GaveUp (w w' : World) (how : TxnEnd) : Prop :=
  .acquire w.txns :: w.log <:+ w'.log ∧ .release w.txns how ∈ w'.log

/-- An operation in a transaction of its own has committed it if it returns, and has aborted it or
attempted to commit it if it throws, unless it was not begun. -/
theorem wp_withTransaction {α : Type} {w : World} {inner : ℕ → Act α} (flags : ℕ)
    (hinner : ∀ t, Tidy (Has t) (inner t)) (hw : Inv w) :
    wp (withTransaction flags inner)
      (fun _ w' => Keeps w w' ∧ GaveUp w w' (.commit true))
      (fun _ w' => Keeps w w' ∧
        (w'.log = w.log ∨ GaveUp w w' .abort ∨ GaveUp w w' (.commit false)))
      (Stops w) w := by
  refine (wp_bind _).mpr (wp_beginTransaction flags ?_ fun _ => ⟨Keeps.calls hw _, Or.inl rfl⟩)
  simp only [withLocal, push, wp_bind, wp_modify, wp_scope, wp_pure]
  have hbegun := (hw.calls (w.calls + 1)).begun
  have hlog : w.log <:+ .acquire w.txns :: w.log := List.suffix_cons _ _
  refine wp_mono (hinner w.txns _ hbegun List.mem_cons_self) (fun a w' hk => ?_)
    (fun e w' hk => ?_) fun w' hs => ⟨hs.inv, hlog.trans hs.log, hs.refused⟩
  -- the operation returned
  · have hlocals : w'.locals = .txn (some w.txns) :: w.locals := hk.locals
    have hended : ∀ how, Keeps w { w' with
        calls := w'.calls + 1, log := .release w.txns how :: w'.log, locals := w.locals } :=
      fun how => ⟨(hk.inv.calls (w'.calls + 1)).ended hk.locals how,
        (hlog.trans hk.log).trans (List.suffix_cons _ _), rfl⟩
    have hgave : ∀ how, GaveUp w { w' with
        calls := w'.calls + 1, log := .release w.txns how :: w'.log, locals := w.locals } how :=
      fun how => ⟨hk.log.trans (List.suffix_cons _ _), List.mem_cons_self⟩
    refine wp_commitTransaction rfl (fun _ => ?_) fun _ e => ?_
    · simp only [hlocals]
      exact wp_destroyLocal_null rfl ⟨hended _, hgave _⟩
    · simp only [hlocals]
      exact wp_destroyLocal_null rfl ⟨hended _, Or.inr (Or.inr (hgave _))⟩
  · have hlog' := hk.log.trans (List.suffix_cons (.release w.txns .abort) _)
    refine wp_destroyLocal_txn hk.locals ⟨⟨hk.inv.ended hk.locals .abort, hlog.trans hlog', rfl⟩,
      Or.inr (Or.inl ⟨hlog', List.mem_cons_self⟩)⟩

/-! ## The operations -/

/-- A serializer, a deserializer or a visitor. -/
structure Callback (α : Type) where
  run : Act α
  tidy : Tidy (fun _ => True) run

/-- A trigger, which may open cursors in the transaction it gets. -/
structure TidyTrigger extends Trigger where
  add_tidy : ∀ kbytes vbytes t, Tidy (Has t) (add kbytes vbytes t)
  erase_tidy : ∀ kbytes t, Tidy (Has t) (erase kbytes t)
  eraseKV_tidy : ∀ kbytes vbytes t, Tidy (Has t) (eraseKV kbytes vbytes t)

section Operations

variable {P : List Local → Prop} (triggers : List TidyTrigger) (key value : Callback (List UInt8))
  (deserialize : Callback Unit) (visitor : Callback Bool) (values t : ℕ)

theorem Callback.tidy_of {α : Type} (c : Callback α) : Tidy P c.run :=
  c.tidy.mono fun _ _ => trivial

theorem tidy_runTriggers {run : Trigger → Act Unit}
    (h : ∀ trigger : TidyTrigger, Tidy P (run trigger.toTrigger)) :
    Tidy P (runTriggers run (triggers.map TidyTrigger.toTrigger)) := by
  induction triggers with
  | nil => exact Tidy.pure ()
  | cons trigger triggers ih => exact (h trigger).bind fun _ => ih

theorem tidy_addTxn :
    Tidy (Has t) (addTxn (triggers.map TidyTrigger.toTrigger) key.run value.run t) :=
  key.tidy_of.bind fun _ => value.tidy_of.bind fun _ =>
    (tidy_runTriggers triggers fun trigger => trigger.add_tidy _ _ t).bind fun _ =>
      tidy_mdbCall.bind fun _ => tidy_raiseIf _ _

theorem tidy_firstTxn : Tidy P (firstTxn key.run deserialize.run t) :=
  key.tidy_of.bind fun _ => tidy_mdbCall.bind fun _ =>
    Tidy.ite (Tidy.pure _) <| (tidy_raiseIf _ _).bind fun _ =>
      deserialize.tidy_of.bind fun _ => Tidy.pure _

theorem tidy_visitRest : ∀ left count, Tidy P (visitRest deserialize.run visitor.run left count)
  | 0, _ => tidy_mdbCall.bind fun _ => (tidy_raiseIf _ _).bind fun _ => Tidy.pure _
  | left + 1, count =>
    tidy_mdbCall.bind fun _ => Tidy.ite (Tidy.pure _) <| (tidy_raiseIf _ _).bind fun _ =>
      deserialize.tidy_of.bind fun _ => visitor.tidy_of.bind fun _ =>
        Tidy.ite (tidy_visitRest left (count + 1)) (Tidy.pure _)

theorem tidy_allTxn :
    Tidy (Has t) (allTxn key.run deserialize.run visitor.run values t) := by
  refine key.tidy_of.bind fun _ => tidy_mdbCall.bind fun _ => (tidy_raiseIf _ _).bind fun _ => ?_
  refine tidy_withCursor (tidy_mdbCall.bind fun _ => Tidy.ite (Tidy.pure _) ?_) t
  exact (tidy_raiseIf _ _).bind fun _ => deserialize.tidy_of.bind fun _ =>
    visitor.tidy_of.bind fun _ => Tidy.ite (tidy_visitRest _ _ _ _) (Tidy.pure _)

theorem tidy_erased (rc : ℤ) : Tidy P (erased rc) :=
  Tidy.ite (Tidy.pure _) ((tidy_raiseIf _ _).bind fun _ => Tidy.pure _)

theorem tidy_eraseKVTxn :
    Tidy (Has t) (eraseKVTxn (triggers.map TidyTrigger.toTrigger) key.run value.run t) :=
  key.tidy_of.bind fun _ => (Tidy.when (Tidy.raise _)).bind fun _ => value.tidy_of.bind fun _ =>
    (tidy_runTriggers triggers fun trigger => trigger.eraseKV_tidy _ _ t).bind fun _ =>
      tidy_mdbCall.bind fun _ => tidy_erased _

theorem tidy_eraseTxn :
    Tidy (Has t) (eraseTxn (triggers.map TidyTrigger.toTrigger) key.run t) :=
  key.tidy_of.bind fun _ => (Tidy.when (Tidy.raise _)).bind fun _ =>
    (tidy_runTriggers triggers fun trigger => trigger.erase_tidy _ t).bind fun _ =>
      tidy_mdbCall.bind fun _ => tidy_erased _

end Operations

namespace SimpleIndexTrigger

variable {P : List Local → Prop}

theorem tidy_raiseUnlessNotFound (message : String) (rc : ℤ) :
    Tidy P (raiseUnlessNotFound message rc) := tidy_raiseIf _ _

theorem tidy_eraseRest : ∀ left, Tidy P (eraseRest left)
  | 0 => tidy_mdbCall.bind fun _ => tidy_raiseUnlessNotFound _ _
  | left + 1 =>
    tidy_mdbCall.bind fun _ => Tidy.ite (Tidy.pure _) <| (tidy_raiseIf _ _).bind fun _ =>
      tidy_mdbCall.bind fun _ => (tidy_raiseUnlessNotFound _ _).bind fun _ => tidy_eraseRest left

theorem tidy_erase (values t : ℕ) : Tidy (Has t) (erase values t) := by
  refine tidy_mdbCall.bind fun _ => (tidy_raiseIf _ _).bind fun _ => ?_
  refine tidy_withCursor (tidy_mdbCall.bind fun _ => Tidy.ite (Tidy.pure _) ?_) t
  exact (tidy_raiseIf _ _).bind fun _ => tidy_mdbCall.bind fun _ =>
    (tidy_raiseUnlessNotFound _ _).bind fun _ => tidy_eraseRest values

/-- The trigger of an index is tidy. -/
def tidyTrigger (values : ℕ) : TidyTrigger where
  toTrigger := trigger values
  add_tidy _ _ _ := tidy_mdbCall.bind fun _ => tidy_raiseIf _ _
  erase_tidy _ t := tidy_erase values t
  eraseKV_tidy _ _ _ := tidy_mdbCall.bind fun _ => tidy_raiseUnlessNotFound _ _

end SimpleIndexTrigger

/-- The trigger that a database has is one for an index, unless its users write others. -/
instance : Inhabited TidyTrigger := ⟨SimpleIndexTrigger.tidyTrigger 0⟩

/-! ## Iterators -/

section Iterators

variable {P : List Local → Prop} {w : World} {n : ℕ} {impl : IteratorImpl}

/-- What `~IteratorImpl` leaves when its commit is refused. -/
theorem IteratorImpl.destroy_refused {v : World} (h : v.lmdb.rc v.calls ≠ 0) :
    impl.Refused v { v with
      calls := v.calls + 1
      log := .release impl.txn (.commit false) :: .detach impl.cur :: v.log } := by
  refine ⟨h, eq_terminated_of_wp (wp_noexcept.mpr ((wp_bind _).mpr ?_))⟩
  exact wp_commitTransaction rfl (fun h0 => absurd h0 h) fun _ e => rfl

/-- The last iterator commits, or the program is terminated. -/
theorem wp_destroyIterator (hw : Inv w) (n : ℕ) :
    wp (destroyIterator n)
      (fun _ w' => Keeps w w' ∧ ∀ impl, (w.iters[n]?).join = some impl →
        some impl ∉ w.iters.set n none → .release impl.txn (.commit true) ∈ w'.log)
      (fun _ _ => False) (Stops w) w := by
  simp only [destroyIterator, wp_bind, wp_get]
  cases hjoin : (w.iters[n]?).join with
  | none => exact ⟨Keeps.refl hw, by simp⟩
  | some impl =>
    have hn : w.iters[n]? = some (some impl) := Option.join_eq_some_iff.mp hjoin
    simp only [wp_bind, wp_modify, wp_when]
    refine ⟨fun hlast => ?_, fun hshared => ?_⟩
    -- the last owner closes the cursor and commits the transaction
    · have hdone : ∀ how, Keeps w { w with
          calls := w.calls + 1, log := .release impl.txn how :: .detach impl.cur :: w.log,
          iters := w.iters.set n none } := fun how =>
        ⟨(hw.calls (w.calls + 1)).destroyed hn hlast how,
          (List.suffix_cons _ _).trans (List.suffix_cons _ _), rfl⟩
      refine wp_noexcept.mpr ((wp_bind _).mpr (wp_commitTransaction rfl (fun _ => ?_)
        fun hrc e => ?_))
      · refine ⟨hdone _, fun impl' himpl _ => ?_⟩
        rw [← Option.some.inj himpl]
        exact List.mem_cons_self
      -- a commit that is refused throws in a destructor
      · exact ⟨(hdone _).inv, (hdone (.commit false)).log, impl, _,
          IteratorImpl.destroy_refused (v := { w with iters := w.iters.set n none }) hrc⟩
    -- other iterators share the object, which is left alone
    · refine ⟨⟨hw.iters_congr fun i => ?_, List.suffix_rfl, rfl⟩, fun impl' himpl hlast => ?_⟩
      · refine ⟨fun hi => (List.mem_or_eq_of_mem_set hi).resolve_right (by simp), fun hi => ?_⟩
        by_cases heq : i = impl
        · rw [heq]
          exact Classical.not_not.mp hshared
        · exact mem_set_of_ne hi (by rw [hn]; exact fun h => heq (by cases h; rfl))
      · exact absurd (Classical.not_not.mp hshared) (Option.some.inj himpl ▸ hlast)

theorem tidy_destroyIterator (n : ℕ) : Tidy P (destroyIterator n) := fun _ hw _ =>
  wp_mono (wp_destroyIterator hw n) (fun _ _ h => h.1) (fun _ _ h => h.elim) fun _ h => h

/-- What an iterator shares is shared. -/
theorem join_getElem?_mem (h : (w.iters[n]?).join = some impl) : some impl ∈ w.iters :=
  List.mem_of_getElem? (Option.join_eq_some_iff.mp h)

theorem tidy_copyIterator (n : ℕ) : Tidy P (copyIterator n) := by
  intro w hw _
  refine ⟨hw.iters_congr fun i => ?_, List.suffix_rfl, rfl⟩
  rw [List.mem_append, List.mem_singleton]
  exact ⟨fun hi => hi.elim id fun heq => join_getElem?_mem heq.symm, Or.inl⟩

theorem tidy_moveIterator (n : ℕ) : Tidy P (moveIterator n) := by
  intro w hw _
  refine ⟨hw.iters_congr fun i => ?_, List.suffix_rfl, rfl⟩
  rw [List.mem_append, List.mem_singleton]
  constructor
  · rintro (hi | heq)
    · exact (List.mem_or_eq_of_mem_set hi).resolve_right nofun
    · exact join_getElem?_mem heq.symm
  · intro hi
    by_cases hn : w.iters[n]? = some (some i)
    · exact Or.inr (Option.join_eq_some_iff.mpr hn).symm
    · exact Or.inl (mem_set_of_ne hi hn)

theorem wp_destroyIterator_null {Q : Unit → World → Prop} {E : String → World → Prop}
    {T : World → Prop} (hn : w.iters[n]? = some none) (hQ : Q () w) :
    wp (destroyIterator n) Q E T w := by
  simp only [destroyIterator, wp_bind, wp_get, hn]
  exact hQ

/-- A program that does nothing but call LMDB, as the positioning of a cursor does. -/
def OnlyCalls (x : Act Unit) : Prop :=
  ∀ w, wp x (fun _ w' => ∃ k, w' = { w with calls := k })
    (fun _ w' => ∃ k, w' = { w with calls := k }) (fun _ => False) w

/-- The cursor and the transaction go over to the iterator. -/
theorem wp_adopt {α : Type} {k : Act α} {Q : α → World → Prop} {E : String → World → Prop}
    {T : World → Prop} {t : ℕ} {ls : List Local} (hl : w.locals = .txn (some t) :: ls)
    (hk : wp k Q E T { w with
      log := .attach w.cursors t :: w.log, cursors := w.cursors + 1, locals := .txn none :: ls,
      iters := w.iters.set n (some ⟨t, w.cursors⟩) }) :
    wp (do
      let cur ← newCursor t
      makeImpl n t cur
      k) Q E T w := by
  simpa only [newCursor, makeImpl, releaseLocal, wp_bind, wp_get, wp_modify, wp_pure, hl] using hk

/-- A constructor that opens a transaction leaves it to the iterator if it returns, and has ended it
if it throws, unless it was not begun. -/
theorem wp_openIterator {position : Act Unit} (hposition : OnlyCalls position) (hw : Inv w) :
    wp (openIterator position) (fun _ => Keeps w)
      (fun _ w' => Keeps w w' ∧
        (w'.log = w.log ∨ GaveUp w w' .abort ∨ GaveUp w w' (.commit true)))
      (Stops w) w := by
  have hnew : Inv { w with iters := w.iters ++ [none] } := hw.iters_congr fun i => by simp
  have hnull : (w.iters ++ [none])[w.iters.length]? = some none := by simp
  have hlog : w.log <:+ .acquire w.txns :: w.log := List.suffix_cons _ _
  simp only [openIterator, construct, wp_bind, wp_get, wp_modify, wp_onThrow, wp_pure]
  -- the transaction belongs to a local variable at first
  refine wp_beginTransaction 0 ?_ fun e => ?_
  · have hbegun := ((hnew.calls (w.calls + 1)).begun).calls (w.calls + 1 + 1)
    refine (wp_bind _).mpr ((wp_scope _).mpr ((wp_bind _).mpr (wp_mdbCall.mpr ?_)))
    refine (wp_bind _).mpr ((wp_when _ _).mpr ⟨fun hne => ?_, fun h0 => ?_⟩)
    -- no cursor was opened: the transaction is aborted
    · refine (wp_raise _).mpr (wp_destroyLocal_txn rfl ?_)
      refine wp_destroyIterator_null hnull ?_
      refine ⟨⟨hbegun.ended rfl .abort, hlog.trans (List.suffix_cons _ _), rfl⟩, ?_⟩
      exact Or.inr (Or.inl ⟨List.suffix_cons _ _, List.mem_cons_self⟩)
    -- the iterator takes the transaction and the cursor over
    refine wp_adopt rfl ?_
    have hadopted := hbegun.adopted rfl hnull
    have hopened := List.suffix_cons (.attach w.cursors w.txns) (.acquire w.txns :: w.log)
    refine wp_mono (hposition _) (fun _ w' hcalls => ?_) (fun _ w' hcalls => ?_) (by simp)
    · obtain ⟨k, rfl⟩ := hcalls
      exact wp_destroyLocal_null rfl ⟨(hadopted.calls k).popped rfl, hlog.trans hopened, rfl⟩
    · -- the position was not found, and the iterator is the only one
      obtain ⟨k, rfl⟩ := hcalls
      refine wp_destroyLocal_null rfl ?_
      have hpopped := (hadopted.calls k).popped rfl
      refine wp_mono (wp_destroyIterator hpopped w.iters.length) (fun _ w'' h => ?_) (by simp)
        fun w'' hs => ⟨hs.inv, (hlog.trans hopened).trans hs.log, hs.refused⟩
      have hlog' := hopened.trans h.1.log
      refine ⟨⟨h.1.inv, hlog.trans hlog', h.1.locals⟩, Or.inr (Or.inr ⟨hlog', ?_⟩)⟩
      refine h.2 ⟨w.txns, w.cursors⟩ (by simp) fun hmem => ?_
      have hold : some ⟨w.txns, w.cursors⟩ ∈ w.iters := by simpa using hmem
      exact hw.not_ownsTxn (Or.inr ⟨_, hold, rfl⟩)
  -- no transaction has begun
  · exact wp_destroyIterator_null hnull ⟨⟨hnew.calls _, List.suffix_rfl, rfl⟩, Or.inl rfl⟩

theorem onlyCalls_iterator (position : ℕ) :
    OnlyCalls (when (position = MDB_FIRST ∨ position = MDB_LAST) do
      let rc ← mdbCall
      when (rc ≠ 0) (raise "mdb_cursor_get")) := by
  intro w
  rw [wp_when, wp_bind, wp_mdbCall, wp_when]
  exact ⟨fun _ => ⟨fun _ => ⟨_, rfl⟩, fun _ => ⟨_, rfl⟩⟩, fun _ => ⟨_, rfl⟩⟩

theorem onlyCalls_iteratorAt :
    OnlyCalls (do
      let rc ← mdbCall
      when (rc ≠ MDB_NOTFOUND ∧ rc ≠ 0) (raise "mdb_cursor_get")) := by
  intro w
  rw [wp_bind, wp_mdbCall, wp_when]
  exact ⟨fun _ => ⟨_, rfl⟩, fun _ => ⟨_, rfl⟩⟩

theorem tidy_endIterator : Tidy P endIterator := by
  intro w hw _
  simp only [endIterator, construct, wp_bind, wp_get, wp_modify, wp_onThrow, wp_pure]
  exact ⟨hw.iters_congr fun i => by simp, List.suffix_rfl, rfl⟩

end Iterators

end Glim.MdbTransactions
