import Glim.Mdb.Tidy

/-!
# Transactions are finished exactly once

A program calls the operations and constructs, copies, moves and destroys iterators in any order,
and goes on after an exception. Every transaction it begins is passed to exactly one of commit and
abort, or an iterator still owns it, and every cursor is closed exactly once, before its transaction
ends. The exception to this is a program that a refused commit terminates.

## Main definitions

* `Op`, `run`: the operations, and programs of them
* `Finished`: transactions and cursors are finished exactly once
* `Stranded`: the program is terminated by a refused commit while another transaction is open

## Main results

* `Op.tidy`: every operation is tidy, so that callbacks may use them
* `finished_iff`: a program finishes its transactions and cursors exactly if it is not stranded
-/

namespace Glim.MdbTransactions

open Machine Unwind Ledger

/-- The operations. An iterator is a number, which counts the constructors that were called. -/
inductive Op where
  | add (triggers : List TidyTrigger) (key value : Callback (List UInt8))
  | first (key : Callback (List UInt8)) (deserialize : Callback Unit)
  | all (key : Callback (List UInt8)) (deserialize : Callback Unit) (visitor : Callback Bool)
      (values : ℕ)
  | eraseKV (triggers : List TidyTrigger) (key value : Callback (List UInt8))
  | erase (triggers : List TidyTrigger) (key : Callback (List UInt8))
  | iterator (position : ℕ)
  | iteratorAt
  | endIterator
  | copyIterator (n : ℕ)
  | moveIterator (n : ℕ)
  | destroyIterator (n : ℕ)

namespace Op

/-- What an operation does, without its result. -/
def exec : Op → Act Unit
  | add triggers key value =>
    MdbTransactions.add (triggers.map TidyTrigger.toTrigger) key.run value.run
  | first key deserialize => do
    let _ ← MdbTransactions.first key.run deserialize.run
  | all key deserialize visitor values => do
    let _ ← MdbTransactions.all key.run deserialize.run visitor.run values
  | eraseKV triggers key value => do
    let _ ← MdbTransactions.eraseKV (triggers.map TidyTrigger.toTrigger) key.run value.run
  | erase triggers key => do
    let _ ← MdbTransactions.erase (triggers.map TidyTrigger.toTrigger) key.run
  | iterator position => do
    let _ ← MdbTransactions.iterator position
  | iteratorAt => do
    let _ ← MdbTransactions.iteratorAt
  | endIterator => do
    let _ ← MdbTransactions.endIterator
  | copyIterator n => MdbTransactions.copyIterator n
  | moveIterator n => MdbTransactions.moveIterator n
  | destroyIterator n => MdbTransactions.destroyIterator n

/-- The operations that have a transaction of their own. -/
def IsCall : Op → Prop
  | add .. | first .. | all .. | eraseKV .. | erase .. => True
  | _ => False

/-- The constructors that begin a transaction. -/
def IsConstructor : Op → Prop
  | iterator .. | iteratorAt => True
  | _ => False

variable {op : Op} {w : World}

/-- A call has finished its transaction when it returns or throws. -/
theorem wp_call (hop : op.IsCall) (hw : Inv w) :
    wp op.exec (fun _ w' => Keeps w w' ∧ GaveUp w w' (.commit true))
      (fun _ w' => Keeps w w' ∧
        (w'.log = w.log ∨ GaveUp w w' .abort ∨ GaveUp w w' (.commit false)))
      (Stops w) w := by
  cases op with
  | add triggers key value => exact wp_withTransaction _ (tidy_addTxn triggers key value) hw
  | first key deserialize =>
    exact (wp_bind _).mpr (wp_withTransaction _ (fun t => tidy_firstTxn key deserialize t) hw)
  | all key deserialize visitor values =>
    exact (wp_bind _).mpr
      (wp_withTransaction _ (tidy_allTxn key deserialize visitor values) hw)
  | eraseKV triggers key value =>
    exact (wp_bind _).mpr (wp_withTransaction _ (tidy_eraseKVTxn triggers key value) hw)
  | erase triggers key =>
    exact (wp_bind _).mpr (wp_withTransaction _ (tidy_eraseTxn triggers key) hw)
  | _ => exact hop.elim

/-- A constructor has finished its transaction when it throws. -/
theorem wp_constructor (hop : op.IsConstructor) (hw : Inv w) :
    wp op.exec (fun _ => Keeps w)
      (fun _ w' => Keeps w w' ∧
        (w'.log = w.log ∨ GaveUp w w' .abort ∨ GaveUp w w' (.commit true)))
      (Stops w) w := by
  cases op with
  | iterator position =>
    exact (wp_bind _).mpr (wp_openIterator (onlyCalls_iterator position) hw)
  | iteratorAt => exact (wp_bind _).mpr (wp_openIterator onlyCalls_iteratorAt hw)
  | _ => exact hop.elim

/-- Every operation keeps the invariant and the local objects of its callers, or terminates the
program, so that a callback may use it. -/
theorem tidy (op : Op) : Tidy (fun _ => True) op.exec := by
  have hcall : op.IsCall → Tidy (fun _ => True) op.exec := fun hop w hw _ =>
    wp_mono (wp_call hop hw) (fun _ _ h => h.1) (fun _ _ h => h.1) fun _ h => h
  have hconstructor : op.IsConstructor → Tidy (fun _ => True) op.exec := fun hop w hw _ =>
    wp_mono (wp_constructor hop hw) (fun _ _ h => h) (fun _ _ h => h.1) fun _ h => h
  cases op with
  | add | first | all | eraseKV | erase => exact hcall trivial
  | iterator | iteratorAt => exact hconstructor trivial
  | endIterator => exact tidy_endIterator.bind fun _ => Tidy.pure ()
  | copyIterator n => exact tidy_copyIterator n
  | moveIterator n => exact tidy_moveIterator n
  | destroyIterator n => exact tidy_destroyIterator n

end Op

/-- A program: an exception of one operation does not keep it from the next one. -/
def runOps : List Op → Act Unit
  | [] => pure ()
  | op :: ops => do
    attempt op.exec
    runOps ops

/-- A program that starts with nothing open. -/
def run (lmdb : Lmdb) (ops : List Op) : Ending Unit × World := runOps ops { lmdb := lmdb }

/-- Transactions and cursors are finished exactly once, or an iterator of the program owns them;
cursors are finished before their transactions; and what an operation has begun and has not left to
an iterator was committed if it returned, and aborted or attempted to commit if it threw. -/
structure Finished (lmdb : Lmdb) (ops : List Op) : Prop where
  txns : ∀ t, .acquire t ∈ (run lmdb ops).2.log →
    (run lmdb ops).2.log.countP (Entry.releases t) = 1 ∨
      (run lmdb ops).2.log.countP (Entry.releases t) = 0 ∧ (run lmdb ops).1 = .value () ∧
        ∃ cur, some ⟨t, cur⟩ ∈ (run lmdb ops).2.iters
  cursors : ∀ c t, .attach c t ∈ (run lmdb ops).2.log →
    (run lmdb ops).2.log.countP (Entry.detaches c) = 1 ∨
      (run lmdb ops).2.log.countP (Entry.detaches c) = 0 ∧ (run lmdb ops).1 = .value () ∧
        some ⟨t, c⟩ ∈ (run lmdb ops).2.iters
  before : ∀ c t how later earlier, (run lmdb ops).2.log = later ++ .release t how :: earlier →
    .attach c t ∈ (run lmdb ops).2.log → .detach c ∈ earlier
  calls : ∀ done op left w w', ops = done ++ op :: left → op.IsCall →
    run lmdb done = (.value (), w) →
    (op.exec w = (.value (), w') → GaveUp w w' (.commit true)) ∧
    (∀ e, op.exec w = (.thrown e, w') →
      w'.log = w.log ∨ GaveUp w w' .abort ∨ GaveUp w w' (.commit false))
  constructors : ∀ done op left w w' e, ops = done ++ op :: left → op.IsConstructor →
    run lmdb done = (.value (), w) → op.exec w = (.thrown e, w') →
      w'.log = w.log ∨ GaveUp w w' .abort ∨ GaveUp w w' (.commit true)

/-- The program is terminated in `~IteratorImpl`, whose commit LMDB refuses, while another
transaction is open. -/
def Stranded (lmdb : Lmdb) (ops : List Op) : Prop :=
  ∃ impl v w t, run lmdb ops = (.terminated, w) ∧ IteratorImpl.Refused impl v w ∧
    t ≠ impl.txn ∧ Open v.log t

/-! ## Whole programs -/

theorem wp_runOps (ops : List Op) {w : World} (hw : Inv w) :
    wp (runOps ops) (fun _ => Keeps w) (fun _ _ => False) (Stops w) w := by
  induction ops generalizing w with
  | nil => exact Keeps.refl hw
  | cons op ops ih =>
    have hgo : ∀ w', Keeps w w' →
        wp (runOps ops) (fun _ => Keeps w) (fun _ _ => False) (Stops w) w' := fun w' hk =>
      wp_mono (ih hk.inv) (fun _ _ h => hk.trans h) (fun _ _ h => h) fun _ h => hk.stops h
    refine (wp_bind _).mpr (wp_attempt.mpr ?_)
    exact wp_mono (op.tidy w hw trivial) (fun _ w' hk => hgo w' hk) (fun _ w' hk => hgo w' hk)
      fun _ h => h

section Run

variable {lmdb : Lmdb} {ops : List Op} {w : World} {c t : ℕ}

/-- A program ends normally, or a refused commit terminates it. -/
theorem run_cases (lmdb : Lmdb) (ops : List Op) :
    (run lmdb ops).1 = .value () ∧ (run lmdb ops).2.locals = [] ∨
      (run lmdb ops).1 = .terminated ∧ ∃ impl v, IteratorImpl.Refused impl v (run lmdb ops).2 := by
  have h := wp_runOps ops (inv_start lmdb)
  rw [wp, ← run] at h
  rcases hrun : run lmdb ops with ⟨_ | _ | _, w⟩ <;> rw [hrun] at h
  · exact Or.inl ⟨rfl, h.locals⟩
  · exact h.elim
  · exact Or.inr ⟨rfl, h.refused⟩

theorem inv_run (lmdb : Lmdb) (ops : List Op) : Inv (run lmdb ops).2 := by
  have h := wp_runOps ops (inv_start lmdb)
  rw [wp, ← run] at h
  rcases hrun : run lmdb ops with ⟨_ | _ | _, w⟩ <;> rw [hrun] at h
  · exact h.inv
  · exact h.elim
  · exact h.inv

theorem inv_of_run (hrun : run lmdb ops = (.value (), w)) : Inv w := by
  have h := inv_run lmdb ops
  rwa [hrun] at h

/-- What a refused commit leaves open was open before it. -/
theorem IteratorImpl.Refused.open_iff {impl : IteratorImpl} {v : World} (h : impl.Refused v w) :
    Open w.log t ↔ Open v.log t ∧ t ≠ impl.txn := by
  obtain ⟨hrc, hdestroy⟩ := h
  rw [(IteratorImpl.destroy_refused hrc).2] at hdestroy
  rw [← (Prod.mk.inj hdestroy).2, open_release, open_detach]

/-- Nothing is open after a program that was terminated without being stranded. -/
theorem ended_of_open (h : ¬ Stranded lmdb ops) (hopen : Open (run lmdb ops).2.log t) :
    (run lmdb ops).1 = .value () ∧ (run lmdb ops).2.locals = [] := by
  refine (run_cases lmdb ops).resolve_right ?_
  rintro ⟨hended, impl, v, hrefused⟩
  obtain ⟨hopen', hne⟩ := hrefused.open_iff.mp hopen
  exact h ⟨impl, v, _, t, Prod.ext hended rfl, hrefused, hne, hopen'⟩

/-- A transaction was passed to one of commit and abort, or an iterator owns it. -/
theorem txn_finished (h : ¬ Stranded lmdb ops) (ht : .acquire t ∈ (run lmdb ops).2.log) :
    (run lmdb ops).2.log.countP (Entry.releases t) = 1 ∨
      (run lmdb ops).2.log.countP (Entry.releases t) = 0 ∧ (run lmdb ops).1 = .value () ∧
        ∃ cur, some ⟨t, cur⟩ ∈ (run lmdb ops).2.iters := by
  have hinv := inv_run lmdb ops
  rcases hinv.proper.countP_releases ht with ⟨hopen, hzero⟩ | ⟨_, hone⟩
  · obtain ⟨hvalue, hlocals⟩ := ended_of_open h hopen
    refine Or.inr ⟨hzero, hvalue, ?_⟩
    rcases (hinv.open_iff t).mp hopen with howner | ⟨impl, himpl, rfl⟩
    · rw [hlocals] at howner
      exact absurd howner List.not_mem_nil
    · exact ⟨impl.cur, himpl⟩
  · exact Or.inl hone

/-- A cursor was closed once, or an iterator owns it. -/
theorem cursor_finished (h : ¬ Stranded lmdb ops) (hc : .attach c t ∈ (run lmdb ops).2.log) :
    (run lmdb ops).2.log.countP (Entry.detaches c) = 1 ∨
      (run lmdb ops).2.log.countP (Entry.detaches c) = 0 ∧ (run lmdb ops).1 = .value () ∧
        some ⟨t, c⟩ ∈ (run lmdb ops).2.iters := by
  have hinv := inv_run lmdb ops
  rcases hinv.proper.countP_detaches hc with ⟨hattached, hzero⟩ | ⟨_, hone⟩
  · have howner := (hinv.attached_iff c t).mp hattached
    have hopen : Open (run lmdb ops).2.log t := (hinv.open_iff t).mpr (hinv.ownsTxn howner)
    obtain ⟨hvalue, hlocals⟩ := ended_of_open h hopen
    refine Or.inr ⟨hzero, hvalue, howner.resolve_left ?_⟩
    rw [hlocals]
    exact List.not_mem_nil
  · exact Or.inl hone

/-- A stranded transaction was passed to neither. -/
theorem not_finished_of_stranded (h : Stranded lmdb ops) : ¬ Finished lmdb ops := by
  obtain ⟨impl, v, w, t, hrun, hrefused, hne, hopen⟩ := h
  intro hfinished
  have hopen' := hrefused.open_iff.mpr ⟨hopen, hne⟩
  have htxns := hfinished.txns t
  rw [hrun] at htxns
  rcases htxns hopen'.1 with hone | ⟨_, hvalue, _⟩
  · rw [countP_releases_eq_zero hopen'.2] at hone
    exact absurd hone Nat.zero_ne_one
  · exact absurd hvalue nofun

end Run

/-- Transactions and cursors are finished exactly once, and in order, exactly if the program is not
terminated by a refused commit while another transaction is open. -/
theorem finished_iff (lmdb : Lmdb) (ops : List Op) :
    Finished lmdb ops ↔ ¬ Stranded lmdb ops := by
  refine ⟨fun hfinished hstranded => not_finished_of_stranded hstranded hfinished, fun hsafe => ?_⟩
  constructor
  case txns => exact fun t ht => txn_finished hsafe ht
  case cursors => exact fun c t hc => cursor_finished hsafe hc
  case before =>
    intro c t how later earlier hlog hc
    have hproper := (inv_run lmdb ops).proper
    rw [hlog] at hproper hc
    exact hproper.detach_mem hc
  case calls =>
    intro done op left w w' _ hop hrun
    have h := Op.wp_call hop (inv_of_run hrun)
    rw [wp] at h
    refine ⟨fun hvalue => ?_, fun e hthrown => ?_⟩
    · rw [hvalue] at h
      exact h.2
    · rw [hthrown] at h
      exact h.2
  case constructors =>
    intro done op left w w' e _ hop hrun hthrown
    have h := Op.wp_constructor hop (inv_of_run hrun)
    rw [wp, hthrown] at h
    exact h.2

/-- Two iterators, and the commit of one of them fails when it is destroyed: the transaction of the
other one is neither committed nor aborted. -/
theorem stranded_by_refused_commit :
    ¬ Finished ⟨fun n => if n = 6 then 5 else 0, fun _ => "Input/output error"⟩
      [.iterator MDB_FIRST, .iterator MDB_FIRST, .destroyIterator 1] := by
  intro h
  rcases h.txns 0 (by decide +kernel) with hone | ⟨_, hvalue, _⟩
  · exact absurd hone (by decide +kernel)
  · exact absurd hvalue (by decide +kernel)

end Glim.MdbTransactions
