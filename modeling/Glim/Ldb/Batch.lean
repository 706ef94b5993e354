import Glim.Ldb.Basic
import Mathlib.Data.List.Induction

/-!
# Triggers and batches

`put` and `del` let the triggers fill a batch, in the order of their names, and add their own
operation at last. The batch is written as a whole or not at all.

## Main definitions

* `registered`: a database with triggers
* `sameName`: the trigger that is found under a name

## Main results

* `sorted_registered`: the triggers are ordered by their names
* `find_registered`: under a name is the trigger that was registered last
* `putBatch_of_return`, `delBatch_of_return`: the batch that `put` and `del` write
* `writes_atomic`: all operations take effect, or none
-/

namespace Glim

open Machine Exec Text Table

/-- A database with the triggers that were registered, one after another. -/
def registered (db : Database) (regs : List (List UInt8 × Trigger)) : Ldb :=
  regs.foldl (fun ldb reg => ldb.putTrigger reg.1 reg.2) ⟨db, []⟩

/-- `_triggers.find (name)` finds the trigger. -/
def sameName (name : List UInt8) (t : List UInt8 × Trigger) : Bool :=
  !gstringLess t.1 name && !gstringLess name t.1

section Order

variable {ldb : Ldb} {a b c name : List UInt8} {trigger : Trigger}

theorem gstringLess_trans (hab : gstringLess a b = true) (hbc : gstringLess b c = true) :
    gstringLess a c = true := by
  rw [gstringLess_iff] at hab hbc ⊢
  exact hab.trans hbc

/-- Names that do not come before or behind each other are in the same place. -/
theorem sameName_iff {t : List UInt8 × Trigger} :
    sameName name t = true ↔ lessKey t.1 = lessKey name := by
  simp only [sameName, Bool.and_eq_true, Bool.not_eq_true', ← Bool.not_eq_true, gstringLess_iff]
  exact ⟨fun h => le_antisymm (not_lt.mp h.2) (not_lt.mp h.1), fun h => ⟨h.not_lt, h.not_gt⟩⟩

/-- A trigger that is replaced keeps its place. -/
theorem lessKey_kept (ldb : Ldb) (name : List UInt8) :
    lessKey (((ldb.triggers.find? (sameName name)).map Prod.fst).getD name) = lessKey name := by
  cases hsame : ldb.triggers.find? (sameName name) with
  | none => rfl
  | some t => exact sameName_iff.mp (List.find?_some hsame)

/-- Registering a trigger keeps the order. -/
theorem sorted_putTrigger (h : ldb.triggers.Pairwise fun s t => gstringLess s.1 t.1 = true) :
    (ldb.putTrigger name trigger).triggers.Pairwise fun s t => gstringLess s.1 t.1 = true := by
  have hkey := lessKey_kept ldb name
  refine List.pairwise_append.mpr ⟨h.filter _, List.pairwise_cons.mpr ⟨?_, h.filter _⟩, ?_⟩
  · intro t ht
    have hlt := (List.mem_filter.mp ht).2
    rw [gstringLess_iff] at hlt ⊢
    exact hkey.trans_lt hlt
  · intro s hs t ht
    have hlt := (List.mem_filter.mp hs).2
    rcases List.mem_cons.mp ht with rfl | ht
    · rw [gstringLess_iff] at hlt ⊢
      exact hlt.trans_eq hkey.symm
    · exact gstringLess_trans hlt (List.mem_filter.mp ht).2

/-- Registering a trigger replaces the one under its name, and no other. -/
theorem find_putTrigger (ldb : Ldb) (name : List UInt8) (trigger : Trigger) (a : List UInt8) :
    ((ldb.putTrigger name trigger).triggers.find? (sameName a)).map Prod.snd =
      if lessKey name = lessKey a then some trigger
      else (ldb.triggers.find? (sameName a)).map Prod.snd := by
  have hnot {q : List UInt8 × Trigger → Bool} (h : ∀ t, q t = true → lessKey t.1 ≠ lessKey a) :
      (ldb.triggers.filter q).find? (sameName a) = none :=
    List.find?_eq_none.mpr fun t ht hsame => h t (List.mem_filter.mp ht).2 (sameName_iff.mp hsame)
  have hall {q : List UInt8 × Trigger → Bool} (h : ∀ t, sameName a t = true → q t = true) :
      (ldb.triggers.filter q).find? (sameName a) = ldb.triggers.find? (sameName a) := by
    rw [List.find?_filter]
    congr 1
    funext t
    cases hsame : sameName a t with
    | false => simp
    | true => simp [h t hsame]
  have hnew : sameName a (((ldb.triggers.find? (sameName name)).map Prod.fst).getD name,
      trigger) = true ↔ lessKey name = lessKey a := by
    rw [sameName_iff, lessKey_kept]
  have hputs : (ldb.putTrigger name trigger).triggers =
      ldb.triggers.filter (fun t => gstringLess t.1 name) ++
        (((ldb.triggers.find? (sameName name)).map Prod.fst).getD name, trigger) ::
          ldb.triggers.filter fun t => gstringLess name t.1 := rfl
  rw [hputs, List.find?_append]
  rcases lt_trichotomy (lessKey a) (lessKey name) with hlt | heq | hgt
  · -- what was found is in front of the new trigger
    rw [if_neg hlt.ne', hall, List.find?_cons_of_neg (mt hnew.mp hlt.ne'), hnot, Option.or_none]
    · exact fun t ht => ((gstringLess_iff.mp ht).trans' hlt).ne'
    · exact fun t ht => gstringLess_iff.mpr ((sameName_iff.mp ht).trans_lt hlt)
  · rw [if_pos heq.symm, hnot, List.find?_cons_of_pos (hnew.mpr heq.symm)]
    · rfl
    · exact fun t ht => ((gstringLess_iff.mp ht).trans_eq heq.symm).ne
  · -- what was found is behind the new trigger
    rw [if_neg hgt.ne, hnot, List.find?_cons_of_neg (mt hnew.mp hgt.ne), hall]
    · rfl
    · exact fun t ht => gstringLess_iff.mpr (hgt.trans_eq (sameName_iff.mp ht).symm)
    · exact fun t ht => ((gstringLess_iff.mp ht).trans hgt).ne

theorem registered_append_singleton (db : Database) (regs : List (List UInt8 × Trigger))
    (reg : List UInt8 × Trigger) :
    registered db (regs ++ [reg]) = (registered db regs).putTrigger reg.1 reg.2 := by
  rw [registered, registered, List.foldl_append]
  rfl

theorem db_registered (db : Database) (regs : List (List UInt8 × Trigger)) :
    (registered db regs).db = db := by
  induction regs using List.reverseRecOn with
  | nil => rfl
  | append_singleton regs reg ih =>
    rw [registered_append_singleton]
    exact ih

/-- The triggers are ordered by their names. -/
theorem sorted_registered (db : Database) (regs : List (List UInt8 × Trigger)) :
    (registered db regs).triggers.Pairwise fun s t => gstringLess s.1 t.1 = true := by
  -- the last registration is the last call of `putTrigger`
  induction regs using List.reverseRecOn with
  | nil => exact List.Pairwise.nil
  | append_singleton regs reg ih =>
    rw [registered_append_singleton]
    exact sorted_putTrigger ih

/-- Under a name is the trigger that was registered last under it. -/
theorem find_registered (db : Database) (regs : List (List UInt8 × Trigger)) (a : List UInt8) :
    ((registered db regs).triggers.find? (sameName a)).map Prod.snd =
      (regs.reverse.find? (sameName a)).map Prod.snd := by
  induction regs using List.reverseRecOn with
  | nil => rfl
  | append_singleton regs reg ih =>
    rw [registered_append_singleton, find_putTrigger, ih, List.reverse_append,
      List.reverse_singleton, List.singleton_append]
    by_cases hsame : lessKey reg.1 = lessKey a
    · rw [if_pos hsame, List.find?_cons_of_pos (sameName_iff.mpr hsame)]
      rfl
    · rw [if_neg hsame, List.find?_cons_of_neg (mt sameName_iff.mp hsame)]

end Order

/-! ## Filling a batch -/

section Fill

variable {α : Type} {ts : List α} {f : α → TriggerResult} {batch : List BatchOp} {ldb : Ldb}
  {key value : Datum} {status : Status}

theorem run_of_return {result : TriggerResult} (h : result.2 = none) :
    Trigger.run result batch = .ok () (batch ++ result.1) := by
  rw [Trigger.run, h]
  rfl

theorem run_of_throw {result : TriggerResult} {message : String} (h : result.2 = some message) :
    Trigger.run result batch = .throw message (batch ++ result.1) := by
  rw [Trigger.run, h]
  rfl

/-- Triggers that return append their operations. -/
theorem runAll_of_return (h : ∀ t ∈ ts, (f t).2 = none) :
    Trigger.runAll f ts batch = .ok () (batch ++ ts.flatMap fun t => (f t).1) := by
  induction ts generalizing batch with
  | nil => exact congrArg (Outcome.ok ()) (List.append_nil batch).symm
  | cons t ts ih =>
    rw [Trigger.runAll]
    simp only [bind, run_of_return (h t List.mem_cons_self)]
    rw [ih fun t' ht' => h t' (List.mem_cons_of_mem t ht'), List.flatMap_cons, List.append_assoc]

/-- A trigger that throws ends the loop. -/
theorem runAll_of_throw (batch : List BatchOp) (h : ∃ t ∈ ts, (f t).2 ≠ none) :
    ∃ message batch', Trigger.runAll f ts batch = .throw message batch' := by
  induction ts generalizing batch with
  | nil =>
    obtain ⟨t, ht, -⟩ := h
    cases ht
  | cons t ts ih =>
    rw [Trigger.runAll]
    -- the first trigger throws, or one of the others does
    cases hresult : (f t).2 with
    | some message =>
      refine ⟨message, batch ++ (f t).1, ?_⟩
      simp only [bind, run_of_throw hresult]
    | none =>
      simp only [bind, run_of_return hresult]
      refine ih _ ?_
      obtain ⟨t', ht', hne⟩ := h
      rcases List.mem_cons.mp ht' with rfl | ht'
      · exact absurd hresult hne
      · exact ⟨t', ht', hne⟩

/-- `put` fills the batch with the operations of the triggers and its own. -/
theorem putBatch_of_return (ldb : Ldb) (batch : List BatchOp) (h : ∀ t ∈ ldb.triggers,
      (t.2.put ldb.db key (ldbSerialize [] key) value (ldbSerialize [] value)).2 = none) :
    ldb.putBatch key value batch = .ok () (batch ++ (ldb.triggers.flatMap fun t =>
      (t.2.put ldb.db key (ldbSerialize [] key) value (ldbSerialize [] value)).1) ++
        [.put (ldbSerialize [] key) (ldbSerialize [] value)]) := by
  simp only [Ldb.putBatch, bind, runAll_of_return h]
  rfl

theorem putBatch_of_throw (h : ∃ t ∈ ldb.triggers,
      (t.2.put ldb.db key (ldbSerialize [] key) value (ldbSerialize [] value)).2 ≠ none) :
    ∃ message batch', ldb.putBatch key value batch = .throw message batch' := by
  obtain ⟨message, batch', hx⟩ := runAll_of_throw batch h
  refine ⟨message, batch', ?_⟩
  simp only [Ldb.putBatch, bind, hx]

/-- `del` fills the batch with the operations of the triggers and its own. -/
theorem delBatch_of_return (ldb : Ldb) (batch : List BatchOp) (hkey : ldbSerialize [] key ≠ [])
    (h : ∀ t ∈ ldb.triggers, (t.2.del ldb.db key (ldbSerialize [] key)).2 = none) :
    ldb.delBatch key batch = .ok () (batch ++ (ldb.triggers.flatMap fun t =>
      (t.2.del ldb.db key (ldbSerialize [] key)).1) ++ [.delete (ldbSerialize [] key)]) := by
  simp only [Ldb.delBatch, when_of_not hkey, bind, pure, runAll_of_return h]
  rfl

theorem delBatch_of_throw (hkey : ldbSerialize [] key ≠ [])
    (h : ∃ t ∈ ldb.triggers, (t.2.del ldb.db key (ldbSerialize [] key)).2 ≠ none) :
    ∃ message batch', ldb.delBatch key batch = .throw message batch' := by
  obtain ⟨message, batch', hx⟩ := runAll_of_throw batch h
  refine ⟨message, batch', ?_⟩
  simp only [Ldb.delBatch, when_of_not hkey, bind, pure, hx]

/-- A filled batch is written as a whole. -/
theorem withBatch_of_ok {fill : Ldb → Exec (List BatchOp) Unit} {text : String}
    (h : fill ldb [] = .ok () batch) : Ldb.withBatch fill text .ok ldb =
      .ok () { ldb with db := batch.foldl BatchOp.apply ldb.db } := by
  rw [Ldb.withBatch, h]

/-- A batch that is not filled, or not written, changes nothing. -/
theorem withBatch_of_throw {fill : Ldb → Exec (List BatchOp) Unit} (text : String)
    (status : Status) (hfill : (∃ message batch', fill ldb [] = .throw message batch') ∨
      (∃ batch, fill ldb [] = .ok () batch) ∧ status ≠ .ok) :
    ∃ message, Ldb.withBatch fill text status ldb = .throw message ldb := by
  rcases hfill with ⟨message, batch', hx⟩ | ⟨⟨batch', hx⟩, hstatus⟩
  · exact ⟨message, by rw [Ldb.withBatch, hx]⟩
  · cases status with
    | ok => exact absurd rfl hstatus
    | error message => exact ⟨text ++ message, by rw [Ldb.withBatch, hx]⟩

end Fill

/-- The operations of the triggers that were registered last under their names take effect in the
order of these names, followed by the main one; or, if a trigger throws or the write fails, nothing
does. -/
theorem writes_atomic (db : Database) (regs : List (List UInt8 × Trigger)) (key value : Datum)
    (status : Status) :
    let ldb := registered db regs
    let kbytes := ldbSerialize [] key
    let vbytes := ldbSerialize [] value
    (ldb.triggers.Pairwise fun s t => gstringLess s.1 t.1 = true) ∧
    (∀ a, (ldb.triggers.find? (sameName a)).map Prod.snd =
      (regs.reverse.find? (sameName a)).map Prod.snd) ∧
    ((∀ t ∈ ldb.triggers, (t.2.put db key kbytes value vbytes).2 = none) → status = .ok →
      Ldb.put key value status ldb = .ok () { ldb with
        db := List.foldl BatchOp.apply db ((ldb.triggers.flatMap fun t =>
          (t.2.put db key kbytes value vbytes).1) ++ [.put kbytes vbytes]) }) ∧
    ((∃ t ∈ ldb.triggers, (t.2.put db key kbytes value vbytes).2 ≠ none) ∨ status ≠ .ok →
      ∃ message, Ldb.put key value status ldb = .throw message ldb) ∧
    (kbytes ≠ [] →
      ((∀ t ∈ ldb.triggers, (t.2.del db key kbytes).2 = none) → status = .ok →
        Ldb.del key status ldb = .ok () { ldb with
          db := List.foldl BatchOp.apply db ((ldb.triggers.flatMap fun t =>
            (t.2.del db key kbytes).1) ++ [.delete kbytes]) }) ∧
      ((∃ t ∈ ldb.triggers, (t.2.del db key kbytes).2 ≠ none) ∨ status ≠ .ok →
        ∃ message, Ldb.del key status ldb = .throw message ldb)) := by
  intro ldb kbytes vbytes
  have hdb : ldb.db = db := db_registered db regs
  refine ⟨sorted_registered db regs, find_registered db regs, ?_, ?_, fun hkey => ⟨?_, ?_⟩⟩
  · rintro hreturn rfl
    have hfill := putBatch_of_return ldb [] (by rwa [hdb])
    rw [Ldb.put, withBatch_of_ok hfill, hdb, List.nil_append]
  · intro hfail
    -- the batch is not filled, or it is, and the write fails
    by_cases hthrow : ∃ t ∈ ldb.triggers, (t.2.put db key kbytes value vbytes).2 ≠ none
    · exact withBatch_of_throw _ _ (Or.inl (putBatch_of_throw (by rwa [hdb])))
    · refine withBatch_of_throw _ _
        (Or.inr ⟨⟨_, putBatch_of_return ldb [] ?_⟩, hfail.resolve_left hthrow⟩)
      rw [hdb]
      intro t ht
      by_contra hne
      exact hthrow ⟨t, ht, hne⟩
  · rintro hreturn rfl
    have hfill := delBatch_of_return ldb [] hkey (by rwa [hdb])
    rw [Ldb.del, withBatch_of_ok hfill, hdb, List.nil_append]
  · intro hfail
    by_cases hthrow : ∃ t ∈ ldb.triggers, (t.2.del db key kbytes).2 ≠ none
    · exact withBatch_of_throw _ _ (Or.inl (delBatch_of_throw hkey (by rwa [hdb])))
    · refine withBatch_of_throw _ _
        (Or.inr ⟨⟨_, delBatch_of_return ldb [] hkey ?_⟩, hfail.resolve_left hthrow⟩)
      rw [hdb]
      intro t ht
      by_contra hne
      exact hthrow ⟨t, ht, hne⟩

end Glim
