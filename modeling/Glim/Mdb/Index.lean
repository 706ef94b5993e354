import Glim.Mdb.Basic
import Mathlib.Data.Finset.Image

/-!
# The index of a database

A trigger changes its index before the database is changed, in the same transaction. The index
holds the pairs of the database with key and value swapped: every operation that is committed keeps
this, and one that fails at any of its calls of LMDB is aborted.

## Main definitions

* `Indexed`: a database, and the databases of its indexes
* `Indexed.Consistent`: every index holds the swapped pairs
* `Regime`: which calls may fail, and which sizes may be refused
* `Leaves`: what a program does to the databases unless it is aborted

## Main results

* `leaves_erase`: the trigger removes all pairs of a key from the index
* `leaves_runTriggers`: every trigger changes its own index
* `index_consistent`: the indexes are consistent after any sequence of operations
-/

namespace Glim

open Machine Exec Text Table

/-- A database, and its indexes in databases of their own. -/
structure Indexed where
  main : Dbi
  indexes : List Dbi
  nodup : (main :: indexes).Nodup

/-- The database with the triggers of its indexes. -/
def Indexed.mdb (x : Indexed) : Mdb := ⟨x.main, x.indexes.map simpleIndexTrigger⟩

/-- Every index holds the pairs of the database, with key and value swapped. -/
def Indexed.Consistent (x : Indexed) (dbs : Dbi → Pairs) : Prop :=
  ∀ i ∈ x.indexes, dbs i = (dbs x.main).image Prod.swap

/-- What is known of the calls to come: the limit for keys, and whether one may fail or refuse what
it is given. -/
structure Regime where
  maxKeySize : ℕ
  mayFail : Prop
  mayRefuse : Prop

namespace Regime

/-- Any call may fail or refuse what it is given. -/
def any (maxKeySize : ℕ) : Regime := ⟨maxKeySize, True, True⟩

/-- The environment is as the regime says. -/
structure Rules (g : Regime) (env : Env) : Prop where
  maxKeySize : env.maxKeySize = g.maxKeySize
  failures : g.mayFail ∨ ∀ f ∈ env.failures, f = none

def MayThrow (g : Regime) : Prop := g.mayFail ∨ g.mayRefuse

/-- `P` holds under the condition, without which there is a reason to throw. -/
structure When (g : Regime) (c P : Prop) : Prop where
  of : c → P
  mayThrow : ¬ c → g.MayThrow

theorem When.mono {g : Regime} {c P P' : Prop} (h : g.When c P) (hP : P → P') : g.When c P' :=
  ⟨fun hc => hP (h.of hc), h.mayThrow⟩

theorem When.or_left {g : Regime} {b c P : Prop} (h : g.When c P) (hb : ¬ b) :
    g.When (b ∨ c) P :=
  ⟨fun hc => h.of (hc.resolve_left hb), fun hc => h.mayThrow fun h => hc (Or.inr h)⟩

/-- The bytes may be a key. -/
def Fits (g : Regime) (bytes : List UInt8) : Prop := bytes ≠ [] ∧ bytes.length ≤ g.maxKeySize

end Regime

/-- From the databases `dbs` the program returns within `Q`, or it is aborted by an exception, for
which there is a reason. -/
def Leaves {α : Type} (g : Regime) (x : Exec Env α) (dbs : Dbi → Pairs)
    (Q : α → (Dbi → Pairs) → Prop) : Prop :=
  ∀ env : Env, env.databases = dbs → g.Rules env →
    wp x (fun a env' => Q a env'.databases ∧ g.Rules env') (fun _ env' => g.MayThrow ∧ g.Rules env')
      (fun _ => False) env

/-! ## Calls -/

section Calls

variable {α β : Type} {g : Regime} {x : Exec Env α} {dbs : Dbi → Pairs} {dbi i : Dbi}
  {key value kbytes vbytes : List UInt8} {message : String}

theorem Leaves.bind {f : α → Exec Env β} {Q : α → (Dbi → Pairs) → Prop}
    {R : β → (Dbi → Pairs) → Prop} (hx : Leaves g x dbs Q)
    (hf : ∀ a dbs', Q a dbs' → Leaves g (f a) dbs' R) : Leaves g (x >>= f) dbs R := by
  intro env henv hg
  rw [wp_bind]
  exact wp_mono (hx env henv hg) (fun a env' hQ => hf a _ hQ.1 env' rfl hQ.2) (fun _ _ h => h)
    fun _ h => h

theorem Leaves.mono {Q R : α → (Dbi → Pairs) → Prop} (hx : Leaves g x dbs Q)
    (h : ∀ a dbs', Q a dbs' → R a dbs') : Leaves g x dbs R := by
  intro env henv hg
  exact wp_mono (hx env henv hg) (fun a env' hQ => ⟨h a _ hQ.1, hQ.2⟩) (fun _ _ h => h) fun _ h => h

theorem leaves_pure {Q : α → (Dbi → Pairs) → Prop} {a : α} (h : Q a dbs) :
    Leaves g (pure a : Exec Env α) dbs Q := by
  rintro env rfl hg
  exact ⟨h, hg⟩

/-- A program that reads the environment. -/
theorem Leaves.get {f : Env → Exec Env α} {Q : α → (Dbi → Pairs) → Prop}
    (h : ∀ env : Env, env.databases = dbs → g.Rules env → Leaves g (f env) dbs Q) :
    Leaves g (Exec.get >>= f) dbs Q :=
  fun env henv hg => h env henv hg env henv hg

/-- A call fails, or it has its effect. -/
theorem leaves_mdbCall {failed : String → α} {effect : (Dbi → Pairs) → α × (Dbi → Pairs)}
    {Q : α → (Dbi → Pairs) → Prop} (hfail : g.mayFail → ∀ text left, Q (failed text) left)
    (hok : Q (effect dbs).1 (effect dbs).2) : Leaves g (mdbCall failed effect) dbs Q := by
  rintro env rfl hg
  have hrest : g.mayFail ∨ ∀ f ∈ env.failures.tail, f = none :=
    hg.failures.imp_right fun h f hf => h f (List.mem_of_mem_tail hf)
  unfold wp mdbCall
  cases hhead : env.failures.head?.join with
  | some f =>
    have hmem := List.mem_of_head? (Option.join_eq_some_iff.mp hhead)
    have hmay : g.mayFail := hg.failures.resolve_right fun h => by cases h _ hmem
    exact ⟨hfail hmay f.text f.left, hg.maxKeySize, hrest⟩
  | none => exact ⟨hok, hg.maxKeySize, hrest⟩

/-- A program that throws unless a condition holds. -/
theorem leaves_when {c : Prop} [Decidable c] {Q : Unit → (Dbi → Pairs) → Prop}
    (h : g.When (¬ c) (Q () dbs)) : Leaves g (when c (raise message)) dbs Q := by
  rintro env rfl hg
  rw [wp_when]
  exact ⟨fun hc => ⟨h.mayThrow (not_not_intro hc), hg⟩, fun hc => ⟨h.of hc, hg⟩⟩

/-- A program that throws where the call before it did not succeed. -/
theorem leaves_when_raise {rc : Rc} {Q : Unit → (Dbi → Pairs) → Prop}
    (h : g.When (rc = .success) (Q () dbs)) :
    Leaves g (when (rc ≠ .success) (raise (message ++ rc.text))) dbs Q :=
  leaves_when ⟨fun hrc => h.of (not_not.mp hrc), fun hrc => h.mayThrow (not_not.mp hrc)⟩

theorem leaves_raiseUnlessNotFound {rc : Rc} {Q : Unit → (Dbi → Pairs) → Prop}
    (h : g.When (rc = .success ∨ rc = .notFound) (Q () dbs)) :
    Leaves g (raiseUnlessNotFound message rc) dbs Q := by
  have hiff : ¬ (rc ≠ .success ∧ rc ≠ .notFound) ↔ rc = .success ∨ rc = .notFound := by
    rw [← not_or, not_not]
  exact leaves_when ⟨fun hrc => h.of (hiff.mp hrc),
    fun hrc => h.mayThrow fun hc => hrc (hiff.mpr hc)⟩

theorem leaves_mdbOpen :
    Leaves g mdbOpen dbs fun rc dbs' => g.When (rc = .success) (dbs' = dbs) :=
  leaves_mdbCall (fun hmay _ _ => ⟨nofun, fun _ => Or.inl hmay⟩)
    ⟨fun _ => rfl, fun h => absurd rfl h⟩

/-- A put that succeeds adds the pair. -/
theorem leaves_mdbPut (hfits : g.MayThrow ∨ g.Fits key ∧ value.length ≤ g.maxKeySize) :
    Leaves g (mdbPut dbi key value) dbs fun rc dbs' => g.When (rc = .success)
      (dbs' = Function.update dbs dbi (insert (key, value) (dbs dbi))) := by
  refine Leaves.get fun env _ hg => leaves_mdbCall (fun hmay _ _ => ⟨nofun, fun _ => .inl hmay⟩) ?_
  rw [hg.maxKeySize]
  split_ifs with hsize
  · refine ⟨nofun, fun _ => hfits.resolve_right ?_⟩
    rintro ⟨⟨hne, hkey⟩, hvalue⟩
    rcases hsize with h | h | h
    · exact hne h
    · exact absurd hkey (Nat.not_le_of_lt h)
    · exact absurd hvalue (Nat.not_le_of_lt h)
  · exact ⟨fun _ => rfl, fun h => absurd rfl h⟩

/-- The pairs that `mdb_del` leaves. -/
def remaining (key : List UInt8) (value : Option (List UInt8)) (db : Pairs) : Pairs :=
  db.filter fun e => ¬ (e.1 = key ∧ ∀ v ∈ value, e.2 = v)

/-- A deletion that succeeds, or finds nothing, leaves the other pairs, and tells whether it has
found something. -/
theorem leaves_mdbDel {value : Option (List UInt8)} (hkey : g.MayThrow ∨ key ≠ []) :
    Leaves g (mdbDel dbi key value) dbs fun rc dbs' => g.When (rc = .success ∨ rc = .notFound)
      (dbs' = Function.update dbs dbi (remaining key value (dbs dbi)) ∧
        (rc = .success ↔ ∃ e ∈ dbs dbi, e.1 = key ∧ ∀ b ∈ value, e.2 = b)) := by
  refine leaves_mdbCall (fun hmay _ _ => ⟨nofun, fun _ => Or.inl hmay⟩) ?_
  unfold remaining
  simp only
  rw [Finset.filter_not]
  split_ifs with hempty hnone
  · exact ⟨nofun, fun _ => hkey.resolve_right (not_not_intro hempty)⟩
  · refine ⟨fun _ => ⟨?_, iff_of_false nofun ?_⟩, fun h => absurd (Or.inr rfl) h⟩
    · rw [hnone, Finset.sdiff_empty, Function.update_eq_self]
    · rintro ⟨e, he, hcond⟩
      exact Finset.eq_empty_iff_forall_notMem.mp hnone e (Finset.mem_filter.mpr ⟨he, hcond⟩)
  · refine ⟨fun _ => ⟨rfl, iff_of_true rfl ?_⟩, fun h => absurd (Or.inl rfl) h⟩
    obtain ⟨e, he⟩ := Finset.nonempty_of_ne_empty hnone
    obtain ⟨he, hcond⟩ := Finset.mem_filter.mp he
    exact ⟨e, he, hcond⟩

/-- The cursor goes to the next value, and changes nothing. -/
theorem leaves_mdbCursorGet {current : Option (List UInt8)} :
    Leaves g (mdbCursorGet dbi key current) dbs fun r dbs' =>
      (∀ v, r = .ok v → Tour.next (valuesOf (dbs dbi) key) current = some v ∧ dbs' = dbs) ∧
      ∀ rc, r = .error rc → g.When (rc = .notFound)
        (Tour.next (valuesOf (dbs dbi) key) current = none ∧ dbs' = dbs) ∧ rc ≠ .success := by
  refine leaves_mdbCall (fun hmay text left => ⟨nofun, ?_⟩) ?_
  · rintro rc ⟨⟩
    exact ⟨⟨nofun, fun _ => Or.inl hmay⟩, nofun⟩
  · cases hnext : Tour.next (valuesOf (dbs dbi) key) current with
    | some v =>
      refine ⟨?_, nofun⟩
      rintro w ⟨⟩
      exact ⟨rfl, rfl⟩
    | none =>
      refine ⟨nofun, ?_⟩
      rintro rc ⟨⟩
      exact ⟨⟨fun _ => ⟨rfl, rfl⟩, fun h => absurd rfl h⟩, nofun⟩

end Calls

/-! ## The trigger -/

section Trigger

variable {g : Regime} {dbs : Dbi → Pairs} {dbi i : Dbi} {k v : List UInt8} {db : Pairs}

theorem mem_valuesOf : v ∈ valuesOf db k ↔ (k, v) ∈ db := by
  unfold valuesOf
  rw [Finset.mem_sort, Finset.mem_image]
  constructor
  · rintro ⟨⟨k', v'⟩, he, rfl⟩
    obtain ⟨hin, rfl⟩ := Finset.mem_filter.mp he
    exact hin
  · intro h
    exact ⟨(k, v), Finset.mem_filter.mpr ⟨h, rfl⟩, rfl⟩

theorem nodup_valuesOf (db : Pairs) (k : List UInt8) : (valuesOf db k).Nodup :=
  Finset.sort_nodup _ _

theorem length_valuesOf_le (db : Pairs) (k : List UInt8) : (valuesOf db k).length ≤ db.card := by
  unfold valuesOf
  rw [Finset.length_sort]
  exact Finset.card_image_le.trans (Finset.card_filter_le _ _)

theorem leaves_add (dbi : Dbi) (hfits : g.MayThrow ∨ g.Fits v ∧ k.length ≤ g.maxKeySize) :
    Leaves g (SimpleIndexTrigger.add i dbi k v) dbs fun _ dbs' =>
      dbs' = Function.update dbs i (insert (v, k) (dbs i)) := by
  unfold SimpleIndexTrigger.add
  exact (leaves_mdbPut hfits).bind fun rc dbs' h => leaves_when_raise h

theorem leaves_eraseKV (dbi : Dbi) (hv : g.MayThrow ∨ v ≠ []) :
    Leaves g (SimpleIndexTrigger.eraseKV i dbi k v) dbs fun _ dbs' =>
      dbs' = Function.update dbs i (remaining v (some k) (dbs i)) := by
  unfold SimpleIndexTrigger.eraseKV
  exact (leaves_mdbDel hv).bind fun rc dbs' h => leaves_raiseUnlessNotFound (h.mono And.left)

/-- The pairs of an index without those of a key with some values. -/
def without (k : List UInt8) (vs : List (List UInt8)) (index : Pairs) : Pairs :=
  index.filter fun e => ¬ (e.2 = k ∧ e.1 ∈ vs)

theorem without_cons {vs : List (List UInt8)} :
    without k vs (remaining v (some k) db) = without k (v :: vs) db := by
  unfold without remaining
  rw [Finset.filter_filter]
  refine Finset.filter_congr fun e _ => ?_
  simp only [Option.mem_some_iff, forall_eq', List.mem_cons]
  tauto

theorem without_nil : without k [] db = db := by
  unfold without
  rw [Finset.filter_true_of_mem]
  rintro e - ⟨-, hin⟩
  cases hin

theorem not_mem_front {A B : List (List UInt8)} (hvalues : valuesOf db k = A ++ v :: B) :
    v ∉ A := by
  have hnodup := nodup_valuesOf db k
  rw [hvalues, List.nodup_append] at hnodup
  intro hv
  exact hnodup.2.2 v hv v List.mem_cons_self rfl

/-- The loop of the trigger removes the values from the cursor on from the index. The cursor reads
the other database, which the loop does not change. -/
theorem leaves_eraseFrom (hi : i ≠ dbi) {A B : List (List UInt8)} {fuel : ℕ}
    (hvalues : valuesOf (dbs dbi) k = A ++ v :: B) (hne : g.MayThrow ∨ ∀ w ∈ v :: B, w ≠ [])
    (hfuel : B.length < fuel) :
    Leaves g (SimpleIndexTrigger.eraseFrom i dbi k fuel v) dbs fun _ dbs' =>
      dbs' = Function.update dbs i (without k (v :: B) (dbs i)) := by
  induction fuel generalizing A B v dbs with
  | zero => exact absurd hfuel (Nat.not_lt_zero _)
  | succ fuel ih =>
    unfold SimpleIndexTrigger.eraseFrom
    have hv : g.MayThrow ∨ v ≠ [] := hne.imp_right fun h => h v List.mem_cons_self
    refine (leaves_mdbDel hv).bind fun rc dbs₁ hdel => ?_
    refine (leaves_raiseUnlessNotFound (Q := fun _ dbs' => dbs' = _) (hdel.mono And.left)).bind ?_
    rintro _ dbs₂ rfl
    refine leaves_mdbCursorGet.bind fun r dbs₃ ⟨hok, herror⟩ => ?_
    rw [Function.update_of_ne hi.symm, hvalues, Tour.next_append (not_mem_front hvalues)]
      at hok herror
    cases r with
    | ok w =>
      -- behind `v` comes `w`, and the loop goes on from there
      obtain ⟨hnext, rfl⟩ := hok w rfl
      obtain ⟨B, rfl⟩ := List.head?_eq_some_iff.mp hnext
      have hvalues' : valuesOf (Function.update dbs i (remaining v (some k) (dbs i)) dbi) k =
          (A ++ [v]) ++ w :: B := by
        rw [Function.update_of_ne hi.symm, hvalues, List.append_assoc]
        rfl
      have hrest := ih hvalues' (hne.imp_right fun h => (List.forall_mem_cons.mp h).2)
        (Nat.lt_of_succ_lt_succ hfuel)
      rw [Function.update_self, Function.update_idem, without_cons] at hrest
      exact hrest
    | error rc =>
      -- there is no value behind `v`
      obtain ⟨hwhen, hrc⟩ := herror rc rfl
      refine leaves_raiseUnlessNotFound ((hwhen.or_left hrc).mono ?_)
      rintro ⟨hnext, rfl⟩
      obtain rfl := List.head?_eq_none_iff.mp hnext
      rw [← without_cons, without_nil]

/-- **The trigger** removes the pairs of all values of a key from the index. -/
theorem leaves_erase (hi : i ≠ dbi) (hne : g.MayThrow ∨ ∀ w ∈ valuesOf (dbs dbi) k, w ≠ []) :
    Leaves g (SimpleIndexTrigger.erase i dbi k) dbs fun _ dbs' =>
      dbs' = Function.update dbs i (without k (valuesOf (dbs dbi) k) (dbs i)) := by
  unfold SimpleIndexTrigger.erase
  refine leaves_mdbOpen.bind fun rc dbs₁ hopen => ?_
  refine (leaves_when_raise (Q := fun _ dbs' => dbs' = dbs) hopen).bind ?_
  rintro _ dbs₂ rfl
  refine leaves_mdbCursorGet.bind fun r dbs₃ ⟨hok, herror⟩ => ?_
  cases r with
  | ok v =>
    obtain ⟨hfirst, rfl⟩ := hok v rfl
    obtain ⟨B, hvalues⟩ := List.head?_eq_some_iff.mp hfirst
    have hfuel : B.length < (dbs₃ dbi).card := by
      have hle := length_valuesOf_le (dbs₃ dbi) k
      rw [hvalues, List.length_cons] at hle
      exact hle
    rw [hvalues] at hne
    refine Leaves.get fun env henv _ => ?_
    rw [henv, hvalues]
    exact leaves_eraseFrom hi (A := []) hvalues hne hfuel
  | error rc =>
    obtain ⟨hwhen, hrc⟩ := herror rc rfl
    refine leaves_raiseUnlessNotFound ((hwhen.or_left hrc).mono ?_)
    rintro ⟨hnone, rfl⟩
    -- the key has no value
    rw [List.head?_eq_none_iff.mp hnone, without_nil, Function.update_eq_self]

end Trigger

/-! ## All triggers -/

/-- Every trigger changes its own index. -/
theorem leaves_runTriggers {g : Regime} {run : MdbTrigger → Exec Env Unit}
    {f : Pairs → Pairs → Pairs} {main : Dbi} {indexes : List Dbi} {dbs : Dbi → Pairs}
    (hrun : ∀ i ∈ indexes, i ≠ main → ∀ dbs', dbs' main = dbs main →
      Leaves g (run (simpleIndexTrigger i)) dbs' fun _ dbs'' =>
        dbs'' = Function.update dbs' i (f (dbs' main) (dbs' i)))
    (hmain : main ∉ indexes) (hnodup : indexes.Nodup) :
    Leaves g (runTriggers run (indexes.map simpleIndexTrigger)) dbs fun _ dbs' =>
      dbs' main = dbs main ∧ (∀ i ∈ indexes, dbs' i = f (dbs main) (dbs i)) ∧
        ∀ i, i ≠ main → i ∉ indexes → dbs' i = dbs i := by
  induction indexes generalizing dbs with
  | nil => exact leaves_pure ⟨rfl, nofun, fun _ _ _ => rfl⟩
  | cons i indexes ih =>
    rw [List.mem_cons, not_or] at hmain
    obtain ⟨hi, hmain⟩ := hmain
    obtain ⟨hnot, hnodup⟩ := List.nodup_cons.mp hnodup
    refine (hrun i List.mem_cons_self (Ne.symm hi) dbs rfl).bind ?_
    rintro _ dbs₁ rfl
    have hkept : Function.update dbs i (f (dbs main) (dbs i)) main = dbs main :=
      Function.update_of_ne hi _ _
    refine (ih (fun j hj hne dbs' heq => ?_) hmain hnodup).mono ?_
    · exact hrun j (List.mem_cons_of_mem i hj) hne dbs' (heq.trans hkept)
    rintro _ dbs₂ ⟨hmain₂, hin, hout⟩
    rw [hkept] at hmain₂ hin
    refine ⟨hmain₂, fun j hj => ?_, fun j hj hnotin => ?_⟩
    · rcases List.mem_cons.mp hj with rfl | hj
      -- the other triggers leave the index alone
      · rw [hout j (Ne.symm hi) hnot, Function.update_self]
      · have hne : j ≠ i := fun h => hnot (h ▸ hj)
        rw [hin j hj, Function.update_of_ne hne]
    · rw [List.mem_cons, not_or] at hnotin
      rw [hout j hj hnotin.2, Function.update_of_ne hnotin.1]

/-! ## Operations -/

section Operations

variable {g : Regime} {x : Indexed} {dbs : Dbi → Pairs} {k v : List UInt8} {M : Pairs}

theorem Indexed.main_notMem (x : Indexed) : x.main ∉ x.indexes := (List.nodup_cons.mp x.nodup).1

theorem mem_swap : (v, k) ∈ M.image Prod.swap ↔ (k, v) ∈ M := by
  rw [Finset.mem_image]
  constructor
  · rintro ⟨⟨k', v'⟩, hin, heq⟩
    cases heq
    exact hin
  · exact fun h => ⟨(k, v), h, rfl⟩

theorem remaining_swap :
    remaining v (some k) (M.image Prod.swap) = (remaining k (some v) M).image Prod.swap := by
  ext ⟨a, b⟩
  unfold remaining
  rw [mem_swap, Finset.mem_filter, Finset.mem_filter, mem_swap]
  simp only [Option.mem_some_iff, forall_eq']
  tauto

theorem without_swap : without k (valuesOf M k) (M.image Prod.swap) =
    (remaining k none M).image Prod.swap := by
  ext ⟨a, b⟩
  unfold without remaining
  rw [mem_swap, Finset.mem_filter, Finset.mem_filter, mem_swap, mem_valuesOf]
  constructor
  · rintro ⟨hin, hnot⟩
    refine ⟨hin, fun ⟨hb, _⟩ => hnot ⟨hb, ?_⟩⟩
    rw [← show b = k from hb]
    exact hin
  · rintro ⟨hin, hnot⟩
    exact ⟨hin, fun ⟨hb, _⟩ => hnot ⟨hb, nofun⟩⟩

/-- What a program does to the indexes and then to the database keeps them consistent if it is the
same change. -/
theorem consistent_update {dbs₁ : Dbi → Pairs} {f : Pairs → Pairs} {N : Pairs}
    (hc : x.Consistent dbs) (hin : ∀ i ∈ x.indexes, dbs₁ i = f (dbs i))
    (hswap : f ((dbs x.main).image Prod.swap) = N.image Prod.swap) :
    x.Consistent (Function.update dbs₁ x.main N) := by
  intro i hi
  have hne : i ≠ x.main := fun h => x.main_notMem (h ▸ hi)
  rw [Function.update_of_ne hne, Function.update_self, hin i hi, hc i hi, hswap]

variable {K V : Type} [MdbSerialize K] [MdbSerialize V] {key : K} {value : V}

theorem Regime.mayThrow_any (n : ℕ) : (Regime.any n).MayThrow := Or.inl trivial

/-- Adding keeps the indexes consistent. -/
theorem leaves_addTxn (hc : x.Consistent dbs) (n : ℕ) :
    Leaves (.any n) (x.mdb.addTxn key value) dbs fun _ dbs' => x.Consistent dbs' := by
  have hany := Regime.mayThrow_any n
  unfold Mdb.addTxn
  refine (leaves_runTriggers (f := fun _ => insert (mdbSerialize value, mdbSerialize key))
    (fun i _ _ dbs' _ => leaves_add x.main (.inl hany)) x.main_notMem
    (List.nodup_cons.mp x.nodup).2).bind ?_
  rintro _ dbs₁ ⟨hmain, hin, -⟩
  refine (leaves_mdbPut (.inl hany)).bind fun rc dbs₂ hput => leaves_when_raise (hput.mono ?_)
  rintro rfl
  refine consistent_update (f := insert (mdbSerialize value, mdbSerialize key)) hc hin ?_
  show _ = Finset.image _ (insert _ (dbs₁ x.main))
  rw [hmain, Finset.image_insert]
  rfl

theorem leaves_erased {rc : Rc} {Q : (Dbi → Pairs) → Prop}
    (h : g.When (rc = .success ∨ rc = .notFound) (Q dbs)) :
    Leaves g (Mdb.erased rc) dbs fun _ dbs' => Q dbs' := by
  unfold Mdb.erased
  exact (leaves_raiseUnlessNotFound (Q := fun _ dbs' => Q dbs') h).bind
    fun _ dbs' hQ => leaves_pure hQ

theorem leaves_when_empty {message : String} {Q : Unit → (Dbi → Pairs) → Prop}
    (hk : g.MayThrow ∨ k ≠ []) (h : Q () dbs) :
    Leaves g (when (k = []) (raise message)) dbs Q :=
  leaves_when ⟨fun _ => h, fun hc => hk.resolve_right hc⟩

/-- Erasing a pair keeps the indexes consistent. -/
theorem leaves_eraseKVTxn (hc : x.Consistent dbs) (n : ℕ) :
    Leaves (.any n) (x.mdb.eraseKVTxn key value) dbs fun _ dbs' => x.Consistent dbs' := by
  have hany := Regime.mayThrow_any n
  unfold Mdb.eraseKVTxn
  refine (leaves_when_empty (Q := fun _ dbs' => dbs' = dbs) (.inl hany) rfl).bind ?_
  rintro _ dbs₀ rfl
  refine (leaves_runTriggers
    (f := fun _ => remaining (mdbSerialize value) (some (mdbSerialize key)))
    (fun i _ _ dbs' _ => leaves_eraseKV x.main (.inl hany)) x.main_notMem
    (List.nodup_cons.mp x.nodup).2).bind ?_
  rintro _ dbs₁ ⟨hmain, hin, -⟩
  refine (leaves_mdbDel (.inl hany)).bind fun rc dbs₂ hdel => leaves_erased (hdel.mono ?_)
  rintro ⟨rfl, -⟩
  refine consistent_update
    (f := remaining (mdbSerialize value) (some (mdbSerialize key))) hc hin ?_
  show _ = Finset.image _ (remaining _ _ (dbs₁ x.main))
  rw [hmain, remaining_swap]

/-- Erasing a key keeps the indexes consistent. -/
theorem leaves_eraseTxn (hc : x.Consistent dbs) (n : ℕ) :
    Leaves (.any n) (x.mdb.eraseTxn key) dbs fun _ dbs' => x.Consistent dbs' := by
  have hany := Regime.mayThrow_any n
  unfold Mdb.eraseTxn
  refine (leaves_when_empty (Q := fun _ dbs' => dbs' = dbs) (.inl hany) rfl).bind ?_
  rintro _ dbs₀ rfl
  refine (leaves_runTriggers
    (f := fun main => without (mdbSerialize key) (valuesOf main (mdbSerialize key)))
    (fun i _ hi dbs' _ => leaves_erase hi (.inl hany)) x.main_notMem
    (List.nodup_cons.mp x.nodup).2).bind ?_
  rintro _ dbs₁ ⟨hmain, hin, -⟩
  refine (leaves_mdbDel (.inl hany)).bind fun rc dbs₂ hdel => leaves_erased (hdel.mono ?_)
  rintro ⟨rfl, -⟩
  refine consistent_update
    (f := without (mdbSerialize key) (valuesOf (dbs₀ x.main) (mdbSerialize key))) hc hin ?_
  show _ = Finset.image _ (remaining _ _ (dbs₁ x.main))
  rw [hmain, without_swap]

end Operations

/-! ## Transactions -/

/-- A transaction returns what its body leaves, or it throws, and leaves the databases as they
were. -/
theorem wp_inTransaction {α : Type} {g : Regime} {body : Exec Env α}
    {Q : α → (Dbi → Pairs) → Prop} {env : Env} (hbody : Leaves g body env.databases Q)
    (hg : g.Rules env) :
    wp (inTransaction body) (fun a env' => Q a env'.databases ∧ g.Rules env')
      (fun _ env' => env'.databases = env.databases ∧ g.MayThrow ∧ g.Rules env') (fun _ => False)
      env := by
  have hprogram : Leaves g (do
      let rc ← mdbOpen
      when (rc ≠ .success) (raise ("mdb_txn_begin: " ++ rc.text))
      let a ← body
      let rc ← mdbOpen
      when (rc ≠ .success) (raise ("mdb_txn_commit: " ++ rc.text))
      pure a) env.databases Q := by
    refine leaves_mdbOpen.bind fun rc dbs₁ hopen => ?_
    refine (leaves_when_raise (Q := fun _ dbs' => dbs' = env.databases) hopen).bind ?_
    rintro _ dbs₂ rfl
    refine hbody.bind fun a dbs₃ hQ => ?_
    refine leaves_mdbOpen.bind fun rc dbs₄ hcommit => ?_
    refine (leaves_when_raise (Q := fun _ dbs' => dbs' = dbs₃) hcommit).bind ?_
    rintro _ dbs₅ rfl
    exact leaves_pure hQ
  have hwp := hprogram env rfl hg
  unfold wp at hwp
  unfold wp inTransaction
  simp only
  split at hwp
  · next hx => simpa only [hx] using hwp
  · next hx =>
    -- an exception leaves the databases as they were
    simp only [hx]
    exact ⟨trivial, hwp.1, hg.maxKeySize, hwp.2.failures⟩
  · exact hwp.elim

/-- A transaction that keeps a property of the databases keeps it whether it is committed or not. -/
theorem preserves_inTransaction {α : Type} {body : Exec Env α} {I : (Dbi → Pairs) → Prop}
    (hbody : ∀ n dbs, I dbs → Leaves (.any n) body dbs fun _ dbs' => I dbs') :
    Preserves (fun env : Env => I env.databases) (fun _ => False) (inTransaction body) := by
  intro env henv
  have hg : (Regime.any env.maxKeySize).Rules env := ⟨rfl, Or.inl trivial⟩
  refine wp_mono (wp_inTransaction (hbody _ _ henv) hg) (fun _ _ h => h.1) (fun _ env' h => ?_)
    fun _ h => h
  rw [h.1]
  exact henv

/-- **Every operation** keeps the indexes consistent, whichever of its calls fail. -/
theorem preserves_exec {K V : Type} [MdbSerialize K] [MdbSerialize V] (x : Indexed)
    (op : Mdb.Op K V) :
    Preserves (fun env : Env => x.Consistent env.databases) (fun _ => False) (x.mdb.exec op) := by
  cases op with
  | add key value => exact preserves_inTransaction fun n dbs hc => leaves_addTxn hc n
  | eraseKV key value =>
    exact (preserves_inTransaction fun n dbs hc => leaves_eraseKVTxn hc n).bind
      fun _ => Preserves.pure _
  | erase key =>
    exact (preserves_inTransaction fun n dbs hc => leaves_eraseTxn hc n).bind
      fun _ => Preserves.pure _

/-- The indexes are consistent after any sequence of operations, of whose calls any may fail. -/
theorem index_consistent {K V : Type} [MdbSerialize K] [MdbSerialize V] (x : Indexed) (env : Env)
    (hc : x.Consistent env.databases) (ops : List (Mdb.Op K V)) :
    ∃ env', Run.execAll x.mdb.exec ops env = some env' ∧ x.Consistent env'.databases :=
  Run.exists_execAll (preserves_exec x) hc

/-- A database with one index. -/
def oneIndex : Indexed := ⟨0, [1], by decide⟩

/-- Two operations, where the second fails at the deletion in the index. -/
theorem index_consistent_oneIndex :
    let failure : Failure := ⟨"Input/output error", fun _ => {([1], [2])}⟩
    let env : Env := ⟨fun _ => ∅, 511, [none, none, none, none, none, none, none, some failure]⟩
    let ops : List (Mdb.Op (List UInt8) UInt32) := [.add [107] 3, .erase [107]]
    ∃ env', Run.execAll oneIndex.mdb.exec ops env = some env' ∧
      oneIndex.Consistent env'.databases :=
  index_consistent oneIndex ⟨fun _ => ∅, 511, _⟩ (fun _ _ => rfl) [.add [107] 3, .erase [107]]

end Glim
