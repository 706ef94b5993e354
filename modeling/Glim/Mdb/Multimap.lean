import Glim.Ldb.Refinement
import Glim.Mdb.Index

/-!
# A database is a multimap

The wrapper around LMDB stores typed keys and values, and returns the values of a key in the order
of their bytes. Whatever calls of LMDB fail, an operation does to the database what it would do to a
multimap, and returns what it would return there, or it throws, and then the database is as it was.
It throws only if a call fails or LMDB refuses a size.

## Main definitions

* `Mdb.first`, `Mdb.all`: reading the values of a key
* `Mdb.Call`, `Mdb.run`: programs over a database
* `Multimap.Gives`, `Multimap.Runs`: what the operations do to a multimap
* `Indexed.Refuses`: LMDB refuses a size

## Main results

* `atomic_call`: what an operation does
* `refines_multimap`: a program over a database is one over a multimap
-/

namespace Glim

open Machine Exec Text Table

/-! ## Reading -/

/-- `mdbDeserialize`, for the types of keys and values. -/
class MdbDeserialize (α : Type) where
  mdbDeserialize : List UInt8 → Except String α

export MdbDeserialize (mdbDeserialize)

/-- The bytes are copied into a `gstring`. -/
instance instMdbDeserializeBytes : MdbDeserialize (List UInt8) := ⟨.ok⟩

/-- Numbers are stored in the network byte order. -/
instance instMdbDeserializeUInt32 : MdbDeserialize UInt32 where
  mdbDeserialize bytes :=
    match ofWord bytes with
    | some ui => .ok ui
    | none => .error "Not uint32_t, wrong number of bytes"

/-- `mdb_get (txn, dbi, key, value)`: the first value of the key. -/
def mdbGet (dbi : Dbi) (key : List UInt8) : Exec Env (Except Rc (List UInt8)) := do
  let env ← get
  mdbCall (fun text => .error (.error text)) fun dbs =>
    if key = [] ∨ env.maxKeySize < key.length then (.error badValSize, dbs)
    else
      match (valuesOf (dbs dbi) key).head? with
      | some value => (.ok value, dbs)
      | none => (.error .notFound, dbs)

/-- `mdb_cursor_get (cur, key, value, MDB_SET_KEY)`. -/
def mdbSetKey (dbi : Dbi) (key : List UInt8) : Exec Env (Except Rc (List UInt8)) :=
  if key = [] then
    mdbCall (fun text => .error (.error text)) fun dbs => (.error badValSize, dbs)
  else mdbCursorGet dbi key none

namespace Mdb

variable {K V : Type} [MdbSerialize K] [MdbSerialize V] [MdbDeserialize V] (m : Mdb)

/-- `gstring vstr (0, mv_data, false, mv_size); mdbDeserialize (vstr, value)`. -/
def deserialized (mval : List UInt8) : Exec Env V :=
  match mdbDeserialize (view mval) with
  | .ok value => pure value
  | .error message => raise message

/-- `if (rc == MDB_NOTFOUND) return ..; if (rc) throw MdbEx (message + strerror (rc))`. -/
def notFoundOr {α : Type} (message : String) (a : α) (rc : Rc) : Exec Env α := do
  when (rc ≠ .notFound) (raise (message ++ rc.text))
  pure a

/-- `first (key, value, txn)`: the value, if there is one. -/
def firstTxn (key : K) : Exec Env (Option V) := do
  match ← mdbGet m.dbi (mdbSerialize key) with
  | .error rc => notFoundOr "mdb_get: " none rc
  | .ok mvalue => do
    let value ← deserialized mvalue
    pure (some value)

/-- The loop of `all`, behind a value that the visitor has asked to go on from. -/
def allFrom (kbytes : List UInt8) (visitor : V → Bool) : ℕ → List UInt8 → Exec Env (List V)
  | 0, _ => fail .diverges
  | fuel + 1, current => do
    match ← mdbCursorGet m.dbi kbytes (some current) with
    | .error rc => notFoundOr "mdb_cursor_get: " [] rc
    | .ok mval => do
      let value ← deserialized mval
      if visitor value then do
        let values ← allFrom kbytes visitor fuel mval
        pure (value :: values)
      else pure [value]

/-- `all (key, visitor, txn)`: the values that the visitor gets, whose number is returned. -/
def allTxn (key : K) (visitor : V → Bool) : Exec Env (List V) := do
  let kbytes := mdbSerialize key
  let rc ← mdbOpen
  when (rc ≠ .success) (raise ("mdb_cursor_open: " ++ rc.text))
  match ← mdbSetKey m.dbi kbytes with
  | .error rc => notFoundOr "mdb_cursor_get: " [] rc
  | .ok mval => do
    let value ← deserialized mval
    if visitor value then do
      let env ← get
      let values ← m.allFrom kbytes visitor (env.databases m.dbi).card mval
      pure (value :: values)
    else pure [value]

/-- `first (key, value)`. -/
def first (key : K) : Exec Env (Option V) := inTransaction (m.firstTxn key)

/-- `all (key, visitor)`. -/
def all (key : K) (visitor : V → Bool) : Exec Env (List V) := inTransaction (m.allTxn key visitor)

/-! ## Programs -/

/-- The operations. -/
inductive Call (K V : Type) where
  | add (key : K) (value : V)
  | eraseKV (key : K) (value : V)
  | erase (key : K)
  | first (key : K)
  | all (key : K) (visitor : V → Bool)

/-- What an operation returns. -/
inductive Result (V : Type) where
  | done
  | flag (b : Bool)
  | value (value : Option V)
  | values (visited : List V)
  deriving DecidableEq, Repr

/-- An operation. -/
def call : Call K V → Exec Env (Result V)
  | .add key value => do
    m.add key value
    pure .done
  | .eraseKV key value => .flag <$> m.eraseKV key value
  | .erase key => .flag <$> m.erase key
  | .first key => .value <$> m.first key
  | .all key visitor => .values <$> m.all key visitor

/-- What the operations return, or `none` where they throw. -/
def run : List (Call K V) → Env → List (Option (Result V)) × Env
  | [], env => ([], env)
  | c :: cs, env =>
    match m.call c env with
    | .ok r env' => ((run cs env').1.cons (some r), (run cs env').2)
    | .throw _ env' => ((run cs env').1.cons none, (run cs env').2)
    | .fault _ => ([], env)

end Mdb

/-! ## Multimaps -/

namespace Multimap

variable {K V : Type} [MdbSerialize V]

/-- The values of a key, in the order of their bytes. -/
def Values (S : Set (K × V)) (key : K) (values : List V) : Prop :=
  (values.Pairwise fun v w => mdbSerialize v < mdbSerialize w) ∧ ∀ v, v ∈ values ↔ (key, v) ∈ S

/-- The values up to one where the visitor has enough. -/
def visited (visitor : V → Bool) : List V → List V
  | [] => []
  | v :: values => if visitor v then v :: visited visitor values else [v]

/-- What an operation returns and leaves. -/
def Gives (S : Set (K × V)) : Mdb.Call K V → Mdb.Result V → Set (K × V) → Prop
  | .add key value, r, S' => r = .done ∧ S' = insert (key, value) S
  | .eraseKV key value, r, S' =>
    (∃ b, r = .flag b ∧ (b = true ↔ (key, value) ∈ S)) ∧ S' = S \ {(key, value)}
  | .erase key, r, S' =>
    (∃ b, r = .flag b ∧ (b = true ↔ ∃ value, (key, value) ∈ S)) ∧ S' = {e ∈ S | e.1 ≠ key}
  | .first key, r, S' => (∃ values, Values S key values ∧ r = .value values.head?) ∧ S' = S
  | .all key visitor, r, S' =>
    (∃ values, Values S key values ∧ r = .values (visited visitor values)) ∧ S' = S

/-- The operations one after the other; one that throws does nothing, and has a reason. -/
inductive Runs (mayThrow : Set (K × V) → Mdb.Call K V → Prop) : Set (K × V) →
    List (Mdb.Call K V) → List (Option (Mdb.Result V)) → Set (K × V) → Prop
  | nil (S : Set (K × V)) : Runs mayThrow S [] [] S
  | throws {S S' : Set (K × V)} {c : Mdb.Call K V} {cs : List (Mdb.Call K V)}
      {rs : List (Option (Mdb.Result V))} (hthrow : mayThrow S c)
      (hrest : Runs mayThrow S cs rs S') : Runs mayThrow S (c :: cs) (none :: rs) S'
  | returns {S S₁ S' : Set (K × V)} {c : Mdb.Call K V} {cs : List (Mdb.Call K V)}
      {r : Mdb.Result V} {rs : List (Option (Mdb.Result V))} (hr : Gives S c r S₁)
      (hrest : Runs mayThrow S₁ cs rs S') : Runs mayThrow S (c :: cs) (some r :: rs) S'

end Multimap

/-- LMDB refuses a size: keys have a limit and are not empty, and the values are the keys of the
indexes. -/
def Indexed.Refuses {K V : Type} [MdbSerialize K] [MdbSerialize V] (x : Indexed) (maxKeySize : ℕ)
    (S : Set (K × V)) : Mdb.Call K V → Prop
  | .add key value =>
    mdbSerialize key = [] ∨ maxKeySize < (mdbSerialize key).length ∨
      maxKeySize < (mdbSerialize value).length ∨ x.indexes ≠ [] ∧ mdbSerialize value = []
  | .eraseKV key value => mdbSerialize key = [] ∨ x.indexes ≠ [] ∧ mdbSerialize value = []
  | .erase key =>
    mdbSerialize key = [] ∨ x.indexes ≠ [] ∧ ∃ value, (key, value) ∈ S ∧ mdbSerialize value = []
  | .first key => mdbSerialize key = [] ∨ maxKeySize < (mdbSerialize key).length
  | .all key _ => mdbSerialize key = []

/-- A reason to throw: a call that fails, or a size that LMDB refuses. -/
def Indexed.MayThrow {K V : Type} [MdbSerialize K] [MdbSerialize V] (x : Indexed) (env : Env)
    (S : Set (K × V)) (c : Mdb.Call K V) : Prop :=
  (∃ f ∈ env.failures, f ≠ none) ∨ x.Refuses env.maxKeySize S c

section Represents

variable {K V : Type} [MdbSerialize K] [MdbDeserialize K] [MdbSerialize V] [MdbDeserialize V]

/-- What is read is what was stored. -/
def Storable {α : Type} [MdbSerialize α] [MdbDeserialize α] (a : α) : Prop :=
  mdbDeserialize (view (mdbSerialize a)) = .ok a

/-- The database has the pairs of the multimap. -/
structure Represents (db : Pairs) (S : Set (K × V)) : Prop where
  mem : ∀ e, e ∈ db ↔ ∃ p ∈ S, e = (mdbSerialize p.1, mdbSerialize p.2)
  storable : ∀ p ∈ S, Storable p.1 ∧ Storable p.2

/-- The keys and the values of an operation can be stored. -/
def Mdb.Call.Storable : Mdb.Call K V → Prop
  | .add key value => Glim.Storable key ∧ Glim.Storable value
  | .eraseKV key value => Glim.Storable key ∧ Glim.Storable value
  | .erase key => Glim.Storable key
  | .first key => Glim.Storable key
  | .all key _ => Glim.Storable key

theorem storable_bytes {bytes : List UInt8} (h : bytes.length < 2 ^ 24) : Storable bytes := by
  have hview := view_eq_self_iff.mpr h
  show Except.ok (view (view bytes)) = .ok bytes
  rw [hview, hview]

theorem storable_uint32 (n : UInt32) : Storable n := by
  show mdbDeserialize (view (word n)) = .ok n
  rw [view_word]
  simp only [mdbDeserialize, ofWord_word]

theorem serialize_injective {α : Type} [MdbSerialize α] [MdbDeserialize α] {a b : α}
    (ha : Storable a) (hb : Storable b) (h : mdbSerialize a = mdbSerialize b) : a = b := by
  rw [Storable, h] at ha
  exact Except.ok.inj (ha.symm.trans hb)

omit [MdbDeserialize V] in
/-- Values whose bytes are those of a list. -/
theorem exists_map_serialize {P : V → Prop} {L : List (List UInt8)}
    (h : ∀ b ∈ L, ∃ v, P v ∧ mdbSerialize v = b) :
    ∃ values : List V, values.map mdbSerialize = L ∧ ∀ v ∈ values, P v := by
  induction L with
  | nil => exact ⟨[], rfl, nofun⟩
  | cons b L ih =>
    obtain ⟨⟨v, hv, rfl⟩, hrest⟩ := List.forall_mem_cons.mp h
    obtain ⟨values, rfl, hvalues⟩ := ih hrest
    exact ⟨v :: values, rfl, List.forall_mem_cons.mpr ⟨hv, hvalues⟩⟩

variable {db : Pairs} {S : Set (K × V)} {key : K} {value : V}

/-- A pair is in the database if and only if it is in the multimap. -/
theorem Represents.mem_iff (h : Represents db S) (hkey : Storable key) (hvalue : Storable value) :
    (mdbSerialize key, mdbSerialize value) ∈ db ↔ (key, value) ∈ S := by
  rw [h.mem]
  constructor
  · rintro ⟨p, hp, heq⟩
    obtain ⟨hp1, hp2⟩ := h.storable p hp
    obtain ⟨h1, h2⟩ := Prod.mk.inj heq
    rw [serialize_injective hkey hp1 h1, serialize_injective hvalue hp2 h2]
    exact hp
  · exact fun hp => ⟨(key, value), hp, rfl⟩

/-- The values of a key. -/
theorem Represents.exists_values (h : Represents db S) (hkey : Storable key) :
    ∃ values, Multimap.Values S key values ∧ (∀ v ∈ values, Storable v) ∧
      valuesOf db (mdbSerialize key) = values.map mdbSerialize := by
  have hbytes : ∀ b ∈ valuesOf db (mdbSerialize key),
      ∃ v, (key, v) ∈ S ∧ mdbSerialize v = b := by
    intro b hb
    obtain ⟨p, hp, heq⟩ := (h.mem _).mp (mem_valuesOf.mp hb)
    obtain ⟨h1, h2⟩ := Prod.mk.inj heq
    refine ⟨p.2, ?_, h2.symm⟩
    rw [serialize_injective hkey (h.storable p hp).1 h1]
    exact hp
  obtain ⟨values, hmap, hvalues⟩ := exists_map_serialize hbytes
  have hsorted : (valuesOf db (mdbSerialize key)).Pairwise (· < ·) :=
    Finset.sortedLT_sort _ |>.pairwise
  rw [← hmap, List.pairwise_map] at hsorted
  refine ⟨values, ⟨hsorted, fun v => ⟨hvalues v, fun hv => ?_⟩⟩,
    fun v hv => (h.storable _ (hvalues v hv)).2, hmap.symm⟩
  have hin : mdbSerialize v ∈ values.map mdbSerialize := by
    rw [hmap, mem_valuesOf, h.mem]
    exact ⟨(key, v), hv, rfl⟩
  obtain ⟨w, hw, heq⟩ := List.mem_map.mp hin
  obtain rfl : w = v := serialize_injective (h.storable _ (hvalues w hw)).2 (h.storable _ hv).2 heq
  exact hw

/-- A pair that is added. -/
theorem Represents.insert (h : Represents db S) (hkey : Storable key) (hvalue : Storable value) :
    Represents (insert (mdbSerialize key, mdbSerialize value) db) (insert (key, value) S) := by
  refine ⟨fun e => ?_, ?_⟩
  · rw [Finset.mem_insert, h.mem]
    constructor
    · rintro (rfl | ⟨p, hp, rfl⟩)
      · exact ⟨(key, value), Set.mem_insert _ _, rfl⟩
      · exact ⟨p, Set.mem_insert_of_mem _ hp, rfl⟩
    · rintro ⟨p, rfl | hp, rfl⟩
      · exact Or.inl rfl
      · exact Or.inr ⟨p, hp, rfl⟩
  · rintro p (rfl | hp)
    · exact ⟨hkey, hvalue⟩
    · exact h.storable p hp

/-- Pairs that are removed. -/
theorem Represents.remove (h : Represents db S) {kbytes : List UInt8} {v : Option (List UInt8)}
    {T : Set (K × V)}
    (hT : ∀ p ∈ S, p ∈ T ↔ ¬ (mdbSerialize p.1 = kbytes ∧ ∀ b ∈ v, mdbSerialize p.2 = b))
    (hsub : T ⊆ S) : Represents (remaining kbytes v db) T := by
  refine ⟨fun e => ?_, fun p hp => h.storable p (hsub hp)⟩
  rw [remaining, Finset.mem_filter, h.mem]
  constructor
  · rintro ⟨⟨p, hp, rfl⟩, hnot⟩
    exact ⟨p, (hT p hp).mpr hnot, rfl⟩
  · rintro ⟨p, hp, rfl⟩
    exact ⟨⟨p, hsub hp, rfl⟩, (hT p (hsub hp)).mp hp⟩

/-- A pair that is removed. -/
theorem Represents.eraseKV (h : Represents db S) (hkey : Storable key) (hvalue : Storable value) :
    Represents (remaining (mdbSerialize key) (some (mdbSerialize value)) db)
      (S \ {(key, value)}) := by
  refine h.remove (fun p hp => ?_) Set.sdiff_subset
  obtain ⟨hp1, hp2⟩ := h.storable p hp
  simp only [Set.mem_sdiff, hp, true_and, Set.mem_singleton_iff, Option.mem_some_iff,
    forall_eq', not_iff_not, Prod.ext_iff]
  constructor
  · rintro ⟨h1, h2⟩
    rw [h1, h2]
    exact ⟨rfl, rfl⟩
  · rintro ⟨h1, h2⟩
    exact ⟨serialize_injective hp1 hkey h1, serialize_injective hp2 hvalue h2⟩

/-- Whether there was such a pair. -/
theorem Represents.exists_pair_iff (h : Represents db S) (hkey : Storable key)
    (hvalue : Storable value) :
    (∃ e ∈ db, e.1 = mdbSerialize key ∧ ∀ b ∈ some (mdbSerialize value), e.2 = b) ↔
      (key, value) ∈ S := by
  rw [← h.mem_iff hkey hvalue]
  constructor
  · rintro ⟨⟨k, v⟩, he, rfl, hv⟩
    exact hv _ rfl ▸ he
  · exact fun he => ⟨_, he, rfl, by simp⟩

/-- A key that is removed. -/
theorem Represents.erase (h : Represents db S) (hkey : Storable key) :
    Represents (remaining (mdbSerialize key) none db) {e ∈ S | e.1 ≠ key} := by
  refine h.remove (fun p hp => ?_) fun p hp => hp.1
  have hp1 := (h.storable p hp).1
  simp only [Set.mem_ofPred_eq, hp, true_and, Option.mem_def, reduceCtorEq, false_imp_iff,
    implies_true, and_true, ne_eq, not_iff_not]
  exact ⟨fun h => by rw [h], serialize_injective hp1 hkey⟩

/-- Whether there was such a key. -/
theorem Represents.exists_key_iff (h : Represents db S) (hkey : Storable key) :
    (∃ e ∈ db, e.1 = mdbSerialize key ∧ ∀ b ∈ (none : Option (List UInt8)), e.2 = b) ↔
      ∃ v, (key, v) ∈ S := by
  constructor
  · rintro ⟨e, he, heq, -⟩
    obtain ⟨p, hp, rfl⟩ := (h.mem e).mp he
    have hpkey := serialize_injective (h.storable p hp).1 hkey heq
    exact ⟨p.2, hpkey ▸ hp⟩
  · rintro ⟨v, hv⟩
    exact ⟨_, (h.mem _).mpr ⟨(key, v), hv, rfl⟩, rfl, by simp⟩

end Represents

/-! ## Transactions -/

section Atomic

variable {α β : Type} {g : Regime} {x : Exec Env α} {dbs : Dbi → Pairs}
  {Q : α → (Dbi → Pairs) → Prop}

/-- The program returns within `Q`, or it has a reason to throw and leaves the databases as they
were. -/
def Atomic (g : Regime) (x : Exec Env α) (dbs : Dbi → Pairs) (Q : α → (Dbi → Pairs) → Prop) :
    Prop :=
  ∀ env : Env, env.databases = dbs → g.Rules env →
    wp x (fun a env' => Q a env'.databases ∧ g.Rules env')
      (fun _ env' => env'.databases = dbs ∧ g.MayThrow ∧ g.Rules env') (fun _ => False) env

theorem Atomic.map {f : α → β} {R : β → (Dbi → Pairs) → Prop} (hx : Atomic g x dbs Q)
    (h : ∀ a dbs', Q a dbs' → R (f a) dbs') : Atomic g (f <$> x) dbs R := by
  intro env henv hg
  rw [wp_map]
  exact wp_mono (hx env henv hg) (fun a env' hQ => ⟨h a _ hQ.1, hQ.2⟩) (fun _ _ h => h) fun _ h => h

/-- A transaction is atomic. -/
theorem atomic_inTransaction (hx : Leaves g x dbs Q) : Atomic g (inTransaction x) dbs Q := by
  rintro env rfl hg
  exact wp_inTransaction hx hg

end Atomic

/-! ## The operations -/

section Calls

variable {α : Type} {g : Regime} {dbs : Dbi → Pairs} {dbi : Dbi} {k : List UInt8}

/-- A program that throws unless nothing was found. -/
theorem leaves_notFoundOr {message : String} {a : α} {rc : Rc} {Q : α → (Dbi → Pairs) → Prop}
    (h : g.When (rc = .notFound) (Q a dbs)) : Leaves g (Mdb.notFoundOr message a rc) dbs Q := by
  have hthrow : Leaves g (when (rc ≠ .notFound) (raise (message ++ rc.text))) dbs
      fun _ dbs' => Q a dbs' :=
    leaves_when ⟨fun hrc => h.of (not_not.mp hrc), fun hrc => h.mayThrow (not_not.mp hrc)⟩
  exact hthrow.bind fun _ _ hQ => leaves_pure hQ

/-- What a call that reads the first value of a key returns. It changes nothing. -/
structure ReadsFirst (g : Regime) (dbs : Dbi → Pairs) (dbi : Dbi) (k : List UInt8)
    (r : Except Rc (List UInt8)) (dbs' : Dbi → Pairs) : Prop where
  ok : ∀ v, r = .ok v → (valuesOf (dbs dbi) k).head? = some v ∧ dbs' = dbs
  error : ∀ rc, r = .error rc →
    g.When (rc = .notFound) ((valuesOf (dbs dbi) k).head? = none ∧ dbs' = dbs)

/-- A call that fails or refuses the key has read nothing. -/
theorem readsFirst_error (hthrow : g.MayThrow) (text : String) (left : Dbi → Pairs) :
    ReadsFirst g dbs dbi k (.error (.error text)) left := by
  refine ⟨nofun, ?_⟩
  rintro rc ⟨⟩
  exact ⟨nofun, fun _ => hthrow⟩

theorem leaves_mdbGet (hfits : g.MayThrow ∨ g.Fits k) :
    Leaves g (mdbGet dbi k) dbs (ReadsFirst g dbs dbi k) := by
  refine Leaves.get fun env _ hg =>
    leaves_mdbCall (fun hmay text left => readsFirst_error (.inl hmay) text left) ?_
  rw [hg.maxKeySize]
  split_ifs with hsize
  · refine readsFirst_error (hfits.resolve_right ?_) _ _
    rintro ⟨hne, hlen⟩
    rcases hsize with h | h
    · exact hne h
    · exact absurd hlen (Nat.not_le_of_lt h)
  · cases hfirst : (valuesOf (dbs dbi) k).head? with
    | some v =>
      refine ⟨?_, nofun⟩
      rintro w ⟨⟩
      exact ⟨hfirst, rfl⟩
    | none =>
      refine ⟨nofun, ?_⟩
      rintro rc ⟨⟩
      exact ⟨fun _ => ⟨hfirst, rfl⟩, fun h => absurd rfl h⟩

/-- The cursor goes to the first value of the key. -/
theorem leaves_mdbSetKey (hk : g.MayThrow ∨ k ≠ []) :
    Leaves g (mdbSetKey dbi k) dbs (ReadsFirst g dbs dbi k) := by
  rw [mdbSetKey]
  split_ifs with hempty
  · have hthrow := hk.resolve_right (not_not_intro hempty)
    exact leaves_mdbCall (fun _ text left => readsFirst_error hthrow text left)
      (readsFirst_error hthrow _ _)
  · exact leaves_mdbCursorGet.mono fun r dbs' h => ⟨h.1, fun rc hr => (h.2 rc hr).1⟩

variable {V : Type} [MdbSerialize V] [MdbDeserialize V]

/-- A value that was stored is read back. -/
theorem leaves_deserialized {v : V} (hv : Storable v) :
    Leaves g (Mdb.deserialized (mdbSerialize v)) dbs fun w dbs' => w = v ∧ dbs' = dbs := by
  rw [Mdb.deserialized, show mdbDeserialize (view (mdbSerialize v)) = .ok v from hv]
  exact leaves_pure ⟨rfl, rfl⟩

/-- The loop of `all` visits the values behind the current one, up to one where the visitor has
enough. -/
theorem leaves_allFrom {m : Mdb} {visitor : V → Bool} {fuel : ℕ} {A B : List V} {v : V}
    (hvalues : valuesOf (dbs m.dbi) k = (A ++ v :: B).map mdbSerialize)
    (hstorable : ∀ w ∈ A ++ v :: B, Storable w) (hfuel : B.length < fuel) :
    Leaves g (m.allFrom k visitor fuel (mdbSerialize v)) dbs fun values dbs' =>
      values = Multimap.visited visitor B ∧ dbs' = dbs := by
  induction fuel generalizing A B v with
  | zero => exact absurd hfuel (Nat.not_lt_zero _)
  | succ fuel ih =>
    rw [Mdb.allFrom]
    have hnotin : mdbSerialize v ∉ A.map mdbSerialize := by
      rw [List.map_append, List.map_cons] at hvalues
      exact not_mem_front hvalues
    refine leaves_mdbCursorGet.bind fun r dbs₁ ⟨hok, herror⟩ => ?_
    rw [hvalues, List.map_append, List.map_cons, Tour.next_append hnotin] at hok herror
    cases r with
    | error rc =>
      refine leaves_notFoundOr ((herror rc rfl).1.mono ?_)
      rintro ⟨hnext, rfl⟩
      rw [List.head?_eq_none_iff, List.map_eq_nil_iff] at hnext
      rw [hnext]
      exact ⟨rfl, rfl⟩
    | ok b =>
      obtain ⟨hnext, rfl⟩ := hok b rfl
      cases B with
      | nil => cases hnext
      | cons w B =>
        obtain rfl : mdbSerialize w = b := Option.some.inj hnext
        -- behind `v` comes `w`, and the loop goes on from there
        have hassoc : A ++ v :: w :: B = (A ++ [v]) ++ w :: B := by simp
        rw [hassoc] at hvalues hstorable
        refine (leaves_deserialized (hstorable w (by simp))).bind ?_
        rintro _ dbs₂ ⟨rfl, rfl⟩
        rw [Multimap.visited]
        split_ifs
        · refine (ih hvalues hstorable (Nat.lt_of_succ_lt_succ hfuel)).bind ?_
          rintro _ dbs₃ ⟨rfl, rfl⟩
          exact leaves_pure ⟨rfl, rfl⟩
        · exact leaves_pure ⟨rfl, rfl⟩

end Calls

section Operations

variable {K V : Type} [MdbSerialize K] [MdbDeserialize K] [MdbSerialize V] [MdbDeserialize V]
  {g : Regime} {x : Indexed} {dbs : Dbi → Pairs} {key : K} {value : V} {k : List UInt8}
  {S : Set (K × V)}

/-- The end of `eraseKV` and of `erase`. -/
theorem leaves_erasing {v : Option (List UInt8)} (hk : g.MayThrow ∨ k ≠ []) :
    Leaves g (mdbDel x.main k v >>= Mdb.erased) dbs fun b dbs' =>
      dbs' x.main = remaining k v (dbs x.main) ∧
        (b = true ↔ ∃ e ∈ dbs x.main, e.1 = k ∧ ∀ b ∈ v, e.2 = b) := by
  refine (leaves_mdbDel hk).bind fun rc dbs₁ ⟨hdel, hthrow⟩ => ?_
  rw [Mdb.erased]
  refine (leaves_raiseUnlessNotFound
    (Q := fun _ dbs' => dbs' = dbs₁ ∧ (rc = .success ∨ rc = .notFound))
    ⟨fun hrc => ⟨rfl, hrc⟩, hthrow⟩).bind ?_
  rintro _ _ ⟨rfl, hrc⟩
  obtain ⟨hleft, hiff⟩ := hdel hrc
  refine leaves_pure ⟨by rw [hleft, Function.update_self], ?_⟩
  rw [← hiff, decide_eq_true_iff]
  rcases hrc with rfl | rfl <;> simp

omit [MdbDeserialize K] [MdbDeserialize V] in
/-- Adding, whatever the triggers do to the indexes. -/
theorem leaves_addTxn_main (hfits : g.MayThrow ∨ g.Fits (mdbSerialize key) ∧
      (mdbSerialize value).length ≤ g.maxKeySize ∧ (x.indexes ≠ [] → mdbSerialize value ≠ [])) :
    Leaves g (x.mdb.addTxn key value) dbs fun _ dbs' =>
      dbs' x.main = insert (mdbSerialize key, mdbSerialize value) (dbs x.main) := by
  unfold Mdb.addTxn
  refine (leaves_runTriggers (f := fun _ => insert (mdbSerialize value, mdbSerialize key))
    (fun i hi _ dbs' _ => leaves_add x.main ?_) x.main_notMem
    (List.nodup_cons.mp x.nodup).2).bind ?_
  · exact hfits.imp_right fun ⟨hkey, hlen, hne⟩ => ⟨⟨hne (List.ne_nil_of_mem hi), hlen⟩, hkey.2⟩
  rintro _ dbs₁ ⟨hmain, -, -⟩
  have hput : g.MayThrow ∨ g.Fits (mdbSerialize key) ∧
      (mdbSerialize value).length ≤ g.maxKeySize :=
    hfits.imp_right fun ⟨hkey, hlen, _⟩ => ⟨hkey, hlen⟩
  refine (leaves_mdbPut hput).bind fun rc dbs₂ h => leaves_when_raise (h.mono ?_)
  rintro rfl
  rw [← hmain]
  exact Function.update_self ..

omit [MdbDeserialize K] [MdbDeserialize V] in
/-- Erasing a pair, whatever the triggers do to the indexes. -/
theorem leaves_eraseKVTxn_main (hne : g.MayThrow ∨
      mdbSerialize key ≠ [] ∧ (x.indexes ≠ [] → mdbSerialize value ≠ [])) :
    Leaves g (x.mdb.eraseKVTxn key value) dbs fun b dbs' =>
      dbs' x.main = remaining (mdbSerialize key) (some (mdbSerialize value)) (dbs x.main) ∧
        (b = true ↔ ∃ e ∈ dbs x.main, e.1 = mdbSerialize key ∧
          ∀ b ∈ some (mdbSerialize value), e.2 = b) := by
  have hkey := hne.imp_right And.left
  unfold Mdb.eraseKVTxn
  refine (leaves_when_empty (Q := fun _ dbs' => dbs' = dbs) hkey rfl).bind ?_
  rintro _ dbs₀ rfl
  refine (leaves_runTriggers
    (f := fun _ => remaining (mdbSerialize value) (some (mdbSerialize key)))
    (fun i hi _ dbs' _ => leaves_eraseKV x.main ?_) x.main_notMem
    (List.nodup_cons.mp x.nodup).2).bind ?_
  · exact hne.imp_right fun h => h.2 (List.ne_nil_of_mem hi)
  rintro _ dbs₁ ⟨hmain, -, -⟩
  rw [← hmain]
  exact leaves_erasing hkey

omit [MdbDeserialize K] in
/-- Erasing a key, whatever the triggers do to the indexes. -/
theorem leaves_eraseTxn_main (hne : g.MayThrow ∨ mdbSerialize key ≠ [] ∧
      (x.indexes ≠ [] → ∀ w ∈ valuesOf (dbs x.main) (mdbSerialize key), w ≠ [])) :
    Leaves g (x.mdb.eraseTxn key) dbs fun b dbs' =>
      dbs' x.main = remaining (mdbSerialize key) none (dbs x.main) ∧
        (b = true ↔ ∃ e ∈ dbs x.main, e.1 = mdbSerialize key ∧
          ∀ b ∈ (none : Option (List UInt8)), e.2 = b) := by
  have hkey := hne.imp_right And.left
  unfold Mdb.eraseTxn
  refine (leaves_when_empty (Q := fun _ dbs' => dbs' = dbs) hkey rfl).bind ?_
  rintro _ dbs₀ rfl
  refine (leaves_runTriggers
    (f := fun main => without (mdbSerialize key) (valuesOf main (mdbSerialize key)))
    (fun i hi hi' dbs' hmain => leaves_erase hi' ?_) x.main_notMem
    (List.nodup_cons.mp x.nodup).2).bind ?_
  · rw [hmain]
    exact hne.imp_right fun h => h.2 (List.ne_nil_of_mem hi)
  rintro _ dbs₁ ⟨hmain, -, -⟩
  rw [← hmain]
  exact leaves_erasing hkey

/-- Reading the first value of a key. -/
theorem leaves_firstTxn (h : Represents (dbs x.main) S) (hkey : Storable key)
    (hfits : g.MayThrow ∨ g.Fits (mdbSerialize key)) :
    Leaves g (x.mdb.firstTxn key : Exec Env (Option V)) dbs fun r dbs' =>
      (∃ values, Multimap.Values S key values ∧ r = values.head?) ∧ dbs' = dbs := by
  obtain ⟨values, hvalues, hstorable, heq⟩ := h.exists_values hkey
  rw [Mdb.firstTxn]
  refine (leaves_mdbGet hfits).bind fun r dbs₁ ⟨hok, herror⟩ => ?_
  rw [show x.mdb.dbi = x.main from rfl, heq, List.head?_map] at hok herror
  cases r with
  | error rc =>
    refine leaves_notFoundOr ((herror rc rfl).mono ?_)
    rintro ⟨hhead, rfl⟩
    exact ⟨⟨values, hvalues, (Option.map_eq_none_iff.mp hhead).symm⟩, rfl⟩
  | ok b =>
    obtain ⟨hhead, rfl⟩ := hok b rfl
    obtain ⟨v, hv, rfl⟩ := Option.map_eq_some_iff.mp hhead
    refine (leaves_deserialized (hstorable v (List.mem_of_head? hv))).bind ?_
    rintro _ dbs₂ ⟨rfl, rfl⟩
    exact leaves_pure ⟨⟨values, hvalues, hv.symm⟩, rfl⟩

/-- Reading all values of a key. -/
theorem leaves_allTxn (h : Represents (dbs x.main) S) (hkey : Storable key)
    (hne : g.MayThrow ∨ mdbSerialize key ≠ []) (visitor : V → Bool) :
    Leaves g (x.mdb.allTxn key visitor) dbs fun r dbs' =>
      (∃ values, Multimap.Values S key values ∧ r = Multimap.visited visitor values) ∧
        dbs' = dbs := by
  obtain ⟨values, hvalues, hstorable, heq⟩ := h.exists_values hkey
  rw [Mdb.allTxn]
  refine leaves_mdbOpen.bind fun rc dbs₁ hopen => ?_
  refine (leaves_when_raise (Q := fun _ dbs' => dbs' = dbs) hopen).bind ?_
  rintro _ dbs₂ rfl
  refine (leaves_mdbSetKey hne).bind fun r dbs₃ ⟨hok, herror⟩ => ?_
  rw [show x.mdb.dbi = x.main from rfl, heq, List.head?_map] at hok herror
  cases r with
  | error rc =>
    refine leaves_notFoundOr ((herror rc rfl).mono ?_)
    rintro ⟨hhead, rfl⟩
    rw [Option.map_eq_none_iff, List.head?_eq_none_iff] at hhead
    exact ⟨⟨values, hvalues, by rw [hhead]; rfl⟩, rfl⟩
  | ok b =>
    obtain ⟨hhead, rfl⟩ := hok b rfl
    obtain ⟨v, hv, rfl⟩ := Option.map_eq_some_iff.mp hhead
    obtain ⟨B, rfl⟩ := List.head?_eq_some_iff.mp hv
    refine (leaves_deserialized (hstorable v List.mem_cons_self)).bind ?_
    rintro w dbs₄ ⟨rfl, rfl⟩
    have hvisited : Multimap.visited visitor (w :: B) =
        if visitor w then w :: Multimap.visited visitor B else [w] := rfl
    cases hgo : visitor w with
    | false =>
      rw [hgo] at hvisited
      rw [if_neg Bool.false_ne_true]
      exact leaves_pure ⟨⟨w :: B, hvalues, hvisited.symm⟩, rfl⟩
    | true =>
      rw [hgo] at hvisited
      have hfuel : B.length < (dbs₄ x.main).card := by
        have hle := length_valuesOf_le (dbs₄ x.main) (mdbSerialize key)
        rw [heq, List.length_map, List.length_cons] at hle
        exact hle
      rw [if_pos rfl]
      refine Leaves.get fun env henv _ => ?_
      rw [henv]
      refine (leaves_allFrom (m := x.mdb) (A := []) heq hstorable hfuel).bind ?_
      rintro _ dbs₅ ⟨rfl, rfl⟩
      exact leaves_pure ⟨⟨w :: B, hvalues, hvisited.symm⟩, rfl⟩

/-- Nothing is refused, or there is a reason to throw. -/
theorem Regime.mayThrow_or {P : Prop} (h : ¬ g.mayRefuse → P) : g.MayThrow ∨ P := by
  by_cases hr : g.mayRefuse
  · exact Or.inl (Or.inr hr)
  · exact Or.inr (h hr)

/-- **What an operation does**: it returns what the multimap gives, or it throws and leaves the
databases, because a call fails or LMDB refuses a size. -/
theorem atomic_call (h : Represents (dbs x.main) S) {c : Mdb.Call K V} (hc : c.Storable)
    {mayFail : Prop} {n : ℕ} :
    Atomic ⟨n, mayFail, x.Refuses n S c⟩ (x.mdb.call c) dbs fun r dbs' =>
      ∃ S', Multimap.Gives S c r S' ∧ Represents (dbs' x.main) S' := by
  generalize hg : (⟨n, mayFail, x.Refuses n S c⟩ : Regime) = g
  have hmax : g.maxKeySize = n := by rw [← hg]
  have hrefuse : g.mayRefuse = x.Refuses n S c := by rw [← hg]
  cases c with
  | add key value =>
    have hfits : g.MayThrow ∨ g.Fits (mdbSerialize key) ∧
        (mdbSerialize value).length ≤ g.maxKeySize ∧
        (x.indexes ≠ [] → mdbSerialize value ≠ []) := by
      refine Regime.mayThrow_or fun hr => ?_
      simp only [hrefuse, Indexed.Refuses, not_or, not_and, not_lt] at hr
      rw [Regime.Fits, hmax]
      exact ⟨⟨hr.1, hr.2.1⟩, hr.2.2⟩
    have hadd : Leaves g (x.mdb.addTxn key value) dbs fun _ dbs' =>
        dbs' x.main = insert (mdbSerialize key, mdbSerialize value) (dbs x.main) :=
      leaves_addTxn_main hfits
    refine (atomic_inTransaction hadd).map (f := fun _ => Mdb.Result.done) fun _ dbs' hdbs' =>
      ⟨insert (key, value) S, ⟨rfl, rfl⟩, ?_⟩
    rw [hdbs']
    exact h.insert hc.1 hc.2
  | eraseKV key value =>
    have hne : g.MayThrow ∨
        mdbSerialize key ≠ [] ∧ (x.indexes ≠ [] → mdbSerialize value ≠ []) := by
      refine Regime.mayThrow_or fun hr => ?_
      simpa only [hrefuse, Indexed.Refuses, not_or, not_and] using hr
    refine (atomic_inTransaction (leaves_eraseKVTxn_main hne)).map fun b dbs' ⟨hdbs', hb⟩ =>
      ⟨S \ {(key, value)}, ⟨⟨b, rfl, hb.trans (h.exists_pair_iff hc.1 hc.2)⟩, rfl⟩, ?_⟩
    rw [hdbs']
    exact h.eraseKV hc.1 hc.2
  | erase key =>
    have hne : g.MayThrow ∨ mdbSerialize key ≠ [] ∧
        (x.indexes ≠ [] → ∀ w ∈ valuesOf (dbs x.main) (mdbSerialize key), w ≠ []) := by
      refine Regime.mayThrow_or fun hr => ?_
      simp only [hrefuse, Indexed.Refuses, not_or, not_and, not_exists] at hr
      refine ⟨hr.1, fun hindexes w hw hempty => ?_⟩
      obtain ⟨p, hp, heq⟩ := (h.mem _).mp (mem_valuesOf.mp hw)
      obtain ⟨h1, h2⟩ := Prod.mk.inj heq
      obtain rfl := serialize_injective hc (h.storable p hp).1 h1
      exact hr.2 hindexes p.2 hp (h2.symm.trans hempty)
    refine (atomic_inTransaction (leaves_eraseTxn_main hne)).map fun b dbs' ⟨hdbs', hb⟩ =>
      ⟨{e ∈ S | e.1 ≠ key}, ⟨⟨b, rfl, hb.trans (h.exists_key_iff hc)⟩, rfl⟩, ?_⟩
    rw [hdbs']
    exact h.erase hc
  | first key =>
    have hfits : g.MayThrow ∨ g.Fits (mdbSerialize key) := by
      refine Regime.mayThrow_or fun hr => ?_
      simp only [hrefuse, Indexed.Refuses, not_or, not_lt] at hr
      rw [Regime.Fits, hmax]
      exact hr
    refine (atomic_inTransaction (leaves_firstTxn h hc hfits)).map
      fun r dbs' ⟨⟨values, hvalues, hr⟩, hdbs'⟩ =>
        ⟨S, ⟨⟨values, hvalues, congrArg _ hr⟩, rfl⟩, ?_⟩
    rw [hdbs']
    exact h
  | all key visitor =>
    have hne : g.MayThrow ∨ mdbSerialize key ≠ [] :=
      Regime.mayThrow_or fun hr => by simpa only [hrefuse, Indexed.Refuses] using hr
    refine (atomic_inTransaction (leaves_allTxn h hc hne visitor)).map
      fun r dbs' ⟨⟨values, hvalues, hr⟩, hdbs'⟩ =>
        ⟨S, ⟨⟨values, hvalues, congrArg _ hr⟩, rfl⟩, ?_⟩
    rw [hdbs']
    exact h

/-- A program, where a call may fail or none does. -/
theorem runs_of_failures (x : Indexed) (cs : List (Mdb.Call K V)) (hcs : ∀ c ∈ cs, c.Storable)
    (env : Env) (S : Set (K × V)) (h : Represents (env.databases x.main) S) {mayFail : Prop}
    (hfail : mayFail ∨ ∀ f ∈ env.failures, f = none) :
    ∃ S', Multimap.Runs (fun S c => mayFail ∨ x.Refuses env.maxKeySize S c) S cs
        (x.mdb.run cs env).1 S' ∧
      Represents ((x.mdb.run cs env).2.databases x.main) S' := by
  induction cs generalizing env S with
  | nil => exact ⟨S, .nil S, h⟩
  | cons c cs ih =>
    obtain ⟨hc, hcs⟩ := List.forall_mem_cons.mp hcs
    have hcall := atomic_call h hc (n := env.maxKeySize) env rfl ⟨rfl, hfail⟩
    rw [wp] at hcall
    rw [Mdb.run]
    cases hx : x.mdb.call c env with
    | ok r env' =>
      rw [hx] at hcall
      obtain ⟨⟨S₁, hgives, hrep⟩, hmax, hfail'⟩ := hcall
      obtain ⟨S', hruns, hrep'⟩ := ih hcs env' S₁ hrep hfail'
      rw [show env'.maxKeySize = env.maxKeySize from hmax] at hruns
      exact ⟨S', .returns hgives hruns, hrep'⟩
    | throw e env' =>
      rw [hx] at hcall
      obtain ⟨hdbs', hthrow, hmax, hfail'⟩ := hcall
      obtain ⟨S', hruns, hrep'⟩ := ih hcs env' S (by rw [hdbs']; exact h) hfail'
      rw [show env'.maxKeySize = env.maxKeySize from hmax] at hruns
      exact ⟨S', .throws hthrow hruns, hrep'⟩
    | fault f =>
      rw [hx] at hcall
      exact hcall.elim

end Operations

end Glim
