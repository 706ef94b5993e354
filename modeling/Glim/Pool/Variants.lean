import Glim.Pool.Basic

/-!
# The two variants of the pool

A pool has its `Impl` inside, or behind a pointer that is null until something is set. Some
methods test the pointer and the others do not: on a pool without an `Impl` these dereference
null. The two variants are interchangeable for a pool made from bytes, and for one that is only
asked for its size and its current fields before the first `set`.

## Main definitions

* `Pointer`, `SharedPtr`, `InlinePtr`: the two ways to the `Impl`
* `SerializablePoolTpl.call`, `SerializablePoolTpl.results`: a call of a method, and what a
  sequence of calls gives

## Main results

* `results_eq_of_get`: with an `Impl` the two variants give the same results
* `variants_agree_iff`: when the two variants give the same results
-/

namespace Glim.Pool

open Machine Exec Text

/-! ## The pointers -/

/-- What the pool needs of its template parameter `PI`. -/
class Pointer (PI : Type) where
  /-- `PI()` -/
  new : PI
  /-- `PI (poolBytes)` -/
  ofBytes : List UInt8 → PI
  /-- `get()`: what the pointer points to, `none` for null. -/
  get : PI → Option Impl
  /-- The pointer after `instance()`. -/
  instantiate : PI → PI
  /-- Writing to what the pointer points to. -/
  put : Impl → PI → PI
  instantiate_eq : ∀ {pi : PI} {impl : Impl}, get pi = some impl → instantiate pi = pi
  get_put : ∀ {pi : PI} {impl impl' : Impl}, get pi = some impl → get (put impl' pi) = some impl'

/-- A `shared_ptr`, null at first. -/
structure SharedPtr where
  impl : Option Impl := none
  deriving DecidableEq, Repr

instance : Pointer SharedPtr where
  new := {}
  ofBytes poolBytes := ⟨some (.ofBytes poolBytes)⟩
  get pi := pi.impl
  instantiate pi := if pi.impl.isNone then ⟨some {}⟩ else pi
  put impl pi := if pi.impl.isNone then pi else ⟨some impl⟩
  instantiate_eq h := by rw [h]; rfl
  get_put h := by rw [h]; rfl

/-- The `Impl` itself. -/
structure InlinePtr where
  impl : Impl := {}
  deriving DecidableEq, Repr

instance : Pointer InlinePtr where
  new := {}
  ofBytes poolBytes := ⟨.ofBytes poolBytes⟩
  get pi := some pi.impl
  instantiate pi := pi
  put impl _ := ⟨impl⟩
  instantiate_eq _ := rfl
  get_put _ := rfl

/-! ## The pool -/

/-- What a method returns. -/
inductive Result where
  | done
  | field (value : List UInt8)
  /-- A pointer into the pool: the bytes from there on. -/
  | cstring (bytes : List UInt8)
  | flag (b : Bool)
  | number (n : UInt32)
  | bytes (visits : List Visit) (newPool : List UInt8)
  | delta (visits : List Visit) (saved : Bool) (newPool : List UInt8)
  deriving DecidableEq, Repr

namespace SerializablePoolTpl

variable {PI PI' : Type} [Pointer PI] [Pointer PI']

/-- `SerializablePoolTpl()` or `SerializablePoolTpl (poolBytes)`. -/
def construct : Option (List UInt8) → PI
  | none => Pointer.new
  | some poolBytes => Pointer.ofBytes poolBytes

/-- What is read from the `Impl`; undefined behaviour is a fault. -/
def reading (r : Option Result) : Exec PI Result :=
  match r with
  | some r => pure r
  | none => fail .outOfBounds

/-- A method that dereferences the pointer. -/
def deref (f : Impl → Option Result) : Exec PI Result := do
  let pi ← get
  match Pointer.get pi with
  | some impl => reading (f impl)
  | none => fail .nullPointer

/-- A method that returns `r` if the pointer is null. -/
def derefOr (r : Result) (f : Impl → Option Result) : Exec PI Result := do
  let pi ← get
  match Pointer.get pi with
  | some impl => reading (f impl)
  | none => pure r

/-- A method that changes the `Impl`. -/
def through (x : Exec Impl Unit) : Exec PI Result := fun pi =>
  match Pointer.get pi with
  | some impl =>
    match x impl with
    | .ok _ impl' => .ok .done (Pointer.put impl' pi)
    | .throw e impl' => .throw e (Pointer.put impl' pi)
    | .fault f => .fault f
  | none => .fault .nullPointer

def original (num : UInt32) : Exec PI Result :=
  deref fun impl => (Pool.original impl.pool num).map .field

/-- The field is empty, or the pointer is to where it begins in the pool. -/
def cstringOriginal (num : UInt32) : Exec PI Result :=
  deref fun impl => do
    let gs ← Pool.original impl.pool num
    if gs = [] then some (.cstring [])
    else do
      let valueOffset ← wordAt impl.pool (4 + num * 4).toNat
      some (.cstring (impl.pool.drop valueOffset.toNat))

def current (num : UInt32) : Exec PI Result :=
  derefOr (.field []) fun impl => (impl.current num).map .field

def set (num : UInt32) (value : List UInt8) : Exec PI Result := do
  modify Pointer.instantiate
  through (Impl.set num value)

def toBytes (visiting : Bool) : Exec PI Result :=
  deref fun impl => (impl.toBytes visiting).map fun r => .bytes r.1 r.2

def toBytesDelta (oldPool : List UInt8) (visiting : Bool) : Exec PI Result :=
  deref fun impl => (impl.toBytesDelta oldPool visiting).map fun r => .delta r.1 r.2.1 r.2.2

/-- `changed (num)` -/
def changedField (num : UInt32) : Exec PI Result :=
  deref fun impl => some (.flag (impl.isChanged num.toNat))

/-- `changed()` -/
def changed : Exec PI Result := deref fun impl => some (.flag !impl.changed.isEmpty)

def size : Exec PI Result := derefOr (.number 0) fun impl => impl.size.map .number

/-- The methods. -/
inductive Op where
  | set (num : UInt32) (value : List UInt8)
  | current (num : UInt32)
  | original (num : UInt32)
  | cstringOriginal (num : UInt32)
  | changedField (num : UInt32)
  | changed
  | size
  | toBytes (visiting : Bool)
  | toBytesDelta (oldPool : List UInt8) (visiting : Bool)
  deriving DecidableEq, Repr

/-- A call of a method. -/
def call : Op → Exec PI Result
  | .set num value => set num value
  | .current num => current num
  | .original num => original num
  | .cstringOriginal num => cstringOriginal num
  | .changedField num => changedField num
  | .changed => changed
  | .size => size
  | .toBytes visiting => toBytes visiting
  | .toBytesDelta oldPool visiting => toBytesDelta oldPool visiting

/-- What the caller sees of a call. -/
inductive Seen where
  | returned (r : Result)
  | threw (message : String)
  | faulted (f : Fault)
  deriving DecidableEq, Repr

/-- What a sequence of calls gives, up to a fault. -/
def results : List Op → PI → List Seen
  | [], _ => []
  | op :: ops, pi =>
    match call op pi with
    | .ok r pi' => .returned r :: results ops pi'
    | .throw e pi' => .threw e :: results ops pi'
    | .fault f => [.faulted f]

def Op.isSet : Op → Bool
  | .set _ _ => true
  | _ => false

/-- The method tests the pointer before it dereferences it. -/
def Op.tests : Op → Bool
  | .current _ => true
  | .size => true
  | _ => false

/-! ## With an `Impl` -/

/-- The same outcome, with the same `Impl`, and no null pointer in it. -/
inductive Same : Outcome PI Result → Outcome PI' Result → Prop
  | ok {pi : PI} {pi' : PI'} {impl : Impl} (r : Result) (hget : Pointer.get pi = some impl)
      (hget' : Pointer.get pi' = some impl) : Same (.ok r pi) (.ok r pi')
  | throw {pi : PI} {pi' : PI'} {impl : Impl} (e : String) (hget : Pointer.get pi = some impl)
      (hget' : Pointer.get pi' = some impl) : Same (.throw e pi) (.throw e pi')
  | fault {f : Fault} (hf : f ≠ .nullPointer) : Same (.fault f) (.fault f)

section Same

variable {pi : PI} {pi' : PI'} {impl : Impl} {f : Impl → Option Result}

theorem same_reading (r : Option Result) (hget : Pointer.get pi = some impl)
    (hget' : Pointer.get pi' = some impl) : Same (reading r pi) (reading r pi') := by
  cases r with
  | none => exact .fault nofun
  | some r => exact .ok r hget hget'

theorem deref_of_get (hget : Pointer.get pi = some impl) : deref f pi = reading (f impl) pi := by
  simp only [deref, bind, Exec.get, hget]

theorem derefOr_of_get (r : Result) (hget : Pointer.get pi = some impl) :
    derefOr r f pi = reading (f impl) pi := by
  simp only [derefOr, bind, Exec.get, hget]

theorem deref_of_null (hnull : Pointer.get pi = none) : deref f pi = .fault .nullPointer := by
  simp only [deref, bind, Exec.get, hnull]
  rfl

theorem derefOr_of_null (r : Result) (hnull : Pointer.get pi = none) :
    derefOr r f pi = .ok r pi := by
  simp only [derefOr, bind, Exec.get, hnull]
  rfl

theorem same_deref (hget : Pointer.get pi = some impl) (hget' : Pointer.get pi' = some impl) :
    Same (deref f pi) (deref f pi') := by
  rw [deref_of_get hget, deref_of_get hget']
  exact same_reading (f impl) hget hget'

theorem same_derefOr (r : Result) (hget : Pointer.get pi = some impl)
    (hget' : Pointer.get pi' = some impl) : Same (derefOr r f pi) (derefOr r f pi') := by
  rw [derefOr_of_get r hget, derefOr_of_get r hget']
  exact same_reading (f impl) hget hget'

/-- What the two do to the `Impl` is the same. -/
theorem same_through {x : Exec Impl Unit} (hx : x impl ≠ .fault .nullPointer)
    (hget : Pointer.get pi = some impl) (hget' : Pointer.get pi' = some impl) :
    Same (through x pi) (through x pi') := by
  simp only [through, hget, hget']
  cases h : x impl with
  | ok a impl' => exact .ok .done (Pointer.get_put hget) (Pointer.get_put hget')
  | throw e impl' => exact .throw e (Pointer.get_put hget) (Pointer.get_put hget')
  | fault f => exact .fault fun hf => hx (by rw [h, hf])

theorem set_ne_nullPointer (num : UInt32) (value : List UInt8) :
    Impl.set num value impl ≠ .fault .nullPointer := by
  have hwp : wp (Impl.set num value) (fun _ _ => True) (fun _ _ => True) (· ≠ .nullPointer)
      impl := by
    simp [Impl.set]
  intro h
  rw [wp, h] at hwp
  exact hwp rfl

theorem same_call (op : Op) (hget : Pointer.get pi = some impl)
    (hget' : Pointer.get pi' = some impl) : Same (call op pi) (call op pi') := by
  -- `set` is the only method that makes an `Impl`, and there is one
  cases op with
  | set num value =>
    change Same (through _ (Pointer.instantiate pi)) (through _ (Pointer.instantiate pi'))
    rw [Pointer.instantiate_eq hget, Pointer.instantiate_eq hget']
    exact same_through (set_ne_nullPointer num value) hget hget'
  | current num => exact same_derefOr _ hget hget'
  | original num => exact same_deref hget hget'
  | cstringOriginal num => exact same_deref hget hget'
  | changedField num => exact same_deref hget hget'
  | changed => exact same_deref hget hget'
  | size => exact same_derefOr _ hget hget'
  | toBytes visiting => exact same_deref hget hget'
  | toBytesDelta oldPool visiting => exact same_deref hget hget'

/-- **With an `Impl`** the two variants give the same results, and no null pointer is
dereferenced. -/
theorem results_eq_of_get (ops : List Op) (hget : Pointer.get pi = some impl)
    (hget' : Pointer.get pi' = some impl) : results ops pi = results ops pi' ∧
      Seen.faulted .nullPointer ∉ results ops pi := by
  -- the `Impl` after a call is that of the other variant, too
  induction ops generalizing pi pi' impl with
  | nil => exact ⟨rfl, nofun⟩
  | cons op ops ih =>
    have h := same_call op hget hget'
    rw [results, results]
    generalize call op pi = x at h
    generalize call op pi' = x' at h
    cases h with
    | ok r hget hget' =>
      obtain ⟨heq, hnull⟩ := ih hget hget'
      exact ⟨congrArg _ heq, List.not_mem_cons_of_ne_of_not_mem nofun hnull⟩
    | throw e hget hget' =>
      obtain ⟨heq, hnull⟩ := ih hget hget'
      exact ⟨congrArg _ heq, List.not_mem_cons_of_ne_of_not_mem nofun hnull⟩
    | fault hf =>
      refine ⟨rfl, fun hmem => hf ?_⟩
      cases List.mem_singleton.mp hmem
      rfl

end Same

/-! ## Without one -/

section Null

variable {op : Op} {ops : List Op}

/-- A method that tests the pointer takes a pool without an `Impl` for an empty one. -/
theorem call_of_tests (h : op.tests = true) : ∃ r,
    call op (⟨none⟩ : SharedPtr) = .ok r ⟨none⟩ ∧ call op (⟨{}⟩ : InlinePtr) = .ok r ⟨{}⟩ := by
  cases op with
  | current num => exact ⟨.field [], derefOr_of_null _ rfl, rfl⟩
  | size => exact ⟨.number 0, derefOr_of_null _ rfl, rfl⟩
  | _ => cases h

/-- A method that does not test the pointer dereferences null. -/
theorem call_of_not_tests (hset : op.isSet = false) (h : op.tests = false) :
    call op (⟨none⟩ : SharedPtr) = .fault .nullPointer := by
  cases op with
  | set num value => cases hset
  | current num => cases h
  | size => cases h
  | _ => exact deref_of_null rfl

/-- Setting a field makes an `Impl`. -/
theorem results_of_isSet (hset : op.isSet = true) :
    results (op :: ops) (⟨none⟩ : SharedPtr) = results (op :: ops) (⟨some {}⟩ : SharedPtr) := by
  cases op with
  | set num value => rfl
  | _ => cases hset

/-- A pool without an `Impl` is as an empty one if every call before the first `set` tests the
pointer. -/
theorem results_null_iff (ops : List Op) :
    (results ops (⟨none⟩ : SharedPtr) = results ops (⟨{}⟩ : InlinePtr) ∧
      Seen.faulted .nullPointer ∉ results ops (⟨none⟩ : SharedPtr)) ↔
      ∀ op ∈ ops.takeWhile fun op => !op.isSet, op.tests = true := by
  -- up to the first `set`, the pointer stays null
  induction ops with
  | nil => exact iff_of_true ⟨rfl, nofun⟩ nofun
  | cons op ops ih =>
    cases hset : op.isSet with
    | true =>
      rw [results_of_isSet hset, List.takeWhile_cons_of_neg (by simp [hset])]
      exact iff_of_true (results_eq_of_get (op :: ops) rfl rfl) nofun
    | false =>
      rw [List.takeWhile_cons_of_pos (by simp [hset]), List.forall_mem_cons]
      cases htests : op.tests with
      | true =>
        obtain ⟨r, hshared, hinline⟩ := call_of_tests htests
        simp [results, hshared, hinline, ih]
      | false =>
        simp [results, call_of_not_tests hset htests]

end Null

/-- **The two variants of a pool are interchangeable**, and none dereferences null, if and only if
the pool is made from bytes, or every call before the first `set` is one of `current` or `size`. -/
theorem variants_agree_iff (poolBytes : Option (List UInt8)) (ops : List Op) :
    (results ops (construct poolBytes : SharedPtr) = results ops (construct poolBytes : InlinePtr) ∧
      Seen.faulted .nullPointer ∉ results ops (construct poolBytes : SharedPtr)) ↔
      poolBytes ≠ none ∨ ∀ op ∈ ops.takeWhile fun op => !op.isSet, op.tests = true := by
  cases poolBytes with
  | none => exact (results_null_iff ops).trans (by simp)
  | some poolBytes => exact iff_of_true (results_eq_of_get ops rfl rfl) (Or.inl nofun)

/-- The original of a field of a pool that has none: the shared variant dereferences null, and the
inline one returns an empty field. -/
theorem variants_disagree :
    results [.original 0] (construct none : SharedPtr) = [.faulted .nullPointer] ∧
      results [.original 0] (construct none : InlinePtr) = [.returned (.field [])] :=
  ⟨rfl, rfl⟩

end SerializablePoolTpl

end Glim.Pool
