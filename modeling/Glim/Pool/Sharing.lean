import Glim.Machine.Cells
import Glim.Machine.Run
import Glim.Pool.Variants

/-!
# Shared pools

A copy of a pool shares its `Impl`, so that a program with several pools reads and writes the fields
of one pool through all of them, in whatever order the calls come. But a pool has no `Impl` before
something is set: a copy that is made then is a pool of its own.

## Main definitions

* `Pools`: the pools of a program
* `SerializablePoolTpl.Call`: the methods, with `reserve`
* `Pools.trace`: the calls of a program, and what is seen of them

## Main results

* `Pools.copies_as_one_iff`: when a pool and its copies are as one pool
-/

namespace Glim.Pool

open Machine Exec

/-! ## The methods -/

namespace SerializablePoolTpl

variable {PI : Type} [Pointer PI]

/-- `reserve (fields)`: there is room for them, which changes nothing else. -/
def reserve (_fields : UInt32) : Exec PI Result := do
  modify Pointer.instantiate
  through do
    let impl ← get
    when impl.readOnly (raise "Attempt to modify a read-only SerializablePool")

/-- The methods. -/
inductive Call where
  | op (op : Op)
  | reserve (fields : UInt32)
  deriving DecidableEq, Repr

/-- A call of a method. -/
def method : Call → Exec SharedPtr Result
  | .op op => call op
  | .reserve fields => reserve fields

/-- What is seen of a call that ends so. -/
def Seen.of {σ : Type} : Outcome σ Result → Seen
  | .ok r _ => .returned r
  | .throw e _ => .threw e
  | .fault f => .faulted f

/-- What a sequence of calls on one pool gives, up to a fault. -/
def alone : List Call → SharedPtr → List Seen
  | [], _ => []
  | c :: cs, pi =>
    match method c pi with
    | .ok r pi' => .returned r :: alone cs pi'
    | .throw e pi' => .threw e :: alone cs pi'
    | .fault f => [.faulted f]

end SerializablePoolTpl

open SerializablePoolTpl

/-! ## The pools of a program -/

/-- The pools of a program and their `Impl`s. -/
abbrev Pools (ι : Type) : Type := Cells ι Impl

namespace Pools

variable {ι : Type} [DecidableEq ι]

/-- What a program does. -/
inductive Label (ι : Type) where
  /-- The pool is `SerializablePool()` or `SerializablePool (poolBytes)` from now on. -/
  | construct (t : ι) (poolBytes : Option (List UInt8))
  /-- `u` is a copy of `t` from now on. -/
  | copy (t u : ι)
  | call (t : ι) (c : SerializablePoolTpl.Call)
  deriving DecidableEq, Repr

/-- The pool that is constructed or assigned. -/
def Label.assigned : Label ι → Option ι
  | .construct t _ => some t
  | .copy _ u => some u
  | .call _ _ => none

/-- The pool is constructed. -/
def construct (t : ι) (poolBytes : Option (List UInt8)) (s : Pools ι) : Pools ι :=
  match poolBytes with
  | none => s.clear t
  | some poolBytes => s.new t (.ofBytes poolBytes)

/-- The pointer of the pool. -/
def ptr (t : ι) (s : Pools ι) : SharedPtr := ⟨s.read t⟩

/-- A call of a method of the pool. -/
def call (t : ι) (c : SerializablePoolTpl.Call) : Exec (Pools ι) Result :=
  zoom (ptr t) (fun pi s => s.store t pi.impl) (method c)

/-- What the program does, as a program. -/
def exec : Label ι → Exec (Pools ι) Result
  | .construct t poolBytes => fun s => .ok .done (construct t poolBytes s)
  | .copy t u => fun s => .ok .done (s.copy t u)
  | .call t c => call t c

/-- A call: the pools before it, the pool whose method is called, and what is seen of it. -/
structure Event (ι : Type) where
  pools : Pools ι
  pool : ι
  call : SerializablePoolTpl.Call
  seen : Seen

/-- The call in what a program does, if it is one. -/
def Label.events (l : Label ι) (s : Pools ι) : List (Event ι) :=
  match l with
  | .call t c => [⟨s, t, c, .of (exec l s)⟩]
  | _ => []

/-- The calls of a program, up to a fault. -/
def trace : List (Label ι) → Pools ι → List (Event ι)
  | [], _ => []
  | l :: ls, s =>
    match exec l s with
    | .ok _ s' => l.events s ++ trace ls s'
    | .throw _ s' => l.events s ++ trace ls s'
    | .fault _ => l.events s

/-- The call is made through a pool with the `Impl` at `a`. -/
def Event.through (a : ℕ) (e : Event ι) : Bool := e.pools.target e.pool = some a

/-- The call is made through `u`, or through a pool with the `Impl` of `t`. -/
def Event.shared (t u : ι) (e : Event ι) : Bool :=
  e.pool = u ∨ e.pools.target e.pool = e.pools.target t

/-- No pool among `ts` is constructed or assigned. -/
def Holds (ts : List ι) (ls : List (Label ι)) : Prop :=
  ∀ l ∈ ls, ∀ t ∈ ts, l.assigned ≠ some t

variable {s : Pools ι} {t u : ι} {a : ℕ} {impl : Impl} {ls : List (Label ι)}
  {c : SerializablePoolTpl.Call}

/-! ## One call -/

theorem leaves_reading {pi pi' : SharedPtr} {r : Option Result}
    (h : (reading r pi).Leaves pi') : pi' = pi := by
  cases r with
  | none => exact h.elim
  | some r => exact h.symm

theorem leaves_deref {pi : SharedPtr} {f : Impl → Option Result}
    (h : (deref f (⟨some impl⟩ : SharedPtr)).Leaves pi) : pi = ⟨some impl⟩ := by
  rw [deref_of_get (f := f) (show Pointer.get (⟨some impl⟩ : SharedPtr) = some impl from rfl)] at h
  exact leaves_reading h

theorem leaves_derefOr {pi : SharedPtr} {r : Result} {f : Impl → Option Result}
    (h : (derefOr r f (⟨some impl⟩ : SharedPtr)).Leaves pi) : pi = ⟨some impl⟩ := by
  rw [derefOr_of_get r (show Pointer.get (⟨some impl⟩ : SharedPtr) = some impl from rfl)] at h
  exact leaves_reading h

theorem leaves_through {pi : SharedPtr} {x : Exec Impl Unit}
    (h : (through x (⟨some impl⟩ : SharedPtr)).Leaves pi) : ∃ impl', pi = ⟨some impl'⟩ := by
  rw [through.eq_def] at h
  dsimp only [Pointer.get] at h
  cases hx : x impl with
  | ok r impl' =>
    rw [hx] at h
    exact ⟨impl', h.symm⟩
  | throw e impl' =>
    rw [hx] at h
    exact ⟨impl', h.symm⟩
  | fault f =>
    rw [hx] at h
    exact h.elim

/-- A pool with an `Impl` has one after a call. -/
theorem exists_impl_of_leaves {pi : SharedPtr} (h : (method c ⟨some impl⟩).Leaves pi) :
    ∃ impl', pi = ⟨some impl'⟩ := by
  cases c with
  | op o =>
    rw [method] at h
    cases o with
    | set num value => exact leaves_through h
    | current num => exact ⟨impl, leaves_derefOr h⟩
    | size => exact ⟨impl, leaves_derefOr h⟩
    | _ => exact ⟨impl, leaves_deref h⟩
  | reserve fields => exact leaves_through h

/-! ## One `Impl` -/

section Through

omit [DecidableEq ι] in
theorem ptr_of_target (h : s.target t = some a) (himpl : s.cells[a]? = some impl) :
    s.ptr t = ⟨some impl⟩ :=
  congrArg SharedPtr.mk ((Cells.read_of_target h).trans himpl)

/-- What is behind a pool goes on in its `Impl`. -/
theorem getElem?_store (h : s.target t = some a) {impl' : Impl} :
    (s.store t (some impl')).cells[a]? = some impl' := by
  rw [Cells.cells_store h]
  exact List.getElem?_set_self (s.bound t a h)

/-- A call through a pool is a call of the method, and its pool is stored. -/
theorem leaves_call {pi : SharedPtr} (h : (method c (s.ptr t)).Leaves pi) :
    (call t c s).Leaves (s.store t pi.impl) := by
  rw [call, zoom]
  rcases h.eq_ok_or_throw with ⟨r, hx⟩ | ⟨e, hx⟩
  · rw [hx]
    rfl
  · rw [hx]
    rfl

theorem exists_of_leaves_call {s' : Pools ι} (h : (call t c s).Leaves s') :
    ∃ impl, s.store t impl = s' := by
  rw [call, zoom] at h
  cases hx : method c (s.ptr t) with
  | ok r pi =>
    rw [hx] at h
    exact ⟨_, h⟩
  | throw e pi =>
    rw [hx] at h
    exact ⟨_, h⟩
  | fault f =>
    rw [hx] at h
    exact h.elim

/-- What is seen of the call is what is seen of the method. -/
theorem seen_call (t : ι) (c : SerializablePoolTpl.Call) (s : Pools ι) :
    Seen.of (call t c s) = .of (method c (s.ptr t)) := by
  rw [call, zoom]
  cases method c (s.ptr t) <;> rfl

theorem trace_of_leaves {l : Label ι} {s' : Pools ι} (hx : (exec l s).Leaves s') :
    trace (l :: ls) s = l.events s ++ trace ls s' := by
  rcases hx.eq_ok_or_throw with ⟨r, hx⟩ | ⟨e, hx⟩
  · rw [trace, hx]
  · rw [trace, hx]

theorem trace_of_fault {l : Label ι} {f : Fault} (hx : exec l s = .fault f) :
    trace (l :: ls) s = l.events s := by
  rw [trace, hx]

theorem alone_of_leaves {pi pi' : SharedPtr} {cs : List SerializablePoolTpl.Call}
    (hx : (method c pi).Leaves pi') : alone (c :: cs) pi = .of (method c pi) :: alone cs pi' := by
  rcases hx.eq_ok_or_throw with ⟨r, hx⟩ | ⟨e, hx⟩
  · rw [alone, hx]
    rfl
  · rw [alone, hx]
    rfl

/-- The calls that are made through the pools with one `Impl` give what they give on one pool,
whatever is done with the others in between. -/
theorem seen_through (ls : List (Label ι)) (himpl : s.cells[a]? = some impl) :
    ((trace ls s).filter (Event.through a)).map Event.seen =
      alone (((trace ls s).filter (Event.through a)).map Event.call) ⟨some impl⟩ := by
  -- the `Impl` is the one that the calls on one pool have left
  induction ls generalizing s impl with
  | nil => rfl
  | cons l ls ih =>
    cases l with
    | construct u poolBytes =>
      refine ih (s := construct u poolBytes s) ?_
      cases poolBytes with
      | none => exact himpl
      | some poolBytes => exact Cells.getElem?_new himpl
    | copy u v => exact ih (s := s.copy u v) himpl
    | call u c =>
      by_cases hu : s.target u = some a
      · -- the call is one of those on the one pool
        have hthrough : ((Label.call u c).events s).filter (Event.through a) =
            [⟨s, u, c, .of (method c ⟨some impl⟩)⟩] := by
          rw [← ptr_of_target hu himpl, ← seen_call]
          exact List.filter_cons_of_pos (decide_eq_true hu)
        rcases (method c ⟨some impl⟩).leaves_or_fault with ⟨pi, hx⟩ | ⟨f, hx⟩
        · obtain ⟨impl', rfl⟩ := exists_impl_of_leaves hx
          have hleaves : (call u c s).Leaves (s.store u (some impl')) :=
            leaves_call (by rwa [ptr_of_target hu himpl])
          rw [trace_of_leaves hleaves, List.filter_append, hthrough, List.map_append,
            List.map_append, List.map_singleton, List.map_singleton, List.singleton_append,
            List.singleton_append, alone_of_leaves hx]
          exact congrArg _ (ih (getElem?_store hu))
        · have hfault : exec (.call u c) s = .fault f := by
            rw [exec, call, zoom, ptr_of_target hu himpl, hx]
          rw [trace_of_fault hfault, hthrough, List.map_singleton, List.map_singleton, alone, hx]
          rfl
      · have hthrough : ((Label.call u c).events s).filter (Event.through a) = [] :=
          List.filter_cons_of_neg (by simpa [Event.through] using hu)
        rcases (call u c s).leaves_or_fault with ⟨s', hx⟩ | ⟨f, hx⟩
        · rw [trace_of_leaves hx, List.filter_append, hthrough, List.nil_append]
          obtain ⟨impl', rfl⟩ := exists_of_leaves_call hx
          exact ih (Cells.getElem?_store_of_ne hu himpl)
        · rw [trace_of_fault (l := .call u c) hx, hthrough]
          rfl

/-- What everything in a program keeps, holds before all of its calls. -/
theorem forall_mem_trace {I : Pools ι → Prop}
    (hstep : ∀ l ∈ ls, ∀ s s', I s → (exec l s).Leaves s' → I s') (hs : I s) :
    ∀ e ∈ trace ls s, I e.pools := by
  induction ls generalizing s with
  | nil => simp [trace]
  | cons l ls ih =>
    have hevents : ∀ e ∈ l.events s, I e.pools := by
      intro e he
      cases l with
      | call t c =>
        obtain rfl := List.mem_singleton.mp he
        exact hs
      | _ => cases he
    intro e he
    rcases (exec l s).leaves_or_fault with ⟨s', hx⟩ | ⟨f, hx⟩
    · rw [trace_of_leaves hx] at he
      rcases List.mem_append.mp he with he | he
      · exact hevents e he
      · exact ih (fun l hl => hstep l (List.mem_cons_of_mem _ hl))
          (hstep l List.mem_cons_self s s' hs hx) e he
    · rw [trace_of_fault hx] at he
      exact hevents e he

/-- A pool that is not assigned keeps its `Impl`. -/
theorem target_of_leaves {l : Label ι} {s' : Pools ι} (hl : l.assigned ≠ some t)
    (h : s.target t = some a) (hx : (exec l s).Leaves s') : s'.target t = some a := by
  cases l with
  | construct u poolBytes =>
    have hu : t ≠ u := fun hu => hl (congrArg some hu.symm)
    obtain rfl : construct u poolBytes s = s' := hx
    cases poolBytes <;> exact (Function.update_of_ne hu _ _).trans h
  | copy u v =>
    have hv : t ≠ v := fun hv => hl (congrArg some hv.symm)
    obtain rfl : s.copy u v = s' := hx
    exact (Function.update_of_ne hv _ _).trans h
  | call u c =>
    obtain ⟨impl', rfl⟩ := exists_of_leaves_call hx
    by_cases hu : t = u
    · rw [← hu, Cells.target_store h]
      exact h
    · rw [Cells.target_store_of_ne hu]
      exact h

end Through

/-! ## Copies -/

section Copies

/-- **A pool and its copy are as one pool**, in every program in which the two are not assigned, if
and only if the pool has an `Impl` when it is copied: whatever is called through the one, the other,
or another copy, in any order and with anything in between, gives what it gives on one pool. -/
theorem copies_as_one_iff (s : Pools ι) (t u : ι) (htu : t ≠ u) :
    (∀ ls, Holds [t, u] ls →
      ((trace ls (s.copy t u)).filter (Event.shared t u)).map Event.seen =
        alone (((trace ls (s.copy t u)).filter (Event.shared t u)).map Event.call) (s.ptr t)) ↔
      (s.read t).isSome := by
  constructor
  · intro h
    rw [← Bool.not_eq_false, Option.isSome_eq_false_iff, Option.isNone_iff_eq_none]
    intro hnull
    have htarget : s.target t = none := by
      rw [← Option.isNone_iff_eq_none, ← Option.isSome_eq_false_iff, ← Cells.isSome_read, hnull]
      rfl
    have hls : Holds [t, u] [.call t (.op (.set 0 [1])), .call u (.op (.current 0))] := by
      simp [Holds, Label.assigned]
    -- setting a field of the one makes an `Impl` of its own for it
    have ht : ptr t (s.copy t u) = ⟨none⟩ :=
      congrArg SharedPtr.mk (Cells.read_of_null ((Function.update_of_ne htu _ _).trans htarget))
    have hset : call t (.op (.set 0 [1])) (s.copy t u) = .ok .done
        ((s.copy t u).store t (some { changed := [true], changes := [[1]] })) := by
      rw [call, zoom, ht]
      rfl
    have hu : ptr u ((s.copy t u).store t (some { changed := [true], changes := [[1]] })) =
        ⟨none⟩ := by
      refine congrArg SharedPtr.mk (Cells.read_of_null ?_)
      rw [Cells.target_store_of_ne htu.symm]
      exact (Function.update_self ..).trans htarget
    have hcurrent : call u (.op (.current 0))
        ((s.copy t u).store t (some { changed := [true], changes := [[1]] })) = .ok (.field [])
        ((s.copy t u).store t (some { changed := [true], changes := [[1]] })) := by
      rw [call, zoom, hu]
      rfl
    have htrace : trace [.call t (.op (.set 0 [1])), .call u (.op (.current 0))] (s.copy t u) =
        [⟨s.copy t u, t, .op (.set 0 [1]), .returned .done⟩,
          ⟨(s.copy t u).store t (some { changed := [true], changes := [[1]] }), u, .op (.current 0),
            .returned (.field [])⟩] := by
      simp only [trace, Label.events, exec, hset, hcurrent, Seen.of, List.append_nil,
        List.singleton_append]
    specialize h _ hls
    rw [htrace, List.filter_cons_of_pos (by simp [Event.shared]),
      List.filter_cons_of_pos (by simp [Event.shared]), ptr, hnull] at h
    have hseen := (List.cons.inj (List.cons.inj h).2).1
    cases hseen
  · intro hsome ls hls
    obtain ⟨impl, himpl⟩ := Option.isSome_iff_exists.mp hsome
    obtain ⟨a, ht, ha⟩ := Cells.exists_target_of_read himpl
    have hcopyt : (s.copy t u).target t = some a := (Function.update_of_ne htu _ _).trans ht
    have hcopyu : (s.copy t u).target u = some a := (Function.update_self ..).trans ht
    -- the pools keep their `Impl`, so that the calls are those through the pools with it
    have htrace := forall_mem_trace (I := fun s => s.target t = some a ∧ s.target u = some a)
      (fun l hl s s' h hx => ⟨target_of_leaves (hls l hl t (by simp)) h.1 hx,
        target_of_leaves (hls l hl u (by simp)) h.2 hx⟩) ⟨hcopyt, hcopyu⟩
    have hfilter : (trace ls (s.copy t u)).filter (Event.shared t u) =
        (trace ls (s.copy t u)).filter (Event.through a) := by
      refine List.filter_congr fun e he => ?_
      obtain ⟨het, heu⟩ := htrace e he
      rw [Event.shared, Event.through, het, decide_eq_decide]
      exact ⟨fun h => h.elim (fun h => h ▸ heu) id, Or.inr⟩
    rw [hfilter, ptr_of_target ht ha]
    exact seen_through ls ha

/-- Of the first of two pools that is made from bytes. -/
theorem copies_as_one_loaded :
    (∀ ls, Holds [0, 1] ls →
      ((trace ls ((construct 0 (some [0, 0, 0, 4]) (.empty : Pools ℕ)).copy 0 1)).filter
        (Event.shared 0 1)).map Event.seen =
        alone (((trace ls ((construct 0 (some [0, 0, 0, 4]) (.empty : Pools ℕ)).copy 0 1)).filter
          (Event.shared 0 1)).map Event.call) ⟨some (.ofBytes [0, 0, 0, 4])⟩) ∧
      0 ≠ 1 :=
  ⟨(copies_as_one_iff (construct 0 (some [0, 0, 0, 4]) .empty) 0 1 (by decide)).mpr rfl, by decide⟩

end Copies

end Pools

end Glim.Pool
