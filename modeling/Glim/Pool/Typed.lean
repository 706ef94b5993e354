import Glim.Ldb.Refinement
import Glim.Pool.Reads
import Mathlib.Logic.Function.Basic

/-!
# Typed fields

The fields of a pool can be serialized and deserialized like the values of the LevelDB wrapper.
A field that is read has the value that was stored last, apart from the empty string: a field that
was never stored is empty too, and `deserialize` leaves its argument alone then.

## Main definitions

* `Impl.serialize`, `Impl.deserialize`, `Impl.withField`: a field of some type
* `TypedCall`: the calls that store fields, each of one type
* `TypedCall.next`, `TypedCall.shown`: what a call stores, and what it shows to its visitor
* `TypedPool`: what the fields of a pool have stored

## Main results

* `exec_refines`: a call stores its value, and shows the value that was stored last
* `typed_fields`: after any calls, the fields have the values that were stored last
-/

namespace Glim

/-- The empty string. -/
def Datum.Empty : Datum → Prop
  | .gstring bytes => bytes = []
  | .string bytes => bytes = []
  | .uint32 _ => False

instance : DecidablePred Datum.Empty
  | .gstring _ => inferInstanceAs (Decidable (_ = _))
  | .string _ => inferInstanceAs (Decidable (_ = _))
  | .uint32 _ => inferInstanceAs (Decidable False)

/-- `T value`, which leaves a `uint32_t` indeterminate. -/
def Kind.initial (indeterminate : UInt32) : Kind → Datum
  | .gstring => .gstring []
  | .string => .string []
  | .uint32 => .uint32 indeterminate

namespace Pool

open Machine Exec Text

namespace Impl

/-- `current (num)`. -/
def read (num : UInt32) : Exec Impl (List UInt8) := do
  let impl ← get
  match impl.current num with
  | some bytes => pure bytes
  | none => fail .outOfBounds

/-- `ldbDeserialize (bytes, value)`: the new contents of `value`. -/
def deserializeBytes (bytes : List UInt8) (kind : Kind) : Exec Impl Datum :=
  match ldbDeserialize bytes kind with
  | .ok value => pure value
  | .error message => raise message

/-- `serialize (num, value)`. -/
def serialize (num : UInt32) (value : Datum) : Exec Impl Unit := set num (ldbSerialize [] value)

/-- `deserialize (num, value)`: what `value` is afterwards. -/
def deserialize (num : UInt32) (value : Datum) : Exec Impl Datum := do
  let bytes ← read num
  if bytes.length ≠ 0 then do
    let bytes ← read num
    deserializeBytes bytes value.kind
  else pure value

/-- `T value; if (fromBytes.length()) ldbDeserialize (fromBytes, value);` -/
def newValue (fromBytes : List UInt8) (kind : Kind) (indeterminate : UInt32) : Exec Impl Datum :=
  if fromBytes.length ≠ 0 then deserializeBytes fromBytes kind
  else pure (kind.initial indeterminate)

/-- `with (num, visitor)`: the value that the visitor is called with. -/
def withField (num : UInt32) (kind : Kind) (indeterminate : UInt32)
    (visitor : Datum → Datum × Bool) : Exec Impl Datum := do
  let fromBytes ← read num
  let value ← newValue fromBytes kind indeterminate
  let visited := visitor value
  when visited.2 (serialize num visited.1)
  pure value

end Impl

/-! ## Calls -/

/-- The value is of the type, and a gstring can hold it. -/
def Typed (kind : Kind) (value : Datum) : Prop := value.kind = kind ∧ value.Short

/-- A visitor of the values of a type. -/
structure Visitor (kind : Kind) where
  run : Datum → Datum × Bool
  typed : ∀ value, Typed kind value → Typed kind (run value).1

/-- A call that stores a field, or may do so. Every field has one type. -/
inductive TypedCall (kinds : UInt32 → Kind)
  | serialize (num : UInt32) (value : Datum) (typed : Typed (kinds num) value)
  | withField (num : UInt32) (indeterminate : UInt32) (visitor : Visitor (kinds num))

namespace TypedCall

variable {kinds : UInt32 → Kind}

/-- The field of the call. -/
def num : TypedCall kinds → UInt32
  | .serialize num _ _ => num
  | .withField num _ _ => num

/-- Execute a call, which gives the value that a visitor is called with. -/
def exec : TypedCall kinds → Exec Impl (Option Datum)
  | .serialize num value _ => do
    Impl.serialize num value
    pure none
  | .withField num indeterminate visitor =>
    some <$> Impl.withField num (kinds num) indeterminate visitor.run

/-- The value for the visitor: the one that was stored last, or a new one. -/
def shown (stored : UInt32 → Option Datum) : TypedCall kinds → Option Datum
  | .serialize _ _ _ => none
  | .withField num indeterminate _ =>
    some ((stored num).getD ((kinds num).initial indeterminate))

/-- What is stored after the call. -/
def next (stored : UInt32 → Option Datum) : TypedCall kinds → UInt32 → Option Datum
  | .serialize num value _ => Function.update stored num (some value)
  | .withField num indeterminate visitor =>
    let visited := visitor.run ((stored num).getD ((kinds num).initial indeterminate))
    if visited.2 then Function.update stored num (some visited.1) else stored

/-- Execute some calls. -/
def execAll : List (TypedCall kinds) → Exec Impl (List (Option Datum))
  | [] => pure []
  | c :: cs => do
    let value ← c.exec
    let values ← execAll cs
    pure (value :: values)

/-- What is stored after some calls. -/
def nextAll (stored : UInt32 → Option Datum) (cs : List (TypedCall kinds)) :
    UInt32 → Option Datum :=
  cs.foldl next stored

/-- The values for the visitors of some calls. -/
def shownAll (stored : UInt32 → Option Datum) : List (TypedCall kinds) → List (Option Datum)
  | [] => []
  | c :: cs => c.shown stored :: shownAll (c.next stored) cs

end TypedCall

/-- The bytes of a field. -/
def storedBytes (value : Option Datum) : List UInt8 := (value.map (ldbSerialize [])).getD []

/-- What `deserialize` makes of its argument `x`: an empty field leaves it alone. -/
def readInto (value : Option Datum) (x : Datum) : Datum :=
  match value with
  | some value => if value.Empty then x else value
  | none => x

/-- The field can be stored, and it is not taken for another one. -/
def Reachable (T : List (List UInt8)) (num : UInt32) : Prop :=
  num.toNat + 1 < 2 ^ 32 ∧ InTable T num

/-- The fields of a pool have these values stored. -/
structure TypedPool (kinds : UInt32 → Kind) (T : List (List UInt8))
    (stored : UInt32 → Option Datum) : Prop where
  typed : ∀ num value, stored num = some value → Typed (kinds num) value
  bytes : ∀ num : UInt32, T.getD num.toNat [] = storedBytes (stored num)

section Refines

variable {kinds : UInt32 → Kind} {P : List UInt8} {T : List (List UInt8)}
  {stored : UInt32 → Option Datum} {impl : Impl} {num : UInt32} {value x : Datum} {kind : Kind}
  {c : TypedCall kinds} {calls : List (TypedCall kinds)}

/-! ## Values and their bytes -/

/-- A value has no bytes if and only if it is the empty string. -/
theorem length_storedBytes_eq_zero_iff (hs : value.Short) :
    (storedBytes (some value)).length = 0 ↔ value.Empty := by
  have hbytes : storedBytes (some value) = ldbSerialize [] value := rfl
  rw [List.length_eq_zero_iff, hbytes]
  cases value with
  | gstring bytes =>
    rw [ldbSerialize, view_eq_self_iff.mpr hs]
    exact Iff.rfl
  | string bytes =>
    rw [ldbSerialize, view_eq_self_iff.mpr hs]
    exact Iff.rfl
  | uint32 n => exact iff_of_false (List.cons_ne_nil _ _) id

theorem deserialize_eq (ht : Typed kind value) :
    ldbDeserialize (ldbSerialize [] value) kind = .ok value := by
  have hview : view (ldbSerialize [] value) = ldbSerialize [] value := by
    cases value with
    | gstring bytes => exact congrArg view (view_eq_self_iff.mpr ht.2)
    | string bytes => exact congrArg view (view_eq_self_iff.mpr ht.2)
    | uint32 n => exact view_word n
  have hread := deserialize_serialize ht.2
  rwa [hview, ht.1] at hread

/-- An empty string is what a new string is. -/
theorem initial_of_empty (ht : Typed kind value) (he : value.Empty) (n : UInt32) :
    kind.initial n = value := by
  obtain ⟨rfl, -⟩ := ht
  cases value with
  | gstring bytes => exact congrArg Datum.gstring (Eq.symm he)
  | string bytes => exact congrArg Datum.string (Eq.symm he)
  | uint32 n => exact he.elim

theorem typed_initial (n : UInt32) : Typed kind (kind.initial n) := by
  cases kind with
  | gstring => exact ⟨rfl, Nat.two_pow_pos 24⟩
  | string => exact ⟨rfl, Nat.two_pow_pos 24⟩
  | uint32 => exact ⟨rfl, trivial⟩

/-! ## One call -/

/-- The pool has the values stored in its fields. -/
structure Holds (P : List UInt8) (T : List (List UInt8)) (kinds : UInt32 → Kind)
    (stored : UInt32 → Option Datum) (impl : Impl) : Prop where
  made : ∃ sets, Made P sets impl
  typed : ∀ num value, stored num = some value → Typed (kinds num) value
  current : ∀ num, Reachable T num → impl.current num = some (storedBytes (stored num))

theorem holds_ofBytes (hP : Stores P T) (hpool : TypedPool kinds T stored) :
    Holds P T kinds stored (Impl.ofBytes P) := by
  refine ⟨⟨[], made_ofBytes P⟩, hpool.typed, fun num hnum => ?_⟩
  rw [current_eq_elim (made_ofBytes P), ← hpool.bytes, hP.eq]
  exact (original_encode_iff hP.short).mpr hnum.2

/-- The value for a visitor is of the type of the field. -/
theorem Holds.typed_getD (hh : Holds P T kinds stored impl) (n : UInt32) :
    Typed (kinds num) ((stored num).getD ((kinds num).initial n)) := by
  cases hstored : stored num with
  | none => exact typed_initial n
  | some value => exact hh.typed num value hstored

/-- `serialize` stores the value. -/
theorem Holds.serialize (hh : Holds P T kinds stored impl) (hnum : Reachable T num)
    (ht : Typed (kinds num) value) :
    ∃ impl', Impl.serialize num value impl = .ok () impl' ∧
      Holds P T kinds (Function.update stored num (some value)) impl' := by
  obtain ⟨sets, hm⟩ := hh.made
  obtain ⟨impl', hx, hm'⟩ := set_eq (ldbSerialize [] value) hm hnum.1
  refine ⟨impl', hx, ⟨_, hm'⟩, fun num' v hv => ?_, fun num' hnum' => ?_⟩
  · by_cases heq : num' = num
    · subst heq
      rw [Function.update_self] at hv
      cases hv
      exact ht
    · rw [Function.update_of_ne heq] at hv
      exact hh.typed num' v hv
  · rw [current_eq_elim hm']
    by_cases heq : num' = num
    · subst heq
      rw [lastSet_append_singleton, Function.update_self]
      rfl
    · rw [lastSet_append_singleton_of_ne (Ne.symm heq), Function.update_of_ne heq,
        ← current_eq_elim hm]
      exact hh.current num' hnum'

theorem Holds.read (hh : Holds P T kinds stored impl) (hnum : Reachable T num) :
    Impl.read num impl = .ok (storedBytes (stored num)) impl := by
  refine (bind_of_ok (rfl : Exec.get impl = .ok impl impl)).trans ?_
  rw [hh.current num hnum]
  rfl

/-- Reading the bytes of a value. -/
theorem deserializeBytes_eq (ht : Typed kind value) :
    Impl.deserializeBytes (storedBytes (some value)) kind = pure value := by
  have hbytes : storedBytes (some value) = ldbSerialize [] value := rfl
  rw [Impl.deserializeBytes, hbytes, deserialize_eq ht]

/-- The value that a visitor is called with. -/
theorem Holds.newValue_eq (hh : Holds P T kinds stored impl) (num n : UInt32) :
    Impl.newValue (storedBytes (stored num)) (kinds num) n =
      pure ((stored num).getD ((kinds num).initial n)) := by
  rw [Impl.newValue]
  cases hstored : stored num with
  | none => rfl
  | some value =>
    have ht := hh.typed num value hstored
    have hempty := length_storedBytes_eq_zero_iff ht.2
    by_cases he : value.Empty
    · rw [if_neg (not_not_intro (hempty.mpr he)), Option.getD_some, initial_of_empty ht he]
    · rw [if_pos (mt hempty.mp he), Option.getD_some, deserializeBytes_eq ht]

/-- `deserialize` sets its argument to the value that was stored last, unless it is empty. -/
theorem Holds.deserialize (hh : Holds P T kinds stored impl) (hnum : Reachable T num)
    (hx : x.kind = kinds num) :
    Impl.deserialize num x impl = .ok (readInto (stored num) x) impl := by
  have hread := hh.read hnum
  refine (bind_of_ok hread).trans ?_
  cases hstored : stored num with
  | none => rfl
  | some value =>
    have ht := hh.typed num value hstored
    have hempty := length_storedBytes_eq_zero_iff ht.2
    by_cases he : value.Empty
    · rw [if_neg (not_not_intro (hempty.mpr he)), readInto, if_pos he]
      rfl
    · rw [if_pos (mt hempty.mp he), readInto, if_neg he]
      refine (bind_of_ok hread).trans ?_
      rw [hstored, hx, deserializeBytes_eq ht]
      rfl

/-- A call stores its value, and shows its visitor the value that was stored last. -/
theorem exec_refines (hh : Holds P T kinds stored impl) (hc : Reachable T c.num) :
    ∃ impl', c.exec impl = .ok (c.shown stored) impl' ∧
      Holds P T kinds (c.next stored) impl' := by
  cases c with
  | serialize num value ht =>
    obtain ⟨impl', hx, hh'⟩ := hh.serialize hc ht
    exact ⟨impl', bind_of_ok hx, hh'⟩
  | withField num n visitor =>
    obtain ⟨shown, hshown⟩ : ∃ shown, shown = (stored num).getD ((kinds num).initial n) := ⟨_, rfl⟩
    have ht : Typed (kinds num) shown := hshown ▸ hh.typed_getD n
    have hnext : (TypedCall.withField num n visitor).next stored =
        if (visitor.run shown).2 then Function.update stored num (some (visitor.run shown).1)
        else stored := by
      rw [hshown]
      rfl
    have hvalue := hh.newValue_eq num n
    rw [← hshown] at hvalue
    -- what the visitor returns decides whether its value is stored
    have hstep : ∃ impl', when (visitor.run shown).2
        (Impl.serialize num (visitor.run shown).1) impl = .ok () impl' ∧
        Holds P T kinds ((TypedCall.withField num n visitor).next stored) impl' := by
      rw [hnext]
      by_cases hok : (visitor.run shown).2 = true
      · rw [if_pos hok, when_of_pos hok]
        exact hh.serialize hc (visitor.typed shown ht)
      · rw [if_neg hok, when_of_not hok]
        exact ⟨impl, rfl, hh⟩
    obtain ⟨impl', hwhen, hh'⟩ := hstep
    have hfield : Impl.withField num (kinds num) n visitor.run impl = .ok shown impl' := by
      refine (bind_of_ok (hh.read hc)).trans ?_
      have hvalue : Impl.newValue (storedBytes (stored num)) (kinds num) n impl = .ok shown impl :=
        congrFun hvalue impl
      exact (bind_of_ok hvalue).trans (bind_of_ok hwhen)
    refine ⟨impl', ?_, hh'⟩
    rw [TypedCall.shown, ← hshown]
    exact bind_of_ok hfield

/-! ## All calls -/

/-- Some calls store their values, and show their visitors the values that were stored last. -/
theorem execAll_refines (hh : Holds P T kinds stored impl)
    (hcalls : ∀ c ∈ calls, Reachable T c.num) :
    ∃ impl', TypedCall.execAll calls impl = .ok (TypedCall.shownAll stored calls) impl' ∧
      Holds P T kinds (TypedCall.nextAll stored calls) impl' := by
  induction calls generalizing stored impl with
  | nil => exact ⟨impl, rfl, hh⟩
  | cons c calls ih =>
    obtain ⟨impl₁, hx, hh₁⟩ := exec_refines hh (hcalls c List.mem_cons_self)
    obtain ⟨impl', hx', hh'⟩ := ih hh₁ fun d hd => hcalls d (List.mem_cons_of_mem c hd)
    refine ⟨impl', ?_, hh'⟩
    refine (bind_of_ok hx).trans ?_
    exact bind_of_ok hx'

/-- After any calls on a pool of typed fields, `deserialize` gives the value that was stored last,
but leaves its argument alone if that is the empty string or there is none; and every visitor
was called with the value that had been stored last, or a new one. -/
theorem typed_fields (hP : Stores P T) (hpool : TypedPool kinds T stored)
    (hcalls : ∀ c ∈ calls, Reachable T c.num) :
    ∃ impl, TypedCall.execAll calls (Impl.ofBytes P) =
        .ok (TypedCall.shownAll stored calls) impl ∧
      ∀ num, Reachable T num → ∀ x : Datum, x.kind = kinds num →
        Impl.deserialize num x impl =
          .ok (readInto (TypedCall.nextAll stored calls num) x) impl := by
  obtain ⟨impl, hx, hh⟩ := execAll_refines (holds_ofBytes hP hpool) hcalls
  exact ⟨impl, hx, fun num hnum x hkind => hh.deserialize hnum hkind⟩

end Refines

/-- Field 2 holds a number, and the other ones hold strings. -/
def someKinds (num : UInt32) : Kind := if num = 2 then .uint32 else .string

/-- A visitor that writes `"x"`. -/
def writeX : Visitor (someKinds 0) := ⟨fun _ => (.string [120], true), fun _ _ => ⟨rfl, by decide⟩⟩

/-- A number is stored, and a string by a visitor. -/
theorem typed_fields_empty :
    ∃ impl, TypedCall.execAll ([.serialize 2 (.uint32 7) ⟨rfl, trivial⟩, .withField 0 0 writeX] :
        List (TypedCall someKinds)) (Impl.ofBytes []) = .ok [none, some (.string [])] impl ∧
      Impl.deserialize 2 (.uint32 0) impl = .ok (.uint32 7) impl ∧
      Impl.deserialize 0 (.string [97]) impl = .ok (.string [120]) impl := by
  have hpool : TypedPool someKinds [] fun _ => none := ⟨nofun, fun _ => rfl⟩
  have hreach : ∀ num : UInt32, num.toNat + 1 < 2 ^ 32 → Reachable [] num :=
    fun _ hnum => ⟨hnum, Or.inl rfl⟩
  have hcalls : ∀ c ∈ ([.serialize 2 (.uint32 7) ⟨rfl, trivial⟩, .withField 0 0 writeX] :
      List (TypedCall someKinds)), Reachable [] c.num :=
    List.forall_mem_cons.mpr ⟨hreach 2 (by decide),
      List.forall_mem_singleton.mpr (hreach 0 (by decide))⟩
  have hP : Stores [] [] := ⟨rfl, by decide⟩
  obtain ⟨impl, hx, hall⟩ := typed_fields hP hpool hcalls
  exact ⟨impl, hx, hall 2 (hreach 2 (by decide)) (.uint32 0) rfl,
    hall 0 (hreach 0 (by decide)) (.string [97]) rfl⟩

/-- The empty string is stored last, and is not what is read. -/
theorem empty_string_not_read :
    ∃ impl, TypedCall.execAll ([.serialize 0 (.string []) ⟨rfl, by decide⟩] :
        List (TypedCall fun _ => .string)) (Impl.ofBytes []) = .ok [none] impl ∧
      Impl.deserialize 0 (.string [97]) impl = .ok (.string [97]) impl :=
  ⟨_, rfl, rfl⟩

end Pool

end Glim
