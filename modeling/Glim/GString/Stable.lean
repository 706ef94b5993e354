import Glim.GString.Operations

/-!
# What every method preserves

The methods without a gstring argument are put together from a few parts: `reserve`,
writes of cells, and the length setter. A property of the receiver and its heap that
the parts keep is kept by all of them, whether they return or throw.

## Main definitions

* `Stable`: a property the parts keep

## Main results

* `Stable.run`: every call without a gstring argument keeps a stable property
-/

namespace Glim

open Machine Exec Method Text

/-- `F` allows every fault that is not a bad free. -/
def AccessFaults (F : Fault → Prop) : Prop :=
  ∀ u, u ≠ .foreignFree → u ≠ .doubleFree → F u

theorem AccessFaults.badAccess {F : Fault → Prop} (hF : AccessFaults F) (h : Heap)
    (p : Option Ptr) : F (h.badAccess p) :=
  hF _ (h.badAccess_ne_free p).1 (h.badAccess_ne_free p).2

/-- The parts of the methods keep `I`, and fault within `F` only. -/
structure Stable (F : Fault → Prop) (I : Object → Prop) : Prop where
  faults : AccessFaults F
  write : ∀ o p new, I o → I { o with heap := o.heap.write p new }
  setLength : ∀ o n, I o → I { o with str := o.str.setLength n }
  reallocate : ∀ power < 64, Preserves I F (GString.reallocate power)
  owned : Preserves I F GString.owned

theorem preserves_str {F : Fault → Prop} {I : Object → Prop} : Preserves I F str :=
  Preserves.map Preserves.get

namespace Stable

variable {F : Fault → Prop} {I : Object → Prop} (hS : Stable F I)

include hS

/-! ## The parts -/

theorem store (p : Option Ptr) (new : List Cell) : Preserves I F (onHeap (Heap.store p new)) :=
  fun o ho => wp_zoom.mpr <| Heap.wp_store_of_faults (hS.faults.badAccess _ p) (hS.write o p new ho)

theorem memcpy (dst src : Option Ptr) (n : ℕ) :
    Preserves I F (onHeap (Heap.memcpy dst src n)) :=
  fun o ho => wp_zoom.mpr <| Heap.wp_memcpy_of_faults (hS.faults.badAccess _ src)
    (hS.faults.badAccess _ dst) fun new => hS.write o dst new ho

theorem strlen (p : Option Ptr) : Preserves I F (onHeap (Heap.strlen p)) :=
  fun _ ho => wp_zoom.mpr <| Heap.wp_strlen_of_faults (hS.faults.badAccess _ p) fun _ => ho

theorem strftime (text : List UInt8) (p : Option Ptr) (max : ℕ) :
    Preserves I F (onHeap (Glim.strftime text p max)) := by
  intro o ho
  simp only [onHeap, Glim.strftime, writeTime, wp_zoom, wp_bind, wp_get, wp_ite, wp_fail, wp_pure]
  refine ⟨fun _ => hS.faults.badAccess _ p, fun _ => ⟨fun _ => ?_, fun _ => ?_⟩⟩
  · exact Heap.wp_store_of_faults (hS.faults.badAccess _ p) (hS.write o p _ ho)
  · exact Heap.wp_store_of_faults (hS.faults.badAccess _ p) (hS.write o p _ ho)

theorem setLen (n : ℕ) : Preserves I F (modifyStr (GString.setLength n)) :=
  Preserves.modify fun o ho => hS.setLength o n ho

theorem shl1 (n : ℕ) : Preserves I F (GString.shl1 n) :=
  Preserves.ite (fun _ => Preserves.fail (hS.faults _ (by decide) (by decide)))
    fun _ => Preserves.pure _

theorem growPower (n : ℕ) : ∀ fuel power, Preserves I F (GString.growPower n fuel power)
  | 0, _ => Preserves.fail (hS.faults _ (by decide) (by decide))
  | fuel + 1, power =>
    (hS.shl1 power).bind fun _ =>
      Preserves.ite (fun _ => growPower n fuel (power + 1)) fun _ => Preserves.pure _

theorem reserve (n : UInt32) : Preserves I F (GString.reserve n) := by
  refine preserves_str.bind fun s => (hS.shl1 s.power).bind fun size =>
    Preserves.ite (fun _ => ?_) fun _ => Preserves.when fun _ => hS.reallocate _ s.power_lt
  exact (hS.growPower _ _ _).bind fun power =>
    Preserves.ite (fun _ => Preserves.raise _) fun h => hS.reallocate _ (by omega)

/-! ## The methods -/

theorem append64 (iv : Int64) (base : ℤ) (bytes : UInt8) :
    Preserves I F (GString.append64 iv base bytes) :=
  preserves_str.bind fun _ =>
    (Preserves.when fun _ => hS.reserve _).bind fun _ =>
      preserves_str.bind fun _ => (hS.store _ _).bind fun _ => hS.setLen _

theorem appendChar (ch : UInt8) :
    Preserves I F (GString.appendChar ch) :=
  preserves_str.bind fun _ =>
    (Preserves.when fun _ => hS.reserve _).bind fun _ =>
      preserves_str.bind fun _ => (hS.store _ _).bind fun _ => hS.setLen _

theorem append (cstr : Option Ptr) (clen : UInt32) :
    Preserves I F (GString.append cstr clen) :=
  preserves_str.bind fun _ =>
    (Preserves.when fun _ => hS.reserve _).bind fun _ =>
      preserves_str.bind fun _ => (hS.memcpy _ _ _).bind fun _ => hS.setLen _

theorem parseFrom (cstr : Option Ptr) (clen : Int32) :
    Preserves I F (GString.parseFrom cstr clen) :=
  Preserves.ite (fun _ => Preserves.pure _) fun _ => (hS.setLen 0).bind fun _ =>
    (hS.append _ _).bind fun _ => Preserves.pure _

theorem appendCString (cstr : Option Ptr) :
    Preserves I F (GString.appendCString cstr) :=
  Preserves.when fun _ => (hS.strlen _).bind fun _ => hS.append _ _

theorem appendDouble (text : List UInt8) :
    Preserves I F (GString.appendDouble text) :=
  preserves_str.bind fun _ => (hS.reserve _).bind fun _ =>
    preserves_str.bind fun _ => (hS.store _ _).bind fun _ =>
      Preserves.when fun _ => hS.setLen _

theorem appendTime (text : List UInt8) :
    ∀ fuel, Preserves I F (GString.appendTime text fuel)
  | 0 => Preserves.fail (hS.faults _ (by decide) (by decide))
  | fuel + 1 =>
    have ih := appendTime text fuel
    preserves_str.bind fun _ =>
      Preserves.ite (fun _ => (hS.reserve _).bind fun _ => ih) fun _ =>
        (hS.strftime _ _ _).bind fun _ =>
          Preserves.ite
            (fun _ => Preserves.when fun _ => (hS.reserve _).bind fun _ => ih)
            fun _ => hS.setLen _

theorem appendNetstring (cstr : Option Ptr) (clen : UInt32) :
    Preserves I F (GString.appendNetstring cstr clen) :=
  (hS.append64 _ _ _).bind fun _ => (hS.appendChar _).bind fun _ =>
    (hS.append _ _).bind fun _ => hS.appendChar _

theorem readNetstring (stream : IStream) :
    Preserves I F (GString.readNetstring stream) :=
  have guard : ∀ {c : Prop} [Decidable c],
      Preserves I F (when c (raise "!netstring")) :=
    Preserves.when fun _ => Preserves.raise _
  guard.bind fun _ => guard.bind fun _ => preserves_str.bind fun _ =>
    (Preserves.when fun _ => hS.reserve _).bind fun _ =>
      preserves_str.bind fun _ => (hS.store _ _).bind fun _ =>
        guard.bind fun _ => guard.bind fun _ =>
          (hS.setLen _).bind fun _ => Preserves.pure _

theorem cStr : Preserves I F GString.cStr :=
  preserves_str.bind fun _ => Preserves.ite (fun _ => Preserves.pure _) fun _ =>
    (Preserves.when fun _ => hS.reserve _).bind fun _ =>
      preserves_str.bind fun _ => (hS.store _ _).bind fun _ => Preserves.pure _

theorem erase (pos count : UInt32) :
    Preserves I F (GString.erase pos count) :=
  preserves_str.bind fun _ => Preserves.when fun _ =>
    (hS.setLen _).bind fun _ => hS.memcpy _ _ _

theorem setAt (index : UInt32) (ch : UInt8) :
    Preserves I F (GString.setAt index ch) :=
  preserves_str.bind fun _ => hS.store _ _

/-- Every call without a gstring argument keeps a stable property. -/
theorem run (e : Edit) : Preserves I F e.run := by
  cases e with
  | reserve n => exact hS.reserve n
  | append64 iv base bytes => exact hS.append64 iv base bytes
  | appendChar ch => exact hS.appendChar ch
  | append cstr clen => exact hS.append cstr clen
  | parseFrom cstr clen => exact (hS.parseFrom cstr clen).map
  | appendString data length => exact hS.append data _
  | appendCString cstr => exact hS.appendCString cstr
  | appendInt iv => exact hS.append64 _ _ _
  | appendLong iv => exact hS.append64 _ _ _
  | appendLongLong iv => exact hS.append64 _ _ _
  | appendDouble text => exact hS.appendDouble text
  | appendTime text => exact hS.appendTime text _
  | appendNetstring cstr clen => exact hS.appendNetstring cstr clen
  | readNetstring stream => exact (hS.readNetstring stream).map
  | cStr => exact (hS.cStr).map
  | clear => exact hS.setLen 0
  | erase pos count => exact hS.erase pos count
  | eraseRange ipos count => exact Preserves.when fun _ => hS.erase _ _
  | setAt index ch => exact hS.setAt index ch
  | owned => exact hS.owned

end Stable

end Glim
