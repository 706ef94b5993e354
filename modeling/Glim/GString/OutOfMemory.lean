import Glim.GString.Contents

/-!
# When an allocation fails

Any call of `malloc` and `realloc` may fail. `reserve` has stored the new capacity by then, and it
stores the null pointer over the old buffer before it throws; copy assignment has freed the old
buffer. What such an exception leaves behind is the old length over no buffer, which is right for an
empty string of unknown capacity only.

## Main definitions

* `ValidUnlessOom`: a valid string, in a heap whose allocations may fail
* `Intact`: the program leaves a consistent string of the same contents if it throws because an
  allocation failed
* `GrowCall`: the operations that may allocate
* `GrowCall.Asks`: the operation asks for memory
* `GrowCall.Harmless`: the string has nothing to lose

## Main results

* `intact_reserve_iff`, `intact_copyAssign_iff`: the two places where memory is asked for
* `GrowCall.intact_iff`: an operation leaves the string intact exactly if it asks for no memory, it
  is given what it asks for, or the string has nothing to lose
-/

namespace Glim

open Machine Exec Method

/-- A valid string, but for the allocations that fail. -/
def ValidUnlessOom (o : Object) : Prop := Valid ⟨{ o.heap with oom := [] }, o.str⟩

/-- The texts of the exceptions for an allocation that failed. -/
def AllocationFailed (e : String) : Prop := e = "malloc failed" ∨ e = "realloc failed"

/-- A string that is not empty has a buffer, and the capacity does not exceed what is allocated; it
is 1 if nothing is. -/
structure Consistent (o : Object) : Prop where
  buf : o.str.length ≠ 0 → o.str.buf ≠ none
  capacity_le : o.str.capacity ≤ max 1 o.room

/-- If `x` throws because an allocation failed, the length and the contents are as before, and the
string is consistent. -/
def Intact (x : Method Unit) (o : Object) : Prop :=
  wp x (fun _ _ => True)
    (fun e o' => AllocationFailed e →
      o'.str.length = o.str.length ∧ o'.contents = o.contents ∧ Consistent o')
    (fun _ => True) o

/-- The next allocation succeeds. -/
def Served (o : Object) : Prop := o.heap.calls ∉ o.heap.oom

/-! ## What is left after a failure -/

section Failure

variable {o : Object} {n : UInt32}

theorem ValidUnlessOom.length_contents (hv : ValidUnlessOom o) :
    o.contents.length = o.str.length :=
  Glim.length_contents (o := ⟨{ o.heap with oom := [] }, o.str⟩) hv

/-- No buffer, with the old length and some capacity. -/
theorem intact_null_iff (hv : ValidUnlessOom o) {h : Heap} {w : BitVec 32} {k : ℕ}
    (hlen : Meta.length w = o.str.length) (hpower : Meta.power w = k) :
    (GString.length ⟨w, none⟩ = o.str.length ∧ Object.contents ⟨h, ⟨w, none⟩⟩ = o.contents ∧
      Consistent ⟨h, ⟨w, none⟩⟩) ↔ o.str.length = 0 ∧ k = 0 := by
  have hnil : Object.contents ⟨h, ⟨w, none⟩⟩ = [] := by
    rw [Object.contents, Heap.cellsAt_none, List.take_nil]
  have hcap : GString.capacity ⟨w, none⟩ = 2 ^ k := by
    rw [GString.capacity, GString.power, hpower]
  constructor
  · rintro ⟨-, hcontents, hconsistent⟩
    refine ⟨?_, ?_⟩
    · rw [← hv.length_contents, ← hcontents, hnil, List.length_nil]
    · have hle := hconsistent.capacity_le
      rw [hcap, Object.room, Heap.room_none] at hle
      by_contra hne
      have := Nat.one_lt_two_pow hne
      omega
  · rintro ⟨h0, rfl⟩
    refine ⟨hlen, ?_, ⟨fun hne => absurd (hlen.trans h0) hne, ?_⟩⟩
    · rw [hnil, eq_comm, ← List.length_eq_zero_iff, hv.length_contents, h0]
    · rw [hcap]
      exact le_max_left _ _

/-- What a program leaves that throws because an allocation failed. -/
theorem intact_iff_of_failed (hv : ValidUnlessOom o) {x : Method Unit} {k : ℕ}
    (hx : wp x (fun _ _ => False)
      (fun e o' => AllocationFailed e ∧ ∃ h w, o' = ⟨h, ⟨w, none⟩⟩ ∧
        Meta.length w = o.str.length ∧ Meta.power w = k)
      (fun _ => False) o) :
    Intact x o ↔ o.str.length = 0 ∧ k = 0 := by
  simp only [Intact, wp] at hx ⊢
  cases hrun : x o with
  | ok a o' =>
    rw [hrun] at hx
    exact hx.elim
  | throw e o' =>
    rw [hrun] at hx
    obtain ⟨he, h, w, rfl, hlen, hpower⟩ := hx
    rw [← intact_null_iff hv (h := h) hlen hpower]
    exact ⟨fun hi => hi he, fun hi _ => hi⟩
  | fault u =>
    rw [hrun] at hx
    exact hx.elim

/-- A program that asks for memory at one place leaves the string intact if it is given the memory,
or if the string has nothing to lose. -/
theorem intact_iff_of (hv : ValidUnlessOom o) {x : Method Unit} {asks : Prop} {k : ℕ}
    (hserved : (asks → Served o) →
      wp x (fun _ _ => True) (fun e _ => ¬ AllocationFailed e) (fun _ => True) o)
    (hfailed : asks → ¬ Served o →
      wp x (fun _ _ => False)
        (fun e o' => AllocationFailed e ∧ ∃ h w, o' = ⟨h, ⟨w, none⟩⟩ ∧
          Meta.length w = o.str.length ∧ Meta.power w = k)
        (fun _ => False) o) :
    Intact x o ↔ (asks → Served o ∨ o.str.length = 0 ∧ k = 0) := by
  by_cases hok : asks → Served o
  · refine ⟨fun _ hasks => Or.inl (hok hasks), fun _ => ?_⟩
    exact wp_mono (hserved hok) (fun _ _ h => h) (fun _ _ h he => absurd he h) fun _ h => h
  · rw [Classical.not_imp] at hok
    rw [intact_iff_of_failed hv (hfailed hok.1 hok.2)]
    exact ⟨fun h _ => Or.inr h, fun h => (h hok.1).resolve_left hok.2⟩

/-! ## `reserve` -/

/-- `reserve` asks for memory. -/
def Needs (n : ℕ) (o : Object) : Prop := n ≤ 2 ^ 24 ∧ (o.str.capacity < n ∨ o.str.capacity ≤ 1)

/-- The end of `reserve` throws only if the allocation fails. -/
theorem wp_reallocate_served {k : ℕ} (hk : k < 64) (hserved : Served o) :
    wp (GString.reallocate k) (fun _ _ => True) (fun _ _ => False) (fun _ => True) o := by
  refine wp_reallocate_of hk (fun p _ => ?_) fun _ => ?_
  · rw [wp_resizeOwn_iff]
    exact Heap.wp_realloc (fun _ _ => trivial) (fun _ hmem => absurd hmem hserved)
      fun _ _ => ⟨nofun, fun _ => trivial⟩
  · rw [wp_replaceBuf_iff]
    refine Heap.wp_malloc_of (fun hmem => absurd hmem hserved)
      fun _ => ⟨nofun, fun _ => ⟨fun _ => ?_, fun _ => trivial⟩⟩
    exact Heap.wp_memcpy_of_any (fun _ => trivial) fun _ _ => trivial

/-- And then it leaves the new capacity, and no buffer. -/
theorem wp_reallocate_failed (hv : ValidUnlessOom o) {k : ℕ} (hk : k < 64)
    (hfails : ¬ Served o) :
    wp (GString.reallocate k) (fun _ _ => False)
      (fun e o' => AllocationFailed e ∧ ∃ h w, o' = ⟨h, ⟨w, none⟩⟩ ∧
        Meta.length w = o.str.length ∧ Meta.power w = k)
      (fun _ => False) o := by
  have hmem : o.heap.calls ∈ o.heap.oom := Classical.not_not.mp hfails
  have hlen : Meta.length (Meta.setPower o.str.word k) = o.str.length := Meta.length_setPower _ _ hk
  have hpower : Meta.power (Meta.setPower o.str.word k) = k := Meta.power_setPower _ _ hk
  refine wp_reallocate_of hk (fun p hown => ?_) fun _ => ?_
  · have hfree : o.heap.freeFault p = none := hv.freeable p hown
    rw [wp_resizeOwn_iff]
    refine Heap.wp_realloc (fun u hu => ?_)
      (fun _ _ => ⟨fun _ => ?_, fun hne => absurd rfl hne⟩) fun _ hserved => absurd hmem hserved
    · rw [hfree] at hu
      cases hu
    · exact ⟨Or.inr rfl, _, _, rfl, hlen, hpower⟩
  · rw [wp_replaceBuf_iff]
    refine Heap.wp_malloc_of (fun _ => ⟨fun _ => ?_, fun hne => absurd rfl hne⟩)
      fun hserved => absurd hmem hserved
    exact ⟨Or.inl rfl, _, _, rfl, hlen, hpower⟩

theorem tooLarge_ne {e : String} (he : e.toList.head? ≠ some 'g') (text : String) :
    "gstring too large: " ++ text ≠ e := by
  intro h
  have hhead : "gstring too large: ".toList.head? = some 'g' := by decide
  rw [← h, String.toList_append, List.head?_append, hhead, Option.some_or] at he
  exact he rfl

/-- A string that is too large is not one for which an allocation failed. -/
theorem not_allocationFailed_tooLarge (n : UInt32) : ¬ AllocationFailed (GString.tooLarge n) := by
  rintro (h | h)
  · exact tooLarge_ne (by decide) _ h
  · exact tooLarge_ne (by decide) _ h

/-- A `reserve` that asks for no memory, or is given it, does not throw for an allocation. -/
theorem wp_reserve_served (hv : ValidUnlessOom o) (hok : Needs n.toNat o → Served o) :
    wp (GString.reserve n) (fun _ _ => True) (fun e _ => ¬ AllocationFailed e) (fun _ => True)
      o := by
  have hpow : o.str.power ≤ 30 := hv.power_le
  have hreallocate : ∀ k < 64, Served o → wp (GString.reallocate k) (fun _ _ => True)
      (fun e _ => ¬ AllocationFailed e) (fun _ => True) o := fun k hk hserved =>
    wp_mono (wp_reallocate_served hk hserved) (fun _ _ h => h) (fun _ _ h => h.elim) fun _ h => h
  simp only [wp] at hreallocate ⊢
  rw [GString.reserve_apply n o (by omega)]
  split_ifs with hlt h31 h24 h0
  · trivial
  · exact not_allocationFailed_tooLarge n
  · have hle : Nat.clog 2 n.toNat ≤ 24 := Nat.clog_le_of_le_pow (by omega)
    exact hreallocate _ (by omega) (hok ⟨by omega, Or.inl hlt⟩)
  · have hcap : o.str.capacity = 1 := by rw [GString.capacity, h0, pow_zero]
    rw [h0, pow_zero] at hlt
    exact hreallocate 0 (by omega) (hok ⟨by omega, Or.inr hcap.le⟩)
  · trivial

/-- A `reserve` that is refused memory leaves the capacity it asked for, and no buffer. -/
theorem wp_reserve_failed (hv : ValidUnlessOom o) (hneeds : Needs n.toNat o)
    (hfails : ¬ Served o) :
    wp (GString.reserve n) (fun _ _ => False)
      (fun e o' => AllocationFailed e ∧ ∃ h w, o' = ⟨h, ⟨w, none⟩⟩ ∧
        Meta.length w = o.str.length ∧ Meta.power w = Nat.clog 2 n.toNat)
      (fun _ => False) o := by
  have hpow : o.str.power ≤ 30 := hv.power_le
  have hclog : Nat.clog 2 n.toNat ≤ 24 := Nat.clog_le_of_le_pow hneeds.1
  have hreallocate := wp_reallocate_failed hv (k := Nat.clog 2 n.toNat) (by omega) hfails
  have h24 := hneeds.1
  simp only [wp] at hreallocate ⊢
  rw [GString.reserve_apply n o (by omega)]
  split_ifs with hlt h31 h24' h0
  · omega
  · omega
  · exact hreallocate
  · rw [h0, pow_zero] at hlt
    rw [Nat.clog_of_right_le_one (Nat.le_of_not_lt hlt)] at hreallocate ⊢
    exact hreallocate
  · have hone := GString.one_lt_capacity_iff.mpr h0
    rcases hneeds.2 with hcap | hcap
    · exact absurd hcap hlt
    · omega

theorem intact_reserve_iff (hv : ValidUnlessOom o) :
    Intact (GString.reserve n) o ↔
      (Needs n.toNat o → Served o ∨ o.str.length = 0 ∧ n.toNat ≤ 1) := by
  have hclog : Nat.clog 2 n.toNat = 0 ↔ n.toNat ≤ 1 := by
    rw [← Nat.le_zero, Nat.clog_le_iff_le_pow (by decide), pow_zero]
  rw [← hclog]
  exact intact_iff_of hv (wp_reserve_served hv) (wp_reserve_failed hv)

/-! ## Copy assignment -/

/-- Copy assignment asks for a new buffer. -/
def AsksForCopy (g : GString) (o : Object) : Prop :=
  ¬ (g.length ≤ o.str.capacity ∧ o.str.capacity > 1) ∧ g.copiedByReference = false

/-- Freeing the own buffer allocates nothing. -/
theorem wp_destroy_of {Q : Unit → Heap → Prop} {E : String → Heap → Prop} {F : Fault → Prop}
    (hv : ValidUnlessOom o)
    (hQ : ∀ h : Heap, h.calls = o.heap.calls → h.oom = o.heap.oom → Q () h) :
    wp o.str.destroy Q E F o.heap := by
  refine (wp_when _ _).mpr ⟨fun hc => ?_, fun _ => hQ _ rfl rfl⟩
  cases hb : o.str.buf with
  | none => exact absurd hb hc.1
  | some p =>
    have hfree : o.heap.freeFault p = none :=
      hv.freeable p (GString.ownBuf_eq_some_iff.mpr ⟨hc.2, hb⟩)
    refine Heap.wp_free (fun u hu => ?_) fun _ => hQ _ rfl rfl
    rw [hfree] at hu
    cases hu

/-- A failure leaves the old word, and no buffer. -/
theorem wp_copyAssign_failed (hv : ValidUnlessOom o) {g : GString} (hasks : AsksForCopy g o)
    (hfails : ¬ Served o) :
    wp (GString.copyAssign g) (fun _ _ => False)
      (fun e o' => AllocationFailed e ∧ ∃ h w, o' = ⟨h, ⟨w, none⟩⟩ ∧
        Meta.length w = o.str.length ∧ Meta.power w = o.str.power)
      (fun _ => False) o := by
  have hmem : o.heap.calls ∈ o.heap.oom := Classical.not_not.mp hfails
  simp only [GString.copyAssign, str, onHeap, modifyStr, wp_bind, wp_map, wp_get, wp_zoom,
    wp_modify, wp_ite, wp_when, wp_raise, hasks.2, Bool.false_eq_true, false_implies, true_and,
    not_false_eq_true, true_implies]
  refine ⟨fun hreuse => absurd hreuse hasks.1, fun _ => wp_destroy_of hv fun h hcalls hoom => ?_⟩
  rw [← hcalls, ← hoom] at hmem
  exact Heap.wp_malloc_of (fun _ => ⟨fun _ => ⟨Or.inl rfl, _, _, rfl, rfl, rfl⟩,
    fun hne => absurd rfl hne⟩) fun hserved => absurd hmem hserved

/-- Without a failure nothing is thrown. -/
theorem wp_copyAssign_served (hv : ValidUnlessOom o) {g : GString}
    (hok : AsksForCopy g o → Served o) :
    wp (GString.copyAssign g) (fun _ _ => True) (fun _ _ => False) (fun _ => True) o := by
  simp only [GString.copyAssign, str, onHeap, modifyStr, wp_bind, wp_map, wp_get, wp_zoom,
    wp_modify, wp_ite, wp_when, wp_raise]
  refine ⟨fun _ => Heap.wp_memcpy_of_any (fun _ => trivial) fun _ _ => trivial, fun hnew => ?_⟩
  refine wp_destroy_of hv fun h hcalls hoom => ⟨fun _ => trivial, fun href => ?_⟩
  have hserved := hok ⟨hnew, Bool.eq_false_of_not_eq_true href⟩
  rw [Served, ← hcalls, ← hoom] at hserved
  exact Heap.wp_malloc_of (fun hmem => absurd hmem hserved)
    fun _ => ⟨by simp, fun _ => Heap.wp_memcpy_of_any (fun _ => trivial) fun _ _ => trivial⟩

theorem intact_copyAssign_iff (hv : ValidUnlessOom o) {g : GString} :
    Intact (GString.copyAssign g) o ↔
      (AsksForCopy g o → Served o ∨ o.str.length = 0 ∧ o.str.capacity ≤ 1) := by
  have hcap : o.str.power = 0 ↔ o.str.capacity ≤ 1 := by
    rw [← not_lt, GString.one_lt_capacity_iff, Classical.not_not]
  rw [← hcap]
  refine intact_iff_of hv (fun hok => ?_) (wp_copyAssign_failed hv)
  exact wp_mono (wp_copyAssign_served hv hok) (fun _ _ h => h) (fun _ _ h => h.elim) fun _ h => h

end Failure

/-! ## The operations that may allocate -/

/-- `reserve`, an appending method or operator, `c_str` or copy assignment. -/
inductive GrowCall where
  | reserve (toSize : UInt32)
  | append64 (iv : Int64) (base : ℤ) (bytes : UInt8)
  | appendChar (ch : UInt8)
  | append (cstr : Option Ptr) (clen : UInt32)
  | appendGString (gs : GString)
  | appendString (data : Option Ptr) (length : ℕ)
  | appendCString (cstr : Option Ptr)
  | appendInt (iv : Int32)
  | appendLong (iv : Int64)
  | appendLongLong (iv : Int64)
  | appendDouble (text : List UInt8)
  | cStr
  | copyAssign (gstr : GString)
  | selfAssign
  deriving DecidableEq, Repr

namespace GrowCall

def run : GrowCall → Method Unit
  | reserve n => GString.reserve n
  | append64 iv base bytes => GString.append64 iv base bytes
  | appendChar ch => GString.appendChar ch
  | append cstr clen => GString.append cstr clen
  | appendGString gs => GString.appendGString gs
  | appendString data length => GString.appendString data length
  | appendCString cstr => GString.appendCString cstr
  | appendInt iv => GString.appendInt iv
  | appendLong iv => GString.appendLong iv
  | appendLongLong iv => GString.appendLongLong iv
  | appendDouble text => GString.appendDouble text
  | cStr => (fun _ => ()) <$> GString.cStr
  | copyAssign g => GString.copyAssign g
  | selfAssign => pure () -- `this != &gstr`

/-- The size that appending `clen` bytes asks `reserve` for, if it does. -/
def askedByAppend (clen : UInt32) (o : Object) : Option UInt32 :=
  let need := UInt32.ofNat o.str.length + clen
  if need.toNat > o.str.capacity ∨ o.str.capacity ≤ 1 then some need else none

/-- The same for a number. -/
def askedByAppend64 (bytes : UInt8) (o : Object) : Option UInt32 :=
  if o.str.capacity < o.str.length + bytes.toNat then
    some (UInt32.ofNat (o.str.length + bytes.toNat))
  else none

/-- The size that an operation asks `reserve` for, if it does. -/
def asked (o : Object) : GrowCall → Option UInt32
  | reserve n => some n
  | append64 _ _ bytes => askedByAppend64 bytes o
  | appendChar _ =>
      if o.str.length ≥ o.str.capacity ∨ o.str.capacity ≤ 1 then
        some (UInt32.ofNat (o.str.length + 1))
      else none
  | append _ clen => askedByAppend clen o
  | appendGString gs => askedByAppend (UInt32.ofNat gs.length) o
  | appendString _ length => askedByAppend (UInt32.ofNat length) o
  | appendCString cstr =>
      (Heap.cstrLen (o.heap.cellsAt cstr)).bind fun length =>
        askedByAppend (UInt32.ofNat length) o
  | appendInt _ => askedByAppend64 12 o
  | appendLong _ => askedByAppend64 24 o
  | appendLongLong _ => askedByAppend64 24 o
  | appendDouble _ => some (UInt32.ofNat (o.str.length + 32))
  | cStr =>
      if o.str.length ≠ 0 ∧ o.str.capacity < o.str.length + 1 then
        some (UInt32.ofNat (o.str.length + 1))
      else none
  | copyAssign _ => none
  | selfAssign => none

/-- The operation asks for memory. -/
def Asks (o : Object) : GrowCall → Prop
  | copyAssign g => AsksForCopy g o
  | c => ∃ n, c.asked o = some n ∧ Needs n.toNat o

/-- The string has nothing to lose: it is empty, of unknown capacity, and at most one byte is asked
for, or the bytes of another string. -/
def Harmless (o : Object) (c : GrowCall) : Prop :=
  o.str.length = 0 ∧ o.str.capacity ≤ 1 ∧ ∀ n, c.asked o = some n → n.toNat ≤ 1

section Asked

variable {o : Object} {E : String → Object → Prop}

/-- What follows a `reserve` and throws nothing. -/
theorem wp_rest_iff {x : Method Unit} {Q : Unit → Object → Prop} (hQ : ∀ a o', Q a o') :
    wp x Q E (fun _ => True) o ↔ wp x (fun _ _ => True) E (fun _ => True) o :=
  ⟨fun h => wp_mono h (fun _ _ _ => trivial) (fun _ _ h => h) fun _ h => h,
    fun h => wp_mono h (fun a o' _ => hQ a o') (fun _ _ h => h) fun _ h => h⟩

theorem forall_ite_some {α : Type} {c : Prop} [Decidable c] {a : α} {P : α → Prop} :
    (∀ b, (if c then some a else none) = some b → P b) ↔ (c → P a) := by
  split_ifs with h
  · exact ⟨fun hb _ => hb a rfl, fun ha b hb => Option.some.inj hb ▸ ha h⟩
  · exact ⟨fun _ hc => absurd hc h, fun _ b hb => nomatch hb⟩

/-- The throws of a method that makes room first are those of `reserve`. -/
theorem intact_when_iff {c : Prop} [Decidable c] {n : UInt32} :
    Intact (when c (GString.reserve n)) o ↔
      ∀ m, (if c then some n else none) = some m → Intact (GString.reserve m) o := by
  rw [forall_ite_some]
  exact (wp_when _ _).trans ⟨fun h => h.1, fun h => ⟨h, fun _ => trivial⟩⟩

theorem intact_append_iff (cstr : Option Ptr) (clen : UInt32) :
    Intact (GString.append cstr clen) o ↔
      ∀ n, askedByAppend clen o = some n → Intact (GString.reserve n) o := by
  refine Iff.trans ?_ intact_when_iff
  simp only [Intact, GString.append, str, wp_bind, wp_map, wp_get]
  refine wp_rest_iff fun _ o' => ?_
  simp only [onHeap, modifyStr, wp_zoom, wp_modify]
  exact Heap.wp_memcpy_of_any (fun _ => trivial) fun _ _ => trivial

theorem intact_append64_iff (iv : Int64) (base : ℤ) (bytes : UInt8) :
    Intact (GString.append64 iv base bytes) o ↔
      ∀ n, askedByAppend64 bytes o = some n → Intact (GString.reserve n) o := by
  refine Iff.trans ?_ intact_when_iff
  simp only [Intact, GString.append64, str, wp_bind, wp_map, wp_get]
  refine wp_rest_iff fun _ o' => ?_
  simp only [onHeap, modifyStr, wp_zoom, wp_modify]
  exact Heap.wp_store_of_any (fun _ => trivial) fun _ => trivial

theorem intact_appendChar_iff (ch : UInt8) :
    Intact (GString.appendChar ch) o ↔
      ∀ n, (appendChar ch).asked o = some n → Intact (GString.reserve n) o := by
  refine Iff.trans ?_ intact_when_iff
  simp only [Intact, GString.appendChar, str, wp_bind, wp_map, wp_get]
  refine wp_rest_iff fun _ o' => ?_
  simp only [onHeap, modifyStr, wp_zoom, wp_modify]
  exact Heap.wp_store_of_any (fun _ => trivial) fun _ => trivial

theorem intact_appendCString_iff (cstr : Option Ptr) :
    Intact (GString.appendCString cstr) o ↔
      ∀ n, (appendCString cstr).asked o = some n → Intact (GString.reserve n) o := by
  have hlength : ∀ n, Heap.cstrLen (o.heap.cellsAt cstr) = some n → cstr ≠ none := by
    rintro n hn rfl
    cases hn
  simp only [asked, Intact, GString.appendCString, onHeap, wp_when, wp_bind, wp_zoom]
  cases hterm : Heap.cstrLen (o.heap.cellsAt cstr) with
  | none =>
    have hfault : ∀ {Q E}, wp (Heap.strlen cstr) Q E (fun _ => True) o.heap := by
      simp [wp, Heap.strlen, hterm]
    exact ⟨fun _ n hn => (by cases hn), fun _ => ⟨fun _ => hfault, fun _ => trivial⟩⟩
  | some n =>
    have hok : ∀ {Q E}, wp (Heap.strlen cstr) Q E (fun _ => True) o.heap ↔ Q n o.heap := by
      simp [wp, Heap.strlen, hterm]
    have happend := intact_append_iff (o := o) cstr (UInt32.ofNat n)
    simp only [Option.bind_some, hok]
    exact ⟨fun h => happend.mp (h.1 (hlength n hterm)),
      fun h => ⟨fun _ => happend.mpr h, fun _ => trivial⟩⟩

theorem intact_appendDouble_iff (text : List UInt8) :
    Intact (GString.appendDouble text) o ↔
      Intact (GString.reserve (UInt32.ofNat (o.str.length + 32))) o := by
  simp only [Intact, GString.appendDouble, str, wp_bind, wp_map, wp_get]
  refine wp_rest_iff fun _ o' => ?_
  simp only [onHeap, modifyStr, wp_zoom, wp_when, wp_modify]
  exact Heap.wp_store_of_any (fun _ => trivial) fun _ => ⟨fun _ => trivial, fun _ => trivial⟩

theorem intact_cStr_iff :
    Intact ((fun _ => ()) <$> GString.cStr) o ↔
      ∀ n, cStr.asked o = some n → Intact (GString.reserve n) o := by
  simp only [asked]
  rw [forall_ite_some]
  simp only [Intact, GString.cStr, str, wp_bind, wp_map, wp_get, wp_ite, wp_pure]
  constructor
  · rintro h ⟨h0, hlt⟩
    have hensure := (wp_rest_iff fun _ o' => ?_).mp (h.2 h0)
    · exact ((wp_when _ _).mp hensure).1 hlt
    · exact wp_zoom.mpr (Heap.wp_store_of_any (fun _ => trivial) fun _ => trivial)
  · intro h
    refine ⟨fun _ => trivial, fun h0 => (wp_rest_iff fun _ o' => ?_).mpr
      ((wp_when _ _).mpr ⟨fun hlt => h ⟨h0, hlt⟩, fun _ => trivial⟩)⟩
    exact wp_zoom.mpr (Heap.wp_store_of_any (fun _ => trivial) fun _ => trivial)

/-- Apart from copy assignment, memory is asked for by `reserve`. -/
theorem intact_iff_reserve {c : GrowCall} (hc : ∀ g, c ≠ copyAssign g) :
    Intact c.run o ↔ ∀ n, c.asked o = some n → Intact (GString.reserve n) o := by
  have hsome : ∀ m, Intact (GString.reserve m) o ↔
      ∀ n, some m = some n → Intact (GString.reserve n) o := fun m =>
    ⟨fun h _ hn => Option.some.inj hn ▸ h, fun h => h m rfl⟩
  cases c with
  | reserve n => exact hsome n
  | append64 iv base bytes => exact intact_append64_iff iv base bytes
  | appendChar ch => exact intact_appendChar_iff ch
  | append cstr clen => exact intact_append_iff cstr clen
  | appendGString gs => exact intact_append_iff gs.buf _
  | appendString data length => exact intact_append_iff data _
  | appendCString cstr => exact intact_appendCString_iff cstr
  | appendInt iv => exact intact_append64_iff _ _ _
  | appendLong iv => exact intact_append64_iff _ _ _
  | appendLongLong iv => exact intact_append64_iff _ _ _
  | appendDouble text => exact (intact_appendDouble_iff text).trans (hsome _)
  | cStr => exact intact_cStr_iff
  | copyAssign g => exact absurd rfl (hc g)
  | selfAssign => exact ⟨fun _ _ hn => (nomatch hn), fun _ => trivial⟩

end Asked

/-- An operation leaves the string intact when an allocation fails, exactly if it asks for no
memory, or is given it, or the string has nothing to lose. -/
theorem intact_iff {o : Object} (hv : ValidUnlessOom o) (c : GrowCall) :
    Intact c.run o ↔ (c.Asks o → Served o ∨ c.Harmless o) := by
  by_cases hc : ∃ g, c = copyAssign g
  · obtain ⟨g, rfl⟩ := hc
    refine (intact_copyAssign_iff hv).trans (imp_congr_right fun _ => or_congr_right ?_)
    exact ⟨fun h => ⟨h.1, h.2, nofun⟩, fun h => ⟨h.1, h.2.1⟩⟩
  · push Not at hc
    have hasks : c.Asks o ↔ ∃ n, c.asked o = some n ∧ Needs n.toNat o := by
      cases c with
      | copyAssign g => exact absurd rfl (hc g)
      | _ => exact Iff.rfl
    rw [intact_iff_reserve hc, hasks]
    constructor
    · rintro h ⟨n, hn, hneeds⟩
      refine ((intact_reserve_iff hv).mp (h n hn) hneeds).imp_right fun hlose => ?_
      refine ⟨hlose.1, ?_, fun m hm => ?_⟩
      · rcases hneeds.2 with hcap | hcap
        · omega
        · exact hcap
      · rw [hn] at hm
        exact Option.some.inj hm ▸ hlose.2
    · intro h n hn
      refine (intact_reserve_iff hv).mpr fun hneeds => ?_
      exact (h ⟨n, hn, hneeds⟩).imp_right fun hlose => ⟨hlose.1, hlose.2.2 n hn⟩

/-- The first character of a string, for which there is no memory. -/
theorem intact_empty : Intact (appendChar 97).run ⟨⟨[], 0, [0]⟩, .empty⟩ := by
  obtain ⟨hv, -⟩ := valid_empty (h := ⟨[], 0, []⟩) rfl
  refine (intact_iff (o := ⟨⟨[], 0, [0]⟩, .empty⟩) hv (appendChar 97)).mpr fun _ => Or.inr ?_
  refine ⟨by decide, by decide, fun n hn => ?_⟩
  obtain rfl := Option.some.inj hn
  decide

end GrowCall

/-- `gstring ("ab")`, when there is no more memory. -/
def lastAb : Object :=
  ⟨⟨[⟨[some 97, some 98], .malloc, true⟩], 1, [1]⟩, ⟨Meta.pack true false 0 2, some ⟨0, 0⟩⟩⟩

/-- A character is appended to it: `realloc` fails, and the exception leaves a string of length 2
and capacity 4 without a buffer. -/
theorem contents_lost :
    ValidUnlessOom lastAb ∧
      (∃ o', (GrowCall.appendChar 99).run lastAb = .throw "realloc failed" o' ∧
        o'.str.length = 2 ∧ o'.str.capacity = 4 ∧ o'.str.buf = none) ∧
      ¬ Intact (GrowCall.appendChar 99).run lastAb := by
  have hv : ValidUnlessOom lastAb :=
    valid_pack rfl (by decide) (by decide) (fun h => absurd rfl h) fun _ p hp => by
      obtain rfl := Option.some.inj hp
      rfl
  have hrun : (GrowCall.appendChar 99).run lastAb = .throw "realloc failed"
      ⟨⟨[⟨[some 97, some 98], .malloc, true⟩], 2, [1]⟩, ⟨Meta.pack true false 2 2, none⟩⟩ := by
    decide +kernel
  refine ⟨hv, ⟨_, hrun, by decide, by decide, rfl⟩, fun hintact => ?_⟩
  simp only [Intact, wp, hrun] at hintact
  exact (hintact (Or.inr rfl)).2.2.buf (by decide) rfl

end Glim
