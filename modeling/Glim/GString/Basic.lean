import Glim.Machine.Heap
import Glim.GString.Meta
import Glim.GString.Itoa

/-!
# gstring: constructors and `reserve`

A `gstring` is the packed word and the buffer pointer. Its methods are programs over
the heap and the receiver; `gstring.hpp` is followed line by line, with 32-bit
arguments as `UInt32` and a shift by 32 or more as a fault.

## Main definitions

* `GString`, `Object`, `Method`: the string, the string in its heap, and the programs
  over it
* `GString.reserve`: growing the buffer
* `GString.ofBuffer`, `GString.reference`, `GString.ofCString`, `GString.ofChars`,
  `GString.ofString`, `GString.copy`: the constructors
-/

namespace Glim

open Machine Exec

/-- The `gstring` object: `_meta` and `_buf`. -/
structure GString where
  word : BitVec 32
  buf : Option Ptr
  deriving DecidableEq, Repr

/-- A receiver in its heap. -/
structure Object where
  heap : Heap
  str : GString
  deriving DecidableEq, Repr

/-- A method of `gstring`. -/
abbrev Method := Exec Object

namespace Method

/-- Run a program of the allocator or the memory. -/
def onHeap {α : Type} (x : Exec Heap α) : Method α :=
  zoom Object.heap (fun h o => { o with heap := h }) x

/-- The receiver. -/
def str : Method GString := Object.str <$> get

/-- Change the receiver. -/
def modifyStr (f : GString → GString) : Method Unit := modify fun o => { o with str := f o.str }

end Method

open Method

namespace GString

/-- `gstring()`. -/
def empty : GString := ⟨0#32, none⟩

def needsFreeing (s : GString) : Bool := Meta.needsFreeing s.word

def copiedByReference (s : GString) : Bool := Meta.copiedByReference s.word

/-- `(_meta & CAPACITY_MASK) >> CAPACITY_OFFSET`. -/
def power (s : GString) : ℕ := Meta.power s.word

/-- `capacity()`, 1 if no memory is known to be allocated. -/
def capacity (s : GString) : ℕ := 2 ^ s.power

def length (s : GString) : ℕ := Meta.length s.word

/-- `data() + n`. -/
def data (s : GString) (n : ℕ) : Option Ptr := Ptr.shift s.buf n

def setBuf (p : Option Ptr) (s : GString) : GString := { s with buf := p }

/-- The length setter. -/
def setLength (len : ℕ) (s : GString) : GString := { s with word := Meta.setLength s.word len }

section Fields

variable (s : GString) (n : ℕ) (p : Option Ptr)

@[simp] theorem buf_setLength : (s.setLength n).buf = s.buf := rfl

@[simp] theorem length_setLength : (s.setLength n).length = n % 2 ^ 24 :=
  Meta.length_setLength _ _

@[simp] theorem power_setLength : (s.setLength n).power = s.power := Meta.power_setLength _ _

@[simp] theorem needsFreeing_setLength : (s.setLength n).needsFreeing = s.needsFreeing :=
  Meta.needsFreeing_setLength _ _

@[simp] theorem copiedByReference_setLength :
    (s.setLength n).copiedByReference = s.copiedByReference :=
  Meta.copiedByReference_setLength _ _

@[simp] theorem buf_setBuf : (s.setBuf p).buf = p := rfl

@[simp] theorem length_setBuf : (s.setBuf p).length = s.length := rfl

@[simp] theorem power_setBuf : (s.setBuf p).power = s.power := rfl

@[simp] theorem needsFreeing_setBuf : (s.setBuf p).needsFreeing = s.needsFreeing := rfl

@[simp] theorem copiedByReference_setBuf :
    (s.setBuf p).copiedByReference = s.copiedByReference := rfl

theorem length_lt : s.length < 2 ^ 24 := Meta.length_lt _

theorem power_lt : s.power < 64 := Meta.power_lt _

end Fields

section Packed

variable (free ref : Bool) (len : ℕ) (b : Option Ptr) {p : ℕ} (hp : p < 64)

@[simp] theorem length_mk_pack : length ⟨Meta.pack free ref p len, b⟩ = len % 2 ^ 24 :=
  Meta.length_pack _ _ _ _

include hp

@[simp] theorem power_mk_pack : power ⟨Meta.pack free ref p len, b⟩ = p :=
  Meta.power_pack _ _ _ _ hp

@[simp] theorem needsFreeing_mk_pack : needsFreeing ⟨Meta.pack free ref p len, b⟩ = free :=
  Meta.needsFreeing_pack _ _ _ _ hp

@[simp] theorem copiedByReference_mk_pack :
    copiedByReference ⟨Meta.pack free ref p len, b⟩ = ref :=
  Meta.copiedByReference_pack _ _ _ _ hp

end Packed

/-! ## `reserve` -/

/-- `(uint32_t) 1 << n`. -/
def shl1 {σ : Type} (n : ℕ) : Exec σ ℕ := if 32 ≤ n then fail .wideShift else pure (2 ^ n)

/-- `while (((uint32_t) 1 << power) < to) ++power;` -/
def growPower {σ : Type} (toSize : ℕ) : ℕ → ℕ → Exec σ ℕ
  | 0, _ => fail .diverges
  | fuel + 1, power => do
    let size ← shl1 power
    if size < toSize then growPower toSize fuel (power + 1) else pure power

/-- `"gstring too large: " << (int) to`. -/
def tooLarge (toSize : UInt32) : String :=
  "gstring too large: " ++ toString toSize.toInt32.toInt

/-- `realloc` of the own buffer to `size` bytes. -/
def resizeOwn (p : Ptr) (size : ℕ) : Method Unit := do
  let buf ← onHeap (Heap.realloc p size)
  modifyStr (setBuf buf)
  when (buf = none) (raise "realloc failed")

/-- An own buffer of `size` bytes in the place of `oldBuf`, of which `len` bytes are copied. -/
def replaceBuf (oldBuf : Option Ptr) (len size : ℕ) : Method Unit := do
  let buf ← onHeap (Heap.malloc size)
  modifyStr (setBuf buf)
  when (buf = none) (raise "malloc failed")
  when (oldBuf ≠ none) (onHeap (Heap.memcpy buf oldBuf len))
  modifyStr fun s => { s with word := Meta.setFree s.word }

/-- The end of `reserve`: give the buffer the capacity `2 ^ power`. -/
def reallocate (power : ℕ) : Method Unit := do
  modifyStr fun s => { s with word := Meta.setPower s.word power }
  let s ← str
  match s.buf, s.needsFreeing with
  | some p, true => resizeOwn p s.capacity
  | oldBuf, _ => replaceBuf oldBuf s.length s.capacity

/-- Grow buffer to be at least `toSize` characters long. -/
def reserve (toSize : UInt32) : Method Unit := do
  let s ← str
  let size ← shl1 s.power
  if size < toSize.toNat then do
    -- no power beyond 32 is ever shifted by, so the fuel never runs out
    let power ← growPower toSize.toNat 33 (s.power + 1)
    if power > 24 then raise (tooLarge toSize) else reallocate power
  else when (s.power = 0) (reallocate s.power)

/-! ## Constructors -/

/-- `while (((uint32_t) 1 << (power + 1)) <= bufSize) ++power;` -/
def fitPower {σ : Type} (bufSize : ℕ) : ℕ → ℕ → Exec σ ℕ
  | 0, _ => fail .diverges
  | fuel + 1, power => do
    let size ← shl1 (power + 1)
    if size ≤ bufSize then fitPower bufSize fuel (power + 1) else pure power

/-- `gstring (bufSize, buf, free, length, ref)`: reuse `buf` of size `bufSize`. -/
def ofBuffer {σ : Type} (bufSize : UInt32) (buf : Option Ptr) (free : Bool) (length : UInt32)
    (ref : Bool) : Exec σ GString := do
  let power ← fitPower bufSize.toNat 33 0
  pure ⟨Meta.pack free ref power length.toNat, buf⟩

/-- `gstring (ReferenceConstructor(), buf, length, ref)`, the constructor of `C2GSTRING`. -/
def reference (buf : Option Ptr) (length : UInt32) (ref : Bool) : GString :=
  ⟨Meta.pack false ref 0 length.toNat, buf⟩

/-- A new buffer of exactly `length` bytes copied from `chars`, which is not checked for null. -/
def duplicate (chars : Option Ptr) (length : ℕ) : Exec Heap GString := do
  let buf ← Heap.malloc length
  Heap.memcpy buf chars length
  pure ⟨Meta.pack true false 0 length, buf⟩

/-- `gstring (const char* chars)`. -/
def ofCString (chars : Option Ptr) : Exec Heap GString := do
  if chars = none then pure empty
  else do
    let length ← Heap.strlen chars
    if length = 0 then pure empty else duplicate chars length

/-- `gstring (const char* chars, size_t length)`. -/
def ofChars (chars : Option Ptr) (length : ℕ) : Exec Heap GString :=
  if length ≠ 0 then duplicate chars length else pure ⟨Meta.pack true false 0 length, none⟩

/-- `gstring (const std::string& str)`. -/
def ofString (data : Option Ptr) (length : ℕ) : Exec Heap GString :=
  if length ≠ 0 then duplicate data length else pure empty

/-- `gstring (const gstring& gstr)`. -/
def copy (gstr : GString) : Exec Heap GString := do
  let glen := gstr.length
  if glen ≠ 0 then
    if gstr.copiedByReference then pure gstr
    else do
      let buf ← Heap.malloc glen
      when (buf = none) (raise "!malloc")
      Heap.memcpy buf gstr.buf glen
      pure ⟨Meta.pack true false 0 glen, buf⟩
  else pure empty

/-- `clone()`: a copy in a buffer of its own. -/
def clone (s : GString) : Exec Heap GString := ofChars s.buf s.length

/-- `ref()`: a reference that is copied without copying the buffer. -/
def ref {σ : Type} (s : GString) : Exec σ GString :=
  ofBuffer 0 s.buf false (UInt32.ofNat s.length) true

/-- `count >= 0 ? count : length() - pos` -/
def viewLength (s : GString) (pos : UInt32) (count : Int32) : UInt32 :=
  if 0 ≤ count.toInt then count.toUInt32 else UInt32.ofNat s.length - pos

/-- `view (pos, count)`, where a negative `count` means up to the end. -/
def view {σ : Type} (s : GString) (pos : UInt32) (count : Int32) : Exec σ GString :=
  ofBuffer 0 (s.data pos.toNat) false (s.viewLength pos count) s.copiedByReference

/-- `~gstring()`. -/
def destroy (s : GString) : Exec Heap Unit :=
  when (s.buf ≠ none ∧ s.needsFreeing) (Heap.free s.buf)

end GString

end Glim
