import Glim.GString.Basic
import Glim.Text.Stream

/-!
# gstring: the other methods

Appending, erasing, assigning and the netstring and time formatting methods, again as
programs over the receiver and the heap. A byte argument is a pointer and a length;
what `snprintf` and `strftime` would write is an argument of the model.

## Main definitions

* `strftime`: the time that is written into a buffer
* `GString.append`, `GString.appendChar`, `GString.append64`: appending
* `GString.copyAssign`, `GString.moveAssign`: the assignment operators
* `Edit`, `Call`: a call of a method with its arguments
-/

namespace Glim

open Machine Exec Method Text

/-- The cells of initialised bytes. -/
def cells (bytes : List UInt8) : List Cell := bytes.map some

theorem length_cells (bytes : List UInt8) : (cells bytes).length = bytes.length := List.length_map _

/-- The time in the format is `text`: it is written with a NUL if both fit, and otherwise the room
is left undefined and the result is 0. -/
def writeTime (text : List UInt8) (buf : Option Ptr) (max : ℕ) : Exec Heap ℕ :=
  if text.length + 1 ≤ max then do
    Heap.store buf (cells (text ++ [0]))
    pure text.length
  else do
    Heap.store buf (List.replicate max none)
    pure 0

/-- `strftime (buf, max, format, tmv)`: all of the room must be there. -/
def strftime (text : List UInt8) (buf : Option Ptr) (max : ℕ) : Exec Heap ℕ := do
  let h ← get
  if h.room buf < max then fail (h.badAccess buf) else writeTime text buf max

namespace GString

/-! ## Appending -/

/-- `append64 (iv, base, bytes)`: `itoa` at the end of the string. -/
def append64 (iv : Int64) (base : ℤ) (bytes : UInt8) : Method Unit := do
  let s ← str
  let pos := s.length
  when (s.capacity < pos + bytes.toNat) (reserve (UInt32.ofNat (pos + bytes.toNat)))
  let s ← str
  let text := itoa iv.toInt base
  onHeap (Heap.store (s.data pos) (cells (text ++ [0])))
  modifyStr (setLength (pos + text.length))

/-- `append (char)`. -/
def appendChar (ch : UInt8) : Method Unit := do
  let s ← str
  let pos := s.length
  let cap := s.capacity
  when (pos ≥ cap ∨ cap ≤ 1) (reserve (UInt32.ofNat (pos + 1)))
  let s ← str
  onHeap (Heap.store (s.data pos) (cells [ch]))
  modifyStr (setLength (pos + 1))

/-- `append (cstr, clen)`; the sum of the lengths wraps at `2 ^ 32`. -/
def append (cstr : Option Ptr) (clen : UInt32) : Method Unit := do
  let s ← str
  let len := s.length
  let need := UInt32.ofNat len + clen
  let cap := s.capacity
  when (need.toNat > cap ∨ cap ≤ 1) (reserve need)
  let s ← str
  onHeap (Heap.memcpy (s.data len) cstr clen.toNat)
  modifyStr (setLength need.toNat)

/-- `ParseFrom (cstr, clen)`: replace the contents unless `clen` is out of range. -/
def parseFrom (cstr : Option Ptr) (clen : Int32) : Method Bool := do
  if clen.toInt < 0 ∨ clen.toInt > Meta.LENGTH_MASK.toNat then pure false
  else do
    modifyStr (setLength 0)
    append cstr clen.toUInt32
    pure true

/-- `operator << (const gstring&)`. -/
def appendGString (gs : GString) : Method Unit := append gs.buf (UInt32.ofNat gs.length)

/-- `operator << (const std::string&)`. -/
def appendString (data : Option Ptr) (length : ℕ) : Method Unit :=
  append data (UInt32.ofNat length)

/-- `operator << (const char*)`. -/
def appendCString (cstr : Option Ptr) : Method Unit := do
  when (cstr ≠ none) do
    let length ← onHeap (Heap.strlen cstr)
    append cstr (UInt32.ofNat length)

/-- `operator << (int)`: `sizeof (int) * 3` bytes are reserved. -/
def appendInt (iv : Int32) : Method Unit := append64 iv.toInt64 10 12

/-- `operator << (long)`: `sizeof (long) * 3` bytes are reserved. -/
def appendLong (iv : Int64) : Method Unit := append64 iv 10 24

/-- `operator << (long long)`: `sizeof (long long) * 3` bytes are reserved. -/
def appendLongLong (iv : Int64) : Method Unit := append64 iv 10 24

/-- `operator << (double)`, where `text` is the `%f` text: `snprintf (endp(), 31, ..)` writes at
most 30 bytes of it and a NUL, and returns its length. -/
def appendDouble (text : List UInt8) : Method Unit := do
  let s ← str
  let len := s.length
  reserve (UInt32.ofNat (len + 32))
  let s ← str
  onHeap (Heap.store (s.data len) (cells (text.take 30 ++ [0])))
  when (text.length > 0) (modifyStr (setLength (len + min text.length 31)))

/-- `appendTime (format, tmv)`, where `text` is the time in that format. -/
def appendTime (text : List UInt8) : ℕ → Method Unit
  | 0 => fail .diverges
  | fuel + 1 => do
    let s ← str
    let pos := s.length
    let left : ℤ := s.capacity - pos
    if left < 8 then do
      reserve (UInt32.ofNat (pos + 8))
      appendTime text fuel
    else do
      let got ← onHeap (strftime text (s.data pos) left.toNat)
      if got = 0 then
        -- guard against perpetual growth
        when (left ≤ 1024) do
          reserve (UInt32.ofNat (pos + left.toNat * 2))
          appendTime text fuel
      else modifyStr (setLength (pos + got))

/-- `appendNetstring (cstr, clen)`. -/
def appendNetstring (cstr : Option Ptr) (clen : UInt32) : Method Unit := do
  appendInt clen.toInt32
  appendChar 58
  append cstr clen
  appendChar 44

/-- `readNetstring (stream)`, which returns the stream. -/
def readNetstring (stream : IStream) : Method IStream := do
  let number := stream.extractInt32
  let nlen := number.1
  when (¬ number.2.good ∨ nlen < 0) (raise "!netstring")
  let colon := number.2.getChar
  when (¬ colon.2.good ∨ colon.1 ≠ some 58) (raise "!netstring")
  let s ← str
  let glen := s.length
  let cap := s.capacity
  let need := UInt32.ofNat (glen + nlen.toNat)
  when (cap < need.toNat ∨ cap ≤ 1) (reserve need)
  let s ← str
  let body := colon.2.read nlen.toNat
  onHeap (Heap.store (s.data glen) (cells body.1))
  when (¬ body.2.good) (raise "!netstring")
  let comma := body.2.getChar
  when (comma.1 ≠ some 44) (raise "!netstring")
  modifyStr (setLength (glen + nlen.toNat))
  pure comma.2

/-! ## Reading as a C string, cutting, writing in place -/

/-- `c_str()`: the null pointer stands for the static empty string. -/
def cStr : Method (Option Ptr) := do
  let s ← str
  let len := s.length
  if len = 0 then pure none
  else do
    when (s.capacity < len + 1) (reserve (UInt32.ofNat (len + 1)))
    let s ← str
    onHeap (Heap.store (s.data len) (cells [0]))
    pure s.buf

/-- `clear()`. -/
def clear : Method Unit := modifyStr (setLength 0)

/-- `erase (pos, count)`: nothing happens when the range does not end inside the string. -/
def erase (pos count : UInt32) : Method Unit := do
  let s ← str
  let len := s.length
  let pt2 := pos.toNat + count.toNat
  when (pt2 ≤ len) do
    modifyStr (setLength (len - count.toNat))
    onHeap (Heap.memcpy (s.data pos.toNat) (s.data pt2) (len - pt2))

/-- `erase (from, till)` on iterators at the distances `ipos` and `ipos + count`. -/
def eraseRange (ipos count : ℤ) : Method Unit :=
  when (ipos ≥ 0 ∧ count > 0) (erase (UInt32.ofNat ipos.toNat) (UInt32.ofNat count.toNat))

/-- `(*this)[index] = ch`. -/
def setAt (index : UInt32) (ch : UInt8) : Method Unit := do
  let s ← str
  onHeap (Heap.store (s.data index.toNat) (cells [ch]))

/-! ## Assigning -/

/-- `operator = (gstring&&)` from another object, which is left as `gstring()`. -/
def moveAssign (gstr : GString) : Method Unit := do
  let s ← str
  onHeap (destroy s)
  modifyStr fun _ => gstr

/-- `operator = (const gstring&)` from another object. -/
def copyAssign (gstr : GString) : Method Unit := do
  let s ← str
  let glen := gstr.length
  let capacity := s.capacity
  if glen ≤ capacity ∧ capacity > 1 then do
    -- the existing buffer is reused and the capacity kept
    onHeap (Heap.memcpy s.buf gstr.buf glen)
    modifyStr fun s => { s with word := Meta.pack true false s.power glen }
  else do
    onHeap (destroy s)
    if gstr.copiedByReference then modifyStr fun _ => gstr
    else do
      let buf ← onHeap (Heap.malloc glen)
      modifyStr (setBuf buf)
      when (buf = none) (raise "malloc failed")
      onHeap (Heap.memcpy buf gstr.buf glen)
      modifyStr fun s => { s with word := Meta.pack true false 0 glen }

/-- `owned()`: move the bytes into an own buffer unless they are in one. -/
def owned : Method Unit := do
  let s ← str
  when (¬ s.needsFreeing) do
    let g ← onHeap (ofChars s.buf s.length)
    moveAssign g

end GString

/-! ## Calls -/

/-- A call of a method that can change its receiver and takes no other `gstring`. -/
inductive Edit where
  | reserve (toSize : UInt32)
  | append64 (iv : Int64) (base : ℤ) (bytes : UInt8)
  | appendChar (ch : UInt8)
  | append (cstr : Option Ptr) (clen : UInt32)
  | parseFrom (cstr : Option Ptr) (clen : Int32)
  | appendString (data : Option Ptr) (length : ℕ)
  | appendCString (cstr : Option Ptr)
  | appendInt (iv : Int32)
  | appendLong (iv : Int64)
  | appendLongLong (iv : Int64)
  | appendDouble (text : List UInt8)
  | appendTime (text : List UInt8)
  | appendNetstring (cstr : Option Ptr) (clen : UInt32)
  | readNetstring (stream : IStream)
  | cStr
  | clear
  | erase (pos count : UInt32)
  | eraseRange (ipos count : ℤ)
  | setAt (index : UInt32) (ch : UInt8)
  | owned
  deriving DecidableEq, Repr

/-- Make a call and drop its result. -/
def Edit.run : Edit → Method Unit
  | reserve n => GString.reserve n
  | append64 iv base bytes => GString.append64 iv base bytes
  | appendChar ch => GString.appendChar ch
  | append cstr clen => GString.append cstr clen
  | parseFrom cstr clen => (fun _ => ()) <$> GString.parseFrom cstr clen
  | appendString data length => GString.appendString data length
  | appendCString cstr => GString.appendCString cstr
  | appendInt iv => GString.appendInt iv
  | appendLong iv => GString.appendLong iv
  | appendLongLong iv => GString.appendLongLong iv
  | appendDouble text => GString.appendDouble text
  -- two rounds reach a room of 8 bytes, eight more double it past the guard
  | appendTime text => GString.appendTime text 12
  | appendNetstring cstr clen => GString.appendNetstring cstr clen
  | readNetstring stream => (fun _ => ()) <$> GString.readNetstring stream
  | cStr => (fun _ => ()) <$> GString.cStr
  | clear => GString.clear
  | erase pos count => GString.erase pos count
  | eraseRange ipos count => GString.eraseRange ipos count
  | setAt index ch => GString.setAt index ch
  | owned => GString.owned

/-- A call of a method, with another `gstring` as the argument of some. -/
inductive Call where
  | edit (e : Edit)
  | appendGString (gs : GString)
  | copyAssign (gstr : GString)
  | moveAssign (gstr : GString)
  deriving DecidableEq, Repr

def Call.run : Call → Method Unit
  | edit e => e.run
  | appendGString gs => GString.appendGString gs
  | copyAssign g => GString.copyAssign g
  | moveAssign g => GString.moveAssign g

end Glim
