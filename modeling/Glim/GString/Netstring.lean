import Glim.GString.Contents
import Glim.Text.Netstring
import Mathlib.Data.List.ReduceOption
import Mathlib.Data.List.TakeWhile

/-!
# Netstring encoders and decoders

Three functions write a payload as a netstring, to a string or to an output stream, and
three read one back, from a string, a `std::string` or an input stream. They agree on every
sequence of payloads of less than `2 ^ 24` bytes in all, but for one limit: `appendNetstring`
makes room for the widest `int` before it writes the length, so it refuses a netstring whose
header begins less than 12 bytes below the limit.

## Main definitions

* `GString.writeAsNetstring`, `writeNetstring`: the encoders over output streams
* `GString.netstringAt`, `netstringAt`: the decoders over strings
* `HeadersFit`: no header begins too close to the limit

## Main results

* `wp_appendNetstrings`: appending a sequence of netstrings
* `netstrings_roundtrip`: all encoders and decoders agree
* `late_header_refused`: a netstring that would fit is refused
-/

namespace Glim

open Machine Exec Method Text

/-! ## Encoders -/

/-- `operator << (std::ostream&, gstr)`. A stream is the cells that were written to it. -/
def GString.insertInto (s : GString) (os : List Cell) : Exec Heap (List Cell) := do
  if s.buf ≠ none then do
    let chars ← Heap.load s.buf s.length
    pure (os ++ chars)
  else pure os

/-- `writeAsNetstring (stream)`. -/
def GString.writeAsNetstring (s : GString) (stream : List Cell) : Exec Heap (List Cell) := do
  let stream ← s.insertInto (stream ++ cells (decimal s.length) ++ cells [colon])
  pure (stream ++ cells [comma])

/-- `writeNetstring (oss, cstr, clen)`. -/
def writeNetstring (oss : List Cell) (cstr : Option Ptr) (clen : UInt32) :
    Exec Heap (List Cell) := do
  let oss := oss ++ cells (signed clen.toInt32.toInt) ++ cells [colon]
  let chars ← Heap.load cstr clen.toNat
  pure (oss ++ chars ++ cells [comma])

/-- `writeNetstring (oss, payload)` for a gstring. -/
def writeNetstringGString (oss : List Cell) (payload : GString) : Exec Heap (List Cell) :=
  writeNetstring oss payload.buf (UInt32.ofNat payload.length)

/-- `appendNetstring (gstr)`. -/
def GString.appendNetstringGString (gstr : GString) : Method Unit :=
  appendNetstring gstr.buf (UInt32.ofNat gstr.length)

/-! ## Decoders -/

/-- `buf[i]`, where `memory` are the bytes that can be read from `buf` on. -/
def readByte {σ : Type} (memory : List UInt8) (i : ℕ) : Exec σ UInt8 :=
  match memory[i]? with
  | some c => pure c
  | none => fail .outOfBounds

/-- `strtol (buf + pos, &endptr, base)`, with the index that `endptr` points to. -/
def strtolAt {σ : Type} (memory : List UInt8) (pos base : ℕ) : Exec σ (ℤ × ℕ) :=
  match strtol base (memory.drop pos) with
  | some (v, used) => pure (v, pos + used)
  | none => fail .outOfBounds

/-- The body of both functions `netstringAt`: where the payload begins and ends. -/
def scanNetstring {σ : Type} (name : String) (memory : List UInt8) (len pos : UInt32) :
    Exec σ (UInt32 × UInt32) := do
  -- `while (next < len && buf[next] >= '0' && buf[next] <= '9') ++next;`
  let digits := ((memory.take len.toNat).drop pos.toNat).takeWhile isDigit
  let next := pos + UInt32.ofNat digits.length
  when (len ≤ next) (raise (name ++ ": no header"))
  let ch ← readByte memory next.toNat
  when (ch ≠ colon ∨ 10 < next - pos) (raise (name ++ ": no header"))
  let number ← strtolAt memory pos.toNat 10
  when (number.2 ≠ next.toNat) (raise (name ++ ": unexpected header end"))
  let pos := next + 1
  let next := pos + UInt32.ofInt number.1
  when (len ≤ next) (raise (name ++ ": no body"))
  let ch ← readByte memory next.toNat
  when (ch ≠ comma) (raise (name ++ ": no body"))
  pure (pos, next)

/-- The bytes that can be read from `p` on. -/
def bytesAt (h : Heap) (p : Option Ptr) : List UInt8 :=
  ((h.cellsAt p).takeWhile Option.isSome).reduceOption

/-- `gstring::netstringAt (pos, after)`: a string that points at the payload, and `after`. -/
def GString.netstringAt (s : GString) (pos : UInt32) : Exec Heap (GString × UInt32) := do
  when (s.buf = none) (raise "gstring: netstringAt: nullptr")
  let h ← get
  let (pos, next) ← scanNetstring "gstring: netstringAt" (bytesAt h s.buf)
    (UInt32.ofNat s.length) pos
  let payload ← ofBuffer 0 (s.data pos.toNat) false (next - pos) false
  pure (payload, next + 1)

/-- `netstringAt (source, pos, after)`: a copy of the payload, and `after`. -/
def netstringAt {σ : Type} (source : List UInt8) (pos : UInt32) :
    Exec σ (List UInt8 × UInt32) := do
  let (pos, next) ← scanNetstring "netstringAt" (source ++ [0]) (UInt32.ofNat source.length) pos
  let count := (next - pos).toNat
  if pos.toNat + count ≤ source.length + 1 then
    pure (((source ++ [0]).drop pos.toNat).take count, next + 1)
  else fail .outOfBounds

/-! ## Decoding one netstring -/

section Decode

variable {pre payload rest bytes memory : List UInt8} {len pos : UInt32}

theorem toNat_succ {i : UInt32} (hi : i.toNat + 1 < 2 ^ 32) : (i + 1).toNat = i.toNat + 1 := by
  rw [UInt32.toNat_add]
  exact Nat.mod_eq_of_lt hi

theorem readByte_of_getElem? {σ : Type} {i : ℕ} {c : UInt8} (hc : memory[i]? = some c) :
    (readByte memory i : Exec σ UInt8) = pure c := by
  rw [readByte, hc]

/-- The numbers of bytes before a netstring, of its header and of its payload. -/
theorem length_before_payload (pre payload rest : List UInt8) :
    (pre ++ netstring payload ++ rest).length =
      pre.length + (decimal payload.length).length + 1 + payload.length + 1 + rest.length := by
  rw [List.length_append, List.length_append, length_netstring]
  omega

/-- The payload lies behind the header. -/
theorem take_drop_payload :
    ((pre ++ netstring payload ++ rest).drop
      (pre.length + (decimal payload.length).length + 1)).take payload.length = payload := by
  have hsplit : pre ++ netstring payload ++ rest =
      (pre ++ decimal payload.length ++ [colon]) ++ (payload ++ comma :: rest) := by
    simp [netstring]
  rw [hsplit, List.drop_left' (by simp; omega)]
  exact List.take_left' rfl

/-- The text from `pos` on begins with a header. -/
def HeaderAt (bytes : List UInt8) (pos : ℕ) (digits rest : List UInt8) : Prop :=
  bytes.drop pos = digits ++ colon :: rest ∧ (∀ c ∈ digits, isDigit c) ∧ digits.length ≤ 10

section Scan

variable {σ : Type} (name : String) {digits : List UInt8}

/-- The digits at `pos`, up to the end of the text. -/
theorem toNat_scan (hpos : pos.toNat ≤ bytes.length) (hlen : bytes.length = len.toNat) :
    (pos + UInt32.ofNat ((bytes.drop pos.toNat).takeWhile isDigit).length).toNat =
        pos.toNat + ((bytes.drop pos.toNat).takeWhile isDigit).length ∧
      pos.toNat + ((bytes.drop pos.toNat).takeWhile isDigit).length ≤ bytes.length := by
  have hlt := len.toNat_lt
  have hsize : UInt32.size = 2 ^ 32 := rfl
  have hle := (List.takeWhile_prefix isDigit (l := bytes.drop pos.toNat)).length_le
  rw [List.length_drop] at hle
  refine ⟨?_, by omega⟩
  rw [UInt32.toNat_add, UInt32.toNat_ofNat_of_lt' (by omega)]
  exact Nat.mod_eq_of_lt (by omega)

/-- What can be read of the text can be read of the memory. -/
theorem getElem?_of_take (hmem : memory.take len.toNat = bytes) {i : ℕ} {c : UInt8}
    (hc : bytes[i]? = some c) : memory[i]? = some c := by
  rw [← hmem, List.getElem?_take] at hc
  split at hc
  · exact hc
  · cases hc

/-- Without a header, an exception is thrown. -/
theorem scanNetstring_no_header (hmem : memory.take len.toNat = bytes)
    (hlen : bytes.length = len.toNat)
    (hno : ¬ ∃ digits rest, HeaderAt bytes pos.toNat digits rest) :
    (scanNetstring name memory len pos : Exec σ (UInt32 × UInt32)) =
      raise (name ++ ": no header") := by
  have hraise : ∀ {τ : Type} (f : Unit → Exec σ τ),
      (raise (name ++ ": no header") >>= f : Exec σ τ) = raise (name ++ ": no header") :=
    fun _ => rfl
  simp only [scanNetstring]
  rw [hmem]
  by_cases hpos : pos.toNat < bytes.length
  · obtain ⟨hnext, hle⟩ := toNat_scan hpos.le hlen
    generalize hd : (bytes.drop pos.toNat).takeWhile isDigit = digits at hnext hle ⊢
    by_cases hend : len ≤ pos + UInt32.ofNat digits.length
    · rw [when_of_pos hend, hraise]
    · have hin : pos.toNat + digits.length < bytes.length := by
        rw [UInt32.le_iff_toNat_le, hnext] at hend
        omega
      -- what follows the digits is no digit
      obtain ⟨c, rest, hrest⟩ : ∃ c rest, bytes.drop pos.toNat = digits ++ c :: rest := by
        have hsplit := List.takeWhile_append_dropWhile (p := isDigit) (l := bytes.drop pos.toNat)
        rw [hd] at hsplit
        cases hdrop : (bytes.drop pos.toNat).dropWhile isDigit with
        | nil =>
          rw [hdrop, List.append_nil] at hsplit
          have := congrArg List.length hsplit
          rw [List.length_drop] at this
          omega
        | cons c rest => exact ⟨c, rest, by rw [← hdrop, hsplit]⟩
      have hget : memory[pos.toNat + digits.length]? = some c := by
        refine getElem?_of_take hmem ?_
        rw [← List.getElem?_drop, hrest, List.getElem?_append_right le_rfl, Nat.sub_self]
        rfl
      have hbad : c ≠ colon ∨ 10 < pos + UInt32.ofNat digits.length - pos := by
        by_contra hgood
        rw [not_or, not_not] at hgood
        obtain ⟨rfl, hfew⟩ := hgood
        refine hno ⟨digits, rest, hrest, fun c hc => List.mem_takeWhile_imp (hd ▸ hc), ?_⟩
        have hlt := len.toNat_lt
        rw [UInt32.add_comm, UInt32.add_sub_cancel, UInt32.lt_iff_toNat_lt,
          UInt32.toNat_ofNat_of_lt' (by have hsize : UInt32.size = 2 ^ 32 := rfl; omega)] at hfew
        exact Nat.le_of_not_lt hfew
      rw [when_of_not hend, pure_bind, hnext, readByte_of_getElem? hget, pure_bind,
        when_of_pos hbad, hraise]
  · have hnil : bytes.drop pos.toNat = [] := List.drop_eq_nil_of_le (Nat.le_of_not_lt hpos)
    have hend : len ≤ pos + UInt32.ofNat ([] : List UInt8).length := by
      rw [List.length_nil, UInt32.le_iff_toNat_le, UInt32.toNat_add]
      have hzero : (UInt32.ofNat 0).toNat = 0 := rfl
      rw [hzero, Nat.add_zero, Nat.mod_eq_of_lt pos.toNat_lt]
      omega
    rw [hnil, List.takeWhile_nil, when_of_pos hend, hraise]

section Header

variable {rest : List UInt8} {p : ℕ}

/-- A header ends inside the text. -/
theorem HeaderAt.length_le (hh : HeaderAt bytes p digits rest) :
    p + digits.length + 1 + rest.length = bytes.length := by
  have hlen := congrArg List.length hh.1
  rw [List.length_drop, List.length_append, List.length_cons] at hlen
  omega

/-- Behind the digits of a header is its colon. -/
theorem HeaderAt.getElem?_colon (hh : HeaderAt bytes p digits rest) :
    bytes[p + digits.length]? = some colon := by
  rw [← List.getElem?_drop, hh.1, List.getElem?_append_right le_rfl, Nat.sub_self]
  rfl

/-- The digits of a header are all the digits that are there. -/
theorem HeaderAt.takeWhile_eq (hh : HeaderAt bytes p digits rest) :
    (bytes.drop p).takeWhile isDigit = digits := by
  rw [hh.1]
  exact (takeWhile_run rest hh.2.1 rfl).1

/-- `strtol` reads the digits of a header. -/
theorem HeaderAt.strtolAt_eq (hmem : memory.take len.toNat = bytes)
    (hh : HeaderAt bytes p digits rest) :
    (strtolAt memory p 10 : Exec σ (ℤ × ℕ)) = pure ((value digits : ℤ), p + digits.length) := by
  have hle := hh.length_le
  obtain ⟨hdrop, hdigit, hfew⟩ := hh
  have hvalue : value digits < 10 ^ 10 :=
    (value_lt hdigit).trans_le (Nat.pow_le_pow_right (by decide) hfew)
  have hsplit : memory = bytes ++ memory.drop len.toNat := by
    rw [← hmem, List.take_append_drop]
  have hmemdrop : memory.drop p = digits ++ colon :: (rest ++ memory.drop len.toNat) := by
    rw [hsplit, List.drop_append_of_le_length (by omega), hdrop, ← hsplit]
    simp
  -- the digits are followed by the colon, and their number is not too large
  rw [strtolAt, hmemdrop, strtol_digits hdigit rfl (fun _ => ⟨rfl, by decide, by decide⟩)
    (by omega)]

end Header

/-- The end of a scan, which looks for the comma. -/
theorem readComma (hmem : memory.take len.toNat = bytes) (hlen : bytes.length = len.toNat)
    (start next : UInt32) :
    (do
      when (len ≤ next) (raise (name ++ ": no body"))
      let ch ← readByte memory next.toNat
      when (ch ≠ comma) (raise (name ++ ": no body"))
      pure (start, next) : Exec σ (UInt32 × UInt32)) =
    if bytes[next.toNat]? = some comma then pure (start, next)
      else raise (name ++ ": no body") := by
  by_cases hbody : len ≤ next
  · have hnone : bytes[next.toNat]? = none := by
      rw [List.getElem?_eq_none_iff, hlen]
      exact UInt32.le_iff_toNat_le.mp hbody
    rw [when_of_pos hbody, hnone, if_neg nofun]
    rfl
  · have hi : next.toNat < bytes.length := by
      rw [UInt32.le_iff_toNat_le] at hbody
      omega
    have hbyte : bytes[next.toNat]? = some bytes[next.toNat] := List.getElem?_eq_getElem hi
    rw [when_of_not hbody, pure_bind, readByte_of_getElem? (getElem?_of_take hmem hbyte), pure_bind,
      hbyte]
    by_cases hcomma : bytes[next.toNat] = comma
    · rw [when_of_not (not_not_intro hcomma), pure_bind, hcomma, if_pos rfl]
    · rw [when_of_pos hcomma, if_neg fun h => hcomma (Option.some.inj h)]
      rfl

/-- With a header, the comma is looked for where the number says, modulo `2 ^ 32`. -/
theorem scanNetstring_of_header (hmem : memory.take len.toNat = bytes)
    (hlen : bytes.length = len.toNat) (hh : HeaderAt bytes pos.toNat digits rest) :
    ∃ start next : UInt32,
      (scanNetstring name memory len pos : Exec σ (UInt32 × UInt32)) =
        (if bytes[next.toNat]? = some comma then pure (start, next)
          else raise (name ++ ": no body")) ∧
      start.toNat = pos.toNat + digits.length + 1 ∧
      next.toNat = (start.toNat + value digits) % 2 ^ 32 := by
  have hlt := len.toNat_lt
  have hsize : UInt32.size = 2 ^ 32 := rfl
  have hin := hh.length_le
  have hfew := hh.2.2
  obtain ⟨hnext, -⟩ := toNat_scan (by omega : pos.toNat ≤ bytes.length) hlen
  rw [hh.takeWhile_eq] at hnext
  -- the header has at most ten digits and ends with a colon
  have hwidth : pos + UInt32.ofNat digits.length - pos = UInt32.ofNat digits.length := by
    rw [UInt32.add_comm, UInt32.add_sub_cancel]
  have hheader : ¬ (colon ≠ colon ∨ 10 < UInt32.ofNat digits.length) := by
    rw [UInt32.lt_iff_toNat_lt, UInt32.toNat_ofNat_of_lt' (by omega), not_or]
    exact ⟨not_not_intro rfl, not_lt.mpr hfew⟩
  have hused : ¬ pos.toNat + digits.length ≠ pos.toNat + digits.length := not_not_intro rfl
  -- the scan stops before the end of the string
  have hinside : ¬ len ≤ pos + UInt32.ofNat digits.length := by
    rw [UInt32.le_iff_toNat_le, hnext]
    omega
  have hstart : (pos + UInt32.ofNat digits.length + 1).toNat = pos.toNat + digits.length + 1 := by
    rw [toNat_succ (by omega), hnext]
  -- the end of the body is kept in 32 bits
  have hend : (pos + UInt32.ofNat digits.length + 1 + UInt32.ofInt (value digits)).toNat =
      (pos.toNat + digits.length + 1 + value digits) % 2 ^ 32 := by
    have hof : (UInt32.ofInt (value digits)).toNat = value digits % 2 ^ 32 := by
      rw [UInt32.ofInt, UInt32.toNat_ofNat']
      omega
    rw [UInt32.toNat_add, hstart, hof]
    omega
  refine ⟨pos + UInt32.ofNat digits.length + 1,
    pos + UInt32.ofNat digits.length + 1 + UInt32.ofInt (value digits), ?_, hstart,
    by rw [hend, hstart]⟩
  simp only [scanNetstring]
  rw [hmem, hh.takeWhile_eq, hwidth, hnext, when_of_not hinside, pure_bind,
    readByte_of_getElem? (getElem?_of_take hmem hh.getElem?_colon), pure_bind,
    when_of_not hheader, pure_bind, hh.strtolAt_eq hmem, pure_bind, when_of_not hused, pure_bind]
  exact readComma name hmem hlen _ _

end Scan

/-- A netstring at `pos` is found. -/
theorem scanNetstring_eq {σ : Type} (name : String) (memory : List UInt8) (len : UInt32)
    (hmem : memory.take len.toNat = bytes) (hlen : bytes.length = len.toNat)
    (hbytes : bytes = pre ++ netstring payload ++ rest)
    (hpos : pos.toNat = pre.length) :
    ∃ start next : UInt32,
      (scanNetstring name memory len pos : Exec σ (UInt32 × UInt32)) = pure (start, next) ∧
      start.toNat = pre.length + (decimal payload.length).length + 1 ∧
      next.toNat = start.toNat + payload.length := by
  have hlt := len.toNat_lt
  have htotal : pre.length + (decimal payload.length).length + 1 + payload.length + 1 +
      rest.length = len.toNat := by
    rw [← hlen, hbytes, length_before_payload]
  have hfew : (decimal payload.length).length ≤ 10 :=
    length_radix_le (by decide) (by decide) (by omega)
  -- the header, from `pos` on
  have hdrop : bytes.drop pos.toNat =
      decimal payload.length ++ colon :: (payload ++ comma :: rest) := by
    rw [hbytes, hpos, List.append_assoc, List.drop_left' rfl, netstring_append]
  obtain ⟨start, next, hscan, hstart, hnext⟩ := scanNetstring_of_header (σ := σ) name hmem hlen
    ⟨hdrop, fun _ hc => isDigit_of_mem_decimal hc, hfew⟩
  rw [value_decimal, Nat.mod_eq_of_lt (by omega)] at hnext
  refine ⟨start, next, ?_, by rw [hstart, hpos], hnext⟩
  have hcomma : bytes[next.toNat]? = some comma := by
    have hi : next.toNat =
        pos.toNat + ((decimal payload.length).length + (1 + payload.length)) := by omega
    rw [hi, ← List.getElem?_drop, hdrop, List.getElem?_append_right (by omega),
      Nat.add_sub_cancel_left, Nat.add_comm, List.getElem?_cons_succ,
      List.getElem?_append_right le_rfl, Nat.sub_self]
    rfl
  rw [hscan, if_pos hcomma]

theorem isSome_of_mem_cells {c : Cell} (hc : c ∈ cells bytes) : c.isSome := by
  obtain ⟨b, -, rfl⟩ := List.mem_map.mp hc
  rfl

theorem reduceOption_cells (bytes : List UInt8) : (cells bytes).reduceOption = bytes := by
  simp [cells, List.reduceOption, List.filterMap_map]

/-- What can be read from a buffer on begins with the contents of the string. -/
theorem take_bytesAt {o : Object} (hbytes : o.contents = cells bytes) :
    (bytesAt o.heap o.str.buf).take bytes.length = bytes := by
  have hcells : o.heap.cellsAt o.str.buf =
      cells bytes ++ (o.heap.cellsAt o.str.buf).drop o.str.length := by
    rw [← hbytes, Object.contents, List.take_append_drop]
  rw [bytesAt, hcells, List.takeWhile_append_of_pos fun c hc => isSome_of_mem_cells hc,
    List.reduceOption_append, reduceOption_cells]
  exact List.take_left' rfl

/-- The memory that is scanned in a string is its contents. -/
theorem take_memory {o : Object} (hv : Valid o) (hbytes : o.contents = cells bytes) :
    (bytesAt o.heap o.str.buf).take (UInt32.ofNat o.str.length).toNat = bytes ∧
      bytes.length = (UInt32.ofNat o.str.length).toNat ∧ bytes.length = o.str.length := by
  have hlt := o.str.length_lt
  have hlen : bytes.length = o.str.length := by
    rw [← length_contents hv, hbytes, cells, List.length_map]
  have hlen32 := UInt32.toNat_ofNat_of_le (n := o.str.length) (by omega)
  refine ⟨?_, by rw [hlen32, hlen], hlen⟩
  rw [hlen32, ← hlen]
  exact take_bytesAt hbytes

/-- A string that points at a part of the contents. -/
theorem wp_gstring_netstringAt_of_scan {o : Object} (hv : Valid o)
    (hbytes : o.contents = cells bytes) {start next : UInt32}
    (hscan : (scanNetstring "gstring: netstringAt" (bytesAt o.heap o.str.buf)
      (UInt32.ofNat o.str.length) pos : Exec Heap (UInt32 × UInt32)) = pure (start, next))
    (hle : start.toNat ≤ next.toNat) (hin : next.toNat < bytes.length) :
    wp (o.str.netstringAt pos)
      (fun r h => h = o.heap ∧ r.2.toNat = next.toNat + 1 ∧ Object.contents ⟨h, r.1⟩ =
        cells ((bytes.drop start.toNat).take (next.toNat - start.toNat)))
      (fun _ _ => False) (fun _ => False) o.heap := by
  have hlt := o.str.length_lt
  obtain ⟨-, -, hlen⟩ := take_memory hv hbytes
  have hnull : o.str.buf ≠ none := by
    intro hnull
    have hroom := hv.length_le
    rw [Object.room, hnull, Heap.room_none] at hroom
    omega
  have hcount : (next - start).toNat = next.toNat - start.toNat :=
    UInt32.toNat_sub_of_le _ _ (UInt32.le_iff_toNat_le.mpr hle)
  simp only [GString.netstringAt, when_of_not hnull, pure_bind, wp_bind, wp_get, hscan, wp_pure]
  rw [GString.ofBuffer_eq, if_pos (by decide)]
  refine ⟨rfl, toNat_succ (by omega), ?_⟩
  have hcells : (o.heap.cellsAt o.str.buf).take o.str.length = cells bytes := hbytes
  have hpart : ((o.heap.cellsAt o.str.buf).drop start.toNat).take (next.toNat - start.toNat) =
      (((o.heap.cellsAt o.str.buf).take o.str.length).drop start.toNat).take
        (next.toNat - start.toNat) := by
    rw [List.drop_take, List.take_take, min_eq_left (by omega)]
  rw [contents_pack, hcount, Nat.mod_eq_of_lt (by omega), GString.data, Heap.cellsAt_shift, hpart,
    hcells, cells, ← List.map_drop, ← List.map_take]
  rfl

/-- A copy of a part of a `std::string`. -/
theorem netstringAt_of_scan {σ : Type} {start next : UInt32} (hshort : bytes.length < 2 ^ 32)
    (hscan : (scanNetstring "netstringAt" (bytes ++ [0]) (UInt32.ofNat bytes.length) pos :
      Exec σ (UInt32 × UInt32)) = pure (start, next))
    (hle : start.toNat ≤ next.toNat) (hin : next.toNat < bytes.length) :
    (netstringAt bytes pos : Exec σ (List UInt8 × UInt32)) =
        pure ((bytes.drop start.toNat).take (next.toNat - start.toNat), next + 1) ∧
      (next + 1).toNat = next.toNat + 1 := by
  have hcount : (next - start).toNat = next.toNat - start.toNat :=
    UInt32.toNat_sub_of_le _ _ (UInt32.le_iff_toNat_le.mpr hle)
  refine ⟨?_, toNat_succ (by omega)⟩
  rw [netstringAt, hscan, pure_bind]
  simp only [hcount]
  rw [if_pos (by omega), List.drop_append_of_le_length (by omega),
    List.take_append_of_le_length (by rw [List.length_drop]; omega)]

/-- A netstring in a string is found, and nothing is changed. -/
theorem wp_gstring_netstringAt {o : Object} (hv : Valid o)
    (hbytes : o.contents = cells (pre ++ netstring payload ++ rest))
    (hpos : pos.toNat = pre.length) :
    wp (o.str.netstringAt pos)
      (fun r h => h = o.heap ∧ Object.contents ⟨h, r.1⟩ = cells payload ∧
        r.2.toNat = (pre ++ netstring payload).length)
      (fun _ _ => False) (fun _ => False) o.heap := by
  obtain ⟨hmem, hlen32, hlen⟩ := take_memory hv hbytes
  have htotal := length_before_payload pre payload rest
  obtain ⟨start, next, hscan, hstart, hnext⟩ := scanNetstring_eq (σ := Heap)
    "gstring: netstringAt" _ _ hmem hlen32 rfl hpos
  refine wp_mono (wp_gstring_netstringAt_of_scan hv hbytes hscan (by omega) (by omega))
    (fun r h hr => ⟨hr.1, ?_, ?_⟩) (fun _ _ h => h) fun _ h => h
  · rw [hr.2.2, hnext, Nat.add_sub_cancel_left, hstart, take_drop_payload]
  · rw [hr.2.1, hnext, hstart, List.length_append, length_netstring]
    omega

/-- A netstring in a `std::string` is found. -/
theorem netstringAt_eq {σ : Type} (hshort : bytes.length < 2 ^ 32)
    (hbytes : bytes = pre ++ netstring payload ++ rest) (hpos : pos.toNat = pre.length) :
    ∃ after : UInt32, (netstringAt bytes pos : Exec σ (List UInt8 × UInt32)) =
      pure (payload, after) ∧ after.toNat = (pre ++ netstring payload).length := by
  have htotal := length_before_payload pre payload rest
  rw [← hbytes] at htotal
  have hlen := UInt32.toNat_ofNat_of_lt' (n := bytes.length) hshort
  obtain ⟨start, next, hscan, hstart, hnext⟩ := scanNetstring_eq (σ := σ) "netstringAt"
    (bytes ++ [0]) (UInt32.ofNat bytes.length)
    (by rw [hlen]; exact List.take_left' rfl) hlen.symm hbytes hpos
  obtain ⟨hat, hafter⟩ := netstringAt_of_scan hshort hscan (by omega) (by omega)
  refine ⟨next + 1, ?_, ?_⟩
  · rw [hat, hnext, Nat.add_sub_cancel_left, hstart, hbytes, take_drop_payload]
  · rw [hafter, hnext, hstart, List.length_append, length_netstring]
    omega

end Decode

/-! ## Encoding one payload -/

/-- The memory of the string `s.1` holds the payload `s.2`, apart from the buffer of `o`. -/
structure Source (o : Object) (s : GString × List UInt8) : Prop where
  readable : s.1.length ≤ o.heap.room s.1.buf
  holds : Object.contents ⟨o.heap, s.1⟩ = cells s.2
  apart : ∀ q, s.1.buf = some q → s.1.length ≠ 0 →
    q.block < o.heap.blocks.length ∧ o.str.buf.map Ptr.block ≠ some q.block

/-- The string with `new` at its end. -/
structure Extended (new : List Cell) (o o' : Object) : Prop where
  valid : Valid o'
  contents : o'.contents = o.contents ++ new
  limit : o'.str.capacity ≤ max o.str.capacity (2 ^ 24)
  frame : Frame o o'

section Encode

variable {o o' o'' : Object} {s : GString × List UInt8} {new new' : List Cell}

theorem Source.length_eq (hs : Source o s) : s.2.length = s.1.length := by
  have h := congrArg List.length hs.holds
  rw [cells, List.length_map, Object.contents, List.length_take] at h
  exact h.symm.trans (min_eq_left hs.readable)

/-- The payload is apart from the buffer. -/
theorem Source.chars (hs : Source o s) : Chars o s.1.buf s.1.length := by
  refine ⟨hs.readable, fun hne hown => ?_⟩
  cases hb : s.1.buf with
  | none =>
    have hread := hs.readable
    rw [hb, Heap.room_none] at hread
    omega
  | some q =>
    rw [hb] at hown
    exact (hs.apart q hb hne).2 hown

/-- What a method on `o` leaves alone holds the payload as before. -/
theorem Source.frame (hs : Source o s) (hf : Frame o o') : Source o' s := by
  cases hb : s.1.buf with
  | none =>
    have hzero : s.1.length = 0 := by
      have := hs.readable
      rw [hb, Heap.room_none] at this
      omega
    refine ⟨by omega, ?_, fun q hq => by rw [hb] at hq; cases hq⟩
    rw [← hs.holds, Object.contents, Object.contents, hzero, List.take_zero, List.take_zero]
  | some q =>
    rcases Nat.eq_zero_or_pos s.1.length with hzero | hpos
    · refine ⟨by omega, ?_, fun _ _ h => absurd hzero h⟩
      rw [← hs.holds, Object.contents, Object.contents, hzero, List.take_zero, List.take_zero]
    · obtain ⟨hq, hne⟩ := hs.apart q hb (by omega)
      have hcells := hf.cellsAt q hq hne
      refine ⟨?_, ?_, fun q' hq' _ => ?_⟩
      · rw [hb, Heap.room, hcells, ← hb]
        exact hs.readable
      · rw [← hs.holds, Object.contents, Object.contents, hb]
        simp only [hcells]
      · obtain rfl : q = q' := Option.some.inj (hb.symm.trans hq')
        exact ⟨hq.trans_le hf.grows, hf.apart hq hne⟩

theorem Extended.refl (hv : Valid o) : Extended [] o o :=
  ⟨hv, (List.append_nil _).symm, le_max_left _ _, Frame.refl o⟩

theorem Extended.trans (h : Extended new o o') (h' : Extended new' o' o'') :
    Extended (new ++ new') o o'' where
  valid := h'.valid
  contents := by rw [h'.contents, h.contents, List.append_assoc]
  limit := h'.limit.trans (max_le h.limit (le_max_right _ _))
  frame := h.frame.trans h'.frame

theorem Extended.length (hv : Valid o) (h : Extended new o o') :
    o'.str.length = o.str.length + new.length := by
  rw [← length_contents h.valid, h.contents, List.length_append, length_contents hv]

theorem Appended.extended {n k : ℕ} (h : Appended n new k o o') (hk : o.str.length + k < 2 ^ 24) :
    Extended (new.take k) o o' :=
  ⟨h.valid, h.contents hk, h.limit, h.frame⟩

theorem cells_append (a b : List UInt8) : cells (a ++ b) = cells a ++ cells b := List.map_append

theorem take_length_cells {bytes tail : List UInt8} :
    (cells (bytes ++ tail)).take bytes.length = cells bytes := by
  rw [cells_append]
  exact List.take_left' (List.length_map _)

/-- The length of a payload as an `int`. -/
theorem signed_toInt32 {n : ℕ} (hn : n < 2 ^ 24) :
    signed (UInt32.ofNat n).toInt32.toInt = decimal n := by
  rw [UInt32.toInt32_ofNat', Int32.toInt_ofNat_of_lt (by omega)]
  exact if_neg (by omega)

/-- Bytes apart from the buffer can be appended as a netstring. -/
theorem Chars.appendNetstringOk {cstr : Option Ptr} {n : ℕ} (hc : Chars o cstr n)
    (hn : n < 2 ^ 24) (h31 : o.str.length + ((decimal n).length + 1) + n ≤ 2 ^ 31) :
    AppendNetstringOk cstr (UInt32.ofNat n) o := by
  simp only [AppendNetstringOk, UInt32.toNat_ofNat_of_le (n := n) (by omega), signed_toInt32 hn]
  exact ⟨hc.readable, h31, fun hown hne => absurd hown (hc.not_own hne)⟩

/-- The header of a netstring is the length and a colon. -/
theorem extended_header {n : ℕ} {o₁ o₂ : Object}
    (h₁ : Appended (o.str.length + 12) (cells (decimal n ++ [0])) (decimal n).length o o₁)
    (h₂ : Appended (o₁.str.length + 1) (cells [58]) 1 o₁ o₂) (hv : Valid o)
    (hlen : o.str.length + (decimal n).length + 1 < 2 ^ 24) :
    Extended (cells (decimal n ++ [colon])) o o₂ ∧
      o₂.str.length = o.str.length + (decimal n).length + 1 := by
  have e₁ := h₁.extended (by omega)
  rw [take_length_cells] at e₁
  have l₁ := e₁.length hv
  rw [length_cells] at l₁
  have e₂ : Extended (cells [colon]) o₁ o₂ := h₂.extended (by omega)
  have l₂ : o₂.str.length = o₁.str.length + 1 := e₂.length e₁.valid
  rw [cells_append]
  exact ⟨e₁.trans e₂, by omega⟩

/-- Appending the netstring of a payload: only making room for the header can fail. -/
theorem wp_appendNetstringGString (hv : Valid o) (hs : Source o s)
    (hlen : o.str.length + (netstring s.2).length < 2 ^ 24) :
    wp (GString.appendNetstringGString s.1)
      (fun _ o' => Extended (cells (netstring s.2)) o o' ∧ ¬ TooLarge (o.str.length + 12) o)
      (fun e o' => e = GString.tooLarge (UInt32.ofNat (o.str.length + 12)) ∧ o' = o ∧
        TooLarge (o.str.length + 12) o)
      (fun _ => False) o := by
  have hn := hs.length_eq
  have hclen := UInt32.toNat_ofNat_of_le (n := s.1.length) (by have := s.1.length_lt; omega)
  have hdec := signed_toInt32 s.1.length_lt
  rw [length_netstring, hn] at hlen
  have happ := wp_appendNetstring hv (hs.chars.appendNetstringOk s.1.length_lt (by omega))
  simp only [hclen, hdec] at happ
  refine wp_mono happ (fun _ o' h => ?_) (fun e o' h => ?_) fun _ h => h
  · obtain ⟨o₁, o₂, o₃, h₁, h₂, h₃, h₄⟩ := h
    have hnot : ¬ TooLarge (o.str.length + 12) o := fun htl =>
      absurd (h₁.small htl.1) (not_le.mpr htl.2)
    obtain ⟨e₂, l₂⟩ := extended_header h₁ h₂ hv (by omega)
    have hs₂ := hs.frame e₂.frame
    have e₃ := h₃.extended (by omega)
    have hbody : ((o₂.heap.cellsAt s.1.buf).take s.1.length).take s.1.length = cells s.2 := by
      rw [List.take_take, min_self]
      exact hs₂.holds
    rw [hbody] at e₃
    have l₃ := e₃.length e₂.valid
    rw [length_cells] at l₃
    have e₄ : Extended (cells [comma]) o₃ o' := h₄.extended (by omega)
    refine ⟨?_, hnot⟩
    have e := (e₂.trans e₃).trans e₄
    rwa [← cells_append, ← cells_append, ← hn, List.append_assoc, List.append_assoc] at e
  · obtain ⟨-, ⟨rfl, rfl, htl⟩ | ⟨o₁, o₂, h₁, h₂, -, -, -, hlarge⟩⟩ := h
    · rw [UInt32.toNat_ofNat_of_le (by omega)] at htl
      exact ⟨rfl, rfl, htl⟩
    -- the payload is within the limit
    · obtain ⟨-, l₂⟩ := extended_header h₁ h₂ hv (by omega)
      rw [UInt32.toNat_add, UInt32.toNat_ofNat_of_le (by omega), hclen] at hlarge
      have := Nat.mod_le (o₂.str.length + s.1.length) (2 ^ 32)
      omega

/-- The streams that hold what `writeAsNetstring` and `writeNetstring` write. -/
theorem wp_writeAsNetstring (hs : Source o s) (stream : List Cell) :
    wp (s.1.writeAsNetstring stream)
      (fun os h => os = stream ++ cells (netstring s.2) ∧ h = o.heap) (fun _ _ => False)
      (fun _ => False) o.heap := by
  have hinsert : ∀ os, wp (s.1.insertInto os)
      (fun os' h => os' = os ++ cells s.2 ∧ h = o.heap) (fun _ _ => False) (fun _ => False)
      o.heap := by
    intro os
    refine (wp_ite _ _).mpr ⟨fun _ => ?_, fun hnull => ⟨?_, rfl⟩⟩
    · exact (wp_bind _).mpr (Heap.wp_load hs.readable ⟨by rw [← hs.holds]; rfl, rfl⟩)
    · have := hs.holds
      rw [Object.contents, Classical.not_not.mp hnull, Heap.cellsAt_none, List.take_nil] at this
      rw [← this, List.append_nil]
  refine (wp_bind _).mpr (wp_mono (hinsert _) (fun os h hos => ⟨?_, hos.2⟩) (fun _ _ h => h)
    fun _ h => h)
  simp only [hos.1, netstring, cells, List.map_append, List.map_cons, List.append_assoc,
    hs.length_eq, List.map_nil, List.cons_append, List.nil_append]

theorem wp_writeNetstringGString (hs : Source o s) (stream : List Cell) :
    wp (writeNetstringGString stream s.1)
      (fun os h => os = stream ++ cells (netstring s.2) ∧ h = o.heap) (fun _ _ => False)
      (fun _ => False) o.heap := by
  have hclen := UInt32.toNat_ofNat_of_le (n := s.1.length) (by have := s.1.length_lt; omega)
  refine (wp_bind _).mpr (Heap.wp_load (by rw [hclen]; exact hs.readable) ⟨?_, rfl⟩)
  have hbody : (o.heap.cellsAt s.1.buf).take s.1.length = cells s.2 := hs.holds
  rw [hclen, hbody, signed_toInt32 s.1.length_lt, ← hs.length_eq, netstring]
  simp [cells]

end Encode

/-! ## Sequences of netstrings -/

/-- `appendNetstring` for one string after another. -/
def appendNetstrings : List GString → Method Unit
  | [] => pure ()
  | g :: gs => do
    GString.appendNetstringGString g
    appendNetstrings gs

/-- What `netstringAt (pos, &pos)` gives: the contents of the string, and the new `pos`. -/
def GString.payloadAt (s : GString) (pos : UInt32) : Exec Heap (List Cell × UInt32) := do
  let (payload, after) ← s.netstringAt pos
  let h ← get
  pure (Object.contents ⟨h, payload⟩, after)

/-- What `readNetstring` reads into a new string, and the stream after it. -/
def readPayload (stream : IStream) : Exec Heap (List Cell × IStream) :=
  zoom (fun h => ⟨h, .empty⟩) (fun o _ => o.heap) do
    let stream ← GString.readNetstring stream
    let o ← get
    pure (o.contents, stream)

/-- The last header, and so every header, begins at least 12 bytes below the limit. -/
def HeadersFit (start : ℕ) (payloads : List (List UInt8)) : Prop :=
  payloads ≠ [] → start + (netstrings payloads.dropLast).length + 12 ≤ 2 ^ 24

section Sequences

variable {o : Object} {h : Heap} {srcs : List (GString × List UInt8)} {start : ℕ}
  {payload : List UInt8} {payloads : List (List UInt8)}

theorem headersFit_cons : HeadersFit start (payload :: payloads) ↔
    start + 12 ≤ 2 ^ 24 ∧ HeadersFit (start + (netstring payload).length) payloads := by
  unfold HeadersFit
  cases payloads with
  | nil => simp
  | cons q qs =>
    simp only [ne_eq, reduceCtorEq, not_false_eq_true, true_imp_iff, List.dropLast_cons_cons,
      netstrings_cons, List.length_append]
    omega

/-- Appending a sequence of netstrings fails only if a header begins too late. -/
theorem wp_appendNetstrings (hv : Valid o) (hcap : o.str.capacity ≤ 2 ^ 24)
    (hs : ∀ s ∈ srcs, Source o s)
    (hlen : o.str.length + (netstrings (srcs.map Prod.snd)).length < 2 ^ 24) :
    wp (appendNetstrings (srcs.map Prod.fst))
      (fun _ o' => Extended (cells (netstrings (srcs.map Prod.snd))) o o' ∧
        HeadersFit o.str.length (srcs.map Prod.snd))
      (fun e _ => (∃ n, e = GString.tooLarge n) ∧
        ¬ HeadersFit o.str.length (srcs.map Prod.snd))
      (fun _ => False) o := by
  induction srcs generalizing o with
  | nil => exact ⟨Extended.refl hv, fun hne => absurd rfl hne⟩
  | cons s srcs ih =>
    simp only [List.map_cons, netstrings_cons, List.length_append] at hlen ⊢
    rw [headersFit_cons]
    refine (wp_bind _).mpr (wp_mono (wp_appendNetstringGString hv (hs s List.mem_cons_self)
      (by omega)) (fun _ o₁ h₁ => ?_) (fun e _ h => ⟨⟨_, h.1⟩, fun hfit => ?_⟩) fun _ h => h)
    · obtain ⟨e₁, hnot⟩ := h₁
      have l₁ := e₁.length hv
      rw [length_cells] at l₁
      -- the header has been appended, so its 12 bytes fit
      have hfit : o.str.length + 12 ≤ 2 ^ 24 := by
        by_contra hlarge
        exact hnot ⟨by omega, by omega⟩
      have hcap₁ : o₁.str.capacity ≤ 2 ^ 24 := e₁.limit.trans (max_le hcap le_rfl)
      -- the other sources are still there
      have hs₁ : ∀ s ∈ srcs, Source o₁ s := fun s' hs' =>
        (hs s' (List.mem_cons_of_mem s hs')).frame e₁.frame
      rw [← l₁]
      refine wp_mono (ih e₁.valid hcap₁ hs₁ (by omega)) (fun _ o' h => ⟨?_, hfit, h.2⟩)
        (fun e _ h => ⟨h.1, fun hfits => h.2 hfits.2⟩) fun _ h => h
      rw [cells_append]
      exact e₁.trans h.1
    -- a header that is refused does not fit
    · have := h.2.2.2
      omega

/-- An encoder that writes one netstring writes a sequence of them. -/
theorem wp_foldlM_netstring {w : List Cell → GString → Exec Heap (List Cell)}
    (hwrite : ∀ s ∈ srcs, ∀ os, wp (w os s.1)
      (fun os' h' => os' = os ++ cells (netstring s.2) ∧ h' = h) (fun _ _ => False)
      (fun _ => False) h) (os : List Cell) :
    wp ((srcs.map Prod.fst).foldlM w os)
      (fun os' h' => os' = os ++ cells (netstrings (srcs.map Prod.snd)) ∧ h' = h)
      (fun _ _ => False) (fun _ => False) h := by
  induction srcs generalizing os with
  | nil => exact ⟨(List.append_nil _).symm, rfl⟩
  | cons s srcs ih =>
    rw [List.map_cons, List.foldlM_cons]
    refine (wp_bind _).mpr (wp_mono (hwrite s List.mem_cons_self os) (fun os' h' hw => ?_)
      (fun _ _ h => h) fun _ h => h)
    obtain ⟨rfl, rfl⟩ := hw
    refine wp_mono (ih (fun s' hs' => hwrite s' (List.mem_cons_of_mem s hs')) _)
      (fun os' h' hw => ⟨?_, hw.2⟩) (fun _ _ h => h) fun _ h => h
    rw [hw.1, List.map_cons, netstrings_cons, cells_append, List.append_assoc]

/-- Decoding a string from its beginning to its end. -/
theorem wp_iterate_payloadAt (hv : Valid o) (hbytes : o.contents = cells (netstrings payloads)) :
    wp (iterate o.str.payloadAt payloads.length 0)
      (fun r h => (r.1 = payloads.map cells ∧ r.2.toNat = o.str.length) ∧ h = o.heap)
      (fun _ _ => False) (fun _ => False) o.heap := by
  have hl : (netstrings payloads).length = o.str.length := by
    rw [← length_contents hv, hbytes, length_cells]
  refine wp_mono (wp_iterate (f := cells) (I := fun bs pos h => h = o.heap ∧
    ∃ pre, netstrings payloads = pre ++ netstrings bs ∧ pos.toNat = pre.length)
    (fun payload bs pos h hI => ?_) ⟨rfl, [], rfl, rfl⟩) (fun r h hr => ?_) (fun _ _ h => h)
    fun _ h => h
  · obtain ⟨rfl, pre, hpre, hpos⟩ := hI
    rw [netstrings_cons, ← List.append_assoc] at hpre
    rw [hpre] at hbytes
    simp only [GString.payloadAt, wp_bind, wp_get, wp_pure]
    refine wp_mono (wp_gstring_netstringAt hv hbytes hpos) (fun r h hr => ?_) (fun _ _ h => h)
      fun _ h => h
    exact ⟨hr.2.1, hr.1, pre ++ netstring payload, hpre, hr.2.2⟩
  · obtain ⟨hmap, rfl, pre, hpre, hpos⟩ := hr
    rw [netstrings_nil, List.append_nil] at hpre
    exact ⟨⟨hmap, by rw [hpos, ← hpre, hl]⟩, rfl⟩

/-- Decoding a `std::string` from its beginning to its end. -/
theorem wp_iterate_netstringAt {σ : Type} (st : σ) (payloads : List (List UInt8))
    (hshort : (netstrings payloads).length < 2 ^ 32) :
    wp (iterate (netstringAt (netstrings payloads)) payloads.length 0)
      (fun r st' => (r.1 = payloads ∧ r.2.toNat = (netstrings payloads).length) ∧ st' = st)
      (fun _ _ => False) (fun _ => False) st := by
  refine wp_mono (wp_iterate (f := id) (I := fun bs pos st' => st' = st ∧
    ∃ pre, netstrings payloads = pre ++ netstrings bs ∧ pos.toNat = pre.length)
    (fun payload bs pos st' hI => ?_) ⟨rfl, [], rfl, rfl⟩) (fun r st' hr => ?_) (fun _ _ h => h)
    fun _ h => h
  · obtain ⟨rfl, pre, hpre, hpos⟩ := hI
    rw [netstrings_cons, ← List.append_assoc] at hpre
    obtain ⟨after, hat, hafter⟩ := netstringAt_eq (σ := σ) hshort hpre hpos
    rw [hat]
    exact ⟨rfl, rfl, pre ++ netstring payload, hpre, hafter⟩
  · obtain ⟨hmap, rfl, pre, hpre, hpos⟩ := hr
    rw [netstrings_nil, List.append_nil] at hpre
    exact ⟨⟨hmap.trans (List.map_id _), by rw [hpos, ← hpre]⟩, rfl⟩

/-- Decoding a stream to its end. -/
theorem wp_iterate_readPayload (hoom : h.oom = []) (hlen : (netstrings payloads).length < 2 ^ 24) :
    wp (iterate readPayload payloads.length { rest := netstrings payloads })
      (fun r _ => r.1 = payloads.map cells ∧ r.2 = { rest := [] })
      (fun _ _ => False) (fun _ => False) h := by
  refine wp_mono (wp_iterate (f := cells) (I := fun bs stream h => h.oom = [] ∧
    (netstrings bs).length < 2 ^ 24 ∧ stream = { rest := netstrings bs })
    (fun payload bs stream h hI => ?_) ⟨hoom, hlen, rfl⟩) (fun r h hr => ⟨hr.1, hr.2.2.2⟩)
    (fun _ _ h => h) fun _ h => h
  obtain ⟨hoom, hlen, rfl⟩ := hI
  rw [netstrings_cons, List.length_append] at hlen
  have hle := length_le_length_netstring payload
  obtain ⟨hv, hempty⟩ := valid_empty hoom
  -- the stream begins with the length of the payload, and a colon
  have hnumber : IStream.extractInt32 { rest := netstring payload ++ netstrings bs } =
      ((payload.length : ℤ), { rest := colon :: (payload ++ comma :: netstrings bs) }) := by
    rw [netstring_append]
    exact IStream.extractInt32_decimal (by omega) rfl
  have hzero : GString.length .empty = 0 := by decide
  refine wp_zoom.mpr ((wp_bind _).mpr (wp_mono (wp_readNetstring hv ?_) (fun stream' o' h => ?_)
    (fun e o' h => ?_) fun _ h => h))
  · rw [ReadNetstringOk, hzero, netstrings_cons, hnumber, Int.toNat_natCast]
    omega
  · obtain ⟨hv', body, hbody, hcontents⟩ := h
    rw [netstrings_cons, IStream.netstring_append (by omega)] at hbody
    obtain ⟨rfl, rfl⟩ := Prod.mk.inj (Option.some.inj hbody)
    rw [hempty] at hcontents
    exact ⟨hcontents (by rw [hzero]; omega), hv'.allocates, by omega, rfl⟩
  -- the netstring is there, and it is not too large
  · rcases h.2.2 with hnone | hlarge
    · rw [netstrings_cons, IStream.netstring_append (by omega)] at hnone
      cases hnone
    · have := hlarge.2
      rw [hzero, netstrings_cons, hnumber, Int.toNat_natCast] at this
      omega

/-- A valid string holds its payload, apart from a string without a buffer. -/
theorem source_of_valid {s : GString × List UInt8} (hv : Valid ⟨h, s.1⟩)
    (hcontents : Object.contents ⟨h, s.1⟩ = cells s.2) : Source ⟨h, .empty⟩ s := by
  refine ⟨hv.length_le, hcontents, fun q hq hpos => ⟨?_, nofun⟩⟩
  have hroom : 0 < h.room (some q) := by
    rw [← hq]
    exact (Nat.pos_of_ne_zero hpos).trans_le hv.length_le
  exact Heap.lt_length_of_room_pos hroom

/-- Appending the netstrings to a new string, according to where the last header begins. -/
theorem appendNetstrings_cases (hoom : h.oom = [])
    (hsrcs : ∀ s ∈ srcs, Valid ⟨h, s.1⟩ ∧ Object.contents ⟨h, s.1⟩ = cells s.2)
    (hlen : (netstrings (srcs.map Prod.snd)).length < 2 ^ 24) :
    (HeadersFit 0 (srcs.map Prod.snd) → ∃ o,
      appendNetstrings (srcs.map Prod.fst) ⟨h, .empty⟩ = .ok () o ∧ Valid o ∧
        o.contents = cells (netstrings (srcs.map Prod.snd))) ∧
      (¬ HeadersFit 0 (srcs.map Prod.snd) → ∃ n o,
        appendNetstrings (srcs.map Prod.fst) ⟨h, .empty⟩ = .throw (GString.tooLarge n) o) := by
  obtain ⟨hv, hempty⟩ := valid_empty hoom
  have hzero : GString.length .empty = 0 := by decide
  have hcap : GString.capacity .empty ≤ 2 ^ 24 := by decide
  have happend := wp_appendNetstrings hv hcap
    (fun s hs => source_of_valid (hsrcs s hs).1 (hsrcs s hs).2) (by rw [hzero]; omega)
  rw [hzero] at happend
  refine ⟨fun hfit => ?_, fun hlate => ?_⟩
  · obtain ⟨_, o, hx, he, -⟩ := exists_ok_of_wp (wp_mono happend (fun _ _ h => h)
      (fun _ _ h => h.2 hfit) fun _ h => h)
    refine ⟨o, hx, he.valid, ?_⟩
    rw [he.contents, hempty, List.nil_append]
  · cases hx : appendNetstrings (srcs.map Prod.fst) ⟨h, .empty⟩ with
    | ok a o =>
      simp only [wp, hx] at happend
      exact absurd happend.2 hlate
    | throw e o =>
      simp only [wp, hx] at happend
      obtain ⟨⟨n, rfl⟩, -⟩ := happend
      exact ⟨n, o, rfl⟩
    | fault u =>
      simp only [wp, hx] at happend

/-- The three encoders write the netstrings of the payloads, unless `appendNetstring` refuses a
header, and the three decoders read the payloads back, up to the end of the bytes. -/
theorem netstrings_roundtrip (hoom : h.oom = [])
    (hsrcs : ∀ s ∈ srcs, Valid ⟨h, s.1⟩ ∧ Object.contents ⟨h, s.1⟩ = cells s.2)
    (hpayloads : srcs.map Prod.snd = payloads) (hlen : (netstrings payloads).length < 2 ^ 24) :
    (srcs.map Prod.fst).foldlM (fun os g => g.writeAsNetstring os) [] h =
        .ok (cells (netstrings payloads)) h ∧
      (srcs.map Prod.fst).foldlM writeNetstringGString [] h =
        .ok (cells (netstrings payloads)) h ∧
      (HeadersFit 0 payloads → ∃ o, appendNetstrings (srcs.map Prod.fst) ⟨h, .empty⟩ = .ok () o ∧
        Valid o ∧ o.contents = cells (netstrings payloads)) ∧
      (¬ HeadersFit 0 payloads → ∃ n o,
        appendNetstrings (srcs.map Prod.fst) ⟨h, .empty⟩ = .throw (GString.tooLarge n) o) ∧
      (∀ o, Valid o → o.contents = cells (netstrings payloads) → ∃ pos : UInt32,
        iterate o.str.payloadAt payloads.length 0 o.heap = .ok (payloads.map cells, pos) o.heap ∧
          pos.toNat = o.str.length) ∧
      (∃ pos : UInt32, iterate (netstringAt (netstrings payloads)) payloads.length 0 h =
        .ok (payloads, pos) h ∧ pos.toNat = (netstrings payloads).length) ∧
      ∃ h', iterate readPayload payloads.length { rest := netstrings payloads } h =
        .ok (payloads.map cells, { rest := [] }) h' := by
  subst hpayloads
  have hsource : ∀ s ∈ srcs, Source ⟨h, .empty⟩ s := fun s hs =>
    source_of_valid (hsrcs s hs).1 (hsrcs s hs).2
  obtain ⟨hfits, hlate⟩ := appendNetstrings_cases hoom hsrcs hlen
  refine ⟨?_, ?_, hfits, hlate, fun o hvo hbytes => ?_, ?_, ?_⟩
  -- both functions that write to a stream write the same bytes
  · obtain ⟨os, h', hx, rfl, rfl⟩ := exists_ok_of_wp (wp_foldlM_netstring (h := h)
      (w := fun os g => g.writeAsNetstring os)
      (fun s hs os => wp_writeAsNetstring (hsource s hs) os) [])
    exact hx
  · obtain ⟨os, h', hx, rfl, rfl⟩ := exists_ok_of_wp (wp_foldlM_netstring (h := h)
      (fun s hs os => wp_writeNetstringGString (hsource s hs) os) [])
    exact hx
  -- the netstrings in a string, in a `std::string`, and in a stream are read back
  · obtain ⟨⟨_, pos⟩, _, hx, ⟨rfl, hpos⟩, rfl⟩ := exists_ok_of_wp (wp_iterate_payloadAt hvo hbytes)
    exact ⟨pos, hx, hpos⟩
  · obtain ⟨⟨_, pos⟩, _, hx, ⟨rfl, hpos⟩, rfl⟩ := exists_ok_of_wp
      (wp_iterate_netstringAt h (srcs.map Prod.snd) (by omega))
    exact ⟨pos, hx, hpos⟩
  · obtain ⟨⟨_, _⟩, h', hx, rfl, rfl⟩ := exists_ok_of_wp (wp_iterate_readPayload hoom hlen)
    exact ⟨h', hx⟩

/-- Memory that holds the text `"1:,"`. -/
def headerHeap : Heap := ⟨[⟨cells [49, 58, 44], .foreign, true⟩], 0, []⟩

/-- A payload that looks like a header, and an empty one. -/
theorem netstrings_roundtrip_header :
    ∃ o, appendNetstrings [GString.reference (some ⟨0, 0⟩) 3 false, .empty]
        ⟨headerHeap, .empty⟩ = .ok () o ∧
      o.contents = cells [51, 58, 49, 58, 44, 44, 48, 58, 44] := by
  have hsrcs : ∀ s ∈ [(GString.reference (some ⟨0, 0⟩) 3 false, [49, 58, 44]), (.empty, [])],
      Valid ⟨headerHeap, s.1⟩ ∧ Object.contents ⟨headerHeap, s.1⟩ = cells s.2 := by
    intro s hs
    simp only [List.mem_cons, List.not_mem_nil, or_false] at hs
    rcases hs with rfl | rfl
    · have hn : (3 : UInt32).toNat % 2 ^ 24 = 3 := rfl
      refine ⟨valid_pack rfl (Nat.zero_le _) (by decide) (fun h => absurd rfl h) nofun, ?_⟩
      rw [GString.reference, contents_pack, hn]
      rfl
    · exact valid_empty rfl
  have hbytes : netstrings [[49, 58, 44], []] = [51, 58, 49, 58, 44, 44, 48, 58, 44] := by
    simp [netstring, decimal, radix, digitChar, colon, comma]
  have hlen : (netstrings [[49, 58, 44], []]).length < 2 ^ 24 := by
    rw [hbytes]
    decide
  have hfit : HeadersFit 0 [[49, 58, 44], []] := fun _ => by
    simp [netstring, decimal, radix, digitChar, colon, comma]
  have hall := netstrings_roundtrip (h := headerHeap) rfl hsrcs rfl hlen
  obtain ⟨o, ho, -, hcontents⟩ := hall.2.2.1 hfit
  exact ⟨o, ho, hcontents.trans (congrArg cells hbytes)⟩

/-- A payload of `2 ^ 24 - 14` bytes. -/
def payloadHeap : Heap := ⟨[⟨List.replicate (2 ^ 24 - 14) (some 0), .foreign, true⟩], 0, []⟩

/-- An empty payload after a large one is refused, although its netstring ends below the limit. -/
theorem late_header_refused :
    ∃ (srcs : List (GString × List UInt8)) (e : String) (o : Object),
      (∀ s ∈ srcs, Valid ⟨payloadHeap, s.1⟩ ∧
        Object.contents ⟨payloadHeap, s.1⟩ = cells s.2) ∧
      (netstrings (srcs.map Prod.snd)).length < 2 ^ 24 ∧
      appendNetstrings (srcs.map Prod.fst) ⟨payloadHeap, .empty⟩ = .throw e o := by
  obtain ⟨payload, hpayload⟩ : ∃ payload, payload = List.replicate (2 ^ 24 - 14) (0 : UInt8) :=
    ⟨_, rfl⟩
  -- the first payload fills the string up to its last few bytes
  have hlarge : Valid ⟨payloadHeap, .reference (some ⟨0, 0⟩) 16777202 false⟩ ∧
      Object.contents ⟨payloadHeap, .reference (some ⟨0, 0⟩) 16777202 false⟩ =
        cells payload := by
    have hcells : payloadHeap.cellsAt (some ⟨0, 0⟩) = List.replicate (2 ^ 24 - 14) (some 0) := rfl
    have hn : (16777202 : UInt32).toNat % 2 ^ 24 = 2 ^ 24 - 14 := rfl
    refine ⟨valid_pack rfl (Nat.zero_le _) ?_ (fun h => absurd rfl h) nofun, ?_⟩
    · rw [hn, Heap.room, hcells, List.length_replicate]
    · rw [GString.reference, contents_pack, hcells, hn, hpayload, cells, List.map_replicate,
        List.take_replicate, min_self]
  have hlength : payload.length = 16777202 := by
    rw [hpayload, List.length_replicate]
    rfl
  -- only the length of the payload is used from here on
  clear hpayload
  have hdec : (decimal 16777202).length = 8 := by
    simp [decimal, radix]
  have hdec0 : (decimal 0).length = 1 := rfl
  have hsrcs : ∀ s ∈ [(GString.reference (some ⟨0, 0⟩) 16777202 false, payload), (.empty, [])],
      Valid ⟨payloadHeap, s.1⟩ ∧ Object.contents ⟨payloadHeap, s.1⟩ = cells s.2 := by
    intro s hs
    simp only [List.mem_cons, List.not_mem_nil, or_false] at hs
    rcases hs with rfl | rfl
    · exact hlarge
    · exact valid_empty rfl
  have htotal : (netstrings [payload, []]).length < 2 ^ 24 := by
    simp only [netstrings_cons, netstrings_nil, List.length_append, length_netstring, hlength, hdec,
      List.length_nil, hdec0]
    omega
  -- the header of the second one asks for 12 bytes behind it
  have hlate : ¬ HeadersFit 0 [payload, []] := fun hfit => by
    have := hfit (List.cons_ne_nil _ _)
    simp only [List.dropLast_cons_cons, List.dropLast_singleton, netstrings_cons, netstrings_nil,
      List.length_append, length_netstring, hlength, hdec, List.length_nil] at this
    omega
  have hcases := appendNetstrings_cases (h := payloadHeap) rfl hsrcs htotal
  obtain ⟨n, o, hthrow⟩ := hcases.2 hlate
  exact ⟨_, _, o, hsrcs, htotal, hthrow⟩

end Sequences

end Glim
