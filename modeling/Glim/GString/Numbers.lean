import Glim.GString.Contents
import Glim.GString.ItoaBuffer

/-!
# Appending numbers

A number is appended by reserving a fixed count of bytes and letting `itoa` write behind the end
of the string. The decimal text of an `int`, a `long` and a `long long` always fits in what is
reserved for it. The 24 bytes that `append64` reserves by default are too few for the text of a
large number in a small base: then `itoa` writes past the capacity.

## Main definitions

* `GString.reserveFor`, `GString.writeNumber`: the two halves of `append64`
* `NumberCall`: the calls that append a number
* `InsideCapacity`: the call writes no byte at or behind the capacity, and appends the text
* `NumberCall.Fits`: the digits, the sign and the terminator fit

## Main results

* `reserveFor_apply`, `writeNumber_apply`: what the halves do
* `insideCapacity_iff`: a call stays inside the capacity exactly when the number fits
-/

namespace Glim

open Machine Exec Method Text

/-- The string, in a heap in which its buffer ends at its capacity. -/
def Object.clip (o : Object) : Object := ⟨o.heap.clip o.str.buf o.str.capacity, o.str⟩

/-- The capacity after `bytes` bytes were reserved behind the end of the string. -/
def Object.reservedCapacity (o : Object) (bytes : ℕ) : ℕ :=
  if o.str.capacity < o.str.length + bytes then 2 ^ Nat.clog 2 (o.str.length + bytes)
  else o.str.capacity

/-- `q - p`, for pointers into one block. -/
def pointerDiff : Option Ptr → Option Ptr → ℕ
  | some q, some p => q.off - p.off
  | _, _ => 0

namespace GString

/-- `if (capacity() < pos + bytes) reserve (pos + bytes)`, the first half of `append64`. -/
def reserveFor (bytes : UInt8) : Method Unit := do
  let s ← str
  when (s.capacity < s.length + bytes.toNat) (reserve (UInt32.ofNat (s.length + bytes.toNat)))

/-- `length (itoa ((char*) _buf + pos, iv, base) - (char*) _buf)`, the second half. -/
def writeNumber (pos : ℕ) (iv : Int64) (base : ℤ) : Method Unit := do
  let s ← str
  let last ← onHeap (itoaAt (s.data pos) iv base)
  modifyStr (setLength (pointerDiff last s.buf))

end GString

/-- A call that appends a number; the last one is `append64` with its default reservation. -/
inductive NumberCall where
  | int (iv : Int32)
  | long (iv : Int64)
  | longLong (iv : Int64)
  | inBase (iv : Int64) (base : { b : ℕ // 2 ≤ b ∧ b ≤ 36 })

namespace NumberCall

def run : NumberCall → Method Unit
  | int iv => GString.appendInt iv
  | long iv => GString.appendLong iv
  | longLong iv => GString.appendLongLong iv
  | inBase iv base => GString.append64 iv base.1 24

def value : NumberCall → Int64
  | int iv => iv.toInt64
  | long iv => iv
  | longLong iv => iv
  | inBase iv _ => iv

def base : NumberCall → ℕ
  | inBase _ base => base.1
  | _ => 10

/-- The bytes that are reserved: three for each byte of the type, or 24. -/
def reserved : NumberCall → UInt8
  | int _ => 12
  | _ => 24

/-- The text of the number. -/
def text (c : NumberCall) : List UInt8 := signedRadix c.base c.value.toInt

/-- The digits of the number fit in the reserved capacity, together with the sign and the
terminator. Those of an `int`, a `long` and a `long long` always do. -/
def Fits (o : Object) : NumberCall → Prop
  | inBase iv base =>
    let room := o.reservedCapacity 24 - o.str.length
    iv.toInt.natAbs < base.1 ^ (room - 1 - if iv.toInt < 0 then 1 else 0)
  | _ => True

end NumberCall

/-- The call reserves and then writes, it writes no byte at or behind the capacity that it has
reserved, and the text of the number is appended. -/
def InsideCapacity (c : NumberCall) (o : Object) : Prop :=
  ∃ o₁ o₂ o', GString.reserveFor c.reserved o = .ok () o₁ ∧
    GString.writeNumber o.str.length c.value c.base o₁.clip = .ok () o₂ ∧
    GString.writeNumber o.str.length c.value c.base o₁ = .ok () o' ∧
    c.run o = .ok () o' ∧ o'.contents = o.contents ++ cells c.text

section Halves

variable {o : Object} {b : ℕ}

/-- Reserving makes the capacity the next power of two. -/
theorem reserveFor_apply (hv : Valid o) {bytes : UInt8} (hbytes : 1 < bytes.toNat)
    (hlen : o.str.length + bytes.toNat ≤ 2 ^ 24) :
    ∃ o₁, GString.reserveFor bytes o = .ok () o₁ ∧ Valid o₁ ∧ o₁.contents = o.contents ∧
      o₁.str.length = o.str.length ∧ o₁.str.capacity = o.reservedCapacity bytes.toNat := by
  have hpow := hv.power_le
  have hn := UInt32.toNat_ofNat_of_le (n := o.str.length + bytes.toNat) (by omega)
  have hstart : GString.reserveFor bytes o = Exec.when (o.str.capacity < o.str.length + bytes.toNat)
      (GString.reserve (UInt32.ofNat (o.str.length + bytes.toNat))) o := rfl
  rw [hstart, Object.reservedCapacity]
  by_cases hgrow : o.str.capacity < o.str.length + bytes.toNat
  · have happly := GString.reserve_apply (UInt32.ofNat (o.str.length + bytes.toNat)) o (by omega)
    have hgrow' : 2 ^ o.str.power < o.str.length + bytes.toNat := hgrow
    rw [hn, if_pos hgrow', if_neg (by omega), if_neg (by omega)] at happly
    have hclog : Nat.clog 2 (o.str.length + bytes.toNat) ≤ 24 := Nat.clog_le_of_le_pow hlen
    have hle := Nat.le_pow_clog (b := 2) (by decide) (o.str.length + bytes.toNat)
    obtain ⟨_, o₁, hx, hm⟩ := exists_ok_of_wp (wp_reallocate hv (by omega)
      (show o.str.length ≤ 2 ^ Nat.clog 2 (o.str.length + bytes.toNat) by omega))
    rw [when_of_pos hgrow, if_pos hgrow, happly]
    exact ⟨o₁, hx, hm.valid, hm.contents, hm.length, by rw [GString.capacity, hm.power]⟩
  · rw [when_of_not hgrow, if_neg hgrow]
    exact ⟨o, rfl, hv, rfl, rfl, rfl⟩

/-- What `reserve` gives is at least what was asked for. -/
theorem le_reservedCapacity (o : Object) (bytes : ℕ) :
    o.str.length + bytes ≤ o.reservedCapacity bytes := by
  rw [Object.reservedCapacity]
  split_ifs with h
  · exact Nat.le_pow_clog (by decide) _
  · exact Nat.le_of_not_lt h

/-- With room for the text and the terminator, `itoa` writes them at the end of the string. -/
theorem writeNumber_apply (hb : 1 < b) (hb' : b ≤ 36) (iv : Int64)
    (hroom : o.str.length + (itoa iv.toInt b).length + 1 ≤ o.room) :
    GString.writeNumber o.str.length iv b o =
      .ok () (o.push (cells (itoa iv.toInt b ++ [0])) (itoa iv.toInt b).length) := by
  cases hbuf : o.str.buf with
  | none =>
    rw [Object.room, hbuf, Heap.room_none] at hroom
    omega
  | some p =>
    have hdata : (itoa iv.toInt b).length + 1 ≤ o.heap.room (o.str.data o.str.length) := by
      rw [GString.data, Heap.room_shift]
      simp only [Object.room] at hroom
      omega
    have hdiff : pointerDiff (Ptr.shift (o.str.data o.str.length) (itoa iv.toInt b).length)
        o.str.buf = o.str.length + (itoa iv.toInt b).length := by
      simp only [GString.data, hbuf, Ptr.shift_some, pointerDiff, Ptr.add_off]
      omega
    have hitoa : onHeap (itoaAt (o.str.data o.str.length) iv b) o = _ :=
      zoom_of_ok (itoaAt_apply hb hb' iv hdata)
    have hstr : str o = .ok o.str o := rfl
    rw [GString.writeNumber, bind_of_ok hstr, bind_of_ok hitoa, hdiff]
    rfl

/-- `append64` reserves and writes. -/
theorem append64_apply {o₁ : Object} {iv : Int64} {bytes : UInt8}
    (hreserve : GString.reserveFor bytes o = .ok () o₁) (hlen : o₁.str.length = o.str.length)
    (hroom : o₁.str.length + (itoa iv.toInt b).length + 1 ≤ o₁.room) :
    GString.append64 iv b bytes o =
      .ok () (o₁.push (cells (itoa iv.toInt b ++ [0])) (itoa iv.toInt b).length) := by
  have hfirst : Exec.when (o.str.capacity < o.str.length + bytes.toNat)
      (GString.reserve (UInt32.ofNat (o.str.length + bytes.toNat))) o = .ok () o₁ := hreserve
  have htext : (cells (itoa iv.toInt b ++ [0])).length = (itoa iv.toInt b).length + 1 := by
    simp [cells]
  have hstore : Heap.store (o₁.str.data o.str.length) (cells (itoa iv.toInt b ++ [0])) o₁.heap =
      .ok () (o₁.heap.write (o₁.str.data o₁.str.length) (cells (itoa iv.toInt b ++ [0]))) := by
    rw [← hlen, Heap.store, if_pos]
    exact room_data (by rw [htext]; exact hroom)
  have hwrite : onHeap (Heap.store (o₁.str.data o.str.length) (cells (itoa iv.toInt b ++ [0]))) o₁ =
      _ := zoom_of_ok hstore
  have hstr : ∀ o : Object, str o = .ok o.str o := fun _ => rfl
  rw [GString.append64, bind_of_ok (hstr o), bind_of_ok hfirst, bind_of_ok (hstr o₁),
    bind_of_ok hwrite, ← hlen]
  rfl

/-- Without that room, `itoa` writes outside it. -/
theorem room_of_writeNumber (hb : 1 < b) (hb' : b ≤ 36) {iv : Int64} {o' : Object}
    (hrun : GString.writeNumber o.str.length iv b o = .ok () o') :
    o.str.length + (itoa iv.toInt b).length + 1 ≤ o.room := by
  cases hitoa : itoaAt (o.str.data o.str.length) iv b o.heap with
  | ok q h =>
    have hroom := room_of_itoaAt hb hb' hitoa
    rw [GString.data, Heap.room_shift] at hroom
    simp only [Object.room]
    omega
  | throw e h =>
    have hstr : str o = .ok o.str o := rfl
    rw [GString.writeNumber, bind_of_ok hstr] at hrun
    simp only [bind, onHeap, zoom, hitoa] at hrun
    cases hrun
  | fault u =>
    have hstr : str o = .ok o.str o := rfl
    rw [GString.writeNumber, bind_of_ok hstr] at hrun
    simp only [bind, onHeap, zoom, hitoa] at hrun
    cases hrun

end Halves

section Calls

variable {o : Object}

namespace NumberCall

theorem run_eq (c : NumberCall) : c.run = GString.append64 c.value c.base c.reserved := by
  cases c <;> rfl

theorem base_mem (c : NumberCall) : 1 < c.base ∧ c.base ≤ 36 := by
  have hten : 1 < 10 ∧ 10 ≤ 36 := by decide
  cases c with
  | inBase iv base => exact base.2
  | _ => exact hten

theorem one_lt_reserved (c : NumberCall) : 1 < c.reserved.toNat ∧ c.reserved.toNat ≤ 24 := by
  have hint : 1 < (12 : UInt8).toNat ∧ (12 : UInt8).toNat ≤ 24 := by decide
  have hlong : 1 < (24 : UInt8).toNat ∧ (24 : UInt8).toNat ≤ 24 := by decide
  cases c with
  | int iv => exact hint
  | _ => exact hlong

theorem itoa_eq_text (c : NumberCall) : itoa c.value.toInt c.base = c.text := by
  have habs := natAbs_toInt_le c.value
  exact itoa_eq_signedRadix c.base_mem.1 c.base_mem.2 (by omega)

/-- A number fits if its text and the terminator do. -/
theorem fits_iff (c : NumberCall) :
    c.Fits o ↔ o.str.length + c.text.length + 1 ≤ o.reservedCapacity c.reserved.toNat := by
  have hle := le_reservedCapacity o c.reserved.toNat
  -- the decimal text of a number below `10 ^ k` in a reservation of at least `k + 2` bytes
  have hdecimal : ∀ k, 0 < k → k + 2 ≤ c.reserved.toNat → c.base = 10 →
      c.value.toInt.natAbs < 10 ^ k →
      o.str.length + c.text.length + 1 ≤ o.reservedCapacity c.reserved.toNat := by
    intro k hk hbytes hbase hv
    have hl : c.text.length ≤ k + 1 := by
      rw [text, hbase]
      exact length_signedRadix_le (by decide) hk hv
    omega
  cases c with
  | int iv =>
    have hlt := iv.toInt_lt
    have hge := iv.le_toInt
    have hto : iv.toInt64.toInt = iv.toInt := Int32.toInt_toInt64 iv
    exact iff_of_true trivial (hdecimal 10 (by decide)
      (show 12 ≤ (12 : UInt8).toNat by decide) rfl (by rw [value, hto]; omega))
  | long iv =>
    have habs := natAbs_toInt_le iv
    exact iff_of_true trivial (hdecimal 19 (by decide)
      (show 21 ≤ (24 : UInt8).toNat by decide) rfl (by rw [value]; omega))
  | longLong iv =>
    have habs := natAbs_toInt_le iv
    exact iff_of_true trivial (hdecimal 19 (by decide)
      (show 21 ≤ (24 : UInt8).toNat by decide) rfl (by rw [value]; omega))
  | inBase iv base =>
    obtain ⟨b, hb, hb'⟩ := base
    have hbytes : (reserved (inBase iv ⟨b, hb, hb'⟩)).toNat = 24 := rfl
    rw [hbytes] at hle ⊢
    have hlen : (text (inBase iv ⟨b, hb, hb'⟩)).length =
        (radix b iv.toInt.natAbs).length + if iv.toInt < 0 then 1 else 0 :=
      length_signedRadix b iv.toInt
    rw [hlen, Fits, ← length_radix_le_iff hb (by split_ifs <;> omega)]
    split_ifs <;> omega

end NumberCall

/-- A call that stays inside the capacity has room there for its text. -/
theorem InsideCapacity.length_le (hv : Valid o) (hlen : o.str.length ≤ 2 ^ 24 - 100)
    {c : NumberCall} (h : InsideCapacity c o) :
    o.str.length + c.text.length + 1 ≤ o.reservedCapacity c.reserved.toNat := by
  obtain ⟨hb, hb'⟩ := c.base_mem
  obtain ⟨hbytes, hbytes'⟩ := c.one_lt_reserved
  obtain ⟨o₁, hreserve, hv₁, hcontents, hlength, hcap⟩ := reserveFor_apply hv hbytes (by omega)
  obtain ⟨o₁', o₂, -, hreserve', hclipped, -, -, -⟩ := h
  obtain rfl : o₁ = o₁' := by
    rw [hreserve] at hreserve'
    exact (Outcome.ok.inj hreserve').2
  rw [← hlength] at hclipped
  have hfits := room_of_writeNumber (o := o₁.clip) hb hb' hclipped
  have hclip : o₁.clip.room ≤ o₁.str.capacity := by
    rw [Object.room, Object.clip, Heap.room_clip]
    exact Nat.min_le_left _ _
  rw [← hcap, ← hlength, ← c.itoa_eq_text]
  exact hfits.trans hclip

/-- With that room, the call stays inside it. -/
theorem insideCapacity_of_length_le (hv : Valid o) (hlen : o.str.length ≤ 2 ^ 24 - 100)
    {c : NumberCall}
    (hfits : o.str.length + c.text.length + 1 ≤ o.reservedCapacity c.reserved.toNat) :
    InsideCapacity c o := by
  obtain ⟨hb, hb'⟩ := c.base_mem
  obtain ⟨hbytes, hbytes'⟩ := c.one_lt_reserved
  obtain ⟨o₁, hreserve, hv₁, hcontents, hlength, hcap⟩ := reserveFor_apply hv hbytes (by omega)
  have hle := le_reservedCapacity o c.reserved.toNat
  have hroom := hv₁.capacity_le (by omega)
  have hclip : o₁.clip.room = o₁.str.capacity := by
    rw [Object.room, Object.clip, Heap.room_clip]
    exact Nat.min_eq_left hroom
  rw [← hcap, ← hlength, ← c.itoa_eq_text] at hfits
  have hwrite := writeNumber_apply hb hb' c.value (hfits.trans hroom)
  have hclipped := writeNumber_apply (o := o₁.clip) hb hb' c.value (hfits.trans hclip.ge)
  refine ⟨o₁, _, _, hreserve, hlength ▸ hclipped, hlength ▸ hwrite, ?_, ?_⟩
  · rw [c.run_eq]
    exact append64_apply hreserve hlength (hfits.trans hroom)
  · have htext : (cells (itoa c.value.toInt c.base ++ [0])).length =
        (itoa c.value.toInt c.base).length + 1 := by
      rw [cells, List.length_map, List.length_append, List.length_singleton]
    have hsmall := length_itoa_le hb hb' c.value
    rw [contents_push (by rw [htext]; exact hfits.trans hroom) (by omega) (by omega), hcontents,
      c.itoa_eq_text]
    rw [cells, List.map_append, List.take_left' (List.length_map _)]
    rfl

/-- A call that appends a number stays inside the capacity and appends the text exactly when the
text and the terminator fit: the text of an `int`, a `long` and a `long long` always does, that of
`append64` with its default reservation if the number is small enough for its base. -/
theorem insideCapacity_iff (hv : Valid o) (hlen : o.str.length ≤ 2 ^ 24 - 100) (c : NumberCall) :
    InsideCapacity c o ↔ c.Fits o := by
  rw [NumberCall.fits_iff]
  exact ⟨fun h => h.length_le hv hlen, insideCapacity_of_length_le hv hlen⟩

end Calls

/-- A buffer of 16 bytes on the stack that holds `"abc"`. -/
def stackObject : Object :=
  ⟨⟨[⟨cells (ascii "abc") ++ List.replicate 13 none, .foreign, true⟩], 0, []⟩,
    ⟨Meta.pack false false 4 3, some ⟨0, 0⟩⟩⟩

/-- A small number in base 2, for which the buffer is left. -/
theorem insideCapacity_stackObject :
    InsideCapacity (.inBase (-5) ⟨2, by decide⟩) stackObject := by
  have hv : Valid stackObject :=
    valid_pack rfl (by decide) (by decide) (fun _ => by decide) nofun
  refine (insideCapacity_iff hv (by decide) _).mpr ?_
  rw [NumberCall.Fits]
  decide +kernel

/-- A large number in base 2 needs more than the 32 bytes that a new buffer has. -/
theorem append64_overflows :
    Valid ⟨⟨[], 0, []⟩, .empty⟩ ∧
      GString.append64 (2 ^ 40) 2 24 ⟨⟨[], 0, []⟩, .empty⟩ = .fault .outOfBounds ∧
      ¬ ∀ (o : Object) (c : NumberCall), Valid o → o.str.length ≤ 2 ^ 24 - 100 →
        InsideCapacity c o := by
  obtain ⟨hv, -⟩ := valid_empty (h := ⟨[], 0, []⟩) rfl
  have hfault : GString.append64 (2 ^ 40) 2 24 ⟨⟨[], 0, []⟩, .empty⟩ = .fault .outOfBounds := by
    decide +kernel
  refine ⟨hv, hfault, fun hall => ?_⟩
  obtain ⟨_, _, _, -, -, -, hrun, -⟩ :=
    hall ⟨⟨[], 0, []⟩, .empty⟩ (.inBase (2 ^ 40) ⟨2, by decide⟩) hv (by decide)
  cases hfault.symm.trans hrun

end Glim
