import Glim.GString.Layout

/-!
# Appending

One specification for each method that appends: from a valid string it stays in bounds
and leaves a valid string with the new cells at its end, or `reserve` refuses the size
and the string stays as it is.

## Main definitions

* `Appended`: the string with cells written at its end
* `AppendOk`, `Append64Ok`, `AppendNetstringOk`, `ReadNetstringOk`: the arguments for
  which appending stays in bounds
* `Chars`: bytes in memory, apart from the buffer of the string

## Main results

* `wp_append`, `wp_appendChar`, `wp_append64`: bytes and numbers
* `wp_appendNetstring`, `wp_readNetstring`: netstrings
* `wp_appendTime`: the rounds of `appendTime` end
-/

namespace Glim

open Machine Exec Method Text

/-- The string with `new` written at its end, `k` cells of which belong to it, after making room
for `n` bytes. -/
structure Appended (n : ℕ) (new : List Cell) (k : ℕ) (o o' : Object) : Prop where
  valid : Valid o'
  contents : o.str.length + k < 2 ^ 24 → o'.contents = o.contents ++ new.take k
  length : o'.str.length = (o.str.length + k) % 2 ^ 24
  same : n ≤ o.str.capacity → 1 < o.str.capacity → o' = o.push new k
  small : o.str.capacity < n → n ≤ 2 ^ 24
  limit : o'.str.capacity ≤ max o.str.capacity (2 ^ 24)
  frame : Frame o o'

section Ensure

variable {o o' : Object} {n : UInt32} {m k : ℕ} {new : List Cell}

/-- A method that makes room has it afterwards. -/
theorem wp_ensure (hv : Valid o) {c : Prop} [Decidable c] (hn : n.toNat ≤ 2 ^ 31)
    (hlen : o.str.length ≤ n.toNat) (hc : ¬ c → n.toNat ≤ o.str.capacity ∧ 1 < o.str.capacity) :
    wp (when c (GString.reserve n)) (fun _ => Grown n.toNat o) (Refused n o) (fun _ => False) o :=
  (wp_when _ _).mpr ⟨fun _ => wp_reserve hv (ReserveOk.of_length_le hn hlen), fun h =>
    Grown.refl hv (hc h).1 (hc h).2⟩

/-- Writing at the end of a string that may have moved. -/
theorem Appended.of_frame (hv : Valid o') (hcontents : o'.contents = o.contents)
    (hlength : o'.str.length = o.str.length) (hframe : Frame o o')
    (hsame : m ≤ o.str.capacity → 1 < o.str.capacity → o' = o)
    (hsmall : o.str.capacity < m → m ≤ 2 ^ 24)
    (hlimit : o'.str.capacity ≤ max o.str.capacity (2 ^ 24))
    (hroom : o.str.length + new.length ≤ o'.room) (hk : k ≤ new.length)
    (hcap : 1 < o'.str.capacity → o.str.length + k < 2 * o'.str.capacity) :
    Appended m new k o (o'.push new k) := by
  rw [← hlength] at hroom hcap
  refine ⟨hv.push hroom hk hcap, fun hlen => ?_, ?_, fun h h' => ?_, hsmall, ?_, ?_⟩
  · rw [contents_push hroom hk (by rwa [hlength]), hcontents]
  · rw [Object.push, GString.length_setLength, hlength]
  · rw [hsame h h']
  · simpa only [Object.push, GString.capacity, GString.power_setLength] using hlimit
  · exact hframe.trans (Frame.push hroom)

theorem Grown.appended (hg : Grown m o o') (hnew : o.str.length + new.length ≤ m)
    (hk : k ≤ new.length) : Appended m new k o (o'.push new k) :=
  .of_frame hg.valid hg.contents hg.length hg.frame hg.same hg.small hg.limit
    (hnew.trans hg.room) hk
    fun _ => by
      have := hg.capacity
      omega

section Ends

variable {Q : Unit → Object → Prop} {E : String → Object → Prop} {F : Fault → Prop} {pos : ℕ}

/-- The end of an appending method: a write, and the new length. -/
theorem wp_store_end (hpos : pos = o.str.length) (hroom : o.str.length + new.length ≤ o.room)
    (hQ : Q () (o.push new k)) :
    wp (onHeap (Heap.store (o.str.data pos) new))
      (fun _ o' => wp (modifyStr (GString.setLength (pos + k))) Q E F o') E F o := by
  subst hpos
  simp only [onHeap, modifyStr, wp_zoom, wp_modify]
  exact Heap.wp_store (room_data hroom) hQ

/-- The same with cells copied from elsewhere. -/
theorem wp_memcpy_end {src : Option Ptr} (hpos : pos = o.str.length)
    (hsrc : k ≤ o.heap.room src) (hroom : o.str.length + k ≤ o.room)
    (hQ : Q () (o.push ((o.heap.cellsAt src).take k) k)) :
    wp (onHeap (Heap.memcpy (o.str.data pos) src k))
      (fun _ o' => wp (modifyStr (GString.setLength (pos + k))) Q E F o') E F o := by
  subst hpos
  have hl : ((o.heap.cellsAt src).take k).length = k := List.length_take.trans (min_eq_left hsrc)
  simp only [onHeap, modifyStr, wp_zoom, wp_modify]
  refine Heap.wp_memcpy hsrc ?_ hQ
  have hdata : ((o.heap.cellsAt src).take k).length ≤ o.heap.room (o.str.data o.str.length) :=
    room_data (by rwa [hl])
  rwa [hl] at hdata

end Ends

end Ensure

theorem UInt32.toNat_ofNat_of_le {n : ℕ} (h : n ≤ 2 ^ 31) : (UInt32.ofNat n).toNat = n :=
  UInt32.toNat_ofNat_of_lt' (Nat.lt_of_le_of_lt h (by decide))

/-! ## Appending -/

section Append

variable {o : Object}

/-- The text of the number and its terminator fit where `append64` writes them. -/
def Append64Ok (iv : Int64) (base : ℤ) (bytes : UInt8) (o : Object) : Prop :=
  let need := o.str.length + bytes.toNat
  let last := o.str.length + (itoa iv.toInt base).length + 1
  if o.str.capacity < need then need ≤ 2 ^ 24 → last ≤ 2 ^ Nat.clog 2 need
  else last ≤ o.room ∧ (1 < o.str.capacity → last ≤ 2 * o.str.capacity)

theorem wp_append64 (hv : Valid o) {iv : Int64} {base : ℤ} {bytes : UInt8}
    (hok : Append64Ok iv base bytes o) :
    wp (GString.append64 iv base bytes)
      (fun _ => Appended (o.str.length + bytes.toNat) (cells (itoa iv.toInt base ++ [0]))
        (itoa iv.toInt base).length o)
      (Refused (UInt32.ofNat (o.str.length + bytes.toNat)) o) (fun _ => False) o := by
  have hbytes := bytes.toNat_lt
  have hlen := o.str.length_lt
  have hn := UInt32.toNat_ofNat_of_le (n := o.str.length + bytes.toNat) (by omega)
  have htext : (cells (itoa iv.toInt base ++ [0])).length = (itoa iv.toInt base).length + 1 := by
    simp [cells]
  simp only [Append64Ok] at hok
  simp only [GString.append64, str, wp_bind, wp_map, wp_get, wp_when]
  refine ⟨fun hlt => ?_, fun hge => ?_⟩
  · rw [if_pos hlt] at hok
    refine wp_mono (wp_reserve hv (ReserveOk.of_length_le (by omega) (by omega)))
      (fun _ o' hg => ?_) (fun _ _ h => h) fun _ h => h
    rw [hn] at hg
    -- the new capacity is a power of two, so it is at least the next one
    have hcap : 2 ^ Nat.clog 2 (o.str.length + bytes.toNat) ≤ o'.str.capacity :=
      Nat.pow_le_pow_right (by decide) (Nat.clog_le_of_le_pow hg.capacity)
    have hlast := hok (hg.small hlt)
    have hone : 1 < o'.str.capacity := by
      have := hg.capacity
      have : 0 < o.str.capacity := Nat.two_pow_pos _
      omega
    have hroom := hg.valid.capacity_le hone
    refine wp_store_end hg.length.symm ?_ (Appended.of_frame hg.valid hg.contents hg.length hg.frame
      hg.same hg.small hg.limit ?_ ?_ fun _ => ?_)
    · rw [hg.length, htext]
      omega
    · rw [htext]
      omega
    · omega
    · omega
  · rw [if_neg hge] at hok
    refine wp_store_end rfl ?_ (Appended.of_frame hv rfl rfl (Frame.refl o) (fun _ _ => rfl)
      (fun hlt => absurd hlt hge) (le_max_left _ _) ?_ ?_ fun h => ?_)
    · rw [htext]
      exact hok.1
    · rw [htext]
      exact hok.1
    · omega
    · have := hok.2 h
      omega

theorem Append64Ok.of_length_lt (hv : Valid o) {iv : Int64} {base : ℤ} {bytes : UInt8}
    (hbytes : 1 < bytes.toNat) (hlen : (itoa iv.toInt base).length < bytes.toNat) :
    Append64Ok iv base bytes o := by
  simp only [Append64Ok]
  have hclog := Nat.le_pow_clog (b := 2) (by decide) (o.str.length + bytes.toNat)
  split_ifs with hlt
  · exact fun _ => by omega
  · have hroom := hv.capacity_le (by omega)
    exact ⟨by omega, fun _ => by omega⟩

/-- The decimal text of a number of at most `k` digits. -/
theorem wp_append64_decimal (hv : Valid o) (iv : Int64) (bytes : UInt8) {k : ℕ} (hk : 0 < k)
    (hiv : iv.toInt.natAbs < 10 ^ k) (hbytes : k + 1 < bytes.toNat) :
    wp (GString.append64 iv 10 bytes)
      (fun _ => Appended (o.str.length + bytes.toNat) (cells (signed iv.toInt ++ [0]))
        (signed iv.toInt).length o)
      (Refused (UInt32.ofNat (o.str.length + bytes.toNat)) o) (fun _ => False) o := by
  have hnat : iv.toInt.natAbs < 2 ^ 64 := by
    have := iv.toInt_lt
    have := iv.le_toInt
    omega
  have htext : itoa iv.toInt 10 = signed iv.toInt := itoa_ten hnat
  have hlen : (signed iv.toInt).length ≤ k + 1 := length_signedRadix_le (by decide) hk hiv
  have hok : Append64Ok iv 10 bytes o :=
    .of_length_lt hv (by omega) (by rw [htext]; omega)
  have := wp_append64 hv hok
  rwa [htext] at this

theorem wp_appendInt (hv : Valid o) (iv : Int32) :
    wp (GString.appendInt iv)
      (fun _ => Appended (o.str.length + 12) (cells (signed iv.toInt ++ [0]))
        (signed iv.toInt).length o)
      (Refused (UInt32.ofNat (o.str.length + 12)) o) (fun _ => False) o := by
  have hlt := iv.toInt_lt
  have hle := iv.le_toInt
  have hto : iv.toInt64.toInt = iv.toInt := Int32.toInt_toInt64 iv
  have := wp_append64_decimal hv iv.toInt64 12 (k := 10) (by decide)
    (by rw [hto]; omega) (by decide)
  rwa [hto] at this

theorem wp_appendLong (hv : Valid o) (iv : Int64) :
    wp (GString.appendLong iv)
      (fun _ => Appended (o.str.length + 24) (cells (signed iv.toInt ++ [0]))
        (signed iv.toInt).length o)
      (Refused (UInt32.ofNat (o.str.length + 24)) o) (fun _ => False) o := by
  have hlt := iv.toInt_lt
  have hle := iv.le_toInt
  exact wp_append64_decimal hv _ _ (k := 19) (by decide) (by omega) (by decide)

theorem wp_appendChar (hv : Valid o) (ch : UInt8) :
    wp (GString.appendChar ch) (fun _ => Appended (o.str.length + 1) (cells [ch]) 1 o)
      (Refused (UInt32.ofNat (o.str.length + 1)) o) (fun _ => False) o := by
  have hlen := o.str.length_lt
  have hn := UInt32.toNat_ofNat_of_le (n := o.str.length + 1) (by omega)
  simp only [GString.appendChar, str, wp_bind, wp_map, wp_get]
  refine wp_mono (wp_ensure hv (by omega) (by omega) fun h => by omega) (fun _ o' hg => ?_)
    (fun _ _ h => h) fun _ h => h
  rw [hn] at hg
  have hroom := hg.room
  refine wp_store_end hg.length.symm ?_ (hg.appended le_rfl le_rfl)
  rw [hg.length]
  exact hroom

/-- The bytes at `cstr` can be read, and still are after making room: they are not in the own
buffer, or there is room already. -/
def AppendOk (cstr : Option Ptr) (clen : ℕ) (o : Object) : Prop :=
  clen ≤ o.heap.room cstr ∧ o.str.length + clen ≤ 2 ^ 31 ∧
    (o.str.ownBuf.map Ptr.block = cstr.map Ptr.block → clen ≠ 0 →
      o.str.length + clen ≤ o.str.capacity ∧ 1 < o.str.capacity)

/-- `n` bytes can be read at `cstr`, apart from the buffer of the string. -/
structure Chars (o : Object) (cstr : Option Ptr) (n : ℕ) : Prop where
  readable : n ≤ o.heap.room cstr
  apart : n ≠ 0 → o.str.buf.map Ptr.block ≠ cstr.map Ptr.block

theorem Chars.not_own {cstr : Option Ptr} {n : ℕ} (hc : Chars o cstr n) (hne : n ≠ 0) :
    o.str.ownBuf.map Ptr.block ≠ cstr.map Ptr.block := by
  refine fun hown => hc.apart hne ?_
  cases hcstr : cstr with
  | none =>
    have hread := hc.readable
    rw [hcstr, Heap.room_none] at hread
    omega
  | some p =>
    rw [hcstr, Option.map_some] at hown
    obtain ⟨q, hq, hqp⟩ := Option.map_eq_some_iff.mp hown
    rw [(GString.ownBuf_eq_some_iff.mp hq).2, Option.map_some, Option.map_some, hqp]

/-- Bytes apart from the buffer can be appended. -/
theorem Chars.appendOk {cstr : Option Ptr} {n : ℕ} (hc : Chars o cstr n)
    (h31 : o.str.length + n ≤ 2 ^ 31) : AppendOk cstr n o :=
  ⟨hc.readable, h31, fun hown hne => absurd hown (hc.not_own hne)⟩

/-- What was readable before making room is readable afterwards. -/
theorem Grown.readable {o' : Object} {cstr : Option Ptr} {clen : ℕ} (hok : AppendOk cstr clen o)
    (hg : Grown (o.str.length + clen) o o') :
    clen ≤ o'.heap.room cstr ∧
      (o'.heap.cellsAt cstr).take clen = (o.heap.cellsAt cstr).take clen := by
  obtain ⟨hread, -, halias⟩ := hok
  rcases Nat.eq_zero_or_pos clen with rfl | hpos
  · simp
  · by_cases hown : o.str.ownBuf.map Ptr.block = cstr.map Ptr.block
    · obtain ⟨hcap, hone⟩ := halias hown (by omega)
      rw [hg.same hcap hone]
      exact ⟨hread, rfl⟩
    · refine Heap.readable_congr _ hread fun q hq hb => hg.cells q hb ?_
      rw [hq] at hown
      exact hown

theorem wp_append (hv : Valid o) {cstr : Option Ptr} {clen : UInt32}
    (hok : AppendOk cstr clen.toNat o) :
    wp (GString.append cstr clen)
      (fun _ => Appended (o.str.length + clen.toNat) ((o.heap.cellsAt cstr).take clen.toNat)
        clen.toNat o)
      (Refused (UInt32.ofNat o.str.length + clen) o) (fun _ => False) o := by
  have h31 := hok.2.1
  have hlen := UInt32.toNat_ofNat_of_le (n := o.str.length) (by omega)
  have hn : (UInt32.ofNat o.str.length + clen).toNat = o.str.length + clen.toNat := by
    rw [UInt32.toNat_add, hlen]
    exact Nat.mod_eq_of_lt (by omega)
  simp only [GString.append, str, wp_bind, wp_map, wp_get]
  refine wp_mono (wp_ensure hv (by omega) (by omega) fun h => by omega) (fun _ o' hg => ?_)
    (fun _ _ h => h) fun _ h => h
  rw [hn] at hg ⊢
  obtain ⟨hread, hcells⟩ := hg.readable hok
  have hroom := hg.room
  have hl : ((o.heap.cellsAt cstr).take clen.toNat).length = clen.toNat :=
    List.length_take.trans (min_eq_left hok.1)
  refine wp_memcpy_end hg.length.symm hread (by rw [hg.length]; exact hroom) ?_
  rw [hcells]
  exact hg.appended (by rw [hl]) hl.ge

/-- The C string at `cstr` is terminated and can be appended. -/
def AppendCStringOk (cstr : Option Ptr) (o : Object) : Prop :=
  ∃ n, Heap.cstrLen (o.heap.cellsAt cstr) = some n ∧ AppendOk cstr (UInt32.ofNat n).toNat o

theorem wp_appendCString (hv : Valid o) {cstr : Option Ptr}
    (hok : cstr ≠ none → AppendCStringOk cstr o) :
    wp (GString.appendCString cstr)
      (fun _ o' => cstr = none ∧ o' = o ∨ ∃ n, Heap.cstrLen (o.heap.cellsAt cstr) = some n ∧
        Appended (o.str.length + (UInt32.ofNat n).toNat)
          ((o.heap.cellsAt cstr).take (UInt32.ofNat n).toNat) (UInt32.ofNat n).toNat o o')
      (fun e o' => ∃ n, Heap.cstrLen (o.heap.cellsAt cstr) = some n ∧
        Refused (UInt32.ofNat o.str.length + UInt32.ofNat n) o e o')
      (fun _ => False) o := by
  refine (wp_when _ _).mpr ⟨fun hne => ?_, fun hnot => Or.inl ⟨Classical.not_not.mp hnot, rfl⟩⟩
  obtain ⟨n, hn, happend⟩ := hok hne
  have hstrlen : wp (Heap.strlen cstr) (fun m h => m = n ∧ h = o.heap) (fun _ _ => False)
      (fun _ => False) o.heap := by
    simp [wp, Heap.strlen, hn]
  simp only [onHeap, wp_bind, wp_zoom]
  refine wp_mono hstrlen (fun m h hm => ?_) (fun _ _ h => h.elim) fun _ h => h
  obtain ⟨rfl, rfl⟩ := hm
  exact wp_mono (wp_append hv happend) (fun _ _ h => Or.inr ⟨m, hn, h⟩)
    (fun _ _ h => ⟨m, hn, h⟩) fun _ h => h

/-- `ParseFrom` replaces the contents. -/
theorem wp_parseFrom (hv : Valid o) {cstr : Option Ptr} {clen : Int32}
    (hok : 0 ≤ clen.toInt → clen.toInt ≤ Meta.LENGTH_MASK.toNat →
      AppendOk cstr clen.toUInt32.toNat ⟨o.heap, o.str.setLength 0⟩) :
    wp (GString.parseFrom cstr clen) (fun _ => Valid) (fun _ => Valid) (fun _ => False) o := by
  have hv0 : Valid ⟨o.heap, o.str.setLength 0⟩ := hv.withLength (Nat.zero_le _) fun h => by omega
  simp only [GString.parseFrom, modifyStr, wp_ite, wp_pure, wp_bind, wp_modify]
  refine ⟨fun _ => hv, fun hrange => ?_⟩
  push Not at hrange
  refine wp_mono (wp_append hv0 (hok hrange.1 hrange.2)) (fun _ _ h => h.valid) (fun _ _ h => ?_)
    fun _ h => h
  rw [h.1]
  exact hv0

theorem wp_appendDouble (hv : Valid o) (text : List UInt8) :
    wp (GString.appendDouble text) (fun _ => Valid) (fun _ o' => o' = o) (fun _ => False) o := by
  have hlen := o.str.length_lt
  have hn := UInt32.toNat_ofNat_of_le (n := o.str.length + 32) (by omega)
  have hnew : (cells (text.take 30 ++ [0])).length = min 30 text.length + 1 := by
    simp [cells]
  simp only [GString.appendDouble, str, wp_bind, wp_map, wp_get]
  refine wp_mono (wp_reserve hv (ReserveOk.of_length_le (by omega) (by omega)))
    (fun _ o' hg => ?_) (fun _ _ h => h.1) fun _ h => h
  rw [hn] at hg
  have hroom : o'.str.length + (cells (text.take 30 ++ [0])).length ≤ o'.room := by
    have := hg.room
    rw [hnew, hg.length]
    omega
  rw [← hg.length]
  simp only [onHeap, modifyStr, wp_zoom, wp_when, wp_modify]
  refine Heap.wp_store (room_data hroom) ⟨fun _ => ?_, fun _ => hg.valid.write hroom⟩
  refine hg.valid.push hroom (by rw [hnew]; omega) fun _ => ?_
  have := hg.capacity
  rw [hg.length]
  omega

/-- A call of `strftime` with the room behind the contents. -/
theorem wp_strftime {text : List UInt8} {max : ℕ} (hroom : o.str.length + max ≤ o.room) :
    wp (onHeap (strftime text (o.str.data o.str.length) max))
      (fun got o₁ => ∃ new : List Cell, o.str.length + new.length ≤ o.room ∧
        o₁ = ⟨o.heap.write (o.str.data o.str.length) new, o.str⟩ ∧
        (text.length + 1 ≤ max → got = text.length ∧ new = cells (text ++ [0])) ∧
        (¬ text.length + 1 ≤ max → got = 0))
      (fun _ _ => False) (fun _ => False) o := by
  have hdata : ¬ o.heap.room (o.str.data o.str.length) < max := by
    rw [GString.data, Heap.room_shift]
    simp only [Object.room] at hroom
    omega
  refine wp_zoom.mpr ((wp_bind _).mpr (wp_get.mpr ((wp_ite _ _).mpr ⟨fun h => absurd h hdata,
    fun _ => (wp_ite _ _).mpr ⟨fun hfits => ?_, fun hnot => ?_⟩⟩)))
  · have hin : o.str.length + (cells (text ++ [0])).length ≤ o.room := by
      rw [length_cells, List.length_append, List.length_singleton]
      omega
    exact (wp_bind _).mpr (Heap.wp_store (room_data hin)
      ⟨_, hin, rfl, fun _ => ⟨rfl, rfl⟩, fun h => absurd hfits h⟩)
  · have hin : o.str.length + (List.replicate max (none : Cell)).length ≤ o.room := by
      rwa [List.length_replicate]
    exact (wp_bind _).mpr (Heap.wp_store (room_data hin)
      ⟨_, hin, rfl, fun h => absurd h hnot, fun _ => rfl⟩)

/-- The rounds of `appendTime` double the room until the text fits or the guard ends them. -/
theorem wp_appendTime (text : List UInt8) : ∀ (fuel : ℕ) {o : Object}, Valid o → 0 < fuel →
    (o.str.capacity < o.str.length + 8 → 10 ≤ fuel) →
    (o.str.length + 8 ≤ o.str.capacity →
      1024 < (o.str.capacity - o.str.length) * 2 ^ (fuel - 1)) →
    wp (GString.appendTime text fuel) (fun _ => Valid) (fun _ => Valid) (fun _ => False) o
  | 0, _, _, h, _, _ => absurd h (by omega)
  | fuel + 1, o, hv, _, hsmall, hlarge => by
    have hlen := o.str.length_lt
    have hpow : o.str.capacity ≤ 2 ^ 30 := Nat.pow_le_pow_right (by decide) hv.power_le
    simp only [GString.appendTime, str, wp_bind, wp_map, wp_get, wp_ite]
    refine ⟨fun hleft => ?_, fun hleft => ?_⟩
    -- too little room even to ask `strftime`
    · have hn := UInt32.toNat_ofNat_of_le (n := o.str.length + 8) (by omega)
      refine wp_mono (wp_reserve hv (ReserveOk.of_length_le (by omega) (by omega)))
        (fun _ o' hg => ?_) (fun _ _ h => h.1 ▸ hv) fun _ h => h
      rw [hn] at hg
      have hcap := hg.capacity
      have hfuel := hsmall (by omega)
      refine wp_appendTime text fuel hg.valid (by omega) (fun h => ?_) fun _ => ?_
      · rw [hg.length] at h
        omega
      · rw [hg.length]
        have h8 : 8 * 2 ^ 8 ≤ (o'.str.capacity - o.str.length) * 2 ^ (fuel - 1) :=
          Nat.mul_le_mul (by omega) (Nat.pow_le_pow_right (by decide) (by omega))
        omega
    · have hge : o.str.length + 8 ≤ o.str.capacity := by omega
      have hroom := hv.capacity_le (by omega)
      have hleftNat : ((o.str.capacity : ℤ) - o.str.length).toNat =
          o.str.capacity - o.str.length := by omega
      rw [hleftNat]
      generalize hleftDef : o.str.capacity - o.str.length = left at *
      refine wp_mono (wp_strftime (by omega)) (fun got o₁ h => ?_) (fun _ _ h => h.elim)
        fun _ h => h
      obtain ⟨new, hin, rfl, hfits, hnot⟩ := h
      refine ⟨fun hgot => ?_, fun hgot => ?_⟩
      -- the text did not fit
      · refine (wp_when _ _).mpr ⟨fun h1024 => ?_, fun _ => hv.write hin⟩
        have hn := UInt32.toNat_ofNat_of_le (n := o.str.length + left * 2) (by omega)
        refine (wp_bind _).mpr (wp_mono (wp_reserve (hv.write hin)
          (ReserveOk.of_length_le (by omega) (by simp only; omega)))
          (fun _ o' hg => ?_) (fun _ _ h => h.1 ▸ hv.write hin) fun _ h => h)
        rw [hn] at hg
        have hcap := hg.capacity
        have hlength := hg.length
        simp only at hlength
        have hdouble := hlarge hge
        have hfuel : 0 < fuel := by
          rcases Nat.eq_zero_or_pos fuel with rfl | hpos
          · simp at hdouble
            omega
          · exact hpos
        refine wp_appendTime text fuel hg.valid hfuel (fun h => by omega) fun _ => ?_
        obtain ⟨f, rfl⟩ : ∃ f, fuel = f + 1 := ⟨fuel - 1, by omega⟩
        rw [Nat.add_sub_cancel, pow_succ, mul_comm (2 ^ f), ← mul_assoc] at hdouble
        rw [Nat.add_sub_cancel, hlength]
        exact hdouble.trans_le (Nat.mul_le_mul_right _ (by omega))
      · simp only [modifyStr, wp_modify]
        by_cases hfit : text.length + 1 ≤ left
        · obtain ⟨rfl, -⟩ := hfits hfit
          refine (hv.write hin).withLength ?_ fun _ => by simp only; omega
          have hsame : (o.heap.write (o.str.data o.str.length) new).room o.str.buf = o.room :=
            Heap.room_write (room_data hin) _
          rw [Object.room, hsame]
          omega
        · exact absurd (hnot hfit) hgot

/-- The payload can be read, and still is after the header was written. -/
def AppendNetstringOk (cstr : Option Ptr) (clen : UInt32) (o : Object) : Prop :=
  let header := (signed clen.toInt32.toInt).length + 1
  clen.toNat ≤ o.heap.room cstr ∧ o.str.length + header + clen.toNat ≤ 2 ^ 31 ∧
    (o.str.ownBuf.map Ptr.block = cstr.map Ptr.block → clen.toNat ≠ 0 →
      o.str.length + 12 ≤ o.str.capacity ∧
        o.str.length + header + clen.toNat ≤ o.str.capacity)

/-- The payload after the header was written. -/
theorem appendOk_of_header {o₁ o₂ : Object} {cstr : Option Ptr} {clen : UInt32}
    (hok : AppendNetstringOk cstr clen o)
    (h₁ : Appended (o.str.length + 12) (cells (signed clen.toInt32.toInt ++ [0]))
      (signed clen.toInt32.toInt).length o o₁)
    (h₂ : Appended (o₁.str.length + 1) (cells [58]) 1 o₁ o₂) :
    AppendOk cstr clen.toNat o₂ := by
  simp only [AppendNetstringOk] at hok
  obtain ⟨hread, h31, halias⟩ := hok
  have hlength : o₂.str.length ≤ o.str.length + (signed clen.toInt32.toInt).length + 1 := by
    rw [h₂.length, h₁.length]
    exact (Nat.mod_le _ _).trans (Nat.add_le_add_right (Nat.mod_le _ _) 1)
  have hframe := h₁.frame.trans h₂.frame
  -- nothing moves when the payload is in the own buffer
  have hsame : o.str.ownBuf.map Ptr.block = cstr.map Ptr.block → clen.toNat ≠ 0 →
      o₂.str.ownBuf = o.str.ownBuf ∧ o₂.str.capacity = o.str.capacity := by
    intro hown hpos
    obtain ⟨h12, hfit⟩ := halias hown hpos
    have heq₁ := h₁.same h12 (by omega)
    have hown₁ : o₁.str.ownBuf = o.str.ownBuf := by
      rw [heq₁]
      exact GString.ownBuf_setLength _ _
    have hcap₁ : o₁.str.capacity = o.str.capacity := by
      simp [heq₁, Object.push, GString.capacity]
    have hlen₁ : o₁.str.length ≤ o.str.length + (signed clen.toInt32.toInt).length := by
      rw [h₁.length]
      exact Nat.mod_le _ _
    have heq₂ := h₂.same (by omega) (by omega)
    refine ⟨?_, ?_⟩
    · rw [heq₂, ← hown₁]
      exact GString.ownBuf_setLength _ _
    · rw [heq₂, ← hcap₁]
      simp [Object.push, GString.capacity]
  refine ⟨?_, by omega, fun hown hpos => ?_⟩
  · cases cstr with
    | none => exact hread
    | some p =>
      rcases Nat.eq_zero_or_pos clen.toNat with h0 | hpos
      · omega
      · have hb : p.block < o.heap.blocks.length :=
          Heap.lt_length_of_room_pos (hpos.trans_le hread)
        rw [hframe.room p hb fun q hq hqp => ?_]
        · exact hread
        · rw [(hsame (by rw [hq, Option.map_some, hqp, Option.map_some]) (by omega)).1, hq]
  · have hold : o.str.ownBuf.map Ptr.block = cstr.map Ptr.block := by
      cases cstr with
      | none => simp at hread; omega
      | some p =>
        obtain ⟨q, hq, hqp⟩ := Option.map_eq_some_iff.mp hown
        have hb : p.block < o.heap.blocks.length :=
          Heap.lt_length_of_room_pos (Nat.lt_of_lt_of_le (Nat.pos_of_ne_zero hpos) hread)
        rcases hframe.own q hq with hq' | hnew
        · rw [hq', Option.map_some, hqp, Option.map_some]
        · omega
    obtain ⟨h12, hfit⟩ := halias hold hpos
    rw [(hsame hold hpos).2]
    exact ⟨by omega, by omega⟩

/-- The netstring is appended in four steps, each of which may be refused. -/
theorem wp_appendNetstring (hv : Valid o) {cstr : Option Ptr} {clen : UInt32}
    (hok : AppendNetstringOk cstr clen o) :
    wp (GString.appendNetstring cstr clen)
      (fun _ o' => ∃ o₁ o₂ o₃,
        Appended (o.str.length + 12) (cells (signed clen.toInt32.toInt ++ [0]))
          (signed clen.toInt32.toInt).length o o₁ ∧
        Appended (o₁.str.length + 1) (cells [58]) 1 o₁ o₂ ∧
        Appended (o₂.str.length + clen.toNat) ((o₂.heap.cellsAt cstr).take clen.toNat)
          clen.toNat o₂ o₃ ∧
        Appended (o₃.str.length + 1) (cells [44]) 1 o₃ o')
      (fun e o' => Valid o' ∧ (Refused (UInt32.ofNat (o.str.length + 12)) o e o' ∨
        ∃ o₁ o₂, Appended (o.str.length + 12) (cells (signed clen.toInt32.toInt ++ [0]))
            (signed clen.toInt32.toInt).length o o₁ ∧
          Appended (o₁.str.length + 1) (cells [58]) 1 o₁ o₂ ∧
          Refused (UInt32.ofNat o₂.str.length + clen) o₂ e o'))
      (fun _ => False) o := by
  -- one more character is never too much
  have hchar : ∀ {o : Object} {e : String} {o' : Object},
      Refused (UInt32.ofNat (o.str.length + 1)) o e o' → False := by
    rintro o e o' ⟨-, -, -, hlarge⟩
    have := o.str.length_lt
    rw [UInt32.toNat_ofNat_of_le (by omega)] at hlarge
    omega
  simp only [GString.appendNetstring, wp_bind]
  refine wp_mono (wp_appendInt hv _) (fun _ o₁ h₁ => ?_) (fun _ _ h => ⟨h.1 ▸ hv, Or.inl h⟩)
    fun _ h => h
  refine wp_mono (wp_appendChar h₁.valid 58) (fun _ o₂ h₂ => ?_) (fun _ _ h => (hchar h).elim)
    fun _ h => h
  refine wp_mono (wp_append h₂.valid (appendOk_of_header hok h₁ h₂)) (fun _ o₃ h₃ => ?_)
    (fun _ _ h => ⟨h.1 ▸ h₂.valid, Or.inr ⟨o₁, o₂, h₁, h₂, h⟩⟩) fun _ h => h
  exact wp_mono (wp_appendChar h₃.valid 44) (fun _ _ h₄ => ⟨o₁, o₂, o₃, h₁, h₂, h₃, h₄⟩)
    (fun _ _ h => (hchar h).elim) fun _ h => h

/-- The netstring that `readNetstring` reads has room. -/
def ReadNetstringOk (stream : IStream) (o : Object) : Prop :=
  o.str.length + stream.extractInt32.1.toNat ≤ 2 ^ 31

/-- `readNetstring` appends the netstring at the head of the stream, if there is one. -/
theorem wp_readNetstring (hv : Valid o) {stream : IStream} (hok : ReadNetstringOk stream o) :
    wp (GString.readNetstring stream)
      (fun stream' o' => Valid o' ∧ ∃ body, stream.netstring = some (body, stream') ∧
        (o.str.length + body.length < 2 ^ 24 → o'.contents = o.contents ++ cells body))
      (fun _ o' => Valid o' ∧ o'.contents = o.contents ∧
        (stream.netstring = none ∨ TooLarge (o.str.length + stream.extractInt32.1.toNat) o))
      (fun _ => False) o := by
  have hn := UInt32.toNat_ofNat_of_le (n := o.str.length + stream.extractInt32.1.toNat) hok
  simp only [GString.readNetstring, str, wp_bind, wp_map, wp_get, wp_pure]
  refine (wp_when _ _).mpr ⟨fun hbad => ⟨hv, rfl, Or.inl ?_⟩, fun hnumber => ?_⟩
  · refine if_neg fun h => ?_
    rcases hbad with hbad | hbad
    · exact hbad h.1.1
    · omega
  refine (wp_when _ _).mpr ⟨fun hbad => ⟨hv, rfl, Or.inl ?_⟩, fun hcolon => ?_⟩
  · refine if_neg fun h => ?_
    rcases hbad with hbad | hbad
    · exact hbad h.2.1.1
    · exact hbad h.2.1.2
  push Not at hnumber hcolon
  refine wp_mono (wp_ensure hv (by rw [hn]; exact hok) (by omega) fun h => by omega)
    (fun _ o' hg => ?_) (fun _ _ h => ⟨h.1 ▸ hv, h.1 ▸ rfl, Or.inr (hn ▸ h.2.2)⟩) fun _ h => h
  rw [hn] at hg
  have hbody := IStream.length_read_le stream.extractInt32.2.getChar.2 stream.extractInt32.1.toNat
  generalize hread : stream.extractInt32.2.getChar.2.read stream.extractInt32.1.toNat = body at *
  have hin : o'.str.length + (cells body.1).length ≤ o'.room := by
    have := hg.room
    simp only [cells, List.length_map, hg.length]
    omega
  rw [← hg.length]
  -- the bytes read so far are beyond the end of the string
  have hkeep : Object.contents ⟨o'.heap.write (o'.str.data o'.str.length) (cells body.1), o'.str⟩ =
      o.contents := by
    rw [← hg.contents]
    simp only [Object.contents]
    rw [cellsAt_write hin, Heap.splice, List.append_assoc, List.take_append_of_le_length,
      List.take_take, min_self]
    rw [List.length_take]
    exact le_min le_rfl hg.valid.length_le
  refine wp_zoom.mpr (Heap.wp_store (room_data hin) ?_)
  refine (wp_when _ _).mpr ⟨fun hbad => ⟨hg.valid.write hin, hkeep, Or.inl ?_⟩, fun hgood => ?_⟩
  · exact if_neg fun h => hbad (hread ▸ h.2.2.1)
  refine (wp_when _ _).mpr ⟨fun hbad => ⟨hg.valid.write hin, hkeep, Or.inl ?_⟩, fun hcomma => ?_⟩
  · exact if_neg fun h => hbad (hread ▸ h.2.2.2)
  have hlen : body.1.length = stream.extractInt32.1.toNat := by
    rw [← hread]
    exact IStream.length_read_of_good (by rw [hread]; simpa using hgood)
  rw [← hlen]
  have hcells : (cells body.1).length = body.1.length := List.length_map _
  refine ⟨hg.valid.push hin hcells.ge fun _ => ?_, body.1, ?_, fun hsmall => ?_⟩
  · have := hg.capacity
    rw [hg.length]
    omega
  · have hcond : (stream.extractInt32.2.good ∧ 0 ≤ stream.extractInt32.1) ∧
        (stream.extractInt32.2.getChar.2.good ∧ stream.extractInt32.2.getChar.1 = some 58) ∧
        body.2.good ∧ body.2.getChar.1 = some 44 :=
      ⟨hnumber, hcolon, by simpa using hgood, Classical.not_not.mp hcomma⟩
    simp only [IStream.netstring, hread, hcond, and_self, if_true]
  · refine (contents_push hin hcells.ge hsmall).trans ?_
    rw [hg.contents, ← hcells, List.take_length]

end Append

end Glim
