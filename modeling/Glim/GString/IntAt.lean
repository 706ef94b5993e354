import Glim.GString.Netstring
import Glim.Text.Cut

/-!
# Reading a number at a position

`intAt` lets `strtol` read on behind the end of a string, and then refuses a number that ends there.
The end is kept in 32 bits, so a number that ends `2 ^ 32` bytes or more behind the beginning of the
buffer can pass for one that ends inside of the string.

## Main definitions

* `GString.intAt`, `intAt`: the numbers in strings
* `ReadsNumber`: a result that is the number in the string alone
* `IgnoresTail`: two calls that differ in what is behind the string
* `EndsInside`, `Fits`: where a number ends

## Main results

* `readsNumber_of_fits`: a number that is not refused, and that fits
* `readsNumber_intAt`: the numbers in a `std::string`
* `ignoresTail_iff`: when nothing behind the string influences the results
-/

namespace Glim

open Machine Exec Method Text

/-! ## The functions -/

/-- The body of both functions `intAt`. The `memory` are the bytes that can be read from `buf` on,
if it is not null, and the state is what `after` points to, if it is not null. -/
def scanInt (name : String) (memory : Option (List UInt8)) (len pos : UInt32) (base : ℕ) :
    Exec (Option UInt32) ℤ := do
  when (len ≤ pos ∨ memory = none) (raise (name ++ ": pos >= len"))
  let number ← strtolAt (memory.getD []) pos.toNat base
  -- `uint32_t next = endptr - buf;`
  let next := UInt32.ofNat number.2
  when (len < next) (raise (name ++ ": endptr > len"))
  modify (Option.map fun _ => next)
  pure number.1

/-- `gstring::intAt (pos, after, base)`. -/
def GString.intAt (s : GString) (h : Heap) (pos : UInt32) (base : ℕ) : Exec (Option UInt32) ℤ :=
  scanInt "gstring: intAt" (s.buf.map fun p => bytesAt h (some p)) (UInt32.ofNat s.length) pos base

/-- `intAt (source, pos, after, base)` for a `std::string`. -/
def intAt (source : List UInt8) (pos : UInt32) (base : ℕ) : Exec (Option UInt32) ℤ :=
  scanInt "intAt" (some (source ++ [0])) (UInt32.ofNat source.length) pos base

/-! ## Numbers in a string -/

/-- The value is that of the number at `pos` in the bytes alone, and `after` points behind it. -/
def ReadsNumber (bytes : List UInt8) (pos : UInt32) (base : ℕ) (after : Option UInt32)
    (v : ℤ) (after' : Option UInt32) : Prop :=
  ∃ (next : UInt32) (used : ℕ), strtol base (bytes.drop pos.toNat ++ [0]) = some (v, used) ∧
    next.toNat = pos.toNat + used ∧ pos ≤ next ∧ next.toNat ≤ bytes.length ∧
    after' = after.map fun _ => next

/-- Two calls with different bytes behind the string: what they return is the same number, and a
call that does not return, where the other does, throws and leaves `after` alone. -/
structure IgnoresTail (bytes : List UInt8) (pos : UInt32) (base : ℕ) (after : Option UInt32)
    (r r' : Outcome (Option UInt32) ℤ) : Prop where
  both : ∀ v a v' a', r = .ok v a → r' = .ok v' a' →
    v = v' ∧ a = a' ∧ ReadsNumber bytes pos base after v a
  left : ∀ v a, r = .ok v a → (∃ v' a', r' = .ok v' a') ∨ ∃ e, r' = .throw e after
  right : ∀ v' a', r' = .ok v' a' → (∃ v a, r = .ok v a) ∨ ∃ e, r = .throw e after

/-- The number at `pos` ends, modulo `2 ^ 32`, inside of the string. -/
def EndsInside (bytes memory : List UInt8) (pos base : ℕ) : Prop :=
  ∃ v used, strtol base (memory.drop pos) = some (v, used) ∧
    (pos + used) % 2 ^ 32 ≤ bytes.length

/-- The number at `pos` ends less than `2 ^ 32` bytes behind the beginning. -/
def Fits (memory : List UInt8) (pos base : ℕ) : Prop :=
  ∃ v used, strtol base (memory.drop pos) = some (v, used) ∧ pos + used < 2 ^ 32

/-- The string holds the bytes, and what can be read behind them goes on to some terminator. -/
structure HoldsBytes (s : GString) (bytes : List UInt8) (h : Heap) : Prop where
  contents : Object.contents ⟨h, s⟩ = cells bytes
  terminator : s.buf ≠ none → 0 ∈ (bytesAt h s.buf).drop s.length

section IntAt

variable {name : String} {bytes memory : List UInt8} {len pos : UInt32} {base used : ℕ} {v : ℤ}
  {after after' : Option UInt32}

theorem scanInt_of_le (h : len ≤ pos) (memory : Option (List UInt8)) :
    scanInt name memory len pos base after = .throw (name ++ ": pos >= len") after := by
  rw [scanInt, when_of_pos (Or.inl h)]
  rfl

theorem scanInt_of_none : scanInt name none len pos base after =
    .throw (name ++ ": pos >= len") after := by
  rw [scanInt, when_of_pos (Or.inr rfl)]
  rfl

theorem strtolAt_of_strtol {σ : Type} {pos : ℕ}
    (hn : strtol base (memory.drop pos) = some (v, used)) (st : σ) :
    strtolAt memory pos base st = .ok (v, pos + used) st := by
  rw [strtolAt, hn]
  rfl

/-- A call where the number ends, in 32 bits, inside of the string or behind it. -/
theorem scanInt_of_strtol (hpos : pos < len)
    (hn : strtol base (memory.drop pos.toNat) = some (v, used)) :
    scanInt name (some memory) len pos base after =
      if (pos.toNat + used) % 2 ^ 32 ≤ len.toNat then
        .ok v (after.map fun _ => UInt32.ofNat (pos.toNat + used))
      else .throw (name ++ ": endptr > len") after := by
  have hnext : len < UInt32.ofNat (pos.toNat + used) ↔
      ¬ (pos.toNat + used) % 2 ^ 32 ≤ len.toNat := by
    rw [UInt32.lt_iff_toNat_lt, UInt32.toNat_ofNat']
    omega
  rw [scanInt, when_of_not (fun h => h.elim (UInt32.not_le.mpr hpos) nofun)]
  refine (bind_of_ok (strtolAt_of_strtol hn after)).trans ?_
  by_cases hin : (pos.toNat + used) % 2 ^ 32 ≤ len.toNat
  · rw [if_pos hin]
    simp only [when_of_not (fun h => hnext.mp h hin)]
    rfl
  · rw [if_neg hin]
    simp only [when_of_pos (hnext.mpr hin)]
    rfl

/-- Both results are the number in the same bytes. -/
theorem ReadsNumber.unique {v' : ℤ} {a a' : Option UInt32}
    (h : ReadsNumber bytes pos base after v a) (h' : ReadsNumber bytes pos base after v' a') :
    v = v' ∧ a = a' := by
  obtain ⟨next, used, hn, hnext, -, -, rfl⟩ := h
  obtain ⟨next', used', hn', hnext', -, -, rfl⟩ := h'
  obtain ⟨rfl, rfl⟩ := Prod.mk.inj (Option.some.inj (hn.symm.trans hn'))
  exact ⟨rfl, by rw [UInt32.toNat_inj.mp (hnext.trans hnext'.symm)]⟩

/-- A number that ends inside of the string is the number in the string alone. -/
theorem strtol_bytes (hbytes : memory.take bytes.length = bytes) (hbase : base ≤ 36)
    (hn : strtol base (memory.drop pos.toNat) = some (v, used))
    (hin : pos.toNat + used ≤ bytes.length) :
    strtol base (bytes.drop pos.toNat ++ [0]) = some (v, used) := by
  have hcut : bytes.drop pos.toNat ++ [0] =
      cut (bytes.length - pos.toNat) (memory.drop pos.toNat) := by
    rw [cut, ← List.drop_take, hbytes]
  rw [hcut]
  exact strtol_cut hbase hn (by omega)

/-- A number that is not refused, and that fits, is the number in the string alone. -/
theorem readsNumber_of_fits (hbytes : memory.take bytes.length = bytes) (hbase : base ≤ 36)
    (hn : strtol base (memory.drop pos.toNat) = some (v, used))
    (hin : (pos.toNat + used) % 2 ^ 32 ≤ bytes.length) (hfits : Fits memory pos.toNat base) :
    ReadsNumber bytes pos base after v
      (after.map fun _ => UInt32.ofNat (pos.toNat + used)) := by
  obtain ⟨v', used', hn', hlt⟩ := hfits
  obtain ⟨rfl, rfl⟩ := Prod.mk.inj (Option.some.inj (hn.symm.trans hn'))
  rw [Nat.mod_eq_of_lt hlt] at hin
  have hnext : (UInt32.ofNat (pos.toNat + used)).toNat = pos.toNat + used :=
    UInt32.toNat_ofNat_of_lt' hlt
  refine ⟨_, used, strtol_bytes hbytes hbase hn hin, hnext, ?_, ?_, rfl⟩
  · rw [UInt32.le_iff_toNat_le, hnext]
    exact Nat.le_add_right _ _
  · rw [hnext]
    exact hin

end IntAt

/-! ## `std::string` -/

section StdString

variable {source : List UInt8} {pos : UInt32} {base : ℕ}

/-- A `std::string` is terminated, so the number at a position inside of it is never refused. -/
theorem readsNumber_intAt (hlen : source.length < 2 ^ 32) (hpos : pos.toNat < source.length)
    (hbase : base ≤ 36) (after : Option UInt32) :
    ∃ v after', intAt source pos base after = .ok v after' ∧
      ReadsNumber source pos base after v after' := by
  have hdrop : (source ++ [0]).drop pos.toNat = source.drop pos.toNat ++ [0] :=
    List.drop_append_of_le_length hpos.le
  have hlen32 : (UInt32.ofNat source.length).toNat = source.length :=
    UInt32.toNat_ofNat_of_lt' hlen
  have h0 : 0 ∈ (source ++ [0]).drop pos.toNat := by
    rw [hdrop]
    exact List.mem_append_right _ (List.mem_singleton_self 0)
  obtain ⟨⟨v, used⟩, hn⟩ := exists_strtol hbase h0
  have hlt := strtol_lt_length hn
  rw [hdrop, List.length_append, List.length_drop, List.length_singleton] at hlt
  have hin : (pos.toNat + used) % 2 ^ 32 ≤ source.length := by omega
  have hpos32 : pos < UInt32.ofNat source.length := by
    rw [UInt32.lt_iff_toNat_lt, hlen32]
    exact hpos
  refine ⟨v, _, ?_, readsNumber_of_fits (List.take_left' rfl) hbase hn hin
    ⟨v, used, hn, by omega⟩⟩
  rw [intAt, scanInt_of_strtol hpos32 hn, hlen32, if_pos hin]

example : intAt [49, 50, 51, 52, 53, 44] 1 10 (some 0) = .ok 2345 (some 5) := rfl

end StdString

/-! ## Bytes behind the string -/

namespace HoldsBytes

variable {s : GString} {bytes : List UInt8} {h : Heap} {pos : UInt32} {base used : ℕ} {v : ℤ}
  {after : Option UInt32}

theorem buf_ne_none (hb : HoldsBytes s bytes h) (hpos : pos.toNat < bytes.length) :
    s.buf ≠ none := fun hbuf => by
  have hnil := hb.contents
  rw [Object.contents, hbuf, Heap.cellsAt, List.take_nil] at hnil
  rw [List.map_eq_nil_iff.mp hnil.symm] at hpos
  cases hpos

theorem length_eq (hb : HoldsBytes s bytes h) (hbuf : s.buf ≠ none) :
    bytes.length = s.length := by
  have hcontents := congrArg List.length hb.contents
  have hend := List.length_pos_of_mem (hb.terminator hbuf)
  have hle : (bytesAt h s.buf).length ≤ (h.cellsAt s.buf).length :=
    (List.reduceOption_length_le _).trans (List.takeWhile_sublist _).length_le
  rw [List.length_drop] at hend
  rw [Object.contents, length_cells, List.length_take] at hcontents
  simp only at hcontents
  omega

/-- There is a number, if only because of the terminator. -/
theorem exists_strtol (hb : HoldsBytes s bytes h) (hpos : pos.toNat < bytes.length)
    (hbase : base ≤ 36) :
    ∃ v used, strtol base ((bytesAt h s.buf).drop pos.toNat) = some (v, used) := by
  have hbuf := hb.buf_ne_none hpos
  have hend := hb.terminator hbuf
  rw [← hb.length_eq hbuf, ← Nat.add_sub_cancel' hpos.le, ← List.drop_drop] at hend
  obtain ⟨⟨v, used⟩, hn⟩ := Text.exists_strtol hbase (List.mem_of_mem_drop hend)
  exact ⟨v, used, hn⟩

theorem intAt_eq (hb : HoldsBytes s bytes h) (hpos : pos.toNat < bytes.length)
    (hn : strtol base ((bytesAt h s.buf).drop pos.toNat) = some (v, used))
    (after : Option UInt32) :
    s.intAt h pos base after = if (pos.toNat + used) % 2 ^ 32 ≤ bytes.length then
        .ok v (after.map fun _ => UInt32.ofNat (pos.toNat + used))
      else .throw "gstring: intAt: endptr > len" after := by
  have hbuf := hb.buf_ne_none hpos
  have hlength := hb.length_eq hbuf
  have hlt := s.length_lt
  have hlen32 := UInt32.toNat_ofNat_of_le (n := s.length) (by omega)
  have hpos32 : pos < UInt32.ofNat s.length := by
    rw [UInt32.lt_iff_toNat_lt, hlen32, ← hlength]
    exact hpos
  obtain ⟨p, hp⟩ := Option.ne_none_iff_exists'.mp hbuf
  rw [hp] at hn
  rw [GString.intAt, hp, Option.map_some, scanInt_of_strtol hpos32 hn, hlen32, hlength]
  rfl

theorem intAt_of_le (hb : HoldsBytes s bytes h) (hpos : bytes.length ≤ pos.toNat)
    (after : Option UInt32) :
    s.intAt h pos base after = .throw "gstring: intAt: pos >= len" after := by
  by_cases hbuf : s.buf = none
  · rw [GString.intAt, hbuf, Option.map_none, scanInt_of_none]
    rfl
  · have hlength := hb.length_eq hbuf
    have hlt := s.length_lt
    have hlen32 := UInt32.toNat_ofNat_of_le (n := s.length) (by omega)
    have hpos32 : UInt32.ofNat s.length ≤ pos := by
      rw [UInt32.le_iff_toNat_le, hlen32, ← hlength]
      exact hpos
    rw [GString.intAt, scanInt_of_le hpos32]
    rfl

/-- A call returns, or throws and leaves `after` alone. -/
theorem intAt_cases (hb : HoldsBytes s bytes h) (hbase : base ≤ 36) (pos : UInt32)
    (after : Option UInt32) : (∃ v after', s.intAt h pos base after = .ok v after') ∨
      ∃ e, s.intAt h pos base after = .throw e after := by
  rcases Nat.lt_or_ge pos.toNat bytes.length with hpos | hpos
  · obtain ⟨v, used, hn⟩ := hb.exists_strtol hpos hbase
    rw [hb.intAt_eq hpos hn]
    split_ifs
    · exact Or.inl ⟨_, _, rfl⟩
    · exact Or.inr ⟨_, rfl⟩
  · exact Or.inr ⟨_, hb.intAt_of_le hpos after⟩

/-- A call returns a number that ends inside of the string, in 32 bits. -/
theorem exists_of_intAt_eq_ok {after' : Option UInt32} (hb : HoldsBytes s bytes h)
    (hbase : base ≤ 36) (hx : s.intAt h pos base after = .ok v after') :
    pos.toNat < bytes.length ∧ ∃ used,
      strtol base ((bytesAt h s.buf).drop pos.toNat) = some (v, used) ∧
        (pos.toNat + used) % 2 ^ 32 ≤ bytes.length ∧
        after' = after.map fun _ => UInt32.ofNat (pos.toNat + used) := by
  rcases Nat.lt_or_ge pos.toNat bytes.length with hpos | hpos
  · obtain ⟨v', used, hn⟩ := hb.exists_strtol hpos hbase
    rw [hb.intAt_eq hpos hn] at hx
    split_ifs at hx with hin
    · cases hx
      exact ⟨hpos, used, hn, hin, rfl⟩
  · rw [hb.intAt_of_le hpos] at hx
    cases hx

/-- What is returned is the number in the string alone, if the number fits. -/
theorem readsNumber_of_intAt {after' : Option UInt32} (hb : HoldsBytes s bytes h)
    (hbase : base ≤ 36) (hx : s.intAt h pos base after = .ok v after')
    (hfits : Fits (bytesAt h s.buf) pos.toNat base) :
    ReadsNumber bytes pos base after v after' := by
  obtain ⟨-, used, hn, hin, rfl⟩ := hb.exists_of_intAt_eq_ok hbase hx
  exact readsNumber_of_fits (take_bytesAt hb.contents) hbase hn hin hfits

end HoldsBytes

section Tail

variable {s : GString} {bytes memory : List UInt8} {h h' : Heap} {pos : UInt32} {base used : ℕ}
  {v : ℤ}

/-- Memory that holds a text from a pointer on. -/
def textHeap (p : Ptr) (text : List UInt8) : Heap :=
  ⟨List.replicate p.block ⟨[], .foreign, false⟩ ++
    [⟨List.replicate p.off none ++ cells text, .foreign, true⟩], 0, []⟩

theorem cellsAt_textHeap (p : Ptr) (text : List UInt8) :
    (textHeap p text).cellsAt (some p) = cells text := by
  have hblock : (textHeap p text).blocks[p.block]? =
      some ⟨List.replicate p.off none ++ cells text, .foreign, true⟩ := by
    rw [textHeap, List.getElem?_append_right (by simp)]
    simp
  rw [Heap.cellsAt, Heap.liveCells, hblock]
  exact List.drop_left' List.length_replicate

theorem bytesAt_textHeap (p : Ptr) (text : List UInt8) :
    bytesAt (textHeap p text) (some p) = text := by
  rw [bytesAt, cellsAt_textHeap, List.takeWhile_eq_self_iff.mpr fun c hc => isSome_of_mem_cells hc,
    reduceOption_cells]

/-- The string with other bytes behind it. -/
theorem HoldsBytes.of_take {p : Ptr} (hp : s.buf = some p) (hlen : bytes.length = s.length)
    (htake : memory.take bytes.length = bytes) (hend : 0 ∈ memory.drop bytes.length) :
    HoldsBytes s bytes (textHeap p memory) := by
  refine ⟨?_, fun _ => ?_⟩
  · rw [Object.contents, hp, cellsAt_textHeap, ← hlen, cells, ← List.map_take, htake, cells]
  · rw [hp, bytesAt_textHeap, ← hlen]
    exact hend

/-- The number at `pos` is followed by `k` zeros. -/
theorem exists_longer (hb : HoldsBytes s bytes h) (hbase : base ≤ 36)
    (hpos : pos.toNat < bytes.length)
    (hn : strtol base ((bytesAt h s.buf).drop pos.toNat) = some (v, used))
    (hused : bytes.length < pos.toNat + used) (k : ℕ) :
    ∃ h' v', HoldsBytes s bytes h' ∧
      strtol base ((bytesAt h' s.buf).drop pos.toNat) = some (v', used + k) := by
  obtain ⟨p, hp⟩ := Option.ne_none_iff_exists'.mp (hb.buf_ne_none hpos)
  obtain ⟨v', hn'⟩ := strtol_longer hbase hn (by omega) k
  have hlt := strtol_lt_length hn
  rw [List.length_drop] at hlt
  obtain ⟨text, htext⟩ : ∃ text, bytesAt h s.buf = text := ⟨_, rfl⟩
  rw [htext] at hn' hlt
  have hlength : (text.take (pos.toNat + used)).length = pos.toNat + used :=
    List.length_take_of_le (by omega)
  refine ⟨textHeap p (text.take (pos.toNat + used) ++ (List.replicate k 48 ++ [0])), v',
    .of_take hp (hb.length_eq (hb.buf_ne_none hpos)) ?_ ?_, ?_⟩
  -- the number reaches behind the string, which stays as it is
  · rw [List.take_append_of_le_length (by omega), List.take_take, Nat.min_eq_left hused.le, ← htext]
    exact take_bytesAt hb.contents
  · rw [List.drop_append_of_le_length (by omega)]
    simp
  · rw [hp, bytesAt_textHeap, List.drop_append_of_le_length (by omega), List.drop_take,
      Nat.add_sub_cancel_left]
    exact hn'

/-- A number that is not refused although it ends `2 ^ 32` bytes or more behind the beginning can be
made longer, and then ends elsewhere in the string. -/
theorem not_ignoresTail_of_le (hb : HoldsBytes s bytes h) (hbase : base ≤ 36)
    (hpos : pos.toNat < bytes.length)
    (hn : strtol base ((bytesAt h s.buf).drop pos.toNat) = some (v, used))
    (hin : (pos.toNat + used) % 2 ^ 32 ≤ bytes.length) (hlong : 2 ^ 32 ≤ pos.toNat + used) :
    ∃ h', HoldsBytes s bytes h' ∧ ¬ IgnoresTail bytes pos base (some 0)
      (s.intAt h pos base (some 0)) (s.intAt h' pos base (some 0)) := by
  have hlen := s.length_lt
  have hlength := hb.length_eq (hb.buf_ne_none hpos)
  -- one byte further, or almost `2 ^ 32` bytes further, which is one byte back
  obtain ⟨k, hk, hin'⟩ : ∃ k, (pos.toNat + (used + k)) % 2 ^ 32 ≠ (pos.toNat + used) % 2 ^ 32 ∧
      (pos.toNat + (used + k)) % 2 ^ 32 ≤ bytes.length := by
    rcases hin.lt_or_eq with hlt | heq
    · exact ⟨1, by omega, by omega⟩
    · exact ⟨2 ^ 32 - 1, by omega, by omega⟩
  obtain ⟨h', v', hb', hn'⟩ := exists_longer hb hbase hpos hn (by omega) k
  refine ⟨h', hb', fun hsame => ?_⟩
  have hx := (hb.intAt_eq hpos hn (some 0)).trans (if_pos hin)
  have hx' := (hb'.intAt_eq hpos hn' (some 0)).trans (if_pos hin')
  obtain ⟨-, hafter, -⟩ := hsame.both _ _ _ _ hx hx'
  have hends := congrArg UInt32.toNat (Option.some.inj hafter)
  rw [UInt32.toNat_ofNat', UInt32.toNat_ofNat'] at hends
  exact hk hends.symm

/-- **Nothing behind the string influences** two calls, unless both return and one of the two
numbers ends `2 ^ 32` bytes or more behind the beginning. So no bytes behind the string influence a
call exactly if none make it return a number that ends there. -/
theorem ignoresTail_iff (s : GString) (bytes : List UInt8) (pos : UInt32)
    (hbase : base = 0 ∨ 2 ≤ base ∧ base ≤ 36) :
    (∀ h h', HoldsBytes s bytes h → HoldsBytes s bytes h' →
      (pos.toNat < bytes.length → EndsInside bytes (bytesAt h s.buf) pos.toNat base →
        EndsInside bytes (bytesAt h' s.buf) pos.toNat base →
          Fits (bytesAt h s.buf) pos.toNat base ∧ Fits (bytesAt h' s.buf) pos.toNat base) →
      ∀ after, IgnoresTail bytes pos base after (s.intAt h pos base after)
        (s.intAt h' pos base after)) ∧
    ((∀ h h', HoldsBytes s bytes h → HoldsBytes s bytes h' → ∀ after, IgnoresTail bytes pos base
      after (s.intAt h pos base after) (s.intAt h' pos base after)) ↔
    ∀ h, HoldsBytes s bytes h → pos.toNat < bytes.length →
      EndsInside bytes (bytesAt h s.buf) pos.toNat base →
        Fits (bytesAt h s.buf) pos.toNat base) := by
  have hbase : base ≤ 36 := by omega
  -- both numbers are those of the string alone, and there is only one
  have hsame : ∀ h h', HoldsBytes s bytes h → HoldsBytes s bytes h' →
      (pos.toNat < bytes.length → EndsInside bytes (bytesAt h s.buf) pos.toNat base →
        EndsInside bytes (bytesAt h' s.buf) pos.toNat base →
          Fits (bytesAt h s.buf) pos.toNat base ∧ Fits (bytesAt h' s.buf) pos.toNat base) →
      ∀ after, IgnoresTail bytes pos base after (s.intAt h pos base after)
        (s.intAt h' pos base after) := by
    intro h h' hb hb' hfits after
    refine ⟨fun v a v' a' hx hx' => ?_, fun _ _ _ => hb'.intAt_cases hbase pos after,
      fun _ _ _ => hb.intAt_cases hbase pos after⟩
    obtain ⟨hpos, used, hn, hin, -⟩ := hb.exists_of_intAt_eq_ok hbase hx
    obtain ⟨-, used', hn', hin', -⟩ := hb'.exists_of_intAt_eq_ok hbase hx'
    obtain ⟨hfit, hfit'⟩ := hfits hpos ⟨v, used, hn, hin⟩ ⟨v', used', hn', hin'⟩
    have hr := hb.readsNumber_of_intAt hbase hx hfit
    have hr' := hb'.readsNumber_of_intAt hbase hx' hfit'
    obtain ⟨hv, ha⟩ := hr.unique hr'
    exact ⟨hv, ha, hr⟩
  refine ⟨hsame, fun hall h hb hpos hends => ?_, fun hfits h h' hb hb' after => ?_⟩
  · obtain ⟨v, used, hn, hin⟩ := hends
    refine ⟨v, used, hn, Nat.lt_of_not_le fun hlong => ?_⟩
    obtain ⟨h', hb', hnot⟩ := not_ignoresTail_of_le hb hbase hpos hn hin hlong
    exact hnot (hall h h' hb hb' (some 0))
  · exact hsame h h' hb hb'
      (fun hpos hends hends' => ⟨hfits h hb hpos hends, hfits h' hb' hpos hends'⟩) after

/-- A number in less than `2 ^ 32` readable bytes fits. -/
theorem fits_of_length_lt (hb : HoldsBytes s bytes h) (hpos : pos.toNat < bytes.length)
    (hbase : base ≤ 36) (hlt : (bytesAt h s.buf).length < 2 ^ 32) :
    Fits (bytesAt h s.buf) pos.toNat base := by
  obtain ⟨v, used, hn⟩ := hb.exists_strtol hpos hbase
  have hends := strtol_lt_length hn
  rw [List.length_drop] at hends
  exact ⟨v, used, hn, by omega⟩

/-- A string of the first bytes of a text. -/
def viewOf (bytes : List UInt8) : GString :=
  .reference (some ⟨0, 0⟩) (UInt32.ofNat bytes.length) false

theorem holdsBytes_textHeap {rest : List UInt8} (hlen : bytes.length < 2 ^ 24) (h0 : 0 ∈ rest) :
    HoldsBytes (viewOf bytes) bytes (textHeap ⟨0, 0⟩ (bytes ++ rest)) := by
  have hlen32 := UInt32.toNat_ofNat_of_le (n := bytes.length) (by omega)
  refine .of_take rfl ?_ (List.take_left' rfl) ?_
  · rw [viewOf, GString.reference, GString.length_mk_pack, hlen32, Nat.mod_eq_of_lt hlen]
  · rw [List.drop_left' rfl]
    exact h0

/-- The `7` ends before a space here, and before a comma there. -/
theorem ignoresTail_seven :
    IgnoresTail [55] 0 10 (some 0)
      ((viewOf [55]).intAt (textHeap ⟨0, 0⟩ ([55] ++ [32, 52, 0])) 0 10 (some 0))
      ((viewOf [55]).intAt (textHeap ⟨0, 0⟩ ([55] ++ [44, 0])) 0 10 (some 0)) := by
  have hb : HoldsBytes (viewOf [55]) [55] (textHeap ⟨0, 0⟩ ([55] ++ [32, 52, 0])) :=
    holdsBytes_textHeap (by decide) (by decide)
  have hb' : HoldsBytes (viewOf [55]) [55] (textHeap ⟨0, 0⟩ ([55] ++ [44, 0])) :=
    holdsBytes_textHeap (by decide) (by decide)
  exact (ignoresTail_iff (viewOf [55]) [55] 0 (Or.inr ⟨by decide, by decide⟩)).1 _ _ hb hb'
    (fun hpos _ _ => ⟨fits_of_length_lt hb hpos (by decide) (by decide),
      fits_of_length_lt hb' hpos (by decide) (by decide)⟩) (some 0)

theorem strtol_spaces {front : List UInt8} (hfront : ∀ c ∈ front, isSpace c) :
    strtol 10 (front ++ [55, 0]) = some (7, front.length + 1) := by
  obtain ⟨htake, hdrop⟩ := takeWhile_run [0] hfront (rfl : isSpace 55 = false)
  have hbody : splitSign [55, 0] = (false, [55, 0]) := rfl
  have hdigits : digitsOf 10 [55, 0] = [55] := rfl
  rw [strtol_eq htake hdrop hbody, hdigits]
  rfl

/-- A string of one space, with other spaces behind it and a `7` that ends `2 ^ 32` bytes behind the
beginning: 7 is returned, and 0 if there is nothing behind the string. -/
theorem not_ignoresTail_spaces : ∃ h h', HoldsBytes (viewOf [32]) [32] h ∧
    HoldsBytes (viewOf [32]) [32] h' ∧
    ¬ ∀ after, IgnoresTail [32] 0 10 after ((viewOf [32]).intAt h 0 10 after)
      ((viewOf [32]).intAt h' 0 10 after) := by
  obtain ⟨front, hfront, hlength⟩ :
      ∃ front : List UInt8, (∀ c ∈ front, isSpace c) ∧ front.length = 2 ^ 32 - 2 :=
    ⟨List.replicate (2 ^ 32 - 2) 32, fun c hc => by rw [List.eq_of_mem_replicate hc]; rfl,
      List.length_replicate⟩
  have hb : HoldsBytes (viewOf [32]) [32] (textHeap ⟨0, 0⟩ ([32] ++ (front ++ [55, 0]))) :=
    holdsBytes_textHeap (by decide) (List.mem_append_right front (by decide))
  have hb' : HoldsBytes (viewOf [32]) [32] (textHeap ⟨0, 0⟩ ([32] ++ [0])) :=
    holdsBytes_textHeap (by decide) (by decide)
  refine ⟨_, _, hb, hb', fun hall => ?_⟩
  -- the string is one space, and `2 ^ 32 - 2` more follow before the digit
  have hspaces : ∀ c ∈ 32 :: front, isSpace c := fun c hc => by
    rcases List.mem_cons.mp hc with rfl | hc
    · rfl
    · exact hfront c hc
  have hn : strtol 10 ((bytesAt (textHeap ⟨0, 0⟩ ([32] ++ (front ++ [55, 0])))
      (viewOf [32]).buf).drop (0 : UInt32).toNat) = some (7, (32 :: front).length + 1) := by
    have hbuf : (viewOf [32]).buf = some ⟨0, 0⟩ := rfl
    rw [hbuf, bytesAt_textHeap]
    exact strtol_spaces hspaces
  -- a terminator behind the space makes it no number
  have hn' : strtol 10 ((bytesAt (textHeap ⟨0, 0⟩ ([32] ++ [0])) (viewOf [32]).buf).drop
      (0 : UInt32).toNat) = some (0, 0) := rfl
  -- the number ends `2 ^ 32` bytes behind the beginning, that is, at 0
  have hin : ((0 : UInt32).toNat + ((32 :: front).length + 1)) % 2 ^ 32 ≤
      [(32 : UInt8)].length := by
    rw [List.length_cons, hlength]
    decide
  have hx := (hb.intAt_eq (by decide) hn none).trans (if_pos hin)
  have hx' := (hb'.intAt_eq (by decide) hn' none).trans (if_pos (by decide))
  exact absurd ((hall none).both _ _ _ _ hx hx').1 (by decide)

end Tail

end Glim
