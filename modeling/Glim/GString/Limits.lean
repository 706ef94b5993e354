import Glim.GString.Netstring
import Glim.GString.Runs
import Glim.Text.Header

/-!
# The limit on the length

The length of a string is a field of 24 bits, and lengths are added as 32-bit numbers. `reserve`
refuses what is larger than `2 ^ 24` bytes, if it is asked. An operation that stores bytes is
exact, or throws, apart from the lengths for which no check is made.

## Main definitions

* `StoreCall`: the operations that store bytes
* `StoreCall.Exact`: the operation throws, or it stores all the bytes
* `StoreCall.Fits`: the lengths for which it does

## Main results

* `wp_append_throw`, `append_throws`: when an append throws
* `readNetstring_no_header`, `wp_readNetstring_wide`, `wp_readNetstring_fits`: how reading a
  netstring depends on its header
* `StoreCall.stored_exactly_iff`: an operation is exact for the lengths that fit, and for no others
-/

namespace Glim

open Machine Exec Method Text

section Sources

variable {o : Object} {cstr : Option Ptr} {n : ℕ} {clen : UInt32}

/-! ## When an operation throws -/

/-- `reserve` throws only if it refuses the size. -/
theorem wp_reserve_throw (hp : o.str.power ≤ 30) (hoom : o.heap.oom = []) (n : UInt32) :
    wp (GString.reserve n) (fun _ _ => ¬ TooLarge n.toNat o)
      (fun _ _ => TooLarge n.toNat o ∧ n.toNat ≤ 2 ^ 31) (fun _ => True) o := by
  have hreallocate : ∀ k, k ≤ 32 → ∀ P : Prop, P →
      wp (GString.reallocate k) (fun _ _ => P) (fun _ _ => False) (fun _ => True) o :=
    fun k hk P hP => wp_mono (wp_reallocate_room hoom (by omega)) (fun _ _ _ => hP)
      (fun _ _ h => h) fun _ h => h
  have happly := GString.reserve_apply n o (by omega)
  simp only [wp] at hreallocate ⊢
  rw [happly]
  split_ifs with hlt h31 h24 h0
  · trivial
  · exact ⟨⟨hlt, h24⟩, by omega⟩
  · have hclog : Nat.clog 2 n.toNat ≤ 24 := Nat.clog_le_of_le_pow (by omega)
    have hrun := hreallocate (Nat.clog 2 n.toNat) (by omega) (¬ TooLarge n.toNat o) fun h => h24 h.2
    split at hrun
    · exact hrun
    · exact hrun.elim
    · trivial
  · have hrun := hreallocate 0 (by omega) (¬ TooLarge n.toNat o) fun h => hlt h.1
    split at hrun
    · exact hrun
    · exact hrun.elim
    · trivial
  · exact fun h => hlt h.1

theorem wp_ensure_throw (hp : o.str.power ≤ 30) (hoom : o.heap.oom = []) {c : Prop} [Decidable c]
    {n : UInt32} (hc : o.str.capacity < n.toNat → c) :
    wp (when c (GString.reserve n)) (fun _ _ => ¬ TooLarge n.toNat o)
      (fun _ _ => TooLarge n.toNat o ∧ n.toNat ≤ 2 ^ 31) (fun _ => True) o :=
  (wp_when _ _).mpr ⟨fun _ => wp_reserve_throw hp hoom n, fun hnot h => hnot (hc h.1)⟩

/-- The end of a method, which throws nothing. -/
theorem wp_copy_end (s : GString) (pos m n : ℕ) (cstr : Option Ptr) :
    wp (do
        onHeap (Heap.memcpy (s.data pos) cstr m)
        modifyStr (GString.setLength n) : Method Unit)
      (fun _ _ => True) (fun _ _ => False) (fun _ => True) o := by
  simp only [onHeap, modifyStr, wp_bind, wp_zoom, wp_modify]
  exact Heap.wp_memcpy_of_any (fun _ => trivial) fun _ _ => trivial

/-- `append` throws only if `reserve` refuses the sum of the lengths. -/
theorem wp_append_throw (hv : Valid o) (cstr : Option Ptr) (clen : UInt32) :
    wp (GString.append cstr clen) (fun _ _ => True)
      (fun _ _ => TooLarge (UInt32.ofNat o.str.length + clen).toNat o ∧
        (UInt32.ofNat o.str.length + clen).toNat ≤ 2 ^ 31) (fun _ => True) o := by
  simp only [GString.append, str, wp_bind, wp_map, wp_get]
  refine wp_mono (wp_ensure_throw hv.power_le hv.allocates Or.inl) (fun _ o' _ => ?_)
    (fun _ _ h => h) fun _ h => h
  have hend := wp_copy_end (o := o') o'.str o.str.length clen.toNat
    (UInt32.ofNat o.str.length + clen).toNat cstr
  simp only [wp_bind] at hend
  exact wp_mono hend (fun _ _ h => wp_mono h (fun _ _ h => h) (fun _ _ h => h.elim) fun _ h => h)
    (fun _ _ h => h.elim) fun _ h => h

/-- And then it does. -/
theorem append_throws (hv : Valid o) (cstr : Option Ptr) {clen : UInt32}
    (hlarge : TooLarge (UInt32.ofNat o.str.length + clen).toNat o)
    (h31 : (UInt32.ofNat o.str.length + clen).toNat ≤ 2 ^ 31) :
    wp (GString.append cstr clen) (fun _ _ => False) (fun _ _ => True) (fun _ => False) o := by
  simp only [GString.append, str, wp_bind, wp_map, wp_get]
  refine (wp_when _ _).mpr ⟨fun _ => ?_, fun hnot => absurd (Or.inl hlarge.1) hnot⟩
  have hpow := hv.power_le
  have hlt : 2 ^ o.str.power < (UInt32.ofNat o.str.length + clen).toNat := hlarge.1
  have happly := GString.reserve_apply (UInt32.ofNat o.str.length + clen) o (by omega)
  rw [if_pos hlt, if_neg (by omega), if_pos hlarge.2] at happly
  simp only [wp, happly]

end Sources

/-! ## Reading a netstring -/

section Reading

variable {o : Object} {stream : IStream} {spaces sign digits after : List UInt8}

/-- Without a header, nothing is read. -/
theorem readNetstring_no_header (hno : ¬ (stream.good ∧ ∃ spaces sign digits after,
    Header stream.rest spaces sign digits after)) :
    wp (GString.readNetstring stream) (fun _ _ => False) (fun _ o' => o' = o) (fun _ => False)
      o := by
  simp only [GString.readNetstring, wp_bind]
  refine (wp_when _ _).mpr ⟨fun _ => rfl, fun hnumber => (wp_when _ _).mpr ⟨fun _ => rfl,
    fun hcolon => absurd (IStream.header_iff.mp ⟨?_, ?_⟩) hno⟩⟩
  · push Not at hnumber
    exact hnumber
  · push Not at hcolon
    exact hcolon

/-- A number for which the loop of `reserve` shifts too far. -/
theorem wp_readNetstring_wide (hv : Valid o) (hs : stream.good)
    (hh : Header stream.rest spaces sign digits after)
    (hwide : 2 ^ 31 < o.str.length + value digits) :
    wp (GString.readNetstring stream) (fun _ _ => False) (fun _ _ => False) (fun _ => True) o := by
  obtain ⟨hnumber, hcolon⟩ := IStream.header_iff.mpr ⟨hs, spaces, sign, digits, after, hh⟩
  have hlen := o.str.length_lt
  have hsmall := hh.small
  have hpow := hv.power_le
  have hcap : o.str.capacity ≤ 2 ^ 30 := Nat.pow_le_pow_right (by decide) hpow
  have hn : (UInt32.ofNat (o.str.length + stream.extractInt32.1.toNat)).toNat =
      o.str.length + value digits := by
    rw [IStream.toNat_extractInt32 hs hh, UInt32.toNat_ofNat_of_lt' (by
      have hsize : UInt32.size = 2 ^ 32 := rfl
      omega)]
  -- the loop of `reserve` goes on to a shift of 32
  have happly := GString.reserve_apply
    (UInt32.ofNat (o.str.length + stream.extractInt32.1.toNat)) o (by omega)
  rw [hn, if_pos (show 2 ^ o.str.power < _ by simp only [GString.capacity] at hcap; omega),
    if_pos hwide] at happly
  simp only [GString.readNetstring, str, wp_bind, wp_map, wp_get]
  refine (wp_when _ _).mpr ⟨fun hbad => ?_, fun _ => (wp_when _ _).mpr ⟨fun hbad => ?_,
    fun _ => (wp_when _ _).mpr ⟨fun _ => ?_, fun hroom => ?_⟩⟩⟩
  -- the number is there, and so is the colon
  · rcases hbad with hbad | hbad
    · exact hbad hnumber.1
    · omega
  · rcases hbad with hbad | hbad
    · exact hbad hcolon.1
    · exact hbad hcolon.2
  · simp only [wp, happly]
  · rw [hn] at hroom
    omega

/-- Reading a netstring throws if the size is refused. -/
theorem wp_readNetstring_throw (hv : Valid o) (stream : IStream) :
    wp (GString.readNetstring stream)
      (fun _ _ => ¬ TooLarge (UInt32.ofNat (o.str.length + stream.extractInt32.1.toNat)).toNat o)
      (fun _ _ => True) (fun _ => True) o := by
  simp only [GString.readNetstring, str, wp_bind, wp_map, wp_get]
  refine (wp_when _ _).mpr ⟨fun _ => trivial, fun _ => (wp_when _ _).mpr ⟨fun _ => trivial,
    fun _ => ?_⟩⟩
  refine wp_mono (wp_ensure_throw hv.power_le hv.allocates Or.inl) (fun _ o' hnot => ?_)
    (fun _ _ _ => trivial) fun _ h => h
  refine wp_zoom.mpr (Heap.wp_store_of_any (fun _ => trivial) fun _ => ?_)
  exact (wp_when _ _).mpr ⟨fun _ => trivial, fun _ => (wp_when _ _).mpr ⟨fun _ => trivial,
    fun _ => hnot⟩⟩

/-- A number for which it does not. -/
theorem wp_readNetstring_fits (hv : Valid o) (hs : stream.good)
    (hh : Header stream.rest spaces sign digits after)
    (h31 : o.str.length + value digits ≤ 2 ^ 31) :
    wp (GString.readNetstring stream)
      (fun stream' o' => Valid o' ∧ ¬ TooLarge (o.str.length + value digits) o ∧
        ∃ body rest, after = body ++ comma :: rest ∧ body.length = value digits ∧
          stream' = { rest := rest } ∧
          (o.str.length + value digits < 2 ^ 24 → o'.contents = o.contents ++ cells body))
      (fun _ o' => Valid o' ∧ o'.contents = o.contents ∧
        (TooLarge (o.str.length + value digits) o ∨
          ¬ ∃ body rest, after = body ++ comma :: rest ∧ body.length = value digits))
      (fun _ => False) o := by
  have hvalue := IStream.toNat_extractInt32 hs hh
  have hok : ReadNetstringOk stream o := by
    rw [ReadNetstringOk, hvalue]
    exact h31
  have hread := wp_readNetstring hv hok
  have hthrow := wp_readNetstring_throw hv stream
  rw [hvalue] at hread hthrow
  rw [UInt32.toNat_ofNat_of_le h31] at hthrow
  -- what is returned, and when it is refused
  refine wp_mono (wp_and hread hthrow) (fun stream' o' h => ?_) (fun e o' h => ?_) fun _ h => h.1
  · obtain ⟨⟨hv', body, hbody, hcontents⟩, hnot⟩ := h
    obtain ⟨rest, hafter, hlen, hrest⟩ := (IStream.netstring_of_header_eq_some_iff hs hh).mp hbody
    refine ⟨hv', hnot, body, rest, hafter, hlen, hrest, fun hlt => hcontents ?_⟩
    rwa [hlen]
  · obtain ⟨⟨hv', hcontents, hnone | hlarge⟩, -⟩ := h
    · refine ⟨hv', hcontents, Or.inr ?_⟩
      -- a body and a comma would have been read
      rintro ⟨body, rest, hafter, hlen⟩
      have hsome := (IStream.netstring_of_header_eq_some_iff hs hh).mpr ⟨rest, hafter, hlen, rfl⟩
      rw [hnone] at hsome
      cases hsome
    · exact ⟨hv', hcontents, Or.inl hlarge⟩

end Reading

/-! ## The operations that store bytes -/

/-- An operation that stores bytes: a constructor, an appending method or operator, or
`readNetstring`. -/
inductive StoreCall where
  | make (m : Make)
  | appendChar (ch : UInt8)
  | append (cstr : Option Ptr) (clen : UInt32)
  | appendGString (gs : GString)
  | appendString (data : Option Ptr) (length : ℕ)
  | appendCString (cstr : Option Ptr)
  | readNetstring (stream : IStream)

namespace StoreCall

/-- Run the operation; a constructor makes a new string in the place of the receiver. -/
def run : StoreCall → Method Unit
  | make m => do
    let s ← onHeap m.run
    modifyStr fun _ => s
  | appendChar ch => GString.appendChar ch
  | append cstr clen => GString.append cstr clen
  | appendGString gs => GString.appendGString gs
  | appendString data length => GString.appendString data length
  | appendCString cstr => GString.appendCString cstr
  | readNetstring stream => (fun _ => ()) <$> GString.readNetstring stream

/-- The contents before the operation, of which a new string has none. -/
def old (o : Object) : StoreCall → List Cell
  | make _ => []
  | _ => o.contents

/-- The length of a C string, 0 for a null pointer. -/
def strlen (o : Object) (cstr : Option Ptr) : ℕ := (Heap.cstrLen (o.heap.cellsAt cstr)).getD 0

/-- The bytes to be stored: the argument, or the payload of the netstring. -/
def new (o : Object) : StoreCall → List Cell
  | make m => m.cells o.heap
  | appendChar ch => cells [ch]
  | append cstr clen => (o.heap.cellsAt cstr).take clen.toNat
  | appendGString gs => (o.heap.cellsAt gs.buf).take gs.length
  | appendString data length => (o.heap.cellsAt data).take length
  | appendCString cstr => (o.heap.cellsAt cstr).take (strlen o cstr)
  | readNetstring stream => cells ((stream.netstring.map Prod.fst).getD [])

/-- The bytes can be read, and are apart from the buffer. -/
def Readable (o : Object) : StoreCall → Prop
  | make m => m.Ok o.heap
  | append cstr clen => Chars o cstr clen.toNat
  | appendGString gs => Chars o gs.buf gs.length
  | appendString data length => Chars o data length
  | appendCString cstr => (cstr ≠ none → (Heap.cstrLen (o.heap.cellsAt cstr)).isSome) ∧
      Chars o cstr (strlen o cstr)
  | appendChar _ | readNetstring _ => True

/-- The operation throws, or leaves the string with the exact length and with all the bytes. -/
def Exact (c : StoreCall) (o : Object) : Prop :=
  wp c.run (fun _ o' => o'.str.length = (c.old o).length + (c.new o).length ∧
    o'.contents = c.old o ++ c.new o) (fun _ _ => True) (fun _ => False) o

/-- Appending `n` bytes ends below the limit, or the sum of 32 bits is refused. -/
def AppendFits (n : ℕ) (o : Object) : Prop :=
  o.str.length + n < 2 ^ 24 ∨
    TooLarge ((o.str.length + n) % 2 ^ 32) o ∧ (o.str.length + n) % 2 ^ 32 ≤ 2 ^ 31

/-- The number in the header is small enough for `reserve`, and if the payload and the comma are
there, the end is below the limit or the size is refused. -/
def NetstringFits (stream : IStream) (o : Object) : Prop :=
  ∀ spaces sign digits after, stream.good → Header stream.rest spaces sign digits after →
    o.str.length + value digits ≤ 2 ^ 31 ∧
      ((∃ body rest, after = body ++ comma :: rest ∧ body.length = value digits) →
        o.str.length + value digits < 2 ^ 24 ∨ TooLarge (o.str.length + value digits) o)

/-- The lengths that fit. -/
def Fits (o : Object) : StoreCall → Prop
  | make m => (m.cells o.heap).length < 2 ^ 24
  | appendChar _ => o.str.length + 1 < 2 ^ 24
  | append _ clen => AppendFits clen.toNat o
  | appendGString gs => AppendFits gs.length o
  | appendString _ length => AppendFits length o
  | appendCString cstr => AppendFits (strlen o cstr) o
  | readNetstring stream => NetstringFits stream o

section Calls

variable {o : Object} {cstr : Option Ptr}

/-- An operation that does not throw is not exact from the limit on. -/
theorem not_exact {x : Method Unit} {m : ℕ} {P : Object → Prop} (hm : 2 ^ 24 ≤ m)
    (hx : wp x (fun _ _ => True) (fun _ _ => False) (fun _ => True) o) :
    ¬ wp x (fun _ o' => o'.str.length = m ∧ P o') (fun _ _ => True) (fun _ => False) o := by
  intro hexact
  refine wp_excludes hx hexact (fun _ o' _ hstored => ?_) (fun _ _ h _ => h) fun _ _ h => h
  have hlen := o'.str.length_lt
  have hstored := hstored.1
  omega

/-- A new string counts its bytes modulo `2 ^ 24`. -/
theorem make_exact_iff (hoom : o.heap.oom = []) {m : Make} (hok : m.Ok o.heap) :
    (make m).Exact o ↔ (m.cells o.heap).length < 2 ^ 24 := by
  have hrun : wp (make m).run (fun _ o' => Valid o' ∧ ((m.cells o.heap).length < 2 ^ 24 →
      o'.contents = m.cells o.heap)) (fun _ _ => False) (fun _ => False) o := by
    simp only [run, onHeap, modifyStr, wp_bind, wp_zoom, wp_modify]
    exact wp_make hoom hok
  constructor
  · intro hexact
    by_contra hlarge
    refine not_exact (m := ([] : List Cell).length + (m.cells o.heap).length)
      (by rw [List.length_nil]; omega) ?_ hexact
    exact wp_mono hrun (fun _ _ _ => trivial) (fun _ _ h => h) fun _ h => h.elim
  · intro hlt
    refine wp_mono hrun (fun _ o' h => ?_) (fun _ _ h => h.elim) fun _ h => h
    have hcontents := h.2 hlt
    have hlen := length_contents h.1
    rw [hcontents] at hlen
    exact ⟨by rw [← hlen, old, new, List.length_nil, Nat.zero_add], hcontents⟩

/-- One more character always has room, and is counted below the limit. -/
theorem appendChar_exact_iff (hv : Valid o) (ch : UInt8) :
    (appendChar ch).Exact o ↔ o.str.length + 1 < 2 ^ 24 := by
  have hlen := o.str.length_lt
  have hl := length_contents hv
  have hrun : wp (GString.appendChar ch) (fun _ => Appended (o.str.length + 1) (cells [ch]) 1 o)
      (fun _ _ => False) (fun _ => False) o := by
    refine wp_mono (wp_appendChar hv ch) (fun _ _ h => h) (fun _ _ h => ?_) fun _ h => h
    have hlarge := h.2.2.2
    rw [UInt32.toNat_ofNat_of_le (by omega)] at hlarge
    omega
  constructor
  · intro hexact
    by_contra hlarge
    have hmany : 2 ^ 24 ≤ o.contents.length + (cells [ch]).length := by
      rw [hl]
      exact Nat.le_of_not_lt hlarge
    refine not_exact hmany ?_ hexact
    exact wp_mono hrun (fun _ _ _ => trivial) (fun _ _ h => h) fun _ h => h.elim
  · intro hlt
    refine wp_mono hrun (fun _ o' ha => ?_) (fun _ _ h => h.elim) fun _ h => h
    exact ⟨(ha.length.trans (Nat.mod_eq_of_lt hlt)).trans (by rw [← hl]; rfl), ha.contents hlt⟩

/-- The sum of the lengths has 32 bits. -/
theorem toNat_need (n : ℕ) (o : Object) :
    (UInt32.ofNat o.str.length + UInt32.ofNat n).toNat = (o.str.length + n) % 2 ^ 32 := by
  rw [← UInt32.ofNat_add, UInt32.toNat_ofNat']

/-- Appending is exact when it ends below the limit, or is refused. -/
theorem append_exact_iff (hv : Valid o) {n : ℕ} (hc : Chars o cstr n) :
    wp (GString.append cstr (UInt32.ofNat n))
        (fun _ o' => o'.str.length = o.contents.length + ((o.heap.cellsAt cstr).take n).length ∧
          o'.contents = o.contents ++ (o.heap.cellsAt cstr).take n)
        (fun _ _ => True) (fun _ => False) o ↔ AppendFits n o := by
  have hl : ((o.heap.cellsAt cstr).take n).length = n :=
    List.length_take.trans (Nat.min_eq_left hc.readable)
  rw [length_contents hv, hl]
  constructor
  · intro hexact
    by_contra hnot
    rw [AppendFits, not_or] at hnot
    refine not_exact (Nat.le_of_not_lt hnot.1) ?_ hexact
    refine wp_mono (wp_append_throw hv cstr _) (fun _ _ h => h) (fun _ _ h => hnot.2 ?_)
      fun _ h => h
    rwa [toNat_need] at h
  · rintro (hlt | ⟨hlarge, h31⟩)
    · have hn := UInt32.toNat_ofNat_of_le (n := n) (by omega)
      have hok : AppendOk cstr (UInt32.ofNat n).toNat o := by
        rw [hn]
        exact hc.appendOk (by omega)
      refine wp_mono (wp_append hv hok) (fun _ o' ha => ?_) (fun _ _ _ => trivial) fun _ h => h
      rw [hn] at ha
      refine ⟨ha.length.trans (Nat.mod_eq_of_lt hlt), (ha.contents hlt).trans ?_⟩
      rw [List.take_take, Nat.min_self]
    · rw [← toNat_need] at hlarge h31
      exact wp_mono (append_throws hv cstr hlarge h31) (fun _ _ h => h.elim)
        (fun _ _ _ => trivial) fun _ h => h

/-- The C string is appended with its length. -/
theorem appendCString_apply (hne : cstr ≠ none)
    (hsome : (Heap.cstrLen (o.heap.cellsAt cstr)).isSome) :
    GString.appendCString cstr o = GString.append cstr (UInt32.ofNat (strlen o cstr)) o := by
  obtain ⟨n, hn⟩ := Option.isSome_iff_exists.mp hsome
  have hlen : strlen o cstr = n := by rw [strlen, hn, Option.getD_some]
  have hstrlen : onHeap (Heap.strlen cstr) o = .ok n o := by
    refine zoom_of_ok ?_
    rw [Heap.strlen, hn]
  rw [GString.appendCString, when_of_pos hne, hlen]
  exact bind_of_ok hstrlen

/-- Reading a netstring is exact if the size fits, or is refused. -/
theorem readNetstring_exact_iff (hv : Valid o) (stream : IStream) :
    (readNetstring stream).Exact o ↔ NetstringFits stream o := by
  have hl := length_contents hv
  by_cases hhead : stream.good ∧ ∃ spaces sign digits after,
      Header stream.rest spaces sign digits after
  · obtain ⟨hs, spaces, sign, digits, after, hh⟩ := hhead
    by_cases h31 : o.str.length + value digits ≤ 2 ^ 31
    -- up to `2 ^ 31` bytes are asked for, so `reserve` returns or throws
    · have hread := wp_readNetstring_fits hv hs hh h31
      have hnew : ∀ {body rest : List UInt8}, after = body ++ comma :: rest →
          body.length = value digits → (readNetstring stream).new o = cells body := by
        intro body rest hafter hlen
        rw [new, (IStream.netstring_of_header_eq_some_iff hs hh).mpr ⟨rest, hafter, hlen, rfl⟩]
        rfl
      constructor
      · intro hexact spaces' sign' digits' after' _ hh'
        obtain ⟨rfl, rfl, rfl, rfl⟩ := hh.unique hh'
        refine ⟨h31, fun hbody => ?_⟩
        obtain ⟨body, rest, hafter, hlen⟩ := hbody
        by_contra hnot
        rw [not_or] at hnot
        -- a body that does not fit would make the contents too long
        have hmany : 2 ^ 24 ≤ o.contents.length + (cells body).length := by
          rw [hl, length_cells, hlen]
          exact Nat.le_of_not_lt hnot.1
        rw [Exact, hnew hafter hlen] at hexact
        refine not_exact hmany ?_ hexact
        refine (wp_map _).mpr (wp_mono hread (fun _ _ _ => trivial) (fun _ _ h => ?_)
          fun _ h => h.elim)
        rcases h.2.2 with hlarge | hno
        · exact hnot.2 hlarge
        · exact hno ⟨body, rest, hafter, hlen⟩
      · intro hfits
        obtain ⟨-, hfits⟩ := hfits spaces sign digits after hs hh
        refine (wp_map _).mpr (wp_mono hread (fun _ o' h => ?_) (fun _ _ _ => trivial) fun _ h => h)
        obtain ⟨hv', hnot, body, rest, hafter, hlen, -, hcontents⟩ := h
        have hlt := (hfits ⟨body, rest, hafter, hlen⟩).resolve_right hnot
        rw [hnew hafter hlen]
        refine ⟨?_, hcontents hlt⟩
        rw [← length_contents hv', hcontents hlt, List.length_append]
        rfl
    -- more bytes make `reserve` shift too far
    · refine iff_of_false (fun hexact => ?_) fun hfits => h31 (hfits _ _ _ _ hs hh).1
      have hwide := wp_readNetstring_wide hv hs hh (by omega)
      exact wp_excludes ((wp_map (Q := fun _ _ => False) (fun _ => ())).mpr hwide) hexact
        (fun _ _ h _ => h) (fun _ _ h _ => h) fun _ _ h => h
  -- without a header, nothing is appended
  · refine iff_of_true ?_ fun spaces sign digits after hs hh =>
      absurd ⟨hs, spaces, sign, digits, after, hh⟩ hhead
    exact (wp_map _).mpr (wp_mono (readNetstring_no_header hhead) (fun _ _ h => h.elim)
      (fun _ _ _ => trivial) fun _ h => h)

end Calls

/-- An operation that stores bytes throws or is exact for the lengths that fit, and for no
others. -/
theorem stored_exactly_iff {o : Object} (hv : Valid o) {c : StoreCall} (hc : c.Readable o) :
    c.Exact o ↔ c.Fits o := by
  cases c with
  | make m => exact make_exact_iff hv.allocates hc
  | appendChar ch => exact appendChar_exact_iff hv ch
  | append cstr clen =>
    have happend := append_exact_iff hv hc
    rwa [UInt32.ofNat_toNat] at happend
  | appendGString gs => exact append_exact_iff hv hc
  | appendString data length => exact append_exact_iff hv hc
  | appendCString cstr =>
    by_cases hnull : cstr = none
    · rw [hnull]
      refine iff_of_true ⟨?_, ?_⟩ (Or.inl o.str.length_lt)
      · exact (length_contents hv).symm
      · exact (List.append_nil _).symm
    · have happend := append_exact_iff hv hc.2
      simp only [Exact, run, wp, appendCString_apply hnull (hc.1 hnull)]
      exact happend
  | readNetstring stream => exact readNetstring_exact_iff hv stream

/-- Three bytes appended to an empty string. -/
theorem append_header_exact :
    (append (some ⟨0, 0⟩) 3).Exact ⟨headerHeap, .empty⟩ := by
  obtain ⟨hv, -⟩ := valid_empty (h := headerHeap) rfl
  have hread : (append (some ⟨0, 0⟩) 3).Readable ⟨headerHeap, .empty⟩ := ⟨by decide, fun _ => nofun⟩
  exact (stored_exactly_iff hv hread).mpr (Or.inl (by decide))

/-- The constructor makes an empty string of `2 ^ 24` zeros, without an exception. -/
theorem make_truncates :
    ∃ h : Heap, h.cellsAt (some ⟨0, 0⟩) = List.replicate (2 ^ 24) (some 0) ∧
      (make (.ofChars (some ⟨0, 0⟩) (2 ^ 24))).Readable ⟨h, .empty⟩ ∧
      (∃ o', (make (.ofChars (some ⟨0, 0⟩) (2 ^ 24))).run ⟨h, .empty⟩ = .ok () o' ∧
        o'.str.length = 0) ∧
      ¬ (make (.ofChars (some ⟨0, 0⟩) (2 ^ 24))).Exact ⟨h, .empty⟩ := by
  obtain ⟨h, hoom, hcells⟩ : ∃ h : Heap, h.oom = [] ∧
      h.cellsAt (some ⟨0, 0⟩) = List.replicate (2 ^ 24) (some 0) :=
    ⟨⟨[⟨List.replicate (2 ^ 24) (some 0), .foreign, true⟩], 0, []⟩, rfl, rfl⟩
  have hlen : (h.cellsAt (some ⟨0, 0⟩)).length = 2 ^ 24 := by rw [hcells, List.length_replicate]
  have hread : (Make.ofChars (some ⟨0, 0⟩) (2 ^ 24)).Ok h := hlen.ge
  refine ⟨h, hcells, hread, ?_, fun hexact => ?_⟩
  · obtain ⟨s, h', hrun, hv, hcontents⟩ := exists_ok_of_wp (wp_ofChars hoom hlen.ge)
    refine ⟨⟨h', s⟩, bind_of_ok (zoom_of_ok hrun), ?_⟩
    have hzero := length_contents hv
    rw [hcontents, Nat.mod_self, List.take_zero] at hzero
    exact hzero.symm
  · have hlt := (make_exact_iff (o := ⟨h, .empty⟩) hoom hread).mp hexact
    rw [Make.cells, List.length_take, hlen, Nat.min_self] at hlt
    exact lt_irrefl _ hlt

end StoreCall

end Glim
