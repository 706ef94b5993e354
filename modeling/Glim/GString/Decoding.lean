import Glim.GString.Netstring

/-!
# Decoding strictly

Both functions `netstringAt` scan the digits of the header, let `strtol` read them again, and add
the number to a position of 32 bits. What they accept is a netstring, unless there are no digits
at all, or the sum wraps: then the comma is looked for in another place, which may lie before the
header, and a loop over the netstrings of a string does not end.

## Main definitions

* `ReadsAt`: a text reads a netstring at a position
* `GString.DecodesAt`, `DecodesAt`: the two functions accept exactly what reads a netstring
* `LoopEnds`: decoding one netstring after another ends
* `ScanSlip`: the positions where more is accepted

## Main results

* `decodes_iff`: the functions are strict apart from the slips, and without slips every loop ends
-/

namespace Glim

open Machine Exec Method Text

/-- At `pos` the text reads one to ten decimal digits, a colon, the number of bytes that the digits
say, and a comma. -/
structure ReadsAt (bytes : List UInt8) (pos : ℕ) (digits body : List UInt8) : Prop where
  header : ∃ rest, HeaderAt bytes pos digits (body ++ comma :: rest)
  ne_nil : digits ≠ []
  value_eq : value digits = body.length

/-- `gstring::netstringAt` returns normally exactly if a netstring is read: then it returns the body
and the position after the comma. Otherwise it throws. -/
def GString.DecodesAt (o : Object) (bytes : List UInt8) (pos : UInt32) : Prop :=
  wp (o.str.netstringAt pos)
    (fun r h => ∃ digits body, ReadsAt bytes pos.toNat digits body ∧
      Object.contents ⟨h, r.1⟩ = cells body ∧
        r.2.toNat = pos.toNat + digits.length + body.length + 2)
    (fun _ _ => ¬ ∃ digits body, ReadsAt bytes pos.toNat digits body) (fun _ => False) o.heap

/-- The same for `netstringAt` on a `std::string`. -/
def DecodesAt (bytes : List UInt8) (pos : UInt32) : Prop :=
  wp (netstringAt bytes pos : Exec Unit (List UInt8 × UInt32))
    (fun r _ => ∃ digits body, ReadsAt bytes pos.toNat digits body ∧ r.1 = body ∧
      r.2.toNat = pos.toNat + digits.length + body.length + 2)
    (fun _ _ => ¬ ∃ digits body, ReadsAt bytes pos.toNat digits body) (fun _ => False) ()

/-- `for (;;) netstringAt (pos, &pos)`, which an exception ends. -/
def decodeLoop {σ α : Type} (step : UInt32 → Exec σ (α × UInt32)) : ℕ → UInt32 → Exec σ Unit
  | 0, _ => fail .diverges
  | fuel + 1, pos => do
    let r ← step pos
    decodeLoop step fuel r.2

/-- From every position, the loop ends after finitely many netstrings. -/
def LoopEnds {σ α : Type} (step : UInt32 → Exec σ (α × UInt32)) (s : σ) : Prop :=
  ∀ pos, ∃ fuel, wp (decodeLoop step fuel pos) (fun _ _ => True) (fun _ _ => True)
    (fun _ => False) s

/-- At `pos` there is a header, and the comma is where its number says modulo `2 ^ 32`, but there
are no digits, or the sum is not below `2 ^ 32`. -/
def ScanSlip (bytes : List UInt8) (pos : ℕ) : Prop :=
  ∃ digits rest, HeaderAt bytes pos digits rest ∧
    bytes[(pos + digits.length + 1 + value digits) % 2 ^ 32]? = some comma ∧
      (digits = [] ∨ 2 ^ 32 ≤ pos + digits.length + 1 + value digits)

section Headers

variable {bytes digits rest body : List UInt8} {pos : ℕ}

/-- A text has one header at a position. -/
theorem HeaderAt.unique {digits' rest' : List UInt8} (hh : HeaderAt bytes pos digits rest)
    (hh' : HeaderAt bytes pos digits' rest') : digits = digits' ∧ rest = rest' := by
  obtain ⟨hdrop, hdigit, -⟩ := hh
  obtain ⟨hdrop', hdigit', -⟩ := hh'
  have htake := (takeWhile_run rest hdigit (c := colon) rfl).1
  have htake' := (takeWhile_run rest' hdigit' (c := colon) rfl).1
  rw [← hdrop] at htake
  rw [← hdrop'] at htake'
  obtain rfl := htake.symm.trans htake'
  exact ⟨rfl, (List.cons.inj (List.append_cancel_left (hdrop.symm.trans hdrop'))).2⟩

/-- What follows a header. -/
theorem HeaderAt.drop_eq (hh : HeaderAt bytes pos digits rest) :
    bytes.drop (pos + digits.length + 1) = rest := by
  rw [Nat.add_assoc, ← List.drop_drop, hh.1, List.drop_append, List.drop_eq_nil_of_le (by omega),
    Nat.add_sub_cancel_left]
  rfl

/-- The comma is behind the body. -/
theorem ReadsAt.comma (hr : ReadsAt bytes pos digits body) :
    bytes[pos + digits.length + 1 + body.length]? = some comma ∧
      pos + digits.length + 1 + body.length < bytes.length := by
  obtain ⟨rest, hh⟩ := hr.header
  have hlen := hh.length_le
  rw [List.length_append, List.length_cons] at hlen
  refine ⟨?_, by omega⟩
  rw [← List.getElem?_drop, hh.drop_eq, List.getElem?_append_right le_rfl, Nat.sub_self]
  rfl

/-- With the comma where the number says, a netstring is read. -/
theorem readsAt_of_comma (hh : HeaderAt bytes pos digits rest) (hne : digits ≠ [])
    (hcomma : bytes[pos + digits.length + 1 + value digits]? = some comma) :
    ReadsAt bytes pos digits (rest.take (value digits)) := by
  rw [← List.getElem?_drop, hh.drop_eq] at hcomma
  obtain ⟨hlt, hget⟩ := List.getElem?_eq_some_iff.mp hcomma
  refine ⟨⟨rest.drop (value digits + 1), ?_⟩, hne, ?_⟩
  · have hsplit :
        rest.take (value digits) ++ Text.comma :: rest.drop (value digits + 1) = rest := by
      rw [← hget, List.getElem_cons_drop, List.take_append_drop]
    rwa [hsplit]
  · rw [List.length_take, Nat.min_eq_left hlt.le]

/-- The body is what the header counts. -/
theorem ReadsAt.take_drop (hr : ReadsAt bytes pos digits body) :
    (bytes.drop (pos + digits.length + 1)).take body.length = body := by
  obtain ⟨rest, hh⟩ := hr.header
  rw [hh.drop_eq]
  exact List.take_left' rfl

end Headers

section Decoders

variable {o : Object} {bytes memory : List UInt8} {len pos : UInt32}

/-- The scan throws, slips, or finds the netstring that is read. -/
theorem scanNetstring_cases {σ : Type} (name : String) (pos : UInt32)
    (hmem : memory.take len.toNat = bytes) (hlen : bytes.length = len.toNat)
    (hshort : bytes.length < 2 ^ 32) :
    (∃ e, (scanNetstring name memory len pos : Exec σ (UInt32 × UInt32)) = raise e ∧
        (¬ ∃ digits body, ReadsAt bytes pos.toNat digits body) ∧ ¬ ScanSlip bytes pos.toNat) ∨
      ∃ start next, (scanNetstring name memory len pos : Exec σ (UInt32 × UInt32)) =
          pure (start, next) ∧ next.toNat < bytes.length ∧
        ((ScanSlip bytes pos.toNat ∧ ¬ ∃ digits body, ReadsAt bytes pos.toNat digits body) ∨
          ¬ ScanSlip bytes pos.toNat ∧ ∃ digits body, ReadsAt bytes pos.toNat digits body ∧
            start.toNat = pos.toNat + digits.length + 1 ∧
            next.toNat = start.toNat + body.length) := by
  by_cases hhead : ∃ digits rest, HeaderAt bytes pos.toNat digits rest
  · obtain ⟨digits, rest, hh⟩ := hhead
    obtain ⟨start, next, hscan, hstart, hnext⟩ := scanNetstring_of_header (σ := σ) name hmem hlen hh
    rw [hstart] at hnext
    -- a netstring that is read has the same header
    have hreads : ∀ {digits' body : List UInt8}, ReadsAt bytes pos.toNat digits' body →
        digits' = digits ∧ next.toNat = pos.toNat + digits.length + 1 + body.length ∧
          pos.toNat + digits.length + 1 + value digits < 2 ^ 32 := by
      intro digits' body hr
      obtain ⟨rest', hh'⟩ := hr.header
      obtain ⟨rfl, -⟩ := hh.unique hh'
      have hin := hr.comma.2
      rw [hr.value_eq] at hnext ⊢
      exact ⟨rfl, by omega, by omega⟩
    have hslip : ScanSlip bytes pos.toNat ↔ bytes[next.toNat]? = some comma ∧
        (digits = [] ∨ 2 ^ 32 ≤ pos.toNat + digits.length + 1 + value digits) := by
      rw [hnext]
      constructor
      · rintro ⟨digits', rest', hh', hs⟩
        obtain ⟨rfl, -⟩ := hh.unique hh'
        exact hs
      · exact fun hs => ⟨digits, rest, hh, hs⟩
    by_cases hcomma : bytes[next.toNat]? = some comma
    · rw [if_pos hcomma] at hscan
      obtain ⟨hin, -⟩ := List.getElem?_eq_some_iff.mp hcomma
      refine Or.inr ⟨start, next, hscan, hin, ?_⟩
      by_cases hbad : digits = [] ∨ 2 ^ 32 ≤ pos.toNat + digits.length + 1 + value digits
      · refine Or.inl ⟨hslip.mpr ⟨hcomma, hbad⟩, ?_⟩
        rintro ⟨digits', body, hr⟩
        obtain ⟨rfl, -, hsmall⟩ := hreads hr
        rcases hbad with hnil | hlarge
        · exact hr.ne_nil hnil
        · omega
      · refine Or.inr ⟨fun h => hbad (hslip.mp h).2, ?_⟩
        rw [not_or] at hbad
        rw [Nat.mod_eq_of_lt (by omega)] at hnext
        have hr := readsAt_of_comma hh hbad.1 (hnext ▸ hcomma)
        refine ⟨digits, _, hr, hstart, ?_⟩
        rw [hnext, hstart, ← hr.value_eq]
    · rw [if_neg hcomma] at hscan
      refine Or.inl ⟨_, hscan, ?_, fun h => hcomma (hslip.mp h).1⟩
      rintro ⟨digits', body, hr⟩
      obtain ⟨rfl, hbody, -⟩ := hreads hr
      exact hcomma (hbody ▸ hr.comma.1)
  · refine Or.inl ⟨_, scanNetstring_no_header name hmem hlen hhead, ?_, ?_⟩
    · rintro ⟨digits, body, hr⟩
      obtain ⟨rest, hh⟩ := hr.header
      exact hhead ⟨digits, _, hh⟩
    · rintro ⟨digits, rest, hh, -⟩
      exact hhead ⟨digits, rest, hh⟩

/-- Without a buffer there is nothing to read. -/
theorem HeaderAt.ne_nil {digits rest : List UInt8} {pos : ℕ} (hh : HeaderAt bytes pos digits rest) :
    bytes ≠ [] := by
  rintro rfl
  have hlen := hh.length_le
  rw [List.length_nil] at hlen
  omega

/-- `gstring::netstringAt` is strict apart from the slips. -/
theorem gstring_decodesAt_iff (hv : Valid o) (hbytes : o.contents = cells bytes) (pos : UInt32) :
    GString.DecodesAt o bytes pos ↔ ¬ ScanSlip bytes pos.toNat := by
  obtain ⟨hmem, hlen32, hlen⟩ := take_memory hv hbytes
  have hlt := o.str.length_lt
  by_cases hnull : o.str.buf = none
  · have hnil : bytes = [] := by
      have hroom := hv.length_le
      rw [Object.room, hnull, Heap.room_none] at hroom
      exact List.length_eq_zero_iff.mp (by omega)
    refine iff_of_true ?_ ?_
    · simp only [GString.DecodesAt, GString.netstringAt, when_of_pos hnull, wp_bind, wp_raise]
      rintro ⟨digits, body, hr⟩
      obtain ⟨rest, hh⟩ := hr.header
      exact hh.ne_nil hnil
    · rintro ⟨_, _, hh, _⟩
      exact hh.ne_nil hnil
  rcases scanNetstring_cases (σ := Heap) "gstring: netstringAt" pos hmem hlen32 (by omega)
    with ⟨e, hscan, hno, hslip⟩ | ⟨start, next, hscan, hin, ⟨hslip, hno⟩ | ⟨hslip, hr⟩⟩
  · refine iff_of_true ?_ hslip
    simp only [GString.DecodesAt, GString.netstringAt, when_of_not hnull, pure_bind, wp_bind,
      wp_get, hscan, wp_raise]
    exact hno
  · refine iff_of_false (fun hdec => hno ?_) (not_not_intro hslip)
    simp only [GString.DecodesAt, GString.netstringAt, when_of_not hnull, pure_bind, wp_bind,
      wp_get, hscan, wp_pure] at hdec
    rw [GString.ofBuffer_eq, if_pos (by decide)] at hdec
    obtain ⟨digits, body, hr, -⟩ := hdec
    exact ⟨digits, body, hr⟩
  · obtain ⟨digits, body, hr, hstart, hnext⟩ := hr
    refine iff_of_true ?_ hslip
    refine wp_mono (wp_gstring_netstringAt_of_scan hv hbytes hscan (by omega) hin)
      (fun r h hres => ⟨digits, body, hr, ?_, ?_⟩) (fun _ _ h => h.elim) fun _ h => h
    · rw [hres.2.2, hnext, Nat.add_sub_cancel_left, hstart, hr.take_drop]
    · rw [hres.2.1, hnext, hstart]
      omega

/-- And so is `netstringAt` on a `std::string`. -/
theorem decodesAt_iff (hshort : bytes.length < 2 ^ 24) (pos : UInt32) :
    DecodesAt bytes pos ↔ ¬ ScanSlip bytes pos.toNat := by
  have hlen := UInt32.toNat_ofNat_of_le (n := bytes.length) (by omega)
  have hmem : (bytes ++ [0]).take (UInt32.ofNat bytes.length).toNat = bytes := by
    rw [hlen]
    exact List.take_left' rfl
  rcases scanNetstring_cases (σ := Unit) "netstringAt" pos hmem hlen.symm (by omega)
    with ⟨e, hscan, hno, hslip⟩ | ⟨start, next, hscan, hin, ⟨hslip, hno⟩ | ⟨hslip, hr⟩⟩
  · refine iff_of_true ?_ hslip
    simp only [DecodesAt, netstringAt, hscan, wp_bind, wp_raise]
    exact hno
  · refine iff_of_false (fun hdec => hno ?_) (not_not_intro hslip)
    simp only [DecodesAt, netstringAt, hscan, pure_bind] at hdec
    split_ifs at hdec
    · obtain ⟨digits, body, hr, -⟩ := hdec
      exact ⟨digits, body, hr⟩
    · exact hdec.elim
  · obtain ⟨digits, body, hr, hstart, hnext⟩ := hr
    obtain ⟨hat, hafter⟩ := netstringAt_of_scan (by omega) hscan (by omega) hin
    refine iff_of_true ?_ hslip
    simp only [DecodesAt, hat, wp_pure]
    refine ⟨digits, body, hr, ?_, ?_⟩
    · rw [hnext, Nat.add_sub_cancel_left, hstart, hr.take_drop]
    · rw [hafter, hnext, hstart]
      omega

/-! ## The loop -/

/-- A step that only ever moves forward in the text leads to its end. -/
theorem loopEnds_of_forward {σ α : Type} {step : UInt32 → Exec σ (α × UInt32)} {s : σ} {n : ℕ}
    (hstep : ∀ pos, wp (step pos) (fun r s' => s' = s ∧ pos.toNat < r.2.toNat ∧ r.2.toNat ≤ n)
      (fun _ _ => True) (fun _ => False) s) : LoopEnds step s := by
  have hfuel : ∀ (fuel : ℕ) (pos : UInt32), n < pos.toNat + fuel →
      wp (decodeLoop step (fuel + 1) pos) (fun _ _ => True) (fun _ _ => True)
        (fun _ => False) s := by
    intro fuel
    induction fuel with
    | zero =>
      intro pos hn
      refine (wp_bind _).mpr (wp_mono (hstep pos) (fun r s' hr => ?_) (fun _ _ h => h) fun _ h => h)
      omega
    | succ fuel ih =>
      intro pos hn
      refine (wp_bind _).mpr (wp_mono (hstep pos) (fun r s' hr => ?_) (fun _ _ h => h) fun _ h => h)
      rw [hr.1]
      exact ih r.2 (by omega)
  exact fun pos => ⟨n + 2, hfuel (n + 1) pos (by omega)⟩

/-- The position after a netstring is inside the text. -/
theorem ReadsAt.after_le {digits body : List UInt8} {pos : ℕ} (hr : ReadsAt bytes pos digits body) :
    pos + digits.length + body.length + 2 ≤ bytes.length := by
  have hin := hr.comma.2
  omega

theorem loopEnds_of_decodesAt (hall : ∀ pos, DecodesAt bytes pos) :
    LoopEnds (netstringAt bytes : UInt32 → Exec Unit _) () := by
  refine loopEnds_of_forward (n := bytes.length) fun pos => ?_
  refine wp_mono (hall pos) (fun r s hr => ?_) (fun _ _ _ => trivial) fun _ h => h
  obtain ⟨digits, body, hr, -, hafter⟩ := hr
  have hle := hr.after_le
  exact ⟨rfl, by omega, by omega⟩

theorem gstring_loopEnds_of_decodesAt (hv : Valid o) (hbytes : o.contents = cells bytes)
    (hall : ∀ pos, GString.DecodesAt o bytes pos) : LoopEnds o.str.netstringAt o.heap := by
  obtain ⟨hmem, hlen32, hlen⟩ := take_memory hv hbytes
  have hlt := o.str.length_lt
  refine loopEnds_of_forward (n := bytes.length) fun pos => ?_
  -- nothing is written
  have hkeep : wp (o.str.netstringAt pos) (fun _ h => h = o.heap) (fun _ _ => True) (fun _ => True)
      o.heap := by
    simp only [GString.netstringAt, wp_bind, wp_get]
    refine (wp_when _ _).mpr ⟨fun _ => trivial, fun _ => ?_⟩
    rcases scanNetstring_cases (σ := Heap) "gstring: netstringAt" pos hmem hlen32 (by omega)
      with ⟨e, hscan, -⟩ | ⟨start, next, hscan, -⟩
    · rw [hscan]
      trivial
    · rw [hscan, wp_pure, GString.ofBuffer_eq, if_pos (by decide)]
      rfl
  refine wp_mono (wp_and (hall pos) hkeep) (fun r s hr => ?_) (fun _ _ _ => trivial) fun _ h => h.1
  obtain ⟨⟨digits, body, hr, -, hafter⟩, hheap⟩ := hr
  have hle := hr.after_le
  exact ⟨hheap, by omega, by omega⟩

/-- Both functions accept exactly what reads a netstring, at every position that does not slip and
at no other, and if no position slips, decoding one netstring after another ends. -/
theorem decodes_iff (hv : Valid o) (hbytes : o.contents = cells bytes) :
    (∀ pos, (GString.DecodesAt o bytes pos ↔ ¬ ScanSlip bytes pos.toNat) ∧
        (DecodesAt bytes pos ↔ ¬ ScanSlip bytes pos.toNat)) ∧
      ((∀ pos, GString.DecodesAt o bytes pos ∧ DecodesAt bytes pos) ∧
          LoopEnds o.str.netstringAt o.heap ∧
          LoopEnds (netstringAt bytes : UInt32 → Exec Unit _) () ↔
        ∀ pos : UInt32, ¬ ScanSlip bytes pos.toNat) := by
  have hlt := o.str.length_lt
  obtain ⟨-, -, hlen⟩ := take_memory hv hbytes
  have hshort : bytes.length < 2 ^ 24 := by omega
  refine ⟨fun pos => ⟨gstring_decodesAt_iff hv hbytes pos, decodesAt_iff hshort pos⟩,
    fun h pos => (decodesAt_iff hshort pos).mp (h.1 pos).2, fun hno => ?_⟩
  have hg : ∀ pos, GString.DecodesAt o bytes pos := fun pos =>
    (gstring_decodesAt_iff hv hbytes pos).mpr (hno pos)
  have hs : ∀ pos, DecodesAt bytes pos := fun pos => (decodesAt_iff hshort pos).mpr (hno pos)
  exact ⟨fun pos => ⟨hg pos, hs pos⟩, gstring_loopEnds_of_decodesAt hv hbytes hg,
    loopEnds_of_decodesAt hs⟩

end Decoders

/-- A string of the bytes, in a block of their size. -/
def literalObject (bytes : List UInt8) : Object :=
  ⟨⟨[⟨cells bytes, .foreign, true⟩], 0, []⟩,
    .reference (some ⟨0, 0⟩) (UInt32.ofNat bytes.length) true⟩

theorem literalObject_valid {bytes : List UInt8} (hlen : bytes.length < 2 ^ 24) :
    Valid (literalObject bytes) ∧ (literalObject bytes).contents = cells bytes := by
  have hn := UInt32.toNat_ofNat_of_le (n := bytes.length) (by omega)
  have hcells : (literalObject bytes).heap.cellsAt (some ⟨0, 0⟩) = cells bytes := rfl
  refine ⟨valid_pack rfl (Nat.zero_le _) ?_ (fun h => absurd rfl h) nofun, ?_⟩
  · show (UInt32.ofNat bytes.length).toNat % 2 ^ 24 ≤ (cells bytes).length
    rw [hn, Nat.mod_eq_of_lt hlen, length_cells]
  · show (cells bytes).take (GString.length ⟨_, _⟩) = cells bytes
    rw [GString.length_mk_pack, hn, Nat.mod_eq_of_lt hlen, ← length_cells, List.take_length]

/-- The netstring of `"abc"` is decoded. -/
theorem decodes_abc :
    GString.DecodesAt (literalObject [51, 58, 97, 98, 99, 44]) [51, 58, 97, 98, 99, 44] 0 ∧
      DecodesAt [51, 58, 97, 98, 99, 44] 0 := by
  have hlen : [51, 58, 97, 98, 99, (44 : UInt8)].length < 2 ^ 24 := by decide
  obtain ⟨hv, hbytes⟩ := literalObject_valid hlen
  have hh : HeaderAt [51, 58, 97, 98, 99, 44] 0 [51] [97, 98, 99, 44] :=
    ⟨rfl, List.forall_mem_singleton.mpr rfl, by decide⟩
  have hno : ¬ ScanSlip [51, 58, 97, 98, 99, 44] (0 : UInt32).toNat := by
    rintro ⟨digits, rest, hh', -, hbad⟩
    obtain ⟨rfl, rfl⟩ := hh.unique hh'
    revert hbad
    decide
  have hzero := (decodes_iff hv hbytes).1 0
  exact ⟨hzero.1.mpr hno, hzero.2.mpr hno⟩

/-- A header whose number leads back to the comma before it. -/
def loopText : List UInt8 := comma :: decimal (2 ^ 32 - 12) ++ [colon]

/-- A colon and a comma are accepted as a netstring, and a number that wraps makes the loop run
forever. -/
theorem scan_slips :
    (∃ g h, (literalObject [58, 44]).str.netstringAt 0 (literalObject [58, 44]).heap =
        .ok (g, 2) h) ∧
      ¬ GString.DecodesAt (literalObject [58, 44]) [58, 44] 0 ∧
      ¬ LoopEnds (literalObject loopText).str.netstringAt (literalObject loopText).heap := by
  have hlen : [58, (44 : UInt8)].length < 2 ^ 24 := by decide
  obtain ⟨hv, hbytes⟩ := literalObject_valid hlen
  have hslip : ScanSlip [58, 44] (0 : UInt32).toNat :=
    ⟨[], [44], ⟨rfl, nofun, by decide⟩, rfl, Or.inl rfl⟩
  refine ⟨⟨_, _, rfl⟩, fun hdec => (gstring_decodesAt_iff hv hbytes 0).mp hdec hslip,
    fun hends => ?_⟩
  have hback : ∃ g, (literalObject loopText).str.netstringAt 1 (literalObject loopText).heap =
      .ok (g, 1) (literalObject loopText).heap := ⟨_, rfl⟩
  obtain ⟨g, hback⟩ := hback
  have hloop : ∀ fuel, decodeLoop (literalObject loopText).str.netstringAt fuel 1
      (literalObject loopText).heap = .fault .diverges := by
    intro fuel
    induction fuel with
    | zero => rfl
    | succ fuel ih => exact (bind_of_ok hback).trans ih
  obtain ⟨fuel, hrun⟩ := hends 1
  simp only [wp, hloop] at hrun

end Glim
