import Glim.GString.Limits

/-!
# Netstrings, all or nothing

Reading a netstring into a string and appending one to it are made of several steps, each of
which may throw. `readNetstring` sets the length last, so what it leaves behind when it throws is
the old contents; what it accepts is more than a netstring, and the limit on the length is checked
by `reserve` only. `appendNetstring` appends the header before it knows that there is room for the
payload.

## Main definitions

* `StrictNetstring`: the stream begins with a netstring
* `ReadsStrictly`: exactly the netstrings that fit are read, and otherwise nothing is changed
* `ReadSlip`: the streams for which this fails
* `AllOrNothing`: the bytes are appended, or the contents stay

## Main results

* `readsStrictly_iff`: a netstring is read strictly apart from the slips
* `appendNetstring_allOrNothing_iff`: a netstring is appended completely or not at all exactly when
  there is no room for the header, or the end is below the limit
-/

namespace Glim

open Machine Exec Method Text

/-! ## Reading -/

/-- The stream begins with a netstring, and `rest` is what follows. -/
def StrictNetstring (stream : IStream) (body rest : List UInt8) : Prop :=
  stream.good ∧ ∃ digits, digits ≠ [] ∧ (∀ c ∈ digits, isDigit c) ∧
    stream.rest = digits ++ colon :: (body ++ comma :: rest) ∧ value digits = body.length

/-- If the stream begins with a netstring that fits, its payload is appended and it is consumed;
otherwise an exception is thrown, and the contents are as before. -/
def ReadsStrictly (stream : IStream) (o : Object) : Prop :=
  wp (GString.readNetstring stream)
    (fun stream' o' => ∃ body rest, StrictNetstring stream body rest ∧
      o.str.length + body.length < 2 ^ 24 ∧ o'.contents = o.contents ++ cells body ∧
        stream' = { rest := rest })
    (fun _ o' => o'.contents = o.contents ∧ ¬ ∃ body rest, StrictNetstring stream body rest ∧
      o.str.length + body.length < 2 ^ 24)
    (fun _ => False) o

/-- The stream begins with a header for which `reserve` shifts too far, or with a netstring for
which there is room, and which has white space or a sign before the digits or ends at the limit or
behind it. -/
def ReadSlip (stream : IStream) (o : Object) : Prop :=
  stream.good ∧ ∃ spaces sign digits after, Header stream.rest spaces sign digits after ∧
    (2 ^ 31 < o.str.length + value digits ∨
      (∃ body rest, after = body ++ comma :: rest ∧ body.length = value digits) ∧
        ¬ TooLarge (o.str.length + value digits) o ∧
        (spaces ≠ [] ∨ sign ≠ [] ∨ 2 ^ 24 ≤ o.str.length + value digits))

section Reading

variable {o : Object} {stream : IStream} {spaces sign digits after body rest : List UInt8}

/-- A netstring that fits has a header without white space and without a sign. -/
theorem StrictNetstring.header (hs : StrictNetstring stream body rest)
    (hlt : o.str.length + body.length < 2 ^ 24) :
    stream.good ∧ ∃ digits, Header stream.rest [] [] digits (body ++ comma :: rest) ∧
      body.length = value digits := by
  obtain ⟨hgood, digits, hne, hdigit, htext, hvalue⟩ := hs
  exact ⟨hgood, digits, ⟨htext, nofun, Or.inl rfl, hne, hdigit, nofun, by omega⟩, hvalue.symm⟩

/-- And what has such a header is a netstring. -/
theorem StrictNetstring.of_header (hgood : stream.good)
    (hh : Header stream.rest [] [] digits (body ++ comma :: rest))
    (hlen : body.length = value digits) : StrictNetstring stream body rest :=
  ⟨hgood, digits, hh.ne_nil, hh.digit, hh.text_eq, hlen.symm⟩

theorem readsStrictly_of_no_header (hno : ¬ (stream.good ∧ ∃ spaces sign digits after,
    Header stream.rest spaces sign digits after)) : ReadsStrictly stream o := by
  refine wp_mono (readNetstring_no_header hno) (fun _ _ h => h.elim) (fun _ o' h => ?_) fun _ h => h
  refine ⟨by rw [h], ?_⟩
  rintro ⟨body, rest, hs, hlt⟩
  obtain ⟨hgood, digits, hh, -⟩ := hs.header hlt
  exact hno ⟨hgood, _, _, _, _, hh⟩

/-- A slip is not strict. -/
theorem not_readsStrictly (hv : Valid o) (hslip : ReadSlip stream o) :
    ¬ ReadsStrictly stream o := by
  intro hreads
  obtain ⟨hgood, spaces, sign, digits, after, hh, hslip⟩ := hslip
  by_cases h31 : o.str.length + value digits ≤ 2 ^ 31
  · rcases hslip with hwide | ⟨hbody, hnot, hbad⟩
    · omega
    refine wp_excludes (wp_readNetstring_fits hv hgood hh h31) hreads (fun _ _ _ hread => ?_)
      (fun _ _ hthrow _ => ?_) fun _ h _ => h
    · obtain ⟨body, rest, hs, hlt, -⟩ := hread
      obtain ⟨-, digits', hh', hlen⟩ := hs.header hlt
      obtain ⟨rfl, rfl, rfl, -⟩ := hh.unique hh'
      rcases hbad with hspaces | hsign | hlarge
      · exact hspaces rfl
      · exact hsign rfl
      · omega
    · rcases hthrow.2.2 with hlarge | hno
      · exact hnot hlarge
      · exact hno hbody
  · exact wp_excludes (wp_readNetstring_wide hv hgood hh (by omega)) hreads (fun _ _ h _ => h)
      (fun _ _ h _ => h) fun _ _ h => h

/-- A netstring is read strictly, and nothing else is, unless the stream and the string are one of
the slips. -/
theorem readsStrictly_iff (hv : Valid o) : ReadsStrictly stream o ↔ ¬ ReadSlip stream o := by
  refine ⟨fun hreads hslip => not_readsStrictly hv hslip hreads, fun hnoslip => ?_⟩
  by_cases hhead : stream.good ∧ ∃ spaces sign digits after,
      Header stream.rest spaces sign digits after
  · obtain ⟨hgood, spaces, sign, digits, after, hh⟩ := hhead
    have h31 : o.str.length + value digits ≤ 2 ^ 31 := by
      by_contra hwide
      exact hnoslip ⟨hgood, _, _, _, _, hh, Or.inl (by omega)⟩
    refine wp_mono (wp_readNetstring_fits hv hgood hh h31) (fun stream' o' h => ?_)
      (fun _ o' h => ?_) fun _ h => h
    · obtain ⟨-, hnot, body, rest, hafter, hlen, hrest, hcontents⟩ := h
      have hgoods : spaces = [] ∧ sign = [] ∧ o.str.length + value digits < 2 ^ 24 := by
        by_contra hbad
        refine hnoslip ⟨hgood, _, _, _, _, hh, Or.inr ⟨⟨body, rest, hafter, hlen⟩, hnot, ?_⟩⟩
        rw [not_and_or, not_and_or] at hbad
        exact hbad.imp_right (Or.imp_right Nat.le_of_not_lt)
      obtain ⟨rfl, rfl, hlt⟩ := hgoods
      rw [hafter] at hh
      exact ⟨body, rest, .of_header hgood hh hlen, by rwa [hlen], hcontents hlt, hrest⟩
    · obtain ⟨-, hcontents, hwhy⟩ := h
      refine ⟨hcontents, ?_⟩
      rintro ⟨body, rest, hs, hlt⟩
      obtain ⟨-, digits', hh', hlen⟩ := hs.header hlt
      obtain ⟨-, -, rfl, rfl⟩ := hh.unique hh'
      rcases hwhy with hlarge | hno
      · have := hlarge.2
        omega
      · exact hno ⟨body, rest, rfl, hlen⟩
  · exact readsStrictly_of_no_header hhead

end Reading

/-- The empty string, in an empty heap. -/
def emptyObject : Object := ⟨⟨[], 0, []⟩, .empty⟩

theorem header_abc (spaces : List UInt8) (hspaces : ∀ c ∈ spaces, isSpace c) :
    Header (spaces ++ [51, 58, 97, 98, 99, 44]) spaces [] [51] [97, 98, 99, 44] :=
  ⟨rfl, hspaces, Or.inl rfl, List.cons_ne_nil _ _, List.forall_mem_singleton.mpr rfl, nofun,
    by decide⟩

/-- The netstring of `"abc"`. -/
theorem readsStrictly_abc :
    ReadsStrictly { rest := [51, 58, 97, 98, 99, 44] } emptyObject := by
  obtain ⟨hv, -⟩ := valid_empty (h := ⟨[], 0, []⟩) rfl
  refine (readsStrictly_iff (o := emptyObject) hv).mpr ?_
  rintro ⟨-, spaces, sign, digits, after, hh, hslip⟩
  obtain ⟨rfl, rfl, rfl, rfl⟩ := (header_abc [] nofun).unique hh
  revert hslip
  have hvalue : emptyObject.str.length + value [51] = 3 := by decide
  rw [hvalue]
  rintro (hwide | ⟨-, -, hspaces | hsign | hlarge⟩)
  · omega
  · exact hspaces rfl
  · exact hsign rfl
  · omega

/-- A space before the netstring of `"abc"` is skipped. -/
theorem space_read :
    (∃ o', GString.readNetstring { rest := [32, 51, 58, 97, 98, 99, 44] } emptyObject =
        .ok { rest := [] } o' ∧ o'.contents = cells [97, 98, 99]) ∧
      ¬ ReadsStrictly { rest := [32, 51, 58, 97, 98, 99, 44] } emptyObject := by
  obtain ⟨hv, -⟩ := valid_empty (h := ⟨[], 0, []⟩) rfl
  refine ⟨⟨_, rfl, by decide⟩, not_readsStrictly (o := emptyObject) hv ?_⟩
  refine ⟨rfl, _, _, _, _, header_abc [32] (List.forall_mem_singleton.mpr rfl), Or.inr ⟨?_, ?_, ?_⟩⟩
  · exact ⟨[97, 98, 99], [], rfl, rfl⟩
  · intro hlarge
    have hvalue : emptyObject.str.length + value [51] = 3 := by decide
    have := hlarge.2
    omega
  · exact Or.inl (List.cons_ne_nil _ _)

/-! ## Appending -/

/-- The bytes are appended, or an exception is thrown and the contents are as before. -/
def AllOrNothing (new : List UInt8) (x : Method Unit) (o : Object) : Prop :=
  wp x (fun _ o' => o'.contents = o.contents ++ cells new)
    (fun _ o' => o'.contents = o.contents) (fun _ => False) o

section Appending

variable {o : Object} {cstr : Option Ptr} {payload : List UInt8}

/-- Bytes apart from the buffer are a payload. -/
theorem Chars.source (hc : Chars o cstr payload.length) (hlen : payload.length < 2 ^ 24)
    (hholds : (o.heap.cellsAt cstr).take payload.length = cells payload) :
    Source o (.reference cstr (UInt32.ofNat payload.length) false, payload) := by
  have hl : (GString.reference cstr (UInt32.ofNat payload.length) false).length =
      payload.length := by
    rw [GString.reference, GString.length_mk_pack, UInt32.toNat_ofNat_of_le (by omega),
      Nat.mod_eq_of_lt hlen]
  refine ⟨hl.symm ▸ hc.readable, ?_, fun q hq hne => ?_⟩
  · rw [Object.contents, hl]
    exact hholds
  · rw [hl] at hne
    have hcstr : cstr = some q := hq
    have hread := hc.readable
    have hapart := hc.apart hne
    rw [hcstr] at hread hapart
    exact ⟨Heap.lt_length_of_room_pos (by omega), hapart⟩

/-- Without an exception for the header, the netstring has to end below the limit. -/
theorem total_lt_of_allOrNothing (hv : Valid o) (hc : Chars o cstr payload.length)
    (hlen : payload.length < 2 ^ 24) (hroom : ¬ TooLarge (o.str.length + 12) o)
    (hall : AllOrNothing (netstring payload)
      (GString.appendNetstring cstr (UInt32.ofNat payload.length)) o) :
    o.str.length + (netstring payload).length < 2 ^ 24 := by
  have hL := o.str.length_lt
  have hn := UInt32.toNat_ofNat_of_le (n := payload.length) (by omega)
  have hdec := signed_toInt32 hlen
  have hdigits : (decimal payload.length).length ≤ 8 :=
    length_radix_le (by decide) (by decide) (by omega)
  have happend := wp_appendNetstring hv (hc.appendNetstringOk hlen (by omega))
  rw [hdec] at happend
  by_contra hge
  refine wp_excludes happend hall (fun _ o' hdone hcontents => ?_)
    (fun _ o' hthrow hcontents => ?_) fun _ h _ => h
  · obtain ⟨o₁, o₂, o₃, -, -, -, h₄⟩ := hdone
    have hlength := length_contents h₄.valid
    rw [hcontents, List.length_append, length_cells, length_contents hv] at hlength
    exact hge (by rw [hlength]; exact o'.str.length_lt)
  · obtain ⟨-, hrefused | ⟨o₁, o₂, h₁, h₂, rfl, -⟩⟩ := hthrow
    · have hlarge := hrefused.2.2
      rw [UInt32.toNat_ofNat_of_le (by omega)] at hlarge
      exact absurd hlarge hroom
    -- the header was appended, so the length is not what it was
    · have hlength := length_contents h₂.valid
      rw [hcontents, length_contents hv, h₂.length, h₁.length] at hlength
      omega

/-- A netstring is appended completely or not at all exactly when the header is refused, or the
netstring ends below the limit. -/
theorem appendNetstring_allOrNothing_iff (hv : Valid o) (hc : Chars o cstr payload.length)
    (hholds : (o.heap.cellsAt cstr).take payload.length = cells payload)
    (hlen : payload.length < 2 ^ 24) :
    AllOrNothing (netstring payload)
        (GString.appendNetstring cstr (UInt32.ofNat payload.length)) o ↔
      TooLarge (o.str.length + 12) o ∨ o.str.length + (netstring payload).length < 2 ^ 24 := by
  have hL := o.str.length_lt
  constructor
  · intro hall
    by_cases hroom : TooLarge (o.str.length + 12) o
    · exact Or.inl hroom
    · exact Or.inr (total_lt_of_allOrNothing hv hc hlen hroom hall)
  · rintro (hlarge | htotal)
    · have hn := UInt32.toNat_ofNat_of_le (n := o.str.length + 12) (by omega)
      refine (wp_bind _).mpr (wp_mono (wp_appendInt hv _) (fun _ o' h => ?_) (fun _ o' h => ?_)
        fun _ h => h)
      · exact absurd (h.small hlarge.1) (Nat.not_le.mpr hlarge.2)
      · rw [h.1]
    · have hs := hc.source hlen hholds
      have hl : (GString.reference cstr (UInt32.ofNat payload.length) false).length =
          payload.length := hs.length_eq.symm
      have happend := wp_appendNetstringGString hv hs htotal
      rw [GString.appendNetstringGString, hl] at happend
      exact wp_mono happend (fun _ _ h => h.1.contents) (fun _ _ h => by rw [h.2.1]) fun _ h => h

end Appending

/-- An empty payload. -/
theorem appendNetstring_empty :
    AllOrNothing [48, 58, 44] (GString.appendNetstring none 0) emptyObject := by
  obtain ⟨hv, -⟩ := valid_empty (h := ⟨[], 0, []⟩) rfl
  have hbytes : netstring [] = [48, 58, 44] := rfl
  have hall : AllOrNothing (netstring [])
      (GString.appendNetstring none (UInt32.ofNat ([] : List UInt8).length)) emptyObject :=
    (appendNetstring_allOrNothing_iff hv ⟨Nat.le_refl _, fun h => absurd rfl h⟩ rfl
      (by decide)).mpr (Or.inr (by decide))
  rwa [hbytes] at hall

/-- A payload of `2 ^ 24 - 8` bytes is refused after its header was appended. -/
theorem header_left_behind :
    ∃ (h : Heap) (payload : List UInt8) (e : String) (o' : Object),
      payload.length = 2 ^ 24 - 8 ∧ h.cellsAt (some ⟨0, 0⟩) = cells payload ∧
      GString.appendNetstring (some ⟨0, 0⟩) (UInt32.ofNat payload.length) ⟨h, .empty⟩ =
        .throw e o' ∧
      o'.contents = cells (decimal payload.length ++ [colon]) ∧
      ¬ AllOrNothing (netstring payload)
        (GString.appendNetstring (some ⟨0, 0⟩) (UInt32.ofNat payload.length)) ⟨h, .empty⟩ := by
  obtain ⟨payload, hlen⟩ : ∃ payload : List UInt8, payload.length = 2 ^ 24 - 8 :=
    ⟨List.replicate (2 ^ 24 - 8) 0, List.length_replicate⟩
  obtain ⟨h, hoom, hcells⟩ : ∃ h : Heap, h.oom = [] ∧ h.cellsAt (some ⟨0, 0⟩) = cells payload :=
    ⟨⟨[⟨cells payload, .foreign, true⟩], 0, []⟩, rfl, rfl⟩
  obtain ⟨hv, hempty⟩ := valid_empty hoom
  have hzero : GString.length .empty = 0 := by decide
  have hone : GString.capacity .empty = 1 := by decide
  have hdigits : (decimal payload.length).length = 8 := by
    rw [hlen]
    simp [decimal, radix]
  have hread : payload.length ≤ h.room (some ⟨0, 0⟩) := by
    rw [Heap.room, hcells, length_cells]
  have hc : Chars ⟨h, .empty⟩ (some ⟨0, 0⟩) payload.length := ⟨hread, fun _ h => by cases h⟩
  have hroom : ¬ TooLarge (GString.length .empty + 12) ⟨h, .empty⟩ := fun hlarge => by
    have := hlarge.2
    omega
  have hsmall : payload.length < 2 ^ 24 := by omega
  have hnot : ¬ AllOrNothing (netstring payload)
      (GString.appendNetstring (some ⟨0, 0⟩) (UInt32.ofNat payload.length)) ⟨h, .empty⟩ := by
    intro hall
    have htotal := total_lt_of_allOrNothing hv hc hsmall hroom hall
    rw [length_netstring, hdigits, hlen] at htotal
    omega
  have hn := UInt32.toNat_ofNat_of_le (n := payload.length) (by omega)
  have hdec := signed_toInt32 hsmall
  have happend := wp_appendNetstring hv (hc.appendNetstringOk hsmall (by simp only [hzero]; omega))
  rw [hdec, hn] at happend
  -- what the header leaves
  have hheader : ∀ {o₁ o₂ : Object},
      Appended (GString.length .empty + 12) (cells (decimal payload.length ++ [0]))
        (decimal payload.length).length ⟨h, .empty⟩ o₁ →
      Appended (o₁.str.length + 1) (cells [58]) 1 o₁ o₂ →
      o₂.str.length = 9 ∧ o₂.str.capacity ≤ 2 ^ 24 ∧
        o₂.contents = cells (decimal payload.length ++ [colon]) := by
    intro o₁ o₂ h₁ h₂
    obtain ⟨e₂, l₂⟩ := extended_header h₁ h₂ hv (by simp only [hdigits, hzero]; omega)
    have c₂ := e₂.limit
    simp only [hdigits, hzero, hone] at l₂ c₂
    refine ⟨by omega, by omega, ?_⟩
    rw [e₂.contents, hempty, List.nil_append]
  cases hrun : GString.appendNetstring (some ⟨0, 0⟩) (UInt32.ofNat payload.length) ⟨h, .empty⟩ with
  | ok a o' =>
    simp only [wp, hrun] at happend
    obtain ⟨o₁, o₂, o₃, h₁, h₂, h₃, -⟩ := happend
    obtain ⟨l₂, c₂, -⟩ := hheader h₁ h₂
    have hfit := h₃.small (by omega)
    omega
  | throw e o' =>
    simp only [wp, hrun] at happend
    obtain ⟨-, hrefused | ⟨o₁, o₂, h₁, h₂, rfl, -⟩⟩ := happend
    · have hlarge := hrefused.2.2.2
      rw [UInt32.toNat_ofNat_of_le (by omega)] at hlarge
      omega
    · exact ⟨h, payload, e, _, hlen, hcells, hrun, (hheader h₁ h₂).2.2, hnot⟩
  | fault u =>
    simp only [wp, hrun] at happend

end Glim
