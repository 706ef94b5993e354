import Glim.GString.Netstring
import Glim.Text.Word

/-!
# Netstrings of a `std::string`

A `std::string` may be longer than a gstring, and its size is a `size_t`. `writeNetstring` takes
the length as a `uint32_t` and prints it as an `int`. What comes out is a netstring for a length
below `2 ^ 31`, and behind that a text with a negative number, which `netstringAt` refuses. From
`2 ^ 32` on only the length modulo `2 ^ 32` is left, and that many bytes of the payload.

## Main definitions

* `writeNetstringString`: the encoder
* `encoded`: what it writes
* `RoundTrips`: the payload is given back, or an exception is thrown

## Main results

* `roundTrips_iff`: the payloads that make the round trip
-/

namespace Glim

open Machine Exec Text

/-- `writeNetstring (oss, payload)` for a `std::string` of `size` bytes at `data`. -/
def writeNetstringString (oss : List Cell) (data : Option Ptr) (size : ℕ) :
    Exec Heap (List Cell) :=
  writeNetstring oss data (UInt32.ofNat size)

/-- The length is a `uint32_t` and is printed as an `int`. -/
def encoded (payload : List UInt8) : List UInt8 :=
  signed (UInt32.ofNat payload.length).toInt32.toInt ++
    colon :: (payload.take (UInt32.ofNat payload.length).toNat ++ [comma])

/-- Decoding what was encoded gives the payload and the end of the text, or one of the two
throws. -/
def RoundTrips (h : Heap) (data : Option Ptr) (payload : List UInt8) : Prop :=
  wp (writeNetstringString [] data payload.length)
    (fun os h => ∃ source, os = cells source ∧
      wp (netstringAt source 0)
        (fun r _ => r.1 = payload ∧ r.2.toNat = source.length)
        (fun _ _ => True) (fun _ => False) h)
    (fun _ _ => True) (fun _ => False) h

section RoundTrip

variable {h : Heap} {data : Option Ptr} {payload : List UInt8}

/-! ## What is written -/

theorem toNat_ofNat_length_le (payload : List UInt8) :
    (UInt32.ofNat payload.length).toNat ≤ payload.length := by
  rw [UInt32.toNat_ofNat']
  omega

theorem wp_writeNetstringString (hdata : (h.cellsAt data).take payload.length = cells payload) :
    wp (writeNetstringString [] data payload.length)
      (fun os h' => os = cells (encoded payload) ∧ h' = h) (fun _ _ => False)
      (fun _ => False) h := by
  have hle := toNat_ofNat_length_le payload
  have hroom : payload.length ≤ h.room data := by
    have hlen := congrArg List.length hdata
    rw [List.length_take, length_cells] at hlen
    exact inf_eq_left.mp hlen
  rw [writeNetstringString, encoded]
  generalize UInt32.ofNat payload.length = clen at hle ⊢
  refine (wp_bind _).mpr (Heap.wp_load (hle.trans hroom) ⟨?_, rfl⟩)
  have hchars : (h.cellsAt data).take clen.toNat = cells (payload.take clen.toNat) := by
    have htake := congrArg (List.take clen.toNat) hdata
    rw [List.take_take, min_eq_left hle] at htake
    rw [htake, cells, cells, List.map_take]
  rw [hchars]
  simp [cells]

/-- Nothing but the text that was written is decoded. -/
theorem roundTrips_iff_netstringAt
    (hdata : (h.cellsAt data).take payload.length = cells payload) :
    RoundTrips h data payload ↔
      wp (netstringAt (encoded payload) 0)
        (fun r _ => r.1 = payload ∧ r.2.toNat = (encoded payload).length)
        (fun _ _ => True) (fun _ => False) h := by
  have hinj : Function.Injective cells := List.map_injective_iff.mpr (Option.some_injective _)
  obtain ⟨os, h', hx, rfl, rfl⟩ := exists_ok_of_wp (wp_writeNetstringString hdata)
  rw [RoundTrips]
  simp only [wp, hx]
  refine ⟨fun ⟨source, hsource, hat⟩ => ?_, fun hat => ⟨_, rfl, hat⟩⟩
  rwa [hinj hsource]

/-! ## What is decoded -/

/-- The text of a length below `2 ^ 31` is a netstring. -/
theorem encoded_eq_netstring (hsmall : (UInt32.ofNat payload.length).toNat < 2 ^ 31) :
    encoded payload = netstring (payload.take (UInt32.ofNat payload.length).toNat) := by
  have hle := toNat_ofNat_length_le payload
  rw [encoded, toInt_toInt32, if_pos hsmall, netstring, List.length_take, min_eq_left hle]
  exact congrArg (· ++ _) (if_neg (Int.not_lt.mpr (Int.natCast_nonneg _)))

/-- The text of a length from `2 ^ 31` on begins with a minus. -/
theorem encoded_eq_minus (hlarge : 2 ^ 31 ≤ (UInt32.ofNat payload.length).toNat) :
    ∃ rest, encoded payload = minus :: rest := by
  have hlt := (UInt32.ofNat payload.length).toNat_lt
  have hneg : (UInt32.ofNat payload.length).toInt32.toInt < 0 := by
    rw [toInt_toInt32, if_neg (by omega)]
    omega
  refine ⟨radix 10 (UInt32.ofNat payload.length).toInt32.toInt.natAbs ++
    colon :: (payload.take (UInt32.ofNat payload.length).toNat ++ [comma]), ?_⟩
  rw [encoded]
  exact congrArg (· ++ _) (if_pos hneg)

/-- A text that begins with a minus has no header. -/
theorem netstringAt_minus {σ : Type} (rest : List UInt8) :
    (netstringAt (minus :: rest) 0 : Exec σ (List UInt8 × UInt32)) =
      raise ("netstringAt" ++ ": no header") := by
  have hle := toNat_ofNat_length_le (minus :: rest)
  have hmem : ((minus :: rest) ++ [0]).take (UInt32.ofNat (minus :: rest).length).toNat =
      (minus :: rest).take (UInt32.ofNat (minus :: rest).length).toNat :=
    List.take_append_of_le_length hle
  have hlen : ((minus :: rest).take (UInt32.ofNat (minus :: rest).length).toNat).length =
      (UInt32.ofNat (minus :: rest).length).toNat := by
    rw [List.length_take, min_eq_left hle]
  rw [netstringAt, scanNetstring_no_header "netstringAt" hmem hlen]
  · rfl
  · rintro ⟨digits, after, hdrop, hdigit, -⟩
    rw [UInt32.toNat_zero, List.drop_zero] at hdrop
    generalize (UInt32.ofNat (minus :: rest).length).toNat = len at hdrop
    cases len with
    | zero => exact absurd (congrArg List.length hdrop) (by simp)
    | succ len =>
      cases digits with
      | nil => exact absurd (List.cons.inj hdrop).1 (by decide)
      | cons d digits =>
        have hminus : d = minus := (List.cons.inj hdrop).1.symm
        exact absurd (hdigit d List.mem_cons_self) (by rw [hminus]; decide)

/-! ## The round trip -/

/-- A length below `2 ^ 31` makes the round trip. -/
theorem wp_netstringAt_netstring (hsmall : payload.length < 2 ^ 31) :
    wp (netstringAt (netstring payload) 0)
      (fun r h' => r.1 = payload ∧ r.2.toNat = (netstring payload).length ∧ h' = h)
      (fun _ _ => False) (fun _ => False) h := by
  have hdigits : (decimal payload.length).length ≤ 10 :=
    length_radix_le (by decide) (by decide) (by omega)
  have hshort : (netstring payload).length < 2 ^ 32 := by
    rw [length_netstring]
    omega
  have hbytes : netstring payload = [] ++ netstring payload ++ [] := by
    rw [List.nil_append, List.append_nil]
  have hpos : (0 : UInt32).toNat = ([] : List UInt8).length := rfl
  obtain ⟨after, hat, hafter⟩ := netstringAt_eq (σ := Heap) hshort hbytes hpos
  rw [hat]
  exact ⟨rfl, hafter, rfl⟩

/-- A negative number is refused. -/
theorem roundTrips_of_negative (hdata : (h.cellsAt data).take payload.length = cells payload)
    (hlarge : 2 ^ 31 ≤ payload.length % 2 ^ 32) : RoundTrips h data payload := by
  rw [← UInt32.toNat_ofNat'] at hlarge
  obtain ⟨rest, hrest⟩ := encoded_eq_minus hlarge
  rw [roundTrips_iff_netstringAt hdata, hrest, netstringAt_minus]
  trivial

/-- If the number is not negative, the bytes that it counts are given back. -/
theorem roundTrips_iff_take (hdata : (h.cellsAt data).take payload.length = cells payload)
    (hsmall : payload.length % 2 ^ 32 < 2 ^ 31) :
    RoundTrips h data payload ↔ payload.take (payload.length % 2 ^ 32) = payload := by
  have hle : payload.length % 2 ^ 32 ≤ payload.length := Nat.mod_le _ _
  have hlength : (payload.take (payload.length % 2 ^ 32)).length < 2 ^ 31 := by
    rw [List.length_take]
    omega
  obtain ⟨⟨body, after⟩, h', hx, rfl, hafter, rfl⟩ :=
    exists_ok_of_wp (wp_netstringAt_netstring (h := h) hlength)
  have hencoded : encoded payload = netstring (payload.take (payload.length % 2 ^ 32)) := by
    rw [← UInt32.toNat_ofNat'] at hsmall ⊢
    exact encoded_eq_netstring hsmall
  rw [roundTrips_iff_netstringAt hdata, hencoded]
  simp only [wp, hx]
  exact and_iff_left hafter

/-- From `2 ^ 32` bytes on, a number that is not negative counts less than the payload. -/
theorem not_roundTrips_of_truncated
    (hdata : (h.cellsAt data).take payload.length = cells payload)
    (hlong : 2 ^ 32 ≤ payload.length) (hsmall : payload.length % 2 ^ 32 < 2 ^ 31) :
    ¬ RoundTrips h data payload := by
  rw [roundTrips_iff_take hdata hsmall]
  intro htake
  have hlen := congrArg List.length htake
  rw [List.length_take] at hlen
  omega

/-- The payload is given back, or one of the two functions throws, for every length below `2 ^ 32`
and for those whose remainder modulo `2 ^ 32` is no `int`. For the others a part of the payload is
given back. -/
theorem roundTrips_iff (hdata : (h.cellsAt data).take payload.length = cells payload) :
    RoundTrips h data payload ↔
      payload.length < 2 ^ 32 ∨ 2 ^ 31 ≤ payload.length % 2 ^ 32 := by
  rcases Nat.lt_or_ge (payload.length % 2 ^ 32) (2 ^ 31) with hsmall | hlarge
  · constructor
    · intro htrip
      by_contra hnot
      exact not_roundTrips_of_truncated hdata (by omega) hsmall htrip
    · intro hshort
      rw [roundTrips_iff_take hdata hsmall]
      exact List.take_of_length_le (by omega)
  · exact iff_of_true (roundTrips_of_negative hdata hlarge) (Or.inr hlarge)

end RoundTrip

/-- A payload of two bytes. -/
theorem roundTrips_twoBytes :
    RoundTrips ⟨[⟨cells [58, 44], .foreign, true⟩], 0, []⟩ (some ⟨0, 0⟩) [58, 44] :=
  (roundTrips_iff (h := ⟨[⟨cells [58, 44], .foreign, true⟩], 0, []⟩) rfl).mpr
    (Or.inl (by decide))

/-- Of `2 ^ 32` bytes nothing is given back. -/
theorem lost_payload :
    ∃ (h : Heap) (payload : List UInt8),
      payload.length = 2 ^ 32 ∧ (h.cellsAt (some ⟨0, 0⟩)).take payload.length = cells payload ∧
      ¬ RoundTrips h (some ⟨0, 0⟩) payload := by
  obtain ⟨payload, hlen⟩ : ∃ payload : List UInt8, payload.length = 2 ^ 32 :=
    ⟨List.replicate (2 ^ 32) 0, List.length_replicate⟩
  obtain ⟨h, hcells⟩ : ∃ h : Heap, h.cellsAt (some ⟨0, 0⟩) = cells payload :=
    ⟨⟨[⟨cells payload, .foreign, true⟩], 0, []⟩, rfl⟩
  have hdata : (h.cellsAt (some ⟨0, 0⟩)).take payload.length = cells payload := by
    rw [hcells, ← length_cells payload, List.take_length]
  have hmod : payload.length % 2 ^ 32 = 0 := by
    rw [hlen, Nat.mod_self]
  exact ⟨h, payload, hlen, hdata, not_roundTrips_of_truncated hdata hlen.ge (by omega)⟩

end Glim
