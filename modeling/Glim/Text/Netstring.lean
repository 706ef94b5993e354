import Glim.Text.Strtol

/-!
# Netstrings

The netstring of a payload is its length in decimal, a colon, the payload and a comma. A
sequence of netstrings can be cut into its payloads again, since a payload is read by its
length: it may look like a header.

## Main definitions

* `netstring`: the netstring of a payload
* `netstrings`: netstrings one after another

## Main results

* `IStream.netstring_append`: a stream that begins with a netstring gives back its payload
* `netstring_append`: a netstring cut after its header
-/

namespace Text

/-- `':'` -/
def colon : UInt8 := 58

/-- `','` -/
def comma : UInt8 := 44

/-- The netstring of a payload. -/
def netstring (payload : List UInt8) : List UInt8 :=
  decimal payload.length ++ colon :: (payload ++ [comma])

/-- The netstrings of the payloads, one after another. -/
def netstrings (payloads : List (List UInt8)) : List UInt8 := payloads.flatMap netstring

variable {payload rest : List UInt8} {payloads : List (List UInt8)}

@[simp] theorem netstrings_nil : netstrings [] = [] := rfl

@[simp] theorem netstrings_cons :
    netstrings (payload :: payloads) = netstring payload ++ netstrings payloads := rfl

theorem length_netstring :
    (netstring payload).length = (decimal payload.length).length + 1 + payload.length + 1 := by
  simp only [netstring, List.length_append, List.length_cons, List.length_nil]
  omega

theorem length_le_length_netstring (payload : List UInt8) :
    payload.length ≤ (netstring payload).length := by
  rw [length_netstring]
  omega

/-- A netstring and what follows it, cut after the header. -/
theorem netstring_append :
    netstring payload ++ rest = decimal payload.length ++ colon :: (payload ++ comma :: rest) := by
  simp [netstring]

theorem IStream.good_mk (bytes : List UInt8) : IStream.good { rest := bytes } = true := rfl

/-- The number at the head of a stream. -/
theorem IStream.extractInt32_decimal {n : ℕ} {c : UInt8} (hn : n < 2 ^ 31)
    (hc : isDigit c = false) :
    IStream.extractInt32 { rest := decimal n ++ c :: rest } = ((n : ℤ), { rest := c :: rest }) := by
  simp only [IStream.extractInt32, dropWhile_isSpace_decimal, splitSign_decimal,
    takeWhile_isDigit_decimal hc, dropWhile_isDigit_decimal hc, value_decimal]
  rw [if_pos (IStream.good_mk _)]
  have hne : decimal n ≠ [] := radix_ne_nil
  simpa [hne] using hn

/-- A stream that begins with a netstring gives back its payload. -/
theorem IStream.netstring_append (hlen : payload.length < 2 ^ 31) :
    IStream.netstring { rest := Text.netstring payload ++ rest } =
      some (payload, { rest := rest }) := by
  have hread : IStream.read { rest := payload ++ comma :: rest } payload.length =
      (payload, { rest := comma :: rest }) := by
    rw [IStream.read, if_pos (good_mk _), if_pos (by simp), List.take_left' rfl,
      List.drop_left' rfl]
  rw [IStream.netstring, Text.netstring_append, IStream.extractInt32_decimal hlen rfl]
  simp only [IStream.getChar, good_mk, if_true, Int.toNat_natCast, hread]
  exact if_pos ⟨⟨trivial, Int.natCast_nonneg _⟩, ⟨trivial, rfl⟩, trivial, rfl⟩

end Text
