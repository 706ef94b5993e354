import Glim.Machine.Exec
import Mathlib.Algebra.Order.Group.Nat

/-!
# Sending with cURL

A `Curl` has a payload in one of two members, a `std::string` or a `gstring`, and counts in `_sent`
how much of it was read. `http` selects a callback by the member that is not empty, and tells cURL
the size; a transfer calls the callback until it returns 0. Strings are modelled by their bytes, and
of the options of the handle only those are kept that are about the payload.

## Main definitions

* `Payload`: what can be sent
* `Curl`, `Curl.send`, `Curl.http`, `Curl.go`: the handle, and its calls
* `curlRead`: the read callbacks, which differ by the member that they read
-/

namespace Glim

open Machine Exec

/-- The member that holds a payload: `_sendStr`, or `_sendGStr`. -/
inductive Member where
  | sendStr
  | sendGStr
  deriving DecidableEq, Repr

/-- What the length of a string is below: that of a `gstring` has 24 bits. -/
def Member.bound : Member → ℕ
  | .sendStr => 2 ^ 64
  | .sendGStr => 2 ^ 24

/-- A `std::string` of any length, or a `gstring`. -/
structure Payload where
  member : Member
  bytes : List UInt8
  length_lt : bytes.length < member.bound
  deriving DecidableEq

/-- `Curl`. The read callback, with `CURLOPT_UPLOAD` and `CURLOPT_READDATA`, and
`CURLOPT_INFILESIZE` are options of `_curl`. -/
structure Curl where
  sendStr : List UInt8 := []
  sendGStr : List UInt8 := []
  sent : UInt32 := 0
  readFunction : Option Member := none
  infileSize : Option ℤ := none

namespace Curl

/-- The bytes of a member. -/
def bytes (curl : Curl) : Member → List UInt8
  | .sendStr => curl.sendStr
  | .sendGStr => curl.sendGStr

/-- `send (text)`, and its specialization for a `gstring`: the other member is cleared. -/
def send (payload : Payload) (curl : Curl) : Curl :=
  match payload.member with
  | .sendStr => { curl with sendStr := payload.bytes, sendGStr := [], sent := 0 }
  | .sendGStr => { curl with sendStr := [], sendGStr := payload.bytes, sent := 0 }

/-- `(long) size`. -/
def longOfSize (size : ℕ) : ℤ := (Int64.ofNat size).toInt

/-- `http (url)`: nothing is selected when both members are empty. -/
def http (curl : Curl) : Curl :=
  if curl.sendStr.length ≠ 0 then
    { curl with
      infileSize := some (longOfSize curl.sendStr.length)
      readFunction := some .sendStr }
  else if curl.sendGStr.length ≠ 0 then
    { curl with
      infileSize := some (longOfSize curl.sendGStr.length)
      readFunction := some .sendGStr }
  else curl

end Curl

/-- The buffer of a read callback: `size` and `nmemb`, of which the product counts. -/
structure ReadBuffer where
  size : UInt64
  nmemb : UInt64
  deriving DecidableEq, Repr

namespace ReadBuffer

def room (b : ReadBuffer) : UInt64 := b.size * b.nmemb

end ReadBuffer

/-- `std::min (curl->_sendStr.size() - curl->_sent, size * nmemb)`. -/
def Curl.readLength (curl : Curl) (m : Member) (b : ReadBuffer) : UInt64 :=
  min (UInt64.ofNat (curl.bytes m).length - curl.sent.toUInt64) b.room

/-- `curlReadFromString (ptr, size, nmemb, userdata)` and `curlReadFromGString`: the bytes that are
copied to the buffer. -/
def curlRead (m : Member) (b : ReadBuffer) : Exec Curl (List UInt8) := do
  let curl ← get
  let len := curl.readLength m b
  when (len ≠ 0 ∧ (curl.bytes m).length < curl.sent.toNat + len.toNat) (fail .outOfBounds)
  modify fun curl => { curl with sent := curl.sent + len.toUInt32 }
  pure (((curl.bytes m).drop curl.sent.toNat).take len.toNat)

/-- `curlReadFromString`. -/
def curlReadFromString : ReadBuffer → Exec Curl (List UInt8) := curlRead .sendStr

/-- `curlReadFromGString`. -/
def curlReadFromGString : ReadBuffer → Exec Curl (List UInt8) := curlRead .sendGStr

/-- The callback that a read function stands for. -/
def Member.callback : Member → ReadBuffer → Exec Curl (List UInt8)
  | .sendStr => curlReadFromString
  | .sendGStr => curlReadFromGString

/-- The chunks of the first calls of a callback, with the buffers of a sequence. -/
def chunks (read : ReadBuffer → Exec Curl (List UInt8)) (buffers : ℕ → ReadBuffer) :
    ℕ → Exec Curl (List (List UInt8))
  | 0 => pure []
  | n + 1 => do
    let earlier ← chunks read buffers n
    let chunk ← read (buffers n)
    pure (earlier ++ [chunk])

/-- A transfer: the callback is called until it returns 0, and cURL gets the bytes. -/
def transfer (read : ReadBuffer → Exec Curl (List UInt8)) (buffers : ℕ → ReadBuffer) :
    ℕ → ℕ → Exec Curl (List UInt8)
  | 0, _ => fail .diverges
  | fuel + 1, n => do
    let chunk ← read (buffers n)
    if chunk = [] then pure []
    else do
      let rest ← transfer read buffers fuel (n + 1)
      pure (chunk ++ rest)

/-- `go ()`: the bytes that are supplied to `curl_easy_perform`. A call that does not return 0
supplies a byte at least, which bounds how many there are. -/
def Curl.go (buffers : ℕ → ReadBuffer) : Exec Curl (List UInt8) := do
  let curl ← get
  match curl.readFunction with
  | none => pure []
  | some m => transfer m.callback buffers ((curl.bytes m).length + 1) 0

/-! ## What a call of a callback does -/

section Reads

variable {curl : Curl} {m : Member} {b : ReadBuffer}

theorem callback_eq (m : Member) : m.callback = curlRead m := by
  cases m <;> rfl

theorem bytes_send (payload : Payload) (curl : Curl) (m : Member) :
    (curl.send payload).bytes m = if m = payload.member then payload.bytes else [] := by
  unfold Curl.send Curl.bytes
  cases m <;> cases payload.member <;> rfl

/-- The member is not longer than a `size_t`, and was not read beyond its end. -/
def Curl.Within (curl : Curl) (m : Member) : Prop :=
  (curl.bytes m).length < 2 ^ 64 ∧ curl.sent.toNat ≤ (curl.bytes m).length

theorem toNat_min (a b : UInt64) : (min a b).toNat = min a.toNat b.toNat := by
  show (if a ≤ b then a else b).toNat = _
  by_cases h : a ≤ b
  · rw [if_pos h, Nat.min_eq_left (UInt64.le_iff_toNat_le.mp h)]
  · rw [if_neg h, Nat.min_eq_right (Nat.le_of_not_le (mt UInt64.le_iff_toNat_le.mpr h))]

/-- How much is read of what is left. -/
theorem toNat_readLength (h : curl.Within m) :
    (curl.readLength m b).toNat = min ((curl.bytes m).length - curl.sent.toNat) b.room.toNat := by
  obtain ⟨hlt, hle⟩ := h
  have hsize : (UInt64.ofNat (curl.bytes m).length).toNat = (curl.bytes m).length :=
    UInt64.toNat_ofNat_of_lt' hlt
  have hsent : curl.sent.toUInt64.toNat = curl.sent.toNat := UInt32.toNat_toUInt64 _
  have hleft : (UInt64.ofNat (curl.bytes m).length - curl.sent.toUInt64).toNat =
      (curl.bytes m).length - curl.sent.toNat := by
    rw [UInt64.toNat_sub_of_le _ _ (UInt64.le_iff_toNat_le.mpr (by rw [hsize, hsent]; exact hle)),
      hsize, hsent]
  rw [Curl.readLength, toNat_min, hleft]

/-- A call of a callback reads from where the last one has stopped. -/
theorem curlRead_eq (h : curl.Within m) :
    curlRead m b curl =
      .ok (((curl.bytes m).drop curl.sent.toNat).take (curl.readLength m b).toNat)
        { curl with sent := UInt32.ofNat (curl.sent.toNat + (curl.readLength m b).toNat) } := by
  -- no more is copied than what is left of the member
  have hinside : ¬ (curl.readLength m b ≠ 0 ∧
      (curl.bytes m).length < curl.sent.toNat + (curl.readLength m b).toNat) := by
    have hle := h.2
    rw [toNat_readLength h]
    omega
  -- the length loses its upper half, but the sum would lose it as well
  have hnext : curl.sent + (curl.readLength m b).toUInt32 =
      UInt32.ofNat (curl.sent.toNat + (curl.readLength m b).toNat) := by
    apply UInt32.toNat_inj.mp
    rw [UInt32.toNat_add, UInt64.toNat_toUInt32, UInt32.toNat_ofNat', Nat.add_mod_mod]
  have hget : (get : Exec Curl Curl) curl = .ok curl curl := rfl
  rw [curlRead, bind_of_ok hget, when_of_not hinside, pure_bind, ← hnext]
  rfl

end Reads

end Glim
