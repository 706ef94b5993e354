import Glim.Curl.Basic

/-!
# Uploads

The callbacks that cURL reads a payload with deliver it piece by piece, whatever the sizes of the
buffers are. How much was delivered is counted with 32 bits: the count of a `std::string` that is
longer wraps, and the callback never returns 0.

## Main definitions

* `Progress`: a payload is being delivered
* `SendsExactly`: what the calls of a callback are to deliver

## Main results

* `Progress.read`: what one call delivers
* `exists_chunks`: what some calls have delivered
* `sendsExactly_iff`: when the calls deliver the payload
-/

namespace Glim

open Machine Exec

/-- The payload is in its member, and was not read beyond its end. -/
structure Progress (payload : Payload) (curl : Curl) : Prop where
  bytes_eq : curl.bytes payload.member = payload.bytes
  sent_le : curl.sent.toNat ≤ payload.bytes.length

/-- After `send`, the chunks that are read are a prefix of the payload at any time; the payload is
complete after finitely many calls, and each call after them returns 0. -/
structure SendsExactly (payload : Payload) (buffers : ℕ → ReadBuffer) (curl : Curl) : Prop where
  prefixes : ∀ n, ∃ cs curl', chunks payload.member.callback buffers n (curl.send payload) =
    .ok cs curl' ∧ cs.flatten <+: payload.bytes
  ends : ∃ n, ∀ k ≥ n, ∃ cs curl',
    chunks payload.member.callback buffers (k + 1) (curl.send payload) = .ok (cs ++ [[]]) curl' ∧
      cs.flatten = payload.bytes

section

variable {payload : Payload} {curl : Curl} {b : ReadBuffer}

theorem Payload.length_lt_size (payload : Payload) : payload.bytes.length < 2 ^ 64 := by
  have h := payload.length_lt
  cases hm : payload.member <;> rw [hm] at h
  · exact h
  · exact h.trans (by decide)

theorem Progress.within (h : Progress payload curl) : curl.Within payload.member := by
  rw [Curl.Within, h.bytes_eq]
  exact ⟨payload.length_lt_size, h.sent_le⟩

theorem sent_send (payload : Payload) (curl : Curl) : (curl.send payload).sent = 0 := by
  unfold Curl.send
  cases payload.member <;> rfl

theorem progress_send (payload : Payload) (curl : Curl) : Progress payload (curl.send payload) := by
  refine ⟨by rw [bytes_send, if_pos rfl], ?_⟩
  rw [sent_send]
  exact Nat.zero_le _

/-- How much of the payload a call delivers. -/
def delivered (payload : Payload) (curl : Curl) (b : ReadBuffer) : ℕ :=
  min (payload.bytes.length - curl.sent.toNat) b.room.toNat

/-- What a call delivers. -/
def chunk (payload : Payload) (curl : Curl) (b : ReadBuffer) : List UInt8 :=
  (payload.bytes.drop curl.sent.toNat).take (delivered payload curl b)

theorem Progress.sent_add_le (h : Progress payload curl) :
    curl.sent.toNat + delivered payload curl b ≤ payload.bytes.length := by
  have hle := h.sent_le
  rw [delivered]
  omega

/-- The handle after a call. -/
def Curl.counted (payload : Payload) (curl : Curl) (b : ReadBuffer) : Curl :=
  { curl with sent := UInt32.ofNat (curl.sent.toNat + delivered payload curl b) }

/-- A call delivers the bytes behind those that were counted, and counts these. -/
theorem Progress.read (h : Progress payload curl) (b : ReadBuffer) :
    payload.member.callback b curl = .ok (chunk payload curl b) (Curl.counted payload curl b) := by
  have hlen : (curl.readLength payload.member b).toNat = delivered payload curl b := by
    rw [toNat_readLength h.within, h.bytes_eq, delivered]
  have hread := curlRead_eq (b := b) h.within
  rw [hlen, h.bytes_eq] at hread
  rw [callback_eq]
  exact hread

theorem Progress.counted (h : Progress payload curl) (b : ReadBuffer) :
    Progress payload (Curl.counted payload curl b) := by
  refine ⟨?_, ?_⟩
  · refine Eq.trans ?_ h.bytes_eq
    cases payload.member <;> rfl
  · show (UInt32.ofNat (curl.sent.toNat + delivered payload curl b)).toNat ≤ _
    rw [UInt32.toNat_ofNat']
    exact (Nat.mod_le _ _).trans h.sent_add_le

/-- The count does not wrap in a payload that is short enough. -/
theorem Progress.toNat_counted (h : Progress payload curl) (hlt : payload.bytes.length < 2 ^ 32)
    (b : ReadBuffer) :
    (Curl.counted payload curl b).sent.toNat = curl.sent.toNat + delivered payload curl b :=
  UInt32.toNat_ofNat_of_lt' (h.sent_add_le.trans_lt hlt)

theorem length_chunk (payload : Payload) (curl : Curl) (b : ReadBuffer) :
    (chunk payload curl b).length = delivered payload curl b := by
  rw [chunk, List.length_take, List.length_drop, delivered]
  omega

/-- A call returns 0 if and only if everything was counted. -/
theorem chunk_eq_nil_iff (h : Progress payload curl) (hroom : b.room ≠ 0) :
    chunk payload curl b = [] ↔ payload.bytes.length = curl.sent.toNat := by
  have hpos : 0 < b.room.toNat := Nat.pos_of_ne_zero fun h => hroom (UInt64.toNat_inj.mp h)
  have hle := h.sent_le
  rw [← List.length_eq_zero_iff, length_chunk, delivered]
  omega

end

/-! ## Many calls -/

section

variable {payload : Payload} {curl : Curl} {buffers : ℕ → ReadBuffer}

/-- One more call. -/
theorem Progress.chunks_succ {curl₁ : Curl} {cs : List (List UInt8)} {n : ℕ}
    (h : Progress payload curl₁)
    (hchunks : chunks payload.member.callback buffers n curl = .ok cs curl₁) :
    chunks payload.member.callback buffers (n + 1) curl =
      .ok (cs ++ [chunk payload curl₁ (buffers n)]) (Curl.counted payload curl₁ (buffers n)) := by
  rw [chunks, bind_of_ok hchunks, bind_of_ok (h.read (buffers n))]
  rfl

/-- What the first calls have delivered. As long as the count does not wrap, it is what was counted,
and every call has delivered a byte or the payload was complete. -/
theorem exists_chunks (curl : Curl) (payload : Payload) (hrooms : ∀ n, (buffers n).room ≠ 0)
    (n : ℕ) :
    ∃ cs curl', chunks payload.member.callback buffers n (curl.send payload) = .ok cs curl' ∧
      Progress payload curl' ∧
      (payload.bytes.length < 2 ^ 32 →
        cs.flatten = payload.bytes.take curl'.sent.toNat ∧
          min n payload.bytes.length ≤ curl'.sent.toNat) := by
  -- on the calls: what was delivered is what is in front of the count
  induction n with
  | zero =>
    refine ⟨[], _, rfl, progress_send payload curl, fun _ => ?_⟩
    rw [sent_send]
    exact ⟨rfl, Nat.min_le_left _ _⟩
  | succ n ih =>
    obtain ⟨cs, curl₁, hchunks, hprogress, hsmall⟩ := ih
    refine ⟨_, _, hprogress.chunks_succ hchunks, hprogress.counted _, fun hlt => ?_⟩
    obtain ⟨hflatten, hmin⟩ := hsmall hlt
    rw [hprogress.toNat_counted hlt]
    refine ⟨?_, ?_⟩
    · rw [List.flatten_append, List.flatten_singleton, hflatten, List.take_add]
      rfl
    · -- a byte at least is read, unless none is left
      have hroom : 0 < (buffers n).room.toNat :=
        Nat.pos_of_ne_zero fun h => hrooms n (UInt64.toNat_inj.mp h)
      rw [delivered]
      omega

/-- Where a call returns 0 at last, everything was counted. -/
theorem SendsExactly.length_lt (hrooms : ∀ n, (buffers n).room ≠ 0)
    (h : SendsExactly payload buffers curl) : payload.bytes.length < 2 ^ 32 := by
  obtain ⟨n, hends⟩ := h.ends
  obtain ⟨cs, curl₁, hchunks, hprogress, -⟩ := exists_chunks curl payload hrooms n
  obtain ⟨cs', curl', hzero, -⟩ := hends n le_rfl
  -- the count has 32 bits, and the payload is as long as it
  rw [hprogress.chunks_succ hchunks] at hzero
  injection hzero with hlists
  have hnil : chunk payload curl₁ (buffers n) = [] :=
    List.singleton_inj.mp (List.append_inj_right' hlists rfl)
  rw [(chunk_eq_nil_iff hprogress (hrooms n)).mp hnil]
  exact curl₁.sent.toNat_lt

/-- **The callbacks send the payload exactly** if and only if it is shorter than `2 ^ 32` bytes,
which a `gstring` always is. -/
theorem sendsExactly_iff (hrooms : ∀ n, (buffers n).room ≠ 0) :
    SendsExactly payload buffers curl ↔ payload.bytes.length < 2 ^ 32 := by
  constructor
  · exact SendsExactly.length_lt hrooms
  · intro hlt
    refine ⟨fun n => ?_, payload.bytes.length, fun k hk => ?_⟩
    · obtain ⟨cs, curl', hchunks, -, hsmall⟩ := exists_chunks curl payload hrooms n
      exact ⟨cs, curl', hchunks, (hsmall hlt).1 ▸ List.take_prefix _ _⟩
    · obtain ⟨cs, curl₁, hchunks, hprogress, hsmall⟩ := exists_chunks curl payload hrooms k
      obtain ⟨hflatten, hmin⟩ := hsmall hlt
      have hchunks' := hprogress.chunks_succ hchunks
      -- each of the `k` calls has delivered a byte, or nothing was left
      have hall : payload.bytes.length = curl₁.sent.toNat := by
        have hle := hprogress.sent_le
        omega
      rw [(chunk_eq_nil_iff hprogress (hrooms k)).mpr hall] at hchunks'
      rw [← hall, List.take_length] at hflatten
      exact ⟨cs, _, hchunks', hflatten⟩

end

/-- Five bytes, which are read with buffers of two sizes. -/
theorem sendsExactly_fiveBytes :
    SendsExactly ⟨.sendStr, [104, 101, 108, 108, 111], by decide⟩
      (fun n => if n = 0 then ⟨1, 2⟩ else ⟨1, 16⟩) {} :=
  (sendsExactly_iff fun n => by split_ifs <;> decide).mpr (by decide)

/-- Of a payload of `2 ^ 32` bytes, the callback never finds the end. -/
theorem upload_never_ends :
    ∃ payload : Payload, payload.bytes.length = 2 ^ 32 ∧
      ¬ SendsExactly payload (fun _ => ⟨1, 16384⟩) {} := by
  obtain ⟨bytes, hlen⟩ : ∃ bytes : List UInt8, bytes.length = 2 ^ 32 :=
    ⟨List.replicate (2 ^ 32) 0, List.length_replicate⟩
  have hlt : bytes.length < 2 ^ 64 := hlen.trans_lt (by decide)
  refine ⟨⟨.sendStr, bytes, hlt⟩, hlen, fun h => ?_⟩
  have hsmall := h.length_lt fun _ => by decide
  exact hsmall.ne hlen

end Glim
