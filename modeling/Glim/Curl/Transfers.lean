import Glim.Curl.Upload
import Glim.Machine.Run

/-!
# Transfers of one handle

Whether a transfer sends the payload that it is meant to send depends on all the calls before it:
`http` selects the callback and the size, `send` replaces the payload and begins to count anew, and
the transfer reads from the count on. A second transfer of a payload sends nothing.

## Main definitions

* `CurlOp`, `Session`: the calls of a handle, and the payloads of the last ones
* `Session.Transfers`: a transfer sends the payload that is meant
* `Session.Ready`: the payload that is meant is there, and has not been read

## Main results

* `go_eq`: what a transfer sends
* `Session.Inv.step`: what the calls keep
* `transfers_iff`: every transfer of a run sends its payload if and only if it is ready
-/

namespace Glim

open Machine Exec

/-- A call on a `Curl`, with a payload of less than `2 ^ 24` bytes, or buffers with some room. -/
inductive CurlOp where
  | send (payload : Payload) (hlt : payload.bytes.length < 2 ^ 24)
  | http
  | go (buffers : ℕ → ReadBuffer) (hrooms : ∀ n, (buffers n).room ≠ 0)

/-- A handle, the payload that was sent last, and the one that was the last before the last
`http`. -/
structure Session where
  curl : Curl := {}
  last : Option Payload := none
  meant : Option Payload := none

/-- What a call does. -/
def CurlOp.exec : CurlOp → Exec Session Unit
  | .send payload _ => modify fun s => { s with curl := s.curl.send payload, last := some payload }
  | .http => modify fun s => { s with curl := s.curl.http, meant := s.last }
  | .go buffers _ => do
    let _ ← zoom Session.curl (fun curl s => { s with curl := curl }) (Curl.go buffers)

namespace Session

/-- A transfer sends the payload that is meant, and as many bytes as cURL was told. -/
def Transfers (s : Session) (buffers : ℕ → ReadBuffer) : Prop :=
  ∀ payload, s.meant = some payload →
    ∃ curl', Curl.go buffers s.curl = .ok payload.bytes curl' ∧
      ∀ n, s.curl.infileSize = some n → n = payload.bytes.length

/-- The payload that is meant is there and was not read, or it is empty and no callback has been
selected. -/
def Ready (s : Session) : Prop :=
  ∀ payload, s.meant = some payload →
    payload.bytes ≠ [] ∧ s.last = some payload ∧ s.curl.sent = 0 ∨
      payload.bytes = [] ∧ s.curl.readFunction = none

/-- The bytes that the last `send` has put into a member. -/
def content (s : Session) (m : Member) : List UInt8 :=
  match s.last with
  | some payload => if m = payload.member then payload.bytes else []
  | none => []

/-- What the calls keep. -/
structure Inv (s : Session) : Prop where
  short : ∀ payload, s.last = some payload → payload.bytes.length < 2 ^ 24
  bytes_eq : ∀ m, s.curl.bytes m = s.content m
  /-- What was read was read to its end, by the callback that is still selected. -/
  sent : s.curl.sent = 0 ∨
    ∃ m, s.curl.readFunction = some m ∧ s.curl.sent.toNat = (s.content m).length
  selected : ∀ payload, s.meant = some payload → payload.bytes ≠ [] →
    s.curl.readFunction = some payload.member ∧ s.curl.infileSize = some payload.bytes.length
  unselected : s.curl.readFunction = none → s.curl.infileSize = none
  positive : ∀ m, s.curl.readFunction = some m → ∃ n, s.curl.infileSize = some n ∧ n ≠ 0

end Session

/-! ## A transfer -/

section Transfer

variable {payload : Payload} {curl : Curl} {buffers : ℕ → ReadBuffer}

/-- A transfer sends what was not counted yet, and then everything is counted. -/
theorem transfer_eq (hrooms : ∀ n, (buffers n).room ≠ 0) (hlt : payload.bytes.length < 2 ^ 32)
    (h : Progress payload curl) {fuel : ℕ} (n : ℕ)
    (hfuel : payload.bytes.length - curl.sent.toNat < fuel) :
    transfer payload.member.callback buffers fuel n curl =
      .ok (payload.bytes.drop curl.sent.toNat)
        { curl with sent := UInt32.ofNat payload.bytes.length } := by
  induction fuel generalizing curl n with
  | zero => omega
  | succ fuel ih =>
    rw [transfer, bind_of_ok (h.read (buffers n))]
    by_cases hnil : chunk payload curl (buffers n) = []
    · -- nothing is left, and 0 ends the transfer
      have hall := (chunk_eq_nil_iff h (hrooms n)).mp hnil
      have hcounted : Curl.counted payload curl (buffers n) =
          { curl with sent := UInt32.ofNat payload.bytes.length } := by
        rw [Curl.counted, ← length_chunk, hnil, hall]
        rfl
      rw [if_pos hnil, hcounted, ← hall, List.drop_length]
      rfl
    · -- every other round leaves less
      have hpos : 0 < delivered payload curl (buffers n) := by
        rw [← length_chunk]
        exact List.length_pos_iff.mpr hnil
      have hleft : delivered payload curl (buffers n) ≤ payload.bytes.length - curl.sent.toNat :=
        Nat.min_le_left _ _
      have hcount := h.toNat_counted hlt (buffers n)
      have hrest := ih (h.counted (buffers n)) (n + 1) (by rw [hcount]; omega)
      rw [if_neg hnil, bind_of_ok hrest, hcount, ← List.drop_drop]
      show Outcome.ok (_ ++ _) _ = _
      rw [chunk, List.take_append_drop]
      rfl

end Transfer

/-! ## What the calls keep -/

namespace Session

section Keep

variable {s : Session} {m : Member} {buffers : ℕ → ReadBuffer}

theorem Inv.length_content (h : s.Inv) (m : Member) : (s.content m).length < 2 ^ 24 := by
  unfold content
  cases hlast : s.last with
  | none => simp
  | some payload =>
    have hshort := h.short payload hlast
    show (if m = payload.member then payload.bytes else []).length < 2 ^ 24
    split_ifs
    · exact hshort
    · simp

/-- Nothing was read, or all of what is selected. -/
theorem Inv.sent_cases (h : s.Inv) (hm : s.curl.readFunction = some m) :
    s.curl.sent = 0 ∨ s.curl.sent.toNat = (s.content m).length := by
  rcases h.sent with hzero | ⟨m', hm', hsent⟩
  · exact .inl hzero
  · rw [hm] at hm'
    cases hm'
    exact .inr hsent

/-- A transfer sends what was not read yet, and reads it. -/
theorem go_eq (h : s.Inv) (hrooms : ∀ n, (buffers n).room ≠ 0)
    (hm : s.curl.readFunction = some m) :
    Curl.go buffers s.curl = .ok ((s.content m).drop s.curl.sent.toNat)
      { s.curl with sent := UInt32.ofNat (s.content m).length } := by
  have hlt := h.length_content m
  -- what is in the member is a payload that may have been read
  have hsize : (s.content m).length < m.bound := hlt.trans_le (by cases m <;> decide)
  have hprogress : Progress ⟨m, s.content m, hsize⟩ s.curl := by
    refine ⟨h.bytes_eq m, ?_⟩
    rcases h.sent_cases hm with hzero | hsent
    · rw [hzero]
      exact Nat.zero_le _
    · exact hsent.le
  have htransfer := transfer_eq hrooms (hlt.trans (by decide)) hprogress 0
    (Nat.lt_succ_of_le (Nat.sub_le _ s.curl.sent.toNat))
  have hget : (get : Exec Curl Curl) s.curl = .ok s.curl s.curl := rfl
  rw [Curl.go, bind_of_ok hget, hm]
  show transfer m.callback buffers ((s.curl.bytes m).length + 1) 0 s.curl = _
  rw [h.bytes_eq]
  exact htransfer

theorem go_of_none (hnone : s.curl.readFunction = none) :
    Curl.go buffers s.curl = .ok [] s.curl := by
  have hget : (get : Exec Curl Curl) s.curl = .ok s.curl s.curl := rfl
  rw [Curl.go, bind_of_ok hget, hnone]
  rfl

theorem inv_start : Inv {} :=
  ⟨nofun, fun m => by cases m <;> rfl, .inl rfl, nofun, fun _ => rfl, nofun⟩

/-- A new payload is counted anew, and the options stay. -/
theorem Inv.send (h : s.Inv) (payload : Payload) (hlt : payload.bytes.length < 2 ^ 24) :
    Inv { s with curl := s.curl.send payload, last := some payload } := by
  have hoptions : (s.curl.send payload).readFunction = s.curl.readFunction ∧
      (s.curl.send payload).infileSize = s.curl.infileSize := by
    unfold Curl.send
    cases payload.member <;> exact ⟨rfl, rfl⟩
  obtain ⟨hread, hsize⟩ := hoptions
  refine ⟨fun p hp => ?_, fun m => bytes_send payload s.curl m, .inl (sent_send payload s.curl),
    fun p hp hne => ?_, fun hnone => ?_, fun m hm => ?_⟩
  · cases hp
    exact hlt
  · rw [hread, hsize]
    exact h.selected p hp hne
  · rw [hread] at hnone
    rw [hsize]
    exact h.unselected hnone
  · rw [hread] at hm
    rw [hsize]
    exact h.positive m hm

theorem longOfSize_of_lt {n : ℕ} (h : n < 2 ^ 24) : Curl.longOfSize n = n :=
  Int64.toInt_ofNat_of_lt (h.trans (by decide))

/-- The handle when a payload has been selected. -/
def selecting (curl : Curl) (payload : Payload) : Curl :=
  { curl with readFunction := some payload.member, infileSize := some payload.bytes.length }

/-- `http` leaves the handle alone when there is nothing to send. -/
theorem http_of_empty (h : s.Inv) (hempty : ∀ payload, s.last = some payload → payload.bytes = []) :
    s.curl.http = s.curl := by
  have hnil : ∀ m, s.curl.bytes m = [] := by
    intro m
    rw [h.bytes_eq, content]
    cases hlast : s.last with
    | none => rfl
    | some payload =>
      show (if m = payload.member then payload.bytes else []) = []
      rw [hempty payload hlast, ite_self]
  have hstr : s.curl.sendStr = [] := hnil .sendStr
  have hgstr : s.curl.sendGStr = [] := hnil .sendGStr
  rw [Curl.http, if_neg (by simp [hstr]), if_neg (by simp [hgstr])]

/-- `http` selects the member that is not empty. -/
theorem http_of_ne {payload : Payload} (h : s.Inv) (hlast : s.last = some payload)
    (hne : payload.bytes ≠ []) : s.curl.http = selecting s.curl payload := by
  have hstr : s.curl.sendStr = s.content .sendStr := h.bytes_eq .sendStr
  have hgstr : s.curl.sendGStr = s.content .sendGStr := h.bytes_eq .sendGStr
  rw [content, hlast] at hstr hgstr
  obtain ⟨member, bytes, hbound⟩ := payload
  have hlong := longOfSize_of_lt (h.short _ hlast)
  cases member with
  | sendStr =>
    replace hstr : s.curl.sendStr = bytes := hstr
    rw [Curl.http, if_pos (by simpa [hstr] using hne), selecting, ← hlong]
    subst hstr
    rfl
  | sendGStr =>
    replace hstr : s.curl.sendStr = [] := hstr
    replace hgstr : s.curl.sendGStr = bytes := hgstr
    rw [Curl.http, if_neg (by simp [hstr]), if_pos (by simpa [hgstr] using hne), selecting,
      ← hlong]
    subst hgstr
    rfl

theorem content_eq_of_ne {payload : Payload} (hlast : s.last = some payload)
    (hne : s.content m ≠ []) : m = payload.member ∧ s.content m = payload.bytes := by
  rw [content, hlast] at hne ⊢
  by_cases hm : m = payload.member
  · exact ⟨hm, if_pos hm⟩
  · exact absurd (if_neg hm) hne

theorem Inv.http (h : s.Inv) : Inv { s with curl := s.curl.http, meant := s.last } := by
  by_cases hempty : ∀ payload, s.last = some payload → payload.bytes = []
  · rw [http_of_empty h hempty]
    exact ⟨h.short, h.bytes_eq, h.sent, fun p hp hne => absurd (hempty p hp) hne, h.unselected,
      h.positive⟩
  · simp only [not_forall] at hempty
    obtain ⟨payload, hlast, hne⟩ := hempty
    rw [http_of_ne h hlast hne]
    refine ⟨h.short, fun m => ?_, ?_, fun p hp _ => ?_, nofun, fun m _ => ⟨_, rfl, ?_⟩⟩
    · refine Eq.trans ?_ (h.bytes_eq m)
      cases m <;> rfl
    · -- what was read is the payload, which is selected again
      rcases h.sent with hzero | ⟨m, hm, hsent⟩
      · exact .inl hzero
      · by_cases hnil : s.content m = []
        · rw [hnil] at hsent
          exact .inl (UInt32.toNat_inj.mp hsent)
        · obtain ⟨rfl, -⟩ := content_eq_of_ne hlast hnil
          exact .inr ⟨_, rfl, hsent⟩
    · obtain rfl : payload = p := Option.some.inj (hlast.symm.trans hp)
      exact ⟨rfl, rfl⟩
    · simpa using hne

/-- The session after a transfer. -/
def gone (s : Session) (m : Member) : Session :=
  { s with curl := { s.curl with sent := UInt32.ofNat (s.content m).length } }

theorem Inv.gone (h : s.Inv) (hm : s.curl.readFunction = some m) : Inv (s.gone m) := by
  refine ⟨h.short, fun m' => ?_, .inr ⟨m, hm, ?_⟩, h.selected, h.unselected, h.positive⟩
  · refine Eq.trans ?_ (h.bytes_eq m')
    cases m' <;> rfl
  · exact UInt32.toNat_ofNat_of_lt' ((h.length_content m).trans (by decide))

/-- What every call keeps. -/
theorem Inv.step {op : CurlOp} {s' : Session} (h : s.Inv) (hl : (op.exec s).Leaves s') :
    s'.Inv := by
  cases op with
  | send payload hlt =>
    obtain rfl : _ = s' := hl
    exact h.send payload hlt
  | http =>
    obtain rfl : _ = s' := hl
    exact h.http
  | go buffers hrooms =>
    cases hm : s.curl.readFunction with
    | none =>
      rw [CurlOp.exec, bind_of_ok (zoom_of_ok (go_of_none hm))] at hl
      obtain rfl : s = s' := hl
      exact h
    | some m =>
      rw [CurlOp.exec, bind_of_ok (zoom_of_ok (go_eq h hrooms hm))] at hl
      obtain rfl : s.gone m = s' := hl
      exact h.gone hm

/-- A transfer sends an empty payload if nothing has been selected: otherwise cURL was told the size
of an older one. -/
theorem transfers_nil_iff {payload : Payload} (h : s.Inv) (hnil : payload.bytes = []) :
    (∃ curl', Curl.go buffers s.curl = .ok payload.bytes curl' ∧
      ∀ n, s.curl.infileSize = some n → n = payload.bytes.length) ↔
        s.curl.readFunction = none := by
  constructor
  · rintro ⟨curl', -, hsize⟩
    cases hm : s.curl.readFunction with
    | none => rfl
    | some m =>
      obtain ⟨n, hn, hne⟩ := h.positive m hm
      rw [hnil] at hsize
      exact absurd (hsize n hn) hne
  · intro hnone
    refine ⟨s.curl, by rw [go_of_none hnone, hnil], fun n hn => ?_⟩
    rw [h.unselected hnone] at hn
    cases hn

/-- A transfer that sends the selected payload sends the last one, which was not read yet. -/
theorem Inv.ready_of_go {payload : Payload} {curl' : Curl} (h : s.Inv)
    (hrooms : ∀ n, (buffers n).room ≠ 0) (hm : s.curl.readFunction = some payload.member)
    (hne : payload.bytes ≠ []) (hsends : Curl.go buffers s.curl = .ok payload.bytes curl') :
    s.last = some payload ∧ s.curl.sent = 0 := by
  rw [go_eq h hrooms hm] at hsends
  injection hsends with hdrop
  have hcontent : s.content payload.member ≠ [] := by
    intro hcontent
    rw [hcontent, List.drop_nil] at hdrop
    exact hne hdrop.symm
  -- everything that was read would be missing
  have hzero : s.curl.sent = 0 := by
    rcases h.sent_cases hm with hzero | hsent
    · exact hzero
    · rw [hsent, List.drop_length] at hdrop
      exact absurd hdrop.symm hne
  rw [hzero] at hdrop
  refine ⟨?_, hzero⟩
  cases hlast : s.last with
  | none =>
    rw [content, hlast] at hcontent
    exact absurd rfl hcontent
  | some last =>
    -- a payload is its member and its bytes
    obtain ⟨hmember, hbytes⟩ := content_eq_of_ne hlast hcontent
    have heq : payload.bytes = last.bytes := hdrop.symm.trans hbytes
    cases payload
    cases last
    cases hmember
    cases heq
    rfl

/-- A transfer sends its payload if and only if it is ready. -/
theorem transfers_iff_ready (h : s.Inv) (hrooms : ∀ n, (buffers n).room ≠ 0) :
    s.Transfers buffers ↔ s.Ready := by
  refine forall_congr' fun payload => forall_congr' fun hmeant => ?_
  by_cases hnil : payload.bytes = []
  · refine (transfers_nil_iff h hnil).trans ?_
    rw [or_iff_right fun hready => hready.1 hnil, and_iff_right hnil]
  · obtain ⟨hm, hsize⟩ := h.selected payload hmeant hnil
    rw [or_iff_left fun hempty => hnil hempty.1, and_iff_right hnil]
    constructor
    · rintro ⟨curl', hsends, -⟩
      exact h.ready_of_go hrooms hm hnil hsends
    · rintro ⟨hlast, hzero⟩
      have hgo := go_eq h hrooms hm
      have hcontent : s.content payload.member = payload.bytes := by
        rw [content, hlast]
        exact if_pos rfl
      rw [hzero, hcontent] at hgo
      refine ⟨_, hgo, fun n hn => ?_⟩
      rw [hsize] at hn
      exact (Option.some.inj hn).symm

end Keep

end Session

/-- What is to hold of a call, if it is a transfer. -/
def CurlOp.IfGo (P : Session → (ℕ → ReadBuffer) → Prop) (op : CurlOp) (s : Session) : Prop :=
  match op with
  | .go buffers _ => P s buffers
  | _ => True

/-- **Every transfer sends the payload that is meant**, in a run on one handle, if and only if at
every transfer the payload is the last one and was not read yet, or it is empty and nothing has been
selected. -/
theorem transfers_iff (ops : List CurlOp) :
    Along CurlOp.exec (CurlOp.IfGo Session.Transfers) ops {} ↔
      Along CurlOp.exec (CurlOp.IfGo fun s _ => s.Ready) ops {} := by
  refine Along.iff_of_invariant (I := Session.Inv) (fun _ _ _ h hl => h.step hl) ?_
    Session.inv_start
  intro op s h
  cases op with
  | go buffers hrooms => exact Session.transfers_iff_ready h hrooms
  | _ => exact Iff.rfl

/-- A byte, and a buffer of 16 bytes for it. -/
def sendTwice : List CurlOp :=
  [.send ⟨.sendStr, [120], by decide⟩ (by decide), .http, .go (fun _ => ⟨1, 16⟩) fun _ => by decide,
    .go (fun _ => ⟨1, 16⟩) fun _ => by decide]

/-- A second transfer of a payload sends nothing, while cURL was told its size. -/
theorem second_transfer_empty :
    ¬ Along CurlOp.exec (CurlOp.IfGo Session.Transfers) sendTwice {} := by
  intro h
  have hsent := h.2 _ rfl
  have hselected := hsent.2 _ rfl
  have hgone := hselected.2 _ rfl
  obtain ⟨curl', hgo, -⟩ := hgone.1 _ rfl
  cases hgo

end Glim
