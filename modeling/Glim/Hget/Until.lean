import Mathlib.Algebra.Order.Group.Nat
import Mathlib.Tactic.Common

/-!
# Requests to a list of URLs

`goUntil` repeats a request as long as its handler asks for that, and goes through the URLs in turn.
The position is kept in a function object, which is copied for every request and for every timer; it
is advanced before a request, and the handler is told the URL before it. URLs are of any type.

## Main definitions

* `HgetUntilHandler`: the function object
* `HgetUntilHandler.retry`, `HgetUntilHandler.arguments`, `HgetUntilHandler.resume`: its functions
* `inFlight`: the object of a request, and the URL that the request goes to
* `RoundRobin`: what a request is to do

## Main results

* `inFlight_eq`: the object of a request in closed form
* `roundRobin_iff`: when a request does what it is to do
-/

namespace Glim

/-- What a handler returns: 0 seconds, a positive number of seconds, or neither. -/
inductive RetryAfterSec where
  | zero
  | positive
  | other
  deriving DecidableEq, Repr

/-- `HgetUntilHandler`, with the members that it reads itself. The number of the request is an
`int32_t`, which starts from 0 and is only incremented. -/
structure HgetUntilHandler (α : Type) where
  urls : List α
  requestNum : ℕ := 0
  nextUrl : UInt8 := 0

namespace HgetUntilHandler

variable {α : Type} (h : HgetUntilHandler α)

/-- `if (++_nextUrl >= _urls.size()) _nextUrl = 0;` -/
def advance : UInt8 := if h.urls.length ≤ (h.nextUrl + 1).toNat then 0 else h.nextUrl + 1

/-- `retry`: the URL that the next request goes to, and the object that the request has a copy of.
An overflow of the number, and a position behind the end of the URLs, are undefined. -/
def retry : Option (α × HgetUntilHandler α) :=
  if h.requestNum + 1 < 2 ^ 31 then do
    let url ← h.urls[h.nextUrl.toNat]?
    pure (url, { h with nextUrl := h.advance, requestNum := h.requestNum + 1 })
  else none

/-- `uint8_t urlNum = _nextUrl ? _nextUrl - 1 : _urls.size() - 1;` -/
def urlNum : UInt8 := if h.nextUrl ≠ 0 then h.nextUrl - 1 else UInt8.ofNat h.urls.length - 1

/-- The URL and the number that `operator ()` passes to the handler. -/
def arguments : Option (α × ℕ) := h.urls[h.urlNum.toNat]?.map fun url => (url, h.requestNum)

/-- What `operator ()` does behind the handler: the next request, if there is one. With a positive
number of seconds, it is made by a copy of the object when a timer fires. -/
def resume : RetryAfterSec → Option (α × HgetUntilHandler α)
  | .zero => h.retry
  | .positive => h.retry
  | .other => none

end HgetUntilHandler

section Requests

variable {α : Type} (urls : List α) (answers : ℕ → RetryAfterSec)

/-- The URL that the request behind `k` others goes to, and the object it has, when the handler has
answered the others. -/
def inFlight : ℕ → Option (α × HgetUntilHandler α)
  | 0 => HgetUntilHandler.retry { urls }
  | k + 1 => do
    let request ← inFlight k
    request.2.resume (answers k)

/-- The `k`-th request goes to the URL whose turn it is, and the handler receives that URL and
`k`. -/
def RoundRobin (k : ℕ) : Prop :=
  ∃ url request, urls[(k - 1) % urls.length]? = some url ∧
    inFlight urls answers (k - 1) = some (url, request) ∧ request.arguments = some (url, k)

/-- The handler asks for a retry behind the first `k` requests. -/
def Retries (k : ℕ) : Prop := ∀ j < k, answers j ≠ .other

end Requests

/-! ## The position -/

section Position

variable {α : Type} {urls : List α}

/-- How many URLs are in turn: the position has eight bits. -/
def reach (urls : List α) : ℕ := min urls.length 256

theorem reach_pos (hne : urls ≠ []) : 0 < reach urls :=
  Nat.lt_min.mpr ⟨List.length_pos_iff.mpr hne, by decide⟩

theorem reach_le (urls : List α) : reach urls ≤ 256 := Nat.min_le_right _ _

theorem reach_of_le (h : urls.length ≤ 256) : reach urls = urls.length := Nat.min_eq_left h

theorem reach_of_lt (h : 256 < urls.length) : reach urls = 256 := Nat.min_eq_right h.le

theorem toNat_ofNat_mod (hne : urls ≠ []) (k : ℕ) :
    (UInt8.ofNat (k % reach urls)).toNat = k % reach urls :=
  UInt8.toNat_ofNat_of_lt' ((Nat.mod_lt k (reach_pos hne)).trans_le (reach_le urls))

theorem succ_mod {m : ℕ} (hm : 0 < m) (k : ℕ) :
    (k + 1) % m = if k % m + 1 = m then 0 else k % m + 1 := by
  -- the quotient stays, unless the remainder was the last one
  have hsplit : k + 1 = m * (k / m) + (k % m + 1) := by rw [← Nat.add_assoc, Nat.div_add_mod]
  have hlt := Nat.mod_lt k hm
  rw [hsplit, Nat.mul_add_mod]
  split_ifs with h
  · rw [h, Nat.mod_self]
  · exact Nat.mod_eq_of_lt (by omega)

/-- The position goes round among the URLs that are in turn. -/
theorem advance_eq (hne : urls ≠ []) (requestNum k : ℕ) :
    HgetUntilHandler.advance ⟨urls, requestNum, UInt8.ofNat (k % reach urls)⟩ =
      UInt8.ofNat ((k + 1) % reach urls) := by
  have hlt := Nat.mod_lt k (reach_pos hne)
  have hle := reach_le urls
  have hnext : (UInt8.ofNat (k % reach urls) + 1).toNat = (k % reach urls + 1) % 256 := by
    rw [UInt8.toNat_add, toNat_ofNat_mod hne]
    rfl
  show (if urls.length ≤ (UInt8.ofNat (k % reach urls) + 1).toNat then 0
    else UInt8.ofNat (k % reach urls) + 1) = _
  rw [hnext, succ_mod (reach_pos hne)]
  by_cases hlast : k % reach urls + 1 = reach urls
  · rw [if_pos hlast, hlast]
    by_cases hfew : urls.length < 256
    · rw [reach_of_le hfew.le, Nat.mod_eq_of_lt hfew, if_pos le_rfl]
      rfl
    · -- the position wraps by itself
      have hreach : reach urls = 256 := Nat.min_eq_right (Nat.le_of_not_lt hfew)
      rw [if_neg (by rw [hreach]; omega)]
      apply UInt8.toNat_inj.mp
      rw [hnext, hlast, hreach]
      rfl
  · -- the next position is still one of the list
    have hmin : reach urls ≤ urls.length := Nat.min_le_left _ _
    have hsmall : k % reach urls + 1 < 256 := by omega
    rw [if_neg hlast, Nat.mod_eq_of_lt hsmall, if_neg (by omega)]
    apply UInt8.toNat_inj.mp
    rw [hnext, Nat.mod_eq_of_lt hsmall]
    exact (UInt8.toNat_ofNat_of_lt' hsmall).symm

end Position

/-! ## The requests -/

section Requests

variable {α : Type} {urls : List α} {answers : ℕ → RetryAfterSec} {k : ℕ}

/-- The object behind `k` requests. -/
def handlerAt (urls : List α) (k : ℕ) : HgetUntilHandler α :=
  ⟨urls, k, UInt8.ofNat (k % reach urls)⟩

theorem retry_handlerAt (hne : urls ≠ []) {url : α} (hurl : urls[k % reach urls]? = some url) :
    (handlerAt urls k).retry =
      if k + 1 < 2 ^ 31 then some (url, handlerAt urls (k + 1)) else none := by
  have hposition : (handlerAt urls k).urls[(handlerAt urls k).nextUrl.toNat]? = some url := by
    rw [← hurl, handlerAt, toNat_ofNat_mod hne]
  have hadvance : (handlerAt urls k).advance = UInt8.ofNat ((k + 1) % reach urls) :=
    advance_eq hne k k
  rw [HgetUntilHandler.retry, hposition, hadvance]
  rfl

/-- There is a URL at every position. -/
theorem exists_url (hne : urls ≠ []) (k : ℕ) : ∃ url, urls[k % reach urls]? = some url := by
  have hlt : k % reach urls < urls.length :=
    (Nat.mod_lt k (reach_pos hne)).trans_le (Nat.min_le_left _ _)
  exact ⟨_, List.getElem?_eq_getElem hlt⟩

/-- The object of a request, as long as the numbers do not overflow. -/
theorem inFlight_eq (hne : urls ≠ []) (hretries : Retries answers k) {url : α}
    (hurl : urls[k % reach urls]? = some url) :
    inFlight urls answers k =
      if k + 1 < 2 ^ 31 then some (url, handlerAt urls (k + 1)) else none := by
  induction k generalizing url with
  | zero =>
    have hstart : handlerAt urls 0 = { urls } := by rw [handlerAt, Nat.zero_mod]; rfl
    rw [inFlight, ← hstart, retry_handlerAt hne hurl]
  | succ k ih =>
    obtain ⟨url', hurl'⟩ := exists_url hne k
    rw [inFlight, ih (fun j hj => hretries j (by omega)) hurl']
    by_cases hsmall : k + 1 < 2 ^ 31
    · -- both answers that ask for a retry lead to the same request
      have hresume :
          (handlerAt urls (k + 1)).resume (answers k) = (handlerAt urls (k + 1)).retry := by
        have hanswer := hretries k (Nat.lt_succ_self k)
        cases h : answers k with
        | zero => rfl
        | positive => rfl
        | other => exact absurd h hanswer
      rw [if_pos hsmall]
      show (handlerAt urls (k + 1)).resume (answers k) = _
      rw [hresume, retry_handlerAt hne hurl]
    · -- the number has overflown before
      rw [if_neg hsmall, if_neg (by omega)]
      rfl

/-- The URL that the handler is told is the one before the next position. -/
theorem toNat_urlNum (hne : urls ≠ []) (k : ℕ) :
    (handlerAt urls (k + 1)).urlNum.toNat =
      if (k + 1) % reach urls = 0 then (urls.length - 1) % 256 else k % reach urls := by
  have hpos := List.length_pos_iff.mpr hne
  show (if UInt8.ofNat ((k + 1) % reach urls) ≠ 0 then UInt8.ofNat ((k + 1) % reach urls) - 1
    else UInt8.ofNat urls.length - 1).toNat = _
  by_cases hzero : (k + 1) % reach urls = 0
  · -- `_urls.size() - 1` is converted to eight bits
    have hlast : (UInt8.ofNat urls.length - 1).toNat = (urls.length - 1) % 256 := by
      rw [UInt8.toNat_sub, UInt8.toNat_ofNat']
      show (256 - 1 + urls.length % 256) % 256 = _
      omega
    have hstart : ¬ UInt8.ofNat 0 ≠ 0 := not_not_intro rfl
    rw [if_pos hzero, hzero, if_neg hstart, hlast]
  · have hsucc := succ_mod (reach_pos hne) k
    have hnext : (k + 1) % reach urls = k % reach urls + 1 := by
      split_ifs at hsucc
      · exact absurd hsucc hzero
      · exact hsucc
    have hle := (Nat.mod_lt (k + 1) (reach_pos hne)).trans_le (reach_le urls)
    have hsub : (UInt8.ofNat ((k + 1) % reach urls) - 1).toNat = k % reach urls := by
      rw [UInt8.toNat_sub, toNat_ofNat_mod hne, hnext]
      show (256 - 1 + (k % reach urls + 1)) % 256 = _
      omega
    have hpositive : UInt8.ofNat ((k + 1) % reach urls) ≠ 0 := by
      intro h
      have htoNat := congrArg UInt8.toNat h
      rw [toNat_ofNat_mod hne] at htoNat
      exact hzero htoNat
    rw [if_neg hzero, if_pos hpositive, hsub]

/-- The handler is told the URL that the request has gone to, unless the position has come back to
the beginning: then it is told the last URL, counted with eight bits. -/
theorem arguments_handlerAt (hne : urls ≠ []) (k : ℕ) {url : α} :
    (handlerAt urls (k + 1)).arguments = some (url, k + 1) ↔
      urls[if (k + 1) % reach urls = 0 then (urls.length - 1) % 256 else k % reach urls]? =
        some url := by
  rw [← toNat_urlNum hne]
  show (urls[(handlerAt urls (k + 1)).urlNum.toNat]?.map fun url => (url, k + 1)) = _ ↔ _
  simp

/-- What a request does, as long as the numbers do not overflow: it goes to the URL at the position,
and the handler is told the one before the next position. -/
theorem roundRobin_succ_iff (hne : urls ≠ []) (hretries : Retries answers k)
    (hsmall : k + 1 < 2 ^ 31) :
    RoundRobin urls answers (k + 1) ↔
      urls[k % reach urls]? = urls[k % urls.length]? ∧
        urls[if (k + 1) % reach urls = 0 then (urls.length - 1) % 256 else k % reach urls]? =
          urls[k % urls.length]? := by
  obtain ⟨sent, hsent⟩ := exists_url hne k
  have hturn : k % urls.length < urls.length := Nat.mod_lt _ (List.length_pos_iff.mpr hne)
  have hflight := inFlight_eq hne hretries hsent
  rw [if_pos hsmall] at hflight
  rw [RoundRobin, Nat.add_sub_cancel, hflight, List.getElem?_eq_getElem hturn, hsent]
  constructor
  · rintro ⟨url, request, hurl, hrequest, harguments⟩
    cases hurl
    cases hrequest
    exact ⟨rfl, (arguments_handlerAt hne k).mp harguments⟩
  · rintro ⟨hurl, harguments⟩
    cases hurl
    exact ⟨_, _, rfl, rfl, (arguments_handlerAt hne k).mpr harguments⟩

/-- The position comes back to the beginning from the last URL. -/
theorem mod_eq_pred_of_succ_mod_eq_zero {m : ℕ} (hm : 0 < m) (hzero : (k + 1) % m = 0) :
    k % m = m - 1 := by
  have hsucc := succ_mod hm k
  rw [hzero] at hsucc
  split_ifs at hsucc with hlast
  exact Nat.eq_sub_of_add_eq hlast

/-- The handler is told the right URL if the position goes through the whole list. -/
theorem told_of_le (hne : urls ≠ []) (hfew : urls.length ≤ 256) (k : ℕ) :
    (if (k + 1) % reach urls = 0 then (urls.length - 1) % 256 else k % reach urls) =
      k % urls.length := by
  have hpos := List.length_pos_iff.mpr hne
  rw [reach_of_le hfew]
  split_ifs with hzero
  · rw [mod_eq_pred_of_succ_mod_eq_zero hpos hzero, Nat.mod_eq_of_lt (by omega)]
  · rfl

/-- **The URLs are requested in turn**, and the handler is told the right one, if and only if the
number of the request does not overflow, and there are no more than 256 URLs or the URLs that the
position stands for happen to be the same. -/
theorem roundRobin_iff (hne : urls ≠ []) (hk : 1 ≤ k) (hretries : Retries answers (k - 1)) :
    RoundRobin urls answers k ↔
      k < 2 ^ 31 ∧ (urls.length ≤ 256 ∨
        urls[(k - 1) % 256]? = urls[(k - 1) % urls.length]? ∧
          (256 ∣ k → urls[(urls.length - 1) % 256]? = urls[(k - 1) % urls.length]?)) := by
  obtain ⟨i, rfl⟩ : ∃ i, k = i + 1 := ⟨k - 1, by omega⟩
  rw [Nat.add_sub_cancel] at hretries ⊢
  by_cases hsmall : i + 1 < 2 ^ 31
  · rw [roundRobin_succ_iff hne hretries hsmall, and_iff_right hsmall]
    by_cases hfew : urls.length ≤ 256
    · -- the position goes through the whole list
      rw [told_of_le hne hfew, reach_of_le hfew]
      exact ⟨fun _ => .inl hfew, fun _ => ⟨rfl, rfl⟩⟩
    · -- the position goes through the first 256 URLs only
      rw [reach_of_lt (Nat.lt_of_not_le hfew), or_iff_right hfew]
      refine and_congr_right fun hurl => ?_
      by_cases hdvd : 256 ∣ i + 1
      · rw [if_pos (Nat.mod_eq_zero_of_dvd hdvd)]
        exact ⟨fun h _ => h, fun h => h hdvd⟩
      · rw [if_neg fun h => hdvd (Nat.dvd_of_mod_eq_zero h)]
        exact ⟨fun _ h => absurd h hdvd, fun _ => hurl⟩
  · -- there is no such request
    obtain ⟨sent, hsent⟩ := exists_url hne i
    have hflight := inFlight_eq hne hretries hsent
    rw [if_neg hsmall] at hflight
    constructor
    · rintro ⟨url, request, -, hrequest, -⟩
      rw [Nat.add_sub_cancel, hflight] at hrequest
      cases hrequest
    · exact fun h => absurd h.1 hsmall

/-- Three requests to two URLs. -/
theorem roundRobin_twoUrls :
    RoundRobin ["one", "two"] (fun k => if k = 0 then .zero else .positive) 3 :=
  (roundRobin_iff (List.cons_ne_nil _ _) (by decide) fun j hj => by
    split_ifs <;> exact nofun).mpr ⟨by decide, .inl (by decide)⟩

/-- The request behind 256 others does not go to the last one of 257 URLs. -/
theorem last_url_missed : ¬ RoundRobin (List.range 257) (fun _ => .zero) 257 := by
  rintro ⟨url, request, hurl, hrequest, -⟩
  have hne : List.range 257 ≠ [] := by simp
  have hretries : Retries (fun _ => .zero) 256 := fun _ _ => nofun
  have hlast : (List.range 257)[(257 - 1) % (List.range 257).length]? = some 256 := by
    rw [List.length_range, List.getElem?_range (by decide)]
  have hfirst : 256 % reach (List.range 257) = 0 := by
    rw [reach_of_lt (by simp)]
  have hsent : (List.range 257)[256 % reach (List.range 257)]? = some 0 := by
    rw [hfirst]
    exact List.getElem?_range (by omega)
  rw [hlast] at hurl
  cases hurl
  rw [inFlight_eq hne hretries hsent, if_pos (by decide)] at hrequest
  cases hrequest

end Requests

end Glim
