import Glim.GString.Netstring
import Mathlib.Data.UInt

/-!
# Appending a time

`appendTime` asks `strftime` to write behind the contents. If the answer is 0, there was too
little room or the text is empty, and it asks again with twice the room, until it has asked with
more than 1024 bytes. The room before the first answer is at least 8 bytes, so 9 questions are
enough. A text that fits is made part of the string by the length setter, which keeps the lowest
24 bits of the length: with a capacity above `2 ^ 24` bytes can be lost.

## Main definitions

* `AppendsTime`: the text is appended, or it is long and nothing is appended

## Main results

* `roundsOk`: enough rounds append the text, or give up behind 1024 bytes
* `appendsTime_iff`: when the text is appended or not
-/

namespace Glim

open Machine Exec Method Text

/-- The text is appended, or it has more than 1024 bytes and nothing is. The bytes before it stay,
`strftime` has all the room it is given, and a dozen rounds are enough. -/
def AppendsTime (text : List UInt8) (o : Object) : Prop :=
  wp (GString.appendTime text 12)
    (fun _ o' => (o'.heap.cellsAt o'.str.buf).take o.str.length = o.contents ∧
      (o'.contents = o.contents ++ cells text ∨ 1024 < text.length ∧ o'.contents = o.contents))
    (fun _ _ => False) (fun _ => False) o

section Time

variable {o o' o₂ : Object} {text : List UInt8} {n : ℕ}

/-- The string after the rounds: with the text, if there was room for it, and its length modulo
`2 ^ 24`. -/
structure Timed (text : List UInt8) (o o' : Object) : Prop where
  kept : (o'.heap.cellsAt o'.str.buf).take o.str.length = o.contents
  result :
    o'.contents = (o.contents ++ cells text).take ((o.str.length + text.length) % 2 ^ 24) ∧
        (o.str.length + text.length < 2 ^ 24 ∨ o.str.length + text.length < o.str.capacity) ∨
      o'.contents = o.contents ∧ 1024 < text.length ∧
        o.str.capacity ≤ o.str.length + text.length

/-- Growing the string first makes no difference. -/
theorem Timed.of_grown (hg : Grown n o o₂) (hn : o.str.capacity ≤ n) (ht : Timed text o₂ o') :
    Timed text o o' := by
  have hkept := ht.kept
  have hresult := ht.result
  rw [hg.contents, hg.length] at hkept hresult
  refine ⟨hkept, ?_⟩
  rcases hresult with ⟨hc, hfits⟩ | ⟨hc, hlong, hroom⟩
  · refine Or.inl ⟨hc, ?_⟩
    have := hg.limit
    omega
  · exact Or.inr ⟨hc, hlong, (hn.trans hg.capacity).trans hroom⟩

/-- Writing behind the contents keeps them. -/
theorem contents_write_end {new : List Cell} (hroom : o.str.length + new.length ≤ o.room) :
    Object.contents ⟨o.heap.write (o.str.data o.str.length) new, o.str⟩ = o.contents := by
  have hlen : o.str.length ≤ (o.heap.cellsAt o.str.buf).length := by
    have hin : o.str.length + new.length ≤ (o.heap.cellsAt o.str.buf).length := hroom
    omega
  rw [Object.contents, cellsAt_write hroom, Heap.splice, List.append_assoc,
    List.take_append_of_le_length (by rw [List.length_take, min_eq_left hlen]), List.take_take,
    min_self]
  rfl

/-- What was written behind the contents before the rounds makes no difference. -/
theorem Timed.of_write_end {new : List Cell} (hin : o.str.length + new.length ≤ o.room)
    (ht : Timed text ⟨o.heap.write (o.str.data o.str.length) new, o.str⟩ o') : Timed text o o' := by
  obtain ⟨hkept, hresult⟩ := ht
  rw [contents_write_end hin] at hkept hresult
  exact ⟨hkept, hresult⟩

/-- The text written behind the contents, and the new length. -/
theorem Timed.of_write (hroom : o.str.length + (cells (text ++ [0])).length ≤ o.room)
    (hcap : o.str.length + text.length < o.str.capacity) :
    Timed text o ⟨o.heap.write (o.str.data o.str.length) (cells (text ++ [0])),
      o.str.setLength (o.str.length + text.length)⟩ := by
  have hlen : ((o.heap.cellsAt o.str.buf).take o.str.length).length = o.str.length := by
    have hin : o.str.length + (cells (text ++ [0])).length ≤ (o.heap.cellsAt o.str.buf).length :=
      hroom
    rw [List.length_take]
    omega
  have hcells : (o.heap.write (o.str.data o.str.length) (cells (text ++ [0]))).cellsAt o.str.buf =
      o.contents ++ (cells text ++ (some 0 ::
        (o.heap.cellsAt o.str.buf).drop (o.str.length + (cells (text ++ [0])).length))) := by
    rw [cellsAt_write hroom, Heap.splice]
    simp [cells, Object.contents]
  have hcontents : o.contents.length = o.str.length := hlen
  refine ⟨?_, Or.inl ⟨?_, Or.inr hcap⟩⟩
  · simp only [GString.buf_setLength]
    rw [hcells]
    exact List.take_left' hcontents
  · rw [Object.contents]
    simp only [GString.buf_setLength, GString.length_setLength]
    rw [hcells, ← List.append_assoc]
    refine List.take_append_of_le_length ?_
    rw [List.length_append, hcontents, length_cells]
    exact Nat.mod_le _ _

/-- Without a text there is nothing to write. -/
theorem Timed.of_guard {new : List Cell} (hv : Valid o)
    (hin : o.str.length + new.length ≤ o.room) (h1024 : 1024 < o.str.capacity - o.str.length)
    (hfits : text.length + 1 ≤ o.str.capacity - o.str.length → text.length = 0)
    (hlen : o.str.length < 2 ^ 24) :
    Timed text o ⟨o.heap.write (o.str.data o.str.length) new, o.str⟩ := by
  have hsame := contents_write_end hin
  refine ⟨hsame, ?_⟩
  by_cases hfit : text.length + 1 ≤ o.str.capacity - o.str.length
  · have htext : text = [] := List.eq_nil_of_length_eq_zero (hfits hfit)
    refine Or.inl ⟨?_, by rw [htext]; exact Or.inr (by simp only [List.length_nil]; omega)⟩
    rw [hsame, htext, List.length_nil, Nat.add_zero, Nat.mod_eq_of_lt hlen, cells, List.map_nil,
      List.append_nil, List.take_of_length_le]
    rw [length_contents hv]
  · exact Or.inr ⟨hsame, by omega, by omega⟩

/-! ## Rounds -/

/-- Enough rounds for a string: they double the room, of at least 8 bytes, beyond 1024. -/
structure EnoughRounds (fuel : ℕ) (o : Object) : Prop where
  pos : 0 < fuel
  small : o.str.capacity < o.str.length + 8 → 10 ≤ fuel
  large : o.str.length + 8 ≤ o.str.capacity →
    1024 < (o.str.capacity - o.str.length) * 2 ^ (fuel - 1)

theorem EnoughRounds.of_small {fuel : ℕ} (h : EnoughRounds (fuel + 1) o)
    (hleft : o.str.capacity < o.str.length + 8) (hg : Grown (o.str.length + 8) o o') :
    EnoughRounds fuel o' := by
  have hcap := hg.capacity
  have hfuel := h.small hleft
  refine ⟨by omega, fun hless => ?_, fun _ => ?_⟩
  · rw [hg.length] at hless
    omega
  · have h8 : 8 * 2 ^ 8 ≤ (o'.str.capacity - o.str.length) * 2 ^ (fuel - 1) :=
      Nat.mul_le_mul (by omega) (Nat.pow_le_pow_right (by decide) (by omega))
    rw [hg.length]
    omega

theorem EnoughRounds.of_doubled {fuel : ℕ} (h : EnoughRounds (fuel + 1) o)
    (hge : o.str.length + 8 ≤ o.str.capacity) (h1024 : o.str.capacity - o.str.length ≤ 1024)
    (hg : Grown (o.str.length + (o.str.capacity - o.str.length) * 2) o o') :
    EnoughRounds fuel o' := by
  have hcap := hg.capacity
  have hlength := hg.length
  have hdouble := h.large hge
  rw [Nat.add_sub_cancel] at hdouble
  cases fuel with
  | zero =>
    rw [pow_zero, Nat.mul_one] at hdouble
    omega
  | succ fuel =>
    refine ⟨Nat.succ_pos fuel, fun hless => by omega, fun _ => ?_⟩
    rw [pow_succ, mul_comm (2 ^ fuel), ← mul_assoc] at hdouble
    rw [Nat.add_sub_cancel, hlength]
    exact hdouble.trans_le (Nat.mul_le_mul_right _ (by omega))

/-- So many rounds, in a string for which they are enough. -/
def RoundsOk (text : List UInt8) (fuel : ℕ) : Prop :=
  ∀ o : Object, Valid o → o.str.length ≤ 2 ^ 23 → EnoughRounds fuel o →
    wp (GString.appendTime text fuel) (fun _ => Timed text o) (fun _ _ => False)
      (fun _ => False) o

/-- The string grows before the other rounds. -/
theorem RoundsOk.grown {fuel : ℕ} (hok : RoundsOk text fuel) (hv : Valid o)
    (hlen : o.str.length ≤ 2 ^ 23) (hn : n ≤ 2 ^ 24) (hle : o.str.length ≤ n)
    (hcap : o.str.capacity ≤ n) (henough : ∀ o', Grown n o o' → EnoughRounds fuel o') :
    wp (GString.reserve (UInt32.ofNat n))
      (fun _ => wp (GString.appendTime text fuel) (fun _ => Timed text o)
        (fun _ _ => False) (fun _ => False)) (fun _ _ => False) (fun _ => False) o := by
  have htoNat := UInt32.toNat_ofNat_of_le (n := n) (by omega)
  refine wp_mono (wp_reserve hv (ReserveOk.of_length_le (by omega) (by omega)))
    (fun _ o' hg => ?_) (fun _ _ h => ?_) fun _ h => h
  · rw [htoNat] at hg
    have hlength := hg.length
    exact wp_mono (hok o' hg.valid (by omega) (henough o' hg)) (fun _ _ ht => ht.of_grown hg hcap)
      (fun _ _ h => h) fun _ h => h
  · have hrefused := h.2.2.2
    omega

/-- The rounds double the room until the text fits or the guard ends them. -/
theorem roundsOk (text : List UInt8) (fuel : ℕ) : RoundsOk text fuel := by
  induction fuel with
  | zero => exact fun o _ _ henough => absurd henough.pos (Nat.lt_irrefl 0)
  | succ fuel ih =>
    intro o hv hlen henough
    have hpow : o.str.capacity ≤ 2 ^ 30 := Nat.pow_le_pow_right (by decide) hv.power_le
    simp only [GString.appendTime, str, wp_bind, wp_map, wp_get, wp_ite]
    refine ⟨fun hleft => ?_, fun hleft => ?_⟩
    -- too little room even to ask `strftime`
    · exact ih.grown hv hlen (by omega) (by omega) (by omega) fun o' hg =>
        henough.of_small (by omega) hg
    · have hge : o.str.length + 8 ≤ o.str.capacity := by omega
      have hroom := hv.capacity_le (by omega)
      have hleftNat : ((o.str.capacity : ℤ) - o.str.length).toNat =
          o.str.capacity - o.str.length := by omega
      rw [hleftNat]
      refine wp_mono (wp_strftime (by omega)) (fun got o₁ h => ?_) (fun _ _ h => h) fun _ h => h
      obtain ⟨new, hin, rfl, hfits, hnot⟩ := h
      refine ⟨fun hgot => (wp_when _ _).mpr ⟨fun h1024 => ?_, fun h1024 => ?_⟩, fun hgot => ?_⟩
      -- the text did not fit, or it is empty: ask again with twice the room
      · have hcap : o.str.capacity ≤ o.str.length + (o.str.capacity - o.str.length) * 2 := by omega
        have hle : o.str.length ≤ o.str.length + (o.str.capacity - o.str.length) * 2 := by omega
        have hsmall : o.str.capacity - o.str.length ≤ 1024 := by omega
        have hagain : EnoughRounds (fuel + 1)
            ⟨o.heap.write (o.str.data o.str.length) new, o.str⟩ :=
          ⟨henough.pos, henough.small, henough.large⟩
        refine (wp_bind _).mpr (wp_mono (ih.grown (hv.write hin) hlen (by omega) hle hcap
          fun o' hg => hagain.of_doubled hge hsmall hg) (fun _ o₂ ho => ?_) (fun _ _ h => h)
          fun _ h => h)
        exact wp_mono ho (fun _ _ ht => ht.of_write_end hin) (fun _ _ h => h) fun _ h => h
      -- the guard
      · exact Timed.of_guard hv hin (by omega) (fun hfit => (hfits hfit).1.symm.trans hgot)
          (by omega)
      · by_cases hfit : text.length + 1 ≤ o.str.capacity - o.str.length
        · obtain ⟨rfl, rfl⟩ := hfits hfit
          exact Timed.of_write hin (by omega)
        · exact absurd (hnot hfit) hgot

/-- A dozen rounds are enough for every string of at most `2 ^ 23` bytes. -/
theorem exists_timed (hv : Valid o) (hlen : o.str.length ≤ 2 ^ 23) (text : List UInt8) :
    ∃ o', GString.appendTime text 12 o = .ok () o' ∧ Timed text o o' := by
  have henough : EnoughRounds 12 o := by
    refine ⟨by decide, fun _ => by decide, fun h => ?_⟩
    have h8 : 8 * 2 ^ 11 ≤ (o.str.capacity - o.str.length) * 2 ^ (12 - 1) :=
      Nat.mul_le_mul (by omega) le_rfl
    omega
  obtain ⟨_, o', hx, ht⟩ := exists_ok_of_wp (roundsOk text 12 o hv hlen henough)
  exact ⟨o', hx, ht⟩

/-- A text that fits behind the contents, but not below the limit on the length, is cut. -/
theorem not_appendsTime_of_cut (hv : Valid o) (hlen : o.str.length ≤ 2 ^ 23)
    (hlimit : 2 ^ 24 ≤ o.str.length + text.length)
    (hfits : o.str.length + text.length < o.str.capacity) (hmod : text.length % 2 ^ 24 ≠ 0) :
    ¬ AppendsTime text o := by
  obtain ⟨o', hx, ht⟩ := exists_timed hv hlen text
  have hlength : o'.contents.length = (o.str.length + text.length) % 2 ^ 24 := by
    rcases ht.result with ⟨hc, -⟩ | ⟨-, -, hroom⟩
    · rw [hc, List.length_take, List.length_append, length_contents hv, length_cells]
      exact min_eq_left (Nat.mod_le _ _)
    · omega
  intro hall
  simp only [AppendsTime, wp, hx] at hall
  rcases hall.2 with hc | ⟨-, hc⟩
  · rw [hc, List.length_append, length_contents hv, length_cells] at hlength
    omega
  · rw [hc, length_contents hv] at hlength
    omega

/-- The text is appended, or it is long and nothing is appended, exactly when the end of the text
is below the limit on the length or not below the capacity, or when the limit divides the length of
the text. -/
theorem appendsTime_iff (hv : Valid o) (hlen : o.str.length ≤ 2 ^ 23) (text : List UInt8) :
    AppendsTime text o ↔ o.str.length + text.length < 2 ^ 24 ∨
      o.str.capacity ≤ o.str.length + text.length ∨ text.length % 2 ^ 24 = 0 := by
  constructor
  · intro hall
    by_contra hnot
    rw [not_or, not_or, not_lt, not_le] at hnot
    exact not_appendsTime_of_cut hv hlen hnot.1 hnot.2.1 hnot.2.2 hall
  · intro hcond
    obtain ⟨o', hx, ht⟩ := exists_timed hv hlen text
    simp only [AppendsTime, wp, hx]
    refine ⟨ht.kept, ?_⟩
    rcases ht.result with ⟨hc, hfits⟩ | ⟨hc, hlong, -⟩
    · rw [hc]
      by_cases hlimit : o.str.length + text.length < 2 ^ 24
      · rw [Nat.mod_eq_of_lt hlimit, List.take_of_length_le]
        · exact Or.inl rfl
        · rw [List.length_append, length_contents hv, length_cells]
      · -- a multiple of the limit leaves the length as it was
        have hmod : (o.str.length + text.length) % 2 ^ 24 = o.str.length := by omega
        rw [hmod]
        exact Or.inr ⟨by omega, List.take_left' (length_contents hv)⟩
    · exact Or.inr ⟨hlong, hc⟩

end Time

/-- A time of two characters is appended to an empty string. -/
theorem appendsTime_empty : AppendsTime [49, 50] ⟨⟨[], 0, []⟩, .empty⟩ := by
  obtain ⟨hv, -⟩ := valid_empty (h := ⟨[], 0, []⟩) rfl
  exact (appendsTime_iff hv (by decide) [49, 50]).mpr (Or.inl (by decide))

/-- In a buffer of `2 ^ 25` bytes, of a text of `2 ^ 24 + 1` bytes one byte is left. -/
theorem time_cut :
    ∃ (h : Heap) (s : GString) (text : List UInt8),
      GString.ofBuffer (2 ^ 25) (some ⟨0, 0⟩) false 0 false h = .ok s h ∧ Valid ⟨h, s⟩ ∧
      s.length = 0 ∧ text.length = 2 ^ 24 + 1 ∧ ¬ AppendsTime text ⟨h, s⟩ := by
  obtain ⟨text, htext⟩ : ∃ text : List UInt8, text.length = 2 ^ 24 + 1 :=
    ⟨List.replicate (2 ^ 24 + 1) 0, List.length_replicate⟩
  obtain ⟨h, hoom, hroom⟩ : ∃ h : Heap, h.oom = [] ∧ h.room (some ⟨0, 0⟩) = 2 ^ 25 :=
    ⟨⟨[⟨List.replicate (2 ^ 25) none, .foreign, true⟩], 0, []⟩, rfl, List.length_replicate⟩
  -- a buffer of 32 MiB has room for more bytes than a length can count
  have hsize : ((2 ^ 25 : UInt32)).toNat = 2 ^ 25 := rfl
  have hlog : Nat.log 2 (2 ^ 25) = 25 := Nat.log_pow (by decide) 25
  have hbuffer := GString.ofBuffer_eq (σ := Heap) (2 ^ 25) (some ⟨0, 0⟩) false 0 false
  rw [if_pos (by decide), hsize, hlog] at hbuffer
  have hv : Valid ⟨h, ⟨Meta.pack false false 25 0, some ⟨0, 0⟩⟩⟩ :=
    valid_pack hoom (by decide) (by omega) (fun _ => ⟨hroom.ge, by decide⟩) nofun
  have hlen : GString.length ⟨Meta.pack false false 25 0, some ⟨0, 0⟩⟩ = 0 := by
    rw [GString.length_mk_pack]
    rfl
  have hcap : GString.capacity ⟨Meta.pack false false 25 0, some ⟨0, 0⟩⟩ = 2 ^ 25 := by
    rw [GString.capacity, GString.power_mk_pack false false 0 _ (by decide)]
  refine ⟨h, _, text, congrFun hbuffer h, hv, hlen, htext, ?_⟩
  -- the text fits the first time, and its length is cut to 24 bits
  apply not_appendsTime_of_cut hv
  · exact hlen.trans_le (Nat.zero_le _)
  · rw [hlen, htext]
    omega
  · rw [hlen, htext, hcap]
    omega
  · rw [htext]
    omega

end Glim
