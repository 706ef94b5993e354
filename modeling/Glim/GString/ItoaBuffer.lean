import Glim.GString.Operations
import Glim.Machine.Buffer
import Glim.Text.Strtol

/-!
# `itoa` in its buffer

The loops of `itoa` over memory: the digits are written one after another, least significant
first, then the sign and the terminator, and then the characters are swapped from both ends. What
is left in the buffer is the text of the number, and nothing else is written.

## Main definitions

* `writeDigits`, `reverseChars`: the two loops
* `itoaAt`: `itoa` over memory

## Main results

* `reverseChars_apply`: swapping from both ends reverses
* `itoaAt_apply`: `itoa` writes the characters of its result and a terminator
* `itoaAt_radix`: the characters are the text of the number, and can be read back
-/

namespace Glim

open Machine Exec Method Text

/-- A character of the table, which has 71 of them. -/
def digitAt (i : ℤ) : Exec Heap UInt8 :=
  if 0 ≤ i ∧ i < digitTable.length then pure (digitTable.getD i.toNat 0) else fail .outOfBounds

/-- The `do`-`while` loop, with `ptr` at the offset `i`: its last offset and `tmp_value`. -/
def writeDigits (p : Option Ptr) (base : ℤ) : ℕ → ℕ → ℤ → Exec Heap (ℕ × ℤ)
  | 0, _, _ => fail .diverges
  | fuel + 1, i, tmp => do
    let value := tmp.tdiv base
    let ch ← digitAt (digitIndex tmp value base)
    Heap.store (Ptr.shift p i) (cells [ch])
    if value = 0 then pure (i + 1, tmp) else writeDigits p base fuel (i + 1) value

/-- `while (ptr1 < ptr) ..`, with `ptr1` at the offset `i` and `ptr` at the offset `j`. -/
def reverseChars (p : Option Ptr) : ℕ → ℕ → ℕ → Exec Heap Unit
  | 0, _, _ => fail .diverges
  | fuel + 1, i, j =>
    if i < j then do
      let tmp ← Heap.loadByte (Ptr.shift p j)
      let first ← Heap.loadByte (Ptr.shift p i)
      Heap.store (Ptr.shift p j) (cells [first])
      Heap.store (Ptr.shift p i) (cells [tmp])
      reverseChars p fuel (i + 1) (j - 1)
    else pure ()

/-- `itoa (ptr, value, base)`: the pointer to the end of the string. An `int64_t` has at most 64
digits, which are swapped in at most 33 rounds. -/
def itoaAt (p : Option Ptr) (value : Int64) (base : ℤ) : Exec Heap (Option Ptr) :=
  if base < 2 ∨ base > 36 then do
    Heap.store p (cells [0])
    pure p
  else do
    let written ← writeDigits p base 64 0 value.toInt
    when (written.2 < 0) (Heap.store (Ptr.shift p written.1) (cells [minus]))
    let last := if written.2 < 0 then written.1 + 1 else written.1
    Heap.store (Ptr.shift p last) (cells [0])
    reverseChars p 34 0 (last - 1)
    pure (Ptr.shift p last)

section Buffer

variable {h : Heap} {p : Option Ptr} {b : ℕ}

/-! ## Bytes in the buffer -/

section Bytes

variable (pre post w : List UInt8) (old c : UInt8)

theorem store_byte_cons (hroom : (pre ++ old :: post).length ≤ h.room p) :
    Heap.store (Ptr.shift p pre.length) (cells [c]) (h.write p (cells (pre ++ old :: post))) =
      .ok () (h.write p (cells (pre ++ c :: post))) := by
  have hcells : (cells pre ++ some old :: cells post).length ≤ h.room p := by
    simpa [cells] using hroom
  have hstore := Heap.store_cons (cells pre) (cells post) (some old) (some c) hcells
  simpa only [cells, List.map_append, List.map_cons, List.length_map, List.map_nil] using hstore

theorem store_byte_end (hroom : w.length + 1 ≤ h.room p) :
    Heap.store (Ptr.shift p w.length) (cells [c]) (h.write p (cells w)) =
      .ok () (h.write p (cells (w ++ [c]))) := by
  have hcells : (cells w ++ cells [c]).length ≤ h.room p := by
    simpa [cells] using hroom
  have hstore := Heap.store_append (cells w) (cells [c]) hcells
  simpa only [cells, List.map_append, List.length_map] using hstore

theorem loadByte_text (hroom : (pre ++ c :: post).length ≤ h.room p) :
    Heap.loadByte (Ptr.shift p pre.length) (h.write p (cells (pre ++ c :: post))) =
      .ok c (h.write p (cells (pre ++ c :: post))) := by
  have hcells : (cells pre ++ some c :: cells post).length ≤ h.room p := by
    simpa [cells] using hroom
  have hload := Heap.loadByte_cons (cells pre) (cells post) c hcells
  simpa only [cells, List.map_append, List.map_cons, List.length_map] using hload

end Bytes

/-! ## The loops -/

/-- The table is never left. -/
theorem digitIndex_mem (hb : 1 < b) (hb' : b ≤ 36) (v : ℤ) :
    0 ≤ digitIndex v (v.tdiv b) b ∧ digitIndex v (v.tdiv b) b < 71 := by
  have hlt := natAbs_tmod_lt hb v
  rw [digitIndex_tdiv]
  omega

theorem digitAt_digitIndex (hb : 1 < b) (hb' : b ≤ 36) (v : ℤ) :
    digitAt (digitIndex v (v.tdiv b) b) =
      pure (digitTable.getD (digitIndex v (v.tdiv b) b).toNat 0) :=
  if_pos (digitIndex_mem hb hb' v)

/-- The loop writes the digits behind what is there. -/
theorem writeDigits_apply (hb : 1 < b) (hb' : b ≤ 36) :
    ∀ (fuel : ℕ) (v : ℤ) (w : List UInt8), v.natAbs < b ^ fuel → 0 < fuel →
      w.length + (itoaLoop b fuel v).1.length ≤ h.room p →
      writeDigits p b fuel w.length v (h.write p (cells w)) =
        .ok (w.length + (itoaLoop b fuel v).1.length, (itoaLoop b fuel v).2)
          (h.write p (cells (w ++ (itoaLoop b fuel v).1)))
  | 0, _, _, _, hfuel, _ => absurd hfuel (Nat.lt_irrefl 0)
  | fuel + 1, v, w, hv, _, hroom => by
    have hlookup := digitAt_digitIndex hb hb' v
    simp only [itoaLoop] at hroom ⊢
    generalize digitTable.getD (digitIndex v (v.tdiv b) b).toNat 0 = ch at hroom hlookup ⊢
    simp only [writeDigits, hlookup, pure_bind]
    -- the digit is the last one, or the quotient has the others
    by_cases h0 : v.tdiv b = 0
    · simp only [h0, if_true] at hroom ⊢
      simp only [bind, store_byte_end w ch hroom]
      rfl
    · simp only [h0, if_false] at hroom ⊢
      have hq : (v.tdiv b).natAbs = v.natAbs / b := by rw [Int.natAbs_tdiv]; rfl
      have hfuel : 0 < fuel := by
        rcases Nat.eq_zero_or_pos fuel with rfl | hf
        · rw [pow_one] at hv
          exact absurd (Int.natAbs_eq_zero.mp (by rw [hq, Nat.div_eq_of_lt hv])) h0
        · exact hf
      -- the quotient is smaller by a digit, and so is the fuel
      have hlt : (v.tdiv b).natAbs < b ^ fuel := by
        rw [hq]
        exact Nat.div_lt_of_lt_mul (by rwa [pow_succ, mul_comm] at hv)
      rw [List.length_cons] at hroom
      have hrest := writeDigits_apply hb hb' fuel (v.tdiv b) (w ++ [ch]) hlt hfuel
        (by rw [List.length_append, List.length_singleton]; omega)
      rw [List.length_append, List.length_singleton] at hrest
      simp only [bind, store_byte_end w ch (show w.length + 1 ≤ h.room p by omega), hrest]
      rw [List.append_assoc, List.singleton_append, List.length_cons]
      congr 2
      omega

/-- Swapping from both ends reverses what is between them. -/
theorem reverseChars_apply (mid : List UInt8) : ∀ (fuel : ℕ) (pre post : List UInt8),
    mid.length < 2 * fuel → (pre ++ mid ++ post).length ≤ h.room p →
    reverseChars p fuel pre.length (pre.length + mid.length - 1)
      (h.write p (cells (pre ++ mid ++ post))) =
        .ok () (h.write p (cells (pre ++ mid.reverse ++ post))) := by
  induction mid using List.bidirectionalRec with
  | nil =>
    intro fuel pre post hfuel _
    obtain ⟨fuel, rfl⟩ : ∃ k, fuel = k + 1 := ⟨fuel - 1, by omega⟩
    rw [reverseChars, if_neg (by rw [List.length_nil]; omega)]
    rfl
  | singleton a =>
    intro fuel pre post hfuel _
    obtain ⟨fuel, rfl⟩ : ∃ k, fuel = k + 1 := ⟨fuel - 1, by omega⟩
    rw [reverseChars, if_neg (by rw [List.length_singleton]; omega)]
    rfl
  | cons_append a mid z ih =>
    intro fuel pre post hfuel hroom
    simp only [List.length_append, List.length_cons, List.length_nil] at hfuel hroom
    obtain ⟨fuel, rfl⟩ : ∃ k, fuel = k + 1 := ⟨fuel - 1, by omega⟩
    have hj : pre.length + (a :: (mid ++ [z])).length - 1 = (pre ++ a :: mid).length := by
      simp only [List.length_append, List.length_cons, List.length_nil]
      omega
    -- the text, cut before its last and before its first character
    have hcut : ∀ x y : UInt8,
        pre ++ x :: (mid ++ [y]) ++ post = (pre ++ x :: mid) ++ y :: post := by
      intro x y
      simp
    have hlen : ∀ x y : UInt8, ((pre ++ x :: mid) ++ y :: post).length ≤ h.room p := by
      intro x y
      simp only [List.length_append, List.length_cons]
      omega
    have hfirst : ∀ x y : UInt8,
        (pre ++ x :: mid) ++ y :: post = pre ++ x :: (mid ++ y :: post) := by
      intro x y
      simp
    have hz := loadByte_text (pre ++ a :: mid) post z (hlen a z)
    have ha := loadByte_text pre (mid ++ z :: post) a (by rw [← hfirst]; exact hlen a z)
    have hstorez := store_byte_cons (pre ++ a :: mid) post z a (hlen a z)
    have hstorea := store_byte_cons pre (mid ++ a :: post) a z (by rw [← hfirst]; exact hlen a a)
    have hrest := ih fuel (pre ++ [z]) (a :: post) (by omega)
      (by simp only [List.length_append, List.length_cons, List.length_nil]; omega)
    rw [← hfirst] at ha hstorea
    have hback : pre ++ [z] ++ mid ++ a :: post = pre ++ z :: (mid ++ a :: post) := by simp
    have hi : (pre ++ [z]).length = pre.length + 1 := List.length_append
    have hj' : (pre ++ [z]).length + mid.length - 1 = (pre ++ a :: mid).length - 1 := by
      simp only [List.length_append, List.length_cons, List.length_nil]
      omega
    rw [hback, hj', hi] at hrest
    rw [hj, reverseChars, if_pos (by simp only [List.length_append, List.length_cons]; omega), hcut]
    simp only [bind, hz, ha, hstorez, hstorea, hrest]
    simp

/-! ## The whole function -/

theorem natAbs_toInt_le (v : Int64) : v.toInt.natAbs ≤ 2 ^ 63 := by
  have hle := v.le_toInt
  have hlt := v.toInt_lt
  omega

/-- A number of 64 bits has a sign and at most 64 digits. -/
theorem length_itoa_le (hb : 1 < b) (hb' : b ≤ 36) (v : Int64) :
    (itoa v.toInt b).length ≤ 65 := by
  have habs := natAbs_toInt_le v
  have hpow : 2 ^ 64 ≤ b ^ 64 := Nat.pow_le_pow_left hb 64
  rw [itoa_eq_signedRadix hb hb' (by omega)]
  exact length_signedRadix_le hb (by decide) (by omega)

/-- `itoa` writes the characters of its result and a terminator, and returns a pointer to it. -/
theorem itoaAt_apply (hb : 1 < b) (hb' : b ≤ 36) (v : Int64)
    (hroom : (itoa v.toInt b).length + 1 ≤ h.room p) :
    itoaAt p v b h = .ok (Ptr.shift p (itoa v.toInt b).length)
      (h.write p (cells (itoa v.toInt b ++ [0]))) := by
  have hbase : ¬ ((b : ℤ) < 2 ∨ (b : ℤ) > 36) := by omega
  have hsmall := length_itoa_le hb hb' v
  have hpow : v.toInt.natAbs < b ^ 64 := by
    have habs := natAbs_toInt_le v
    have hle : 2 ^ 64 ≤ b ^ 64 := Nat.pow_le_pow_left hb 64
    omega
  simp only [itoa, hbase, if_false, List.length_reverse] at hroom hsmall ⊢
  have hdigits := writeDigits_apply (h := h) (p := p) hb hb' 64 v.toInt [] hpow (by decide)
  rw [show cells [] = [] from rfl, Heap.write_nil, List.nil_append, List.length_nil,
    Nat.zero_add] at hdigits
  generalize itoaLoop b 64 v.toInt = written at hroom hsmall hdigits ⊢
  obtain ⟨chars, last⟩ := written
  -- what is written before the terminator
  generalize hfull : (if last < 0 then chars ++ [minus] else chars) = full at hroom hsmall ⊢
  have hchars : chars.length ≤ full.length := by
    rw [← hfull]
    split_ifs
    · rw [List.length_append]
      exact Nat.le_add_right _ _
    · exact Nat.le_refl _
  have hsign : Exec.when (last < 0) (Heap.store (Ptr.shift p chars.length) (cells [minus]))
      (h.write p (cells chars)) = .ok () (h.write p (cells full)) := by
    rw [← hfull] at hroom ⊢
    by_cases hneg : last < 0
    · simp only [hneg, if_true, List.length_append, List.length_singleton] at hroom ⊢
      rw [Exec.when, if_pos trivial]
      exact store_byte_end _ _ (by omega)
    · simp only [hneg, if_false]
      rfl
  have hlast : (if last < 0 then chars.length + 1 else chars.length) = full.length := by
    rw [← hfull]
    split_ifs
    · rw [List.length_append, List.length_singleton]
    · rfl
  have hend := store_byte_end full 0 hroom
  have hswap := reverseChars_apply (h := h) (p := p) full 34 [] [0] (by omega)
    (by rw [List.nil_append, List.length_append]; exact hroom)
  rw [List.nil_append, List.length_nil, Nat.zero_add, List.nil_append] at hswap
  rw [itoaAt, if_neg hbase]
  simp only [bind, hdigits (by simp only; omega), hsign, hlast, hend, hswap]
  rfl

/-- The digits are written without leaving the room. -/
theorem wp_writeDigits (hb : 1 < b) (hb' : b ≤ 36) : ∀ (fuel i : ℕ) (v : ℤ) (h : Heap),
    wp (writeDigits p b fuel i v)
      (fun r h' => r = (i + (itoaLoop b fuel v).1.length, (itoaLoop b fuel v).2) ∧
        h'.room p = h.room p)
      (fun _ _ => True) (fun _ => True) h
  | 0, _, _, _ => trivial
  | fuel + 1, i, v, h => by
    have hlookup := digitAt_digitIndex hb hb' v
    simp only [writeDigits, itoaLoop, hlookup, pure_bind, wp_bind]
    refine Heap.wp_store_of_any (fun _ => trivial) fun hroom => (wp_ite _ _).mpr ⟨fun h0 => ?_,
      fun h0 => ?_⟩
    · rw [if_pos h0]
      exact ⟨rfl, Heap.room_write hroom p⟩
    · rw [if_neg h0]
      refine wp_mono (wp_writeDigits hb hb' fuel (i + 1) (v.tdiv b) _) (fun r h' hr => ⟨?_, ?_⟩)
        (fun _ _ h => h) fun _ h => h
      · rw [hr.1, List.length_cons]
        congr 1
        omega
      · rw [hr.2, Heap.room_write hroom]

/-- Without the room for the text and the terminator, `itoa` writes outside it. -/
theorem room_of_itoaAt (hb : 1 < b) (hb' : b ≤ 36) {v : Int64} {q : Option Ptr} {h' : Heap}
    (hrun : itoaAt p v b h = .ok q h') : (itoa v.toInt b).length + 1 ≤ h.room p := by
  have hbase : ¬ ((b : ℤ) < 2 ∨ (b : ℤ) > 36) := by omega
  have hlen : (itoa v.toInt b).length = if (itoaLoop b 64 v.toInt).2 < 0 then
      (itoaLoop b 64 v.toInt).1.length + 1 else (itoaLoop b 64 v.toInt).1.length := by
    simp only [itoa, hbase, if_false, List.length_reverse]
    split_ifs
    · rw [List.length_append, List.length_singleton]
    · rfl
  have hwp : wp (itoaAt p v b) (fun _ _ => (itoa v.toInt b).length + 1 ≤ h.room p)
      (fun _ _ => True) (fun _ => True) h := by
    simp only [itoaAt, hbase, if_false, wp_bind]
    refine wp_mono (wp_writeDigits hb hb' 64 0 v.toInt h) (fun r h₁ hr => ?_) (fun _ _ h => h)
      fun _ h => h
    obtain ⟨rfl, hroom₁⟩ := hr
    simp only [Nat.zero_add]
    -- the sign is written inside the room, so the room is the same
    have hsign : wp (when ((itoaLoop b 64 v.toInt).2 < 0)
        (Heap.store (Ptr.shift p (itoaLoop b 64 v.toInt).1.length) (cells [minus])))
        (fun _ h₂ => h₂.room p = h.room p) (fun _ _ => True) (fun _ => True) h₁ :=
      (wp_when _ _).mpr ⟨fun _ => Heap.wp_store_of_any (fun _ => trivial)
        fun hroom => (Heap.room_write hroom p).trans hroom₁, fun _ => hroom₁⟩
    refine wp_mono hsign (fun _ h₂ hroom₂ => ?_) (fun _ _ h => h) fun _ h => h
    rw [← hlen]
    refine Heap.wp_store_of_any (fun _ => trivial) fun hend => ?_
    rw [Heap.room_shift, hroom₂] at hend
    have hfits : (itoa v.toInt b).length + 1 ≤ h.room p := by
      have hone : (cells [0]).length = 1 := rfl
      omega
    exact wp_of_forall fun _ _ => hfits
  simpa only [wp, hrun] using hwp

/-- `itoa` is a radix conversion: it writes a minus sign for a negative number, its digits without
leading zeros and a terminator, and the text stands for the number. -/
theorem itoaAt_radix (hb : 2 ≤ b) (hb' : b ≤ 36) (v : Int64)
    (hroom : (signedRadix b v.toInt).length + 1 ≤ h.room p) :
    itoaAt p v b h = .ok (Ptr.shift p (signedRadix b v.toInt).length)
        (h.write p (cells (signedRadix b v.toInt ++ [0]))) ∧
      ((radix b v.toInt.natAbs).head? = some 48 → v.toInt.natAbs = 0) ∧
      strtol b (signedRadix b v.toInt ++ [0]) =
        some (v.toInt, (signedRadix b v.toInt).length) := by
  have habs := natAbs_toInt_le v
  have htext := itoa_eq_signedRadix (b := b) hb hb' (v := v.toInt) (by omega)
  rw [← htext] at hroom
  have hrun := itoaAt_apply hb hb' v hroom
  rw [htext] at hrun
  exact ⟨hrun, radix_head hb hb', strtol_signedRadix hb hb' v.le_toInt v.toInt_lt⟩

end Buffer

/-- A block of 66 unwritten bytes. -/
def digitsHeap : Heap := ⟨[⟨List.replicate 66 none, .foreign, true⟩], 0, []⟩

/-- The widest text: the least number in base 2. -/
theorem itoaAt_radix_minValue :
    ∃ h, itoaAt (some ⟨0, 0⟩) Int64.minValue 2 digitsHeap = .ok (some ⟨0, 65⟩) h ∧
      h.cellsAt (some ⟨0, 0⟩) = cells (minus :: 49 :: List.replicate 63 48 ++ [0]) := by
  have htext : signedRadix 2 Int64.minValue.toInt = minus :: 49 :: List.replicate 63 48 := by
    rw [← itoa_eq_signedRadix (b := 2) (by decide) (by decide) (by decide)]
    decide
  have hrun := (itoaAt_radix (h := digitsHeap) (p := some ⟨0, 0⟩) (b := 2) (by decide) (by decide)
    Int64.minValue (by rw [htext]; decide)).1
  rw [htext] at hrun
  exact ⟨_, hrun, by decide⟩

end Glim
