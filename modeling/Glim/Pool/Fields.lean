import Glim.Pool.Format
import Glim.Machine.Run
import Mathlib.Data.Option.Basic

/-!
# What serializing a pool stores

The changes of a pool are a patch of its fields: every call of `set` sets one field of it.
Serializing writes the fields below a given number, patched.

## Main definitions

* `Impl.patch`: the changes as a patch
* `lastSet`, `setPatch`: what a sequence of calls of `set` leaves in a field
* `Made`: a pool after a sequence of calls of `set`
* `Impl.fields`: the fields below a number, patched

## Main results

* `setAll_eq`: the patch after a sequence of calls of `set`
* `write_eq_encode`: what serializing writes
-/

namespace Glim.Pool

open Machine Exec Text Table

/-! ## The changes as a patch -/

/-- What a sequence of calls of `set` leaves in a field, if it sets it. -/
def lastSet (sets : List (UInt32 × List UInt8)) (num : UInt32) : Option (List UInt8) :=
  ((sets.filter fun s => s.1 = num).map Prod.snd).getLast?

/-- One more than the highest number that was set. -/
def setEnd (sets : List (UInt32 × List UInt8)) : ℕ :=
  (sets.map fun s => s.1.toNat + 1).foldr max 0

/-- What a sequence of calls of `set` leaves, as a patch. -/
def setPatch (sets : List (UInt32 × List UInt8)) : Patch (List UInt8) :=
  (List.range (setEnd sets)).map fun n => lastSet sets (UInt32.ofNat n)

/-- The changes as a patch. -/
def Impl.patch (impl : Impl) : Patch (List UInt8) :=
  (List.range impl.changed.length).map fun n => if impl.isChanged n then impl.changes[n]? else none

/-- The pool was made from `pool` by the calls `sets`. -/
structure Made (pool : List UInt8) (sets : List (UInt32 × List UInt8)) (impl : Impl) : Prop where
  pool : impl.pool = pool
  readOnly : impl.readOnly = false
  length_eq : impl.changes.length = impl.changed.length
  end_eq : impl.changed.length = setEnd sets
  end_lt : setEnd sets < 2 ^ 32
  field : ∀ num : UInt32, impl.patch.field num.toNat = lastSet sets num

section Patch

variable {impl : Impl} {pool : List UInt8} {sets : List (UInt32 × List UInt8)} {n m size : ℕ}
  {num : UInt32} {value : List UInt8}

theorem length_patch : impl.patch.length = impl.changed.length := by
  rw [Impl.patch, List.length_map, List.length_range]

theorem isChanged_eq_false (hn : impl.changed.length ≤ n) : impl.isChanged n = false :=
  List.getD_eq_default _ _ hn

theorem field_patch :
    impl.patch.field n = if impl.isChanged n then impl.changes[n]? else none := by
  by_cases hn : n < impl.changed.length
  · rw [Patch.field, Impl.patch, List.getElem?_map, List.getElem?_range hn]
    rfl
  · rw [Patch.field_eq_none_of_le (by rw [length_patch]; omega), isChanged_eq_false (by omega)]
    rfl

theorem length_resize {α : Type} {d : α} {l : List α} : (resize size d l).length = size := by
  simp only [resize, List.length_append, List.length_take, List.length_replicate]
  omega

/-- A vector that was resized to hold one element more. -/
def grown {α : Type} (d : α) (l : List α) (n : ℕ) : List α :=
  if l.length ≤ n then resize (n + 1) d l else l

theorem length_grown {α : Type} {d : α} {l : List α} :
    (grown d l n).length = max l.length (n + 1) := by
  rw [grown]
  split_ifs with h
  · rw [length_resize]
    omega
  · omega

theorem getElem?_grown {α : Type} {d : α} {l : List α} (hm : m < l.length) :
    (grown d l n)[m]? = l[m]? := by
  rw [grown]
  split_ifs with h
  · rw [resize, List.take_of_length_le (by omega), List.getElem?_append_left hm]
  · rfl

theorem getD_grown {α : Type} {d : α} {l : List α} : (grown d l n).getD m d = l.getD m d := by
  by_cases hm : m < l.length
  · rw [List.getD_eq_getElem?_getD, getElem?_grown hm, List.getD_eq_getElem?_getD]
  · rw [List.getD_eq_default l d (by omega), grown]
    split_ifs with h
    · rw [resize, List.take_of_length_le (by omega), List.getD_append_right _ _ _ _ (by omega)]
      rw [List.getD_eq_getElem?_getD, List.getElem?_replicate]
      split <;> rfl
    · exact List.getD_eq_default _ _ (by omega)

theorem setEnd_append_singleton :
    setEnd (sets ++ [(num, value)]) = max (setEnd sets) (num.toNat + 1) := by
  rw [setEnd, setEnd, List.map_append, List.foldr_append]
  generalize sets.map (fun s => s.1.toNat + 1) = ends
  simp only [List.map_cons, List.map_nil, List.foldr_cons, List.foldr_nil]
  induction ends with
  | nil => simp
  | cons e es ih => rw [List.foldr_cons, ih, List.foldr_cons, Nat.max_assoc]

/-- The numbers that are set lie below the end. -/
theorem lt_setEnd {s : UInt32 × List UInt8} (hs : s ∈ sets) : s.1.toNat < setEnd sets := by
  induction sets with
  | nil => cases hs
  | cons t ts ih =>
    have hcons : setEnd (t :: ts) = max (t.1.toNat + 1) (setEnd ts) := rfl
    rcases List.mem_cons.mp hs with rfl | hs
    · omega
    · have hlt := ih hs
      omega

theorem length_setPatch : (setPatch sets).length = setEnd sets := by
  rw [setPatch, List.length_map, List.length_range]

theorem lastSet_append_singleton : lastSet (sets ++ [(num, value)]) num = some value := by
  simp [lastSet]

theorem lastSet_append_singleton_of_ne {num' : UInt32} (h : num ≠ num') :
    lastSet (sets ++ [(num, value)]) num' = lastSet sets num' := by
  simp [lastSet, h]

/-- The vectors after a call of `set`. -/
theorem Made.set (value : List UInt8) (hm : Made pool sets impl) (hnum : num.toNat + 1 < 2 ^ 32) :
    Made pool (sets ++ [(num, value)]) { impl with
      changed := (grown false impl.changed num.toNat).set num.toNat true
      changes := (grown [] impl.changes num.toNat).set num.toNat value } := by
  have hlen := hm.end_lt
  refine ⟨hm.pool, hm.readOnly, ?_, ?_, ?_, fun num' => ?_⟩
  · rw [List.length_set, List.length_set, length_grown, length_grown, hm.length_eq]
  · rw [List.length_set, length_grown, hm.end_eq, setEnd_append_singleton]
  · rw [setEnd_append_singleton]
    omega
  -- both tables have grown up to the number
  · have hin : num.toNat < (grown false impl.changed num.toNat).length := by
      rw [length_grown]
      omega
    -- the number reads the new value
    by_cases heq : num = num'
    · subst heq
      have hchanged : ((grown false impl.changed num.toNat).set num.toNat true).getD num.toNat
          false = true := by
        rw [List.getD_eq_getElem?_getD, List.getElem?_set_self hin]
        rfl
      rw [field_patch, lastSet_append_singleton, Impl.isChanged, if_pos hchanged,
        List.getElem?_set_self (by rw [length_grown]; omega)]
    -- the other numbers read what they have read before
    · have hne : num.toNat ≠ num'.toNat := fun h => heq (UInt32.toNat_inj.mp h)
      have hchanged : ((grown false impl.changed num.toNat).set num.toNat true).getD num'.toNat
          false = impl.isChanged num'.toNat := by
        rw [List.getD_eq_getElem?_getD, List.getElem?_set_ne hne, ← List.getD_eq_getElem?_getD,
          getD_grown, Impl.isChanged]
      rw [lastSet_append_singleton_of_ne heq, ← hm.field, field_patch, field_patch]
      -- a field that was changed lies inside of the old tables
      by_cases hold : impl.isChanged num'.toNat = true
      · have hlt : num'.toNat < impl.changed.length := by
          by_contra hge
          rw [isChanged_eq_false (by omega)] at hold
          cases hold
        rw [if_pos hold]
        refine (if_pos (hchanged.trans hold)).trans ?_
        rw [List.getElem?_set_ne hne, getElem?_grown (by rw [hm.length_eq]; exact hlt)]
      · rw [if_neg hold]
        exact if_neg fun h => hold (hchanged.symm.trans h)

/-- `set` sets one field of the patch. -/
theorem set_eq (value : List UInt8) (hm : Made pool sets impl) (hnum : num.toNat + 1 < 2 ^ 32) :
    ∃ impl', Impl.set num value impl = .ok () impl' ∧ Made pool (sets ++ [(num, value)]) impl' := by
  have hsucc : (num + 1).toNat = num.toNat + 1 := by
    have hone : (1 : UInt32).toNat = 1 := rfl
    rw [UInt32.toNat_add, hone]
    exact Nat.mod_eq_of_lt hnum
  have hmade := hm.set value hnum
  have hwp : wp (Impl.set num value) (fun _ => Made pool (sets ++ [(num, value)]))
      (fun _ _ => False) (fun _ => False) impl := by
    simp only [Impl.set, wp_bind, wp_get, wp_when, wp_modify, wp_ite, wp_raise, wp_fail, hsucc]
    refine ⟨fun h => (by rw [hm.readOnly] at h; cases h), fun _ =>
      ⟨fun hgrow => ⟨fun _ => ?_, fun hin => hin ?_⟩,
        fun hgrow => ⟨fun _ => ?_, fun hin => hin ?_⟩⟩⟩
    · rw [grown, grown, if_pos hgrow, if_pos (by rw [hm.length_eq]; exact hgrow)] at hmade
      exact hmade
    · rw [length_resize]
      exact Nat.lt_succ_self _
    · rw [grown, grown, if_neg hgrow, if_neg (by rw [hm.length_eq]; exact hgrow)] at hmade
      exact hmade
    · omega
  obtain ⟨_, impl', hx, hm'⟩ := exists_ok_of_wp hwp
  exact ⟨impl', hx, hm'⟩

theorem made_ofBytes (pool : List UInt8) : Made pool [] (Impl.ofBytes pool) :=
  ⟨rfl, rfl, rfl, rfl, Nat.two_pow_pos 32, fun _ => rfl⟩

/-- The changes are the patch that the calls of `set` leave. -/
theorem Made.patch_eq (hm : Made pool sets impl) : impl.patch = setPatch sets := by
  refine List.ext_getElem (by rw [length_patch, length_setPatch, hm.end_eq]) fun n hn hn' => ?_
  have hsize : UInt32.size = 2 ^ 32 := rfl
  have hlt := hm.end_lt
  rw [length_setPatch] at hn'
  have hfield := hm.field (UInt32.ofNat n)
  rw [UInt32.toNat_ofNat_of_lt' (by omega), Patch.field, List.getElem?_eq_getElem hn] at hfield
  simp only [setPatch, List.getElem_map, List.getElem_range]
  exact hfield

/-- The highest number there is cannot be set: the vectors are resized to nothing. -/
theorem succ_lt_of_set {impl' : Impl} (hm : Made pool sets impl)
    (hx : Impl.set num value impl = .ok () impl') : num.toNat + 1 < 2 ^ 32 := by
  have hbound : num.toNat < 2 ^ 32 := UInt32.toNat_lt num
  by_contra hnum
  have hsucc : (num + 1).toNat = 0 := by
    have hone : (1 : UInt32).toNat = 1 := rfl
    rw [UInt32.toNat_add, hone]
    omega
  have hle : impl.changed.length ≤ num.toNat := by
    have hlt := hm.end_lt
    rw [hm.end_eq]
    omega
  have hwp : wp (Impl.set num value) (fun _ _ => False) (fun _ _ => True) (fun _ => True) impl := by
    simp only [Impl.set, wp_bind, wp_get, wp_when, wp_modify, wp_ite, wp_raise, wp_fail, hsucc]
    refine ⟨fun _ => trivial, fun _ => ⟨fun _ => ⟨fun hin => ?_, fun _ => trivial⟩, fun hgt => ?_⟩⟩
    · rw [length_resize] at hin
      exact Nat.not_lt_zero _ hin
    · exact absurd hle hgt
  rw [wp, hx] at hwp
  exact hwp

/-- The calls of `set` return, and leave a patch of the last values. -/
theorem setAll_eq (sets : List (UInt32 × List UInt8)) {done : List (UInt32 × List UInt8)}
    (hm : Made pool done impl) (hend : setEnd (done ++ sets) < 2 ^ 32) :
    ∃ impl', Impl.setAll sets impl = .ok () impl' ∧ Made pool (done ++ sets) impl' := by
  induction sets generalizing done impl with
  | nil => exact ⟨impl, rfl, by rwa [List.append_nil]⟩
  | cons s sets ih =>
    rw [List.append_cons] at hend
    have hnum : s.1.toNat < setEnd (done ++ [s] ++ sets) :=
      lt_setEnd (List.mem_append_left _ (List.mem_append_right _ (List.mem_singleton_self s)))
    have hsucc : s.1.toNat + 1 < 2 ^ 32 := by omega
    obtain ⟨impl₁, hx, hm₁⟩ := set_eq s.2 hm hsucc
    obtain ⟨impl', hx', hm'⟩ := ih hm₁ hend
    refine ⟨impl', ?_, by rwa [List.append_assoc] at hm'⟩
    simp only [Impl.setAll, bind, hx]
    exact hx'

/-- A pool that calls of `set` returned. -/
theorem made_of_setAll {done : List (UInt32 × List UInt8)} {impl' : Impl} (hm : Made pool done impl)
    (hx : Impl.setAll sets impl = .ok () impl') : Made pool (done ++ sets) impl' := by
  induction sets generalizing done impl with
  | nil =>
    cases hx
    rwa [List.append_nil]
  | cons s sets ih =>
    simp only [Impl.setAll, bind] at hx
    cases hset : Impl.set s.1 s.2 impl with
    | ok a impl₁ =>
      rw [hset] at hx
      obtain ⟨impl₂, hx₂, hm₂⟩ := set_eq s.2 hm (succ_lt_of_set hm hset)
      obtain ⟨rfl, rfl⟩ : a = () ∧ impl₁ = impl₂ := by
        rw [hset] at hx₂
        cases hx₂
        exact ⟨rfl, rfl⟩
      have hm' := ih hm₂ hx
      rwa [List.append_assoc] at hm'
    | throw e impl₁ =>
      rw [hset] at hx
      cases hx
    | fault u =>
      rw [hset] at hx
      cases hx

end Patch

/-! ## Writing -/

section Write

variable {impl : Impl} {pool oldPool : List UInt8} {sets : List (UInt32 × List UInt8)}
  {old : List (List UInt8)} {n m : ℕ}

/-- The first `size` fields, patched. -/
def Impl.fields (impl : Impl) (old : List (List UInt8)) (size : ℕ) : List (List UInt8) :=
  (List.range size).map fun n => (impl.patch.field n).getD (old.getD n [])

theorem length_fields : (impl.fields old m).length = m := by
  rw [Impl.fields, List.length_map, List.length_range]

theorem getElem_fields (hn : n < (impl.fields old m).length) :
    (impl.fields old m)[n] = (impl.patch.field n).getD (old.getD n []) := by
  simp only [Impl.fields, List.getElem_map, List.getElem_range]

/-- A field that is changed has its value among the changes. -/
theorem getElem?_changes (hl : impl.changes.length = impl.changed.length)
    (hc : impl.isChanged n = true) : ∃ v, impl.changes[n]? = some v := by
  have hlt : n < impl.changes.length := by
    by_contra hge
    rw [isChanged_eq_false (by omega)] at hc
    cases hc
  exact ⟨_, List.getElem?_eq_getElem hlt⟩

/-- The value that a round of the loop appends. -/
theorem value_eq (hl : impl.changes.length = impl.changed.length) (hold : Stores oldPool old)
    (hn : n + 1 < 2 ^ 29) :
    (if impl.isChanged n then impl.changes[n]? else original oldPool (UInt32.ofNat n)) =
      some ((impl.patch.field n).getD (old.getD n [])) := by
  have hsize : UInt32.size = 2 ^ 32 := rfl
  have hnum : (UInt32.ofNat n).toNat = n := UInt32.toNat_ofNat_of_lt' (by omega)
  rw [field_patch]
  split_ifs with hc
  · obtain ⟨v, hv⟩ := getElem?_changes hl hc
    rw [hv]
    rfl
  · rw [hold.eq, original_encode hold.short (by rw [hnum]; exact hn), hnum]
    rfl

/-- The new pool after `n` rounds of the loop: `n` fields, and `m - n` empty offsets. -/
def written (fields : List (List UInt8)) (n : ℕ) : List UInt8 :=
  word (UInt32.ofNat (valuesAt fields.length)) ++
    (offsets (valuesAt fields.length) (fields.take n)).flatMap word ++
    (List.replicate (fields.length - n) (0 : UInt32)).flatMap word ++ zeroTerminated (fields.take n)

theorem length_written {fields : List (List UInt8)} (hn : n ≤ fields.length) :
    (written fields n).length =
      valuesAt fields.length + (zeroTerminated (fields.take n)).length := by
  simp only [written, List.length_append, length_words, length_offsets, length_word,
    List.length_take, List.length_replicate, valuesAt]
  omega

/-- The offset of a field and the field itself, added to what was written before. -/
theorem written_succ {fields : List (List UInt8)} (hn : n < fields.length) :
    putWord (written fields n ++ fields[n] ++ [0]) (4 + 4 * n)
      (UInt32.ofNat (written fields n).length) = some (written fields (n + 1)) := by
  have htake : fields.take (n + 1) = fields.take n ++ [fields[n]] :=
    List.take_succ_eq_append_getElem hn
  obtain ⟨k, hk⟩ : ∃ k, fields.length - n = k + 1 := ⟨fields.length - n - 1, by omega⟩
  have hk' : fields.length - (n + 1) = k := by omega
  have hpre : 4 + 4 * n = (word (UInt32.ofNat (valuesAt fields.length)) ++
      (offsets (valuesAt fields.length) (fields.take n)).flatMap word).length := by
    rw [List.length_append, length_word, length_words, length_offsets, List.length_take,
      Nat.min_eq_left (Nat.le_of_lt hn)]
  -- the empty offset of the field, and what follows it
  have hsplit : written fields n ++ fields[n] ++ [0] =
      (word (UInt32.ofNat (valuesAt fields.length)) ++
        (offsets (valuesAt fields.length) (fields.take n)).flatMap word) ++ word 0 ++
      ((List.replicate k (0 : UInt32)).flatMap word ++
        (zeroTerminated (fields.take n) ++ (fields[n] ++ [0]))) := by
    rw [written, hk, List.replicate_succ, List.flatMap_cons]
    simp only [List.append_assoc]
  rw [hsplit, hpre, putWord_append (length_word 0), length_written (Nat.le_of_lt hn), written, hk',
    htake,
    offsets_append_singleton, zeroTerminated_append, zeroTerminated_cons, List.flatMap_append,
    List.flatMap_singleton]
  simp only [zeroTerminated, List.flatMap_nil, List.append_nil, List.append_assoc]

/-- One round of the loop writes one field. -/
theorem writeField_eq (hl : impl.changes.length = impl.changed.length) (hold : Stores oldPool old)
    (hn : n < m) (hm : m < 2 ^ 28) :
    impl.writeField oldPool (UInt32.ofNat (valuesAt m)) (written (impl.fields old m) n) n =
      some (written (impl.fields old m) (n + 1)) := by
  have hsize : UInt32.size = 2 ^ 32 := rfl
  have hin : n < (impl.fields old m).length := by rwa [length_fields]
  have hnum : (UInt32.ofNat n).toNat = n := UInt32.toNat_ofNat_of_lt' (by omega)
  have hoff : (4 + UInt32.ofNat n * 4).toNat = 4 + 4 * n := by
    rw [toNat_tableOffset (by rw [hnum]; omega), hnum]
  have hassert : 4 + UInt32.ofNat n * 4 < UInt32.ofNat (valuesAt m) := by
    rw [UInt32.lt_iff_toNat_lt, hoff, UInt32.toNat_ofNat_of_lt' (by simp only [valuesAt]; omega),
      valuesAt]
    omega
  have hvalue := value_eq hl hold (n := n) (by omega)
  rw [← getElem_fields hin] at hvalue
  simp only [Impl.writeField, Option.bind_eq_bind, guard, if_pos hassert, hoff, Option.pure_def,
    Option.bind_some]
  split_ifs with hc
  · rw [if_pos hc] at hvalue
    rw [hvalue]
    exact written_succ hin
  · rw [if_neg hc] at hvalue
    rw [hvalue]
    exact written_succ hin

/-- Serializing writes the fields, patched. -/
theorem write_eq_encode (hl : impl.changes.length = impl.changed.length) {o : Option (List UInt8)}
    (hold : Stores (o.getD impl.pool) old) (hchanged : impl.changed ≠ []) (hpos : 0 < m)
    (hm : m < 2 ^ 28) : impl.write (UInt32.ofNat m) o = some (encode (impl.fields old m)) := by
  have hsize : UInt32.size = 2 ^ 32 := rfl
  have hne : impl.fields old m ≠ [] := by
    rw [← List.length_pos_iff, length_fields]
    exact hpos
  have hcount : (UInt32.ofNat m).toNat = m := UInt32.toNat_ofNat_of_lt' (by omega)
  have hstart : 4 + UInt32.ofNat m * 4 = UInt32.ofNat (valuesAt m) := by
    refine UInt32.toNat_inj.mp ?_
    rw [toNat_tableOffset (by rw [hcount]; omega), hcount,
      UInt32.toNat_ofNat_of_lt' (by simp only [valuesAt]; omega), valuesAt]
  -- after `n` rounds `n` fields are written
  have hrounds : ∀ n, n ≤ m → (List.range n).foldlM
      (impl.writeField (o.getD impl.pool) (UInt32.ofNat (valuesAt m)))
      (written (impl.fields old m) 0) = some (written (impl.fields old m) n) := by
    intro n hn
    induction n with
    | zero => rfl
    | succ n ih =>
      rw [List.range_succ, List.foldlM_append, ih (by omega)]
      simp only [List.foldlM_cons, List.foldlM_nil, Option.bind_eq_bind, Option.bind_some]
      rw [writeField_eq hl hold (by omega) hm]
      rfl
  have hheader : written (impl.fields old m) 0 =
      word (UInt32.ofNat (valuesAt m)) ++ (List.replicate m (0 : UInt32)).flatMap word := by
    simp [written, length_fields, zeroTerminated, offsets]
  have hall : written (impl.fields old m) m = encode (impl.fields old m) := by
    have htake : (impl.fields old m).take m = impl.fields old m :=
      List.take_of_length_le (Nat.le_of_eq length_fields)
    rw [written, htake, length_fields, Nat.sub_self, encode, if_neg hne, length_fields]
    simp
  rw [Impl.write, if_neg hchanged]
  simp only [hstart, hcount]
  rw [← hheader, hrounds m (Nat.le_refl m), hall]

/-- A round of the loop only makes the new pool longer. -/
theorem length_le_writeField {start : UInt32} {bytes bytes' : List UInt8}
    (hx : impl.writeField oldPool start bytes n = some bytes') : bytes.length ≤ bytes'.length := by
  have hput : ∃ value off n, putWord (bytes ++ value ++ [0]) off n = some bytes' := by
    simp only [Impl.writeField, Option.bind_eq_bind] at hx
    split_ifs at hx with hc
    · simp only [Option.bind_eq_some_iff] at hx
      obtain ⟨value, -, -, -, hput⟩ := hx
      exact ⟨value, _, _, hput⟩
    · simp only [Option.bind_eq_some_iff] at hx
      obtain ⟨value, -, -, -, hput⟩ := hx
      exact ⟨value, _, _, hput⟩
  obtain ⟨value, off, n, hput⟩ := hput
  rw [putWord] at hput
  split_ifs at hput with hin
  cases hput
  simp only [List.length_append, List.length_take, List.length_drop, length_word] at hin ⊢
  omega

/-- What is written is longer than its table. -/
theorem length_le_write {size : UInt32} {o : Option (List UInt8)} {bytes : List UInt8}
    (hchanged : impl.changed ≠ []) (hx : impl.write size o = some bytes) :
    4 + 4 * size.toNat ≤ bytes.length := by
  have hrounds : ∀ (nums : List ℕ) (start : UInt32) (bytes₀ : List UInt8),
      nums.foldlM (impl.writeField (o.getD impl.pool) start) bytes₀ = some bytes →
      bytes₀.length ≤ bytes.length := by
    intro nums start
    induction nums with
    | nil =>
      intro bytes₀ hx
      cases hx
      exact Nat.le_refl _
    | cons n nums ih =>
      intro bytes₀ hx
      rw [List.foldlM_cons, Option.bind_eq_bind, Option.bind_eq_some_iff] at hx
      obtain ⟨bytes₁, hx₁, hx₂⟩ := hx
      exact Nat.le_trans (length_le_writeField hx₁) (ih bytes₁ hx₂)
  rw [Impl.write, if_neg hchanged] at hx
  have hle := hrounds _ _ _ hx
  rw [List.length_append, length_word, length_words, List.length_replicate] at hle
  exact hle

end Write

end Glim.Pool
