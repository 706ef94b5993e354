import Glim.GString.Appending

/-!
# Changing in place, and assigning

The specifications of the methods that do not append, and of the constructors: each
stays in bounds and leaves a valid string with the contents it promises.

## Main definitions

* `Apart`: a source of an assignment that does not depend on the buffer of the target
* `CopyAssignOk`: the copy assignments that are safe

## Main results

* `wp_cStr`, `wp_erase`, `wp_setAt`: in place
* `wp_moveAssign`, `wp_copyAssign`, `wp_owned`: assigning
* `wp_duplicate`, `wp_copy`: constructing
-/

namespace Glim

open Machine Exec Method Text

/-! ## In place -/

section InPlace

variable {o : Object}

/-- `c_str` adds a terminator after the contents, for which there is always a buffer. -/
theorem wp_cStr (hv : Valid o) :
    wp GString.cStr
      (fun p o' => Valid o' ∧ o'.contents = o.contents ∧ (o.str.length ≠ 0 → p = o'.str.buf ∧
        (o'.heap.cellsAt p).take (o.str.length + 1) = o.contents ++ [some 0]))
      (fun _ _ => False) (fun _ => False) o := by
  have hlen := o.str.length_lt
  have hn := UInt32.toNat_ofNat_of_le (n := o.str.length + 1) (by omega)
  simp only [GString.cStr, str, wp_bind, wp_map, wp_get, wp_ite, wp_pure]
  refine ⟨fun h0 => ⟨hv, trivial, fun h => absurd h0 h⟩, fun h0 => ?_⟩
  refine wp_mono (wp_ensure hv (by omega) (by omega) fun h => by omega) (fun _ o' hg => ?_)
    (fun _ _ h => ?_) fun _ h => h
  · rw [hn] at hg
    -- the grown buffer has room for the terminator
    have hin : o'.str.length + (cells [0]).length ≤ o'.room := by
      rw [hg.length]
      exact hg.room
    have hl : ((o'.heap.cellsAt o'.str.buf).take o'.str.length).length = o'.str.length :=
      length_contents hg.valid
    rw [← hg.length]
    refine wp_zoom.mpr (Heap.wp_store (room_data hin) ⟨hg.valid.write hin, ?_, fun _ => ⟨rfl, ?_⟩⟩)
    · rw [← hg.contents]
      simp only [Object.contents]
      rw [cellsAt_write hin, Heap.splice, List.append_assoc, List.take_append_of_le_length hl.ge,
        List.take_take, min_self]
    · rw [← hg.contents]
      simp only [Object.contents]
      rw [cellsAt_write hin, Heap.splice, List.take_append_of_le_length]
      · refine List.take_of_length_le ?_
        rw [List.length_append, hl]
        rfl
      · rw [List.length_append, hl]
        rfl
  -- a length of 24 bits is never refused
  · have := h.2.2.2
    omega

theorem wp_clear (hv : Valid o) :
    wp GString.clear (fun _ o' => Valid o' ∧ o'.contents = []) (fun _ _ => False) (fun _ => False)
      o :=
  ⟨hv.withLength (Nat.zero_le _) fun h => by omega, contents_withLength (by decide)⟩

/-- `erase` removes a range that lies inside the string. -/
theorem wp_erase (hv : Valid o) (pos count : UInt32) :
    wp (GString.erase pos count)
      (fun _ o' => Valid o' ∧ o'.contents =
        if pos.toNat + count.toNat ≤ o.contents.length then
          o.contents.take pos.toNat ++ o.contents.drop (pos.toNat + count.toNat)
        else o.contents)
      (fun _ _ => False) (fun _ => False) o := by
  have hlen := o.str.length_lt
  have hle := hv.length_le
  simp only [GString.erase, str, wp_bind, wp_map, wp_get, length_contents hv]
  refine (wp_when _ _).mpr ⟨fun hin => ?_, fun hout => ⟨hv, (if_neg hout).symm⟩⟩
  rw [if_pos hin]
  simp only [onHeap, modifyStr, wp_bind, wp_zoom, wp_modify]
  -- the cells that are moved
  have hmoved : ((o.heap.cellsAt (o.str.data (pos.toNat + count.toNat))).take
      (o.str.length - (pos.toNat + count.toNat))) = o.contents.drop (pos.toNat + count.toNat) := by
    rw [GString.data, Heap.cellsAt_shift, Object.contents, List.drop_take]
  have hl : (o.contents.drop (pos.toNat + count.toNat)).length =
      o.str.length - (pos.toNat + count.toNat) := by
    rw [List.length_drop, length_contents hv]
  have hroom : pos.toNat + (o.contents.drop (pos.toNat + count.toNat)).length ≤ o.room := by
    omega
  refine Heap.wp_memcpy ?_ ?_ ?_
  · rw [GString.data, Heap.room_shift]
    exact Nat.sub_le_sub_right hle _
  · rw [← hl]
    exact room_data hroom
  · simp only [hmoved]
    refine ⟨(hv.write hroom).withLength ?_ fun h => ?_, ?_⟩
    · have hsame := Heap.room_write (room_data hroom) o.str.buf
      simp only [Object.room] at hle ⊢
      omega
    · have := hv.length_lt h
      simp only
      omega
    · have hcells : Object.contents ⟨o.heap.write (o.str.data pos.toNat)
          (o.contents.drop (pos.toNat + count.toNat)),
            o.str.setLength (o.str.length - count.toNat)⟩ =
          ((o.heap.write (o.str.data pos.toNat) (o.contents.drop (pos.toNat + count.toNat))).cellsAt
            o.str.buf).take (o.str.length - count.toNat) :=
        contents_withLength (o := ⟨_, o.str⟩) (by omega)
      have hhead : ((o.heap.cellsAt o.str.buf).take pos.toNat).length = pos.toNat := by
        rw [List.length_take, min_eq_left]
        exact (by omega : pos.toNat ≤ o.str.length).trans hle
      rw [hcells, cellsAt_write hroom, Heap.splice, List.take_append_of_le_length,
        List.take_of_length_le]
      · rw [Object.contents, List.take_take, min_eq_left (by omega)]
      · rw [List.length_append, hhead, hl]
        omega
      · rw [List.length_append, hhead, hl]
        omega

/-- Writing a byte of the string. -/
theorem wp_setAt (hv : Valid o) {index : UInt32} (hi : index.toNat < o.str.length) (ch : UInt8) :
    wp (GString.setAt index ch)
      (fun _ o' => Valid o' ∧ o'.contents = o.contents.set index.toNat (some ch))
      (fun _ _ => False) (fun _ => False) o := by
  have hroom : index.toNat + (cells [ch]).length ≤ o.room := by
    have := hv.length_le
    simp only [cells, List.map_cons, List.map_nil, List.length_singleton]
    omega
  simp only [GString.setAt, str, onHeap, wp_bind, wp_map, wp_get, wp_zoom]
  refine Heap.wp_store (room_data hroom) ⟨hv.write hroom, ?_⟩
  have hlt : index.toNat < (o.heap.cellsAt o.str.buf).length := hi.trans_le hv.length_le
  have hset : Heap.splice (o.heap.cellsAt o.str.buf) index.toNat (cells [ch]) =
      (o.heap.cellsAt o.str.buf).set index.toNat (some ch) := by
    rw [List.set_eq_take_append_cons_drop, if_pos hlt, Heap.splice, List.append_assoc]
    rfl
  simp only [Object.contents]
  rw [cellsAt_write hroom, hset, List.take_set]

end InPlace

/-! ## Assigning -/

section Assign

variable {o : Object} {g : GString}

/-- The string `g` is valid, and apart from what the receiver frees. -/
structure Apart (g : GString) (o : Object) : Prop where
  valid : Valid ⟨o.heap, g⟩
  apart : ∀ p, o.str.ownBuf = some p → g.buf.map Ptr.block ≠ some p.block

/-- A string apart from the own buffer outlives it. -/
theorem Apart.kill (hg : Apart g o) {p : Ptr} (hp : o.str.ownBuf = some p) :
    Valid ⟨o.heap.kill p.block, g⟩ ∧
      Object.contents ⟨o.heap.kill p.block, g⟩ = Object.contents ⟨o.heap, g⟩ := by
  have hne := hg.apart p hp
  have hcells : (o.heap.kill p.block).cellsAt g.buf = o.heap.cellsAt g.buf := by
    cases hb : g.buf with
    | none => rfl
    | some q =>
      refine Heap.cellsAt_congr (Heap.kill_getElem?_of_ne fun he => hne ?_)
      rw [hb, Option.map_some, he]
  have hroom : Object.room ⟨o.heap.kill p.block, g⟩ = Object.room ⟨o.heap, g⟩ := by
    simp only [Object.room, Heap.room, hcells]
  refine ⟨⟨hg.valid.power_le, ?_, ?_, hg.valid.length_lt, fun q hq => ?_, hg.valid.allocates⟩, ?_⟩
  · rw [hroom]
    exact hg.valid.length_le
  · rw [hroom]
    exact hg.valid.capacity_le
  · have hqp : p.block ≠ q.block := fun he => hne (by
      rw [(GString.ownBuf_eq_some_iff.mp hq).2, Option.map_some, he])
    rw [Heap.freeFault_congr (Heap.status_kill_of_ne hqp)]
    exact hg.valid.freeable q hq
  · simp only [Object.contents, hcells]

/-- Freeing the own buffer leaves a string that is apart from it as it is. -/
theorem wp_destroy (hv : Valid o) (hg : Apart g o) :
    wp o.str.destroy
      (fun _ h => Valid ⟨h, g⟩ ∧ Object.contents ⟨h, g⟩ = Object.contents ⟨o.heap, g⟩)
      (fun _ _ => False) (fun _ => False) o.heap := by
  refine (wp_when _ _).mpr ⟨fun hc => ?_, fun _ => ⟨hg.valid, rfl⟩⟩
  cases hb : o.str.buf with
  | none => exact absurd hb hc.1
  | some p =>
    have hown : o.str.ownBuf = some p := GString.ownBuf_eq_some_iff.mpr ⟨hc.2, hb⟩
    refine Heap.wp_free (fun u hu => ?_) fun _ => hg.kill hown
    rw [hv.freeable p hown] at hu
    cases hu

/-- Move assignment takes the contents over. -/
theorem wp_moveAssign (hv : Valid o) (hg : Apart g o) :
    wp (GString.moveAssign g)
      (fun _ o' => Valid o' ∧ o'.contents = Object.contents ⟨o.heap, g⟩)
      (fun _ _ => False) (fun _ => False) o := by
  simp only [GString.moveAssign, str, onHeap, modifyStr, wp_bind, wp_map, wp_get, wp_zoom,
    wp_modify]
  exact wp_destroy hv hg

/-- The word and the buffer fit together. -/
theorem valid_pack {h : Heap} (hoom : h.oom = []) {free r : Bool} {power n : ℕ} {buf : Option Ptr}
    (hpower : power ≤ 30) (hlen : n % 2 ^ 24 ≤ h.room buf)
    (hcap : power ≠ 0 → 2 ^ power ≤ h.room buf ∧ n % 2 ^ 24 < 2 * 2 ^ power)
    (hfree : free = true → ∀ p, buf = some p → h.freeFault p = none) :
    Valid ⟨h, ⟨Meta.pack free r power n, buf⟩⟩ := by
  have hp : power < 64 := by omega
  have hone : 1 < GString.capacity ⟨Meta.pack free r power n, buf⟩ ↔ power ≠ 0 := by
    rw [GString.one_lt_capacity_iff, GString.power_mk_pack _ _ _ _ hp]
  have hcapacity : GString.capacity ⟨Meta.pack free r power n, buf⟩ = 2 ^ power := by
    rw [GString.capacity, GString.power_mk_pack _ _ _ _ hp]
  refine ⟨?_, ?_, fun h => ?_, fun h => ?_, fun p hown => ?_, hoom⟩
  · rwa [GString.power_mk_pack _ _ _ _ hp]
  · rwa [GString.length_mk_pack]
  · rw [hcapacity]
    exact (hcap (hone.mp h)).1
  · rw [hcapacity, GString.length_mk_pack]
    exact (hcap (hone.mp h)).2
  · obtain ⟨hf, hbuf⟩ := GString.ownBuf_eq_some_iff.mp hown
    rw [GString.needsFreeing_mk_pack _ _ _ _ hp] at hf
    exact hfree hf p hbuf

theorem contents_pack {h : Heap} {free r : Bool} {power n : ℕ} {buf : Option Ptr} :
    Object.contents ⟨h, ⟨Meta.pack free r power n, buf⟩⟩ = (h.cellsAt buf).take (n % 2 ^ 24) := by
  rw [Object.contents, GString.length_mk_pack]

/-- A new string over a copy of `n` cells, of which it counts `n` modulo `2 ^ 24`. -/
theorem valid_extend {h : Heap} (hoom : h.oom = []) {new : List Cell} {n : ℕ}
    (hn : new.length = n) {r : Bool} :
    Valid ⟨h.extend new, ⟨Meta.pack true r 0 n, some ⟨h.blocks.length, 0⟩⟩⟩ ∧
      Object.contents ⟨h.extend new, ⟨Meta.pack true r 0 n, some ⟨h.blocks.length, 0⟩⟩⟩ =
        new.take (n % 2 ^ 24) := by
  have hoom' : (h.extend new).oom = [] := hoom
  refine ⟨valid_pack hoom' (Nat.zero_le _) ?_ (fun h => absurd rfl h) fun _ p hp => ?_, ?_⟩
  · rw [Heap.room, Heap.cellsAt_extend_self, hn]
    exact Nat.mod_le _ _
  · rw [← Option.some.inj hp]
    exact Heap.freeFault_eq_none_iff.mpr ⟨rfl, Heap.status_extend_self h new⟩
  · rw [contents_pack, Heap.cellsAt_extend_self]

/-- Cells copied into a new buffer of exactly their size. -/
theorem wp_memcpy_extend {h : Heap} {src : Option Ptr} {n : ℕ}
    (hn : n ≤ h.room src) {Q : Unit → Heap → Prop} {E : String → Heap → Prop} {F : Fault → Prop}
    (hQ : Q () (h.extend ((h.cellsAt src).take n))) :
    wp (Heap.memcpy (some ⟨h.blocks.length, 0⟩) src n) Q E F
      (h.extend (List.replicate n none)) := by
  obtain ⟨hread, htake⟩ := Heap.readable_congr (h.extend (List.replicate n none)) hn
    fun q _ hq => Heap.cellsAt_congr (Heap.extend_getElem?_of_lt hq)
  have hl : ((h.cellsAt src).take n).length = n := List.length_take.trans (min_eq_left hn)
  refine Heap.wp_memcpy hread ?_ ?_
  · rw [Heap.room, Heap.cellsAt_extend_self, List.length_replicate]
  · rw [htake, Heap.write_extend_self, Heap.splice, List.take_zero, List.nil_append, hl,
      List.drop_eq_nil_of_le (by rw [List.length_replicate]; omega), List.append_nil]
    exact hQ

/-- A new buffer of exactly the size of what it is a copy of. -/
theorem wp_duplicate {h : Heap} (hoom : h.oom = []) {chars : Option Ptr} {n : ℕ}
    (hn : n ≤ h.room chars) :
    wp (GString.duplicate chars n)
      (fun g h' => Valid ⟨h', g⟩ ∧
        Object.contents ⟨h', g⟩ = (h.cellsAt chars).take (n % 2 ^ 24))
      (fun _ _ => False) (fun _ => False) h := by
  have hl : ((h.cellsAt chars).take n).length = n := List.length_take.trans (min_eq_left hn)
  simp only [GString.duplicate, wp_bind, wp_pure]
  refine Heap.wp_malloc_of_mem_oom hoom (wp_memcpy_extend hn ?_)
  obtain ⟨hvalid, hcontents⟩ := valid_extend hoom hl (r := false)
  refine ⟨hvalid, hcontents.trans ?_⟩
  rw [List.take_take, min_eq_left (Nat.mod_le _ _)]

/-- A string without a buffer. -/
theorem valid_null {h : Heap} (hoom : h.oom = []) {w : BitVec 32} (hlen : Meta.length w = 0)
    (hpower : Meta.power w = 0) :
    Valid ⟨h, ⟨w, none⟩⟩ ∧ Object.contents ⟨h, ⟨w, none⟩⟩ = [] := by
  have hone : ¬ 1 < GString.capacity ⟨w, none⟩ := by
    rw [GString.one_lt_capacity_iff]
    exact fun h => h hpower
  refine ⟨⟨?_, ?_, fun h => absurd h hone, fun h => absurd h hone, fun p hp => ?_, hoom⟩, ?_⟩
  · rw [GString.power, hpower]
    omega
  · rw [GString.length, hlen]
    exact Nat.zero_le _
  · rw [GString.ownBuf_of_buf_eq_none rfl] at hp
    cases hp
  · rw [Object.contents, Heap.cellsAt_none, List.take_nil]

theorem valid_empty {h : Heap} (hoom : h.oom = []) :
    Valid ⟨h, .empty⟩ ∧ Object.contents ⟨h, .empty⟩ = [] :=
  valid_null hoom (by decide) (by decide)

theorem wp_ofChars {h : Heap} (hoom : h.oom = []) {chars : Option Ptr} {n : ℕ}
    (hn : n ≤ h.room chars) :
    wp (GString.ofChars chars n)
      (fun g h' => Valid ⟨h', g⟩ ∧
        Object.contents ⟨h', g⟩ = (h.cellsAt chars).take (n % 2 ^ 24))
      (fun _ _ => False) (fun _ => False) h := by
  refine (wp_ite _ _).mpr ⟨fun _ => wp_duplicate hoom hn, fun h0 => ?_⟩
  obtain rfl : n = 0 := Classical.not_not.mp h0
  exact valid_null hoom (by decide) (by decide)

/-- `owned` keeps the contents. -/
theorem wp_owned (hv : Valid o) :
    wp GString.owned (fun _ o' => Valid o' ∧ o'.contents = o.contents) (fun _ _ => False)
      (fun _ => False) o := by
  simp only [GString.owned, str, onHeap, wp_bind, wp_map, wp_get]
  refine (wp_when _ _).mpr ⟨fun hfree => ?_, fun _ => ⟨hv, rfl⟩⟩
  refine (wp_bind _).mpr (wp_zoom.mpr (wp_mono (wp_ofChars hv.allocates hv.length_le)
    (fun g h hg => ?_) (fun _ _ h => h.elim) fun _ h => h))
  have hkeep : ¬ (o.str.buf ≠ none ∧ o.str.needsFreeing = true) := fun hc => hfree hc.2
  rw [Nat.mod_eq_of_lt o.str.length_lt] at hg
  simp only [GString.moveAssign, GString.destroy, str, onHeap, modifyStr, wp_bind, wp_map, wp_get,
    wp_zoom, wp_when, wp_modify]
  exact ⟨fun hc => absurd hc hkeep, fun _ => hg⟩

/-- The copy assignments that are safe: the buffer that is reused is owned, and the source does not
depend on the one that is freed. -/
def CopyAssignOk (g : GString) (o : Object) : Prop :=
  Valid ⟨o.heap, g⟩ ∧
    if g.length ≤ o.str.capacity ∧ 1 < o.str.capacity then o.str.needsFreeing = true
    else ∀ p, o.str.ownBuf = some p → g.buf.map Ptr.block ≠ some p.block

/-- Copy assignment into the buffer that is there. -/
theorem wp_copyAssign_reuse (hv : Valid o) (hread : g.length ≤ o.heap.room g.buf)
    (hreuse : g.length ≤ o.str.capacity ∧ 1 < o.str.capacity) :
    wp (GString.copyAssign g)
      (fun _ o' => o'.contents = Object.contents ⟨o.heap, g⟩ ∧
        (o.str.needsFreeing = true → Valid o'))
      (fun _ _ => False) (fun _ => False) o := by
  have hglen := g.length_lt
  have hroom := hv.capacity_le hreuse.2
  -- the source can be read in full, and its bytes fit
  have hl : ((o.heap.cellsAt g.buf).take g.length).length = g.length :=
    List.length_take.trans (min_eq_left hread)
  have hin : 0 + ((o.heap.cellsAt g.buf).take g.length).length ≤ o.room := by omega
  have hdata : o.str.data 0 = o.str.buf := by
    cases hb : o.str.buf <;> simp [GString.data, hb]
  have hwritten := hv.write hin
  have hcells := cellsAt_write hin
  rw [hdata] at hwritten hcells
  simp only [GString.copyAssign, str, onHeap, modifyStr, wp_bind, wp_map, wp_get, wp_zoom,
    wp_modify, wp_ite, wp_when, wp_raise]
  refine ⟨fun _ => ?_, fun hnot => absurd hreuse hnot⟩
  -- the bytes are copied over those of the old buffer
  refine Heap.wp_memcpy hread (by simp only [Object.room] at hroom; omega) ?_
  have hwroom : o.str.capacity ≤ (o.heap.write o.str.buf
      ((o.heap.cellsAt g.buf).take g.length)).room o.str.buf := hwritten.capacity_le hreuse.2
  refine ⟨?_, fun hfree => valid_pack hwritten.allocates hv.power_le ?_ (fun _ => ⟨hwroom, ?_⟩)
    fun _ p hp => ?_⟩
  -- the contents are the bytes that were copied
  · rw [contents_pack, Nat.mod_eq_of_lt hglen, hcells, Heap.splice, List.take_zero,
      List.nil_append]
    exact List.take_left' hl
  · rw [Nat.mod_eq_of_lt hglen]
    exact hreuse.1.trans hwroom
  · rw [Nat.mod_eq_of_lt hglen]
    have := hreuse.1
    simp only [GString.capacity] at this hreuse
    omega
  · exact hwritten.freeable p (GString.ownBuf_eq_some_iff.mpr ⟨hfree, hp⟩)

/-- Copy assignment copies the contents. -/
theorem wp_copyAssign (hv : Valid o) (hok : CopyAssignOk g o) :
    wp (GString.copyAssign g)
      (fun _ o' => Valid o' ∧ o'.contents = Object.contents ⟨o.heap, g⟩)
      (fun _ _ => False) (fun _ => False) o := by
  obtain ⟨hg, hcase⟩ := hok
  have hglen := g.length_lt
  by_cases hreuse : g.length ≤ o.str.capacity ∧ 1 < o.str.capacity
  · rw [if_pos hreuse] at hcase
    exact wp_mono (wp_copyAssign_reuse hv hg.length_le hreuse) (fun _ _ h => ⟨h.2 hcase, h.1⟩)
      (fun _ _ h => h) fun _ h => h
  · rw [if_neg hreuse] at hcase
    simp only [GString.copyAssign, str, onHeap, modifyStr, wp_bind, wp_map, wp_get, wp_zoom,
      wp_modify, wp_ite, wp_when, wp_raise]
    refine ⟨fun hc => absurd hc hreuse, fun _ => ?_⟩
    refine wp_mono (wp_destroy hv ⟨hg, hcase⟩) (fun _ h hd => ⟨fun _ => hd, fun _ => ?_⟩)
      (fun _ _ h => h) fun _ h => h
    refine Heap.wp_malloc_of_mem_oom hd.1.allocates ⟨by simp, fun _ => ?_⟩
    refine wp_memcpy_extend hd.1.length_le ?_
    have hl : ((h.cellsAt g.buf).take g.length).length = g.length :=
      List.length_take.trans (min_eq_left hd.1.length_le)
    obtain ⟨hvalid, hcontents⟩ := valid_extend hd.1.allocates hl (r := false)
    refine ⟨hvalid, hcontents.trans ?_⟩
    rw [Nat.mod_eq_of_lt hglen, List.take_take, min_self]
    exact hd.2

end Assign

end Glim
