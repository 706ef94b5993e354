import Glim.GString.Evolution
import Glim.GString.Growth

/-!
# Valid strings and their contents

A string is valid if its length and its capacity are covered by the memory at its buffer
and its buffer can be freed if it is owned. `reserve` keeps a string valid and its contents
as they are, unless the new size cuts off what is there: the exponent 0 stands for an
unknown capacity, so a string of exact size is cut as if it were short.

## Main definitions

* `Object.contents`, `Object.room`: the cells of the string, and the memory at its buffer
* `Valid`: the invariant
* `Frame`: what a method leaves alone
* `Object.push`: cells written at the end of the string
* `ReserveOk`: the sizes for which `reserve` is safe

## Main results

* `Valid.push`: writing inside the room keeps a string valid and appends to its contents
* `wp_reserve`: what a safe `reserve` does
* `reserve_iff`: the sizes are exactly the safe ones
-/

namespace Glim

open Machine Exec Method

namespace Object

/-- The cells of the string. -/
def contents (o : Object) : List Cell := (o.heap.cellsAt o.str.buf).take o.str.length

/-- The number of bytes available at `_buf`. -/
def room (o : Object) : ℕ := o.heap.room o.str.buf

end Object

/-- The length and the capacity are covered by the buffer, which can be freed if it is owned, and
allocation succeeds. -/
structure Valid (o : Object) : Prop where
  power_le : o.str.power ≤ 30
  length_le : o.str.length ≤ o.room
  capacity_le : 1 < o.str.capacity → o.str.capacity ≤ o.room
  /-- A known capacity misses at most half of the buffer. -/
  length_lt : 1 < o.str.capacity → o.str.length < 2 * o.str.capacity
  freeable : ∀ p, o.str.ownBuf = some p → o.heap.freeFault p = none
  allocates : o.heap.oom = []

theorem GString.one_lt_capacity_iff {s : GString} : 1 < s.capacity ↔ s.power ≠ 0 := by
  rw [GString.capacity, Nat.one_lt_two_pow_iff]

/-- What a method on `o` leaves alone: all memory keeps its size, but for an own buffer that was
given up, the memory outside the buffer keeps its cells, and the buffer is the old one or new. -/
structure Frame (o o' : Object) : Prop where
  grows : o.heap.blocks.length ≤ o'.heap.blocks.length
  room : ∀ p : Ptr, p.block < o.heap.blocks.length →
    (∀ q, o.str.ownBuf = some q → q.block = p.block → o'.str.ownBuf = some q) →
    o'.heap.room (some p) = o.heap.room (some p)
  cellsAt : ∀ p : Ptr, p.block < o.heap.blocks.length → o.str.buf.map Ptr.block ≠ some p.block →
    o'.heap.cellsAt (some p) = o.heap.cellsAt (some p)
  own : ∀ q, o'.str.ownBuf = some q → o.str.ownBuf = some q ∨ o.heap.blocks.length ≤ q.block
  buf : ∀ q, o'.str.buf = some q → o.str.buf = some q ∨ o.heap.blocks.length ≤ q.block

namespace Frame

variable {o o' o'' : Object}

theorem refl (o : Object) : Frame o o where
  grows := le_rfl
  room := fun _ _ _ => rfl
  cellsAt := fun _ _ _ => rfl
  own := fun _ => Or.inl
  buf := fun _ => Or.inl

/-- The buffer does not move into a block that was there before. -/
theorem apart (h : Frame o o') {b : ℕ} (hb : b < o.heap.blocks.length)
    (hne : o.str.buf.map Ptr.block ≠ some b) : o'.str.buf.map Ptr.block ≠ some b := by
  intro he
  obtain ⟨q, hq, hqb⟩ := Option.map_eq_some_iff.mp he
  rcases h.buf q hq with hold | hnew
  · exact hne (by rw [hold, Option.map_some, hqb])
  · omega

theorem trans (h : Frame o o') (h' : Frame o' o'') : Frame o o'' where
  grows := h.grows.trans h'.grows
  room := by
    intro p hp hkeep
    -- an own buffer in the block of `p` was there all the time
    rw [h'.room p (hp.trans_le h.grows) fun q hq hqp => ?_, h.room p hp fun q hq hqp => ?_]
    · rcases h'.own q (hkeep q hq hqp) with hold | hnew
      · exact hold
      · have := h.grows
        omega
    · rcases h.own q hq with hold | hnew
      · exact hkeep q hold hqp
      · omega
  cellsAt := by
    intro p hp hne
    rw [h'.cellsAt p (hp.trans_le h.grows) (h.apart hp hne), h.cellsAt p hp hne]
  own := by
    intro q hq
    rcases h'.own q hq with hold | hnew
    · exact h.own q hold
    · exact Or.inr (h.grows.trans hnew)
  buf := by
    intro q hq
    rcases h'.buf q hq with hold | hnew
    · exact h.buf q hold
    · exact Or.inr (h.grows.trans hnew)

end Frame

/-! ## Writing in place -/

section Write

variable {o : Object} {new : List Cell} {off n : ℕ}

theorem length_contents (hv : Valid o) : o.contents.length = o.str.length :=
  List.length_take.trans (min_eq_left hv.length_le)

/-- Another length that the buffer covers. -/
theorem Valid.withLength (hv : Valid o) (hn : n ≤ o.room)
    (hcap : 1 < o.str.capacity → n < 2 * o.str.capacity) :
    Valid ⟨o.heap, o.str.setLength n⟩ where
  power_le := by simpa using hv.power_le
  length_le := by
    rw [GString.length_setLength]
    exact (Nat.mod_le _ _).trans hn
  capacity_le := by
    simp only [GString.capacity, GString.power_setLength]
    exact hv.capacity_le
  length_lt := by
    simp only [GString.capacity, GString.power_setLength, GString.length_setLength] at hcap ⊢
    exact fun h => (Nat.mod_le _ _).trans_lt (hcap h)
  freeable := fun p hp => hv.freeable p (by simpa using hp)
  allocates := hv.allocates

theorem contents_withLength (hn : n < 2 ^ 24) :
    Object.contents ⟨o.heap, o.str.setLength n⟩ = (o.heap.cellsAt o.str.buf).take n := by
  rw [Object.contents, GString.length_setLength, Nat.mod_eq_of_lt hn]
  rfl

theorem cellsAt_write (hroom : off + new.length ≤ o.room) :
    (o.heap.write (o.str.data off) new).cellsAt o.str.buf =
      Heap.splice (o.heap.cellsAt o.str.buf) off new :=
  Heap.cellsAt_write_shift hroom

theorem room_data (hroom : off + new.length ≤ o.room) :
    new.length ≤ o.heap.room (o.str.data off) := by
  rw [GString.data, Heap.room_shift]
  simp only [Object.room] at hroom
  omega

/-- Writing inside the room keeps a string valid. -/
theorem Valid.write (hv : Valid o) (hroom : off + new.length ≤ o.room) :
    Valid ⟨o.heap.write (o.str.data off) new, o.str⟩ := by
  have hsame : (o.heap.write (o.str.data off) new).room o.str.buf = o.room :=
    Heap.room_write (room_data hroom) _
  refine ⟨hv.power_le, ?_, ?_, hv.length_lt, fun p hp => ?_, ?_⟩
  · rw [Object.room, hsame]
    exact hv.length_le
  · rw [Object.room, hsame]
    exact hv.capacity_le
  · rw [Heap.freeFault_congr (Heap.status_write _ _ _ _)]
    exact hv.freeable p hp
  · rw [Heap.write_oom]
    exact hv.allocates

theorem Frame.write {s : GString} (hroom : off + new.length ≤ o.room) (hs : s.buf = o.str.buf)
    (hown : s.ownBuf = o.str.ownBuf) : Frame o ⟨o.heap.write (o.str.data off) new, s⟩ where
  grows := (Heap.write_length _ _ _).ge
  room := fun p _ _ => Heap.room_write (room_data hroom) (some p)
  cellsAt := by
    intro p _ hne
    refine Heap.cellsAt_congr (Heap.write_getElem?_of_ne fun he => hne ?_)
    obtain ⟨q, hq, hqp⟩ := Option.map_eq_some_iff.mp he
    cases hbuf : o.str.buf with
    | none => simp [GString.data, hbuf] at hq
    | some r =>
      simp only [GString.data, hbuf, Ptr.shift_some, Option.some.injEq] at hq
      subst hq
      simpa using hqp
  own := fun q hq => Or.inl (hown ▸ hq)
  buf := fun q hq => Or.inl (hs ▸ hq)

/-- The cells `new` written at the end of the string, `n` of which become part of it. -/
def Object.push (o : Object) (new : List Cell) (n : ℕ) : Object :=
  ⟨o.heap.write (o.str.data o.str.length) new, o.str.setLength (o.str.length + n)⟩

theorem Valid.push (hv : Valid o) (hroom : o.str.length + new.length ≤ o.room)
    (hn : n ≤ new.length) (hcap : 1 < o.str.capacity → o.str.length + n < 2 * o.str.capacity) :
    Valid (o.push new n) := by
  refine (hv.write hroom).withLength ?_ hcap
  rw [Object.room, Heap.room_write (room_data hroom)]
  exact (Nat.add_le_add_left hn _).trans hroom

/-- Writing at the end of a string appends to its contents. -/
theorem contents_push (hroom : o.str.length + new.length ≤ o.room) (hn : n ≤ new.length)
    (hlen : o.str.length + n < 2 ^ 24) : (o.push new n).contents = o.contents ++ new.take n := by
  have hl : ((o.heap.cellsAt o.str.buf).take o.str.length).length = o.str.length := by
    rw [List.length_take, min_eq_left]
    exact (Nat.le_add_right _ _).trans hroom
  have hpush : (o.push new n).contents =
      ((o.heap.write (o.str.data o.str.length) new).cellsAt o.str.buf).take (o.str.length + n) :=
    contents_withLength (o := ⟨o.heap.write (o.str.data o.str.length) new, o.str⟩) hlen
  rw [hpush, cellsAt_write hroom, Heap.splice, List.append_assoc, List.take_append, hl,
    List.take_of_length_le (by rw [hl]; omega), Nat.add_sub_cancel_left,
    List.take_append_of_le_length hn]
  rfl

theorem Frame.push (hroom : o.str.length + new.length ≤ o.room) : Frame o (o.push new n) :=
  Frame.write hroom rfl (GString.ownBuf_setLength _ _)

end Write

/-! ## Growing -/

/-- The string moved to a new buffer of `2 ^ k` bytes. -/
structure Moved (k : ℕ) (o o' : Object) : Prop where
  valid : Valid o'
  contents : o'.contents = o.contents
  length : o'.str.length = o.str.length
  power : o'.str.power = k
  room : o'.room = 2 ^ k
  cells : ∀ p : Ptr, p.block < o.heap.blocks.length → o.str.ownBuf.map Ptr.block ≠ some p.block →
    o'.heap.cellsAt (some p) = o.heap.cellsAt (some p)
  frame : Frame o o'

section Growing

variable {o : Object} {k : ℕ}

/-- The string in a new block, after its own one may have been freed. -/
theorem moved_extend (hk : k ≤ 30) (hle : o.str.length ≤ 2 ^ k) {h : Heap}
    (hlen : h.blocks.length = o.heap.blocks.length) (hoom : h.oom = [])
    (hother : ∀ b, o.str.ownBuf.map Ptr.block ≠ some b → h.blocks[b]? = o.heap.blocks[b]?)
    {new : List Cell} (hsize : new.length = 2 ^ k) (hnew : new.take o.str.length = o.contents)
    {w : BitVec 32} (hw : Meta.length w = o.str.length) (hp : Meta.power w = k) :
    Moved k o ⟨h.extend new, ⟨w, some ⟨o.heap.blocks.length, 0⟩⟩⟩ := by
  rw [← hlen]
  have hcells : (h.extend new).cellsAt (some ⟨h.blocks.length, 0⟩) = new :=
    Heap.cellsAt_extend_self h new
  have hroom : (h.extend new).room (some ⟨h.blocks.length, 0⟩) = 2 ^ k := by
    rw [Heap.room, hcells, hsize]
  have hblock : ∀ p : Ptr, p.block < o.heap.blocks.length →
      o.str.ownBuf.map Ptr.block ≠ some p.block →
      (h.extend new).cellsAt (some p) = o.heap.cellsAt (some p) := fun p hb hne =>
    Heap.cellsAt_congr ((Heap.extend_getElem?_of_lt (by omega)).trans (hother _ hne))
  have hcap : GString.capacity ⟨w, some ⟨h.blocks.length, 0⟩⟩ = 2 ^ k := by
    rw [GString.capacity, GString.power, hp]
  refine ⟨⟨?_, ?_, ?_, ?_, ?_, ?_⟩, ?_, hw, hp, hroom, hblock, ⟨?_, ?_, ?_, ?_, ?_⟩⟩
  · rw [GString.power, hp]; exact hk
  · rw [GString.length, hw, Object.room, hroom]; exact hle
  · intro _
    rw [hcap, Object.room, hroom]
  · intro _
    rw [hcap, GString.length, hw]
    have := Nat.two_pow_pos k
    omega
  · intro p hp
    obtain rfl : (⟨h.blocks.length, 0⟩ : Ptr) = p :=
      Option.some.inj (GString.ownBuf_eq_some_iff.mp hp).2
    exact Heap.freeFault_eq_none_iff.mpr ⟨rfl, Heap.status_extend_self h new⟩
  · exact hoom
  · rw [Object.contents, hcells, GString.length, hw, hnew]
  · rw [Heap.extend_length]; omega
  · intro p hb hkeep
    rw [Heap.room, hblock p hb fun he => ?_, Heap.room]
    obtain ⟨q, hq, hqp⟩ := Option.map_eq_some_iff.mp he
    have hnew := (GString.ownBuf_eq_some_iff.mp (hkeep q hq hqp)).2
    rw [← Option.some.inj hnew] at hqp
    simp only at hqp
    omega
  · intro p hb hne
    refine hblock p hb fun he => hne ?_
    -- the own buffer is the buffer
    obtain ⟨q, hq, hqp⟩ := Option.map_eq_some_iff.mp he
    rw [(GString.ownBuf_eq_some_iff.mp hq).2, Option.map_some, hqp]
  · intro q hq
    refine Or.inr ?_
    rw [← Option.some.inj (GString.ownBuf_eq_some_iff.mp hq).2, hlen]
  · intro q hq
    refine Or.inr ?_
    rw [← Option.some.inj hq, hlen]

/-- A buffer that is not owned, or missing, is copied into a new one. -/
theorem wp_replaceBuf (hv : Valid o) (hk : k ≤ 30) (hle : o.str.length ≤ 2 ^ k) {w : BitVec 32}
    (hw : Meta.length w = o.str.length) (hp : Meta.power w = k) :
    wp (GString.replaceBuf o.str.buf o.str.length (2 ^ k)) (fun _ => Moved k o) (fun _ _ => False)
      (fun _ => False) ⟨o.heap, ⟨w, o.str.buf⟩⟩ := by
  rw [wp_replaceBuf_iff]
  refine Heap.wp_malloc_of_mem_oom hv.allocates ⟨nofun, fun _ => ?_⟩
  have hmoved : ∀ new : List Cell, new.length = 2 ^ k → new.take o.str.length = o.contents →
      Moved k o ⟨o.heap.extend new, ⟨Meta.setFree w, some ⟨o.heap.blocks.length, 0⟩⟩⟩ :=
    fun new hsize hnew => moved_extend hk hle rfl hv.allocates (fun _ _ => rfl) hsize hnew
      ((Meta.length_setFree w).trans hw) ((Meta.power_setFree w).trans hp)
  refine ⟨fun hbuf => ?_, fun hbuf => ?_⟩
  · obtain ⟨hread, htake⟩ := Heap.readable_congr (o.heap.extend (List.replicate (2 ^ k) none))
      hv.length_le fun q _ hq => Heap.cellsAt_congr (Heap.extend_getElem?_of_lt hq)
    have hl := length_contents hv
    refine Heap.wp_memcpy hread ?_ ?_
    · show o.str.length ≤ Heap.room _ (some _)
      rw [Heap.room, Heap.cellsAt_extend_self, List.length_replicate]
      exact hle
    · rw [htake]
      show Moved k o ⟨Heap.write _ (some _) o.contents, _⟩
      rw [Heap.write_extend_self]
      have hfit : 0 + o.contents.length ≤ (List.replicate (2 ^ k) (none : Cell)).length := by
        rw [hl, List.length_replicate]
        omega
      refine hmoved _ ?_ ?_
      · exact (Heap.length_splice hfit).trans List.length_replicate
      · rw [Heap.splice, List.take_zero, List.nil_append]
        exact List.take_left' hl
  -- without a buffer there is nothing to copy
  · have hnil : o.str.buf = none := Classical.not_not.mp hbuf
    have hzero : o.str.length = 0 := by
      have := hv.length_le
      rw [Object.room, hnil, Heap.room_none] at this
      omega
    refine hmoved _ List.length_replicate ?_
    rw [Object.contents, hzero, List.take_zero, List.take_zero]

/-- The own buffer is moved to a larger one. -/
theorem wp_resizeOwn (hv : Valid o) (hk : k ≤ 30) (hle : o.str.length ≤ 2 ^ k) {p : Ptr}
    (hown : o.str.ownBuf = some p) {w : BitVec 32} (hw : Meta.length w = o.str.length)
    (hp : Meta.power w = k) :
    wp (GString.resizeOwn p (2 ^ k)) (fun _ => Moved k o) (fun _ _ => False) (fun _ => False)
      ⟨o.heap, ⟨w, some p⟩⟩ := by
  obtain ⟨-, hbuf⟩ := GString.ownBuf_eq_some_iff.mp hown
  have hfree : o.heap.freeFault p = none := hv.freeable p hown
  have hroom : o.str.length ≤ (o.heap.cellsAt (some p)).length := by
    have := hv.length_le
    rwa [Object.room, hbuf] at this
  rw [wp_resizeOwn_iff]
  refine Heap.wp_realloc (h := o.heap) (fun u hu => by rw [hfree] at hu; cases hu)
    (fun _ ho => by rw [hv.allocates] at ho; cases ho) fun _ _ => ⟨nofun, fun _ => ?_⟩
  refine moved_extend hk hle (Heap.kill_length _ p.block) hv.allocates (fun b hb => ?_) ?_ ?_ hw hp
  · exact Heap.kill_getElem?_of_ne fun he => hb (by rw [hown, Option.map_some, he])
  · rw [List.length_append, List.length_replicate, List.length_take]
    omega
  · rw [List.take_append_of_le_length (by rw [List.length_take]; omega), List.take_take,
      min_eq_left hle, Object.contents, hbuf]

/-- The end of `reserve` moves the string to a buffer that is large enough. -/
theorem wp_reallocate (hv : Valid o) (hk : k ≤ 30) (hle : o.str.length ≤ 2 ^ k) :
    wp (GString.reallocate k) (fun _ => Moved k o) (fun _ _ => False) (fun _ => False) o :=
  wp_reallocate_of (by omega)
    (fun _ hown => wp_resizeOwn hv hk hle hown (Meta.length_setPower _ _ (by omega))
      (Meta.power_setPower _ _ (by omega)))
    fun _ => wp_replaceBuf hv hk hle (Meta.length_setPower _ _ (by omega))
      (Meta.power_setPower _ _ (by omega))

/-- The buffer that `reserve` resizes or replaces is no larger than asked for. -/
theorem wp_reallocate_room (ho : o.heap.oom = []) (hk : k < 64) :
    wp (GString.reallocate k) (fun _ o' => o'.room = 2 ^ k ∧ o'.str.length = o.str.length)
      (fun _ _ => False) (fun _ => True) o := by
  have hw : Meta.length (Meta.setPower o.str.word k) = o.str.length := Meta.length_setPower _ _ hk
  refine wp_reallocate_of hk (fun p _ => ?_) fun _ => ?_
  · rw [wp_resizeOwn_iff]
    refine Heap.wp_realloc (fun _ _ => trivial) (fun _ hmem => by rw [ho] at hmem; cases hmem)
      fun _ _ => ⟨by simp, fun _ => ⟨?_, hw⟩⟩
    show Heap.room _ (some _) = _
    rw [← Heap.kill_length o.heap p.block, Heap.room, Heap.cellsAt_extend_self, List.length_append,
      List.length_replicate, List.length_take]
    omega
  · rw [wp_replaceBuf_iff]
    have hsize : (o.heap.extend (List.replicate (2 ^ k) none)).room
        (some ⟨o.heap.blocks.length, 0⟩) = 2 ^ k := by
      rw [Heap.room, Heap.cellsAt_extend_self, List.length_replicate]
    have hlen := (Meta.length_setFree (Meta.setPower o.str.word k)).trans hw
    refine Heap.wp_malloc_of_mem_oom ho ⟨by simp, fun _ => ⟨fun _ => ?_, fun _ => ⟨hsize, hlen⟩⟩⟩
    refine Heap.wp_memcpy_of_any (fun _ => trivial) fun hs hd => ⟨?_, hlen⟩
    have hle : (((o.heap.extend (List.replicate (2 ^ k) none)).cellsAt o.str.buf).take
        o.str.length).length ≤ (o.heap.extend (List.replicate (2 ^ k) none)).room
          (some ⟨o.heap.blocks.length, 0⟩) := List.length_take_le _ _ |>.trans hd
    exact (Heap.room_write hle _).trans hsize

end Growing

/-! ## `reserve` -/

/-- The string has room for `n` bytes, in a buffer that is new if there was none. -/
structure Grown (n : ℕ) (o o' : Object) : Prop where
  valid : Valid o'
  contents : o'.contents = o.contents
  length : o'.str.length = o.str.length
  capacity : n ≤ o'.str.capacity
  room : n ≤ o'.room
  same : n ≤ o.str.capacity → 1 < o.str.capacity → o' = o
  small : o.str.capacity < n → n ≤ 2 ^ 24
  limit : o'.str.capacity ≤ max o.str.capacity (2 ^ 24)
  /-- Only the own buffer may be freed. -/
  cells : ∀ p : Ptr, p.block < o.heap.blocks.length → o.str.ownBuf.map Ptr.block ≠ some p.block →
    o'.heap.cellsAt (some p) = o.heap.cellsAt (some p)
  frame : Frame o o'

theorem Grown.refl {n : ℕ} {o : Object} (hv : Valid o) (hn : n ≤ o.str.capacity)
    (hcap : 1 < o.str.capacity) : Grown n o o where
  valid := hv
  contents := rfl
  length := rfl
  capacity := hn
  room := hn.trans (hv.capacity_le hcap)
  same := fun _ _ => rfl
  small := fun h => absurd h (by omega)
  limit := le_max_left _ _
  cells := fun _ _ _ => rfl
  frame := Frame.refl o

/-- The sizes for which `reserve` is safe: the loop ends, and a string without a known capacity is
not cut. -/
def ReserveOk (n : UInt32) (o : Object) : Prop :=
  n.toNat ≤ 2 ^ 31 ∧ (o.str.capacity ≤ 1 → o.str.length ≤ 2 ^ Nat.clog 2 n.toNat)

/-- `reserve` refuses the size. -/
def TooLarge (n : ℕ) (o : Object) : Prop := o.str.capacity < n ∧ 2 ^ 24 < n

/-- `reserve` threw, and changed nothing. -/
def Refused (n : UInt32) (o : Object) (e : String) (o' : Object) : Prop :=
  o' = o ∧ e = GString.tooLarge n ∧ TooLarge n.toNat o

section Reserve

variable {o : Object} {n : UInt32}

theorem ReserveOk.of_length_le (hn : n.toNat ≤ 2 ^ 31) (hlen : o.str.length ≤ n.toNat) :
    ReserveOk n o :=
  ⟨hn, fun _ => hlen.trans (Nat.le_pow_clog (by decide) _)⟩

/-- A safe `reserve` makes room, or refuses and changes nothing. -/
theorem wp_reserve (hv : Valid o) (hok : ReserveOk n o) :
    wp (GString.reserve n) (fun _ => Grown n.toNat o)
      (Refused n o) (fun _ => False) o := by
  have hpow := hv.power_le
  have hclog : n.toNat ≤ 2 ^ Nat.clog 2 n.toNat := Nat.le_pow_clog (by decide) _
  -- a string moved to a larger buffer
  have hmoved : ∀ k o', Moved k o o' → k ≤ 24 → n.toNat ≤ 2 ^ k →
      (o.str.capacity < n.toNat ∨ o.str.capacity ≤ 1) → Grown n.toNat o o' := by
    intro k o' hm hk hn hgrow
    have hcap : o'.str.capacity = 2 ^ k := by rw [GString.capacity, hm.power]
    have h24 : 2 ^ k ≤ 2 ^ 24 := Nat.pow_le_pow_right (by decide) hk
    refine ⟨hm.valid, hm.contents, hm.length, ?_, ?_, fun h h' => by omega, fun _ => hn.trans h24,
      ?_, hm.cells, hm.frame⟩
    · rw [hcap]
      exact hn
    · rw [hm.room]
      exact hn
    · rw [hcap]
      exact h24.trans (le_max_right _ _)
  have hwp : ∀ k, k ≤ 24 → o.str.length ≤ 2 ^ k → n.toNat ≤ 2 ^ k →
      (o.str.capacity < n.toNat ∨ o.str.capacity ≤ 1) →
      wp (GString.reallocate k) (fun _ => Grown n.toNat o)
        (Refused n o) (fun _ => False) o :=
    fun k hk hle hn hgrow => wp_mono (wp_reallocate hv (by omega) hle)
      (fun _ o' hm => hmoved k o' hm hk hn hgrow) (fun _ _ h => h.elim) fun _ h => h
  simp only [wp] at hwp ⊢
  rw [GString.reserve_apply n o (by omega)]
  split_ifs with hlt h31 h24 h0
  · exact absurd hok.1 (by omega)
  · exact ⟨rfl, rfl, hlt, h24⟩
  · have hle24 : Nat.clog 2 n.toNat ≤ 24 := Nat.clog_le_of_le_pow (by omega)
    refine hwp _ hle24 ?_ hclog (Or.inl hlt)
    by_cases hcap : 1 < o.str.capacity
    · have hlen := hv.length_lt hcap
      have hp : o.str.power < Nat.clog 2 n.toNat := GString.lt_clog_two hlt
      have hdouble : 2 ^ (o.str.power + 1) ≤ 2 ^ Nat.clog 2 n.toNat :=
        Nat.pow_le_pow_right (by decide) hp
      rw [pow_succ] at hdouble
      simp only [GString.capacity] at hlen
      omega
    · exact hok.2 (by omega)
  · have hcap : o.str.capacity = 1 := by rw [GString.capacity, h0, pow_zero]
    have hn1 : n.toNat ≤ 1 := by rw [h0, pow_zero] at hlt; omega
    have hc0 : Nat.clog 2 n.toNat = 0 := Nat.clog_of_right_le_one hn1 2
    have hle := hok.2 hcap.le
    rw [hc0] at hle
    exact hwp 0 (by omega) hle hn1 (Or.inr hcap.le)
  · have hcap : 1 < o.str.capacity := GString.one_lt_capacity_iff.mpr h0
    have hn : n.toNat ≤ o.str.capacity := by simp only [GString.capacity]; omega
    exact Grown.refl hv hn hcap

/-- In a valid string, exactly the safe sizes make `reserve` keep the contents and make room,
unless it throws. -/
theorem reserve_iff (hv : Valid o) :
    wp (GString.reserve n) (fun _ o' => o'.contents = o.contents ∧ n.toNat ≤ o'.str.capacity)
      (fun _ o' => o' = o) (fun _ => False) o ↔ ReserveOk n o := by
  have hpow := hv.power_le
  constructor
  · intro hwp
    have hcap : o.str.capacity ≤ 2 ^ 30 := Nat.pow_le_pow_right (by decide) hpow
    have happly := GString.reserve_apply n o (by omega)
    have h31 : n.toNat ≤ 2 ^ 31 := by
      by_contra hgt
      rw [if_pos (by simp only [GString.capacity] at hcap; omega), if_pos (by omega)] at happly
      simp only [wp, happly] at hwp
    refine ⟨h31, fun hcap => ?_⟩
    by_contra hcut
    have h0 : o.str.power = 0 := by
      by_contra hne
      have := GString.one_lt_capacity_iff.mpr hne
      omega
    have hlt : Nat.clog 2 n.toNat ≤ 24 := by
      refine Nat.clog_le_of_le_pow ?_
      have := Nat.le_pow_clog (b := 2) (by decide) n.toNat
      have := o.str.length_lt
      omega
    -- the size is small, so the buffer is resized or replaced
    have hre : GString.reserve n o = GString.reallocate (Nat.clog 2 n.toNat) o := by
      have hn := Nat.le_pow_clog (b := 2) (by decide) n.toNat
      have hle : 2 ^ Nat.clog 2 n.toNat ≤ 2 ^ 24 := Nat.pow_le_pow_right (by decide) hlt
      rw [happly, h0, pow_zero, if_pos (rfl : 0 = 0)]
      split_ifs with h1 h2 h3
      · omega
      · omega
      · rfl
      · rw [Nat.clog_of_right_le_one (by omega) 2]
    rw [wp, hre] at hwp
    obtain ⟨a, o', -, ⟨hcontents, -⟩, hroom, hlength⟩ := exists_ok_of_wp (wp_mono
      (wp_and hwp (wp_reallocate_room (k := Nat.clog 2 n.toNat) hv.allocates (by omega)))
      (fun _ _ h => h) (fun _ _ h => h.2) fun _ h => h.1)
    have h1 : o'.contents.length = o.contents.length := congrArg List.length hcontents
    have h2 : o'.contents.length ≤ o'.room :=
      List.length_take.trans_le (Nat.min_le_right _ _)
    have h3 := length_contents hv
    omega
  · intro hok
    exact wp_mono (wp_reserve hv hok) (fun _ _ h => ⟨h.contents, h.capacity⟩) (fun _ _ h => h.1)
      fun _ h => h

end Reserve

end Glim
