import Glim.GString.Contents

/-!
# A string and its own views

A view of a string points into the buffer of the string. Appending one, or assigning one, is safe
as long as the buffer stays where it is: `reserve` frees an own buffer that is too small before the
bytes of the view are copied, and the assignments free it before they look at their source.

## Main definitions

* `OwnView`: the string itself, or a part of it
* `SelfCall`: an operation whose argument is a view of its receiver
* `SelfCall.Correct`: the operation gives the contents it promises, and leaves a string that does
  not point into a buffer it has freed
* `SelfCall.Safe`: the strings and the views for which it does

## Main results

* `stable_points`: no method makes its receiver point into a buffer the method has freed
* `SelfCall.correct_iff`: an operation is correct exactly for the safe strings and views
-/

namespace Glim

open Machine Exec Method

/-- A view of a string: the string, or `view (pos, count)`. -/
inductive OwnView where
  | self
  | part (pos count : ℕ)
  deriving DecidableEq, Repr

namespace OwnView

/-- The argument the view is. -/
def get {σ : Type} (s : GString) : OwnView → Exec σ GString
  | self => pure s
  | part pos count => s.view (UInt32.ofNat pos) (Int32.ofNat count)

/-- The view ends inside the string. -/
def Within (o : Object) : OwnView → Prop
  | self => True
  | part pos count => pos + count ≤ o.str.length

/-- The first byte of the view. -/
def start : OwnView → ℕ
  | self => 0
  | part pos _ => pos

def length (o : Object) : OwnView → ℕ
  | self => o.str.length
  | part _ count => count

def contents (o : Object) : OwnView → List Cell
  | self => o.contents
  | part pos count => (o.contents.drop pos).take count

end OwnView

/-- An operation whose argument is a view of its receiver: `s << v`, `s = v` and
`s = s.view (pos, count)`. -/
inductive SelfCall where
  | append (v : OwnView)
  | copy (v : OwnView)
  | move (pos count : ℕ)
  deriving DecidableEq, Repr

namespace SelfCall

/-- The operation. The copy into a buffer that is reused is a `memcpy`, so that its ranges must not
overlap. -/
def run : SelfCall → Method Unit
  | append v => do
    let s ← str
    let gs ← v.get s
    GString.appendGString gs
  | copy .self => pure () -- `this != &gstr`
  | copy (.part pos count) => do
    let s ← str
    let gstr ← s.view (UInt32.ofNat pos) (Int32.ofNat count)
    when (gstr.length ≤ s.capacity ∧ s.capacity > 1)
      (onHeap (Heap.restrict s.buf gstr.buf gstr.length))
    GString.copyAssign gstr
  | move pos count => do
    let s ← str
    let gstr ← s.view (UInt32.ofNat pos) (Int32.ofNat count)
    GString.moveAssign gstr

/-- The view ends inside the string, and the result below the limit on the length. -/
def Within (o : Object) : SelfCall → Prop
  | append v => v.Within o ∧ o.str.length + v.length o < 2 ^ 24
  | copy v => v.Within o
  | move pos count => pos + count ≤ o.str.length

/-- The contents the operation promises. -/
def result (o : Object) : SelfCall → List Cell
  | append v => o.contents ++ v.contents o
  | copy v => v.contents o
  | move pos count => (OwnView.part pos count).contents o

/-- The operation returns with the contents it promises, reads no buffer that was freed, and leaves
a string that does not point into one it has freed. -/
def Correct (o : Object) (c : SelfCall) : Prop :=
  wp c.run
    (fun _ o' => o'.contents = c.result o ∧
      ∀ q, o'.str.buf = some q → ¬ Heap.Invalidated o.heap o'.heap q.block)
    (fun _ _ => False) (fun _ => False) o

/-- What is read is not in an own buffer that the operation frees, and what is copied into a buffer
that is reused does not overlap with where it goes. -/
def Safe (o : Object) : SelfCall → Prop
  | append v => v.length o = 0 ∨ o.str.ownBuf = none ∨
      (o.str.length + v.length o ≤ o.str.capacity ∧ 1 < o.str.capacity)
  | copy .self => True
  | copy (.part pos count) =>
      if count ≤ o.str.capacity ∧ 1 < o.str.capacity then count ≤ pos
      else count = 0 ∨ o.str.ownBuf = none
  | move _ _ => o.str.ownBuf = none

end SelfCall

section Views

variable {o : Object} {pos count : ℕ}

/-- A view that ends inside the string. -/
theorem view_eq {σ : Type} {s : GString} (hin : pos + count ≤ s.length) :
    (s.view (UInt32.ofNat pos) (Int32.ofNat count) : Exec σ GString) =
      pure ⟨Meta.pack false s.copiedByReference 0 count, s.data pos⟩ := by
  have hlen := s.length_lt
  have hpos : (UInt32.ofNat pos).toNat = pos := UInt32.toNat_ofNat_of_le (by omega)
  have hcount : (UInt32.ofNat count).toNat = count := UInt32.toNat_ofNat_of_le (by omega)
  have hint : 0 ≤ (Int32.ofNat count).toInt := by
    rw [Int32.toInt_ofNat_of_lt (by omega)]
    omega
  have hzero : (0 : UInt32).toNat = 0 := rfl
  rw [GString.view, GString.ofBuffer_eq, GString.viewLength, if_pos hint, Int32.toUInt32_ofNat',
    hpos, hcount, hzero, Nat.log_zero_right, if_pos (by decide)]

/-- The string that the view is. -/
def OwnView.str (s : GString) : OwnView → GString
  | self => s
  | part pos count => ⟨Meta.pack false s.copiedByReference 0 count, s.data pos⟩

theorem OwnView.get_eq {σ : Type} {v : OwnView} (hin : v.Within o) :
    (v.get o.str : Exec σ GString) = pure (v.str o.str) := by
  cases v with
  | self => rfl
  | part pos count => exact view_eq hin

theorem OwnView.length_str {v : OwnView} (hin : v.Within o) :
    (v.str o.str).length = v.length o := by
  cases v with
  | self => rfl
  | part pos count =>
    have hlen := o.str.length_lt
    simp only [OwnView.Within] at hin
    rw [OwnView.str, GString.length_mk_pack, OwnView.length, Nat.mod_eq_of_lt (by omega)]

theorem OwnView.buf_str (s : GString) (v : OwnView) : (v.str s).buf = s.data v.start := by
  cases v with
  | self =>
    cases hb : s.buf with
    | none => simp [OwnView.str, GString.data, hb]
    | some p => simp [OwnView.str, OwnView.start, GString.data, hb]
  | part pos count => rfl

theorem OwnView.start_add_length {v : OwnView} (hin : v.Within o) :
    v.start + v.length o ≤ o.str.length := by
  cases v with
  | self => exact (Nat.zero_add _).le
  | part pos count => exact hin

/-- What the view is in memory. -/
theorem OwnView.take_cellsAt {v : OwnView} (hv : Valid o) (hin : v.Within o) :
    v.length o ≤ o.heap.room (o.str.data v.start) ∧
      (o.heap.cellsAt (o.str.data v.start)).take (v.length o) = v.contents o := by
  have hend := v.start_add_length hin
  have hle := hv.length_le
  rw [GString.data, Heap.room_shift, Heap.cellsAt_shift]
  simp only [Object.room] at hle
  refine ⟨by omega, ?_⟩
  cases v with
  | self => rw [OwnView.start, List.drop_zero]; rfl
  | part pos count =>
    rw [OwnView.contents, Object.contents, List.drop_take, List.take_take, min_eq_left]
    · rfl
    · exact Nat.le_sub_of_add_le' hend

end Views

/-! ## Where the string points afterwards -/

/-- The string does not point into a buffer that was freed since `h`. -/
def Points (h : Heap) (o : Object) : Prop :=
  ∀ q, o.str.buf = some q → ¬ Heap.Invalidated h o.heap q.block

section Points

variable {h : Heap} {o : Object}

theorem Points.refl (o : Object) : Points o.heap o :=
  fun _ _ => Heap.not_invalidated_of_status rfl

theorem Points.null (h' : Heap) (w : BitVec 32) : Points h ⟨h', ⟨w, none⟩⟩ := nofun

/-- A new block was not freed. -/
theorem Points.extend (h' : Heap) (new : List Cell) (w : BitVec 32) :
    Points h ⟨h'.extend new, ⟨w, some ⟨h'.blocks.length, 0⟩⟩⟩ := by
  intro q hq hi
  obtain rfl := Option.some.inj hq
  have hlive := hi.2
  rw [Heap.status_extend_self] at hlive
  cases hlive

theorem Points.write (ho : Points h o) (p : Option Ptr) (new : List Cell) {s : GString}
    (hs : s.buf = o.str.buf) : Points h ⟨o.heap.write p new, s⟩ := by
  intro q hq hi
  refine ho q (hs ▸ hq) ⟨hi.1, ?_⟩
  have hdead := hi.2
  rwa [Heap.status_write] at hdead

/-- A string that was copied into a new buffer. -/
theorem wp_memcpy_points {h' : Heap} {new : List Cell} {src : Option Ptr} {n : ℕ} {w : BitVec 32}
    {E : String → Heap → Prop} :
    wp (Heap.memcpy (some ⟨h'.blocks.length, 0⟩) src n)
      (fun _ h'' => Points h ⟨h'', ⟨w, some ⟨h'.blocks.length, 0⟩⟩⟩) E (fun _ => True)
      (h'.extend new) :=
  Heap.wp_memcpy_of_any (fun _ => trivial) fun _ _ => (Points.extend h' new w).write _ _ rfl

/-- The end of `reserve` gives the string a new buffer, or none. -/
theorem preserves_reallocate_points {power : ℕ} (hp : power < 64) :
    Preserves (Points h) (fun _ => True) (GString.reallocate power) := by
  intro o _
  refine wp_reallocate_of hp (fun p _ => ?_) fun _ => ?_
  · rw [wp_resizeOwn_iff]
    refine Heap.wp_realloc (fun _ _ => trivial)
      (fun _ _ => ⟨fun _ => Points.null _ _, fun hne => absurd rfl hne⟩)
      fun _ _ => ⟨nofun, fun _ => ?_⟩
    rw [← Heap.kill_length o.heap p.block]
    exact Points.extend _ _ _
  · rw [wp_replaceBuf_iff]
    refine Heap.wp_malloc ⟨fun _ => Points.null _ _, fun hne => absurd rfl hne⟩
      ⟨nofun, fun _ => ⟨fun _ => wp_memcpy_points, fun _ => Points.extend _ _ _⟩⟩

/-- `owned` frees nothing. -/
theorem preserves_owned_points : Preserves (Points h) (fun _ => True) GString.owned := by
  intro o ho
  simp only [GString.owned, str, onHeap, wp_bind, wp_map, wp_get, wp_when, wp_zoom]
  refine ⟨fun hnot => ?_, fun _ => ho⟩
  have hkeep : ¬ (o.str.buf ≠ none ∧ o.str.needsFreeing = true) := fun hc => hnot hc.2
  simp only [GString.moveAssign, GString.destroy, str, onHeap, modifyStr, wp_bind, wp_map, wp_get,
    wp_zoom, wp_when, hkeep, false_implies, true_and, not_false_eq_true, true_implies, wp_modify,
    GString.ofChars, wp_ite, wp_pure, GString.duplicate]
  refine ⟨fun _ => Heap.wp_malloc ?_ wp_memcpy_points, fun _ => Points.null _ _⟩
  exact Heap.wp_memcpy_of_any (fun _ => trivial) fun _ _ => Points.null _ _

/-- No method makes its receiver point into a buffer that the method has freed. -/
theorem stable_points (h : Heap) : Stable (fun _ => True) (Points h) where
  faults := fun _ _ _ => trivial
  write := fun _ p new ho => ho.write p new rfl
  setLength := fun _ _ ho => ho
  reallocate := fun _ hp => preserves_reallocate_points hp
  owned := preserves_owned_points

theorem wp_destroy_any {Q : Unit → Heap → Prop} {E : String → Heap → Prop} (s : GString)
    (hQ : ∀ h', Q () h') : wp s.destroy Q E (fun _ => True) h := by
  refine (wp_when _ _).mpr ⟨fun hc => ?_, fun _ => hQ _⟩
  cases hb : s.buf with
  | none => exact absurd hb hc.1
  | some p => exact Heap.wp_free (fun _ _ => trivial) fun _ => hQ _

/-- Neither does copy assignment, unless it shares its source. -/
theorem wp_copyAssign_points (ho : Points h o) {g : GString} (hg : g.copiedByReference = false) :
    wp (GString.copyAssign g) (fun _ => Points h) (fun _ => Points h) (fun _ => True) o := by
  simp only [GString.copyAssign, str, onHeap, modifyStr, wp_bind, wp_map, wp_get, wp_zoom,
    wp_modify, wp_ite, wp_when, wp_raise, hg, Bool.false_eq_true, false_implies, true_and,
    not_false_eq_true, true_implies]
  refine ⟨fun _ => ?_, fun _ => ?_⟩
  · exact Heap.wp_memcpy_of_any (fun _ => trivial) fun _ _ => ho.write _ _ rfl
  · refine wp_destroy_any _ fun h' => Heap.wp_malloc ⟨fun _ => Points.null _ _,
      fun hne => absurd rfl hne⟩ ⟨by simp, fun _ => wp_memcpy_points⟩

end Points

/-! ## Appending a view -/

section Append

variable {o : Object} {v : OwnView}

/-- A `reserve` that has to grow an own buffer frees it. -/
theorem wp_reserve_frees (hv : Valid o) {p : Ptr} (hown : o.str.ownBuf = some p) {n : UInt32}
    (hgrow : o.str.capacity < n.toNat ∨ o.str.capacity ≤ 1) (k : ℕ) :
    wp (GString.reserve n) (fun _ o' => o'.heap.cellsAt (some (p.add k)) = []) (fun _ _ => True)
      (fun _ => True) o := by
  have hreallocate : ∀ power, power < 64 → wp (GString.reallocate power)
      (fun _ o' => o'.heap.cellsAt (some (p.add k)) = []) (fun _ _ => True) (fun _ => True) o := by
    intro power hp
    refine wp_reallocate_of hp (fun q hq => ?_) fun hnone => by rw [hown] at hnone; cases hnone
    obtain rfl : p = q := Option.some.inj (hown ▸ hq)
    rw [wp_resizeOwn_iff]
    refine Heap.wp_realloc (fun _ _ => trivial) (fun _ _ => ⟨fun _ => trivial,
      fun hne => absurd rfl hne⟩) fun _ _ => ⟨nofun, fun _ => ?_⟩
    have hblock := Heap.lt_length_of_freeFault (hv.freeable p hown)
    exact Heap.cellsAt_extend_kill_self (p := p.add k) hblock _
  have hpow := hv.power_le
  simp only [wp] at hreallocate ⊢
  rw [GString.reserve_apply n o (by omega)]
  split_ifs with hlt h31 h24 h0
  · trivial
  · trivial
  · have hle : Nat.clog 2 n.toNat ≤ 24 := Nat.clog_le_of_le_pow (by omega)
    exact hreallocate _ (by omega)
  · exact hreallocate 0 (by omega)
  · have hone := GString.one_lt_capacity_iff.mpr h0
    simp only [GString.capacity] at hgrow hone
    omega

/-- So the bytes of a view are gone when they are copied. -/
theorem wp_append_freed (hv : Valid o) {p : Ptr} (hown : o.str.ownBuf = some p) {k : ℕ}
    {clen : UInt32} (hpos : clen.toNat ≠ 0)
    (hgrow : o.str.capacity < (UInt32.ofNat o.str.length + clen).toNat ∨ o.str.capacity ≤ 1) :
    wp (GString.append (some (p.add k)) clen) (fun _ _ => False) (fun _ _ => True)
      (fun _ => True) o := by
  simp only [GString.append, str, wp_bind, wp_map, wp_get]
  refine (wp_when _ _).mpr ⟨fun _ => ?_, fun hnot => absurd hgrow hnot⟩
  refine wp_mono (wp_reserve_frees hv hown hgrow k) (fun _ o' hgone => ?_) (fun _ _ h => h)
    fun _ h => h
  simp only [onHeap, wp_zoom]
  refine Heap.wp_memcpy_of_any (fun _ => trivial) fun hread _ => ?_
  rw [Heap.room, hgone, List.length_nil] at hread
  exact hpos (Nat.le_zero.mp hread)

/-- What appending a view is. -/
theorem wp_append_view {Q : Unit → Object → Prop} {E : String → Object → Prop} {F : Fault → Prop}
    (hin : v.Within o) :
    wp (SelfCall.append v).run Q E F o ↔
      wp (GString.append (o.str.data v.start) (UInt32.ofNat (v.length o))) Q E F o := by
  simp only [SelfCall.run, str, wp_bind, wp_map, wp_get]
  rw [v.get_eq hin, wp_pure, GString.appendGString, v.buf_str, v.length_str hin]

theorem append_correct (hv : Valid o) (hin : v.Within o) (hlen : o.str.length + v.length o < 2 ^ 24)
    (hsafe : (SelfCall.append v).Safe o) : (SelfCall.append v).Correct o := by
  have hn := UInt32.toNat_ofNat_of_le (n := v.length o) (by omega)
  obtain ⟨hread, hcells⟩ := v.take_cellsAt hv hin
  have hl : (v.contents o).length = v.length o := by
    rw [← hcells]
    exact List.length_take.trans (min_eq_left hread)
  have hok : AppendOk (o.str.data v.start) (UInt32.ofNat (v.length o)).toNat o := by
    rw [hn]
    refine ⟨hread, by omega, fun hown hne => ?_⟩
    rcases hsafe with h0 | hnone | hfits
    · exact absurd h0 hne
    · have hbuf : o.str.data v.start = none := by
        rw [hnone] at hown
        exact Option.map_eq_none_iff.mp hown.symm
      rw [hbuf, Heap.room_none] at hread
      exact absurd (Nat.le_zero.mp hread) hne
    · exact hfits
  refine (wp_append_view hin).mpr ?_
  refine wp_mono (wp_and (wp_append hv hok) ((stable_points o.heap).append _ _ o (Points.refl o)))
    (fun _ o' h => ⟨?_, h.2⟩) (fun _ _ h => ?_) fun _ h => h.1
  · rw [h.1.contents (by rw [hn]; exact hlen), hn, hcells, ← hl, List.take_length]
    rfl
  -- the result is below the limit
  · have hlarge := h.1.2.2.2
    have hL := UInt32.toNat_ofNat_of_le (n := o.str.length) (by omega)
    have hadd := UInt32.toNat_add (UInt32.ofNat o.str.length) (UInt32.ofNat (v.length o))
    rw [hL, hn] at hadd
    omega

theorem append_safe (hv : Valid o) (hin : v.Within o) (hlen : o.str.length + v.length o < 2 ^ 24)
    (hcorrect : (SelfCall.append v).Correct o) : (SelfCall.append v).Safe o := by
  by_contra hunsafe
  simp only [SelfCall.Safe, not_or, not_and_or] at hunsafe
  obtain ⟨h0, hown, hgrow⟩ := hunsafe
  obtain ⟨p, hp⟩ := Option.ne_none_iff_exists'.mp hown
  have hn := UInt32.toNat_ofNat_of_le (n := v.length o) (by omega)
  have hL := UInt32.toNat_ofNat_of_le (n := o.str.length) (by omega)
  have hadd := UInt32.toNat_add (UInt32.ofNat o.str.length) (UInt32.ofNat (v.length o))
  rw [hL, hn] at hadd
  have hdata : o.str.data v.start = some (p.add v.start) := by
    rw [GString.data, (GString.ownBuf_eq_some_iff.mp hp).2, Ptr.shift_some]
  have hpos : (UInt32.ofNat (v.length o)).toNat ≠ 0 := by rwa [hn]
  have hfreed := wp_append_freed (k := v.start) hv hp hpos (by omega)
  rw [← hdata] at hfreed
  exact wp_excludes hfreed ((wp_append_view hin).mp hcorrect) (fun _ _ h _ => h)
    (fun _ _ _ h => h) fun _ _ h => h

end Append

/-! ## Assigning a view -/

section Assign

variable {o : Object} {pos count : ℕ}

/-- What copying a part is. -/
theorem wp_copy_part {Q : Unit → Object → Prop} {E : String → Object → Prop} {F : Fault → Prop}
    (href : o.str.copiedByReference = false) (hin : pos + count ≤ o.str.length) :
    wp (SelfCall.copy (.part pos count)).run Q E F o ↔
      wp (when (count ≤ o.str.capacity ∧ o.str.capacity > 1)
        (onHeap (Heap.restrict o.str.buf (o.str.data pos) count)))
        (fun _ => wp (GString.copyAssign ⟨Meta.pack false false 0 count, o.str.data pos⟩) Q E F)
        E F o := by
  have hlen := o.str.length_lt
  simp only [SelfCall.run, str, wp_bind, wp_map, wp_get]
  rw [view_eq hin, wp_pure, href, GString.length_mk_pack, Nat.mod_eq_of_lt (by omega)]

/-- The string that `view` makes is valid while the buffer is. -/
theorem valid_view (hv : Valid o) (hin : pos + count ≤ o.str.length) :
    Valid ⟨o.heap, ⟨Meta.pack false false 0 count, o.str.data pos⟩⟩ ∧
      Object.contents ⟨o.heap, ⟨Meta.pack false false 0 count, o.str.data pos⟩⟩ =
        (OwnView.part pos count).contents o := by
  have hlen := o.str.length_lt
  have hmod : count % 2 ^ 24 = count := Nat.mod_eq_of_lt (by omega)
  obtain ⟨hread, hcells⟩ := OwnView.take_cellsAt (v := .part pos count) hv hin
  refine ⟨valid_pack hv.allocates (Nat.zero_le _) ?_ (fun h => absurd rfl h) nofun, ?_⟩
  · rw [hmod]
    exact hread
  · rw [contents_pack, hmod]
    exact hcells

/-- Nothing is copied into a new buffer. -/
theorem wp_copyAssign_nothing (hv : Valid o) {g : GString} (hg : g.length = 0)
    (href : g.copiedByReference = false)
    (hnew : ¬ (g.length ≤ o.str.capacity ∧ o.str.capacity > 1)) :
    wp (GString.copyAssign g) (fun _ o' => o'.contents = []) (fun _ _ => False) (fun _ => False)
      o := by
  obtain ⟨hempty, -⟩ := valid_empty hv.allocates
  simp only [GString.copyAssign, str, onHeap, modifyStr, wp_bind, wp_map, wp_get, wp_zoom,
    wp_modify, wp_ite, wp_when, wp_raise, href, Bool.false_eq_true, false_implies, true_and,
    not_false_eq_true, true_implies]
  refine ⟨fun hc => absurd hc hnew, fun _ => ?_⟩
  refine wp_mono (wp_destroy hv ⟨hempty, fun _ _ h => by cases h⟩) (fun _ h hd => ?_)
    (fun _ _ h => h)
    fun _ h => h
  refine Heap.wp_malloc_of_mem_oom hd.1.allocates ⟨by simp, fun _ => ?_⟩
  rw [hg]
  refine wp_memcpy_extend (Nat.zero_le _) ?_
  rw [contents_pack]
  exact List.take_zero

/-- An own buffer that is not reused is freed before the source is read. -/
theorem wp_copyAssign_freed (hv : Valid o) {p : Ptr} (hown : o.str.ownBuf = some p) {k : ℕ}
    {g : GString} (hbuf : g.buf = some (p.add k)) (hg : g.length ≠ 0)
    (href : g.copiedByReference = false)
    (hnew : ¬ (g.length ≤ o.str.capacity ∧ o.str.capacity > 1)) :
    wp (GString.copyAssign g) (fun _ _ => False) (fun _ _ => True) (fun _ => True) o := by
  obtain ⟨hfree, hp⟩ := GString.ownBuf_eq_some_iff.mp hown
  have hblock := Heap.lt_length_of_freeFault (hv.freeable p hown)
  simp only [GString.copyAssign, str, onHeap, modifyStr, wp_bind, wp_map, wp_get, wp_zoom,
    wp_modify, wp_ite, wp_when, wp_raise, href, Bool.false_eq_true, false_implies, true_and,
    not_false_eq_true, true_implies]
  refine ⟨fun hc => absurd hc hnew, fun _ => ?_⟩
  refine (wp_when _ _).mpr ⟨fun _ => ?_, fun hnot => absurd ⟨by simp [hp], hfree⟩ hnot⟩
  rw [hp]
  refine Heap.wp_free (fun _ _ => trivial) fun _ => Heap.wp_malloc_of_mem_oom hv.allocates
    ⟨by simp, fun _ => Heap.wp_memcpy_of_any (fun _ => trivial) fun hread _ => hg ?_⟩
  have hgone := Heap.cellsAt_extend_kill_self (p := p.add k) hblock (List.replicate g.length none)
  rw [hbuf, Heap.room] at hread
  rw [Ptr.add_block] at hgone
  rw [hgone] at hread
  exact Nat.le_zero.mp hread

theorem copy_part_correct (hv : Valid o) (href : o.str.copiedByReference = false)
    (hin : pos + count ≤ o.str.length) (hsafe : (SelfCall.copy (.part pos count)).Safe o) :
    (SelfCall.copy (.part pos count)).Correct o := by
  have hlen := o.str.length_lt
  obtain ⟨hvalid, hcontents⟩ := valid_view hv hin
  have hglen : GString.length ⟨Meta.pack false false 0 count, o.str.data pos⟩ = count := by
    rw [GString.length_mk_pack, Nat.mod_eq_of_lt (by omega)]
  have hgref : GString.copiedByReference ⟨Meta.pack false false 0 count, o.str.data pos⟩ = false :=
    GString.copiedByReference_mk_pack _ _ _ _ (by decide)
  have hpoints := wp_copyAssign_points (Points.refl o) hgref
  refine (wp_copy_part href hin).mpr ((wp_when _ _).mpr ⟨fun hreuse => ?_, fun hnew => ?_⟩)
  -- the buffer is reused
  · have hle : count ≤ pos := by
      simp only [SelfCall.Safe] at hsafe
      rwa [if_pos hreuse] at hsafe
    refine wp_zoom.mpr ((wp_when _ _).mpr ⟨fun hover => ?_, fun _ => ?_⟩)
    · have := (Heap.overlap_shift_iff.mp hover).2
      omega
    · refine wp_mono (wp_and (wp_copyAssign_reuse hv hvalid.length_le (by rwa [hglen])) hpoints)
        (fun _ o' h => ⟨?_, h.2⟩) (fun _ _ h => h.1) fun _ h => h.1
      rw [h.1.1, hcontents]
      rfl
  · rw [← hglen] at hnew
    have hcopy : wp (GString.copyAssign ⟨Meta.pack false false 0 count, o.str.data pos⟩)
        (fun _ o' => o'.contents = (OwnView.part pos count).contents o) (fun _ _ => False)
        (fun _ => False) o := by
      simp only [SelfCall.Safe] at hsafe
      rw [hglen] at hnew
      rw [if_neg hnew] at hsafe
      rcases hsafe with rfl | hnone
      · refine wp_mono (wp_copyAssign_nothing hv hglen hgref (by rwa [hglen])) (fun _ o' h => ?_)
          (fun _ _ h => h) fun _ h => h
        exact h.trans (List.take_zero (l := o.contents.drop pos)).symm
      · have hok : CopyAssignOk ⟨Meta.pack false false 0 count, o.str.data pos⟩ o := by
          refine ⟨hvalid, ?_⟩
          rw [if_neg (by rwa [hglen]), hnone]
          exact nofun
        exact wp_mono (wp_copyAssign hv hok) (fun _ o' h => h.2.trans hcontents) (fun _ _ h => h)
          fun _ h => h
    exact wp_mono (wp_and hcopy hpoints) (fun _ _ h => h) (fun _ _ h => h.1) fun _ h => h.1

theorem copy_part_safe (hv : Valid o) (href : o.str.copiedByReference = false)
    (hin : pos + count ≤ o.str.length) (hcorrect : (SelfCall.copy (.part pos count)).Correct o) :
    (SelfCall.copy (.part pos count)).Safe o := by
  have hlen := o.str.length_lt
  have hglen : GString.length ⟨Meta.pack false false 0 count, o.str.data pos⟩ = count := by
    rw [GString.length_mk_pack, Nat.mod_eq_of_lt (by omega)]
  have hrun := (wp_when _ _).mp ((wp_copy_part href hin).mp hcorrect)
  simp only [SelfCall.Safe]
  split_ifs with hreuse
  · by_contra hgt
    have hbuf : o.str.buf ≠ none := by
      intro hnone
      have hroom := hv.length_le
      rw [Object.room, hnone, Heap.room_none] at hroom
      omega
    exact ((wp_when _ _).mp (wp_zoom.mp (hrun.1 hreuse))).1
      (Heap.overlap_shift_iff.mpr ⟨hbuf, Nat.lt_of_not_le hgt⟩)
  · by_contra hunsafe
    rw [not_or] at hunsafe
    obtain ⟨p, hp⟩ := Option.ne_none_iff_exists'.mp hunsafe.2
    have hdata : o.str.data pos = some (p.add pos) := by
      rw [GString.data, (GString.ownBuf_eq_some_iff.mp hp).2, Ptr.shift_some]
    have hfreed := wp_copyAssign_freed (g := ⟨Meta.pack false false 0 count, o.str.data pos⟩) hv hp
      hdata (by rw [hglen]; exact hunsafe.1)
      (GString.copiedByReference_mk_pack _ _ _ _ (by decide)) (by rwa [hglen])
    exact wp_excludes hfreed (hrun.2 hreuse) (fun _ _ h _ => h) (fun _ _ _ h => h) fun _ _ h => h

/-- What moving a part is. -/
theorem move_correct_iff (hv : Valid o) (href : o.str.copiedByReference = false)
    (hin : pos + count ≤ o.str.length) :
    (SelfCall.move pos count).Correct o ↔ o.str.ownBuf = none := by
  obtain ⟨hvalid, hcontents⟩ := valid_view hv hin
  -- the view refers to the bytes of the string itself
  have hrun : ∀ Q E F, wp (SelfCall.move pos count).run Q E F o ↔
      wp (GString.moveAssign ⟨Meta.pack false false 0 count, o.str.data pos⟩) Q E F o := by
    intro Q E F
    simp only [SelfCall.run, str, wp_bind, wp_map, wp_get]
    rw [view_eq hin, wp_pure, href]
  constructor
  · intro hcorrect
    by_contra hown
    obtain ⟨p, hp⟩ := Option.ne_none_iff_exists'.mp hown
    obtain ⟨hfree, hbuf⟩ := GString.ownBuf_eq_some_iff.mp hp
    have hdata : o.str.data pos = some (p.add pos) := by
      rw [GString.data, hbuf, Ptr.shift_some]
    have hmove := (hrun _ _ _).mp hcorrect
    simp only [GString.moveAssign, str, onHeap, modifyStr, wp_bind, wp_map, wp_get, wp_zoom,
      wp_modify] at hmove
    -- the assignment frees the buffer of the string first
    have hkilled := ((wp_when _ _).mp hmove).1 ⟨by rw [hbuf]; nofun, hfree⟩
    rw [hbuf] at hkilled
    simp only [wp, Heap.free, hv.freeable p hp] at hkilled
    exact hkilled.2 (p.add pos) hdata (Heap.invalidated_kill (hv.freeable p hp))
  · intro hnone
    -- nothing is freed for a string that owns no buffer
    have hkeep : ¬ (o.str.buf ≠ none ∧ o.str.needsFreeing = true) := fun hc =>
      hc.1 (by rwa [GString.ownBuf, if_pos hc.2] at hnone)
    refine (hrun _ _ _).mpr ?_
    simp only [GString.moveAssign, GString.destroy, str, onHeap, modifyStr, wp_bind, wp_map, wp_get,
      wp_zoom, wp_when, hkeep, false_implies, true_and, not_false_eq_true, true_implies, wp_modify]
    exact ⟨hcontents, fun _ _ => Heap.not_invalidated_of_status rfl⟩

end Assign

/-- An operation on a view of its receiver is correct exactly when the bytes of the view survive
until they are copied. -/
theorem SelfCall.correct_iff {o : Object} {c : SelfCall} (hv : Valid o)
    (href : o.str.copiedByReference = false) (hin : c.Within o) : c.Correct o ↔ c.Safe o := by
  cases c with
  | append v => exact ⟨append_safe hv hin.1 hin.2, append_correct hv hin.1 hin.2⟩
  | copy v =>
    cases v with
    | self => exact ⟨fun _ => trivial, fun _ => ⟨rfl, Points.refl o⟩⟩
    | part pos count => exact ⟨copy_part_safe hv href hin, copy_part_correct hv href hin⟩
  | move pos count => exact move_correct_iff hv href hin

/-- `"ab"` in a buffer of four bytes on the stack. -/
def stackAb : Object :=
  ⟨⟨[⟨[some 97, some 98, none, none], .foreign, true⟩], 0, []⟩,
    ⟨Meta.pack false false 2 2, some ⟨0, 0⟩⟩⟩

/-- It can be appended to itself. -/
theorem correct_stackAb : (SelfCall.append .self).Correct stackAb := by
  have hv : Valid stackAb :=
    valid_pack rfl (by decide) (by decide) (fun _ => by decide) nofun
  have hin : (SelfCall.append .self).Within stackAb := ⟨trivial, by decide⟩
  exact (SelfCall.correct_iff hv (by decide) hin).mpr (Or.inr (Or.inl (by decide)))

/-- `gstring ("ab")`, which owns a buffer of two bytes. -/
def ownedAb : Object :=
  ⟨⟨[⟨[some 97, some 98], .malloc, true⟩], 1, []⟩, ⟨Meta.pack true false 0 2, some ⟨0, 0⟩⟩⟩

/-- Appended to itself, it is read from the buffer that `realloc` has freed; its view is copied from
the buffer that was freed before; and moved into itself, the view points to that buffer. -/
theorem own_buffer_freed :
    Valid ownedAb ∧ ownedAb.str.copiedByReference = false ∧
      ((SelfCall.append .self).Within ownedAb ∧
        (SelfCall.append .self).run ownedAb = .fault .useAfterFree) ∧
      ((SelfCall.copy (.part 0 2)).Within ownedAb ∧
        (SelfCall.copy (.part 0 2)).run ownedAb = .fault .useAfterFree) ∧
      ((SelfCall.move 0 2).Within ownedAb ∧ ¬ (SelfCall.move 0 2).Correct ownedAb) := by
  have hv : Valid ownedAb :=
    valid_pack rfl (by decide) (by decide) (fun h => absurd rfl h) fun _ p hp => by
      obtain rfl := Option.some.inj hp
      rfl
  have hlen : 0 + 2 ≤ ownedAb.str.length := by decide
  refine ⟨hv, by decide, ⟨⟨trivial, by decide⟩, by decide +kernel⟩, ⟨hlen, by decide +kernel⟩, hlen,
    fun hcorrect => ?_⟩
  have hnone := (move_correct_iff hv (by decide) hlen).mp hcorrect
  exact absurd hnone (by decide)

end Glim
