import Glim.GString.OutOfMemory

/-!
# The sizes for which the capacity loops end

Both loops that look for a power of two shift by 32 when no smaller power will do. Where the loop of
`reserve` ends, the string gets the least power of two that is large enough, or the size is refused.

## Main definitions

* `Ends`: the program ends, and shifts by less than 32 on the way
* `Reserves`: `reserve` gives the string the right capacity, or refuses the size
* `Constructs`: the constructor over a caller's buffer gives the string the right capacity
* `HasHeader`: what is read from the stream is the header of a netstring

## Main results

* `wp_reallocate_iff`: when the end of `reserve` returns
* `ends_reserve_iff`: the sizes for which `reserve` ends
* `capacityLoops_iff`: the sizes for which the loops end, and do what they are for
-/

namespace Glim

open Machine Exec Method Text

/-- The program ends, and shifts by less than 32 on the way. It may throw, or access memory that it
must not. -/
def Ends {σ α : Type} (x : Exec σ α) (s : σ) : Prop :=
  wp x (fun _ _ => True) (fun _ _ => True) (fun u => u ≠ .wideShift ∧ u ≠ .diverges) s

/-- `reserve (n)` returns, with the least power of two for the capacity if the string had to grow,
or it throws because the string would have to grow too large, and leaves it as it is. -/
def Reserves (n : UInt32) (o : Object) : Prop :=
  wp (GString.reserve n)
    (fun _ o' => o.str.capacity < n.toNat →
      IsLeast {c | (∃ k, c = 2 ^ k) ∧ max n.toNat 2 ≤ c} o'.str.capacity)
    (fun _ o' => o' = o ∧ TooLarge n.toNat o) (fun _ => False) o

/-- The constructor over a buffer returns, with the largest power of two that fits for the
capacity. -/
def Constructs (bufSize : UInt32) (buf : Option Ptr) (free : Bool) (length : UInt32) (ref : Bool) :
    Prop :=
  ∀ h : Heap, ∃ g, GString.ofBuffer bufSize buf free length ref h = .ok g h ∧
    (1 ≤ bufSize.toNat → IsGreatest {c | (∃ k, c = 2 ^ k) ∧ c ≤ bufSize.toNat} g.capacity)

/-- The end of `reserve` has room for the string in the new buffer, or resizes the old one. -/
def CopyFits (n : ℕ) (o : Object) : Prop := o.str.ownBuf = none → o.str.length ≤ 2 ^ Nat.clog 2 n

/-- The stream begins with the header of a netstring. -/
def HasHeader (stream : IStream) : Prop :=
  stream.extractInt32.2.good ∧ 0 ≤ stream.extractInt32.1 ∧
    stream.extractInt32.2.getChar.2.good ∧ stream.extractInt32.2.getChar.1 = some 58

/-! ## Programs that end -/

section Ends

variable {σ α β : Type} {s : σ}

/-- A program that goes on with one that ends. -/
theorem ends_bind_iff {x : Exec σ α} {f : α → Exec σ β} (hf : ∀ a s, Ends (f a) s) :
    Ends (x >>= f) s ↔ Ends x s := by
  unfold Ends
  rw [wp_bind]
  constructor
  · exact fun h => wp_mono h (fun _ _ _ => trivial) (fun _ _ h => h) fun _ h => h
  · exact fun h => wp_mono h (fun a s' _ => hf a s') (fun _ _ h => h) fun _ h => h

theorem ends_when_iff {x : Exec σ Unit} {c : Prop} [Decidable c] :
    Ends (when c x) s ↔ (c → Ends x s) := by
  unfold Ends
  rw [wp_when]
  exact ⟨And.left, fun h => ⟨h, fun _ => trivial⟩⟩

theorem ends_pure {a : α} : Ends (pure a) s := trivial

theorem ends_raise {message : String} : Ends (raise message : Exec σ α) s := trivial

theorem ends_modify {f : σ → σ} : Ends (modify f) s := trivial

end Ends

section Memory

variable {h : Heap} {p q : Option Ptr} {new : List Cell} {n : ℕ}

theorem badAccess_ne_shift : h.badAccess p ≠ .wideShift ∧ h.badAccess p ≠ .diverges := by
  unfold Heap.badAccess
  split
  · exact ⟨nofun, nofun⟩
  · split
    · split_ifs <;> exact ⟨nofun, nofun⟩
    · exact ⟨nofun, nofun⟩

theorem freeFault_ne_shift {p : Ptr} {u : Fault} (hu : h.freeFault p = some u) :
    u ≠ .wideShift ∧ u ≠ .diverges := by
  unfold Heap.freeFault at hu
  split at hu
  · cases hu
    exact ⟨nofun, nofun⟩
  · split_ifs at hu <;> cases hu <;> exact ⟨nofun, nofun⟩

theorem ends_store : Ends (Heap.store p new) h :=
  Heap.wp_store_of_faults badAccess_ne_shift trivial

theorem ends_memcpy : Ends (Heap.memcpy p q n) h :=
  Heap.wp_memcpy_of_faults badAccess_ne_shift badAccess_ne_shift fun _ => trivial

theorem ends_onHeap {α : Type} {x : Exec Heap α} {o : Object} (hx : Ends x o.heap) :
    Ends (onHeap x) o :=
  wp_zoom.mpr hx

end Memory

/-! ## `reserve` -/

section Reserve

variable {o : Object} {n : UInt32} {k : ℕ}

theorem ends_reallocate (hk : k < 64) : Ends (GString.reallocate k) o := by
  refine wp_reallocate_of hk (fun p _ => ?_) fun _ => ?_
  · rw [wp_resizeOwn_iff]
    exact Heap.wp_realloc (fun _ hu => freeFault_ne_shift hu)
      (fun _ _ => ⟨fun _ => trivial, fun _ => trivial⟩)
      fun _ _ => ⟨fun _ => trivial, fun _ => trivial⟩
  · rw [wp_replaceBuf_iff]
    have hcopy : ∀ h buf, wp (Heap.memcpy buf o.str.buf o.str.length) (fun _ _ => True)
        (fun _ _ => True) (fun u => u ≠ .wideShift ∧ u ≠ .diverges) h :=
      fun _ _ => ends_memcpy
    exact Heap.wp_malloc ⟨fun _ => trivial, fun _ => ⟨fun _ => hcopy _ _, fun _ => trivial⟩⟩
      ⟨fun _ => trivial, fun _ => ⟨fun _ => hcopy _ _, fun _ => trivial⟩⟩

/-- The sizes for which `reserve` ends. -/
theorem ends_reserve_iff (hp : o.str.power ≤ 30) :
    Ends (GString.reserve n) o ↔ n.toNat ≤ 2 ^ 31 := by
  have hpow : 2 ^ o.str.power ≤ 2 ^ 30 := Nat.pow_le_pow_right (by decide) hp
  have hreallocate : ∀ k < 64, Ends (GString.reallocate k) o := fun k hk => ends_reallocate hk
  simp only [Ends, wp] at hreallocate ⊢
  rw [GString.reserve_apply n o (by omega)]
  split_ifs with hlt h31 h24 h0
  · exact ⟨fun h => absurd rfl h.1, fun hle => absurd hle (by omega)⟩
  · exact ⟨fun _ => by omega, fun _ => trivial⟩
  · have hle : Nat.clog 2 n.toNat ≤ 24 := Nat.clog_le_of_le_pow (by omega)
    exact ⟨fun _ => by omega, fun _ => hreallocate _ (by omega)⟩
  · exact ⟨fun _ => by omega, fun _ => hreallocate 0 (by omega)⟩
  · exact ⟨fun _ => by omega, fun _ => trivial⟩

/-- A program that ends in no way does not exist. -/
theorem not_wp_false {σ α : Type} {x : Exec σ α} {s : σ} :
    ¬ wp x (fun _ _ => False) (fun _ _ => False) (fun _ => False) s := by
  unfold wp
  cases x s <;> exact id

/-- A string that is longer than the new buffer is copied behind the end of that. -/
theorem reallocate_faults (hv : ValidUnlessOom o) (hk : k < 64) (hserved : Served o)
    (hnone : o.str.ownBuf = none) (hlong : ¬ o.str.length ≤ 2 ^ k) :
    wp (GString.reallocate k) (fun _ _ => False) (fun _ _ => False) (fun _ => True) o := by
  refine wp_reallocate_of hk (fun p hown => ?_) fun _ => ?_
  · rw [hnone] at hown
    cases hown
  · rw [wp_replaceBuf_iff]
    refine Heap.wp_malloc_of (fun hmem => absurd hmem hserved)
      fun _ => ⟨nofun, fun _ => ⟨fun _ => ?_, fun hnull => ?_⟩⟩
    · refine Heap.wp_memcpy_of_any (fun _ => trivial) fun _ hroom => hlong ?_
      rwa [Heap.room, Heap.cellsAt_extend_self, List.length_replicate] at hroom
    · have hle : o.str.length ≤ o.heap.room o.str.buf := hv.length_le
      rw [Classical.not_not.mp hnull, Heap.room_none] at hle
      exact hlong (hle.trans (Nat.zero_le _))

/-- The string gets a buffer of the given power, where there is memory for it and the string
fits. -/
theorem wp_reallocate_fits (hv : ValidUnlessOom o) (hk : k < 64) (hserved : Served o)
    (hfits : o.str.ownBuf = none → o.str.length ≤ 2 ^ k) {Q : Unit → Object → Prop}
    {E : String → Object → Prop} {F : Fault → Prop} (hQ : ∀ o', o'.str.power = k → Q () o') :
    wp (GString.reallocate k) Q E F o := by
  have hpower : Meta.power (Meta.setPower o.str.word k) = k := Meta.power_setPower _ _ hk
  refine wp_reallocate_of hk (fun p hown => ?_) fun hnone => ?_
  · -- the buffer of the string is reallocated
    have hfree : o.heap.freeFault p = none := hv.freeable p hown
    rw [wp_resizeOwn_iff]
    refine Heap.wp_realloc (fun u hu => ?_) (fun _ hmem => absurd hmem hserved)
      fun _ _ => ⟨nofun, fun _ => hQ _ hpower⟩
    rw [hfree] at hu
    cases hu
  · -- the string is copied into a buffer of its own
    rw [wp_replaceBuf_iff]
    have hfree : Meta.power (Meta.setFree (Meta.setPower o.str.word k)) = k :=
      (Meta.power_setFree _).trans hpower
    refine Heap.wp_malloc_of (fun hmem => absurd hmem hserved)
      fun _ => ⟨nofun, fun _ => ⟨fun _ => ?_, fun _ => hQ _ hfree⟩⟩
    have hle : o.str.length ≤ o.heap.room o.str.buf := hv.length_le
    obtain ⟨hread, -⟩ := Heap.readable_congr (o.heap.extend (List.replicate (2 ^ k) none)) hle
      fun q _ hq => Heap.cellsAt_congr (Heap.extend_getElem?_of_lt hq)
    refine Heap.wp_memcpy hread ?_ (hQ _ hfree)
    show o.str.length ≤ Heap.room _ (some _)
    rw [Heap.room, Heap.cellsAt_extend_self, List.length_replicate]
    exact hfits hnone

/-- When the end of `reserve` returns: the memory is there, and a string that is copied fits. -/
theorem wp_reallocate_iff (hv : ValidUnlessOom o) (hk : k < 64) {Q : Unit → Object → Prop}
    {E : String → Object → Prop} (hQ : ∀ o', o'.str.power = k → Q () o') (hE : ∀ e o', ¬ E e o') :
    wp (GString.reallocate k) Q E (fun _ => False) o ↔
      Served o ∧ (o.str.ownBuf = none → o.str.length ≤ 2 ^ k) := by
  constructor
  · intro h
    have hserved : Served o := by
      by_contra hfails
      exact not_wp_false (wp_mono (wp_and h (wp_reallocate_failed hv hk hfails))
        (fun _ _ h => h.2) (fun e o' h => hE e o' h.1) fun _ h => h.1)
    refine ⟨hserved, fun hnone => ?_⟩
    by_contra hlong
    exact not_wp_false (wp_mono (wp_and h (reallocate_faults hv hk hserved hnone hlong))
      (fun _ _ h => h.2) (fun e o' h => hE e o' h.1) fun _ h => h.1)
  · rintro ⟨hserved, hfits⟩
    exact wp_reallocate_fits hv hk hserved hfits hQ

/-- The loop finds the least power of two that is large enough. -/
theorem isLeast_clog {n : ℕ} (h : 1 < n) :
    IsLeast {c | (∃ k, c = 2 ^ k) ∧ max n 2 ≤ c} (2 ^ Nat.clog 2 n) := by
  refine ⟨⟨⟨_, rfl⟩, ?_⟩, ?_⟩
  · rw [max_eq_left h]
    exact Nat.le_pow_clog (by decide) n
  · rintro c ⟨⟨k, rfl⟩, hle⟩
    exact Nat.pow_le_pow_right (by decide) (Nat.clog_le_of_le_pow ((le_max_left _ _).trans hle))

theorem isGreatest_log {n : ℕ} (h : 1 ≤ n) :
    IsGreatest {c | (∃ k, c = 2 ^ k) ∧ c ≤ n} (2 ^ Nat.log 2 n) := by
  refine ⟨⟨⟨_, rfl⟩, Nat.pow_log_le_self 2 (by omega)⟩, ?_⟩
  rintro c ⟨⟨k, rfl⟩, hle⟩
  exact Nat.pow_le_pow_right (by decide) (Nat.le_log_of_pow_le (by decide) hle)

/-- When `reserve` does what it is for. -/
theorem reserves_iff (hv : ValidUnlessOom o) : Reserves n o ↔
    n.toNat ≤ 2 ^ 31 ∧ (Needs n.toNat o → Served o ∧ CopyFits n.toNat o) := by
  have hp : o.str.power ≤ 30 := hv.power_le
  have hpow : 2 ^ o.str.power ≤ 2 ^ 30 := Nat.pow_le_pow_right (by decide) hp
  have happly := GString.reserve_apply n o (by omega)
  unfold Reserves
  split_ifs at happly with hlt h31 h24 h0
  -- more than `2 ^ 31` bytes: the shift is too wide
  · refine ⟨fun h => ?_, fun h => absurd h.1 (by omega)⟩
    rw [wp, happly] at h
    exact h.elim
  -- more than `2 ^ 24` bytes are refused
  · refine ⟨fun _ => ⟨by omega, fun h => absurd h.1 (by omega)⟩, fun _ => ?_⟩
    rw [wp, happly]
    exact ⟨rfl, hlt, h24⟩
  · -- the string grows to the power that the loop has found
    have hle : Nat.clog 2 n.toNat ≤ 24 := Nat.clog_le_of_le_pow (by omega)
    have hone : 1 < n.toNat := Nat.one_le_two_pow.trans_lt hlt
    have hneeds : Needs n.toNat o := ⟨by omega, Or.inl hlt⟩
    rw [wp, happly]
    refine (wp_reallocate_iff hv (by omega) (fun o' hpower _ => ?_) fun e o' h => ?_).trans ?_
    · rw [GString.capacity, hpower]
      exact isLeast_clog hone
    · exact absurd h.2.2 h24
    · exact ⟨fun h => ⟨by omega, fun _ => h⟩, fun h => h.2 hneeds⟩
  · -- the string gets a buffer of one byte
    rw [h0, pow_zero] at hlt
    have hclog : Nat.clog 2 n.toNat = 0 := Nat.clog_of_right_le_one (by omega) 2
    have hcap : o.str.capacity = 1 := by rw [GString.capacity, h0, pow_zero]
    have hneeds : Needs n.toNat o := ⟨by omega, Or.inr hcap.le⟩
    rw [wp, happly]
    refine (wp_reallocate_iff hv (by omega) (fun o' _ hgrow => ?_) fun e o' h => ?_).trans ?_
    · rw [hcap] at hgrow
      exact absurd hgrow hlt
    · exact absurd h.2.2 (by omega)
    · rw [CopyFits, hclog]
      exact ⟨fun h => ⟨by omega, fun _ => h⟩, fun h => h.2 hneeds⟩
  -- the capacity is enough already
  · have hone : 1 < o.str.capacity := Nat.one_lt_two_pow h0
    have hle : n.toNat ≤ o.str.capacity := Nat.le_of_not_lt hlt
    refine ⟨fun _ => ⟨by omega, fun h => absurd h.2 (by omega)⟩, fun _ => ?_⟩
    rw [wp, happly]
    exact fun h => absurd h (by omega)

end Reserve

/-! ## What grows a string -/

section Callers

variable {o : Object}

/-- The constructor over a caller's buffer. -/
theorem constructs_iff (bufSize : UInt32) (buf : Option Ptr) (free : Bool) (length : UInt32)
    (ref : Bool) : Constructs bufSize buf free length ref ↔ bufSize.toNat < 2 ^ 31 := by
  unfold Constructs
  rw [GString.ofBuffer_eq]
  constructor
  · intro h
    by_contra hge
    obtain ⟨g, hg, -⟩ := h ⟨[], 0, []⟩
    rw [if_neg hge] at hg
    cases hg
  · intro hlt h
    have hlog : Nat.log 2 bufSize.toNat < 31 := GString.log_two_lt_of_lt (by decide) hlt
    rw [if_pos hlt]
    refine ⟨_, rfl, fun hone => ?_⟩
    rw [GString.capacity, GString.power_mk_pack _ _ _ _ (by omega)]
    exact isGreatest_log hone

theorem ends_append_iff (hp : o.str.power ≤ 30) (cstr : Option Ptr) (clen : UInt32) :
    Ends (GString.append cstr clen) o ↔ (UInt32.ofNat o.str.length + clen).toNat ≤ 2 ^ 31 := by
  have hpow : o.str.capacity ≤ 2 ^ 30 := Nat.pow_le_pow_right (by decide) hp
  show Ends (when ((UInt32.ofNat o.str.length + clen).toNat > o.str.capacity ∨ o.str.capacity ≤ 1)
    (GString.reserve (UInt32.ofNat o.str.length + clen)) >>= fun _ => str >>= fun s =>
      onHeap (Heap.memcpy (s.data o.str.length) cstr clen.toNat) >>= fun _ => modifyStr _) o ↔ _
  have hrest : ∀ (_ : Unit) o', Ends (str >>= fun s =>
      onHeap (Heap.memcpy (s.data o.str.length) cstr clen.toNat) >>= fun _ =>
        modifyStr (GString.setLength (UInt32.ofNat o.str.length + clen).toNat)) o' :=
    fun _ o' => (ends_bind_iff fun _ _ => ends_modify).mpr (ends_onHeap (o := o') ends_memcpy)
  rw [ends_bind_iff hrest, ends_when_iff, ends_reserve_iff hp]
  constructor
  · intro h
    by_contra hgt
    exact hgt (h (Or.inl (by omega)))
  · exact fun h _ => h

/-- What `readNetstring` does behind the header ends. -/
theorem ends_body {stream : IStream} {glen nlen len : ℕ} : Ends (do
    let s ← str
    let body := stream.read nlen
    onHeap (Heap.store (s.data glen) (cells body.1))
    when (¬ body.2.good) (raise "!netstring")
    let comma := body.2.getChar
    when (comma.1 ≠ some 44) (raise "!netstring")
    modifyStr (GString.setLength len)
    pure comma.2 : Method IStream) o := by
  refine (ends_bind_iff (x := str) fun s o' => ?_).mpr trivial
  refine (ends_bind_iff fun _ _ => ?_).mpr (ends_onHeap ends_store)
  refine (ends_bind_iff fun _ _ => ?_).mpr (ends_when_iff.mpr fun _ => ends_raise)
  refine (ends_bind_iff fun _ _ => ?_).mpr (ends_when_iff.mpr fun _ => ends_raise)
  exact (ends_bind_iff fun _ _ => ends_pure).mpr ends_modify

theorem ends_readNetstring_iff (hp : o.str.power ≤ 30) (stream : IStream) :
    Ends (GString.readNetstring stream) o ↔
      (HasHeader stream → o.str.length + stream.extractInt32.1.toNat ≤ 2 ^ 31) := by
  have hpow : o.str.capacity ≤ 2 ^ 30 := Nat.pow_le_pow_right (by decide) hp
  have hlen := o.str.length_lt
  by_cases hheader : HasHeader stream
  · have hnumber : ¬ (¬ stream.extractInt32.2.good ∨ stream.extractInt32.1 < 0) := by
      rintro (hbad | hneg)
      · exact hbad hheader.1
      · exact absurd hheader.2.1 (by omega)
    have hcolon : ¬ (¬ stream.extractInt32.2.getChar.2.good ∨
        stream.extractInt32.2.getChar.1 ≠ some 58) := by
      rintro (hbad | hne)
      · exact hbad hheader.2.2.1
      · exact hne hheader.2.2.2
    have hsmall := IStream.extractInt32_lt hheader.1
    generalize hneed : o.str.length + stream.extractInt32.1.toNat = need
    have hto : (UInt32.ofNat need).toNat = need := UInt32.toNat_ofNat_of_lt' (by
      rw [UInt32.size]
      omega)
    simp only [GString.readNetstring]
    rw [when_of_not hnumber, pure_bind, when_of_not hcolon, pure_bind]
    show Ends (when (o.str.capacity < (UInt32.ofNat (o.str.length + _)).toNat ∨
      o.str.capacity ≤ 1) (GString.reserve (UInt32.ofNat (o.str.length + _))) >>= _) o ↔ _
    rw [hneed]
    refine (ends_bind_iff fun _ _ => ends_body).trans ?_
    rw [ends_when_iff, ends_reserve_iff hp, hto]
    constructor
    · intro h _
      by_contra hgt
      exact hgt (h (Or.inl (by omega)))
    · exact fun h _ => h hheader
  -- the header is refused before anything is done
  · refine iff_of_true ?_ fun h => absurd h hheader
    unfold Ends
    simp only [GString.readNetstring, wp_bind]
    refine (wp_when _ _).mpr ⟨fun _ => trivial, fun hnumber => (wp_when _ _).mpr
      ⟨fun _ => trivial, fun hcolon => absurd ⟨?_, ?_, ?_, ?_⟩ hheader⟩⟩
    · exact Classical.not_not.mp fun h => hnumber (Or.inl h)
    · exact Int.not_lt.mp fun h => hnumber (Or.inr h)
    · exact Classical.not_not.mp fun h => hcolon (Or.inl h)
    · exact Classical.not_not.mp fun h => hcolon (Or.inr h)

/-- **The capacity loops end** and do what they are for: in `reserve` up to `2 ^ 31`, where the
memory it asks for is there and a string that is copied into it fits; in the constructor below
`2 ^ 31`; in `append` and `readNetstring` while the length that they ask for is at most `2 ^ 31`. -/
theorem capacityLoops_iff (hv : ValidUnlessOom o) :
    (∀ n, Reserves n o ↔
      n.toNat ≤ 2 ^ 31 ∧ (Needs n.toNat o → Served o ∧ CopyFits n.toNat o)) ∧
    (∀ bufSize buf free length ref, Constructs bufSize buf free length ref ↔
      bufSize.toNat < 2 ^ 31) ∧
    (∀ cstr clen, Ends (GString.append cstr clen) o ↔
      (UInt32.ofNat o.str.length + clen).toNat ≤ 2 ^ 31) ∧
    ∀ stream, Ends (GString.readNetstring stream) o ↔
      (HasHeader stream → o.str.length + stream.extractInt32.1.toNat ≤ 2 ^ 31) :=
  ⟨fun _ => reserves_iff hv, constructs_iff, ends_append_iff hv.power_le,
    ends_readNetstring_iff hv.power_le⟩

end Callers

/-- A string without a buffer, where no allocation fails. -/
theorem validUnlessOom_empty : ValidUnlessOom ⟨⟨[], 0, []⟩, .empty⟩ := (valid_empty rfl).1

/-- The loops of an empty string. -/
theorem capacityLoops_empty :
    let o : Object := ⟨⟨[], 0, []⟩, .empty⟩
    (∀ n, Reserves n o ↔
      n.toNat ≤ 2 ^ 31 ∧ (Needs n.toNat o → Served o ∧ CopyFits n.toNat o)) ∧
    (∀ bufSize buf free length ref, Constructs bufSize buf free length ref ↔
      bufSize.toNat < 2 ^ 31) ∧
    (∀ cstr clen, Ends (GString.append cstr clen) o ↔
      (UInt32.ofNat o.str.length + clen).toNat ≤ 2 ^ 31) ∧
    ∀ stream, Ends (GString.readNetstring stream) o ↔
      (HasHeader stream → o.str.length + stream.extractInt32.1.toNat ≤ 2 ^ 31) :=
  capacityLoops_iff validUnlessOom_empty

/-- For a size above `2 ^ 31`, `reserve` shifts by 32. -/
theorem reserve_shifts_wide : ¬ Reserves 2147483649 ⟨⟨[], 0, []⟩, .empty⟩ := by
  intro h
  rw [Reserves, wp, GString.reserve_apply _ _ (by decide)] at h
  exact h

end Glim
