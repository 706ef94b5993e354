import Glim.GString.Stable

/-!
# What a method does to the ownership of buffers

A method touches the ownership of its receiver in two ways only: it keeps the buffer,
or it gives the buffer up for one that was allocated after the call began. `Evolves`
says this about the states before and after a call, and holds whether the call
returns or throws and whether or not allocation succeeds.

## Main definitions

* `GString.ownBuf`: the buffer the destructor would free
* `Evolves`: the two ways above
* `FreesWithin`: how freeing the own buffer can fail

## Main results

* `Evolves.trans`, `Evolves.freesWithin`: composition, and the fate of the own buffer
* `stable_evolves`: every call without a gstring argument evolves its receiver
* `wp_copyAssign_evolves`, `wp_moveAssign_evolves`: so do the assignments, unless the
  source is shared or taken over
-/

namespace Glim

open Machine Exec Method Text

/-- The buffer the destructor frees. -/
def GString.ownBuf (s : GString) : Option Ptr := if s.needsFreeing then s.buf else none

@[simp] theorem GString.ownBuf_setLength (s : GString) (n : ℕ) :
    (s.setLength n).ownBuf = s.ownBuf := by
  simp only [GString.ownBuf, GString.needsFreeing_setLength, GString.buf_setLength]

@[simp] theorem GString.ownBuf_empty : GString.empty.ownBuf = none := rfl

theorem GString.ownBuf_eq_some_iff {s : GString} {p : Ptr} :
    s.ownBuf = some p ↔ s.needsFreeing = true ∧ s.buf = some p := by
  simp [GString.ownBuf]

theorem GString.ownBuf_of_not_needsFreeing {s : GString} (h : s.needsFreeing = false) :
    s.ownBuf = none := by
  simp [GString.ownBuf, h]

theorem GString.ownBuf_of_buf_eq_none {s : GString} (h : s.buf = none) : s.ownBuf = none := by
  rw [ownBuf, h, ite_self]

/-- The receiver keeps its own buffer, gives it up, or owns one allocated since. -/
structure Evolves (o o' : Object) : Prop where
  grows : o.heap.blocks.length ≤ o'.heap.blocks.length
  /-- Only the own buffer may be freed. -/
  status : ∀ b < o.heap.blocks.length, o.str.ownBuf.map Ptr.block ≠ some b →
    o'.heap.status b = o.heap.status b
  origin : ∀ b < o.heap.blocks.length,
    (o'.heap.status b).map Prod.fst = (o.heap.status b).map Prod.fst
  owned : ∀ p, o'.str.ownBuf = some p →
    o.str.ownBuf = some p ∧ o'.heap.status p.block = o.heap.status p.block ∨
      o.heap.blocks.length ≤ p.block ∧ o'.heap.freeFault p = none

/-- Freeing the own buffer fails within `F` only. -/
def FreesWithin (F : Fault → Prop) (o : Object) : Prop :=
  ∀ p u, o.str.ownBuf = some p → o.heap.freeFault p = some u → F u

/-- The heaps have the same blocks with the same status. -/
structure SameStatus (h h' : Heap) : Prop where
  length_eq : h'.blocks.length = h.blocks.length
  status_eq : ∀ b, h'.status b = h.status b

theorem SameStatus.refl (h : Heap) : SameStatus h h := ⟨rfl, fun _ => rfl⟩

theorem SameStatus.write (h : Heap) (p : Option Ptr) (new : List Cell) :
    SameStatus h (h.write p new) := ⟨by simp, by simp⟩

namespace Evolves

variable {o o' o'' : Object} {F : Fault → Prop}

/-- A change that keeps the buffers. -/
theorem keep (hs : SameStatus o.heap o'.heap) (ho : o'.str.ownBuf = o.str.ownBuf) :
    Evolves o o' where
  grows := hs.length_eq.ge
  status := fun b _ _ => hs.status_eq b
  origin := fun b _ => by rw [hs.status_eq b]
  owned := fun p hp => Or.inl ⟨ho ▸ hp, hs.status_eq p.block⟩

theorem refl (o : Object) : Evolves o o := keep (SameStatus.refl _) rfl

theorem trans (h : Evolves o o') (h' : Evolves o' o'') : Evolves o o'' where
  grows := h.grows.trans h'.grows
  status := by
    intro b hb hne
    have hne' : o'.str.ownBuf.map Ptr.block ≠ some b := by
      intro he
      obtain ⟨p, hp, rfl⟩ := Option.map_eq_some_iff.mp he
      rcases h.owned p hp with ⟨hown, -⟩ | ⟨hfresh, -⟩
      · exact hne (by rw [hown]; rfl)
      · omega
    rw [h'.status b (hb.trans_le h.grows) hne', h.status b hb hne]
  origin := by
    intro b hb
    rw [h'.origin b (hb.trans_le h.grows), h.origin b hb]
  owned := by
    intro p hp
    rcases h'.owned p hp with ⟨hown, hst⟩ | ⟨hfresh, hfree⟩
    · rcases h.owned p hown with ⟨hown', hst'⟩ | ⟨hfresh, hfree⟩
      · exact Or.inl ⟨hown', hst.trans hst'⟩
      · exact Or.inr ⟨hfresh, by rw [Heap.freeFault_congr hst]; exact hfree⟩
    · exact Or.inr ⟨h.grows.trans hfresh, hfree⟩

/-- The own buffer stays as good as it was. -/
theorem freesWithin (h : Evolves o o') (hF : FreesWithin F o) : FreesWithin F o' := by
  intro p u hp hu
  rcases h.owned p hp with ⟨hown, hst⟩ | ⟨-, hfree⟩
  · exact hF p u hown (by rw [← Heap.freeFault_congr hst]; exact hu)
  · rw [hfree] at hu; cases hu

/-- A failed allocation leaves a receiver that owns nothing. -/
theorem lose (hs : SameStatus o.heap o'.heap) (ho : o'.str.ownBuf = none) : Evolves o o' where
  grows := hs.length_eq.ge
  status := fun b _ _ => hs.status_eq b
  origin := fun b _ => by rw [hs.status_eq b]
  owned := fun p hp => by rw [ho] at hp; cases hp

/-- The receiver gives up what it owned, which may be freed, and owns nothing or a new block. -/
theorem replace {h₁ : Heap} {new : List Cell} {s : GString}
    (hlen : h₁.blocks.length = o.heap.blocks.length)
    (hstatus : ∀ b, o.str.ownBuf.map Ptr.block ≠ some b → h₁.status b = o.heap.status b)
    (horigin : ∀ b, (h₁.status b).map Prod.fst = (o.heap.status b).map Prod.fst)
    (hs : ∀ p, s.ownBuf = some p → p = ⟨h₁.blocks.length, 0⟩) :
    Evolves o ⟨h₁.extend new, s⟩ where
  grows := by simp only [Heap.extend_length]; omega
  status := by
    intro b hb hne
    rw [Heap.status_extend_of_lt (by omega), hstatus b hne]
  origin := by
    intro b hb
    rw [Heap.status_extend_of_lt (by omega), horigin b]
  owned := by
    intro p hp
    obtain rfl := hs p hp
    refine Or.inr ⟨hlen.ge, Heap.freeFault_eq_none_iff.mpr ⟨rfl, ?_⟩⟩
    exact Heap.status_extend_self h₁ new

end Evolves

/-! ## Growing -/

section Reserve

variable {o : Object} {F : Fault → Prop}

/-- The result of `realloc` is the buffer, and is null if there was no memory. -/
theorem wp_resizeOwn_iff {Q : Unit → Object → Prop} {E : String → Object → Prop} {p : Ptr}
    {size : ℕ} :
    wp (GString.resizeOwn p size) Q E F o ↔
      wp (Heap.realloc p size)
        (fun buf h => (buf = none → E "realloc failed" ⟨h, GString.setBuf buf o.str⟩) ∧
          (¬ buf = none → Q () ⟨h, GString.setBuf buf o.str⟩))
        (fun e h => E e ⟨h, o.str⟩) F o.heap := by
  simp only [GString.resizeOwn, onHeap, modifyStr, wp_bind, wp_zoom, wp_modify, wp_when, wp_raise]

/-- The result of `malloc` is the buffer, and the string is copied there unless one of them is
null. -/
theorem wp_replaceBuf_iff {Q : Unit → Object → Prop} {E : String → Object → Prop}
    {oldBuf : Option Ptr} {len size : ℕ} :
    wp (GString.replaceBuf oldBuf len size) Q E F o ↔
      wp (Heap.malloc size)
        (fun buf h => (buf = none → E "malloc failed" ⟨h, GString.setBuf buf o.str⟩) ∧
          (¬ buf = none →
            (oldBuf ≠ none → wp (Heap.memcpy buf oldBuf len)
              (fun _ h => Q () ⟨h, ⟨Meta.setFree (GString.setBuf buf o.str).word, buf⟩⟩)
              (fun e h => E e ⟨h, GString.setBuf buf o.str⟩) F h) ∧
            (¬ oldBuf ≠ none → Q () ⟨h, ⟨Meta.setFree (GString.setBuf buf o.str).word, buf⟩⟩)))
        (fun e h => E e ⟨h, o.str⟩) F o.heap := by
  simp only [GString.replaceBuf, onHeap, modifyStr, wp_bind, wp_zoom, wp_when, wp_modify, wp_raise]
  rfl

/-- The end of `reserve` resizes the own buffer, or replaces another one. -/
theorem wp_reallocate_of {Q : Unit → Object → Prop} {E : String → Object → Prop} {power : ℕ}
    (hp : power < 64)
    (hown : ∀ p, o.str.ownBuf = some p → wp (GString.resizeOwn p (2 ^ power)) Q E F
      ⟨o.heap, ⟨Meta.setPower o.str.word power, some p⟩⟩)
    (hother : o.str.ownBuf = none →
      wp (GString.replaceBuf o.str.buf o.str.length (2 ^ power)) Q E F
        ⟨o.heap, ⟨Meta.setPower o.str.word power, o.str.buf⟩⟩) :
    wp (GString.reallocate power) Q E F o := by
  obtain ⟨h, w, buf⟩ := o
  have hneeds : Meta.needsFreeing (Meta.setPower w power) = Meta.needsFreeing w :=
    Meta.needsFreeing_setPower w power hp
  rw [GString.reallocate, wp_bind]
  simp only [modifyStr, str, wp_bind, wp_modify, wp_map, wp_get, GString.needsFreeing, hneeds,
    GString.capacity, GString.power, Meta.power_setPower w power hp, GString.length,
    Meta.length_setPower w power hp]
  cases buf with
  | none => exact hother (GString.ownBuf_of_buf_eq_none rfl)
  | some p =>
    cases hfree : Meta.needsFreeing w with
    | false => exact hother (GString.ownBuf_of_not_needsFreeing hfree)
    | true => exact hown p (if_pos hfree)

/-- A buffer that is not owned is left for a new one, which is owned from then on. -/
theorem wp_replaceBuf_evolves (hF : AccessFaults F) {n len : ℕ} {old : Option Ptr} (w : BitVec 32) :
    wp (GString.replaceBuf old len n) (fun _ => Evolves o) (fun _ => Evolves o) F
      { o with str := ⟨w, old⟩ } := by
  rw [wp_replaceBuf_iff]
  refine Heap.wp_malloc ⟨fun _ => ?_, fun h => absurd rfl h⟩ ⟨nofun, fun _ => ?_⟩
  · exact Evolves.lose ⟨rfl, fun _ => rfl⟩ (GString.ownBuf_of_buf_eq_none rfl)
  · have hreplace : ∀ w' new, Evolves o ⟨o.heap.extend new, ⟨w', some ⟨o.heap.blocks.length, 0⟩⟩⟩ :=
      fun w' new => Evolves.replace rfl (fun _ _ => rfl) (fun _ => rfl) fun p hp =>
        (Option.some.inj (GString.ownBuf_eq_some_iff.mp hp).2).symm
    refine ⟨fun _ => ?_, fun _ => hreplace _ _⟩
    refine Heap.wp_memcpy_of_faults (hF.badAccess _ _) (hF.badAccess _ _) fun new => ?_
    exact (hreplace _ (List.replicate n none)).trans
      (Evolves.keep (SameStatus.write _ (some ⟨o.heap.blocks.length, 0⟩) new) rfl)

/-- The new buffer replaces the old one, which is freed if it was owned. -/
theorem wp_reallocate_evolves (hF : AccessFaults F) (hfree : FreesWithin F o) {power : ℕ}
    (hp : power < 64) :
    wp (GString.reallocate power) (fun _ => Evolves o) (fun _ => Evolves o) F o := by
  refine wp_reallocate_of hp (fun p hown => ?_) fun _ => wp_replaceBuf_evolves hF _
  rw [wp_resizeOwn_iff]
  refine Heap.wp_realloc (fun u hu => hfree p u hown hu)
    (fun _ _ => ⟨fun _ => ?_, fun h => absurd rfl h⟩) fun hnone _ => ⟨nofun, fun _ => ?_⟩
  · exact Evolves.lose ⟨rfl, fun _ => rfl⟩ (GString.ownBuf_of_buf_eq_none rfl)
  · refine Evolves.replace (Heap.kill_length _ _) (fun b hb => ?_) (fun b => ?_) fun q hq => ?_
    · exact Heap.status_kill_of_ne fun he => hb (by rw [hown]; simp [he])
    · exact Heap.origin_kill _ _ _
    · simpa [GString.setBuf, eq_comm] using (GString.ownBuf_eq_some_iff.mp hq).2

end Reserve

/-! ## Constructors, assignments, the destructor -/

section Objects

variable {o : Object} {F : Fault → Prop} {h : Heap}

/-- A new block whose cells are written afterwards. -/
theorem Evolves.duplicated (h : Heap) (n : ℕ) (w : BitVec 32) (new : List Cell) :
    Evolves ⟨h, .empty⟩ ⟨(h.extend (List.replicate n none)).write (some ⟨h.blocks.length, 0⟩) new,
      ⟨w, some ⟨h.blocks.length, 0⟩⟩⟩ := by
  have hnew : Evolves ⟨h, .empty⟩
      ⟨h.extend (List.replicate n none), ⟨w, some ⟨h.blocks.length, 0⟩⟩⟩ :=
    Evolves.replace rfl (fun _ _ => rfl) (fun _ => rfl) fun p hp =>
      (Option.some.inj (GString.ownBuf_eq_some_iff.mp hp).2).symm
  exact hnew.trans (Evolves.keep (SameStatus.write _ (some ⟨h.blocks.length, 0⟩) new) rfl)

/-- A constructor that copies owns a new block, or nothing. -/
theorem wp_duplicate_evolves (hF : AccessFaults F) (chars : Option Ptr) (n : ℕ) :
    wp (GString.duplicate chars n) (fun g h' => Evolves ⟨h, .empty⟩ ⟨h', g⟩)
      (fun _ h' => Evolves ⟨h, .empty⟩ ⟨h', .empty⟩) F h := by
  simp only [GString.duplicate, wp_bind, wp_pure]
  refine Heap.wp_malloc ?_ ?_
  · refine Heap.wp_memcpy_of_faults (hF.badAccess _ _) (hF.badAccess _ _) fun new => ?_
    exact Evolves.lose ⟨rfl, fun _ => rfl⟩ (GString.ownBuf_of_buf_eq_none rfl)
  · refine Heap.wp_memcpy_of_faults (hF.badAccess _ _) (hF.badAccess _ _) fun new => ?_
    exact Evolves.duplicated h n _ new

theorem wp_ofChars_evolves (hF : AccessFaults F) (chars : Option Ptr) (n : ℕ) :
    wp (GString.ofChars chars n) (fun g h' => Evolves ⟨h, .empty⟩ ⟨h', g⟩)
      (fun _ h' => Evolves ⟨h, .empty⟩ ⟨h', .empty⟩) F h :=
  (wp_ite _ _).mpr ⟨fun _ => wp_duplicate_evolves hF chars n, fun _ =>
    Evolves.lose (SameStatus.refl h) (GString.ownBuf_of_buf_eq_none rfl)⟩

theorem wp_ofString_evolves (hF : AccessFaults F) (data : Option Ptr) (n : ℕ) :
    wp (GString.ofString data n) (fun g h' => Evolves ⟨h, .empty⟩ ⟨h', g⟩)
      (fun _ h' => Evolves ⟨h, .empty⟩ ⟨h', .empty⟩) F h :=
  (wp_ite _ _).mpr ⟨fun _ => wp_duplicate_evolves hF data n, fun _ => Evolves.refl _⟩

theorem wp_ofCString_evolves (hF : AccessFaults F) (chars : Option Ptr) :
    wp (GString.ofCString chars) (fun g h' => Evolves ⟨h, .empty⟩ ⟨h', g⟩)
      (fun _ h' => Evolves ⟨h, .empty⟩ ⟨h', .empty⟩) F h := by
  refine (wp_ite _ _).mpr ⟨fun _ => Evolves.refl _, fun _ => (wp_bind _).mpr ?_⟩
  refine Heap.wp_strlen_of_faults (hF.badAccess _ _) fun n => ?_
  exact (wp_ite _ _).mpr ⟨fun _ => Evolves.refl _, fun _ => wp_duplicate_evolves hF chars n⟩

/-- The copy constructor owns a new block or nothing, or it shares the source. -/
theorem wp_copy_evolves (hF : AccessFaults F) (g : GString) :
    wp (GString.copy g)
      (fun g' h' => Evolves ⟨h, .empty⟩ ⟨h', g'⟩ ∨
        (g.copiedByReference ∧ g.length ≠ 0) ∧ g' = g ∧ h' = h)
      (fun _ h' => Evolves ⟨h, .empty⟩ ⟨h', .empty⟩) F h := by
  simp only [GString.copy, wp_ite, wp_pure, wp_bind, wp_when, wp_raise]
  refine ⟨fun h0 => ⟨fun hr => Or.inr ⟨⟨hr, h0⟩, trivial, trivial⟩, fun _ => ?_⟩,
    fun _ => Or.inl (Evolves.refl _)⟩
  refine Heap.wp_malloc ⟨fun _ => ?_, fun hne => absurd rfl hne⟩ ⟨by simp, fun _ => ?_⟩
  · exact Evolves.lose ⟨rfl, fun _ => rfl⟩ GString.ownBuf_empty
  · refine Heap.wp_memcpy_of_faults (hF.badAccess _ _) (hF.badAccess _ _) fun new => Or.inl ?_
    exact Evolves.duplicated h _ _ new

/-- Giving up what was owned. -/
theorem Evolves.kill {p : Ptr} (hp : o.str.ownBuf = some p) :
    Evolves o ⟨o.heap.kill p.block, .empty⟩ where
  grows := (Heap.kill_length _ _).ge
  status := fun b _ hb => Heap.status_kill_of_ne fun he => hb (by rw [hp]; simp [he])
  origin := fun b _ => Heap.origin_kill _ _ _
  owned := fun p hp => by simp at hp

/-- The destructor gives up what was owned. -/
theorem wp_destroy_evolves (hfree : FreesWithin F o) :
    wp o.str.destroy (fun _ h' => Evolves o ⟨h', .empty⟩) (fun _ _ => False) F o.heap := by
  refine (wp_when _ _).mpr ⟨fun hc => ?_, fun _ => ?_⟩
  · cases hb : o.str.buf with
    | none => exact absurd hb hc.1
    | some p =>
      have hown : o.str.ownBuf = some p := GString.ownBuf_eq_some_iff.mpr ⟨hc.2, hb⟩
      exact Heap.wp_free (fun u hu => hfree p u hown hu) fun _ => Evolves.kill hown
  · exact Evolves.lose (SameStatus.refl _) (GString.ownBuf_of_buf_eq_none rfl)

/-- Move assignment takes the source over. -/
theorem wp_moveAssign_evolves (hfree : FreesWithin F o) (g : GString) :
    wp (GString.moveAssign g) (fun _ o' => Evolves o ⟨o'.heap, .empty⟩ ∧ o'.str = g)
      (fun _ _ => False) F o := by
  simp only [GString.moveAssign, str, onHeap, modifyStr, wp_bind, wp_map, wp_get, wp_zoom,
    wp_modify]
  exact wp_mono (wp_destroy_evolves hfree) (fun _ _ h => ⟨h, trivial⟩) (fun _ _ h => h) fun _ h => h

/-- Copy assignment keeps or replaces the buffer, or it shares the source. A buffer is not to
be reused by a receiver that does not own it. -/
theorem wp_copyAssign_evolves (hF : AccessFaults F) (hfree : FreesWithin F o) (g : GString)
    (hreuse : g.length ≤ o.str.capacity → 1 < o.str.capacity →
      o.str.needsFreeing ∨ o.str.buf = none) :
    wp (GString.copyAssign g)
      (fun _ o' => Evolves o o' ∨
        (g.copiedByReference ∧ ¬ (g.length ≤ o.str.capacity ∧ 1 < o.str.capacity)) ∧
          Evolves o ⟨o'.heap, .empty⟩ ∧ o'.str = g)
      (fun _ => Evolves o) F o := by
  simp only [GString.copyAssign, str, onHeap, modifyStr, wp_bind, wp_map, wp_get, wp_zoom,
    wp_modify, wp_ite, wp_when, wp_raise]
  refine ⟨fun hc => ?_, fun hc => ?_⟩
  · refine Heap.wp_memcpy_of_faults (hF.badAccess _ _) (hF.badAccess _ _) fun new => Or.inl ?_
    refine Evolves.keep (SameStatus.write _ _ _) ?_
    rcases hreuse hc.1 hc.2 with hown | hnull
    · simp only [GString.ownBuf, GString.needsFreeing_mk_pack _ _ _ _ o.str.power_lt, hown]
    · simp only [GString.ownBuf, hnull, ite_self]
  · refine wp_mono (wp_destroy_evolves hfree)
      (fun _ h₁ hd => ⟨fun hr => Or.inr ⟨⟨hr, hc⟩, hd, trivial⟩,
      fun _ => ?_⟩) (fun _ _ h => h.elim) fun _ h => h
    refine Heap.wp_malloc ⟨fun _ => ?_, fun hne => absurd rfl hne⟩ ⟨by simp, fun _ => ?_⟩
    · exact hd.trans (Evolves.lose ⟨rfl, fun _ => rfl⟩ (GString.ownBuf_of_buf_eq_none rfl))
    · refine Heap.wp_memcpy_of_faults (hF.badAccess _ _) (hF.badAccess _ _) fun new => Or.inl ?_
      exact hd.trans (Evolves.duplicated h₁ _ _ new)

/-- `owned` copies a buffer that is not owned. -/
theorem preserves_owned (hF : AccessFaults F) : Preserves (Evolves o) F GString.owned := by
  intro o' ho
  simp only [GString.owned, str, onHeap, wp_bind, wp_map, wp_get, wp_when, wp_zoom]
  refine ⟨fun hnot => ?_, fun _ => ho⟩
  have hown : o'.str.ownBuf = none :=
    GString.ownBuf_of_not_needsFreeing (Bool.eq_false_of_not_eq_true hnot)
  -- nothing is owned, so the receiver may as well be empty
  have hempty : Evolves o' ⟨o'.heap, .empty⟩ := 
    Evolves.lose (SameStatus.refl _) GString.ownBuf_empty
  refine wp_mono (wp_ofChars_evolves hF _ _) (fun g h₁ hg => ?_) (fun _ h₁ hg => ?_) fun _ h => h
  · have hkeep : ¬ (o'.str.buf ≠ none ∧ o'.str.needsFreeing = true) := fun hc => hnot hc.2
    simp only [GString.moveAssign, GString.destroy, str, onHeap, modifyStr, wp_bind, wp_map,
      wp_get, wp_zoom, wp_when, hkeep, false_implies, true_and, not_false_eq_true, true_implies,
      wp_modify]
    exact ho.trans (hempty.trans hg)
  · exact ho.trans ((hempty.trans hg).trans (Evolves.lose (SameStatus.refl _) hown))

end Objects

/-- The receiver of a method keeps its own buffer, or gives it up for a new one. -/
theorem stable_evolves {o : Object} {F : Fault → Prop} (hF : AccessFaults F)
    (hfree : FreesWithin F o) : Stable F (Evolves o) where
  faults := hF
  write := fun _ p new ho => ho.trans (Evolves.keep (SameStatus.write _ p new) rfl)
  setLength := fun o' n ho =>
    ho.trans (Evolves.keep (SameStatus.refl _) (GString.ownBuf_setLength o'.str n))
  reallocate := fun _ hp _ ho => wp_mono (wp_reallocate_evolves hF (ho.freesWithin hfree) hp)
    (fun _ _ h => ho.trans h) (fun _ _ h => ho.trans h) fun _ h => h
  owned := preserves_owned hF

end Glim
