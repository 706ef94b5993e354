import Glim.GString.World

/-!
# Unique ownership of buffers

Every heap buffer is to be freed by at most one string. The copy constructor and the
copy assignment share a string marked by `REF_FLAG` together with its whole word, so
the ownership stays unique as long as no string that carries both flags is shared.
`reserve` sets `FREE_FLAG` and leaves `REF_FLAG` as it is, so that a literal that was
grown, or that was asked for its `c_str`, does carry both.

## Main definitions

* `World.UniqueOwners`: no two live strings would free the same buffer
* `World.Sound`: moreover, every buffer that is owned can be freed
* `Step.SharesOwner`: the step shares a string that frees its buffer

## Main results

* `Effect.sound`: a step that shares no owner keeps a world sound
* `uniqueOwners_of_run`: so the ownership is unique in every run of such steps
* `grown_literal_shared`: a literal, its `c_str`, a copy, and the same buffer is freed twice
-/

namespace Glim

open Machine Exec Method

namespace World

/-- No two live strings with `FREE_FLAG` hold the same buffer. -/
def UniqueOwners (w : World) : Prop :=
  ∀ i j s t p q, w.strs i = some s → w.strs j = some t → s.needsFreeing → t.needsFreeing →
    s.buf = some p → t.buf = some q → p.block = q.block → i = j

/-- The strings that own the pointers `own` can free them, each its own. -/
structure Sound (h : Heap) (own : ℕ → Option Ptr) : Prop where
  freeable : ∀ i p, own i = some p → h.freeFault p = none
  apart : ∀ i j p q, own i = some p → own j = some q → p.block = q.block → i = j

namespace Sound

variable {h h' : Heap} {own own' : ℕ → Option Ptr}

theorem lt_length (hS : Sound h own) {i : ℕ} {p : Ptr} (hp : own i = some p) :
    p.block < h.blocks.length := by
  have hst := (Heap.freeFault_eq_none_iff.mp (hS.freeable i p hp)).2
  by_contra hge
  rw [Heap.status, List.getElem?_eq_none (by omega)] at hst
  cases hst

/-- Owners can be renamed, and forgotten. -/
theorem rename (hS : Sound h own) (f : ℕ → ℕ)
    (hf : ∀ k p, own' k = some p → own (f k) = some p)
    (hinj : ∀ k l p q, own' k = some p → own' l = some q → f k = f l → k = l) :
    Sound h own' where
  freeable := fun k p hp => hS.freeable (f k) p (hf k p hp)
  apart := fun k l p q hp hq hb =>
    hinj k l p q hp hq (hS.apart _ _ p q (hf k p hp) (hf l q hq) hb)

/-- The owner `i` keeps its buffer or replaces it. -/
theorem evolve (hS : Sound h own) {i : ℕ} {s s' : GString} (hs : s.ownBuf = own i)
    (he : Evolves ⟨h, s⟩ ⟨h', s'⟩) : Sound h' (Function.update own i s'.ownBuf) where
  freeable := by
    intro k p hp
    by_cases hk : k = i
    · subst hk
      rw [Function.update_self] at hp
      rcases he.owned p hp with ⟨hown, hst⟩ | ⟨-, hfree⟩
      · rw [Heap.freeFault_congr hst]
        exact hS.freeable k p (hs ▸ hown)
      · exact hfree
    · rw [Function.update_of_ne hk] at hp
      have hother : s.ownBuf.map Ptr.block ≠ some p.block := by
        intro hmap
        obtain ⟨q, hq, hqp⟩ := Option.map_eq_some_iff.mp hmap
        exact hk (hS.apart k i p q hp (hs ▸ hq) hqp.symm)
      rw [Heap.freeFault_congr (he.status p.block (hS.lt_length hp) hother)]
      exact hS.freeable k p hp
  apart := by
    -- a new buffer is beyond every buffer that another string owns
    have hnew : ∀ k p q, k ≠ i → own k = some p → s'.ownBuf = some q → p.block ≠ q.block := by
      intro k p q hk hp hq hb
      rcases he.owned q hq with ⟨hown, -⟩ | ⟨hfresh, -⟩
      · exact hk (hS.apart k i p q hp (hs ▸ hown) hb)
      · have := hS.lt_length hp
        exact absurd hfresh (by simp only; omega)
    intro k l p q hp hq hb
    by_cases hk : k = i <;> by_cases hl : l = i
    · rw [hk, hl]
    · rw [hk, Function.update_self] at hp
      rw [Function.update_of_ne hl] at hq
      exact absurd hb.symm (hnew l q p hl hq hp)
    · rw [Function.update_of_ne hk] at hp
      rw [hl, Function.update_self] at hq
      exact absurd hb (hnew k p q hk hp hq)
    · rw [Function.update_of_ne hk] at hp
      rw [Function.update_of_ne hl] at hq
      exact hS.apart k l p q hp hq hb

theorem uniqueOwners {w : World} (hS : Sound w.heap w.own) : w.UniqueOwners := by
  intro i j s t p q hi hj hs ht hp hq hb
  refine hS.apart i j p q ?_ ?_ hb
  · rw [own_of_strs hi]; exact GString.ownBuf_eq_some_iff.mpr ⟨hs, hp⟩
  · rw [own_of_strs hj]; exact GString.ownBuf_eq_some_iff.mpr ⟨ht, hq⟩

theorem start (h : Heap) : Sound h (World.start h).own where
  freeable := nofun
  apart := nofun

end Sound

end World

open World

/-! ## The steps -/

/-- The step shares a string that would free its buffer. -/
def Step.SharesOwner (l : Step) (w : World) : Prop :=
  ∃ i j g, l.Shares w i j g ∧ g.needsFreeing

section Steps

variable {l : Step} {w w' : World}

/-- A step that shares no owner keeps a world sound. -/
theorem Effect.sound (he : Effect l w w') (hshare : ¬ l.SharesOwner w)
    (hS : Sound w.heap w.own) : Sound w'.heap w'.own := by
  cases he with
  | changes i h =>
    obtain ⟨s, s', hs, he, hown⟩ := h
    rw [hown]
    exact hS.evolve hs he
  | shares i j g hl h =>
    obtain ⟨s, hs, he, hown⟩ := h
    have hg : g.needsFreeing = false := by
      by_contra hfree
      exact hshare ⟨i, j, g, hl, by simpa using hfree⟩
    rw [hown, own_of_strs hl.1, GString.ownBuf_of_not_needsFreeing hg]
    exact hS.evolve hs he
  | takes i j _ hij h =>
    obtain ⟨s, hs, he, hown⟩ := h
    rw [hown]
    -- the buffer of `i` is gone, and that of `j` gets the name `i`
    refine (hS.evolve hs he).rename (fun k => if k = i then j else k) ?_ ?_
    · intro k p hp
      by_cases hk : k = i
      · subst hk
        simpa [hij, hij.symm] using hp
      · by_cases hkj : k = j
        · simp [hkj] at hp
        · simpa [hk, hkj] using hp
    · intro k l p q hp hq
      have hk : k ≠ j := by rintro rfl; simp at hp
      have hl : l ≠ j := by rintro rfl; simp at hq
      by_cases hki : k = i <;> by_cases hli : l = i <;>
        simp [hki, hli, hk, hl.symm]

end Steps

/-! ## Strings without a capacity of someone else -/

/-- A buffer that is not owned comes without a capacity. -/
def GString.Slim (s : GString) : Prop := s.needsFreeing = false → s.power = 0 ∨ s.buf = none

section Slim

variable {s : GString}

theorem GString.slim_of_needsFreeing (h : s.needsFreeing = true) : s.Slim := fun hn => by
  rw [h] at hn; cases hn

theorem GString.slim_of_buf_eq_none (h : s.buf = none) : s.Slim := fun _ => Or.inr h

theorem GString.slim_of_power_eq_zero (h : s.power = 0) : s.Slim := fun _ => Or.inl h

end Slim

/-- No fault is excluded. -/
def AnyFault : Fault → Prop := fun _ => True

theorem accessFaults_any : AccessFaults AnyFault := fun _ _ _ => trivial

theorem preserves_reallocate_slim {power : ℕ} (hp : power < 64) :
    Preserves (fun o => o.str.Slim) AnyFault (GString.reallocate power) := by
  intro o _
  refine wp_reallocate_of hp (fun p hown => ?_) fun _ => ?_
  · have hslim : ∀ b, GString.Slim ⟨Meta.setPower o.str.word power, b⟩ := fun b =>
      GString.slim_of_needsFreeing ((Meta.needsFreeing_setPower _ _ hp).trans
        (GString.ownBuf_eq_some_iff.mp hown).1)
    rw [wp_resizeOwn_iff]
    exact Heap.wp_realloc (fun _ _ => trivial)
      (fun _ _ => ⟨fun _ => hslim _, fun hne => absurd rfl hne⟩)
      fun _ _ => ⟨nofun, fun _ => hslim _⟩
  · have hfree : ∀ w b, GString.Slim ⟨Meta.setFree w, b⟩ := fun w b =>
      GString.slim_of_needsFreeing (Meta.needsFreeing_setFree w)
    rw [wp_replaceBuf_iff]
    refine Heap.wp_malloc ⟨fun _ => GString.slim_of_buf_eq_none rfl, fun hne => absurd rfl hne⟩
      ⟨nofun, fun _ => ⟨fun _ => ?_, fun _ => hfree _ _⟩⟩
    exact Heap.wp_memcpy_of_faults trivial trivial fun _ => hfree _ _

section Constructors

variable {h : Heap}

theorem needsFreeing_mk_own (power n : ℕ) (hp : power < 64) (b : Option Ptr) :
    GString.needsFreeing ⟨Meta.pack true false power n, b⟩ = true :=
  GString.needsFreeing_mk_pack _ _ _ _ hp

/-- A constructor that copies sets `FREE_FLAG`. -/
theorem wp_duplicate_slim (chars : Option Ptr) (n : ℕ) :
    wp (GString.duplicate chars n) (fun g _ => g.needsFreeing = true) (fun _ _ => True)
      AnyFault h := by
  simp only [GString.duplicate, wp_bind, wp_pure]
  refine Heap.wp_malloc ?_ ?_ <;>
    exact Heap.wp_memcpy_of_faults trivial trivial fun _ =>
      needsFreeing_mk_own 0 n (by decide) _

theorem wp_ofChars_slim (chars : Option Ptr) (n : ℕ) :
    wp (GString.ofChars chars n) (fun g _ => g.needsFreeing = true) (fun _ _ => True)
      AnyFault h :=
  (wp_ite _ _).mpr ⟨fun _ => wp_duplicate_slim chars n, fun _ =>
    needsFreeing_mk_own 0 n (by decide) _⟩

theorem wp_ofString_slim (data : Option Ptr) (n : ℕ) :
    wp (GString.ofString data n) (fun g _ => g.Slim) (fun _ _ => True) AnyFault h :=
  (wp_ite _ _).mpr ⟨fun _ => wp_mono (wp_duplicate_slim data n)
    (fun _ _ => GString.slim_of_needsFreeing) (fun _ _ => id) fun _ => id,
    fun _ => GString.slim_of_buf_eq_none rfl⟩

theorem wp_ofCString_slim (chars : Option Ptr) :
    wp (GString.ofCString chars) (fun g _ => g.Slim) (fun _ _ => True) AnyFault h := by
  simp only [GString.ofCString, wp_ite, wp_bind, wp_pure]
  refine ⟨fun _ => GString.slim_of_buf_eq_none rfl, fun _ => ?_⟩
  refine Heap.wp_strlen_of_faults trivial fun n => ⟨fun _ => GString.slim_of_buf_eq_none rfl,
    fun _ => ?_⟩
  exact wp_mono (wp_duplicate_slim chars n) (fun _ _ => GString.slim_of_needsFreeing)
    (fun _ _ => id) fun _ => id

/-- A reference to the buffer of another string comes without a capacity. -/
theorem wp_ofBuffer_slim (p : Option Ptr) (n : UInt32) (r : Bool) :
    wp (GString.ofBuffer 0 p false n r) (fun g _ => g.Slim) (fun _ _ => True) AnyFault h := by
  rw [GString.ofBuffer_eq, if_pos (by decide)]
  exact GString.slim_of_power_eq_zero (GString.power_mk_pack _ _ _ _ (by decide))

theorem wp_copy_slim {g : GString} (hg : g.Slim) :
    wp (GString.copy g) (fun g' _ => g'.Slim) (fun _ _ => True) AnyFault h := by
  simp only [GString.copy, wp_ite, wp_pure, wp_bind, wp_when, wp_raise]
  refine ⟨fun _ => ⟨fun _ => hg, fun _ => ?_⟩, fun _ => GString.slim_of_buf_eq_none rfl⟩
  refine Heap.wp_malloc ⟨fun _ => trivial, fun hne => absurd rfl hne⟩ ⟨by simp, fun _ => ?_⟩
  exact Heap.wp_memcpy_of_faults trivial trivial fun _ =>
    GString.slim_of_needsFreeing (needsFreeing_mk_own 0 _ (by decide) _)

end Constructors

theorem preserves_owned_slim : Preserves (fun o => o.str.Slim) AnyFault GString.owned := by
  intro o ho
  simp only [GString.owned, GString.moveAssign, str, onHeap, modifyStr, wp_bind, wp_map, wp_get,
    wp_when, wp_zoom, wp_modify]
  refine ⟨fun _ => wp_mono (wp_ofChars_slim _ _) (fun g h hg => ?_) (fun _ _ _ => ho)
    fun _ _ => trivial, fun _ => ho⟩
  refine wp_mono (wp_destroy_evolves (F := AnyFault) (o := ⟨h, o.str⟩) fun _ _ _ _ => trivial)
    (fun _ _ _ => GString.slim_of_needsFreeing hg) (fun _ _ hn => hn.elim) fun _ _ => trivial

/-- The methods keep a string slim. -/
theorem stable_slim : Stable AnyFault fun o => o.str.Slim where
  faults := accessFaults_any
  write := fun _ _ _ ho => ho
  setLength := fun o n ho hn => by
    have := ho (by simpa using hn)
    simpa using this
  reallocate := fun _ hp => preserves_reallocate_slim hp
  owned := preserves_owned_slim

theorem wp_copyAssign_slim {o : Object} {g : GString} (hg : g.Slim) :
    wp (GString.copyAssign g) (fun _ o' => o'.str.Slim) (fun _ o' => o'.str.Slim) AnyFault o := by
  simp only [GString.copyAssign, str, onHeap, modifyStr, wp_bind, wp_map, wp_get, wp_zoom,
    wp_modify, wp_ite, wp_when, wp_raise]
  have hown : ∀ power, power < 64 → ∀ b n, GString.Slim ⟨Meta.pack true false power n, b⟩ :=
    fun power hp b n => GString.slim_of_needsFreeing (needsFreeing_mk_own power n hp b)
  refine ⟨fun _ => ?_, fun _ => ?_⟩
  · exact Heap.wp_memcpy_of_faults trivial trivial fun _ => hown _ o.str.power_lt _ _
  · refine wp_mono (wp_destroy_evolves (F := AnyFault) fun _ _ _ _ => trivial)
      (fun _ _ _ => ⟨fun _ => hg, fun _ => ?_⟩) (fun _ _ hn => hn.elim) fun _ => id
    refine Heap.wp_malloc ⟨fun _ => GString.slim_of_buf_eq_none rfl, fun hne => absurd rfl hne⟩
      ⟨by simp, fun _ => ?_⟩
    exact Heap.wp_memcpy_of_faults trivial trivial fun _ => hown 0 (by decide) _ _

namespace World

/-- Every live string is slim. -/
def AllSlim (w : World) : Prop := ∀ i s, w.strs i = some s → s.Slim

variable {w : World}

theorem AllSlim.put (hw : w.AllSlim) {i : ℕ} {o : Option GString} {h : Heap}
    (ho : ∀ s, o = some s → s.Slim) : ({ w with heap := h }.put i o).AllSlim := by
  intro k s hk
  by_cases hki : k = i
  · subst hki
    exact ho s (by simpa [World.put] using hk)
  · exact hw k s (by simpa [World.put, hki] using hk)

theorem AllSlim.put_some (hw : w.AllSlim) {i : ℕ} {s : GString} {h : Heap} (hs : s.Slim) :
    ({ w with heap := h }.put i (some s)).AllSlim :=
  hw.put fun _ ht => Option.some.inj ht ▸ hs

theorem wp_construct_slim (hw : w.AllSlim) {i : ℕ} {x : Exec Heap GString}
    (hx : wp x (fun g _ => g.Slim) (fun _ _ => True) AnyFault w.heap) :
    wp (construct i x) (fun _ => AllSlim) (fun _ => AllSlim) AnyFault w :=
  wp_construct accessFaults_any fun _ => wp_mono hx (fun _ _ hg => hw.put_some hg)
    (fun _ _ _ => hw) fun _ => id

theorem wp_call_slim (hw : w.AllSlim) {i : ℕ} {m : Method Unit}
    (hm : ∀ s, s.Slim → wp m (fun _ o => o.str.Slim) (fun _ o => o.str.Slim) AnyFault ⟨w.heap, s⟩) :
    wp (call i m) (fun _ => AllSlim) (fun _ => AllSlim) AnyFault w :=
  wp_call accessFaults_any fun s hs => wp_mono (hm s (hw i s hs)) (fun _ _ ho => hw.put_some ho)
    (fun _ _ ho => hw.put_some ho) fun _ => id

end World

/-- The step makes no string over a buffer of the caller with a size. -/
def Step.Unbuffered : Step → Prop
  | .onBuffer .. => False
  | _ => True

/-- Without buffers of the caller every string stays slim. -/
theorem wp_exec_slim {l : Step} {w : World} (hl : l.Unbuffered) (hw : w.AllSlim) :
    wp l.exec (fun _ => AllSlim) (fun _ => AllSlim) AnyFault w := by
  have hempty : GString.Slim .empty := GString.slim_of_buf_eq_none rfl
  have hF := accessFaults_any
  cases l with
  | onBuffer i size p n r => exact hl.elim
  | literal i p n =>
    exact wp_construct_slim hw (GString.slim_of_power_eq_zero
      (GString.power_mk_pack _ _ _ _ (by decide)))
  | reference i p n r =>
    exact wp_construct_slim hw (GString.slim_of_power_eq_zero
      (GString.power_mk_pack _ _ _ _ (by decide)))
  | ofCString i p => exact wp_construct_slim hw (wp_ofCString_slim p)
  | ofChars i p n =>
    exact wp_construct_slim hw (wp_mono (wp_ofChars_slim p n)
      (fun _ _ => GString.slim_of_needsFreeing) (fun _ _ => id) fun _ => id)
  | ofString i p n => exact wp_construct_slim hw (wp_ofString_slim p n)
  -- a copy is as slim as the string that it is copied from
  | copy i j =>
    exact (wp_bind _).mpr (wp_live hF fun g hg => wp_construct_slim hw (wp_copy_slim (hw j g hg)))
  -- the string that is moved from is left empty
  | move i j =>
    simp only [Step.exec, wp_bind, wp_modify]
    refine wp_live hF fun g hg => wp_mono (wp_construct_slim hw (x := pure g) (hw j g hg))
      (fun _ w' hw' => hw'.put_some hempty) (fun _ _ => id) fun _ => id
  | ref i j =>
    exact (wp_bind _).mpr (wp_live hF fun g _ => wp_construct_slim hw (wp_ofBuffer_slim _ _ _))
  | view i j pos count =>
    exact (wp_bind _).mpr (wp_live hF fun g _ => wp_construct_slim hw (wp_ofBuffer_slim _ _ _))
  | clone i j =>
    exact (wp_bind _).mpr (wp_live hF fun g _ => wp_construct_slim hw (wp_mono
      (wp_ofChars_slim _ _) (fun _ _ => GString.slim_of_needsFreeing) (fun _ _ => id) fun _ => id))
  | edit i e => exact wp_call_slim hw fun s hs => stable_slim.run e _ hs
  | append i j =>
    exact (wp_bind _).mpr (wp_live hF fun g _ => wp_call_slim hw fun s hs =>
      stable_slim.append _ _ _ hs)
  | copyAssign i j =>
    simp only [Step.exec, wp_bind, wp_when]
    exact wp_live hF fun g hg => ⟨fun _ => wp_call_slim hw fun _ _ =>
      wp_copyAssign_slim (hw j g hg), fun _ => hw⟩
  -- the assigned string takes over a slim one
  | moveAssign i j =>
    simp only [Step.exec, wp_bind, wp_ite, wp_fail, wp_modify]
    refine wp_live hF fun g hg => ⟨fun _ => trivial, fun _ => ?_⟩
    refine wp_mono (wp_call_slim hw fun s _ => wp_mono (wp_moveAssign_evolves
      (F := AnyFault) (fun _ _ _ _ => trivial) g) (fun _ o ho => ?_) (fun _ _ hn => hn.elim)
      fun _ => id) (fun _ _ hw' => hw'.put_some hempty) (fun _ _ => id) fun _ => id
    rw [ho.2]
    exact hw j g hg
  | destroy i =>
    simp only [Step.exec, wp_bind, wp_zoom, wp_modify]
    refine wp_live hF fun s _ => wp_mono (wp_destroy_evolves (F := AnyFault) (o := ⟨w.heap, s⟩)
      fun _ _ _ _ => trivial) (fun _ _ _ => hw.put (by simp)) (fun _ _ hn => hn.elim) fun _ => id

/-! ## Runs -/

section Runs

variable {l : Step} {ls : List Step} {w w' : World} {h : Heap}

/-- A slim target has no capacity for a buffer it does not own. -/
theorem World.AllSlim.not_reusesForeign (hw : w.AllSlim) : ¬ l.ReusesForeign w := by
  rintro ⟨i, j, s, g, -, -, hs, -, -, hcap, hfree, hbuf⟩
  rcases hw i s hs hfree with hpower | hnull
  · simp [GString.capacity, hpower] at hcap
  · exact hbuf hnull

/-- The step is one of those on literals and own buffers, and shares no owner. -/
def Step.KeepsOwners (l : Step) (w : World) : Prop := l.Unbuffered ∧ ¬ l.SharesOwner w

/-- A sound world of slim strings steps to such a world, and frees nothing twice. -/
theorem wp_exec_sound (hl : l.KeepsOwners w) (hslim : w.AllSlim) (hS : Sound w.heap w.own) :
    wp l.exec (fun _ w' => w'.AllSlim ∧ Sound w'.heap w'.own)
      (fun _ w' => w'.AllSlim ∧ Sound w'.heap w'.own)
      (fun u => u ≠ .foreignFree ∧ u ≠ .doubleFree) w := by
  have heffect := wp_exec_effect (l := l) (w := w)
    (F := fun u => u ≠ .foreignFree ∧ u ≠ .doubleFree)
    (fun u hu hu' => ⟨hu, hu'⟩)
    (fun i p u hp hu => by rw [hS.freeable i p hp] at hu; cases hu) hslim.not_reusesForeign
  exact wp_mono (wp_and (wp_exec_slim hl.1 hslim) heffect)
    (fun _ _ h => ⟨h.1, h.2.sound hl.2 hS⟩) (fun _ _ h => ⟨h.1, h.2.sound hl.2 hS⟩) fun _ h => h.2

theorem sound_of_run (hr : Run Step.exec Step.KeepsOwners (World.start h) ls w) :
    w.AllSlim ∧ Sound w.heap w.own :=
  hr.invariant (I := fun w => w.AllSlim ∧ Sound w.heap w.own)
    (fun _ _ _ hI hl hleaves => Run.leaves_of_wp (Q := fun w => w.AllSlim ∧ Sound w.heap w.own)
      (wp_exec_sound hl hI.1 hI.2) hleaves)
    ⟨nofun, Sound.start h⟩

/-- Memory that holds the literal `"foo"`. -/
def literalHeap : Heap := ⟨[⟨cells [102, 111, 111, 0], .foreign, true⟩], 0, []⟩

/-- The ownership of buffers is unique in every run that shares no owner, and no step of such
a run frees a buffer twice. -/
theorem uniqueOwners_of_run (hr : Run Step.exec Step.KeepsOwners (World.start h) ls w) :
    w.UniqueOwners ∧ ∀ l : Step, l.KeepsOwners w →
      l.exec w ≠ .fault .doubleFree ∧ l.exec w ≠ .fault .foreignFree := by
  obtain ⟨hslim, hS⟩ := sound_of_run hr
  refine ⟨hS.uniqueOwners, fun l hl => ?_⟩
  have hwp := wp_exec_sound hl hslim hS
  constructor <;> intro hx <;> simp [wp, hx] at hwp

/-- A literal that is copied before its `c_str` is taken is shared and then owned once. -/
theorem uniqueOwners_of_shared_literal :
    ∃ w, Run.execAll Step.exec [.literal 0 (some ⟨0, 0⟩) 3, .copy 1 0, .edit 1 .cStr]
        (World.start literalHeap) = some w ∧
      (w.strs 1).map GString.needsFreeing = some true ∧ w.UniqueOwners := by
  have hplain : ∀ l : Step, (∀ i j, l ≠ .copy i j ∧ l ≠ .copyAssign i j) → l.Unbuffered →
      ∀ w, l.KeepsOwners w := by
    rintro l hl hb w
    refine ⟨hb, ?_⟩
    rintro ⟨i, j, g, ⟨-, -, ⟨rfl, -⟩ | ⟨s, rfl, -⟩⟩, -⟩
    · exact (hl i j).1 rfl
    · exact (hl i j).2 rfl
  have hliteral := hplain (.literal 0 (some ⟨0, 0⟩) 3) (by simp) trivial
  have hcStr := hplain (.edit 1 .cStr) (by simp) trivial
  -- the source of the copy does not carry `FREE_FLAG`
  have hcopy : ∀ w, w.strs 0 = some (GString.reference (some ⟨0, 0⟩) 3 true) →
      Step.KeepsOwners (.copy 1 0) w := by
    refine fun w hw => ⟨trivial, ?_⟩
    rintro ⟨i, j, g, ⟨hj, -, ⟨hl, -⟩ | ⟨s, hl, -⟩⟩, hg⟩
    · obtain ⟨rfl, rfl⟩ := Step.copy.inj hl
      obtain rfl := Option.some.inj (hj.symm.trans hw)
      exact absurd hg (by decide)
    · cases hl
  exact ⟨_, rfl, by decide, (uniqueOwners_of_run (h := literalHeap) (.cons (hliteral _) rfl
    (.cons (hcopy _ rfl) rfl (.cons (hcStr _) rfl (.nil _))))).1⟩

/-- Sharing an owner does break the ownership. -/
theorem not_uniqueOwners_of_sharesOwner {i j : ℕ} {g : GString} (hl : l.Shares w i j g)
    (hg : g.needsFreeing) (hbuf : g.buf ≠ none) (hx : (l.exec w).Leaves w') :
    ¬ w'.UniqueOwners := by
  obtain ⟨p, hp⟩ := Option.ne_none_iff_exists'.mp hbuf
  obtain ⟨hj, hr, hcase⟩ := hl
  have hshared : ∀ h, i ≠ j → ¬ ({ w with heap := h }.put i (some g)).UniqueOwners := by
    intro h hij hu
    refine hij (hu i j g g p p ?_ ?_ hg hg hp hp rfl)
    · simp [World.put]
    · simpa [World.put, hij.symm] using hj
  refine Run.leaves_of_wp (Q := fun w => ¬ w.UniqueOwners) (F := AnyFault) ?_ hx
  rcases hcase with ⟨rfl, hlen⟩ | ⟨s, rfl, hij, hi, hcap⟩
  · refine (wp_bind _).mpr (wp_live accessFaults_any fun g' hg' => ?_)
    obtain rfl : g = g' := Option.some.inj (hj.symm.trans hg')
    refine wp_construct accessFaults_any fun hi => ?_
    simp only [GString.copy, wp_ite, wp_pure, hr, hlen, ne_eq, not_false_eq_true, not_true_eq_false,
      false_implies, and_true, true_implies]
    exact hshared _ (by rintro rfl; rw [hi] at hj; cases hj)
  · simp only [Step.exec, wp_bind, wp_when]
    refine wp_live accessFaults_any fun g' hg' => ⟨fun _ => ?_, fun hnot => absurd hij hnot⟩
    obtain rfl : g = g' := Option.some.inj (hj.symm.trans hg')
    refine wp_call accessFaults_any fun s' hs' => ?_
    obtain rfl : s = s' := Option.some.inj (hi.symm.trans hs')
    simp only [GString.copyAssign, str, onHeap, modifyStr, wp_bind, wp_map, wp_get, wp_zoom,
      wp_modify, wp_ite, hcap, hr, false_implies, true_and, not_false_eq_true, true_implies,
      not_true_eq_false, and_true]
    exact wp_mono (wp_destroy_evolves (F := AnyFault) (o := ⟨w.heap, s⟩) fun _ _ _ _ => trivial)
      (fun _ _ _ => hshared _ hij) (fun _ _ hn => hn.elim) fun _ => id


/-- A literal, its `c_str`, and a copy of it. -/
def grownLiteral : List Step :=
  [.literal 0 (some ⟨0, 0⟩) 3, .edit 0 .cStr, .copy 1 0]

/-- The copy of a literal that was asked for its `c_str` frees the buffer of the literal. -/
theorem grown_literal_shared :
    ∃ w w', Run Step.exec (fun l _ => l.Unbuffered) (World.start literalHeap) grownLiteral w ∧
      ¬ w.UniqueOwners ∧ ((Step.destroy 0).exec w).Leaves w' ∧
        (Step.destroy 1).exec w' = .fault .doubleFree := by
  have hrun : ∃ w, Run.execAll Step.exec grownLiteral (World.start literalHeap) = some w ∧
      (w.strs 0 = some ⟨0xC2000003#32, some ⟨1, 0⟩⟩ ∧ w.strs 1 = w.strs 0) ∧
      ∃ w', ((Step.destroy 0).exec w).Leaves w' ∧
        (Step.destroy 1).exec w' = .fault .doubleFree :=
    ⟨_, rfl, by decide, _, rfl, rfl⟩
  obtain ⟨w, hw, hstrs, w', hd, hf⟩ := hrun
  refine ⟨w, w', Run.of_execAll (by simp [grownLiteral, Step.Unbuffered]) hw, fun hu => ?_, hd, hf⟩
  exact absurd (hu 0 1 _ _ _ _ hstrs.1 (hstrs.2.trans hstrs.1) (by decide) (by decide) rfl rfl rfl)
    (by decide)

end Runs

end Glim
