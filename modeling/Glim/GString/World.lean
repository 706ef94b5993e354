import Glim.GString.Evolution
import Glim.GString.Growth
import Glim.Machine.Run

/-!
# Several strings in one heap

A world is a heap with the live strings by name. Its steps are the constructions, the
method calls, the assignments and the destructions; a step that names a string that
does not exist, or a new string by a name in use, is undefined.

## Main definitions

* `World`, `Step`, `Step.exec`: the worlds and what a step does
* `World.own`: the buffer the string of a name would free
* `Effect`: what a step can do to the ownership

## Main results

* `wp_exec_effect`: every step has such an effect, if no string reuses a buffer that it
  does not own
-/

namespace Glim

open Machine Exec Method

structure World where
  heap : Heap
  /-- The live strings. -/
  strs : ℕ → Option GString

namespace World

/-- No string is alive yet. -/
def start (h : Heap) : World := ⟨h, fun _ => none⟩

/-- The world with the string `s` under the name `i`, or with none. -/
def put (w : World) (i : ℕ) (s : Option GString) : World :=
  { w with strs := Function.update w.strs i s }

/-- The buffer the destructor of the string `i` would free. -/
def own (w : World) (i : ℕ) : Option Ptr := (w.strs i).bind GString.ownBuf

/-- The string `i`, which has to be alive. -/
def live (i : ℕ) : Exec World GString := fun w =>
  match w.strs i with
  | some s => .ok s w
  | none => .fault .useAfterFree

/-- Run a constructor and give its result the unused name `i`. -/
def construct (i : ℕ) (x : Exec Heap GString) : Exec World Unit := fun w =>
  match w.strs i with
  | some _ => .fault .assertion
  | none =>
    (do
      let g ← zoom World.heap (fun h w => { w with heap := h }) x
      modify fun w => w.put i (some g) : Exec World Unit) w

/-- Call a method of the string `i`. -/
def call (i : ℕ) (m : Method Unit) : Exec World Unit := do
  let s ← live i
  zoom (fun w => ⟨w.heap, s⟩) (fun o w => { w with heap := o.heap }.put i (some o.str)) m

end World

open World

/-- A step of a program that uses strings. -/
inductive Step where
  /-- `C2GSTRING` -/
  | literal (i : ℕ) (p : Option Ptr) (length : UInt32)
  | reference (i : ℕ) (p : Option Ptr) (length : UInt32) (ref : Bool)
  /-- `gstring (bufSize, p, false, length, ref)`, and so `GSTRING_ON_STACK` -/
  | onBuffer (i : ℕ) (bufSize : UInt32) (p : Option Ptr) (length : UInt32) (ref : Bool)
  | ofCString (i : ℕ) (chars : Option Ptr)
  | ofChars (i : ℕ) (chars : Option Ptr) (length : ℕ)
  | ofString (i : ℕ) (data : Option Ptr) (length : ℕ)
  | copy (i j : ℕ)
  | move (i j : ℕ)
  | ref (i j : ℕ)
  | view (i j : ℕ) (pos : UInt32) (count : Int32)
  | clone (i j : ℕ)
  | edit (i : ℕ) (e : Edit)
  | append (i j : ℕ)
  | copyAssign (i j : ℕ)
  | moveAssign (i j : ℕ)
  | destroy (i : ℕ)
  deriving DecidableEq, Repr

/-- What a step does. -/
def Step.exec : Step → Exec World Unit
  | literal i p n => construct i (pure (GString.reference p n true))
  | reference i p n r => construct i (pure (GString.reference p n r))
  | onBuffer i size p n r => construct i (GString.ofBuffer size p false n r)
  | ofCString i p => construct i (GString.ofCString p)
  | ofChars i p n => construct i (GString.ofChars p n)
  | ofString i p n => construct i (GString.ofString p n)
  | copy i j => do
    let g ← live j
    construct i (GString.copy g)
  | move i j => do
    let g ← live j
    construct i (pure g)
    modify fun w => w.put j (some .empty)
  | ref i j => do
    let g ← live j
    construct i (GString.ref g)
  | view i j pos count => do
    let g ← live j
    construct i (GString.view g pos count)
  | clone i j => do
    let g ← live j
    construct i (GString.clone g)
  | edit i e => call i e.run
  | append i j => do
    let g ← live j
    call i (GString.appendGString g)
  | copyAssign i j => do
    let g ← live j
    when (i ≠ j) (call i (GString.copyAssign g)) -- `this != &gstr`
  | moveAssign i j => do
    let g ← live j
    if i = j then fail .assertion
    else do
      call i (GString.moveAssign g)
      modify fun w => w.put j (some .empty)
  | destroy i => do
    let s ← live i
    zoom World.heap (fun h w => { w with heap := h }) (GString.destroy s)
    modify fun w => w.put i none

/-! ## The effect of a step on the ownership -/

namespace World

theorem own_put (w : World) (i : ℕ) (s : Option GString) :
    (w.put i s).own = Function.update w.own i (s.bind GString.ownBuf) := by
  funext k
  by_cases hk : k = i
  · subst hk; simp [own, put]
  · simp [own, put, hk]

@[simp] theorem put_heap (w : World) (i : ℕ) (s : Option GString) :
    (w.put i s).heap = w.heap := rfl

theorem own_of_strs {w : World} {i : ℕ} {s : GString} (h : w.strs i = some s) :
    w.own i = s.ownBuf := by
  simp [own, h]

/-- The string `i`, or one that comes to be under that name, keeps or replaces its buffer. -/
def Changes (i : ℕ) (w w' : World) : Prop :=
  ∃ s s', s.ownBuf = w.own i ∧ Evolves ⟨w.heap, s⟩ ⟨w'.heap, s'⟩ ∧
    w'.own = Function.update w.own i s'.ownBuf

/-- The string `i` gives up its buffer and shares that of `j`. -/
def Shares (i j : ℕ) (w w' : World) : Prop :=
  ∃ s, s.ownBuf = w.own i ∧ Evolves ⟨w.heap, s⟩ ⟨w'.heap, .empty⟩ ∧
    w'.own = Function.update w.own i (w.own j)

/-- The string `i` gives up its buffer and takes that of `j`. -/
def Takes (i j : ℕ) (w w' : World) : Prop :=
  ∃ s, s.ownBuf = w.own i ∧ Evolves ⟨w.heap, s⟩ ⟨w'.heap, .empty⟩ ∧
    w'.own = Function.update (Function.update w.own i (w.own j)) j none

end World

/-- The step copies the string `j`, which is `g`, into `i` without copying its buffer. -/
def Step.Shares (l : Step) (w : World) (i j : ℕ) (g : GString) : Prop :=
  w.strs j = some g ∧ g.copiedByReference ∧
    (l = .copy i j ∧ g.length ≠ 0 ∨
      ∃ s, l = .copyAssign i j ∧ i ≠ j ∧ w.strs i = some s ∧
        ¬ (g.length ≤ s.capacity ∧ 1 < s.capacity))

/-- The step moves the string `j` into `i`. -/
def Step.Moves (l : Step) (i j : ℕ) : Prop := l = .move i j ∨ l = .moveAssign i j

/-- The assignment copies into a buffer that its target does not own. -/
def Step.ReusesForeign (l : Step) (w : World) : Prop :=
  ∃ i j s g, l = .copyAssign i j ∧ i ≠ j ∧ w.strs i = some s ∧ w.strs j = some g ∧
    g.length ≤ s.capacity ∧ 1 < s.capacity ∧ s.needsFreeing = false ∧ s.buf ≠ none

/-- What a step can do to the ownership of buffers. -/
inductive Effect (l : Step) (w w' : World) : Prop
  | changes (i : ℕ) (h : w.Changes i w')
  | shares (i j : ℕ) (g : GString) (hl : l.Shares w i j g) (h : w.Shares i j w')
  | takes (i j : ℕ) (hl : l.Moves i j) (hij : i ≠ j) (h : w.Takes i j w')

section Effects

variable {F : Fault → Prop} {w : World} {l : Step}

theorem Effect.refl : Effect l w w := by
  refine .changes 0 ⟨(w.strs 0).getD .empty, (w.strs 0).getD .empty, ?_, Evolves.refl _, ?_⟩
  · cases h : w.strs 0 <;> simp [own, h]
  · funext k
    by_cases hk : k = 0
    · subst hk; cases h : w.strs 0 <;> simp [own, h]
    · simp [hk]

theorem wp_live {Q : GString → World → Prop} {E : String → World → Prop} {i : ℕ}
    (hF : AccessFaults F) (hQ : ∀ s, w.strs i = some s → Q s w) : wp (live i) Q E F w := by
  simp only [wp, live]
  cases h : w.strs i with
  | some s => exact hQ s h
  | none => exact hF _ (by decide) (by decide)

/-- The steps that construct a string whose ownership evolves from nothing. -/
theorem wp_construct {Q : World → Prop} {E : String → World → Prop} {i : ℕ} {x : Exec Heap GString}
    (hF : AccessFaults F)
    (hx : w.strs i = none → wp x (fun g h => Q ({ w with heap := h }.put i (some g)))
      (fun e h => E e { w with heap := h }) F w.heap) :
    wp (construct i x) (fun _ => Q) E F w := by
  simp only [wp, construct]
  cases h : w.strs i with
  | some s => exact hF _ (by decide) (by decide)
  | none =>
    show wp (do
      let g ← zoom World.heap (fun h w => { w with heap := h }) x
      modify fun w => w.put i (some g)) _ _ _ _
    simp only [wp_bind, wp_zoom, wp_modify]
    exact hx h

theorem wp_call {Q : World → Prop} {E : String → World → Prop} {i : ℕ} {m : Method Unit}
    (hF : AccessFaults F)
    (hm : ∀ s, w.strs i = some s →
      wp m (fun _ o => Q ({ w with heap := o.heap }.put i (some o.str)))
        (fun e o => E e ({ w with heap := o.heap }.put i (some o.str))) F ⟨w.heap, s⟩) :
    wp (call i m) (fun _ => Q) E F w := by
  simp only [call, wp_bind, wp_zoom]
  exact wp_live hF hm

theorem changes_put {i : ℕ} {s s' : GString} {h : Heap} (hs : s.ownBuf = w.own i)
    (he : Evolves ⟨w.heap, s⟩ ⟨h, s'⟩) : w.Changes i ({ w with heap := h }.put i (some s')) :=
  ⟨s, s', hs, he, own_put _ _ _⟩

theorem own_eq_none {i : ℕ} (h : w.strs i = none) : GString.empty.ownBuf = w.own i := by
  simp [own, h]

/-- A constructor that starts from nothing. -/
theorem effect_construct {i : ℕ} {x : Exec Heap GString} (hF : AccessFaults F)
    (hx : wp x (fun g h => Evolves ⟨w.heap, .empty⟩ ⟨h, g⟩)
      (fun _ h => Evolves ⟨w.heap, .empty⟩ ⟨h, .empty⟩) F w.heap) :
    wp (construct i x) (fun _ => Effect l w) (fun _ => Effect l w) F w :=
  wp_construct hF fun hi => wp_mono hx (fun _ _ h => .changes i (changes_put (own_eq_none hi) h))
    (fun _ h' h => .changes i ⟨.empty, .empty, own_eq_none hi, h, by
      rw [own_eq_none hi, Function.update_eq_self]; rfl⟩) fun _ h => h

theorem evolves_of_ownBuf_eq_none {h : Heap} {g : GString} (hg : g.ownBuf = none) :
    Evolves ⟨h, .empty⟩ ⟨h, g⟩ :=
  Evolves.lose (SameStatus.refl h) hg

/-- A string over a buffer that is not its own. -/
theorem ownBuf_pack {r : Bool} {p n : ℕ} {b : Option Ptr} (hp : p < 64) :
    GString.ownBuf ⟨Meta.pack false r p n, b⟩ = none :=
  GString.ownBuf_of_not_needsFreeing (GString.needsFreeing_mk_pack _ _ _ _ hp)

theorem wp_ofBuffer_evolves {h : Heap} (hF : AccessFaults F) (size : UInt32) (p : Option Ptr)
    (n : UInt32) (r : Bool) :
    wp (GString.ofBuffer size p false n r) (fun g h' => Evolves ⟨h, .empty⟩ ⟨h', g⟩)
      (fun _ h' => Evolves ⟨h, .empty⟩ ⟨h', .empty⟩) F h := by
  rw [GString.ofBuffer_eq]
  split_ifs with hs
  · have hlog := GString.log_two_lt_of_lt (by decide) hs
    exact evolves_of_ownBuf_eq_none (ownBuf_pack (by omega))
  · exact hF _ (by decide) (by decide)

/-- The effect of a step on the ownership. -/
theorem wp_exec_effect (hF : AccessFaults F)
    (hfree : ∀ i p u, w.own i = some p → w.heap.freeFault p = some u → F u)
    (hreuse : ¬ l.ReusesForeign w) :
    wp l.exec (fun _ => Effect l w) (fun _ => Effect l w) F w := by
  have hwithin : ∀ i s, w.strs i = some s → FreesWithin F ⟨w.heap, s⟩ := fun i s hs p u hp hu =>
    hfree i p u ((own_of_strs hs).trans hp) hu
  -- a method that evolves its own string changes the owner of that string alone
  have hedit : ∀ i s, w.strs i = some s → ∀ m : Method Unit,
      Preserves (Evolves ⟨w.heap, s⟩) F m →
      wp m (fun _ o => Effect l w ({ w with heap := o.heap }.put i (some o.str)))
        (fun _ o => Effect l w ({ w with heap := o.heap }.put i (some o.str))) F ⟨w.heap, s⟩ :=
    fun i s hs m hm => wp_mono (hm _ (Evolves.refl _))
      (fun _ o h => .changes i (changes_put (own_of_strs hs).symm h))
      (fun _ o h => .changes i (changes_put (own_of_strs hs).symm h)) fun _ h => h
  cases l with
  | literal i p n => exact effect_construct hF (evolves_of_ownBuf_eq_none (ownBuf_pack (by decide)))
  | reference i p n r =>
    exact effect_construct hF (evolves_of_ownBuf_eq_none (ownBuf_pack (by decide)))
  | onBuffer i size p n r => exact effect_construct hF (wp_ofBuffer_evolves hF size p n r)
  | ofCString i p => exact effect_construct hF (wp_ofCString_evolves hF p)
  | ofChars i p n => exact effect_construct hF (wp_ofChars_evolves hF p n)
  | ofString i p n => exact effect_construct hF (wp_ofString_evolves hF p n)
  -- the copy gets a buffer of its own, or shares that of the other string
  | copy i j =>
    refine (wp_bind _).mpr (wp_live hF fun g hg => wp_construct hF fun hi => ?_)
    refine wp_mono (wp_copy_evolves hF g) (fun g' h' hc => ?_) (fun _ h' h => ?_) fun _ h => h
    · rcases hc with he | ⟨hr, rfl, rfl⟩
      · exact .changes i (changes_put (own_eq_none hi) he)
      · exact .shares i j g' ⟨hg, hr.1, .inl ⟨rfl, hr.2⟩⟩
          ⟨.empty, own_eq_none hi, Evolves.refl _, by rw [own_put, own_of_strs hg]; rfl⟩
    · exact .changes i ⟨.empty, .empty, own_eq_none hi, h, by
        rw [own_eq_none hi, Function.update_eq_self]; rfl⟩
  | move i j =>
    simp only [Step.exec, wp_bind, wp_modify]
    refine wp_live hF fun g hg => wp_construct hF fun hi => ?_
    have hij : i ≠ j := by rintro rfl; rw [hi] at hg; cases hg
    exact .takes i j (.inl rfl) hij ⟨.empty, own_eq_none hi, Evolves.refl _, by
      rw [own_put, own_put, own_of_strs hg]; rfl⟩
  | ref i j =>
    exact (wp_bind _).mpr
      (wp_live hF fun g _ => effect_construct hF (wp_ofBuffer_evolves hF _ _ _ _))
  | view i j pos count =>
    exact (wp_bind _).mpr
      (wp_live hF fun g _ => effect_construct hF (wp_ofBuffer_evolves hF _ _ _ _))
  | clone i j =>
    exact (wp_bind _).mpr (wp_live hF fun g _ => effect_construct hF (wp_ofChars_evolves hF _ _))
  | edit i e =>
    exact wp_call hF fun s hs => hedit i s hs _ ((stable_evolves hF (hwithin i s hs)).run e)
  | append i j =>
    exact (wp_bind _).mpr (wp_live hF fun g _ => wp_call hF fun s hs =>
      hedit i s hs _ ((stable_evolves hF (hwithin i s hs)).append _ _))
  | copyAssign i j =>
    simp only [Step.exec, wp_bind, wp_when]
    refine wp_live hF fun g hg => ⟨fun hij => wp_call hF fun s hs => ?_, fun _ => Effect.refl⟩
    -- a buffer that is reused but not freed would be one of another owner
    have hown : g.length ≤ s.capacity → 1 < s.capacity → s.needsFreeing ∨ s.buf = none := by
      intro hle hcap
      by_contra hnot
      push Not at hnot
      exact hreuse ⟨i, j, s, g, rfl, hij, hs, hg, hle, hcap, by simpa using hnot.1, hnot.2⟩
    refine wp_mono (wp_copyAssign_evolves hF (hwithin i s hs) g hown) (fun _ o hc => ?_)
      (fun _ o h => .changes i (changes_put (own_of_strs hs).symm h)) fun _ h => h
    rcases hc with he | ⟨hr, he, hstr⟩
    · exact .changes i (changes_put (own_of_strs hs).symm he)
    · exact .shares i j g ⟨hg, hr.1, .inr ⟨s, rfl, hij, hs, hr.2⟩⟩ ⟨s, (own_of_strs hs).symm, he, by
        rw [own_put, own_of_strs hg, hstr]; rfl⟩
  | moveAssign i j =>
    simp only [Step.exec, wp_bind, wp_ite, wp_fail, wp_modify]
    refine wp_live hF fun g hg => ⟨fun _ => hF _ (by decide) (by decide), fun hij => ?_⟩
    refine wp_call hF fun s hs => wp_mono (wp_moveAssign_evolves (hwithin i s hs) g)
      (fun _ o hm => ?_) (fun _ _ h => h.elim) fun _ h => h
    -- the buffer moves to the assigned string, and the source is left empty
    exact .takes i j (.inr rfl) hij ⟨s, (own_of_strs hs).symm, hm.1, by
      rw [own_put, own_put, own_of_strs hg, hm.2]; rfl⟩
  | destroy i =>
    simp only [Step.exec, wp_bind, wp_zoom, wp_modify]
    refine wp_live hF fun s hs => wp_mono (wp_destroy_evolves (hwithin i s hs)) (fun _ h he => ?_)
      (fun _ _ h => h.elim) fun _ h => h
    exact .changes i ⟨s, .empty, (own_of_strs hs).symm, he, own_put _ _ _⟩

end Effects

end Glim
