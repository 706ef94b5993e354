import Glim.GString.World

/-!
# Where an owned buffer comes from

A string that frees its buffer got that buffer from the allocator, or from a string that
did. The copy assignment is the one exception: it copies into a buffer that is large
enough, also when that buffer belongs to the caller, and marks it as owned.

## Main definitions

* `World.Allocated`: every buffer that a live string would free came from the allocator
* `Step.Acquires`: what a step makes a string own it either owned before, or was handed,
  or is new
* `Step.ReusesForeign`: the exception

## Main results

* `allocated_of_run`: apart from the exception, only allocated buffers are ever owned,
  and no step frees a buffer that was not allocated
* `owns_of_reusesForeign`: the exception makes a string own the caller's buffer
* `stack_buffer_freed`: it happens to a string on the stack
-/

namespace Glim

open Machine Exec Method

namespace World

/-- Every buffer that a live string would free came from the allocator. -/
def Allocated (w : World) : Prop :=
  ∀ i s p, w.strs i = some s → s.needsFreeing → s.buf = some p →
    p.off = 0 ∧ (w.heap.status p.block).map Prod.fst = some .malloc

theorem allocated_iff {w : World} :
    w.Allocated ↔ ∀ i p, w.own i = some p → w.heap.freeFault p ≠ some .foreignFree := by
  constructor
  · intro hw i p hp
    obtain ⟨s, hs, hown⟩ := Option.bind_eq_some_iff.mp hp
    obtain ⟨hfree, hbuf⟩ := GString.ownBuf_eq_some_iff.mp hown
    exact Heap.freeFault_ne_foreignFree_iff.mpr (hw i s p hs hfree hbuf)
  · intro hw i s p hs hfree hbuf
    refine Heap.freeFault_ne_foreignFree_iff.mp (hw i p ?_)
    rw [own_of_strs hs]
    exact GString.ownBuf_eq_some_iff.mpr ⟨hfree, hbuf⟩

theorem Allocated.start (h : Heap) : (World.start h).Allocated := nofun

end World

open World

/-- The step copies or moves the string `j` into `i`. -/
def Step.HandsOver (l : Step) (i j : ℕ) : Prop :=
  l = .copy i j ∨ l = .copyAssign i j ∨ l.Moves i j

/-- What a string owns after the step it owned before, or the step handed it over from a string
that owned it, or the step allocated it. -/
def Step.Acquires (l : Step) (w w' : World) : Prop :=
  ∀ i p, w'.own i = some p →
    w.own i = some p ∨ (∃ j, l.HandsOver i j ∧ w.own j = some p) ∨
      w.heap.blocks.length ≤ p.block ∧ w'.heap.freeFault p = none

section Steps

variable {l : Step} {w w' : World}

/-- The effect of a step on a buffer that is owned afterwards. -/
theorem Effect.acquires (he : Effect l w w') : l.Acquires w w' := by
  intro k p hp
  cases he with
  | changes i h =>
    obtain ⟨s, s', hs, he, hown⟩ := h
    rw [hown] at hp
    -- only the string of the step has another buffer
    by_cases hk : k = i
    · subst hk
      rw [Function.update_self] at hp
      -- it has kept its buffer, or allocated one
      rcases he.owned p hp with ⟨hold, -⟩ | hnew
      · exact Or.inl (hs ▸ hold)
      · exact Or.inr (Or.inr hnew)
    · rw [Function.update_of_ne hk] at hp
      exact Or.inl hp
  | shares i j g hl h =>
    obtain ⟨s, -, -, hown⟩ := h
    rw [hown] at hp
    by_cases hk : k = i
    · subst hk
      rw [Function.update_self] at hp
      refine Or.inr (Or.inl ⟨j, ?_, hp⟩)
      rcases hl.2.2 with ⟨hl, -⟩ | ⟨s, hl, -⟩
      · exact Or.inl hl
      · exact Or.inr (Or.inl hl)
    · rw [Function.update_of_ne hk] at hp
      exact Or.inl hp
  | takes i j hl hij h =>
    obtain ⟨s, -, -, hown⟩ := h
    rw [hown] at hp
    -- the source of a move owns nothing any more
    by_cases hkj : k = j
    · simp [hkj] at hp
    · rw [Function.update_of_ne hkj] at hp
      by_cases hk : k = i
      · subst hk
        rw [Function.update_self] at hp
        exact Or.inr (Or.inl ⟨j, Or.inr (Or.inr hl), hp⟩)
      · rw [Function.update_of_ne hk] at hp
        exact Or.inl hp

/-- No step changes the origin of a block. -/
theorem Effect.origin (he : Effect l w w') {b : ℕ} (hb : b < w.heap.blocks.length) :
    (w'.heap.status b).map Prod.fst = (w.heap.status b).map Prod.fst := by
  cases he with
  | changes i h => obtain ⟨s, s', -, he, -⟩ := h; exact he.origin b hb
  | shares i j g hl h => obtain ⟨s, -, he, -⟩ := h; exact he.origin b hb
  | takes i j hl hij h => obtain ⟨s, -, he, -⟩ := h; exact he.origin b hb

/-- A world whose owned buffers are allocated steps to such a world. -/
theorem Effect.allocated (he : Effect l w w') (hw : w.Allocated) : w'.Allocated := by
  rw [allocated_iff] at hw ⊢
  intro i p hp
  -- whoever owned the buffer before, its block was there and keeps its origin
  have hold : ∀ j, w.own j = some p → w'.heap.freeFault p ≠ some .foreignFree := by
    intro j hj
    obtain ⟨hoff, horigin⟩ := Heap.freeFault_ne_foreignFree_iff.mp (hw j p hj)
    have hb : p.block < w.heap.blocks.length := by
      by_contra hge
      rw [Heap.status, List.getElem?_eq_none (by omega)] at horigin
      cases horigin
    refine Heap.freeFault_ne_foreignFree_iff.mpr ⟨hoff, ?_⟩
    rw [he.origin hb, horigin]
  rcases he.acquires i p hp with hown | ⟨j, -, hown⟩ | ⟨-, hfree⟩
  · exact hold i hown
  · exact hold j hown
  · rw [hfree]; rintro ⟨⟩

/-- No step on such a world frees what was not allocated. -/
theorem wp_exec_allocated (hl : ¬ l.ReusesForeign w) (hw : w.Allocated) :
    wp l.exec (fun _ => Effect l w) (fun _ => Effect l w) (· ≠ .foreignFree) w := by
  refine wp_exec_effect (fun u hu _ => hu) (fun i p u hp hu => ?_) hl
  rintro rfl
  exact allocated_iff.mp hw i p hp hu

end Steps

/-! ## Runs -/

section Runs

variable {ls : List Step} {w₀ w : World}

/-- In every run without an assignment into a buffer of the caller, only allocated buffers are
owned, the ownership is new or comes from another owner, and nothing else is freed. -/
theorem allocated_of_run (hw : w₀.Allocated)
    (hr : Run Step.exec (fun l w => ¬ l.ReusesForeign w) w₀ ls w) :
    w.Allocated ∧ ∀ l : Step, ¬ l.ReusesForeign w →
      l.exec w ≠ .fault .foreignFree ∧ ∀ w', (l.exec w).Leaves w' → l.Acquires w w' := by
  have hrun : w.Allocated := by
    refine hr.invariant (fun l s s' hs hl hleaves => ?_) hw
    exact (Run.leaves_of_wp (Q := Effect l s) (wp_exec_allocated hl hs) hleaves).allocated hs
  refine ⟨hrun, fun l hl => ⟨fun hx => ?_, fun w' hleaves => ?_⟩⟩
  · have hwp := wp_exec_allocated hl hrun
    simp [wp, hx] at hwp
  · exact (Run.leaves_of_wp (Q := Effect l w) (wp_exec_allocated hl hrun) hleaves).acquires

/-- Memory with a stack buffer of eight bytes and the literal `"foo"`. -/
def stackHeap : Heap :=
  ⟨[⟨List.replicate 8 none, .foreign, true⟩, ⟨cells [102, 111, 111, 0], .foreign, true⟩], 0, []⟩

/-- A string on the stack that grows past its buffer before it is assigned to. -/
theorem allocated_of_grown_stack :
    ∃ w, Run.execAll Step.exec [.onBuffer 0 8 (some ⟨0, 0⟩) 0 false, .literal 1 (some ⟨1, 0⟩) 3,
        .edit 0 (.reserve 9), .copyAssign 0 1] (World.start stackHeap) = some w ∧
      (w.strs 0).map GString.needsFreeing = some true ∧ w.Allocated := by
  have hother : ∀ l : Step, (∀ i j, l ≠ .copyAssign i j) → ∀ w, ¬ l.ReusesForeign w := by
    rintro l hl w ⟨i, j, s, g, rfl, -⟩
    exact hl i j rfl
  have hbuffer := hother (.onBuffer 0 8 (some ⟨0, 0⟩) 0 false) (by simp)
  have hliteral := hother (.literal 1 (some ⟨1, 0⟩) 3) (by simp)
  have hreserve := hother (.edit 0 (.reserve 9)) (by simp)
  -- the target of the assignment owns its buffer by then
  have hassign : ∀ w, (w.strs 0).map GString.needsFreeing = some true →
      ¬ (Step.copyAssign 0 1).ReusesForeign w := by
    rintro w hw ⟨i, j, s, g, hl, -, hs, -, -, -, hfree, -⟩
    obtain ⟨rfl, rfl⟩ := Step.copyAssign.inj hl
    rw [hs, Option.map_some, hfree] at hw
    cases hw
  exact ⟨_, rfl, by decide, (allocated_of_run (Allocated.start stackHeap)
    (.cons (hbuffer _) rfl (.cons (hliteral _) rfl (.cons (hreserve _) rfl
      (.cons (hassign _ (by decide)) rfl (.nil _)))))).1⟩

/-- An assignment into a buffer of the caller makes the string own that buffer. -/
theorem owns_of_reusesForeign {l : Step} {w w' : World} (hl : l.ReusesForeign w)
    (hx : (l.exec w).Leaves w') :
    ∃ i s s', w.strs i = some s ∧ s.needsFreeing = false ∧ w'.strs i = some s' ∧
      s'.needsFreeing = true ∧ s'.buf = s.buf ∧ s.buf ≠ none := by
  obtain ⟨i, j, s, g, rfl, hij, hs, hg, hlen, hcap, hfree, hbuf⟩ := hl
  refine ⟨i, s, ⟨Meta.pack true false s.power g.length, s.buf⟩, hs, hfree, ?_,
    GString.needsFreeing_mk_pack _ _ _ _ s.power_lt, rfl, hbuf⟩
  refine Run.leaves_of_wp (Q := fun w' => w'.strs i = _) (F := fun _ => True) ?_ hx
  have hF : AccessFaults fun _ => True := fun _ _ _ => trivial
  simp only [Step.exec, wp_bind, wp_when]
  refine wp_live hF fun g' hg' => ⟨fun _ => ?_, fun hnot => absurd hij hnot⟩
  obtain rfl : g = g' := Option.some.inj (hg.symm.trans hg')
  refine wp_call hF fun s' hs' => ?_
  obtain rfl : s = s' := Option.some.inj (hs.symm.trans hs')
  simp only [GString.copyAssign, str, onHeap, modifyStr, wp_bind, wp_map, wp_get, wp_zoom,
    wp_modify, wp_ite, hlen, hcap, and_self, true_implies, not_true_eq_false, false_implies,
    and_true]
  exact Heap.wp_memcpy_of_faults trivial trivial fun _ => by simp [World.put]

/-- A string on the stack, a literal, and the assignment of the literal to the string. -/
def stackAssigned : List Step :=
  [.onBuffer 0 8 (some ⟨0, 0⟩) 0 false, .literal 1 (some ⟨1, 0⟩) 3, .copyAssign 0 1]

/-- The destructor of a string on the stack frees the stack. -/
theorem stack_buffer_freed :
    ∃ w, Run Step.exec (fun _ _ => True) (World.start stackHeap) stackAssigned w ∧
      ¬ w.Allocated ∧ (Step.destroy 0).exec w = .fault .foreignFree := by
  have hrun : ∃ w, Run.execAll Step.exec stackAssigned (World.start stackHeap) = some w ∧
      w.strs 0 = some ⟨0x83000003#32, some ⟨0, 0⟩⟩ ∧
      (w.heap.status 0).map Prod.fst = some .foreign ∧
      (Step.destroy 0).exec w = .fault .foreignFree :=
    ⟨_, rfl, by decide, by decide, rfl⟩
  obtain ⟨w, hw, hstr, horigin, hfault⟩ := hrun
  refine ⟨w, Run.of_execAll (fun _ _ _ => trivial) hw, fun halloc => ?_, hfault⟩
  obtain ⟨-, hmalloc⟩ := halloc 0 _ ⟨0, 0⟩ hstr (by decide) rfl
  exact absurd (horigin.symm.trans hmalloc) (by decide)

end Runs

end Glim
