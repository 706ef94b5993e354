import Glim.Machine.Exec
import Glim.Machine.Holders
import Glim.Thread.Steps
import Mathlib.Algebra.Order.Group.Nat
import Mathlib.Data.List.Nodup
import Mathlib.Data.List.Pairwise

/-!
# The stack cache

A coroutine takes its stack from the free list of its size, or maps a new one. When it is destroyed
it puts the stack on that free list, unless there are `_cacheStack` stacks already, or unmaps it.
The cache is shared: a free list is filled by coroutines with different limits. Only what is about
the stacks is kept of a coroutine; a call of a function under the lock of the cache is one step.

## Main definitions

* `StackMemory`: the cache, and the regions that are mapped
* `allocateStack`, `freeStack`: what the constructor and the destructor do
* `Stacks`, `Stacks.step`: the coroutines of a program, and what is done with them
* `Place`, `Stacks.held`: who has a stack
* `Stacks.Kept`: every mapped stack is in one place

## Main results

* `turn_of_step`: what a step does
* `Inv.step`: it keeps every stack in one place
* `kept_of_steps`: no stack is handed out twice
-/

namespace Glim.CBCoro

open Machine Exec Thread

/-! ## Stacks -/

/-- A range of memory. -/
structure Region where
  addr : ℕ
  size : ℕ
  deriving DecidableEq, Repr

/-- The regions have no byte in common. -/
def Region.Disjoint (r r' : Region) : Prop :=
  r.addr + r.size ≤ r'.addr ∨ r'.addr + r'.size ≤ r.addr

theorem Region.Disjoint.symm {r r' : Region} (h : r.Disjoint r') : r'.Disjoint r := Or.symm h

/-- A region that `mmap` has returned, and in which of its calls. -/
structure Mapping extends Region where
  serial : ℕ
  deriving DecidableEq, Repr

/-- `cache()`, the regions that are mapped, the number of those that ever were, and those that no
longer are. -/
structure StackMemory where
  cache : ℕ → List ℕ := fun _ => []
  mapped : List Mapping := []
  mmaps : ℕ := 0
  unmapped : List Mapping := []

namespace StackMemory

/-- The memory with a free list replaced. -/
def setCache (s : StackMemory) (stackSize : ℕ) (freeList : List ℕ) : StackMemory :=
  { s with cache := Function.update s.cache stackSize freeList }

/-- The memory with a new region. -/
def map (s : StackMemory) (r : Region) : StackMemory :=
  { s with mapped := ⟨r, s.mmaps⟩ :: s.mapped, mmaps := s.mmaps + 1 }

/-- The memory without a region. -/
def unmap (s : StackMemory) (r : Region) : StackMemory :=
  { s with
    mapped := s.mapped.filter fun m => m.toRegion ≠ r
    unmapped := s.mapped.filter (fun m => m.toRegion = r) ++ s.unmapped }

end StackMemory

/-- `mmap (nullptr, size, ..)`, which answers with an address or an error. -/
def mmap (size : ℕ) : Except String ℕ → Exec StackMemory ℕ
  | .ok addr => do
    modify fun s => s.map ⟨addr, size⟩
    pure addr
  | .error strerror => raise ("mmap allocation failed: " ++ strerror)

/-- `munmap (addr, size)`. There must be such a region. -/
def munmap (r : Region) : Except String Unit → Exec StackMemory Unit
  | .ok _ => do
    let s ← get
    when (∀ m ∈ s.mapped, m.toRegion ≠ r) (fail .foreignFree)
    modify fun s => s.unmap r
  | .error strerror => raise ("!munmap: " ++ strerror)

/-- `allocateStack ()`: the new `_stack`. -/
def allocateStack (cacheStack : UInt8) (stackSize : ℕ) (answer : Except String ℕ) :
    Exec StackMemory ℕ := do
  if cacheStack ≠ 0 then do
    let s ← get
    match s.cache stackSize with
    | stack :: rest => do
      modify fun s => s.setCache stackSize rest
      pure stack
    | [] => mmap stackSize answer
  else mmap stackSize answer

/-- `_cacheStack`, `_stackSize` and `_stack`. -/
structure StackMembers where
  cacheStack : UInt8
  stackSize : ℕ
  stack : ℕ
  deriving DecidableEq, Repr

/-- The stack. -/
def StackMembers.region (c : StackMembers) : Region := ⟨c.stack, c.stackSize⟩

/-- `freeStack ()`. -/
def freeStack (c : StackMembers) (answer : Except String Unit) : Exec StackMemory Unit := do
  let s ← get
  let freeList := s.cache c.stackSize
  if c.cacheStack ≠ 0 ∧ freeList.length < c.cacheStack.toNat then
    modify fun s => s.setCache c.stackSize (c.stack :: freeList)
  else munmap c.region answer

/-! ## Coroutines -/

/-- The coroutines of a program, by number. -/
structure Stacks where
  memory : StackMemory := {}
  live : ℕ → Option StackMembers := fun _ => none

/-- What is done with coroutines, with what the system answers if it is asked. -/
inductive StackAct where
  | construct (i : ℕ) (cacheStack : UInt8) (stackSize : ℕ) (answer : Except String ℕ)
  | destroy (i : ℕ) (answer : Except String Unit)

/-- `mmap` returns no region that has a byte in common with one that is mapped, and none that is
empty. -/
def StackAct.Answered (a : StackAct) (s : Stacks) : Prop :=
  match a with
  | .construct _ _ stackSize (.ok addr) =>
    0 < stackSize ∧ ∀ m ∈ s.memory.mapped, Region.Disjoint ⟨addr, stackSize⟩ m.toRegion
  | _ => True

namespace Stacks

/-- A coroutine is constructed or destroyed. -/
def step : StackAct → Stacks → Option Stacks
  | .construct i cacheStack stackSize answer, s =>
    if (s.live i).isSome then none
    else
      match allocateStack cacheStack stackSize answer s.memory with
      | .ok stack memory =>
        some ⟨memory, Function.update s.live i (some ⟨cacheStack, stackSize, stack⟩)⟩
      | .throw _ memory => some ⟨memory, s.live⟩
      | .fault _ => none
  | .destroy i answer, s =>
    match s.live i with
    | none => none
    | some c =>
      match freeStack c answer s.memory with
      | .ok _ memory => some ⟨memory, Function.update s.live i none⟩
      -- an exception that leaves a destructor ends the program
      | _ => none

/-! ## What a step does -/

/-- The five things that a step can do. -/
inductive Turn (s : Stacks) : StackAct → Stacks → Prop
  /-- A stack is taken from its free list. -/
  | reuse {i stackSize stack : ℕ} {rest : List ℕ} {cacheStack : UInt8} {answer : Except String ℕ}
      (hlive : s.live i = none) (hcache : s.memory.cache stackSize = stack :: rest) :
      Turn s (.construct i cacheStack stackSize answer)
        ⟨s.memory.setCache stackSize rest,
          Function.update s.live i (some ⟨cacheStack, stackSize, stack⟩)⟩
  | map {i stackSize stack : ℕ} {cacheStack : UInt8} (hlive : s.live i = none) :
      Turn s (.construct i cacheStack stackSize (.ok stack))
        ⟨s.memory.map ⟨stack, stackSize⟩,
          Function.update s.live i (some ⟨cacheStack, stackSize, stack⟩)⟩
  /-- The constructor throws, and leaves nothing behind. -/
  | refuse {i stackSize : ℕ} {cacheStack : UInt8} {strerror : String} :
      Turn s (.construct i cacheStack stackSize (.error strerror)) s
  /-- A stack is put on its free list. -/
  | cache {i : ℕ} {c : StackMembers} {answer : Except String Unit} (hlive : s.live i = some c)
      (hroom : (s.memory.cache c.stackSize).length < c.cacheStack.toNat) :
      Turn s (.destroy i answer)
        ⟨s.memory.setCache c.stackSize (c.stack :: s.memory.cache c.stackSize),
          Function.update s.live i none⟩
  | unmap {i : ℕ} {c : StackMembers} {answer : Except String Unit} (hlive : s.live i = some c) :
      Turn s (.destroy i answer) ⟨s.memory.unmap c.region, Function.update s.live i none⟩

section Turns

variable {s s' : Stacks} {a : StackAct} {memory : StackMemory}

/-- A stack comes from the free list of its size, if it may, or from `mmap`. -/
theorem allocateStack_eq (cacheStack : UInt8) (stackSize : ℕ) (answer : Except String ℕ)
    (memory : StackMemory) :
    allocateStack cacheStack stackSize answer memory =
      match if cacheStack ≠ 0 then memory.cache stackSize else [] with
      | stack :: rest => .ok stack (memory.setCache stackSize rest)
      | [] => mmap stackSize answer memory := by
  rw [allocateStack]
  split_ifs with hcache
  · show (match memory.cache stackSize with
      | stack :: rest => _
      | [] => mmap stackSize answer : Exec StackMemory ℕ) memory = _
    cases memory.cache stackSize with
    | nil => rfl
    | cons stack rest => rfl
  · rfl

/-- A stack goes to the free list of its size, if there is room, or to `munmap`. -/
theorem freeStack_eq (c : StackMembers) (answer : Except String Unit) (memory : StackMemory) :
    freeStack c answer memory =
      if c.cacheStack ≠ 0 ∧ (memory.cache c.stackSize).length < c.cacheStack.toNat then
        .ok () (memory.setCache c.stackSize (c.stack :: memory.cache c.stackSize))
      else munmap c.region answer memory := by
  show (if c.cacheStack ≠ 0 ∧ (memory.cache c.stackSize).length < c.cacheStack.toNat then _
    else munmap c.region answer : Exec StackMemory Unit) memory = _
  split_ifs
  · rfl
  · rfl

/-- A region that is there is unmapped. -/
theorem munmap_ok {r : Region} (hr : ∃ m ∈ memory.mapped, m.toRegion = r) :
    munmap r (.ok ()) memory = .ok () (memory.unmap r) := by
  have hnot : ¬ ∀ m ∈ memory.mapped, m.toRegion ≠ r := by
    obtain ⟨m, hm, rfl⟩ := hr
    exact fun hall => hall m hm rfl
  show ((when (∀ m ∈ memory.mapped, m.toRegion ≠ r) (fail .foreignFree) >>= fun _ =>
    modify fun s => s.unmap r : Exec StackMemory Unit) memory) = _
  rw [when_of_not hnot]
  rfl

theorem munmap_not_ok {r : Region} (hr : ¬ ∃ m ∈ memory.mapped, m.toRegion = r) :
    munmap r (.ok ()) memory = .fault .foreignFree := by
  have hall : ∀ m ∈ memory.mapped, m.toRegion ≠ r := fun m hm heq => hr ⟨m, hm, heq⟩
  show ((when (∀ m ∈ memory.mapped, m.toRegion ≠ r) (fail .foreignFree) >>= fun _ =>
    modify fun s => s.unmap r : Exec StackMemory Unit) memory) = _
  rw [when_of_pos hall]
  rfl

theorem turn_of_step (hx : step a s = some s') : Turn s a s' := by
  cases a with
  | construct i cacheStack stackSize answer =>
    rw [step] at hx
    split_ifs at hx with hlive
    rw [Bool.not_eq_true, Option.isSome_eq_false_iff, Option.isNone_iff_eq_none] at hlive
    rw [allocateStack_eq] at hx
    -- a stack is taken out of the free list of its size, or mapped
    cases hfree : (if cacheStack ≠ 0 then s.memory.cache stackSize else []) with
    | cons stack rest =>
      have hcache : s.memory.cache stackSize = stack :: rest := by
        split_ifs at hfree
        exact hfree
      rw [hfree] at hx
      obtain rfl := Option.some.inj hx
      exact .reuse hlive hcache
    | nil =>
      rw [hfree] at hx
      cases answer with
      | ok stack =>
        obtain rfl := Option.some.inj hx
        exact .map hlive
      | error strerror =>
        obtain rfl := Option.some.inj hx
        exact .refuse
  | destroy i answer =>
    rw [step] at hx
    cases hlive : s.live i with
    | none =>
      rw [hlive] at hx
      cases hx
    | some c =>
      simp only [hlive, freeStack_eq] at hx
      -- the free list takes the stack, if it is not full
      by_cases hroom : c.cacheStack ≠ 0 ∧ (s.memory.cache c.stackSize).length < c.cacheStack.toNat
      · rw [if_pos hroom] at hx
        obtain rfl := Option.some.inj hx
        exact .cache hlive hroom.2
      · rw [if_neg hroom] at hx
        cases answer with
        -- a refused `munmap` throws in a destructor, which ends the program
        | error strerror => cases hx
        | ok u =>
          by_cases hr : ∃ m ∈ s.memory.mapped, m.toRegion = c.region
          · rw [munmap_ok hr] at hx
            obtain rfl := Option.some.inj hx
            exact .unmap hlive
          · rw [munmap_not_ok hr] at hx
            cases hx

end Turns

/-! ## Where the stacks are -/

/-- Who can have a stack. -/
inductive Place where
  | coroutine (i : ℕ)
  | freeList (stackSize : ℕ)
  deriving DecidableEq, Repr

/-- The stacks that are at a place. -/
def held (s : Stacks) : Place → List Region
  | .coroutine i => ((s.live i).map StackMembers.region).toList
  | .freeList stackSize => (s.memory.cache stackSize).map fun stack => ⟨stack, stackSize⟩

/-- Every mapped stack is at one place; the regions are apart; and their serial numbers are those of
calls of `mmap`. -/
structure Inv (s : Stacks) : Prop where
  heldOnce : HeldOnce (s.memory.mapped.map Mapping.toRegion) s.held
  disjoint : s.memory.mapped.Pairwise fun m m' => m.toRegion.Disjoint m'.toRegion
  pos : ∀ m ∈ s.memory.mapped, 0 < m.size
  serials : ((s.memory.mapped ++ s.memory.unmapped).map Mapping.serial).Nodup
  fresh : ∀ m ∈ s.memory.mapped ++ s.memory.unmapped, m.serial < s.memory.mmaps

section Held

variable {s s' : Stacks} {a : StackAct} {memory : StackMemory} {live : ℕ → Option StackMembers}
  {place : Place} {r : Region} {m m' : Mapping}

theorem held_update_live (i : ℕ) (o : Option StackMembers) :
    held ⟨memory, Function.update live i o⟩ =
      Function.update (held ⟨memory, live⟩) (.coroutine i) (o.map StackMembers.region).toList := by
  funext place
  cases place with
  | freeList stackSize => rfl
  | coroutine j =>
    by_cases hj : j = i
    · subst hj
      simp [held]
    · simp [held, hj]

theorem held_setCache (stackSize : ℕ) (freeList : List ℕ) :
    held ⟨memory.setCache stackSize freeList, live⟩ =
      Function.update (held ⟨memory, live⟩) (.freeList stackSize)
        (freeList.map fun stack => ⟨stack, stackSize⟩) := by
  funext place
  cases place with
  | coroutine i => rfl
  | freeList size =>
    by_cases hsize : size = stackSize
    · subst hsize
      simp [held, StackMemory.setCache]
    · simp [held, StackMemory.setCache, hsize]

theorem held_coroutine_of_none {i : ℕ} (hlive : s.live i = none) : s.held (.coroutine i) = [] := by
  rw [held, hlive]
  rfl

theorem held_coroutine_of_some {i : ℕ} {c : StackMembers} (hlive : s.live i = some c) :
    s.held (.coroutine i) = [c.region] := by
  rw [held, hlive]
  rfl

theorem Inv.start : Inv {} where
  heldOnce := by
    have hnone : held {} = fun _ => [] := by
      funext place
      cases place <;> rfl
    rw [hnone]
    exact .empty
  disjoint := .nil
  pos := nofun
  serials := .nil
  fresh := nofun

/-- Unmapping a region takes its mapping from one list to the other. -/
theorem perm_unmap (memory : StackMemory) (r : Region) :
    ((memory.unmap r).mapped ++ (memory.unmap r).unmapped).Perm
      (memory.mapped ++ memory.unmapped) := by
  have hsplit : memory.mapped.filter (fun m => m.toRegion = r) =
      memory.mapped.filter fun m => !decide (m.toRegion ≠ r) := by
    refine List.filter_congr fun m _ => ?_
    simp
  rw [StackMemory.unmap]
  simp only
  rw [← List.append_assoc, hsplit]
  exact (List.filter_append_perm _ _).append_right _

/-- A step keeps every stack at one place. -/
theorem Inv.step (h : s.Inv) (ha : a.Answered s) (hx : Stacks.step a s = some s') : s'.Inv := by
  cases turn_of_step hx with
  | @reuse i stackSize stack rest _ _ hlive hcache =>
    have hheld : s.held (.freeList stackSize) =
        ⟨stack, stackSize⟩ :: rest.map fun stack => ⟨stack, stackSize⟩ := by
      rw [held, hcache]
      rfl
    have hne : Place.coroutine i ≠ .freeList stackSize := nofun
    have hmove := h.heldOnce.move hheld hne
    rw [held_coroutine_of_none hlive] at hmove
    refine ⟨?_, h.disjoint, h.pos, h.serials, h.fresh⟩
    rw [held_update_live, held_setCache]
    exact hmove
  | @map i stackSize stack _ hlive =>
    obtain ⟨hpos, hapart⟩ := ha
    have hnew : (⟨stack, stackSize⟩ : Region) ∉ s.memory.mapped.map Mapping.toRegion := by
      intro hmem
      obtain ⟨m, hm, hmr⟩ := List.mem_map.mp hmem
      have hself := hapart m hm
      rw [hmr] at hself
      -- it would be apart from itself
      rcases hself with hself | hself
      · simp only at hself
        omega
      · simp only at hself
        omega
    have hadd := h.heldOnce.add hnew (.coroutine i)
    rw [held_coroutine_of_none hlive] at hadd
    refine ⟨?_, List.pairwise_cons.mpr ⟨hapart, h.disjoint⟩, List.forall_mem_cons.mpr ⟨hpos, h.pos⟩,
      ?_, List.forall_mem_cons.mpr
        ⟨Nat.lt_succ_self _, fun m hm => Nat.lt_succ_of_lt (h.fresh m hm)⟩⟩
    · rw [held_update_live]
      exact hadd
    · refine List.nodup_cons.mpr ⟨fun hmem => ?_, h.serials⟩
      obtain ⟨m, hm, hserial⟩ := List.mem_map.mp hmem
      exact Nat.lt_irrefl _ (hserial ▸ h.fresh m hm)
  | refuse => exact h
  | @cache i c _ hlive hroom =>
    have hne : Place.freeList c.stackSize ≠ .coroutine i := nofun
    have hmove := h.heldOnce.move (held_coroutine_of_some hlive) hne
    refine ⟨?_, h.disjoint, h.pos, h.serials, h.fresh⟩
    rw [held_setCache, held_update_live]
    exact hmove
  | @unmap i c _ hlive =>
    have hremove := h.heldOnce.remove (held_coroutine_of_some hlive)
    have hperm := perm_unmap s.memory c.region
    refine ⟨?_, h.disjoint.filter _, fun m hm => h.pos m (List.mem_filter.mp hm).1,
      (hperm.map _).nodup_iff.mpr h.serials, fun m hm => h.fresh m (hperm.mem_iff.mp hm)⟩
    rw [held_update_live]
    rw [List.filter_map] at hremove
    exact hremove

/-- A stack that is at a place is mapped. -/
theorem Inv.exists_mapped (h : s.Inv) (hr : r ∈ s.held place) :
    ∃ m ∈ s.memory.mapped, m.toRegion = r := List.mem_map.mp (h.heldOnce.mem_pool hr)

/-- Two mapped regions are the same or apart. -/
theorem Inv.eq_or_disjoint (h : s.Inv) (hm : m ∈ s.memory.mapped) (hm' : m' ∈ s.memory.mapped) :
    m = m' ∨ m.toRegion.Disjoint m'.toRegion := by
  have hsymm : Std.Symm fun m m' : Mapping => m.toRegion.Disjoint m'.toRegion :=
    ⟨fun _ _ => Region.Disjoint.symm⟩
  rw [or_iff_not_imp_left]
  exact h.disjoint.forall hm hm'

/-- The address of a stack tells which one it is. -/
theorem Inv.eq_of_addr (h : s.Inv) (hr : r ∈ s.held place) (hm : m ∈ s.memory.mapped)
    (haddr : r.addr = m.addr) : r = m.toRegion := by
  obtain ⟨m', hm', rfl⟩ := h.exists_mapped hr
  rcases h.eq_or_disjoint hm' hm with rfl | hd
  · rfl
  · have hpos := h.pos m hm
    have hpos' := h.pos m' hm'
    rw [Region.Disjoint] at hd
    omega

end Held

/-- The stack is that of the coroutine `i`. -/
def Owns (s : Stacks) (i : ℕ) (m : Mapping) : Prop := ∃ c, s.live i = some c ∧ c.stack = m.addr

/-- The stack is on the free list. -/
def Cached (s : Stacks) (stackSize : ℕ) (m : Mapping) : Prop := m.addr ∈ s.memory.cache stackSize

/-- Every mapped stack is that of exactly one coroutine, or is exactly once on the free list of its
size, and nowhere else; a coroutine has a mapped stack of the size that it was constructed with; the
stacks do not overlap; and none was unmapped twice. -/
structure Kept (s : Stacks) : Prop where
  once : ∀ m ∈ s.memory.mapped,
    (∃ i, s.Owns i m ∧ (∀ j, s.Owns j m → j = i) ∧ ∀ stackSize, ¬ s.Cached stackSize m) ∨
      ((∀ i, ¬ s.Owns i m) ∧ (s.memory.cache m.size).count m.addr = 1 ∧
        ∀ stackSize, s.Cached stackSize m → stackSize = m.size)
  sized : ∀ i c, s.live i = some c → ∃ m ∈ s.memory.mapped, m.toRegion = c.region
  cached : ∀ stackSize, ∀ stack ∈ s.memory.cache stackSize,
    ∃ m ∈ s.memory.mapped, m.toRegion = ⟨stack, stackSize⟩
  disjoint : s.memory.mapped.Pairwise fun m m' => m.toRegion.Disjoint m'.toRegion
  unmappedOnce : ((s.memory.mapped ++ s.memory.unmapped).map Mapping.serial).Nodup

/-- What a step unmaps was mapped, and is apart from every stack that is in use or cached. -/
def UnmapsUnused (s s' : Stacks) : Prop :=
  ∀ m ∈ s'.memory.unmapped, m ∉ s.memory.unmapped → m ∈ s.memory.mapped ∧
    (∀ i c, s'.live i = some c → c.region.Disjoint m.toRegion) ∧
    ∀ stackSize, ∀ stack ∈ s'.memory.cache stackSize, Region.Disjoint ⟨stack, stackSize⟩ m.toRegion

section Kept

variable {s s' : Stacks} {a : StackAct} {m : Mapping} {r : Region}

theorem mem_held_coroutine {i : ℕ} {c : StackMembers} (hlive : s.live i = some c) :
    c.region ∈ s.held (.coroutine i) := by
  rw [held_coroutine_of_some hlive]
  exact List.mem_singleton_self _

theorem mem_held_freeList {stackSize stack : ℕ} (hstack : stack ∈ s.memory.cache stackSize) :
    ⟨stack, stackSize⟩ ∈ s.held (.freeList stackSize) :=
  List.mem_map_of_mem hstack

/-- A coroutine that owns a stack has it. -/
theorem Inv.mem_of_owns (h : s.Inv) (hm : m ∈ s.memory.mapped) {i : ℕ} (ho : s.Owns i m) :
    m.toRegion ∈ s.held (.coroutine i) := by
  obtain ⟨c, hlive, hstack⟩ := ho
  have hmem := mem_held_coroutine hlive
  rwa [h.eq_of_addr hmem hm hstack] at hmem

/-- A free list with a stack on it has it. -/
theorem Inv.mem_of_cached (h : s.Inv) (hm : m ∈ s.memory.mapped) {stackSize : ℕ}
    (hc : s.Cached stackSize m) : m.toRegion ∈ s.held (.freeList stackSize) := by
  have hmem := mem_held_freeList hc
  rwa [h.eq_of_addr hmem hm rfl] at hmem

/-- One place for each stack, in terms of addresses. -/
theorem Inv.kept (h : s.Inv) : s.Kept where
  once := by
    intro m hm
    -- a mapped stack is held at one place
    obtain ⟨place, hplace⟩ := (h.heldOnce.mem_iff m.toRegion).mp (List.mem_map_of_mem hm)
    cases place with
    | coroutine i =>
      -- a coroutine has it, so no other one and no free list does
      left
      refine ⟨i, ?_, fun j hj => ?_, fun stackSize hc => ?_⟩
      · cases hlive : s.live i with
        | none =>
          rw [held_coroutine_of_none hlive] at hplace
          cases hplace
        | some c =>
          rw [held_coroutine_of_some hlive, List.mem_singleton] at hplace
          exact ⟨c, hlive, congrArg Region.addr hplace.symm⟩
      · exact Place.coroutine.inj (h.heldOnce.unique _ _ _ (h.mem_of_owns hm hj) hplace)
      · cases h.heldOnce.unique _ _ _ (h.mem_of_cached hm hc) hplace
    | freeList stackSize =>
      -- a free list has it, which is that of its size, so no coroutine does
      right
      obtain ⟨stack, hstack, heq⟩ := List.mem_map.mp hplace
      obtain rfl : stackSize = m.size := congrArg Region.size heq
      obtain rfl : stack = m.addr := congrArg Region.addr heq
      refine ⟨fun i hi => ?_, ?_, fun stackSize hc => ?_⟩
      · cases h.heldOnce.unique _ _ _ (h.mem_of_owns hm hi) hplace
      · exact List.count_eq_one_of_mem (h.heldOnce.nodup (.freeList m.size)).of_map hstack
      · exact Place.freeList.inj (h.heldOnce.unique _ _ _ (h.mem_of_cached hm hc) hplace)
  sized := fun _ _ hlive => h.exists_mapped (mem_held_coroutine hlive)
  cached := fun _ _ hstack => h.exists_mapped (mem_held_freeList hstack)
  disjoint := h.disjoint
  unmappedOnce := h.serials

/-- What a step unmaps is at no place behind it. -/
theorem Inv.disjoint_of_unmapped (h : s.Inv) (ha : a.Answered s) (hx : Stacks.step a s = some s')
    (hm : m ∈ s'.memory.unmapped) (hnew : m ∉ s.memory.unmapped) :
    m ∈ s.memory.mapped ∧ ∀ place, ∀ r ∈ s'.held place, r.Disjoint m.toRegion := by
  have h' := h.step ha hx
  cases turn_of_step hx with
  | @unmap i c _ hlive =>
    rcases List.mem_append.mp hm with hm | hm
    · obtain ⟨hmapped, hregion⟩ := List.mem_filter.mp hm
      rw [decide_eq_true_eq] at hregion
      refine ⟨hmapped, fun place r hr => ?_⟩
      -- what is still at a place is another mapped region
      obtain ⟨m', hm', rfl⟩ := h'.exists_mapped hr
      obtain ⟨hmapped', hne⟩ := List.mem_filter.mp hm'
      rw [decide_eq_true_eq] at hne
      rcases h.eq_or_disjoint hmapped' hmapped with rfl | hd
      · exact absurd hregion hne
      · exact hd
    · exact absurd hm hnew
  | _ => exact absurd hm hnew

theorem Inv.unmapsUnused (h : s.Inv) (ha : a.Answered s) (hx : Stacks.step a s = some s') :
    UnmapsUnused s s' := by
  intro m hm hnew
  obtain ⟨hmapped, hapart⟩ := h.disjoint_of_unmapped ha hx hm hnew
  exact ⟨hmapped, fun i c hlive => hapart _ _ (mem_held_coroutine hlive),
    fun stackSize stack hstack => hapart _ _ (mem_held_freeList hstack)⟩

/-- The stack of a coroutine can always be given back. -/
theorem Inv.freeStack_ne_fault (h : s.Inv) {i : ℕ} {c : StackMembers} (hlive : s.live i = some c)
    (answer : Except String Unit) (u : Fault) : freeStack c answer s.memory ≠ .fault u := by
  rw [freeStack_eq]
  split_ifs
  · nofun
  · cases answer with
    | error strerror => nofun
    | ok _ =>
      rw [munmap_ok (h.exists_mapped (mem_held_coroutine hlive))]
      nofun

end Kept

/-! ## The limits -/

end Stacks

/-- `_cacheStack` of a coroutine that is constructed with the size. -/
def StackAct.cacheStackFor (stackSize : ℕ) : StackAct → ℕ
  | .construct _ cacheStack size _ => if size = stackSize then cacheStack.toNat else 0
  | .destroy _ _ => 0

/-- The largest `_cacheStack` that was used with the size. -/
def largestCacheStack (ls : List StackAct) (stackSize : ℕ) : ℕ :=
  (ls.map (StackAct.cacheStackFor stackSize)).foldr max 0

namespace Stacks

/-- The free lists and the coroutines stay within limits by size. -/
structure Within (limit : ℕ → ℕ) (s : Stacks) : Prop where
  cache : ∀ stackSize, (s.memory.cache stackSize).length ≤ limit stackSize
  live : ∀ i c, s.live i = some c → c.cacheStack.toNat ≤ limit c.stackSize

section Within

variable {s s' : Stacks} {a : StackAct} {limit limit' : ℕ → ℕ} {ls : List StackAct}

theorem Within.mono (h : Within limit s) (hle : ∀ stackSize, limit stackSize ≤ limit' stackSize) :
    Within limit' s :=
  ⟨fun z => (h.cache z).trans (hle z), fun i c hlive => (h.live i c hlive).trans (hle _)⟩

/-- A coroutine goes. -/
theorem Within.destroy (h : Within limit s) (i j : ℕ) (c : StackMembers)
    (hlive : Function.update s.live i none j = some c) :
    c.cacheStack.toNat ≤ limit c.stackSize := by
  by_cases hj : j = i
  · subst hj
    rw [Function.update_self] at hlive
    cases hlive
  · rw [Function.update_of_ne hj] at hlive
    exact h.live j c hlive

/-- A coroutine comes. -/
theorem Within.construct (h : Within limit s) {i stackSize stack : ℕ} {cacheStack : UInt8}
    (hle : cacheStack.toNat ≤ limit stackSize) (j : ℕ) (c : StackMembers)
    (hlive : Function.update s.live i (some ⟨cacheStack, stackSize, stack⟩) j = some c) :
    c.cacheStack.toNat ≤ limit c.stackSize := by
  by_cases hj : j = i
  · subst hj
    rw [Function.update_self] at hlive
    obtain rfl := Option.some.inj hlive
    exact hle
  · rw [Function.update_of_ne hj] at hlive
    exact h.live j c hlive

/-- A free list within its limit. -/
theorem Within.setCache (h : Within limit s) {stackSize : ℕ} {freeList : List ℕ}
    (hle : freeList.length ≤ limit stackSize) (z : ℕ) :
    ((s.memory.setCache stackSize freeList).cache z).length ≤ limit z := by
  show (Function.update s.memory.cache stackSize freeList z).length ≤ limit z
  by_cases hz : z = stackSize
  · subst hz
    rw [Function.update_self]
    exact hle
  · rw [Function.update_of_ne hz]
    exact h.cache z

/-- A step raises the limit of a size to the `_cacheStack` of its coroutine. -/
theorem Within.step (h : Within limit s) (hx : Stacks.step a s = some s') :
    Within (fun z => max (limit z) (a.cacheStackFor z)) s' := by
  have hmax := h.mono fun z => le_max_left (limit z) (a.cacheStackFor z)
  cases turn_of_step hx with
  | @reuse i stackSize stack rest cacheStack _ _ hcache =>
    have hlen := h.cache stackSize
    rw [hcache, List.length_cons] at hlen
    refine ⟨hmax.setCache ?_, hmax.construct ?_⟩
    · exact (Nat.le_of_succ_le hlen).trans (le_max_left _ _)
    · rw [StackAct.cacheStackFor, if_pos rfl]
      exact le_max_right _ _
  | map =>
    refine ⟨hmax.cache, hmax.construct ?_⟩
    rw [StackAct.cacheStackFor, if_pos rfl]
    exact le_max_right _ _
  | refuse => exact hmax
  | @cache i c _ hlive hroom =>
    exact ⟨hmax.setCache (hroom.trans_le (hmax.live i c hlive)), hmax.destroy i⟩
  | @unmap i c _ hlive => exact ⟨hmax.cache, hmax.destroy i⟩

/-- The free lists stay within the limits of all coroutines so far. -/
theorem Within.steps {guard : StackAct → Stacks → Prop} (hr : Steps Stacks.step guard s ls s')
    (h : Within limit s) : Within (fun z => max (limit z) (largestCacheStack ls z)) s' := by
  induction hr generalizing limit with
  | nil => exact h.mono fun z => le_max_left _ _
  | @cons s s' s'' a ls _ hx _ ih =>
    refine (ih (h.step hx)).mono fun z => ?_
    rw [max_assoc]
    exact le_rfl

end Within

/-- **No stack is handed out twice.** Whatever coroutines are constructed and destroyed, every
mapped stack is in one place, a free list is no longer than the largest `_cacheStack` that was used
with its size, a stack can always be given back, and the next step unmaps nothing that is in use or
cached. -/
theorem kept_of_steps {ls : List StackAct} {s : Stacks}
    (hr : Steps step StackAct.Answered {} ls s) :
    s.Kept ∧ (∀ stackSize, (s.memory.cache stackSize).length ≤ largestCacheStack ls stackSize) ∧
      (∀ i c answer u, s.live i = some c → freeStack c answer s.memory ≠ .fault u) ∧
      ∀ a s', a.Answered s → step a s = some s' → UnmapsUnused s s' := by
  have h : s.Inv := hr.invariant (fun _ _ _ h ha hx => h.step ha hx) .start
  have hstart : Within (fun _ => 0) {} := ⟨fun _ => le_rfl, nofun⟩
  have hwithin := hstart.steps hr
  refine ⟨h.kept, fun z => ?_, fun i c answer u hlive => h.freeStack_ne_fault hlive answer u,
    fun a s' ha hx => h.unmapsUnused ha hx⟩
  exact (hwithin.cache z).trans (max_le (Nat.zero_le _) le_rfl)

/-- A stack is reused, and of two that are given back at last one is cached and one is unmapped. -/
def reusing : List StackAct :=
  [.construct 0 1 4096 (.ok 65536), .destroy 0 (.ok ()), .construct 1 1 4096 (.error "not asked"),
    .construct 2 1 4096 (.ok 131072), .destroy 1 (.ok ()), .destroy 2 (.ok ())]

theorem kept_reusing : ∃ s, Steps step StackAct.Answered {} reusing s ∧
    s.memory.cache 4096 = [65536] ∧ s.memory.unmapped = [⟨⟨131072, 4096⟩, 1⟩] ∧ s.Kept := by
  have hr : ∃ s, Steps step StackAct.Answered {} reusing s ∧
      s.memory.cache 4096 = [65536] ∧ s.memory.unmapped = [⟨⟨131072, 4096⟩, 1⟩] := by
    refine ⟨_, .cons ⟨by decide, nofun⟩ rfl (.cons trivial rfl (.cons trivial rfl
      (.cons ⟨by decide, ?_⟩ rfl (.cons trivial rfl (.cons trivial rfl (.nil _)))))), rfl, rfl⟩
    intro m hm
    obtain rfl := List.mem_singleton.mp hm
    exact Or.inr (by decide)
  obtain ⟨s, hr, hcache, hunmapped⟩ := hr
  exact ⟨s, hr, hcache, hunmapped, (kept_of_steps hr).1⟩

end Stacks

end Glim.CBCoro
