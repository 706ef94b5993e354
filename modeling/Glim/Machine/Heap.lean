import Glim.Machine.Exec
import Mathlib.Tactic.SplitIfs

/-!
# A heap of blocks

Memory is a list of blocks that is only ever extended: a pointer is a block and an
offset, and a freed block keeps its place but can no longer be read. A cell that
was allocated and never written holds `none`. Allocation calls are numbered, and
those listed in `oom` return the null pointer.

## Main definitions

* `Heap`, `Ptr`, `Block`: the memory, and pointers into it
* `Heap.cellsAt`: the cells from a pointer to the end of its block
* `Heap.malloc`, `Heap.free`, `Heap.realloc`, `Heap.memcpy`: the allocator and the
  copying of cells

## Main results

* `wp_load`, `wp_store`: an access inside the block of a pointer succeeds
* `cellsAt_store_self`, `cellsAt_store_of_ne`: what a write changes
-/

namespace Machine

/-- A byte of memory, `none` until it is written. -/
abbrev Cell := Option UInt8

/-- Where a block came from: the allocator, or anything else (the stack, a literal,
the buffer of some other object). -/
inductive Origin where
  | malloc
  | foreign
  deriving DecidableEq, Repr

structure Block where
  cells : List Cell
  origin : Origin
  live : Bool
  deriving DecidableEq, Repr

structure Ptr where
  block : ℕ
  off : ℕ
  deriving DecidableEq, Repr

namespace Ptr

/-- Pointer arithmetic, `p + n`. -/
def add (p : Ptr) (n : ℕ) : Ptr := { p with off := p.off + n }

@[simp] theorem add_block (p : Ptr) (n : ℕ) : (p.add n).block = p.block := rfl

@[simp] theorem add_off (p : Ptr) (n : ℕ) : (p.add n).off = p.off + n := rfl

@[simp] theorem add_zero (p : Ptr) : p.add 0 = p := rfl

/-- Pointer arithmetic on a pointer that may be null. -/
def shift (p : Option Ptr) (n : ℕ) : Option Ptr := p.map fun q => q.add n

@[simp] theorem shift_none (n : ℕ) : shift none n = none := rfl

@[simp] theorem shift_some (p : Ptr) (n : ℕ) : shift (some p) n = some (p.add n) := rfl

end Ptr

structure Heap where
  blocks : List Block
  /-- The number of allocation calls so far. -/
  calls : ℕ := 0
  /-- The allocation calls that fail. -/
  oom : List ℕ := []
  deriving DecidableEq, Repr

namespace Heap

open Exec

/-- Overwrite `cells` from `off` on with `new`. -/
def splice (cells : List Cell) (off : ℕ) (new : List Cell) : List Cell :=
  cells.take off ++ new ++ cells.drop (off + new.length)

/-- The cells of a live block. -/
def liveCells (h : Heap) (b : ℕ) : List Cell :=
  match h.blocks[b]? with
  | some k => if k.live then k.cells else []
  | none => []

/-- The cells from `p` to the end of its block, none if `p` is null or freed. -/
def cellsAt (h : Heap) : Option Ptr → List Cell
  | none => []
  | some p => (h.liveCells p.block).drop p.off

/-- The number of bytes available at `p`. -/
def room (h : Heap) (p : Option Ptr) : ℕ := (h.cellsAt p).length

/-- Why an access through `p` fails. -/
def badAccess (h : Heap) : Option Ptr → Fault
  | none => .nullPointer
  | some p =>
    match h.blocks[p.block]? with
    | some k => if k.live then .outOfBounds else .useAfterFree
    | none => .outOfBounds

/-- Read `n` cells. -/
def load (p : Option Ptr) (n : ℕ) : Exec Heap (List Cell) := fun h =>
  if n ≤ h.room p then .ok ((h.cellsAt p).take n) h else .fault (h.badAccess p)

/-- The heap after writing `new` at `p`. -/
def write (h : Heap) (p : Option Ptr) (new : List Cell) : Heap :=
  match p with
  | none => h
  | some p => { h with
      blocks := h.blocks.modify p.block fun k => { k with cells := splice k.cells p.off new } }

/-- Write the cells `new`. -/
def store (p : Option Ptr) (new : List Cell) : Exec Heap Unit := fun h =>
  if new.length ≤ h.room p then .ok () (h.write p new) else .fault (h.badAccess p)

/-- `memcpy`, and `memmove`: the source is read before the destination is written. -/
def memcpy (dst src : Option Ptr) (n : ℕ) : Exec Heap Unit := do
  let cells ← load src n
  store dst cells

/-- The ranges of `n` bytes at the two pointers have a byte in common. -/
def Overlap : Option Ptr → Option Ptr → ℕ → Prop
  | some p, some q, n => p.block = q.block ∧ p.off < q.off + n ∧ q.off < p.off + n
  | _, _, _ => False

instance : ∀ p q n, Decidable (Overlap p q n)
  | some p, some q, n =>
    inferInstanceAs (Decidable (p.block = q.block ∧ p.off < q.off + n ∧ q.off < p.off + n))
  | none, _, _ => inferInstanceAs (Decidable False)
  | some _, none, _ => inferInstanceAs (Decidable False)

theorem overlap_shift_iff {p : Option Ptr} {k n : ℕ} :
    Overlap p (Ptr.shift p k) n ↔ p ≠ none ∧ k < n := by
  cases p with
  | none => simp [Overlap]
  | some p =>
    simp only [Overlap, Ptr.shift_some, Ptr.add_block, Ptr.add_off, true_and, ne_eq, reduceCtorEq,
      not_false_eq_true]
    omega

/-- What `memcpy` asks of its ranges, and `memmove` does not. -/
def restrict (dst src : Option Ptr) (n : ℕ) : Exec Heap Unit :=
  when (Overlap dst src n) (fail .overlap)

/-- The heap with a new block of the given cells. -/
def extend (h : Heap) (cells : List Cell) : Heap :=
  { h with calls := h.calls + 1, blocks := h.blocks ++ [⟨cells, .malloc, true⟩] }

/-- The heap with block `b` freed. -/
def kill (h : Heap) (b : ℕ) : Heap :=
  { h with blocks := h.blocks.modify b fun k => { k with live := false } }

/-- `malloc`: a block of unwritten cells, or the null pointer. -/
def malloc (n : ℕ) : Exec Heap (Option Ptr) := fun h =>
  if h.calls ∈ h.oom then .ok none { h with calls := h.calls + 1 }
  else .ok (some ⟨h.blocks.length, 0⟩) (h.extend (List.replicate n none))

/-- What is wrong with freeing `p`, if anything. -/
def freeFault (h : Heap) (p : Ptr) : Option Fault :=
  match h.blocks[p.block]? with
  | none => some .foreignFree
  | some k =>
    if k.origin = .malloc ∧ p.off = 0 then
      if k.live then none else some .doubleFree
    else some .foreignFree

/-- `free`, which ignores the null pointer. -/
def free : Option Ptr → Exec Heap Unit
  | none => pure ()
  | some p => fun h =>
    match h.freeFault p with
    | some u => .fault u
    | none => .ok () (h.kill p.block)

/-- `realloc` of a pointer that is not null: the cells move to a new block and the old
one is freed, or the null pointer is returned and the old block stays. -/
def realloc (p : Ptr) (n : ℕ) : Exec Heap (Option Ptr) := fun h =>
  match h.freeFault p with
  | some u => .fault u
  | none =>
    if h.calls ∈ h.oom then .ok none { h with calls := h.calls + 1 }
    else
      let old := (h.cellsAt (some p)).take n
      .ok (some ⟨h.blocks.length, 0⟩)
        ((h.kill p.block).extend (old ++ List.replicate (n - old.length) none))

/-- The length of the C string in `cells`, if it is terminated inside them. -/
def cstrLen : List Cell → Option ℕ
  | [] => none
  | none :: _ => none
  | some c :: cells => if c = 0 then some 0 else (cstrLen cells).map (· + 1)

/-- `strlen`. -/
def strlen (p : Option Ptr) : Exec Heap ℕ := fun h =>
  match cstrLen (h.cellsAt p) with
  | some n => .ok n h
  | none => .fault (h.badAccess p)

/-! ## Reading -/

@[simp] theorem cellsAt_none (h : Heap) : h.cellsAt none = [] := rfl

@[simp] theorem room_none (h : Heap) : h.room none = 0 := rfl

theorem cellsAt_shift (h : Heap) (p : Option Ptr) (n : ℕ) :
    h.cellsAt (Ptr.shift p n) = (h.cellsAt p).drop n := by
  cases p with
  | none => simp
  | some p => simp [cellsAt, Ptr.add, List.drop_drop]

theorem room_shift (h : Heap) (p : Option Ptr) (n : ℕ) :
    h.room (Ptr.shift p n) = h.room p - n := by
  simp [room, cellsAt_shift]

/-- The block of a pointer determines its cells. -/
theorem cellsAt_congr {h h' : Heap} {p : Ptr} (hb : h'.blocks[p.block]? = h.blocks[p.block]?) :
    h'.cellsAt (some p) = h.cellsAt (some p) := by
  simp [cellsAt, liveCells, hb]

theorem room_congr {h h' : Heap} {p : Ptr} (hb : h'.blocks[p.block]? = h.blocks[p.block]?) :
    h'.room (some p) = h.room (some p) := by
  rw [room, room, cellsAt_congr hb]

theorem wp_load {Q : List Cell → Heap → Prop} {E : String → Heap → Prop} {F : Fault → Prop}
    {h : Heap} {p : Option Ptr} {n : ℕ} (hn : n ≤ h.room p)
    (hQ : Q ((h.cellsAt p).take n) h) : wp (load p n) Q E F h := by
  simp only [wp, load, if_pos hn]; exact hQ

/-! ## Writing -/

theorem length_splice {cells new : List Cell} {off : ℕ} (h : off + new.length ≤ cells.length) :
    (splice cells off new).length = cells.length := by
  simp only [splice, List.length_append, List.length_take, List.length_drop]
  omega

@[simp] theorem write_calls (h : Heap) (p : Option Ptr) (new : List Cell) :
    (h.write p new).calls = h.calls := by cases p <;> rfl

@[simp] theorem write_oom (h : Heap) (p : Option Ptr) (new : List Cell) :
    (h.write p new).oom = h.oom := by cases p <;> rfl

@[simp] theorem write_length (h : Heap) (p : Option Ptr) (new : List Cell) :
    (h.write p new).blocks.length = h.blocks.length := by
  cases p <;> simp [write]

/-- A write changes no other block. -/
theorem write_getElem?_of_ne {h : Heap} {p : Option Ptr} {new : List Cell} {b : ℕ}
    (hb : p.map Ptr.block ≠ some b) : (h.write p new).blocks[b]? = h.blocks[b]? := by
  cases p with
  | none => rfl
  | some p =>
    have hne : p.block ≠ b := fun he => hb (by simp [he])
    simp [write, hne]

theorem drop_splice_add {cells new : List Cell} {a off : ℕ} (h : a ≤ cells.length) :
    (splice cells (a + off) new).drop a = splice (cells.drop a) off new := by
  have hl : a - (cells.take (a + off)).length = 0 := by
    rw [List.length_take]
    omega
  rw [splice, splice, List.append_assoc, List.drop_append, hl, List.drop_zero, List.drop_take,
    Nat.add_sub_cancel_left, List.append_assoc, List.drop_drop, Nat.add_assoc]

theorem splice_nil (cells : List Cell) (off : ℕ) : splice cells off [] = cells := by
  simp [splice]

/-- What is read from before the place where something was written. -/
theorem cellsAt_write_shift {h : Heap} {p : Option Ptr} {off : ℕ} {new : List Cell}
    (hn : off + new.length ≤ h.room p) :
    (h.write (Ptr.shift p off) new).cellsAt p = splice (h.cellsAt p) off new := by
  -- nothing can be written where there is no room
  cases p with
  | none =>
    have hnil : new = [] := List.length_eq_zero_iff.mp (by rw [room_none] at hn; omega)
    rw [hnil, splice_nil]
    rfl
  | some p =>
    simp only [room, cellsAt, liveCells, List.length_drop] at hn
    simp only [cellsAt, liveCells, write, Ptr.shift_some, Ptr.add_block, Ptr.add_off,
      List.getElem?_modify_eq]
    cases hk : h.blocks[p.block]? with
    | none =>
      have hnil : new = [] := by
        rw [hk] at hn
        simp at hn
        exact List.length_eq_zero_iff.mp (hn.2 ▸ rfl)
      rw [hnil, splice_nil]
      rfl
    | some k =>
      by_cases hl : k.live
      · simp only [hk, hl, if_true] at hn
        simp only [Option.map_eq_map, Option.map_some, hl, if_true]
        -- the pointer lies inside of the block
        by_cases hp : p.off ≤ k.cells.length
        · exact drop_splice_add hp
        · have hnil : new = [] := List.length_eq_zero_iff.mp (by omega)
          rw [hnil, splice_nil, splice_nil]
      · have hnil : new = [] := by
          simp [hk, hl] at hn
          exact List.length_eq_zero_iff.mp (hn.2 ▸ rfl)
        rw [hnil, splice_nil]
        simp [hl]

/-- A write inside the room of its pointer changes the size of no block. -/
theorem room_write {h : Heap} {q : Option Ptr} {new : List Cell} (hn : new.length ≤ h.room q)
    (p : Option Ptr) : (h.write q new).room p = h.room p := by
  cases p with
  | none => rfl
  | some p =>
    by_cases hb : q.map Ptr.block = some p.block
    · obtain ⟨q, rfl, hqp⟩ := Option.map_eq_some_iff.mp hb
      simp only [room, cellsAt, liveCells, List.length_drop, hqp] at hn ⊢
      simp only [write, hqp, List.getElem?_modify_eq]
      cases hk : h.blocks[p.block]? with
      | none => rfl
      | some k =>
        by_cases hl : k.live
        · simp only [hk, hl, if_true] at hn
          simp only [Option.map_eq_map, Option.map_some, hl, if_true]
          by_cases hq : q.off ≤ k.cells.length
          · rw [length_splice (by omega)]
          · rw [List.length_eq_zero_iff.mp (show new.length = 0 by omega), splice_nil]
        · simp [hl]
    · exact room_congr (write_getElem?_of_ne hb)

theorem wp_store {Q : Unit → Heap → Prop} {E : String → Heap → Prop} {F : Fault → Prop}
    {h : Heap} {p : Option Ptr} {new : List Cell} (hn : new.length ≤ h.room p)
    (hQ : Q () (h.write p new)) : wp (store p new) Q E F h := by
  simp only [wp, store, if_pos hn]; exact hQ

theorem wp_memcpy {Q : Unit → Heap → Prop} {E : String → Heap → Prop} {F : Fault → Prop}
    {h : Heap} {dst src : Option Ptr} {n : ℕ} (hs : n ≤ h.room src) (hd : n ≤ h.room dst)
    (hQ : Q () (h.write dst ((h.cellsAt src).take n))) : wp (memcpy dst src n) Q E F h := by
  have hl : ((h.cellsAt src).take n).length ≤ h.room dst := by
    rw [List.length_take]; omega
  exact (wp_bind _).mpr (wp_load hs (wp_store hl hQ))

/-! ## Allocating and freeing -/

/-- The origin and the liveness of a block. -/
def status (h : Heap) (b : ℕ) : Option (Origin × Bool) :=
  (h.blocks[b]?).map fun k => (k.origin, k.live)

/-- The block was freed between `h` and `h'`. -/
def Invalidated (h h' : Heap) (b : ℕ) : Prop :=
  (h.status b).map Prod.snd ≠ some false ∧ (h'.status b).map Prod.snd = some false

theorem not_invalidated_of_status {h h' : Heap} {b : ℕ} (hs : h'.status b = h.status b) :
    ¬ Invalidated h h' b := fun hi => hi.1 (hs ▸ hi.2)

/-- Whether a pointer can be freed depends on the status of its block only. -/
theorem freeFault_congr {h h' : Heap} {p : Ptr} (hs : h'.status p.block = h.status p.block) :
    h'.freeFault p = h.freeFault p := by
  simp only [status] at hs
  simp only [freeFault]
  cases hk : h.blocks[p.block]? <;> cases hk' : h'.blocks[p.block]? <;> simp_all

theorem freeFault_eq_none_iff {h : Heap} {p : Ptr} :
    h.freeFault p = none ↔ p.off = 0 ∧ h.status p.block = some (.malloc, true) := by
  simp only [freeFault, status]
  cases h.blocks[p.block]? with
  | none => simp
  | some k =>
    by_cases ho : k.origin = .malloc <;> by_cases hp : p.off = 0 <;> by_cases hl : k.live <;>
      simp [ho, hp, hl]

theorem freeFault_ne_foreignFree_iff {h : Heap} {p : Ptr} :
    h.freeFault p ≠ some .foreignFree ↔
      p.off = 0 ∧ (h.status p.block).map Prod.fst = some .malloc := by
  simp only [freeFault, status]
  cases h.blocks[p.block]? with
  | none => simp
  | some k =>
    by_cases ho : k.origin = .malloc <;> by_cases hp : p.off = 0 <;> by_cases hl : k.live <;>
      simp [ho, hp, hl]

/-- A bad access is not a bad free. -/
theorem badAccess_ne_free (h : Heap) (p : Option Ptr) :
    h.badAccess p ≠ .foreignFree ∧ h.badAccess p ≠ .doubleFree := by
  simp only [badAccess]
  split <;> (try split) <;> (try split) <;> simp

@[simp] theorem status_write (h : Heap) (p : Option Ptr) (new : List Cell) (b : ℕ) :
    (h.write p new).status b = h.status b := by
  cases p with
  | none => rfl
  | some p =>
    by_cases hb : p.block = b
    · subst hb
      cases hk : h.blocks[p.block]? <;> simp [status, write, hk]
    · simp [status, write, hb]

@[simp] theorem extend_length (h : Heap) (new : List Cell) :
    (h.extend new).blocks.length = h.blocks.length + 1 := by
  simp [extend]

theorem extend_getElem?_of_lt {h : Heap} {new : List Cell} {b : ℕ} (hb : b < h.blocks.length) :
    (h.extend new).blocks[b]? = h.blocks[b]? := by
  simp [extend, List.getElem?_append_left hb]

theorem extend_getElem?_self (h : Heap) (new : List Cell) :
    (h.extend new).blocks[h.blocks.length]? = some ⟨new, .malloc, true⟩ := by
  simp [extend]

theorem status_extend_of_lt {h : Heap} {new : List Cell} {b : ℕ} (hb : b < h.blocks.length) :
    (h.extend new).status b = h.status b := by
  rw [status, status, extend_getElem?_of_lt hb]

theorem status_extend_self (h : Heap) (new : List Cell) :
    (h.extend new).status h.blocks.length = some (.malloc, true) := by
  rw [status, extend_getElem?_self]
  rfl

theorem cellsAt_extend_self (h : Heap) (new : List Cell) :
    (h.extend new).cellsAt (some ⟨h.blocks.length, 0⟩) = new := by
  simp [cellsAt, liveCells, extend]

theorem modify_length_append {α : Type} (l : List α) (a : α) (f : α → α) :
    (l ++ [a]).modify l.length f = l ++ [f a] := by
  induction l with
  | nil => rfl
  | cons b l ih => simp only [List.cons_append, List.length_cons, List.modify_succ_cons, ih]

/-- Writing at the start of a new block. -/
theorem write_extend_self (h : Heap) (old new : List Cell) :
    (h.extend old).write (some ⟨h.blocks.length, 0⟩) new = h.extend (splice old 0 new) := by
  simp only [extend, write, modify_length_append]

/-- A pointer with room is in a block. -/
theorem lt_length_of_room_pos {h : Heap} {p : Ptr} (hp : 0 < h.room (some p)) :
    p.block < h.blocks.length := by
  by_contra hge
  simp [room, cellsAt, liveCells, List.getElem?_eq_none (show h.blocks.length ≤ p.block by omega)]
    at hp

/-- What is readable stays so while its block keeps its cells. -/
theorem readable_congr {h : Heap} (h' : Heap) {p : Option Ptr} {n : ℕ} (hn : n ≤ h.room p)
    (hp : ∀ q, p = some q → q.block < h.blocks.length →
      h'.cellsAt (some q) = h.cellsAt (some q)) :
    n ≤ h'.room p ∧ (h'.cellsAt p).take n = (h.cellsAt p).take n := by
  cases p with
  | none => exact ⟨hn, rfl⟩
  | some q =>
    rcases Nat.eq_zero_or_pos n with rfl | hpos
    · exact ⟨Nat.zero_le _, rfl⟩
    · have hcells := hp q rfl (lt_length_of_room_pos (Nat.lt_of_lt_of_le hpos hn))
      rw [room, hcells]
      exact ⟨hn, rfl⟩

@[simp] theorem kill_length (h : Heap) (b : ℕ) :
    (h.kill b).blocks.length = h.blocks.length := by
  simp [kill]

theorem kill_getElem?_of_ne {h : Heap} {b c : ℕ} (hb : b ≠ c) :
    (h.kill b).blocks[c]? = h.blocks[c]? := by
  simp [kill, hb]

theorem status_kill_of_ne {h : Heap} {b c : ℕ} (hb : b ≠ c) :
    (h.kill b).status c = h.status c := by
  rw [status, status, kill_getElem?_of_ne hb]

/-- Freeing a block keeps its origin. -/
theorem origin_kill (h : Heap) (b c : ℕ) :
    ((h.kill b).status c).map Prod.fst = (h.status c).map Prod.fst := by
  by_cases hb : b = c
  · subst hb
    cases hk : h.blocks[b]? <;> simp [status, kill, hk]
  · rw [status_kill_of_ne hb]

/-- A freed block has no cells, whatever is allocated afterwards. -/
theorem cellsAt_extend_kill_self {h : Heap} {p : Ptr} (hp : p.block < h.blocks.length)
    (new : List Cell) : ((h.kill p.block).extend new).cellsAt (some p) = [] := by
  have hblock : ((h.kill p.block).extend new).blocks[p.block]? =
      (h.kill p.block).blocks[p.block]? := extend_getElem?_of_lt (by rwa [kill_length])
  rw [cellsAt_congr hblock]
  cases hk : h.blocks[p.block]? <;> simp [cellsAt, liveCells, kill, hk]

theorem lt_length_of_freeFault {h : Heap} {p : Ptr} (hp : h.freeFault p = none) :
    p.block < h.blocks.length := by
  obtain ⟨-, hs⟩ := freeFault_eq_none_iff.mp hp
  by_contra hge
  simp [status, List.getElem?_eq_none (Nat.le_of_not_lt hge)] at hs

theorem invalidated_kill {h : Heap} {p : Ptr} (hp : h.freeFault p = none) :
    Invalidated h (h.kill p.block) p.block := by
  obtain ⟨-, hs⟩ := freeFault_eq_none_iff.mp hp
  refine ⟨by rw [hs]; decide, ?_⟩
  simp only [status] at hs ⊢
  cases hk : h.blocks[p.block]? with
  | none => simp [hk] at hs
  | some k => simp [kill, hk]

@[simp] theorem kill_oom (h : Heap) (b : ℕ) : (h.kill b).oom = h.oom := rfl

@[simp] theorem kill_calls (h : Heap) (b : ℕ) : (h.kill b).calls = h.calls := rfl

@[simp] theorem extend_oom (h : Heap) (new : List Cell) : (h.extend new).oom = h.oom := rfl

section Programs

variable {E : String → Heap → Prop} {F : Fault → Prop} {h : Heap}

/-- An access that may fail changes the cells only. -/
theorem wp_store_of_faults {Q : Unit → Heap → Prop} {p : Option Ptr} {new : List Cell}
    (hF : F (h.badAccess p)) (hQ : Q () (h.write p new)) : wp (store p new) Q E F h := by
  simp only [wp, store]
  split_ifs
  · exact hQ
  · exact hF

theorem wp_load_of_faults {Q : List Cell → Heap → Prop} {p : Option Ptr} {n : ℕ}
    (hF : F (h.badAccess p)) (hQ : Q ((h.cellsAt p).take n) h) : wp (load p n) Q E F h := by
  simp only [wp, load]
  split_ifs
  · exact hQ
  · exact hF

theorem wp_memcpy_of_faults {Q : Unit → Heap → Prop} {dst src : Option Ptr} {n : ℕ}
    (hs : F (h.badAccess src)) (hd : F (h.badAccess dst)) (hQ : ∀ new, Q () (h.write dst new)) :
    wp (memcpy dst src n) Q E F h :=
  (wp_bind _).mpr (wp_load_of_faults hs (wp_store_of_faults hd (hQ _)))

/-- A copy that returns was inside both blocks. -/
theorem wp_memcpy_of_any {Q : Unit → Heap → Prop} {dst src : Option Ptr} {n : ℕ} (hF : ∀ u, F u)
    (hQ : n ≤ h.room src → n ≤ h.room dst → Q () (h.write dst ((h.cellsAt src).take n))) :
    wp (memcpy dst src n) Q E F h := by
  refine (wp_bind _).mpr ?_
  simp only [wp, load, store]
  by_cases hs : n ≤ h.room src
  · have hl : ((h.cellsAt src).take n).length = n :=
      List.length_take.trans (Nat.min_eq_left hs)
    by_cases hd : n ≤ h.room dst
    · simpa only [hs, if_true, hl, hd] using hQ hs hd
    · simpa only [hs, if_true, hl, hd, if_false] using hF _
  · simpa only [hs, if_false] using hF _

/-- A write that returns was inside the room. -/
theorem wp_store_of_any {Q : Unit → Heap → Prop} {p : Option Ptr} {new : List Cell}
    (hF : ∀ u, F u) (hQ : new.length ≤ h.room p → Q () (h.write p new)) :
    wp (store p new) Q E F h := by
  simp only [wp, store]
  split_ifs with hroom
  · exact hQ hroom
  · exact hF _

theorem wp_strlen_of_faults {Q : ℕ → Heap → Prop} {p : Option Ptr}
    (hF : F (h.badAccess p)) (hQ : ∀ n, Q n h) : wp (strlen p) Q E F h := by
  simp only [wp, strlen]
  cases cstrLen (h.cellsAt p) with
  | some n => exact hQ n
  | none => exact hF

theorem wp_malloc {Q : Option Ptr → Heap → Prop} {n : ℕ}
    (hnone : Q none { h with calls := h.calls + 1 })
    (hsome : Q (some ⟨h.blocks.length, 0⟩) (h.extend (List.replicate n none))) :
    wp (malloc n) Q E F h := by
  simp only [wp, malloc]
  split_ifs
  · exact hnone
  · exact hsome

/-- The calls that fail are those listed. -/
theorem wp_malloc_of {Q : Option Ptr → Heap → Prop} {n : ℕ}
    (hnone : h.calls ∈ h.oom → Q none { h with calls := h.calls + 1 })
    (hsome : h.calls ∉ h.oom →
      Q (some ⟨h.blocks.length, 0⟩) (h.extend (List.replicate n none))) :
    wp (malloc n) Q E F h := by
  simp only [wp, malloc]
  by_cases ho : h.calls ∈ h.oom
  · simp only [ho, if_true]; exact hnone ho
  · simp only [ho, if_false]; exact hsome ho

theorem wp_malloc_of_mem_oom {Q : Option Ptr → Heap → Prop} {n : ℕ} (ho : h.oom = [])
    (hsome : Q (some ⟨h.blocks.length, 0⟩) (h.extend (List.replicate n none))) :
    wp (malloc n) Q E F h := by
  simp only [wp, malloc, ho, List.not_mem_nil, if_false]
  exact hsome

theorem wp_free {Q : Unit → Heap → Prop} {p : Ptr} (hF : ∀ u, h.freeFault p = some u → F u)
    (hQ : h.freeFault p = none → Q () (h.kill p.block)) : wp (free (some p)) Q E F h := by
  simp only [wp, free]
  cases hu : h.freeFault p with
  | some u => exact hF u hu
  | none => exact hQ hu

theorem wp_realloc {Q : Option Ptr → Heap → Prop} {p : Ptr} {n : ℕ}
    (hF : ∀ u, h.freeFault p = some u → F u)
    (hnone : h.freeFault p = none → h.calls ∈ h.oom → Q none { h with calls := h.calls + 1 })
    (hsome : h.freeFault p = none → h.calls ∉ h.oom →
      Q (some ⟨h.blocks.length, 0⟩) ((h.kill p.block).extend
        ((h.cellsAt (some p)).take n ++
          List.replicate (n - ((h.cellsAt (some p)).take n).length) none))) :
    wp (realloc p n) Q E F h := by
  simp only [wp, realloc]
  cases hu : h.freeFault p with
  | some u => exact hF u hu
  | none =>
    by_cases ho : h.calls ∈ h.oom
    · simp only [ho, if_true]; exact hnone hu ho
    · simp only [ho, if_false]; exact hsome hu ho

end Programs

end Heap

end Machine
