import Glim.Machine.Heap

/-!
# Text in memory

A buffer that is written piece by piece: writing at an offset into what was written before is
one write of the text with the new piece in it. A program that fills a buffer in place can so be
followed on the text alone.

## Main definitions

* `clip`: the heap in which a buffer ends early, where every write behind that end is a fault

## Main results

* `write_write`: a write into a written buffer
* `store_cons`, `store_append`, `loadByte_cons`: the accesses inside one and at its end
-/

namespace Machine.Heap

open Exec

/-! ## Splicing twice -/

section Splice

variable {cells w new : List Cell} {off : ℕ}

theorem length_splice_le (hoff : off ≤ w.length) :
    (splice w off new).length = max w.length (off + new.length) := by
  simp only [splice, List.length_append, List.length_take, List.length_drop]
  omega

theorem splice_eq (cells : List Cell) (n : ℕ) (new : List Cell) :
    splice cells n new = cells.take n ++ (new ++ cells.drop (n + new.length)) := by
  rw [splice, List.append_assoc]

/-- A piece spliced into the beginning of the cells. -/
theorem splice_append (hoff : off ≤ w.length) :
    splice (w ++ cells) off new =
      splice w off new ++ cells.drop (off + new.length - w.length) := by
  rw [splice, splice, List.take_append_of_le_length hoff, List.drop_append]
  simp only [List.append_assoc]

theorem splice_splice {n : ℕ} (hn : n ≤ cells.length) (hoff : off ≤ w.length) :
    splice (splice cells n w) (n + off) new = splice cells n (splice w off new) := by
  have hlen : (cells.take n).length = n := List.length_take.trans (Nat.min_eq_left hn)
  -- behind the first `n` cells, which stay
  have hbehind : splice (cells.take n ++ (w ++ cells.drop (n + w.length))) (n + off) new =
      cells.take n ++ splice (w ++ cells.drop (n + w.length)) off new := by
    have htake : (cells.take n ++ (w ++ cells.drop (n + w.length))).take (n + off) =
        cells.take n ++ (w ++ cells.drop (n + w.length)).take off := by
      rw [List.take_append, hlen, Nat.add_sub_cancel_left, List.take_of_length_le (by omega)]
    have hdrop : (cells.take n ++ (w ++ cells.drop (n + w.length))).drop (n + off + new.length) =
        (w ++ cells.drop (n + w.length)).drop (off + new.length) := by
      rw [List.drop_append, hlen, List.drop_eq_nil_of_le (by omega), List.nil_append]
      congr 1
      omega
    rw [splice, htake, hdrop, splice, List.append_assoc, List.append_assoc, List.append_assoc]
  have hrest : (cells.drop (n + w.length)).drop (off + new.length - w.length) =
      cells.drop (n + (splice w off new).length) := by
    rw [List.drop_drop, length_splice_le hoff]
    congr 1
    omega
  rw [splice_eq cells n w, hbehind, splice_append hoff, hrest, splice_eq cells n]

/-- A cell in the place of another one. -/
theorem splice_cons (pre : List Cell) (old c : Cell) (post : List Cell) :
    splice (pre ++ old :: post) pre.length [c] = pre ++ c :: post := by
  rw [splice_eq, List.take_left' rfl, List.length_singleton, List.drop_append,
    List.drop_eq_nil_of_le (Nat.le_add_right _ _), Nat.add_sub_cancel_left]
  rfl

theorem splice_length (w new : List Cell) : splice w w.length new = w ++ new := by
  rw [splice, List.take_length, List.drop_eq_nil_of_le (Nat.le_add_right _ _), List.append_nil]

end Splice

/-! ## Accesses inside a written buffer -/

/-- A byte that has been written. -/
def loadByte (p : Option Ptr) : Exec Heap UInt8 := do
  match ← load p 1 with
  | [some c] => pure c
  | _ => fail .outOfBounds

section Buffer

variable {h : Heap} {p : Option Ptr} {w new : List Cell} {off n : ℕ}

/-- Two writes into one buffer are one. -/
theorem write_write (hw : w.length ≤ h.room p) (hoff : off ≤ w.length)
    (hn : off + new.length ≤ h.room p) :
    (h.write p w).write (Ptr.shift p off) new = h.write p (splice w off new) := by
  cases p with
  | none => rfl
  | some p =>
    have hsame : ∀ k, h.blocks[p.block]? = some k →
        splice (splice k.cells p.off w) (p.off + off) new =
          splice k.cells p.off (splice w off new) := by
      intro k hk
      by_cases hp : p.off ≤ k.cells.length
      · exact splice_splice hp hoff
      -- there is no room behind the end of the block
      · have hroom : h.room (some p) = 0 := by
          rw [room, cellsAt, liveCells, hk, List.length_drop]
          simp only
          split_ifs
          · omega
          · rw [List.length_nil, Nat.zero_sub]
        have hnil : w = [] := List.length_eq_zero_iff.mp (by omega)
        have hnil' : new = [] := List.length_eq_zero_iff.mp (by omega)
        rw [hnil, hnil']
        simp only [splice_nil]
    simp only [write, Ptr.shift_some, Ptr.add_block, Ptr.add_off, Heap.mk.injEq, and_true]
    refine List.ext_getElem? fun b => ?_
    by_cases hb : p.block = b
    · subst hb
      simp only [List.getElem?_modify_eq]
      cases hk : h.blocks[p.block]? with
      | none => rfl
      | some k => simp only [Option.map_eq_map, Option.map_some, hsame k hk]
    · simp only [ne_eq, hb, not_false_eq_true, List.getElem?_modify_ne]

theorem write_nil (h : Heap) (p : Option Ptr) : h.write p [] = h := by
  cases p with
  | none => rfl
  | some p =>
    simp only [write, splice_nil]
    have hid : h.blocks.modify p.block (fun k => { k with cells := k.cells }) = h.blocks :=
      List.modify_id p.block h.blocks
    rw [hid]

theorem cellsAt_write_self (hw : w.length ≤ h.room p) :
    (h.write p w).cellsAt p = w ++ (h.cellsAt p).drop w.length := by
  have hp : Ptr.shift p 0 = p := by cases p <;> rfl
  have hcells : (h.write (Ptr.shift p 0) w).cellsAt p = splice (h.cellsAt p) 0 w :=
    cellsAt_write_shift (by omega)
  rw [hp] at hcells
  rw [hcells, splice, List.take_zero, List.nil_append, Nat.zero_add]

/-- Storing a piece in a written buffer. -/
theorem store_write (hw : w.length ≤ h.room p) (hoff : off ≤ w.length)
    (hn : off + new.length ≤ h.room p) :
    store (Ptr.shift p off) new (h.write p w) = .ok () (h.write p (splice w off new)) := by
  have hroom : new.length ≤ (h.write p w).room (Ptr.shift p off) := by
    rw [room_shift, room_write hw]
    omega
  rw [store, if_pos hroom, write_write hw hoff hn]

/-- Loading a piece of a written buffer. -/
theorem load_write (hw : w.length ≤ h.room p) (hn : off + n ≤ w.length) :
    load (Ptr.shift p off) n (h.write p w) = .ok ((w.drop off).take n) (h.write p w) := by
  have hroom : n ≤ (h.write p w).room (Ptr.shift p off) := by
    rw [room_shift, room_write hw]
    omega
  have hcells : ((h.write p w).cellsAt (Ptr.shift p off)).take n = (w.drop off).take n := by
    rw [cellsAt_shift, cellsAt_write_self hw, List.drop_append_of_le_length (by omega),
      List.take_append_of_le_length (by rw [List.length_drop]; omega)]
  rw [load, if_pos hroom, hcells]

/-- Storing a byte in the place of another one. -/
theorem store_cons (pre post : List Cell) (old c : Cell)
    (hw : (pre ++ old :: post).length ≤ h.room p) :
    store (Ptr.shift p pre.length) [c] (h.write p (pre ++ old :: post)) =
      .ok () (h.write p (pre ++ c :: post)) := by
  have hlen : (pre ++ old :: post).length = pre.length + (post.length + 1) := by
    rw [List.length_append, List.length_cons]
  rw [store_write hw (by omega) (by rw [List.length_singleton]; omega), splice_cons]

/-- Storing a piece at the end of what was written. -/
theorem store_append (w new : List Cell) (hw : (w ++ new).length ≤ h.room p) :
    store (Ptr.shift p w.length) new (h.write p w) = .ok () (h.write p (w ++ new)) := by
  rw [List.length_append] at hw
  rw [store_write (by omega) (Nat.le_refl _) hw, splice_length]

theorem loadByte_cons (pre post : List Cell) (c : UInt8)
    (hw : (pre ++ some c :: post).length ≤ h.room p) :
    loadByte (Ptr.shift p pre.length) (h.write p (pre ++ some c :: post)) =
      .ok c (h.write p (pre ++ some c :: post)) := by
  have hone : pre.length + 1 ≤ (pre ++ some c :: post).length := by
    rw [List.length_append, List.length_cons]
    omega
  have hload := load_write hw hone
  rw [List.drop_left' rfl] at hload
  simp only [loadByte, bind, hload]
  rfl

end Buffer

/-! ## A buffer that ends early -/

/-- The heap in which the block of `p` ends `n` cells behind it. -/
def clip (h : Heap) (p : Option Ptr) (n : ℕ) : Heap :=
  match p with
  | none => h
  | some p => { h with
      blocks := h.blocks.modify p.block fun k => { k with cells := k.cells.take (p.off + n) } }

theorem cellsAt_clip (h : Heap) (p : Option Ptr) (n : ℕ) :
    (h.clip p n).cellsAt p = (h.cellsAt p).take n := by
  cases p with
  | none => exact List.take_nil.symm
  | some p =>
    simp only [cellsAt, liveCells, clip, List.getElem?_modify_eq]
    cases h.blocks[p.block]? with
    | none => simp
    | some k =>
      simp only [Option.map_eq_map, Option.map_some]
      split_ifs
      · rw [List.drop_take, Nat.add_sub_cancel_left]
      · simp

theorem room_clip (h : Heap) (p : Option Ptr) (n : ℕ) :
    (h.clip p n).room p = min n (h.room p) := by
  rw [room, cellsAt_clip, List.length_take, room]

end Machine.Heap
