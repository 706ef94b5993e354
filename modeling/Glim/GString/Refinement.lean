import Glim.GString.Runs

/-!
# A string is a list of bytes

What a call does to the bytes of a string, as an operation on lists that knows nothing of
buffers and capacities. A run of a string follows the run of the operations: a call that
`reserve` refuses changes nothing, and no call goes out of bounds. `reserve` is called
before the text of a number is known, for as many bytes as the widest number takes, so
appending a number is refused a little before the length limit.

## Main definitions

* `ListOp`: the operations on lists
* `Turn.op`: the operation that a step stands for
* `Turn.TooLarge`: the steps that are refused
* `InScope`: a step, and the operation on bytes that it stands for

## Main results

* `wp_turn_op`: a step does to the cells what its operation does
* `contents_of_run`: a run does to the bytes what its operations do
* `number_refused`: a number is refused although its text would fit
-/

namespace Glim

open Machine Exec Method Text

/-! ## Operations on lists -/

/-- What a call does to the contents. -/
inductive ListOp (α : Type) where
  | keep
  | append (l : List α)
  | erase (pos count : ℕ)
  | clear
  | assign (l : List α)
  deriving DecidableEq, Repr

namespace ListOp

variable {α β : Type}

/-- The list after the operation; a range that ends outside the list is not erased. -/
def apply : ListOp α → List α → List α
  | keep, l => l
  | append l', l => l ++ l'
  | erase pos count, l =>
    if pos + count ≤ l.length then l.take pos ++ l.drop (pos + count) else l
  | clear, _ => []
  | assign l', _ => l'

/-- The list after all the operations. -/
def applyAll (ops : List (ListOp α)) (l : List α) : List α :=
  ops.foldl (fun l op => op.apply l) l

def map (f : α → β) : ListOp α → ListOp β
  | keep => keep
  | append l => append (l.map f)
  | erase pos count => erase pos count
  | clear => clear
  | assign l => assign (l.map f)

theorem apply_map (f : α → β) (op : ListOp α) (l : List α) :
    (op.map f).apply (l.map f) = (op.apply l).map f := by
  cases op with
  | erase pos count =>
    simp only [map, apply, List.length_map]
    split
    · rw [List.map_append, List.map_take, List.map_drop]
    · rfl
  | append l' => exact List.map_append.symm
  | keep => rfl
  | clear => rfl
  | assign l' => rfl

end ListOp

/-! ## What a step stands for -/

/-- `reserve` refuses the step. -/
def Turn.TooLarge (o : Object) : Turn → Prop
  | .call (.edit (.reserve n)) => Glim.TooLarge n.toNat o
  | .call (.edit (.appendInt _)) => Glim.TooLarge (o.str.length + 12) o
  | .call (.edit (.appendLong _)) => Glim.TooLarge (o.str.length + 24) o
  | .call (.edit (.appendLongLong _)) => Glim.TooLarge (o.str.length + 24) o
  | _ => False

instance (n : ℕ) (o : Object) : Decidable (TooLarge n o) :=
  inferInstanceAs (Decidable (_ ∧ _))

/-- What a call without a gstring argument does to the cells. -/
def Edit.op (o : Object) : Edit → Option (ListOp Cell)
  | reserve _ => some .keep
  | appendChar ch => some (.append (cells [ch]))
  | append cstr clen => some (.append ((o.heap.cellsAt cstr).take clen.toNat))
  | appendString data length => some (.append ((o.heap.cellsAt data).take length))
  | appendCString cstr =>
    some (.append ((o.heap.cellsAt cstr).take ((Heap.cstrLen (o.heap.cellsAt cstr)).getD 0)))
  | appendInt iv =>
    some (if TooLarge (o.str.length + 12) o then .keep else .append (cells (signed iv.toInt)))
  | appendLong iv =>
    some (if TooLarge (o.str.length + 24) o then .keep else .append (cells (signed iv.toInt)))
  | appendLongLong iv =>
    some (if TooLarge (o.str.length + 24) o then .keep else .append (cells (signed iv.toInt)))
  | cStr => some .keep
  | clear => some .clear
  | erase pos count => some (.erase pos.toNat count.toNat)
  | owned => some .keep
  | _ => none

/-- What a step does to the cells of the string. -/
def Turn.op (o : Object) : Turn → Option (ListOp Cell)
  | .call (.edit e) => e.op o
  | .call (.appendGString gs) => some (.append (Object.contents ⟨o.heap, gs⟩))
  | .call (.copyAssign g) => some (.assign (Object.contents ⟨o.heap, g⟩))
  | .call (.moveAssign g) => some (.assign (Object.contents ⟨o.heap, g⟩))
  | .make m => some (.assign (m.cells o.heap))
  | .env _ => some .keep

section Steps

variable {o : Object}

/-- The specification of a step that stands for the operation `op`. -/
abbrev Does (x : Exec Object Unit) (tooLarge : Prop) (op : ListOp Cell) (o : Object) : Prop :=
  wp x (fun _ o' => (Valid o' ∧ o'.contents = op.apply o.contents) ∧ ¬ tooLarge)
    (fun _ o' => o' = o ∧ tooLarge) (fun _ => False) o

/-- A step that is never refused. -/
theorem does_of_wp {x : Exec Object Unit} {op : ListOp Cell}
    (h : wp x (fun _ o' => Valid o' ∧ o'.contents = op.apply o.contents) (fun _ _ => False)
      (fun _ => False) o) : Does x False op o :=
  wp_mono h (fun _ _ h => ⟨h, id⟩) (fun _ _ h => h.elim) fun _ => id

/-- Appending `k` cells after making room for `m` bytes. -/
theorem does_append {x : Exec Object Unit} {n : UInt32} {m k : ℕ} {new : List Cell}
    (hn : n.toNat = m) (hshort : ¬ TooLarge m o → o.str.length + k < 2 ^ 24)
    (h : wp x (fun _ => Appended m new k o) (Refused n o) (fun _ => False) o) :
    Does x (TooLarge m o) (if TooLarge m o then .keep else .append (new.take k)) o := by
  refine wp_mono h (fun _ o' ha => ?_) (fun e o' hr => ?_) fun _ => id
  · have hnot : ¬ TooLarge m o := fun htl => by
      have := ha.small htl.1
      have := htl.2
      omega
    rw [if_neg hnot]
    exact ⟨⟨ha.valid, ha.contents (hshort hnot)⟩, hnot⟩
  · obtain ⟨rfl, -, htl⟩ := hr
    exact ⟨rfl, hn ▸ htl⟩

/-- Appending what the length limit allows is never refused. -/
theorem does_append_of_le {x : Exec Object Unit} {n : UInt32} {m k : ℕ} {new : List Cell}
    (hn : n.toNat = m) (hm : m ≤ 2 ^ 24) (hshort : o.str.length + k < 2 ^ 24)
    (h : wp x (fun _ => Appended m new k o) (Refused n o) (fun _ => False) o) :
    Does x False (.append (new.take k)) o := by
  have hnot : ¬ TooLarge m o := fun htl => absurd hm (not_le.mpr htl.2)
  have := does_append hn (fun _ => hshort) h
  rw [if_neg hnot] at this
  exact wp_mono this (fun _ _ h => ⟨h.1, id⟩) (fun _ _ h => ⟨h.1, hnot h.2⟩) fun _ => id

/-- Appending the decimal text of a number, which takes no more room than is made for it. -/
theorem does_append_number {x : Exec Object Unit} {m : ℕ} {v : ℤ}
    (hm : o.str.length + m ≤ 2 ^ 31)
    (hshort : ¬ TooLarge (o.str.length + m) o →
      (ListOp.apply (.append (cells (signed v))) o.contents).length < 2 ^ 24) (hv : Valid o)
    (h : wp x (fun _ => Appended (o.str.length + m) (cells (signed v ++ [0])) (signed v).length o)
      (Refused (UInt32.ofNat (o.str.length + m)) o) (fun _ => False) o) :
    Does x (TooLarge (o.str.length + m) o)
      (if TooLarge (o.str.length + m) o then .keep else .append (cells (signed v))) o := by
  have htake : (cells (signed v ++ [0])).take (signed v).length = cells (signed v) := by
    rw [cells, List.map_append, List.take_append_of_le_length (by rw [List.length_map]),
      List.take_of_length_le (by rw [List.length_map])]
    rfl
  have := does_append (UInt32.toNat_ofNat_of_le hm) (fun hnot => ?_) h
  · rwa [htake] at this
  · have := hshort hnot
    rw [ListOp.apply, List.length_append, length_contents hv, cells, List.length_map] at this
    exact this

/-- Appending `n` readable bytes. -/
theorem does_append_bytes (hv : Valid o) {p : Option Ptr} {n : ℕ} (hn : n ≤ o.heap.room p)
    (hshort : (ListOp.apply (.append ((o.heap.cellsAt p).take n)) o.contents).length < 2 ^ 24)
    {clen : UInt32} (hclen : clen.toNat = n % 2 ^ 32) (hok : AppendOk p clen.toNat o) :
    Does (GString.append p clen) False (.append ((o.heap.cellsAt p).take n)) o := by
  have hl : ((o.heap.cellsAt p).take n).length = n := List.length_take.trans (min_eq_left hn)
  rw [ListOp.apply, List.length_append, length_contents hv, hl] at hshort
  obtain rfl : clen.toNat = n := hclen.trans (Nat.mod_eq_of_lt (by omega))
  have hneed : (UInt32.ofNat o.str.length + clen).toNat = o.str.length + clen.toNat := by
    rw [UInt32.toNat_add, UInt32.toNat_ofNat_of_le (by omega)]
    exact Nat.mod_eq_of_lt (by omega)
  have := does_append_of_le hneed (by omega) hshort (wp_append hv hok)
  rwa [List.take_take, min_self] at this

/-- A safe call does to the cells what its operation does. -/
theorem wp_edit_op (hv : Valid o) {e : Edit} (hok : e.Ok o) {op : ListOp Cell}
    (hop : e.op o = some op) (hshort : (op.apply o.contents).length < 2 ^ 24) :
    Does e.run (Turn.TooLarge o (.call (.edit e))) op o := by
  have hlen := o.str.length_lt
  have hl := length_contents hv
  cases e with
  | reserve n =>
    obtain rfl : ListOp.keep = op := Option.some.inj hop
    refine wp_mono (wp_reserve hv hok) (fun _ o' hg => ⟨⟨hg.valid, hg.contents⟩, fun htl => ?_⟩)
      (fun _ _ hr => ⟨hr.1, hr.2.2⟩) fun _ => id
    -- where `reserve` returns, the size was not too large
    have := hg.small htl.1
    have := htl.2
    omega
  | appendChar ch =>
    obtain rfl : ListOp.append (cells [ch]) = op := Option.some.inj hop
    rw [ListOp.apply, List.length_append, hl] at hshort
    exact does_append_of_le (UInt32.toNat_ofNat_of_le (by omega)) (by omega) hshort
      (wp_appendChar hv ch)
  | append cstr clen =>
    obtain rfl := Option.some.inj hop
    exact does_append_bytes hv hok.1 hshort (Nat.mod_eq_of_lt clen.toNat_lt).symm hok
  | appendString data length =>
    obtain rfl := Option.some.inj hop
    exact does_append_bytes hv hok.1 hshort UInt32.toNat_ofNat' hok.2
  | appendCString cstr =>
    obtain rfl := Option.some.inj hop
    -- no bytes are appended for a null pointer, and those up to the terminator otherwise
    by_cases hnull : cstr = none
    · refine does_of_wp ((wp_when (cstr ≠ none) _).mpr
        ⟨fun hne => absurd hnull hne, fun _ => ⟨hv, ?_⟩⟩)
      rw [ListOp.apply, hnull, Heap.cellsAt_none, List.take_nil, List.append_nil]
    · obtain ⟨n, hn, happend⟩ := hok hnull
      have hstrlen : wp (Heap.strlen cstr) (fun m h => m = n ∧ h = o.heap) (fun _ _ => False)
          (fun _ => False) o.heap := by
        simp [wp, Heap.strlen, hn]
      rw [hn, Option.getD_some] at hshort ⊢
      refine (wp_when (cstr ≠ none) _).mpr ⟨fun _ => ?_, fun h => absurd hnull h⟩
      refine (wp_bind _).mpr (wp_zoom.mpr (wp_mono hstrlen (fun m h hm => ?_)
        (fun _ _ h => h.elim) fun _ => id))
      obtain ⟨rfl, rfl⟩ := hm
      exact does_append_bytes hv (cstrLen_lt hn).le hshort UInt32.toNat_ofNat' happend
  | appendInt iv =>
    obtain rfl := Option.some.inj hop
    refine does_append_number (by omega) (fun hnot => ?_) hv (wp_appendInt hv iv)
    rwa [if_neg hnot] at hshort
  | appendLong iv =>
    obtain rfl := Option.some.inj hop
    refine does_append_number (by omega) (fun hnot => ?_) hv (wp_appendLong hv iv)
    rwa [if_neg hnot] at hshort
  | appendLongLong iv =>
    obtain rfl := Option.some.inj hop
    refine does_append_number (by omega) (fun hnot => ?_) hv (wp_appendLong hv iv)
    rwa [if_neg hnot] at hshort
  | cStr =>
    obtain rfl := Option.some.inj hop
    exact does_of_wp ((wp_map _).mpr (wp_mono (wp_cStr hv) (fun _ _ h => ⟨h.1, h.2.1⟩)
      (fun _ _ => id) fun _ => id))
  | clear =>
    obtain rfl := Option.some.inj hop
    exact does_of_wp (wp_clear hv)
  | erase pos count =>
    obtain rfl := Option.some.inj hop
    exact does_of_wp (wp_erase hv pos count)
  | owned =>
    obtain rfl := Option.some.inj hop
    exact does_of_wp (wp_owned hv)
  -- these edits have no operation of their own
  | append64 | parseFrom | appendDouble | appendTime | appendNetstring | readNetstring | eraseRange
  | setAt => cases hop

/-- A safe step does to the cells what its operation does, unless it is refused. -/
theorem wp_turn_op (hv : Valid o) {t : Turn} (hok : t.Ok o) {op : ListOp Cell}
    (hop : t.op o = some op) (hshort : (op.apply o.contents).length < 2 ^ 24) :
    Does t.exec (t.TooLarge o) op o := by
  cases t with
  | call c =>
    cases c with
    | edit e => exact wp_edit_op hv hok hop hshort
    | appendGString gs =>
      obtain rfl := Option.some.inj hop
      have hg := gs.length_lt
      refine does_append_bytes hv hok.1.length_le hshort ?_ ?_
      · exact UInt32.toNat_ofNat'
      · rw [UInt32.toNat_ofNat_of_le (by omega)]
        exact hok.2
    | copyAssign g =>
      obtain rfl := Option.some.inj hop
      exact does_of_wp (wp_copyAssign hv hok)
    | moveAssign g =>
      obtain rfl := Option.some.inj hop
      exact does_of_wp (wp_moveAssign hv hok)
  | make m =>
    obtain rfl := Option.some.inj hop
    refine does_of_wp ?_
    simp only [Turn.exec, onHeap, modifyStr, wp_bind, wp_zoom, wp_modify]
    exact wp_mono (wp_make hv.allocates hok) (fun _ _ h => ⟨h.1, h.2 hshort⟩)
      (fun _ _ => id) fun _ => id
  | env h =>
    obtain rfl := Option.some.inj hop
    exact does_of_wp (EnvOk.valid hok hv)

/-- A refused step stands for nothing. -/
theorem op_eq_keep {t : Turn} (htl : t.TooLarge o) : t.op o = some .keep := by
  unfold Turn.TooLarge at htl
  split at htl
  · rfl
  · exact congrArg some (if_pos htl)
  · exact congrArg some (if_pos htl)
  · exact congrArg some (if_pos htl)
  · exact htl.elim

/-- A number is refused when the room for the widest number would exceed the limit. -/
theorem appendInt_of_tooLarge (hv : Valid o) (htl : TooLarge (o.str.length + 12) o) (iv : Int32) :
    GString.appendInt iv o = .throw (GString.tooLarge (UInt32.ofNat (o.str.length + 12))) o := by
  have hlen := o.str.length_lt
  have hwp := wp_appendInt hv iv
  simp only [wp] at hwp
  cases hx : GString.appendInt iv o with
  | ok a o' =>
    rw [hx] at hwp
    exact absurd (hwp.small htl.1) (not_le.mpr htl.2)
  | throw e o' =>
    rw [hx] at hwp
    obtain ⟨rfl, rfl, -⟩ := hwp
    rfl
  | fault u => rw [hx] at hwp; exact hwp.elim

end Steps

/-! ## Runs -/

/-- The step stands for the operation on bytes, its arguments are sound, and the bytes stay fewer
than `2 ^ 24`. -/
structure InScope (l : Turn × ListOp UInt8) (o : Object) : Prop where
  stands : l.1.op o = some (l.2.map some)
  ok : l.1.Ok o
  short : ((l.2.map some).apply o.contents).length < 2 ^ 24

section Runs

variable {o : Object} {h : Heap} {ls : List (Turn × ListOp UInt8)}

/-- One step of the string is one operation on its bytes. -/
theorem contents_of_turn {l : Turn × ListOp UInt8} {o' : Object} {bytes : List UInt8}
    (hv : Valid o) (hbytes : o.contents = cells bytes) (hl : InScope l o)
    (hleaves : (l.1.exec o).Leaves o') : Valid o' ∧ o'.contents = cells (l.2.apply bytes) := by
  have happly : (l.2.map some).apply o.contents = cells (l.2.apply bytes) := by
    rw [hbytes]
    exact ListOp.apply_map some l.2 bytes
  refine Run.leaves_of_wp (Q := fun o' => Valid o' ∧ o'.contents = cells (l.2.apply bytes))
    (wp_mono (wp_turn_op hv hl.ok hl.stands hl.short) (fun _ o' h => ?_) (fun _ o' h => ?_)
      fun _ => id) hleaves
  · exact ⟨h.1.1, h.1.2.trans happly⟩
  -- the operation of a refused step changes nothing
  · obtain ⟨rfl, htl⟩ := h
    have hkeep : l.2.map some = .keep := Option.some.inj (hl.stands.symm.trans (op_eq_keep htl))
    refine ⟨hv, ?_⟩
    rw [← happly, hkeep]
    rfl

/-- A run of the string is a run of the operations on its bytes. -/
theorem contents_of_run_from {s : Object} {bytes : List UInt8}
    (hr : Run (fun l => l.1.exec) InScope s ls o) (hv : Valid s)
    (hbytes : s.contents = cells bytes) :
    Valid o ∧ o.contents = cells (ListOp.applyAll (ls.map Prod.snd) bytes) := by
  induction hr generalizing bytes with
  | nil s => exact ⟨hv, hbytes⟩
  | cons hg hl _ ih =>
    obtain ⟨hv', hbytes'⟩ := contents_of_turn hv hbytes hg hl
    exact ih hv' hbytes'

/-- The bytes of a string are those of the list that the operations lead to. A step returns unless
`reserve` refuses it, and then it changes nothing. -/
theorem contents_of_run (hoom : h.oom = [])
    (hr : Run (fun l => l.1.exec) InScope ⟨h, .empty⟩ ls o) :
    o.contents = cells (ListOp.applyAll (ls.map Prod.snd) []) ∧
      ∀ l, InScope l o →
        (∃ o', l.1.exec o = .ok () o' ∧ ¬ l.1.TooLarge o) ∨
          ∃ e, l.1.exec o = .throw e o ∧ l.1.TooLarge o := by
  obtain ⟨hv, hbytes⟩ := contents_of_run_from hr (valid_empty hoom).1
    (show _ = cells [] from (valid_empty hoom).2)
  refine ⟨hbytes, fun l hl => ?_⟩
  have hwp := wp_turn_op hv hl.ok hl.stands hl.short
  simp only [Does, wp] at hwp
  cases hx : l.1.exec o with
  | ok a o' =>
    rw [hx] at hwp
    exact Or.inl ⟨o', rfl, hwp.2⟩
  | throw e o' =>
    rw [hx] at hwp
    exact Or.inr ⟨e, by rw [hwp.1], hwp.2⟩
  | fault u =>
    rw [hx] at hwp
    exact hwp.elim

/-- A string over foreign memory that is appended to, terminated and cut. -/
theorem contents_of_foo_run :
    ∃ o, Run.execAll Turn.exec [.make (.ofChars (some ⟨0, 0⟩) 3), .call (.edit (.appendInt 7)),
        .call (.edit .cStr), .call (.edit (.erase 0 1))] ⟨fooHeap, .empty⟩ = some o ∧
      o.contents = cells [111, 111, 55] := by
  -- every operation of the run stays below the limit
  have hmake : InScope (.make (.ofChars (some ⟨0, 0⟩) 3), .assign [102, 111, 111])
      ⟨fooHeap, .empty⟩ := by
    refine ⟨rfl, ?_, by decide⟩
    show 3 ≤ fooHeap.room (some ⟨0, 0⟩)
    decide
  have happend : ∀ o : Object, o.str.length ≤ 100 →
      InScope (.call (.edit (.appendInt 7)), .append [55]) o := by
    intro o ho
    have hsmall : ¬ TooLarge (o.str.length + 12) o := fun h => absurd h.2 (by omega)
    refine ⟨congrArg some (if_neg hsmall), trivial, ?_⟩
    have hl : o.contents.length ≤ o.str.length := List.length_take_le _ _
    simp only [ListOp.map, ListOp.apply, List.length_append, List.map_cons, List.map_nil,
      List.length_cons, List.length_nil]
    omega
  have hcStr : ∀ o : Object, InScope (.call (.edit .cStr), .keep) o := fun o =>
    ⟨rfl, trivial, (List.length_take_le _ _).trans_lt o.str.length_lt⟩
  have herase : ∀ o : Object, InScope (.call (.edit (.erase 0 1)), .erase 0 1) o := by
    refine fun o => ⟨rfl, trivial, ?_⟩
    have hl : o.contents.length ≤ o.str.length := List.length_take_le _ _
    have := o.str.length_lt
    simp only [ListOp.map, ListOp.apply]
    split
    · simp only [List.length_append, List.length_take, List.length_drop]
      omega
    · omega
  exact ⟨_, rfl, (contents_of_run (h := fooHeap) rfl (.cons hmake rfl
    (.cons (happend _ (by decide)) rfl (.cons (hcStr _) rfl (.cons (herase _) rfl (.nil _)))))).1⟩

/-- A caller's buffer of `2 ^ 24` bytes. -/
def wideHeap : Heap := ⟨[⟨List.replicate (2 ^ 24) (some 0), .foreign, true⟩], 0, []⟩

theorem number_refused :
    ∃ o bytes, Run Turn.exec Turn.Ok ⟨wideHeap, .empty⟩
        [.make (.onBuffer 0x1000000 (some ⟨0, 0⟩) false 0xFFFFFB false)] o ∧
      o.contents = cells bytes ∧ (ListOp.apply (.append (signed 7)) bytes).length < 2 ^ 24 ∧
      GString.appendInt 7 o = .throw (GString.tooLarge 0x1000007) o := by
  have hcells : wideHeap.cellsAt (some ⟨0, 0⟩) = List.replicate (2 ^ 24) (some 0) := rfl
  have hroom : wideHeap.room (some ⟨0, 0⟩) = 2 ^ 24 := by
    rw [Heap.room, hcells, List.length_replicate]
  have hsize : (0x1000000 : UInt32).toNat = 2 ^ 24 := rfl
  have hlen : (0xFFFFFB : UInt32).toNat = 2 ^ 24 - 5 := rfl
  have hok : (Turn.make (.onBuffer 0x1000000 (some ⟨0, 0⟩) false 0xFFFFFB false)).Ok
      ⟨wideHeap, .empty⟩ := by
    refine ⟨?_, ?_, ?_, fun _ => ?_, by simp⟩
    · rw [hsize]; decide
    · rw [hsize, hroom]
    · rw [hlen, hroom]; decide
    · rw [hlen, hsize]; decide
  -- the string refers to a buffer of 16 MiB, and five bytes are free
  have hrun : (Turn.exec (.make (.onBuffer 0x1000000 (some ⟨0, 0⟩) false 0xFFFFFB false)))
      ⟨wideHeap, .empty⟩ =
        .ok () ⟨wideHeap, ⟨Meta.pack false false 24 (2 ^ 24 - 5), some ⟨0, 0⟩⟩⟩ := by
    have hlog : Nat.log 2 (2 ^ 24) = 24 := Nat.log_pow (by decide) _
    have hpack : (GString.ofBuffer 0x1000000 (some ⟨0, 0⟩) false 0xFFFFFB false :
        Exec Heap GString) = pure ⟨Meta.pack false false 24 (2 ^ 24 - 5), some ⟨0, 0⟩⟩ := by
      rw [GString.ofBuffer_eq, hsize, hlen, hlog, if_pos (by decide)]
    rw [Turn.exec, onHeap, Make.run, hpack]
    rfl
  -- its length and its capacity, as its meta word has them
  have hs : (⟨Meta.pack false false 24 (2 ^ 24 - 5), some ⟨0, 0⟩⟩ : GString).length =
      2 ^ 24 - 5 := by
    rw [GString.length_mk_pack]
    exact Nat.mod_eq_of_lt (by decide)
  have hcap : (⟨Meta.pack false false 24 (2 ^ 24 - 5), some ⟨0, 0⟩⟩ : GString).capacity =
      2 ^ 24 := by
    rw [GString.capacity, GString.power_mk_pack _ _ _ _ (by decide)]
  have hv : Valid ⟨wideHeap, ⟨Meta.pack false false 24 (2 ^ 24 - 5), some ⟨0, 0⟩⟩⟩ :=
    Run.leaves_of_wp (Q := Valid) (wp_turn (valid_empty rfl).1 hok) (by rw [hrun]; rfl)
  refine ⟨_, List.replicate (2 ^ 24 - 5) 0, .cons hok (by rw [hrun]; rfl) (.nil _), ?_, ?_, ?_⟩
  · rw [contents_pack, hcells, List.take_replicate, cells, List.map_replicate]
    rfl
  · rw [ListOp.apply, List.length_append, List.length_replicate]
    decide
  -- a number asks for 12 bytes more, whatever it needs
  · have htl : TooLarge (2 ^ 24 - 5 + 12) ⟨wideHeap, ⟨Meta.pack false false 24 (2 ^ 24 - 5),
        some ⟨0, 0⟩⟩⟩ := by
      refine ⟨?_, by decide⟩
      rw [hcap]
      decide
    have := appendInt_of_tooLarge hv (by rwa [hs]) 7
    rwa [hs] at this

end Runs

end Glim
