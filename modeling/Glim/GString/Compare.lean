import Glim.GString.Order
import Glim.GString.Layout
import Glim.GString.Operations
import Glim.Ldb.Batch
import Glim.Machine.Buffer
import Glim.Table.Assign

/-!
# Comparing strings

`equals` compares the bytes with `memcmp`, `operator <` with `strncmp`, which stops at a zero. Two
strings of the same length that differ only behind a common zero are neither equal nor ordered, so
a map that is ordered by `operator <` takes them for one key.

## Main definitions

* `GString.equals`, `GString.less`: the comparisons, over the memory of the strings
* `Holds`: a string of any representation, and its bytes
* `Confused`: the keys that `operator <` does not tell apart
* `OrdersKeys`: `operator <` is a strict total order that agrees with `equals`

## Main results

* `equals_apply`, `less_apply`: what the comparisons compute
* `ordersKeys_iff`: `operator <` orders exactly the strings that it does not confuse
-/

namespace Glim

open Machine Exec Text Table

/-! ## The comparisons -/

/-- `memcmp (p, q, n) == 0`. -/
def memcmpEq (p q : Option Ptr) (n : ℕ) : Exec Heap Bool := do
  let a ← Heap.load p n
  let b ← Heap.load q n
  if none ∈ a ∨ none ∈ b then fail .outOfBounds else pure (a = b)

/-- `strncmp (p, q, n)`, which reads no byte behind a zero or a difference. -/
def strncmpAt : ℕ → Option Ptr → Option Ptr → Exec Heap Ordering
  | 0, _, _ => pure .eq
  | n + 1, p, q => do
    let a ← Heap.loadByte p
    let b ← Heap.loadByte q
    if a < b then pure .lt
    else if b < a then pure .gt
    else if a = 0 then pure .eq
    else strncmpAt n (Ptr.shift p 1) (Ptr.shift q 1)

namespace GString

/-- `equals (gs)`. -/
def equals (s gs : GString) : Exec Heap Bool := do
  let llen := s.length
  let olen := gs.length
  if llen ≠ olen then pure false else memcmpEq s.buf gs.buf llen

/-- `operator < (gs)`. -/
def less (s gs : GString) : Exec Heap Bool := do
  let len1 := s.length
  let len2 := gs.length
  if len1 = len2 then do
    let cmp ← strncmpAt len1 s.buf gs.buf
    pure (cmp = .lt)
  else do
    let cmp ← strncmpAt (min len1 len2) s.buf gs.buf
    if cmp ≠ .eq then pure (cmp = .lt) else pure (len1 < len2)

end GString

/-! ## What they compute -/

/-- The string holds the bytes, wherever its buffer is. -/
structure Holds (h : Heap) (s : GString) (bytes : List UInt8) : Prop where
  length_eq : s.length = bytes.length
  contents : Object.contents ⟨h, s⟩ = cells bytes

section Compute

variable {h : Heap} {s t : GString} {p q : Option Ptr} {a b : List UInt8} {n : ℕ}

theorem Holds.take_cellsAt (hs : Holds h s a) : (h.cellsAt s.buf).take a.length = cells a := by
  rw [← hs.length_eq]
  exact hs.contents

theorem length_le_room (ha : (h.cellsAt p).take n = cells a) (hn : a.length = n) :
    n ≤ h.room p := by
  have hl := congrArg List.length ha
  rw [List.length_take, cells, List.length_map, hn] at hl
  rw [Heap.room]
  omega

theorem load_apply (ha : (h.cellsAt p).take n = cells a) (hn : a.length = n) :
    Heap.load p n h = .ok (cells a) h := by
  rw [Heap.load, if_pos (length_le_room ha hn), ha]

theorem none_notMem_cells (a : List UInt8) : none ∉ cells a := by
  simp [cells]

theorem cells_inj : cells a = cells b ↔ a = b :=
  ⟨fun h => List.map_injective_iff.mpr (Option.some_injective _) h, congrArg cells⟩

/-- `memcmp` compares the bytes. -/
theorem memcmpEq_apply (ha : (h.cellsAt p).take n = cells a) (hb : (h.cellsAt q).take n = cells b)
    (hna : a.length = n) (hnb : b.length = n) : memcmpEq p q n h = .ok (decide (a = b)) h := by
  have hsome : ¬ (none ∈ cells a ∨ none ∈ cells b) := by
    rintro (hmem | hmem)
    · exact none_notMem_cells a hmem
    · exact none_notMem_cells b hmem
  simp only [memcmpEq, bind, load_apply ha hna, load_apply hb hnb, if_neg hsome, cells_inj]
  rfl

/-- The bytes in memory from a pointer on, and from the one behind it. -/
theorem cellsAt_cons {c : UInt8} (hc : (h.cellsAt p).take (n + 1) = cells (c :: a)) :
    Heap.loadByte p h = .ok c h ∧ (h.cellsAt (Ptr.shift p 1)).take n = cells a := by
  have hsplit : ∃ rest, h.cellsAt p = some c :: rest := by
    cases hcells : h.cellsAt p with
    | nil => rw [hcells] at hc; cases hc
    | cons x rest =>
      rw [hcells, List.take_succ_cons] at hc
      exact ⟨rest, by rw [(List.cons.inj hc).1]⟩
  obtain ⟨rest, hrest⟩ := hsplit
  rw [hrest, List.take_succ_cons] at hc
  have hload : Heap.load p 1 h = .ok [some c] h := load_apply (a := [c]) (by rw [hrest]; rfl) rfl
  constructor
  · simp only [Heap.loadByte, bind, hload]
    rfl
  · rw [Heap.cellsAt_shift, hrest]
    exact (List.cons.inj hc).2

/-- `strncmp` in memory. -/
theorem strncmpAt_apply (ha : (h.cellsAt p).take n = cells (a.take n))
    (hb : (h.cellsAt q).take n = cells (b.take n)) (hna : n ≤ a.length) (hnb : n ≤ b.length) :
    strncmpAt n p q h = .ok (strncmp n a b) h := by
  induction n generalizing p q a b with
  | zero => rfl
  | succ n ih =>
    cases a with
    | nil => exact absurd hna (Nat.not_succ_le_zero n)
    | cons x a =>
      cases b with
      | nil => exact absurd hnb (Nat.not_succ_le_zero n)
      | cons y b =>
        rw [List.take_succ_cons] at ha hb
        obtain ⟨hx, ha⟩ := cellsAt_cons ha
        obtain ⟨hy, hb⟩ := cellsAt_cons hb
        have hrest := ih ha hb (Nat.le_of_succ_le_succ hna) (Nat.le_of_succ_le_succ hnb)
        simp only [strncmpAt, strncmp, bind, hx, hy]
        split_ifs
        · rfl
        · rfl
        · rfl
        · exact hrest

/-- The first bytes of a string in memory. -/
theorem Holds.take_prefix (hs : Holds h s a) (hn : n ≤ a.length) :
    (h.cellsAt s.buf).take n = cells (a.take n) := by
  have hcells := congrArg (List.take n) hs.take_cellsAt
  rwa [List.take_take, min_eq_left hn, cells, ← List.map_take] at hcells

/-- `equals` compares the bytes of the strings. -/
theorem equals_apply (hs : Holds h s a) (ht : Holds h t b) :
    s.equals t h = .ok (decide (a = b)) h := by
  rw [GString.equals, hs.length_eq, ht.length_eq]
  by_cases hlen : a.length = b.length
  · rw [if_neg (not_not_intro hlen)]
    exact memcmpEq_apply hs.take_cellsAt (by rw [hlen]; exact ht.take_cellsAt) rfl hlen.symm
  · have hne : a ≠ b := fun heq => hlen (congrArg List.length heq)
    rw [if_pos hlen, decide_eq_false hne]
    rfl

/-- `operator <` compares what `strncmp` sees of the strings, and then their lengths. -/
theorem less_apply (hs : Holds h s a) (ht : Holds h t b) :
    s.less t h = .ok (gstringLess a b) h := by
  have hmin : ∀ n, n ≤ a.length → n ≤ b.length → strncmpAt n s.buf t.buf h =
      .ok (strncmp n a b) h := fun n hna hnb =>
    strncmpAt_apply (hs.take_prefix hna) (ht.take_prefix hnb) hna hnb
  rw [GString.less, gstringLess, hs.length_eq, ht.length_eq]
  by_cases hlen : a.length = b.length
  · rw [if_pos hlen, if_pos hlen]
    simp only [bind, hmin a.length le_rfl hlen.le]
    rfl
  · rw [if_neg hlen, if_neg hlen]
    simp only [bind, hmin _ (min_le_left _ _) (min_le_right _ _)]
    cases strncmp (min a.length b.length) a b <;> rfl

end Compute

/-! ## The order -/

/-- Exactly one of three. -/
def ExactlyOne (p q r : Prop) : Prop := p ∧ ¬ q ∧ ¬ r ∨ ¬ p ∧ q ∧ ¬ r ∨ ¬ p ∧ ¬ q ∧ r

/-- Different keys of the same length that are the same up to a common zero. -/
def Confused (a b : List UInt8) : Prop := a ≠ b ∧ a.length = b.length ∧ cstrPart a = cstrPart b

instance (a b : List UInt8) : Decidable (Confused a b) := inferInstanceAs (Decidable (_ ∧ _))

/-- `operator <` is a strict total order on the strings, consistent with `operator ==`, and a map
with such keys has exactly one entry for each of them, as has the map of the triggers. -/
structure OrdersKeys (ν : Type) (h : Heap) (strs : List (GString × List UInt8)) : Prop where
  trichotomy : ∀ s ∈ strs, ∀ t ∈ strs, ExactlyOne (s.1.less t.1 h = .ok true h)
    (s.1.equals t.1 h = .ok true h) (t.1.less s.1 h = .ok true h)
  trans : ∀ r ∈ strs, ∀ s ∈ strs, ∀ t ∈ strs, r.1.less s.1 h = .ok true h →
    s.1.less t.1 h = .ok true h → r.1.less t.1 h = .ok true h
  map : ∀ puts : List (List UInt8 × ν), (∀ put ∈ puts, ∃ s ∈ strs, s.2 = put.1) →
    IsMapOf puts (assignAll gstringLess puts)
  triggers : ∀ db (regs : List (List UInt8 × Trigger)), (∀ reg ∈ regs, ∃ s ∈ strs, s.2 = reg.1) →
    IsMapOf regs (registered db regs).triggers

section Order

variable {h : Heap} {strs : List (GString × List UInt8)} {s t : GString} {a b : List UInt8}

theorem Holds.less_iff (hs : Holds h s a) (ht : Holds h t b) :
    s.less t h = .ok true h ↔ lessKey a < lessKey b := by
  rw [less_apply hs ht, ← gstringLess_iff]
  simp

theorem Holds.equals_iff (hs : Holds h s a) (ht : Holds h t b) :
    s.equals t h = .ok true h ↔ a = b := by
  rw [equals_apply hs ht]
  simp

theorem lessKey_eq_iff : lessKey a = lessKey b ↔ cstrPart a = cstrPart b ∧ a.length = b.length := by
  rw [lessKey, lessKey, toLex_inj, Prod.mk.injEq]

/-- Different keys have different ranks unless they are confused. -/
theorem eq_of_lessKey_eq (hnot : ¬ Confused a b) (h : lessKey a = lessKey b) : a = b := by
  by_contra hne
  obtain ⟨hpart, hlen⟩ := lessKey_eq_iff.mp h
  exact hnot ⟨hne, hlen, hpart⟩

/-- Of two strings that are not confused exactly one is less, or they are equal. -/
theorem exactlyOne_of_not_confused (hnot : ¬ Confused a b) :
    ExactlyOne (lessKey a < lessKey b) (a = b) (lessKey b < lessKey a) := by
  rcases lt_trichotomy (lessKey a) (lessKey b) with hlt | heq | hgt
  · refine Or.inl ⟨hlt, fun h => ?_, lt_asymm hlt⟩
    rw [h] at hlt
    exact lt_irrefl _ hlt
  · exact Or.inr (Or.inl ⟨heq.not_lt, eq_of_lessKey_eq hnot heq, heq.not_gt⟩)
  · refine Or.inr (Or.inr ⟨lt_asymm hgt, fun h => ?_, hgt⟩)
    rw [h] at hgt
    exact lt_irrefl _ hgt

/-- The triggers are the entries of a map that is ordered by `operator <`. -/
theorem triggers_registered (db : Database) (regs : List (List UInt8 × Trigger)) :
    (registered db regs).triggers = assignAll gstringLess regs := by
  induction regs using List.reverseRecOn with
  | nil => rfl
  | append_singleton regs reg ih =>
    rw [registered_append_singleton, assignAll_append_singleton, ← ih]
    rfl

/-- What `operator <` ranks the keys by. -/
theorem less_rank (a b : List UInt8) : gstringLess a b = true ↔ lessKey a < lessKey b :=
  gstringLess_iff

/-- A map whose keys are not confused has one entry for each of them. -/
theorem isMapOf_of_not_confused {ν : Type} {puts : List (List UInt8 × ν)}
    (hnot : ∀ p ∈ puts, ∀ q ∈ puts, ¬ Confused p.1 q.1) :
    IsMapOf puts (assignAll gstringLess puts) :=
  isMapOf_assignAll less_rank fun p hp q hq =>
    eq_of_lessKey_eq (hnot p hp q hq)

/-- `operator <` is a strict total order on strings, consistent with `operator ==`, if and only if
it confuses no two of them. -/
theorem ordersKeys_iff {ν : Type} [Inhabited ν] (hstrs : ∀ s ∈ strs, Holds h s.1 s.2) :
    OrdersKeys ν h strs ↔ ∀ s ∈ strs, ∀ t ∈ strs, ¬ Confused s.2 t.2 := by
  constructor
  · rintro hord s hs t ht ⟨hne, hlen, hpart⟩
    have hone := hord.trichotomy s hs t ht
    have hrank : lessKey s.2 = lessKey t.2 := lessKey_eq_iff.mpr ⟨hpart, hlen⟩
    rw [(hstrs s hs).less_iff (hstrs t ht), (hstrs t ht).less_iff (hstrs s hs),
      (hstrs s hs).equals_iff (hstrs t ht), hrank] at hone
    rcases hone with ⟨hlt, -⟩ | ⟨-, heq, -⟩ | ⟨-, -, hlt⟩
    · exact lt_irrefl _ hlt
    · exact hne heq
    · exact lt_irrefl _ hlt
  · intro hnot
    -- the keys of a map are bytes of the strings
    have hkeys : ∀ {ν : Type} {puts : List (List UInt8 × ν)},
        (∀ put ∈ puts, ∃ s ∈ strs, s.2 = put.1) →
        ∀ p ∈ puts, ∀ q ∈ puts, ¬ Confused p.1 q.1 := by
      intro ν puts hputs p hp q hq
      obtain ⟨s, hs, hsp⟩ := hputs p hp
      obtain ⟨t, ht, htq⟩ := hputs q hq
      rw [← hsp, ← htq]
      exact hnot s hs t ht
    refine ⟨fun s hs t ht => ?_, fun r hr s hs t ht hrs hst => ?_, fun puts hputs => ?_,
      fun db regs hregs => ?_⟩
    · rw [(hstrs s hs).less_iff (hstrs t ht), (hstrs t ht).less_iff (hstrs s hs),
        (hstrs s hs).equals_iff (hstrs t ht)]
      exact exactlyOne_of_not_confused (hnot s hs t ht)
    · rw [(hstrs _ ‹_›).less_iff (hstrs _ ‹_›)] at hrs hst ⊢
      exact hrs.trans hst
    · exact isMapOf_of_not_confused (hkeys hputs)
    · rw [triggers_registered]
      exact isMapOf_of_not_confused (hkeys hregs)

/-- Memory that holds two texts of two bytes each. -/
def textsHeap (a b a' b' : UInt8) : Heap :=
  ⟨[⟨cells [a, b], .foreign, true⟩, ⟨cells [a', b'], .foreign, true⟩], 0, []⟩

/-- The string literal in a block of two bytes. -/
def literalIn (block : ℕ) : GString := .reference (some ⟨block, 0⟩) 2 true

theorem holds_literalIn (a b a' b' : UInt8) :
    Holds (textsHeap a b a' b') (literalIn 0) [a, b] ∧
      Holds (textsHeap a b a' b') (literalIn 1) [a', b'] := by
  have hlen : ∀ block, (literalIn block).length = 2 := fun _ => GString.length_mk_pack ..
  constructor
  · exact ⟨hlen 0, by rw [Object.contents, hlen 0]; rfl⟩
  · exact ⟨hlen 1, by rw [Object.contents, hlen 1]; rfl⟩

/-- The texts `ba` and `bb` are ordered. -/
theorem ordersKeys_ba_bb :
    OrdersKeys ℕ (textsHeap 98 97 98 98) [(literalIn 0, [98, 97]), (literalIn 1, [98, 98])] := by
  refine (ordersKeys_iff fun s hs => ?_).mpr (by decide)
  obtain ⟨h₀, h₁⟩ := holds_literalIn 98 97 98 98
  simp only [List.mem_cons, List.not_mem_nil, or_false] at hs
  rcases hs with rfl | rfl
  · exact h₀
  · exact h₁

/-- Two texts that begin with a zero are neither equal nor ordered, and share an entry. -/
theorem zeros_confused :
    ∃ (h : Heap) (s t : GString), Holds h s [0, 97] ∧ Holds h t [0, 98] ∧
      s.less t h = .ok false h ∧ s.equals t h = .ok false h ∧ t.less s h = .ok false h ∧
      ∀ db v, ¬ IsMapOf [([0, 97], v), ([0, 98], v)]
        (registered db [([0, 97], v), ([0, 98], v)]).triggers := by
  obtain ⟨hs, ht⟩ := holds_literalIn 0 97 0 98
  refine ⟨_, _, _, hs, ht, ?_, ?_, ?_, fun db v => ?_⟩
  · rw [less_apply hs ht]
    rfl
  · rw [equals_apply hs ht]
    rfl
  · rw [less_apply ht hs]
    rfl
  · have hne : ([0, 97] : List UInt8) ≠ [0, 98] := by decide
    rw [triggers_registered]
    exact not_isMapOf_assignAll less_rank hne rfl v

end Order

end Glim
