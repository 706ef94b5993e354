import Glim.GString.Contents
import Glim.Machine.Run

/-!
# Runs of one string

A string is made by a constructor and then changed by calls, while the rest of the
program goes on around it. A run follows one string through all this. It stays valid as
long as every step meets a condition on its arguments and on the state before it; the
conditions on `reserve`, on the appending methods and on copy assignment leave out what
the code gets wrong.

## Main definitions

* `Make`: a call of a constructor
* `Turn`: a step of a run
* `Turn.Ok`: the steps that are safe

## Main results

* `wp_make`, `wp_edit`, `wp_turn`: a safe step stays in bounds and leaves a valid string
* `valid_of_run`: so every string that safe steps lead to is valid, and `reserve` keeps its
  contents exactly for the safe sizes
* `reserve_cuts`: `reserve` cuts a string of exact size
-/

namespace Glim

open Machine Exec Method Text

/-! ## Constructors -/

/-- A call of a constructor, with its arguments. -/
inductive Make where
  | empty
  | onBuffer (bufSize : UInt32) (buf : Option Ptr) (free : Bool) (length : UInt32) (ref : Bool)
  | reference (buf : Option Ptr) (length : UInt32) (ref : Bool)
  | ofCString (chars : Option Ptr)
  | ofChars (chars : Option Ptr) (length : ℕ)
  | ofString (data : Option Ptr) (length : ℕ)
  | copy (g : GString)
  | move (g : GString)
  | ref (g : GString)
  | view (g : GString) (pos : UInt32) (count : Int32)
  | clone (g : GString)
  deriving DecidableEq, Repr

namespace Make

/-- Make the string. -/
def run : Make → Exec Heap GString
  | empty => pure GString.empty
  | onBuffer size buf free n r => GString.ofBuffer size buf free n r
  | reference buf n r => pure (GString.reference buf n r)
  | ofCString chars => GString.ofCString chars
  | ofChars chars n => GString.ofChars chars n
  | ofString data n => GString.ofString data n
  | copy g => GString.copy g
  | move g => pure g
  | ref g => GString.ref g
  | view g pos count => GString.view g pos count
  | clone g => GString.clone g

/-- The arguments are what they say they are, and the buffer is not too large. -/
def Ok (h : Heap) : Make → Prop
  | empty => True
  | onBuffer size buf free n _ =>
    size.toNat < 2 ^ 31 ∧ size.toNat ≤ h.room buf ∧ n.toNat ≤ h.room buf ∧
      (1 < size.toNat → n.toNat ≤ size.toNat) ∧
      (free = true → ∀ p, buf = some p → h.freeFault p = none)
  | reference buf n _ => n.toNat ≤ h.room buf
  | ofCString chars => chars ≠ none → (Heap.cstrLen (h.cellsAt chars)).isSome
  | ofChars chars n => n ≤ h.room chars
  | ofString data n => n ≤ h.room data
  | copy g => Valid ⟨h, g⟩
  | move g => Valid ⟨h, g⟩
  | ref g => Valid ⟨h, g⟩
  | view g pos count =>
    Valid ⟨h, g⟩ ∧ pos.toNat + (g.viewLength pos count).toNat ≤ g.length
  | clone g => Valid ⟨h, g⟩

/-- The cells the string is made of. -/
def cells (h : Heap) : Make → List Cell
  | empty => []
  | onBuffer _ buf _ n _ => (h.cellsAt buf).take n.toNat
  | reference buf n _ => (h.cellsAt buf).take n.toNat
  | ofCString chars => (h.cellsAt chars).take ((Heap.cstrLen (h.cellsAt chars)).getD 0)
  | ofChars chars n => (h.cellsAt chars).take n
  | ofString data n => (h.cellsAt data).take n
  | copy g => Object.contents ⟨h, g⟩
  | move g => Object.contents ⟨h, g⟩
  | ref g => Object.contents ⟨h, g⟩
  | view g pos count =>
    ((Object.contents ⟨h, g⟩).drop pos.toNat).take (g.viewLength pos count).toNat
  | clone g => Object.contents ⟨h, g⟩

end Make

section Make

variable {h : Heap}

theorem cstrLen_lt : ∀ {l : List Cell} {n : ℕ}, Heap.cstrLen l = some n → n < l.length
  | [], _, hn => by cases hn
  | none :: _, _, hn => by cases hn
  | some c :: l, n, hn => by
    rw [Heap.cstrLen] at hn
    split_ifs at hn with hc
    · rw [← Option.some.inj hn]
      exact Nat.succ_pos _
    · obtain ⟨m, hm, rfl⟩ := Option.map_eq_some_iff.mp hn
      exact Nat.succ_lt_succ (cstrLen_lt hm)

/-- A string over a buffer whose capacity is not known. -/
theorem wp_ofBuffer_zero (hoom : h.oom = []) (buf : Option Ptr) (n : UInt32) (r : Bool)
    (hn : n.toNat ≤ h.room buf) :
    wp (GString.ofBuffer 0 buf false n r)
      (fun g h' => Valid ⟨h', g⟩ ∧
        Object.contents ⟨h', g⟩ = (h.cellsAt buf).take (n.toNat % 2 ^ 24))
      (fun _ _ => False) (fun _ => False) h := by
  rw [GString.ofBuffer_eq, if_pos (by decide)]
  refine ⟨valid_pack hoom ?_ ((Nat.mod_le _ _).trans hn) (fun h => absurd ?_ h) nofun,
    contents_pack⟩
  · exact Nat.zero_le _
  · exact Nat.log_zero_right 2

/-- The cells that the length counts are all, if there are fewer than `2 ^ 24`. -/
theorem take_mod {p : Option Ptr} {n : ℕ} (hn : n ≤ h.room p)
    (hlen : ((h.cellsAt p).take n).length < 2 ^ 24) :
    (h.cellsAt p).take (n % 2 ^ 24) = (h.cellsAt p).take n := by
  have hl : ((h.cellsAt p).take n).length = n := List.length_take.trans (min_eq_left hn)
  rw [Nat.mod_eq_of_lt (hl ▸ hlen)]

/-- A constructor with sound arguments makes a valid string of the cells it is given. -/
theorem wp_make (hoom : h.oom = []) {m : Make} (hok : m.Ok h) :
    wp m.run
      (fun g h' => Valid ⟨h', g⟩ ∧
        ((m.cells h).length < 2 ^ 24 → Object.contents ⟨h', g⟩ = m.cells h))
      (fun _ _ => False) (fun _ => False) h := by
  have hempty : ∀ {cells : List Cell}, cells = [] → Valid ⟨h, .empty⟩ ∧
      (cells.length < 2 ^ 24 → Object.contents ⟨h, .empty⟩ = cells) := fun hnil =>
    ⟨(valid_empty hoom).1, fun _ => (valid_empty hoom).2.trans hnil.symm⟩
  -- a specification that counts the cells modulo `2 ^ 24`
  have hmod : ∀ {x : Exec Heap GString} {p : Option Ptr} {n : ℕ}, n ≤ h.room p →
      wp x (fun g h' => Valid ⟨h', g⟩ ∧
        Object.contents ⟨h', g⟩ = (h.cellsAt p).take (n % 2 ^ 24)) (fun _ _ => False)
        (fun _ => False) h →
      wp x (fun g h' => Valid ⟨h', g⟩ ∧ (((h.cellsAt p).take n).length < 2 ^ 24 →
        Object.contents ⟨h', g⟩ = (h.cellsAt p).take n)) (fun _ _ => False) (fun _ => False) h :=
    fun hn hx => wp_mono hx (fun _ _ hg => ⟨hg.1, fun hl => hg.2.trans (take_mod hn hl)⟩)
      (fun _ _ => id) fun _ => id
  cases m with
  | empty => exact hempty rfl
  | onBuffer size buf free n r =>
    obtain ⟨h31, hsize, hn, hle, hfree⟩ := hok
    have hlog : Nat.log 2 size.toNat < 31 := GString.log_two_lt_of_lt (by decide) h31
    refine hmod hn ?_
    rw [Make.run, GString.ofBuffer_eq, if_pos h31]
    refine ⟨valid_pack hoom (by omega) ((Nat.mod_le _ _).trans hn) (fun hpos => ⟨?_, ?_⟩) hfree,
      contents_pack⟩
    · have hne : size.toNat ≠ 0 := fun h0 => hpos (by rw [h0, Nat.log_zero_right])
      exact (Nat.pow_log_le_self 2 hne).trans hsize
    · have hone : 1 < size.toNat := by
        by_contra h1
        exact hpos (Nat.log_eq_zero_iff.mpr (Or.inl (by omega)))
      have hsucc := Nat.lt_pow_succ_log_self (b := 2) (by decide) size.toNat
      rw [pow_succ] at hsucc
      have := Nat.mod_le n.toNat (2 ^ 24)
      have := hle hone
      omega
  | reference buf n r =>
    exact hmod hok ⟨valid_pack hoom (Nat.zero_le _) ((Nat.mod_le _ _).trans hok)
      (fun h => absurd rfl h) (by simp), contents_pack⟩
  | ofCString chars =>
    simp only [Make.run, GString.ofCString, wp_ite, wp_pure, wp_bind]
    refine ⟨fun hnull => hempty ?_, fun hnull => ?_⟩
    · rw [hnull, Make.cells, Heap.cellsAt_none, List.take_nil]
    · obtain ⟨n, hn⟩ := Option.isSome_iff_exists.mp (hok hnull)
      have hstrlen : wp (Heap.strlen chars) (fun m h' => m = n ∧ h' = h) (fun _ _ => False)
          (fun _ => False) h := by
        simp [wp, Heap.strlen, hn]
      refine wp_mono hstrlen (fun m h' hm => ?_) (fun _ _ => id) fun _ => id
      obtain ⟨rfl, rfl⟩ := hm
      have hle : m ≤ h'.room chars := (cstrLen_lt hn).le
      rw [Make.cells, hn, Option.getD_some]
      refine ⟨fun h0 => hempty ?_, fun _ => hmod hle (wp_duplicate hoom hle)⟩
      rw [h0, List.take_zero]
  | ofChars chars n => exact hmod hok (wp_ofChars hoom hok)
  | ofString data n =>
    refine (wp_ite _ _).mpr ⟨fun _ => hmod hok (wp_duplicate hoom hok), fun h0 => hempty ?_⟩
    rw [Make.cells, Classical.not_not.mp h0, List.take_zero]
  | copy g =>
    simp only [Make.run, GString.copy, wp_ite, wp_pure, wp_bind, wp_when, wp_raise]
    refine ⟨fun _ => ⟨fun _ => ⟨hok, fun _ => rfl⟩, fun _ => ?_⟩, fun h0 => hempty ?_⟩
    · refine Heap.wp_malloc_of_mem_oom hoom ⟨by simp, fun _ => ?_⟩
      refine wp_memcpy_extend hok.length_le ?_
      obtain ⟨hvalid, hcontents⟩ := valid_extend hoom (length_contents hok) (r := false)
      refine ⟨hvalid, fun _ => hcontents.trans ?_⟩
      rw [Nat.mod_eq_of_lt g.length_lt, Object.contents, List.take_take, min_self]
      rfl
    · rw [Make.cells, Object.contents, Classical.not_not.mp h0, List.take_zero]
  | move g => exact ⟨hok, fun _ => rfl⟩
  | ref g =>
    have hlen := UInt32.toNat_ofNat_of_le (n := g.length) (by have := g.length_lt; omega)
    have := wp_ofBuffer_zero hoom g.buf (UInt32.ofNat g.length) true
      (by rw [hlen]; exact hok.length_le)
    rw [hlen] at this
    exact hmod hok.length_le this
  | view g pos count =>
    obtain ⟨hv, hin⟩ := hok
    have hle : g.length ≤ h.room g.buf := hv.length_le
    have hroom : (g.viewLength pos count).toNat ≤ h.room (g.data pos.toNat) := by
      rw [GString.data, Heap.room_shift]
      omega
    have hcells : Make.cells h (.view g pos count) =
        (h.cellsAt (g.data pos.toNat)).take (g.viewLength pos count).toNat := by
      rw [Make.cells, Object.contents, List.drop_take, List.take_take, GString.data,
        Heap.cellsAt_shift, min_eq_left (by simp only; omega)]
    rw [hcells]
    exact hmod hroom (wp_ofBuffer_zero hoom _ _ _ hroom)
  | clone g => exact hmod hok.length_le (wp_ofChars hoom hok.length_le)

end Make

/-! ## Calls -/

/-- The arguments of the call are safe for the receiver. -/
def Edit.Ok (o : Object) : Edit → Prop
  | reserve n => ReserveOk n o
  | append64 iv base bytes => Append64Ok iv base bytes o
  | append cstr clen => AppendOk cstr clen.toNat o
  | parseFrom cstr clen =>
    0 ≤ clen.toInt → clen.toInt ≤ Meta.LENGTH_MASK.toNat →
      AppendOk cstr clen.toUInt32.toNat ⟨o.heap, o.str.setLength 0⟩
  | appendString data length =>
    length ≤ o.heap.room data ∧ AppendOk data (UInt32.ofNat length).toNat o
  | appendCString cstr => cstr ≠ none → AppendCStringOk cstr o
  | appendNetstring cstr clen => AppendNetstringOk cstr clen o
  | readNetstring stream => ReadNetstringOk stream o
  | setAt index _ => index.toNat < o.str.length
  | appendChar _ | appendInt _ | appendLong _ | appendLongLong _ | appendDouble _ | appendTime _
  | cStr | clear | erase .. | eraseRange .. | owned => True

section Edit

variable {o : Object}

/-- The specification of a method, without the contents. -/
theorem wp_valid {α : Type} {m : Method α} {Q : α → Object → Prop} {E : String → Object → Prop}
    (h : wp m Q E (fun _ => False) o) (hQ : ∀ a o', Q a o' → Valid o')
    (hE : ∀ e o', E e o' → Valid o') :
    wp m (fun _ => Valid) (fun _ => Valid) (fun _ => False) o :=
  wp_mono h hQ hE fun _ => id

theorem Refused.valid (hv : Valid o) {n : UInt32} (e : String) (o' : Object)
    (h : Refused n o e o') : Valid o' := h.1 ▸ hv

/-- A safe call without a gstring argument stays in bounds and leaves a valid string. -/
theorem wp_edit (hv : Valid o) {e : Edit} (hok : e.Ok o) :
    wp e.run (fun _ => Valid) (fun _ => Valid) (fun _ => False) o := by
  -- most edits append, or refuse to and leave the string alone
  have happended : ∀ {n : UInt32} {m k : ℕ} {new : List Cell} {x : Method Unit},
      wp x (fun _ => Appended m new k o) (Refused n o) (fun _ => False) o →
        wp x (fun _ => Valid) (fun _ => Valid) (fun _ => False) o := fun h =>
    wp_valid h (fun _ _ h => h.valid) (Refused.valid hv)
  cases e with
  | reserve n => exact wp_valid (wp_reserve hv hok) (fun _ _ h => h.valid) (Refused.valid hv)
  | append64 iv base bytes => exact happended (wp_append64 hv hok)
  | appendChar ch => exact happended (wp_appendChar hv ch)
  | append cstr clen => exact happended (wp_append hv hok)
  | parseFrom cstr clen => exact (wp_map _).mpr (wp_parseFrom hv hok)
  | appendString data length => exact happended (wp_append hv hok.2)
  -- nothing is appended for a null pointer
  | appendCString cstr =>
    refine wp_valid (wp_appendCString hv hok) (fun _ o' h => ?_) fun e o' h => ?_
    · rcases h with ⟨-, rfl⟩ | ⟨n, -, h⟩
      · exact hv
      · exact h.valid
    · obtain ⟨n, -, h⟩ := h
      exact h.valid hv
  | appendInt iv => exact happended (wp_appendInt hv iv)
  | appendLong iv => exact happended (wp_appendLong hv iv)
  | appendLongLong iv => exact happended (wp_appendLong hv iv)
  | appendDouble text =>
    exact wp_valid (wp_appendDouble hv text) (fun _ _ h => h) fun _ _ h => h ▸ hv
  | appendTime text =>
    refine wp_appendTime text 12 hv (by omega) (fun _ => by omega) fun h => ?_
    omega
  | appendNetstring cstr clen =>
    refine wp_valid (wp_appendNetstring hv hok) (fun _ o' h => ?_) fun _ _ h => h.1
    obtain ⟨o₁, o₂, o₃, -, -, -, h⟩ := h
    exact h.valid
  | readNetstring stream =>
    exact (wp_map _).mpr (wp_valid (wp_readNetstring hv hok) (fun _ _ h => h.1) fun _ _ h => h.1)
  | cStr => exact (wp_map _).mpr (wp_valid (wp_cStr hv) (fun _ _ h => h.1) fun _ _ h => h.elim)
  | clear => exact (wp_clear hv).1
  | erase pos count =>
    exact wp_valid (wp_erase hv pos count) (fun _ _ h => h.1) fun _ _ h => h.elim
  | eraseRange ipos count =>
    exact (wp_when _ _).mpr ⟨fun _ => wp_valid (wp_erase hv _ _) (fun _ _ h => h.1)
      fun _ _ h => h.elim, fun _ => hv⟩
  | setAt index ch =>
    exact wp_valid (wp_setAt hv hok ch) (fun _ _ h => h.1) fun _ _ h => h.elim
  | owned => exact wp_valid (wp_owned hv) (fun _ _ h => h.1) fun _ _ h => h.elim

end Edit

/-! ## Runs -/

/-- A step of the run of a string: a call, the making of another string that the run goes on with,
or what the rest of the program does to the memory. -/
inductive Turn where
  | call (c : Call)
  | make (m : Make)
  | env (h : Heap)
  deriving DecidableEq, Repr

/-- What a step does to the string. -/
def Turn.exec : Turn → Exec Object Unit
  | call c => c.run
  | make m => do
    let g ← onHeap m.run
    modifyStr fun _ => g
  | env h => modify fun o => { o with heap := h }

/-- The rest of the program leaves the buffer of the string alone. -/
structure EnvOk (h : Heap) (o : Object) : Prop where
  block : ∀ p, o.str.buf = some p → h.blocks[p.block]? = o.heap.blocks[p.block]?
  allocates : h.oom = []

/-- The steps that are safe. -/
def Turn.Ok (t : Turn) (o : Object) : Prop :=
  match t with
  | call (.edit e) => e.Ok o
  | call (.appendGString gs) => Valid ⟨o.heap, gs⟩ ∧ AppendOk gs.buf gs.length o
  | call (.copyAssign g) => CopyAssignOk g o
  | call (.moveAssign g) => Apart g o
  | make m => m.Ok o.heap
  | env h => EnvOk h o

section Runs

variable {o : Object} {h : Heap}

theorem EnvOk.cellsAt (he : EnvOk h o) : h.cellsAt o.str.buf = o.heap.cellsAt o.str.buf := by
  cases hb : o.str.buf with
  | none => rfl
  | some p => exact Heap.cellsAt_congr (he.block p hb)

theorem EnvOk.valid (he : EnvOk h o) (hv : Valid o) :
    Valid ⟨h, o.str⟩ ∧ Object.contents ⟨h, o.str⟩ = o.contents := by
  have hroom : Object.room ⟨h, o.str⟩ = o.room := by
    simp only [Object.room, Heap.room, he.cellsAt]
  refine ⟨⟨hv.power_le, ?_, ?_, hv.length_lt, fun p hp => ?_, he.allocates⟩, ?_⟩
  · rw [hroom]
    exact hv.length_le
  · rw [hroom]
    exact hv.capacity_le
  · have hblock := he.block p (GString.ownBuf_eq_some_iff.mp hp).2
    rw [Heap.freeFault_congr (h := o.heap) (by simp only [Heap.status, hblock])]
    exact hv.freeable p hp
  · simp only [Object.contents, he.cellsAt]

/-- Appending another string. -/
theorem wp_appendGString (hv : Valid o) {gs : GString} (hok : AppendOk gs.buf gs.length o) :
    wp (GString.appendGString gs)
      (fun _ => Appended (o.str.length + gs.length) (Object.contents ⟨o.heap, gs⟩) gs.length o)
      (Refused (UInt32.ofNat o.str.length + UInt32.ofNat gs.length) o) (fun _ => False) o := by
  have hlen := UInt32.toNat_ofNat_of_le (n := gs.length) (by have := gs.length_lt; omega)
  have hok' : AppendOk gs.buf (UInt32.ofNat gs.length).toNat o := by rwa [hlen]
  have happend := wp_append hv hok'
  rwa [hlen] at happend

/-- A safe step stays in bounds and leaves a valid string. -/
theorem wp_turn (hv : Valid o) {t : Turn} (hok : t.Ok o) :
    wp t.exec (fun _ => Valid) (fun _ => Valid) (fun _ => False) o := by
  cases t with
  | call c =>
    cases c with
    | edit e => exact wp_edit hv hok
    | appendGString gs =>
      exact wp_valid (wp_appendGString hv hok.2) (fun _ _ h => h.valid) (Refused.valid hv)
    | copyAssign g =>
      exact wp_valid (wp_copyAssign hv hok) (fun _ _ h => h.1) fun _ _ h => h.elim
    | moveAssign g =>
      exact wp_valid (wp_moveAssign hv hok) (fun _ _ h => h.1) fun _ _ h => h.elim
  | make m =>
    simp only [Turn.exec, onHeap, modifyStr, wp_bind, wp_zoom, wp_modify]
    exact wp_mono (wp_make hv.allocates hok) (fun _ _ h => h.1) (fun _ _ h => h.elim) fun _ => id
  | env h => exact (EnvOk.valid hok hv).1

/-- A string that safe steps lead to is covered by its buffer, `reserve` makes room and keeps the
contents for exactly the safe sizes, unless it throws, and no safe step goes out of bounds. -/
theorem valid_of_run {ts : List Turn} (hoom : h.oom = [])
    (hr : Run Turn.exec Turn.Ok ⟨h, .empty⟩ ts o) :
    o.str.length ≤ o.room ∧ (1 < o.str.capacity → o.str.capacity ≤ o.room) ∧
      (∀ n, ReserveOk n o ↔
        wp (GString.reserve n) (fun _ o' => o'.contents = o.contents ∧ n.toNat ≤ o'.str.capacity)
          (fun _ o' => o' = o) (fun _ => False) o) ∧
      ∀ t : Turn, t.Ok o → ∀ u, t.exec o ≠ .fault u := by
  have hv : Valid o := hr.invariant
    (fun t o o' hv hok hl => Run.leaves_of_wp (Q := Valid) (wp_turn hv hok) hl) (valid_empty hoom).1
  refine ⟨hv.length_le, hv.capacity_le, fun n => (reserve_iff hv).symm, fun t hok u hu => ?_⟩
  have hwp := wp_turn hv hok
  simp [wp, hu] at hwp

/-- Memory that holds the text `"foo"`. -/
def fooHeap : Heap := ⟨[⟨Glim.cells [102, 111, 111], .foreign, true⟩], 0, []⟩

/-- A string of exact size that grows before a number is appended. -/
theorem valid_of_grown_run :
    ∃ o, Run.execAll Turn.exec [.make (.ofChars (some ⟨0, 0⟩) 3), .call (.edit (.reserve 4)),
        .call (.edit (.appendInt 7))] ⟨fooHeap, .empty⟩ = some o ∧
      o.str.capacity = 16 ∧ o.str.capacity ≤ o.room := by
  have hmake : (Turn.make (.ofChars (some ⟨0, 0⟩) 3)).Ok ⟨fooHeap, .empty⟩ := by
    show 3 ≤ fooHeap.room (some ⟨0, 0⟩)
    decide
  have hreserve : ∀ o : Object, o.str.length ≤ 4 → (Turn.call (.edit (.reserve 4))).Ok o :=
    fun o ho => ReserveOk.of_length_le (by decide) ho
  have happend : ∀ o, (Turn.call (.edit (.appendInt 7))).Ok o := fun _ => trivial
  exact ⟨_, rfl, by decide, (valid_of_run (h := fooHeap) rfl (.cons hmake rfl
    (.cons (hreserve _ (by decide)) rfl (.cons (happend _) rfl (.nil _))))).2.1 (by decide)⟩

/-- A string of exact size is cut when less is reserved than it holds. -/
theorem reserve_cuts :
    ∃ o, Run Turn.exec (fun _ _ => True) ⟨fooHeap, .empty⟩
        [.make (.ofChars (some ⟨0, 0⟩) 3), .call (.edit (.reserve 1))] o ∧
      o.str.length = 3 ∧ o.room = 1 := by
  have hrun : ∃ o, Run.execAll Turn.exec [.make (.ofChars (some ⟨0, 0⟩) 3),
      .call (.edit (.reserve 1))] ⟨fooHeap, .empty⟩ = some o ∧ o.str.length = 3 ∧ o.room = 1 :=
    ⟨_, rfl, by decide, by decide⟩
  obtain ⟨o, ho, hcut⟩ := hrun
  exact ⟨o, Run.of_execAll (fun _ _ _ => trivial) ho, hcut⟩

end Runs

end Glim
