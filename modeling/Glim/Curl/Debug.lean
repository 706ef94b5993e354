import Glim.GString.Netstring

/-!
# Debug messages

The listener of `debugListenerF` gets a text in a string on the stack, of 256 bytes at first, which
is filled byte by byte. A prefix begins the text and is to follow every newline, but not the last
byte. The code looks one byte too far ahead: a newline that is followed by a single byte gets none.

## Main definitions

* `marked`: a text with a prefix in its lines
* `debugListenerF`: what the listener is called with
* `MarksLines`: every line is marked, and nothing else is changed

## Main results

* `wp_debugListenerF`: the text for every kind of message
* `marked_two_eq_iff`: when looking one byte too far ahead makes no difference
* `marksLines_iff`: when every line is marked
-/

namespace Glim

open Machine Exec Method Text

/-! ## Marking lines -/

/-- `'\n'` -/
def newline : UInt8 := 10

/-- The text with `pre` directly after every newline that is followed by at least `ahead` bytes. -/
def marked (pre : List UInt8) (ahead : ℕ) : List UInt8 → List UInt8
  | [] => []
  | c :: rest =>
    c :: ((if c = newline ∧ ahead ≤ rest.length then pre else []) ++ marked pre ahead rest)

section Marked

variable {pre bytes : List UInt8} {ahead ahead' : ℕ}

theorem marked_cons (pre : List UInt8) (ahead : ℕ) (c : UInt8) (rest : List UInt8) :
    marked pre ahead (c :: rest) =
      [c] ++ ((if c = newline ∧ ahead ≤ rest.length then pre else []) ++
        marked pre ahead rest) := rfl

/-- Looking further ahead inserts less. -/
theorem length_marked_le (pre : List UInt8) (h : ahead ≤ ahead') (bytes : List UInt8) :
    (marked pre ahead' bytes).length ≤ (marked pre ahead bytes).length := by
  induction bytes with
  | nil => exact le_rfl
  | cons c rest ih =>
    have hinsert : (if c = newline ∧ ahead' ≤ rest.length then pre else []).length ≤
        (if c = newline ∧ ahead ≤ rest.length then pre else []).length := by
      by_cases hc : c = newline ∧ ahead' ≤ rest.length
      · rw [if_pos hc, if_pos ⟨hc.1, h.trans hc.2⟩]
      · rw [if_neg hc]
        exact Nat.zero_le _
    simp only [marked, List.length_cons, List.length_append]
    omega

/-- Looking one byte too far ahead makes a difference only if the last byte but one is a newline. -/
theorem marked_two_eq_iff (hpre : pre ≠ []) (bytes : List UInt8) :
    marked pre 2 bytes = marked pre 1 bytes ↔ bytes.dropLast.getLast? ≠ some newline := by
  induction bytes with
  | nil => exact iff_of_true rfl nofun
  | cons c rest ih =>
    rw [marked_cons, marked_cons]
    cases rest with
    | nil => simp [marked]
    | cons d rest =>
      cases rest with
      | nil =>
        -- the newline in question
        by_cases hc : c = newline
        · subst hc
          simp [marked, hpre]
        · simp [marked, hc]
      | cons e rest =>
        have hboth : ∀ k ≤ 2, k ≤ (d :: e :: rest).length := fun k hk => by
          simp only [List.length_cons]
          omega
        have hlast : (c :: d :: e :: rest).dropLast.getLast? =
            (d :: e :: rest).dropLast.getLast? := by
          rw [List.dropLast_cons_cons, List.dropLast_cons_cons, List.getLast?_cons_cons]
        have hsame : (if c = newline ∧ 2 ≤ (d :: e :: rest).length then pre else []) =
            if c = newline ∧ 1 ≤ (d :: e :: rest).length then pre else [] :=
          if_congr (and_congr_right fun _ => iff_of_true (hboth 2 le_rfl) (hboth 1 (by decide)))
            rfl rfl
        rw [hlast, ← ih, hsame, List.append_right_inj, List.append_right_inj]

end Marked

/-! ## What the listener gets -/

/-- `curl_infotype`. -/
inductive CurlInfotype where
  | text
  | headerIn
  | headerOut
  | dataIn
  | dataOut
  | sslDataIn
  | sslDataOut
  deriving DecidableEq, Repr

/-- Where the literals `"< "` and `"> "` are, and the buffer of `GSTRING_ON_STACK (buf, 256)`. -/
structure DebugMemory where
  inbound : Ptr
  outbound : Ptr
  bufBuf : Ptr

/-- The next `n` turns of the loop in `prepend`, from `bytes + p` on. -/
def prependFrom (pre : Option Ptr) (bytes : List UInt8) : ℕ → ℕ → Method Unit
  | 0, _ => pure ()
  | n + 1, p => do
    let ch ← readByte bytes p
    GString.appendChar ch
    when (ch = newline ∧ p + 2 < bytes.length) (GString.appendCString pre)
    prependFrom pre bytes n (p + 1)

/-- `prepend (prefix)`. -/
def prepend (pre : Option Ptr) (bytes : List UInt8) : Method Unit := do
  GString.appendCString pre
  prependFrom pre bytes bytes.length 0

/-- The function that `debugListenerF (listener, data)` gives to cURL: the bytes that `listener` is
called with. -/
def debugListenerF (data : Bool) (mem : DebugMemory) (type : CurlInfotype) (bytes : List UInt8) :
    Exec Heap (List Cell) := do
  let buf ← GString.ofBuffer 256 (some mem.bufBuf) false 0 false
  zoom (fun h => ⟨h, buf⟩) (fun o _ => o.heap) do
    if type = .headerIn ∨ type = .dataIn ∧ data then prepend (some mem.inbound) bytes
    else when (type = .headerOut ∨ type = .dataOut ∧ data) (prepend (some mem.outbound) bytes)
    let chars ← GString.cStr
    let s ← str
    let heard ← onHeap (Heap.load chars s.length)
    onHeap s.destroy
    pure heard

/-- What lines are marked with. -/
def linePrefix (data : Bool) (type : CurlInfotype) : Option (List UInt8) :=
  if type = .headerIn ∨ type = .dataIn ∧ data then some [60, 32]
  else if type = .headerOut ∨ type = .dataOut ∧ data then some [62, 32]
  else none

/-- What the listener gets. -/
def debugText (data : Bool) (type : CurlInfotype) (bytes : List UInt8) : List UInt8 :=
  match linePrefix data type with
  | some pre => pre ++ marked pre 2 bytes
  | none => []

/-- The literal at `p`, apart from the buffer of a string. -/
structure Literal (o : Object) (p : Ptr) (text : List UInt8) : Prop where
  cells : (o.heap.cellsAt (some p)).take (text.length + 1) = cells (text ++ [0])
  nul : 0 ∉ text
  apart : o.str.buf.map Ptr.block ≠ some p.block

section Debug

variable {o o' : Object} {p : Ptr} {text pre bytes : List UInt8}

theorem Literal.lt_length (hl : Literal o p text) : text.length < o.heap.room (some p) := by
  have hlen := congrArg List.length hl.cells
  rw [List.length_take, length_cells, List.length_append, List.length_singleton] at hlen
  rw [Heap.room]
  omega

/-- A literal stays where it is. -/
theorem Literal.frame (hl : Literal o p text) (hf : Frame o o') : Literal o' p text := by
  have hlt := Heap.lt_length_of_room_pos (Nat.zero_lt_of_lt hl.lt_length)
  refine ⟨?_, hl.nul, hf.apart hlt hl.apart⟩
  rw [hf.cellsAt p hlt hl.apart]
  exact hl.cells

/-- The length of a text that ends with the only NUL. -/
theorem cstrLen_cells (hnul : 0 ∉ text) (rest : List Cell) :
    Heap.cstrLen (cells (text ++ [0]) ++ rest) = some text.length := by
  induction text with
  | nil => rfl
  | cons c text ih =>
    obtain ⟨hc, htext⟩ := not_or.mp (mt List.mem_cons.mpr hnul)
    have hne : c ≠ 0 := fun h => hc h.symm
    have hcons : cells (c :: text ++ [0]) ++ rest = some c :: (cells (text ++ [0]) ++ rest) := rfl
    rw [hcons, Heap.cstrLen, if_neg hne, ih htext]
    rfl

theorem Literal.cstrLen_eq (hl : Literal o p text) :
    Heap.cstrLen (o.heap.cellsAt (some p)) = some text.length := by
  rw [← List.take_append_drop (text.length + 1) (o.heap.cellsAt (some p)), hl.cells]
  exact cstrLen_cells hl.nul _

/-- Appending a literal. -/
theorem wp_appendLiteral (hv : Valid o) (hl : Literal o p text)
    (hlen : o.str.length + text.length < 2 ^ 24) :
    wp (GString.appendCString (some p)) (fun _ => Extended (cells text) o) (fun _ _ => False)
      (fun _ => False) o := by
  have hn := UInt32.toNat_ofNat_of_le (n := text.length) (by omega)
  have hchars : Chars o (some p) text.length := ⟨hl.lt_length.le, fun _ => hl.apart⟩
  -- `strlen` finds the terminator behind the text
  have hok : AppendCStringOk (some p) o := by
    refine ⟨text.length, hl.cstrLen_eq, ?_⟩
    rw [hn]
    exact hchars.appendOk (by omega)
  have htext : (o.heap.cellsAt (some p)).take text.length = cells text := by
    have htake := congrArg (List.take text.length) hl.cells
    rw [List.take_take, min_eq_left (Nat.le_succ _), take_length_cells] at htake
    exact htake
  refine wp_mono (wp_appendCString hv fun _ => hok) (fun _ o' h => ?_) (fun _ _ h => ?_)
    fun _ h => h
  · rcases h with ⟨hnull, -⟩ | ⟨n, hterm, happended⟩
    · cases hnull
    · obtain rfl := Option.some.inj (hl.cstrLen_eq.symm.trans hterm)
      rw [hn, htext] at happended
      have hextended := happended.extended hlen
      rwa [← length_cells text, List.take_length] at hextended
  -- a text that is short enough is not refused
  · obtain ⟨n, hterm, hrefused⟩ := h
    obtain rfl := Option.some.inj (hl.cstrLen_eq.symm.trans hterm)
    have hlarge := hrefused.2.2.2
    rw [UInt32.toNat_add, hn, UInt32.toNat_ofNat_of_le (by omega)] at hlarge
    omega

/-- Appending a byte. -/
theorem wp_appendByte (hv : Valid o) (ch : UInt8) (hlen : o.str.length + 1 < 2 ^ 24) :
    wp (GString.appendChar ch) (fun _ => Extended (cells [ch]) o) (fun _ _ => False)
      (fun _ => False) o := by
  refine wp_mono (wp_appendChar hv ch) (fun _ _ h => h.extended hlen) (fun _ _ hrefused => ?_)
    fun _ h => h
  have hlarge := hrefused.2.2.2
  rw [UInt32.toNat_ofNat_of_le (by omega)] at hlarge
  omega

/-- The loop copies the bytes, and looks two bytes ahead of a newline. -/
theorem wp_prependFrom {n i : ℕ} (hn : i + n = bytes.length) (hv : Valid o) (hl : Literal o p pre)
    (hlen : o.str.length + (marked pre 2 (bytes.drop i)).length < 2 ^ 24) :
    wp (prependFrom (some p) bytes n i) (fun _ => Extended (cells (marked pre 2 (bytes.drop i))) o)
      (fun _ _ => False) (fun _ => False) o := by
  induction n generalizing o i with
  | zero =>
    rw [List.drop_of_length_le (by omega)]
    exact Extended.refl hv
  | succ n ih =>
    have hi : i < bytes.length := by omega
    have hread := readByte_of_getElem? (σ := Object) (List.getElem?_eq_getElem hi)
    have hahead : i + 2 < bytes.length ↔ 2 ≤ (bytes.drop (i + 1)).length := by
      rw [List.length_drop]
      omega
    rw [List.drop_eq_getElem_cons hi, marked_cons] at hlen ⊢
    generalize bytes[i] = ch at hread hlen ⊢
    rw [prependFrom, hread, pure_bind, cells_append, cells_append]
    simp only [List.length_append, List.length_singleton] at hlen
    refine (wp_bind _).mpr (wp_mono (wp_appendByte hv ch (by omega)) (fun _ o₁ h₁ => ?_)
      (fun _ _ h => h) fun _ h => h)
    have hl₁ := hl.frame h₁.frame
    have hlength₁ := h₁.length hv
    rw [length_cells, List.length_singleton] at hlength₁
    -- the prefix, if there is one
    have hinsert : wp (when (ch = newline ∧ i + 2 < bytes.length) (GString.appendCString (some p)))
        (fun _ => Extended (cells
          (if ch = newline ∧ 2 ≤ (bytes.drop (i + 1)).length then pre else [])) o₁)
        (fun _ _ => False) (fun _ => False) o₁ := by
      refine (wp_when _ _).mpr ⟨fun hc => ?_, fun hc => ?_⟩
      · rw [hahead] at hc
        rw [if_pos hc] at hlen ⊢
        exact wp_appendLiteral h₁.valid hl₁ (by omega)
      · rw [hahead] at hc
        rw [if_neg hc]
        exact Extended.refl h₁.valid
    refine (wp_bind _).mpr (wp_mono hinsert (fun _ o₂ h₂ => ?_) (fun _ _ h => h) fun _ h => h)
    have hlength₂ := h₂.length h₁.valid
    rw [length_cells] at hlength₂
    refine wp_mono (ih (by omega) h₂.valid (hl₁.frame h₂.frame) (by omega)) (fun _ o' h => ?_)
      (fun _ _ h => h) fun _ h => h
    exact h₁.trans (h₂.trans h)

/-- The prefix, and the marked bytes. -/
theorem wp_prepend (hv : Valid o) (hl : Literal o p pre)
    (hlen : o.str.length + (pre ++ marked pre 2 bytes).length < 2 ^ 24) :
    wp (prepend (some p) bytes) (fun _ => Extended (cells (pre ++ marked pre 2 bytes)) o)
      (fun _ _ => False) (fun _ => False) o := by
  rw [List.length_append] at hlen
  refine (wp_bind _).mpr (wp_mono (wp_appendLiteral hv hl (by omega)) (fun _ o₁ h₁ => ?_)
    (fun _ _ h => h) fun _ h => h)
  have hlength₁ := h₁.length hv
  rw [length_cells] at hlength₁
  refine wp_mono (wp_prependFrom (i := 0) (Nat.zero_add _) h₁.valid (hl.frame h₁.frame)
    (by rw [List.drop_zero]; omega)) (fun _ o' h => ?_) (fun _ _ h => h) fun _ h => h
  rw [cells_append]
  exact h₁.trans h

/-- The listener is called with the contents of the string, which is destroyed behind that. -/
theorem wp_listener (hv : Valid o) :
    wp (do
        let chars ← GString.cStr
        let s ← str
        let heard ← onHeap (Heap.load chars s.length)
        onHeap s.destroy
        pure heard)
      (fun heard _ => heard = o.contents) (fun _ _ => False) (fun _ => False) o := by
  simp only [wp_bind, str, wp_map, wp_get, onHeap, wp_zoom, wp_pure]
  refine wp_mono (wp_cStr hv) (fun chars o' h => ?_) (fun _ _ h => h) fun _ h => h
  obtain ⟨hv', hcontents, hchars⟩ := h
  have hlength : o'.str.length = o.str.length := by
    rw [← length_contents hv', hcontents, length_contents hv]
  -- the listener reads the bytes before the terminator
  have hread : o.str.length ≤ o'.heap.room chars ∧
      (o'.heap.cellsAt chars).take o.str.length = o.contents := by
    by_cases hzero : o.str.length = 0
    · have hnil : o.contents = [] :=
        List.eq_nil_of_length_eq_zero ((length_contents hv).trans hzero)
      rw [hzero, hnil]
      exact ⟨Nat.zero_le _, rfl⟩
    · obtain ⟨-, htake⟩ := hchars hzero
      have hlen := congrArg List.length htake
      rw [List.length_take, List.length_append, length_contents hv, List.length_singleton] at hlen
      refine ⟨by rw [Heap.room]; omega, ?_⟩
      have hcut := congrArg (List.take o.str.length) htake
      rwa [List.take_take, min_eq_left (Nat.le_succ _),
        List.take_left' (length_contents hv)] at hcut
  rw [hlength]
  -- the buffer is freed once the listener has been called
  refine Heap.wp_load hread.1 ?_
  have hapart : Apart .empty o' := ⟨(valid_empty hv'.allocates).1, fun _ _ h => by cases h⟩
  exact wp_mono (wp_destroy hv' hapart) (fun _ _ _ => hread.2) (fun _ _ h => h) fun _ h => h

end Debug

/-- The literals are where they are said to be, and the buffer is on the stack, with 256 bytes. -/
structure DebugMemory.Ok (mem : DebugMemory) (h : Heap) : Prop where
  allocates : h.oom = []
  room : 256 ≤ h.room (some mem.bufBuf)
  inbound : (h.cellsAt (some mem.inbound)).take 3 = cells [60, 32, 0]
  outbound : (h.cellsAt (some mem.outbound)).take 3 = cells [62, 32, 0]
  apart_inbound : mem.bufBuf.block ≠ mem.inbound.block
  apart_outbound : mem.bufBuf.block ≠ mem.outbound.block

/-- The listener is called with the bytes, every line of which is marked. -/
def MarksLines (data : Bool) (mem : DebugMemory) (type : CurlInfotype) (pre bytes : List UInt8)
    (h : Heap) : Prop :=
  wp (debugListenerF data mem type bytes)
    (fun heard _ => heard = cells (pre ++ marked pre 1 bytes)) (fun _ _ => False) (fun _ => False) h

section Listener

variable {h : Heap} {mem : DebugMemory} {data : Bool} {type : CurlInfotype} {pre bytes : List UInt8}

/-- `GSTRING_ON_STACK (buf, 256)` at `p`. -/
def stackString (p : Ptr) : GString := ⟨Meta.pack false false 8 0, some p⟩

theorem ofBuffer_stackString {σ : Type} (p : Ptr) :
    (GString.ofBuffer 256 (some p) false 0 false : Exec σ GString) = pure (stackString p) := by
  have hsize : (256 : UInt32).toNat = 256 := rfl
  have hlog : Nat.log 2 256 = 8 := Nat.log_pow (by decide) 8
  rw [GString.ofBuffer_eq, if_pos (by decide), hsize, hlog]
  rfl

theorem DebugMemory.Ok.valid (hmem : mem.Ok h) : Valid ⟨h, stackString mem.bufBuf⟩ :=
  valid_pack hmem.allocates (by decide) (Nat.zero_le _) (fun _ => ⟨hmem.room, by decide⟩) nofun

/-- The string on the stack, filled with the prefix and the marked bytes. -/
theorem wp_prepend_stackString (hmem : mem.Ok h) {p : Ptr}
    (hl : Literal ⟨h, stackString mem.bufBuf⟩ p pre)
    (hlen : (pre ++ marked pre 2 bytes).length < 2 ^ 24) :
    wp (prepend (some p) bytes)
      (fun _ o' => Valid o' ∧ o'.contents = cells (pre ++ marked pre 2 bytes)) (fun _ _ => False)
      (fun _ => False) ⟨h, stackString mem.bufBuf⟩ := by
  have hempty : Object.contents ⟨h, stackString mem.bufBuf⟩ = [] := contents_pack
  have hzero : (stackString mem.bufBuf).length = 0 := GString.length_mk_pack _ _ _ _
  refine wp_mono (wp_prepend hmem.valid hl (by rw [hzero]; omega)) (fun _ o' h => ⟨h.valid, ?_⟩)
    (fun _ _ h => h) fun _ h => h
  rw [h.contents, hempty, List.nil_append]

/-- What the listener gets for every kind of message. -/
theorem wp_debugListenerF (hmem : mem.Ok h) (hlen : (debugText data type bytes).length < 2 ^ 24) :
    wp (debugListenerF data mem type bytes)
      (fun heard _ => heard = cells (debugText data type bytes)) (fun _ _ => False)
      (fun _ => False) h := by
  rw [debugListenerF, ofBuffer_stackString, pure_bind, wp_zoom]
  -- the string is filled, and then given to the listener
  have hgive : ∀ o', Valid o' ∧ o'.contents = cells (debugText data type bytes) →
      wp (do
          let chars ← GString.cStr
          let s ← str
          let heard ← onHeap (Heap.load chars s.length)
          onHeap s.destroy
          pure heard)
        (fun heard _ => heard = cells (debugText data type bytes)) (fun _ _ => False)
        (fun _ => False) o' := fun o' ho => by
    rw [← ho.2]
    exact wp_listener ho.1
  refine (wp_ite _ _).mpr ⟨fun hin => ?_, fun hnot => (wp_bind _).mpr ((wp_when _ _).mpr
    ⟨fun hout => ?_, fun hneither => hgive _ ?_⟩)⟩
  · rw [debugText, linePrefix, if_pos hin] at hlen hgive ⊢
    refine (wp_bind _).mpr (wp_mono (wp_prepend_stackString hmem ?_ hlen) (fun _ => hgive)
      (fun _ _ h => h) fun _ h => h)
    exact ⟨hmem.inbound, by decide, fun h => hmem.apart_inbound (Option.some.inj h)⟩
  · rw [debugText, linePrefix, if_neg hnot, if_pos hout] at hlen hgive ⊢
    refine wp_mono (wp_prepend_stackString hmem ?_ hlen) (fun _ => hgive) (fun _ _ h => h)
      fun _ h => h
    exact ⟨hmem.outbound, by decide, fun h => hmem.apart_outbound (Option.some.inj h)⟩
  · rw [debugText, linePrefix, if_neg hnot, if_neg hneither]
    exact ⟨hmem.valid, contents_pack⟩

theorem linePrefix_ne_nil (hpre : linePrefix data type = some pre) : pre ≠ [] := by
  rintro rfl
  rw [linePrefix] at hpre
  split_ifs at hpre
  · cases hpre
  · cases hpre

/-- The text that is given to the listener is the one that is meant, if looking one byte too far
ahead makes no difference. -/
theorem marksLines_iff_of_short (hmem : mem.Ok h) (hpre : linePrefix data type = some pre)
    (hlen : (pre ++ marked pre 2 bytes).length < 2 ^ 24) :
    MarksLines data mem type pre bytes h ↔ bytes.dropLast.getLast? ≠ some newline := by
  have htext : debugText data type bytes = pre ++ marked pre 2 bytes := by rw [debugText, hpre]
  rw [← htext] at hlen
  obtain ⟨heard, h', hx, rfl⟩ := exists_ok_of_wp (wp_debugListenerF hmem hlen)
  have hinj : Function.Injective cells := List.map_injective_iff.mpr (Option.some_injective _)
  simp only [MarksLines, wp, hx]
  rw [htext, hinj.eq_iff, List.append_right_inj]
  exact marked_two_eq_iff (linePrefix_ne_nil hpre) bytes

/-- **Every line is marked**, if and only if the last byte but one is not a newline. -/
theorem marksLines_iff (hmem : mem.Ok h) (hpre : linePrefix data type = some pre)
    (hlen : (pre ++ marked pre 1 bytes).length < 2 ^ 24) :
    MarksLines data mem type pre bytes h ↔ bytes.dropLast.getLast? ≠ some newline := by
  have hle := length_marked_le pre (show 1 ≤ 2 by decide) bytes
  apply marksLines_iff_of_short hmem hpre
  rw [List.length_append] at hlen ⊢
  omega

end Listener

/-- The two literals, and the stack. -/
def debugHeap (stack : List Cell) : Heap :=
  ⟨[⟨cells [60, 32, 0], .foreign, true⟩, ⟨cells [62, 32, 0], .foreign, true⟩,
    ⟨stack, .foreign, true⟩], 0, []⟩

theorem debugHeap_ok {stack : List Cell} (hstack : 256 ≤ stack.length) :
    DebugMemory.Ok ⟨⟨0, 0⟩, ⟨1, 0⟩, ⟨2, 0⟩⟩ (debugHeap stack) where
  allocates := rfl
  room := hstack
  inbound := rfl
  outbound := rfl
  apart_inbound := by decide
  apart_outbound := by decide

/-- A header of two lines. -/
theorem marksLines_twoLines :
    MarksLines false ⟨⟨0, 0⟩, ⟨1, 0⟩, ⟨2, 0⟩⟩ .headerIn [60, 32] [97, 10, 98, 10]
      (debugHeap (List.replicate 256 none)) := by
  have hlen : ([60, 32] ++ marked [60, 32] 1 [97, 10, 98, 10]).length = 8 := rfl
  rw [marksLines_iff (debugHeap_ok List.length_replicate.ge) rfl (by omega)]
  decide

/-- A newline and a single byte. -/
theorem not_marksLines_oneByte :
    ¬ MarksLines false ⟨⟨0, 0⟩, ⟨1, 0⟩, ⟨2, 0⟩⟩ .headerIn [60, 32] [10, 120]
      (debugHeap (List.replicate 256 none)) := by
  have hlen : ([60, 32] ++ marked [60, 32] 2 [10, 120]).length = 4 := rfl
  rw [marksLines_iff_of_short (debugHeap_ok List.length_replicate.ge) rfl (by omega)]
  decide

end Glim
