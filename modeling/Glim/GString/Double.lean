import Glim.GString.Contents

/-!
# Appending a double

`operator << (double)` gives `snprintf` 31 bytes, which are at most 30 of the text and a NUL, but
then makes up to 31 bytes part of the string. Of a text of 31 bytes or more the last of these is
the NUL.

## Main definitions

* `WritesInside`: after making room, the heap changes only inside of the capacity
* `AppendsDouble`: a prefix of the text is appended, and nothing else

## Main results

* `exists_appendDouble`: what the string is afterwards
* `appendsDouble_iff`: when nothing but the text is appended
-/

namespace Glim

open Machine Exec Method

/-- From `o`, room is made for `n` bytes, and then some bytes behind the contents are written,
inside of the capacity. -/
def WritesInside (n : UInt32) (o o' : Object) : Prop :=
  ∃ o₁ new, GString.reserve n o = .ok () o₁ ∧
    o'.heap = o₁.heap.write (o₁.str.data o.str.length) new ∧
    o.str.length + new.length ≤ o₁.str.capacity ∧ o₁.str.capacity ≤ o₁.room ∧
    o'.str.buf = o₁.str.buf ∧ o'.str.capacity = o₁.str.capacity

/-- `operator << (double)` with the `%f` text appends a prefix of the text, all of it if it has at
most 30 bytes, and writes only inside of the capacity. -/
def AppendsDouble (text : List UInt8) (o : Object) : Prop :=
  wp (GString.appendDouble text)
    (fun _ o' => WritesInside (UInt32.ofNat (o.str.length + 32)) o o' ∧
      ∃ text', text' <+: text ∧ (text.length ≤ 30 → text' = text) ∧
        o'.contents = o.contents ++ cells text')
    (fun _ _ => False) (fun _ => False) o

section Double

variable {o : Object} {text : List UInt8}

theorem length_rendered (text : List UInt8) :
    (cells (text.take 30 ++ [0])).length = min 30 text.length + 1 := by
  rw [length_cells, List.length_append, List.length_take, List.length_singleton]

/-- Room is made for 32 bytes; up to 30 bytes of the text are written behind the contents and a NUL
behind these; and up to 31 of what was written become part of the string. -/
theorem exists_appendDouble (hv : Valid o) (hlen : o.str.length ≤ 2 ^ 24 - 100) (hne : text ≠ []) :
    ∃ o₁, GString.reserve (UInt32.ofNat (o.str.length + 32)) o = .ok () o₁ ∧
      Grown (o.str.length + 32) o o₁ ∧
      GString.appendDouble text o =
        .ok () (o₁.push (cells (text.take 30 ++ [0])) (min text.length 31)) := by
  have hn := UInt32.toNat_ofNat_of_le (n := o.str.length + 32) (by omega)
  have hgrows : wp (GString.reserve (UInt32.ofNat (o.str.length + 32)))
      (fun _ => Grown (o.str.length + 32) o) (fun _ _ => False) (fun _ => False) o := by
    refine wp_mono (wp_reserve hv (ReserveOk.of_length_le (by omega) (by omega)))
      (fun _ _ hg => hn ▸ hg) (fun _ _ hrefused => ?_) fun _ h => h
    have htoo := hrefused.2.2.2
    omega
  obtain ⟨_, o₁, hx, hg⟩ := exists_ok_of_wp hgrows
  refine ⟨o₁, hx, hg, ?_⟩
  have hpos : text.length > 0 := List.length_pos_iff.mpr hne
  -- there is room for 30 bytes and the terminator
  have hroom : o₁.str.length + (cells (text.take 30 ++ [0])).length ≤ o₁.room := by
    have hgrown := hg.room
    rw [length_rendered, hg.length]
    omega
  -- the length counts the text up to the limit, which counts the terminator
  have hends : wp (onHeap (Heap.store (o₁.str.data o.str.length) (cells (text.take 30 ++ [0]))))
      (fun _ => wp (modifyStr (GString.setLength (o.str.length + min text.length 31)))
        (fun _ o' => o' = o₁.push (cells (text.take 30 ++ [0])) (min text.length 31))
        (fun _ _ => False) fun _ => False) (fun _ _ => False) (fun _ => False) o₁ :=
    wp_store_end hg.length.symm hroom rfl
  have hstr : (str : Method GString) o = .ok o.str o := rfl
  have hstr₁ : (str : Method GString) o₁ = .ok o₁.str o₁ := rfl
  obtain ⟨_, o', hx', rfl⟩ := exists_ok_of_wp ((wp_bind _).mpr hends)
  rw [GString.appendDouble]
  refine (bind_of_ok hstr).trans ((bind_of_ok hx).trans ((bind_of_ok hstr₁).trans ?_))
  rwa [when_of_pos hpos]

/-- What is appended: the text up to 30 bytes, and of a longer one a NUL as well. -/
theorem contents_appendDouble (text : List UInt8) {o₁ : Object}
    (hg : Grown (o.str.length + 32) o o₁) (hlen : o.str.length ≤ 2 ^ 24 - 100) :
    (o₁.push (cells (text.take 30 ++ [0])) (min text.length 31)).contents =
      o.contents ++ cells (if text.length ≤ 30 then text else text.take 30 ++ [0]) := by
  have hgrown := hg.room
  have hlength := length_rendered text
  have hroom : o₁.str.length + (cells (text.take 30 ++ [0])).length ≤ o₁.room := by
    rw [hg.length]
    omega
  rw [contents_push hroom (by omega) (by rw [hg.length]; omega), hg.contents]
  refine congrArg (o.contents ++ ·) ?_
  rw [cells, ← List.map_take, ← cells]
  refine congrArg cells ?_
  split_ifs with hshort
  · rw [min_eq_left (by omega), List.take_of_length_le hshort]
    exact List.take_left' rfl
  · apply List.take_of_length_le
    rw [length_cells] at hlength
    omega

/-- Room for 31 bytes was made. -/
theorem writesInside_appendDouble {o₁ : Object}
    (hx : GString.reserve (UInt32.ofNat (o.str.length + 32)) o = .ok () o₁)
    (hg : Grown (o.str.length + 32) o o₁) :
    WritesInside (UInt32.ofNat (o.str.length + 32)) o
      (o₁.push (cells (text.take 30 ++ [0])) (min text.length 31)) := by
  have hcap := hg.capacity
  refine ⟨o₁, cells (text.take 30 ++ [0]), hx, ?_, ?_, hg.valid.capacity_le (by omega), rfl, ?_⟩
  · rw [Object.push, hg.length]
  · rw [length_rendered]
    omega
  · rw [GString.capacity, Object.push, GString.power_setLength]
    rfl

/-- Behind 30 bytes of a longer text the NUL is appended as well. -/
theorem not_appendsDouble_of_long (hv : Valid o) (hlen : o.str.length ≤ 2 ^ 24 - 100)
    (hnul : 0 ∉ text) (hlong : 30 < text.length) : ¬ AppendsDouble text o := by
  have hne : text ≠ [] := List.ne_nil_of_length_pos (by omega)
  obtain ⟨o₁, -, hg, happend⟩ := exists_appendDouble hv hlen hne
  simp only [AppendsDouble, wp, happend]
  rintro ⟨-, text', hfront, -, htext'⟩
  rw [contents_appendDouble text hg hlen, if_neg (by omega)] at htext'
  have hcells := List.append_cancel_left htext'
  have hmem : (some 0 : Cell) ∈ cells text' := by
    rw [← hcells, cells]
    exact List.mem_map_of_mem (List.mem_append_right _ List.mem_cons_self)
  obtain ⟨c, hc, hzero⟩ := List.mem_map.mp hmem
  -- it would be a byte of the text
  obtain rfl := Option.some.inj hzero
  exact hnul (hfront.subset hc)

/-- **Nothing but the text of a double is appended**, if and only if it has at most 30 bytes. -/
theorem appendsDouble_iff (hv : Valid o) (hlen : o.str.length ≤ 2 ^ 24 - 100) (hne : text ≠ [])
    (hnul : 0 ∉ text) : AppendsDouble text o ↔ text.length ≤ 30 := by
  constructor
  · intro happends
    by_contra hlong
    exact not_appendsDouble_of_long hv hlen hnul (by omega) happends
  · intro hshort
    obtain ⟨o₁, hx, hg, happend⟩ := exists_appendDouble hv hlen hne
    have hcontents := contents_appendDouble text hg hlen
    rw [if_pos hshort] at hcontents
    simp only [AppendsDouble, wp, happend]
    exact ⟨writesInside_appendDouble hx hg, text, List.prefix_rfl, fun _ => rfl, hcontents⟩

end Double

/-- `1.5` is appended to an empty string. -/
theorem appendsDouble_short :
    AppendsDouble [49, 46, 53, 48, 48, 48, 48, 48] ⟨⟨[], 0, []⟩, .empty⟩ := by
  obtain ⟨hv, -⟩ := valid_empty (h := ⟨[], 0, []⟩) rfl
  exact (appendsDouble_iff hv (by decide) (List.cons_ne_nil _ _) (by decide)).mpr (by decide)

/-- The text of `1e30`. -/
def largeText : List UInt8 :=
  [49, 48, 48, 48, 48, 48, 48, 48, 48, 48, 48, 48, 48, 48, 48, 48, 48, 49, 57, 56, 56, 52, 54, 50,
    52, 56, 51, 56, 54, 53, 54, 46, 48, 48, 48, 48, 48, 48]

/-- To an empty string, 30 digits of `1e30` and a NUL are appended. -/
theorem not_appendsDouble_large : ¬ AppendsDouble largeText ⟨⟨[], 0, []⟩, .empty⟩ := by
  obtain ⟨hv, -⟩ := valid_empty (h := ⟨[], 0, []⟩) rfl
  exact not_appendsDouble_of_long hv (by decide) (by decide) (by decide)

end Glim
