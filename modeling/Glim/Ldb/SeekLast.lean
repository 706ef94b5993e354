import Glim.Ldb.StartsWith

/-!
# The bound of `seekLast`

`seekLast` looks for a key behind all keys with the prefix: it increments the last byte of the
prefix that is less than `CHAR_MAX`, seeks there, and walks back. The bound is one if that byte is
not `0xFF`, which is less than `CHAR_MAX` as a signed `char` and becomes `0x00`. A prefix of nothing
but `CHAR_MAX` has no such byte: the index is unsigned, and the loop does not stop at its front.

## Main definitions

* `StartsWithIterator.SeeksBehind`: the loops end, and the walk begins behind the prefix
* `StartsWithIterator.HasBound`: a condition on the prefix and the keys

## Main results

* `exists_seekLast`: the walk ends wherever it begins
* `seeksBehind_iff`: when the loops do what they are meant to do
-/

namespace Glim.StartsWithIterator

open Text

variable {signed : Bool} {p q after : List UInt8} {b : UInt8} {j : ℕ} {lit : Lit}

/-- The carry loop ends and reads only inside of the prefix; a bound is greater than every key with
the prefix; without a byte to increment, the search starts from the last key; and the walk back
ends. -/
structure SeeksBehind (signed : Bool) (p : List UInt8) (lit : Lit) : Prop where
  carries : ∃ after, carry signed p p.length = some after
  above : ∀ after, carry signed p p.length = some after →
    ∀ k ∈ lit.snapshot.keys, p <+: k → k < after
  fromLast : (∀ b ∈ p, b = charMax signed) →
    seekLast signed p lit = seekBack p (lit.snapshot.keys.length + 1) lit.seekToLast
  ends : ∃ lit', seekLast signed p lit = some lit'

/-- The prefix has a byte other than `CHAR_MAX`, and the last such byte is not `0xFF`, or no key has
the prefix. -/
def HasBound (signed : Bool) (p : List UInt8) (L : List (List UInt8)) : Prop :=
  ∃ q b j, p = q ++ b :: List.replicate j (charMax signed) ∧ b ≠ charMax signed ∧
    (b ≠ 255 ∨ prefixed p L = [])

/-! ## The walk back -/

/-- From any position the walk ends, at most one step for each key later. -/
theorem exists_seekBack (p : List UInt8) (lit : Lit) :
    ∃ lit', seekBack p (lit.snapshot.keys.length + 1) lit = some lit' := by
  have hsplit : ∃ C R, lit.snapshot.keys.reverse = C ++ R ∧ lit.pos = R.head? := by
    cases hpos : lit.pos with
    | none => exact ⟨lit.snapshot.keys.reverse, [], (List.append_nil _).symm, rfl⟩
    | some k =>
      obtain ⟨C, R, hR⟩ := List.append_of_mem (List.mem_reverse.mpr (lit.isPos k hpos))
      exact ⟨C, k :: R, hR, rfl⟩
  obtain ⟨C, R, hR, hpos⟩ := hsplit
  have hfuel : R.length < lit.snapshot.keys.length + 1 := by
    have hlen := congrArg List.length hR
    rw [List.length_reverse, List.length_append] at hlen
    omega
  obtain ⟨lit', hx, -⟩ := seekBack_eq hR hfuel rfl hpos
  exact ⟨lit', hx⟩

/-- Wherever the carry loop leads to, the walk ends. -/
theorem exists_seekLast (hp : p ≠ []) (hafter : carry signed p p.length = some after) (lit : Lit) :
    ∃ lit', seekLast signed p lit = some lit' := by
  rw [seekLast, if_pos hp, hafter]
  simp only [Option.bind_eq_bind, Option.bind_some]
  split
  · exact exists_seekBack p (lit.seek after)
  · exact exists_seekBack p (lit.seek after).seekToLast

/-! ## The bound -/

/-- What the loop makes of a prefix is above a key with the prefix, exactly if no byte wraps
around. -/
theorem lt_carried_iff {k : List UInt8} (hk : q ++ b :: List.replicate j (charMax signed) <+: k) :
    k < q ++ (b + 1) :: List.replicate j (charMax signed) ↔ b ≠ 255 := by
  constructor
  · rintro hlt rfl
    have hlow : q ++ 0 :: List.replicate j (charMax signed) <
        q ++ 255 :: List.replicate j (charMax signed) := append_cons_lt (by decide)
    exact absurd (hlt.trans (hlow.trans_le (le_of_isPrefix hk))) (lt_irrefl k)
  · intro hb
    exact lt_of_prefix_cons hk (lt_add_one hb)

/-- **`seekLast` begins behind the prefix and ends**, if and only if the prefix has a byte to
increment, and incrementing the last one does not wrap around, or does no harm. -/
theorem seeksBehind_iff (hp : p ≠ []) (lit : Lit) :
    SeeksBehind signed p lit ↔ HasBound signed p lit.snapshot.keys := by
  constructor
  · rintro ⟨⟨after, hafter⟩, habove, -, -⟩
    rcases exists_last (charMax signed) p with ⟨j, rfl⟩ | ⟨q, b, j, rfl, hb⟩
    · rw [List.length_replicate, carry_replicate_eq_none] at hafter
      cases hafter
    · refine ⟨q, b, j, rfl, hb, ?_⟩
      rw [or_iff_not_imp_right]
      -- a key with the prefix tells whether the byte wraps around
      intro hne
      obtain ⟨k, hk⟩ := List.exists_mem_of_ne_nil _ hne
      obtain ⟨hmem, hprefix⟩ := mem_prefixed.mp hk
      exact (lt_carried_iff hprefix).mp (habove _ (carry_eq q b j hb) k hmem hprefix)
  · rintro ⟨q, b, j, rfl, hb, hbound⟩
    have hafter := carry_eq q b j hb
    refine ⟨⟨_, hafter⟩, fun after hx k hk hprefix => ?_, fun hmax => ?_,
      exists_seekLast hp hafter lit⟩
    · obtain rfl := Option.some.inj (hafter.symm.trans hx)
      rcases hbound with hb255 | hnone
      · exact (lt_carried_iff hprefix).mpr hb255
      · have hmem := mem_prefixed.mpr ⟨hk, hprefix⟩
        rw [hnone] at hmem
        cases hmem
    · exact absurd (hmax b (List.mem_append_right q List.mem_cons_self)) hb

/-- A prefix of an ordinary byte and `CHAR_MAX`. -/
theorem seeksBehind_tilde : SeeksBehind true [126, 127] (Lit.newIterator twoHighKeys) := by
  have hbound : HasBound true [126, 127] (Lit.newIterator twoHighKeys).snapshot.keys :=
    ⟨[], 126, 1, rfl, by decide, Or.inl (by decide)⟩
  exact (seeksBehind_iff (List.cons_ne_nil 126 [127]) _).mpr hbound

/-- With the prefix `0xFF` a signed `char` gives a bound below its keys, and an unsigned one lets
the loop leave the prefix. -/
theorem not_seeksBehind_high :
    ¬ SeeksBehind true [255] (Lit.newIterator twoHighKeys) ∧
      ¬ SeeksBehind false [255] (Lit.newIterator twoHighKeys) := by
  constructor
  · intro h
    have hmem : [255, 1] ∈ (Lit.newIterator twoHighKeys).snapshot.keys := by decide
    have hbelow := h.above _ (carry_eq [] 255 0 (by decide)) [255, 1] hmem ⟨[1], rfl⟩
    exact (lt_carried_iff (q := []) (j := 0) ⟨[1], rfl⟩).mp hbelow rfl
  · intro h
    obtain ⟨after, hafter⟩ := h.carries
    have houtside := carry_replicate_eq_none false 1
    exact absurd (houtside.symm.trans hafter) nofun

end Glim.StartsWithIterator
