import Glim.Ldb.Iterator
import Mathlib.Data.List.Induction

/-!
# Prefix iterators

The keys with a prefix are a segment of the sorted keys. Incrementing an iterator over them goes
round this segment, and decrementing it from one of its keys goes round it backwards.
Decrementing from the end first looks for a key behind the segment, from a bound that it gets by
incrementing the last byte of the prefix that is not `CHAR_MAX`; with a signed `char` a byte
`0xFF` becomes `0x00`, and the bound lies before the segment.

## Main definitions

* `prefixed`: the keys with a prefix
* `StartsWithIterator.At`: an iterator that stands on a position of the segment
* `StartsWithIterator.Exact`: both traversals are exact
* `StartsWithIterator.Bounded`: a condition on the prefix and the keys

## Main results

* `startsWith_increment`, `startsWith_decrement`: going round the segment
* `decrement_bound`, `decrement_low`: decrementing from the end
* `exact_iff`: when both traversals are exact
-/

namespace Glim

open Text Table

/-- The keys with a prefix. -/
def prefixed (p : List UInt8) (L : List (List UInt8)) : List (List UInt8) :=
  L.filter fun k => p.isPrefixOf k

section Segment

variable {p k : List UInt8} {L : List (List UInt8)}

theorem mem_prefixed : k ∈ prefixed p L ↔ k ∈ L ∧ p <+: k := by
  rw [prefixed, List.mem_filter, List.isPrefixOf_iff_prefix]

/-- The keys before the prefix, those that have it, and those behind them. -/
structure Segment (p : List UInt8) (L A M B : List (List UInt8)) : Prop where
  eq : L = A ++ M ++ B
  nodup : L.Nodup
  prefixed : prefixed p L = M
  before : ∀ a ∈ A, a < p
  behind : ∀ b ∈ B, p ≤ b ∧ ¬ p <+: b

/-- The keys with a prefix are a segment. -/
theorem exists_segment (hL : L.Pairwise (· < ·)) (p : List UInt8) : ∃ A M B, Segment p L A M B := by
  obtain ⟨A, hfront, hA⟩ := exists_append_ge hL p
  have hsegment := filter_append_filter_not (hL.filter (p ≤ ·)) (q := fun k => p.isPrefixOf k)
    fun a ha b hab hb => by
      rw [List.isPrefixOf_iff_prefix] at hb ⊢
      by_contra hn
      have hle := (List.mem_filter.mp ha).2
      rw [decide_eq_true_eq] at hle
      exact absurd (lt_of_isPrefix_of_not hb hle hn) (lt_asymm hab)
  have hprefixed : (L.filter (p ≤ ·)).filter (fun k => p.isPrefixOf k) = prefixed p L := by
    rw [List.filter_filter, prefixed]
    refine List.filter_congr fun k _ => ?_
    cases hk : p.isPrefixOf k with
    | false => rfl
    | true => rw [Bool.true_and, decide_eq_true (le_of_isPrefix (List.isPrefixOf_iff_prefix.mp hk))]
  rw [hprefixed] at hsegment
  refine ⟨A, prefixed p L, _, by rw [List.append_assoc, hsegment, ← hfront], nodup_of_sorted hL,
    rfl, hA, fun b hb => ?_⟩
  obtain ⟨hb, hn⟩ := List.mem_filter.mp hb
  have hle := (List.mem_filter.mp hb).2
  rw [decide_eq_true_eq] at hle
  refine ⟨hle, fun h => ?_⟩
  rw [List.isPrefixOf_iff_prefix.mpr h] at hn
  cases hn

/-- Keys before the prefix do not have it. -/
theorem not_prefix_of_lt (h : k < p) : ¬ p <+: k :=
  fun hp => absurd (le_of_isPrefix hp) (not_le_of_gt h)

theorem isPrefixOf_eq_false (h : ¬ p <+: k) : p.isPrefixOf k = false := by
  rw [← Bool.not_eq_true, List.isPrefixOf_iff_prefix]
  exact h

variable {A M B : List (List UInt8)}

theorem Segment.has (h : Segment p L A M B) (hk : k ∈ M) : p <+: k := by
  rw [← h.prefixed] at hk
  exact (mem_prefixed.mp hk).2

theorem Segment.isPrefixOf_has (h : Segment p L A M B) : ∀ m ∈ M, p.isPrefixOf m = true :=
  fun _ hm => List.isPrefixOf_iff_prefix.mpr (h.has hm)

theorem Segment.isPrefixOf_before (h : Segment p L A M B) : ∀ a ∈ A, p.isPrefixOf a = false :=
  fun a ha => isPrefixOf_eq_false (not_prefix_of_lt (h.before a ha))

theorem Segment.isPrefixOf_behind (h : Segment p L A M B) : ∀ b ∈ B, p.isPrefixOf b = false :=
  fun b hb => isPrefixOf_eq_false (h.behind b hb).2

end Segment

namespace StartsWithIterator

/-- The iterator sees the database and stands on the position among the keys with the prefix. -/
structure At (db : Database) (p : List UInt8) (it : StartsWithIterator) (o : Option (List UInt8)) :
    Prop where
  starts : it.starts = p
  snapshot : it.entry.lit.snapshot = db
  valid : it.entry.valid = o.isSome
  pos : ∀ k, o = some k → it.entry.lit.pos = some k
  isPos : Tour.IsPos (prefixed p db.keys) o

section At

variable {db : Database} {p k : List UInt8} {it it' : StartsWithIterator} {o : Option (List UInt8)}
  {l : Lit} {signed : Bool} {A M B : List (List UInt8)}

theorem At.position (h : it.At db p o) : it.entry.position = o := by
  rw [IteratorEntry.position, h.valid]
  cases o with
  | none => rfl
  | some k => exact h.pos k rfl

theorem At.equal_end (h : it.At db p o) (h' : it'.At db p none) :
    it.entry.equal it'.entry = true ↔ o = none := by
  rw [IteratorEntry.equal, h.valid, h'.valid]
  cases o <;> simp

/-- After `checkValidity` the iterator stands on the key if it has the prefix, or at the end. -/
theorem at_of_lit (hstarts : it.starts = p) (hsnapshot : l.snapshot = db) :
    At db p { it with entry := ⟨l, checkValidity it.starts l⟩ }
      (l.pos.filter fun k => p.isPrefixOf k) := by
  subst hstarts
  refine ⟨rfl, hsnapshot, ?_, fun k hk => ?_, fun k hk => ?_⟩
  · show checkValidity it.starts l = _
    rw [checkValidity]
    cases l.pos with
    | none => rfl
    | some k => cases hp : it.starts.isPrefixOf k <;> simp [Option.filter, hp]
  · exact (Option.filter_eq_some_iff.mp hk).1
  · obtain ⟨hpos, hp⟩ := Option.filter_eq_some_iff.mp hk
    rw [mem_prefixed, ← hsnapshot]
    exact ⟨l.isPos k hpos, List.isPrefixOf_iff_prefix.mp hp⟩

/-- Incrementing goes to the next key with the prefix. -/
theorem startsWith_increment (hs : Segment p db.keys A M B) (h : it.At db p o) :
    ∃ it', it.increment = some it' ∧ it'.At db p (Tour.next M o) := by
  rw [increment, h.valid]
  cases o with
  | none =>
    -- the first key from the prefix on
    have hseek : (it.entry.lit.seek it.starts).pos = (M ++ B).head? := by
      rw [Lit.pos_seek h.snapshot, h.starts, hs.eq, List.append_assoc]
      refine find?_append_ge hs.before fun c hc => ?_
      rcases List.mem_append.mp hc with hc | hc
      · exact le_of_isPrefix (hs.has hc)
      · exact (hs.behind c hc).1
    refine ⟨_, rfl, ?_⟩
    have hat : At db p _ _ := at_of_lit h.starts (l := it.entry.lit.seek it.starts) h.snapshot
    rwa [hseek, Tour.head?_append_filter hs.isPrefixOf_has hs.isPrefixOf_behind] at hat
  | some k =>
    obtain ⟨lit', hx, hsnapshot, hpos⟩ := Lit.next_eq (h.pos k rfl)
    refine ⟨_, by rw [Option.isSome_some, if_pos rfl, hx]; rfl, ?_⟩
    have hat := at_of_lit h.starts (hsnapshot.trans h.snapshot)
    have hk : k ∈ M := hs.prefixed ▸ h.isPos k rfl
    have hnext := Tour.next_segment (hs.eq ▸ hs.nodup) hs.isPrefixOf_has hs.isPrefixOf_behind hk
    rw [← hs.eq] at hnext
    rwa [hpos, h.snapshot, hnext] at hat

/-- Decrementing from a key goes to the key with the prefix before it. -/
theorem startsWith_decrement (hs : Segment p db.keys A M B) (h : it.At db p (some k)) :
    ∃ it', it.decrement signed = some it' ∧ it'.At db p (Tour.next M.reverse (some k)) := by
  obtain ⟨lit', hx, hsnapshot, hpos⟩ := Lit.prev_eq (h.pos k rfl)
  refine ⟨_, by rw [decrement, h.valid, Option.isSome_some, if_pos rfl, hx]; rfl, ?_⟩
  have hat := at_of_lit h.starts (hsnapshot.trans h.snapshot)
  have hk : k ∈ M := hs.prefixed ▸ h.isPos k rfl
  have hreverse : db.keys.reverse = B.reverse ++ M.reverse ++ A.reverse := by
    rw [hs.eq, List.reverse_append, List.reverse_append, List.append_assoc]
  have hnodup : (B.reverse ++ M.reverse ++ A.reverse).Nodup := by
    rw [← hreverse, List.nodup_reverse]
    exact hs.nodup
  have hnext := Tour.next_segment hnodup
    (fun m hm => hs.isPrefixOf_has m (List.mem_reverse.mp hm))
    (fun a ha => hs.isPrefixOf_before a (List.mem_reverse.mp ha)) (List.mem_reverse.mpr hk)
  rw [← hreverse] at hnext
  rwa [hpos, h.snapshot, hnext] at hat

/-! ## Decrementing from the end -/

/-- Where the loop of `seekLast` stops. -/
def stops (p k : List UInt8) : Bool := p.isPrefixOf k || decide (k < p)

/-- The loop goes back to the first key where it stops, and its fuel suffices. -/
theorem seekBack_eq {C R : List (List UInt8)} {fuel : ℕ} (hR : db.keys.reverse = C ++ R)
    (hfuel : R.length < fuel) (hsnapshot : l.snapshot = db) (hpos : l.pos = R.head?) :
    ∃ l', seekBack p fuel l = some l' ∧ l'.snapshot = db ∧ l'.pos = R.find? (stops p) := by
  induction R generalizing C l fuel with
  | nil =>
    cases fuel with
    | zero => exact absurd hfuel (Nat.not_lt_zero _)
    | succ fuel => exact ⟨l, by rw [seekBack, hpos]; rfl, hsnapshot, hpos⟩
  | cons r R ih =>
    cases fuel with
    | zero => exact absurd hfuel (Nat.not_lt_zero _)
    | succ fuel =>
      have hr : l.pos = some r := hpos
      rw [seekBack, hr]
      by_cases hhas : p.isPrefixOf r = true
      · have hstop : stops p r = true := by rw [stops, hhas, Bool.true_or]
        exact ⟨l, if_pos hhas, hsnapshot, by rw [List.find?_cons_of_pos hstop, hr]⟩
      by_cases hlt : r < p
      · have hstop : stops p r = true := by rw [stops, decide_eq_true hlt, Bool.or_true]
        exact ⟨l, (if_neg hhas).trans (if_pos hlt), hsnapshot,
          by rw [List.find?_cons_of_pos hstop, hr]⟩
      have hgo : ¬ stops p r = true := by
        rw [stops, Bool.or_eq_true, decide_eq_true_eq]
        exact not_or.mpr ⟨hhas, hlt⟩
      -- behind `r` in the reversed keys comes `R`
      obtain ⟨l', hx, hsnapshot', hpos'⟩ := Lit.prev_eq hr
      have hnodup : (C ++ r :: R).Nodup := by
        rw [← hR, List.nodup_reverse]
        exact nodup_of_sorted db.pairwise_keys
      have hnot : r ∉ C := fun hin =>
        (List.nodup_append.mp hnodup).2.2 r hin r List.mem_cons_self rfl
      rw [hsnapshot, hR, Tour.next_append hnot] at hpos'
      have hR' : db.keys.reverse = (C ++ [r]) ++ R := by rw [hR, List.append_assoc]; rfl
      obtain ⟨l'', hx', hrest⟩ := ih hR' (Nat.lt_of_succ_lt_succ hfuel)
        (hsnapshot'.trans hsnapshot) hpos'
      refine ⟨l'', ?_, by rwa [List.find?_cons_of_neg hgo]⟩
      refine (if_neg hhas).trans ((if_neg hlt).trans ?_)
      rw [hx]
      exact hx'

theorem stops_of_before (hs : Segment p db.keys A M B) (hk : k ∈ A) : stops p k = true := by
  rw [stops, decide_eq_true (hs.before k hk), Bool.or_true]

theorem stops_of_has (hs : Segment p db.keys A M B) (hk : k ∈ M) : stops p k = true := by
  rw [stops, hs.isPrefixOf_has k hk, Bool.true_or]

theorem not_stops_of_behind (hs : Segment p db.keys A M B) (hk : k ∈ B) : ¬ stops p k = true := by
  rw [stops, hs.isPrefixOf_behind k hk, Bool.false_or, decide_eq_true_eq]
  exact not_lt_of_ge (hs.behind k hk).1

/-- From a key behind the segment the loop comes to the last key with the prefix. -/
theorem find?_stops (hs : Segment p db.keys A M B) {N : List (List UInt8)} (hN : ∀ b ∈ N, b ∈ B) :
    ((N.reverse ++ M.reverse ++ A.reverse).find? (stops p)).filter (fun k => p.isPrefixOf k) =
      M.reverse.head? := by
  have hnone : N.reverse.find? (stops p) = none := by
    rw [List.find?_eq_none]
    exact fun b hb => not_stops_of_behind hs (hN b (List.mem_reverse.mp hb))
  have hall : (M.reverse ++ A.reverse).find? (stops p) = (M.reverse ++ A.reverse).head? := by
    rw [← List.head?_filter, List.filter_eq_self.mpr]
    intro k hk
    rcases List.mem_append.mp hk with hk | hk
    · exact stops_of_has hs (List.mem_reverse.mp hk)
    · exact stops_of_before hs (List.mem_reverse.mp hk)
  rw [List.append_assoc, List.find?_append, hnone, Option.none_or, hall]
  exact Tour.head?_append_filter (fun m hm => hs.isPrefixOf_has m (List.mem_reverse.mp hm))
    fun a ha => hs.isPrefixOf_before a (List.mem_reverse.mp ha)

/-- A decrement from the end, from where the loop of `seekLast` begins. -/
theorem decrement_end {C R : List (List UInt8)} (h : it.At db p none)
    (hR : db.keys.reverse = C ++ R)
    (hseek : seekLast signed p it.entry.lit = seekBack p (l.snapshot.keys.length + 1) l)
    (hsnapshot : l.snapshot = db) (hpos : l.pos = R.head?) :
    ∃ it', it.decrement signed = some it' ∧
      it'.At db p ((R.find? (stops p)).filter fun k => p.isPrefixOf k) := by
  have hfuel : R.length < l.snapshot.keys.length + 1 := by
    have hlen := congrArg List.length hR
    rw [List.length_reverse, List.length_append] at hlen
    rw [hsnapshot]
    omega
  obtain ⟨l', hx, hsnapshot', hpos'⟩ := seekBack_eq hR hfuel hsnapshot hpos
  refine ⟨{ it with entry := ⟨l', checkValidity it.starts l'⟩ }, ?_, ?_⟩
  · rw [decrement, h.valid, h.starts, hseek, hx]
    rfl
  · have hat := at_of_lit h.starts hsnapshot'
    rwa [hpos'] at hat

/-! ## The bound of the segment -/

theorem charLess_charMax (signed : Bool) (b : UInt8) :
    charLess signed b (charMax signed) = true ↔ b ≠ charMax signed := by
  cases signed with
  | true =>
    have hmax : (127 : UInt8).toInt8.toInt = 127 := rfl
    have hinj : b.toInt8.toInt = 127 ↔ b = 127 := by
      rw [← hmax, Int8.toInt_inj]
      exact ⟨fun h => congrArg Int8.toUInt8 h, fun h => congrArg UInt8.toInt8 h⟩
    have hle := Int8.toInt_le b.toInt8
    have hvalue : Int8.maxValue.toInt = 127 := rfl
    rw [charLess, if_pos rfl, decide_eq_true_eq, Int8.lt_iff_toInt_lt, charMax, if_pos rfl, hmax]
    rw [ne_eq, ← hinj]
    omega
  | false =>
    have hmax : (255 : UInt8).toNat = 255 := rfl
    have hlt := UInt8.toNat_lt b
    have hinj : b.toNat = 255 ↔ b = 255 := by rw [← hmax, UInt8.toNat_inj]
    rw [charLess, if_neg Bool.false_ne_true, decide_eq_true_eq, UInt8.lt_iff_toNat_lt, charMax,
      if_neg Bool.false_ne_true, hmax, ne_eq, ← hinj]
    omega

variable (signed) in
theorem carry_append (q t : List UInt8) (b : UInt8) : carry signed (q ++ b :: t) (q.length + 1) =
    if b ≠ charMax signed then some (q ++ (b + 1) :: t)
    else carry signed (q ++ b :: t) q.length := by
  have hget : (q ++ b :: t)[q.length]? = some b := by
    rw [List.getElem?_append_right (Nat.le_refl _), Nat.sub_self]
    rfl
  rw [carry, hget]
  simp only [Option.bind_eq_bind, Option.bind_some, charLess_charMax]
  rw [List.set_append_right _ _ (Nat.le_refl _), Nat.sub_self]
  rfl

variable (signed) in
/-- The loop skips the bytes that are `CHAR_MAX`. -/
theorem carry_replicate (q : List UInt8) (j : ℕ) :
    carry signed (q ++ List.replicate j (charMax signed)) (q.length + j) =
      carry signed (q ++ List.replicate j (charMax signed)) q.length := by
  induction j generalizing q with
  | zero => rfl
  | succ j ih =>
    have hsplit : q ++ List.replicate (j + 1) (charMax signed) =
        (q ++ [charMax signed]) ++ List.replicate j (charMax signed) := by
      rw [List.replicate_succ, List.append_assoc]
      rfl
    have hlen : q.length + (j + 1) = (q ++ [charMax signed]).length + j := by
      rw [List.length_append, List.length_singleton]
      omega
    have hone := carry_append signed q (List.replicate j (charMax signed)) (charMax signed)
    rw [if_neg (not_not_intro rfl), ← List.replicate_succ] at hone
    rw [hlen, hsplit, ih, ← hsplit, List.length_append, List.length_singleton, hone]

/-- What the loop makes of a prefix. -/
theorem carry_eq (q : List UInt8) (b : UInt8) (j : ℕ) (hb : b ≠ charMax signed) :
    let p := q ++ b :: List.replicate j (charMax signed)
    carry signed p p.length = some (q ++ (b + 1) :: List.replicate j (charMax signed)) := by
  intro p
  have hp : p = (q ++ [b]) ++ List.replicate j (charMax signed) := by
    rw [List.append_assoc]
    rfl
  have hlen : p.length = (q ++ [b]).length + j := by
    rw [hp, List.length_append, List.length_replicate]
  rw [hlen, hp, carry_replicate, ← hp, List.length_append, List.length_singleton, carry_append,
    if_pos hb]

variable (signed) in
/-- A prefix of nothing but `CHAR_MAX` lets the loop read outside of it. -/
theorem carry_replicate_eq_none (j : ℕ) :
    carry signed (List.replicate j (charMax signed)) j = none := by
  have hskip := carry_replicate signed [] j
  rwa [List.nil_append, List.length_nil, Nat.zero_add] at hskip

/-- A prefix has a last byte that is not `CHAR_MAX`, or none. -/
theorem exists_last (c : UInt8) (p : List UInt8) : (∃ j, p = List.replicate j c) ∨
    ∃ q b j, p = q ++ b :: List.replicate j c ∧ b ≠ c := by
  induction p using List.reverseRecOn with
  | nil => exact Or.inl ⟨0, rfl⟩
  | append_singleton p b ih =>
    by_cases hb : b = c
    · subst hb
      rcases ih with ⟨j, rfl⟩ | ⟨q, b', j, rfl, hne⟩
      · exact Or.inl ⟨j + 1, by rw [List.replicate_succ']⟩
      · exact Or.inr ⟨q, b', j + 1, by
          rw [List.replicate_succ', List.append_assoc, List.cons_append], hne⟩
    · exact Or.inr ⟨p, b, 0, rfl, hb⟩

/-! ## From the end to the last key -/

/-- From the end, the loop begins at the first key that is not less than the bound. -/
theorem decrement_carry {after : List UInt8} {C D : List (List UInt8)} (h : it.At db p none)
    (hp : p ≠ []) (hafter : carry signed p p.length = some after) (hkeys : db.keys = C ++ D)
    (hC : ∀ k ∈ C, k < after) (hD : ∀ k ∈ D, after ≤ k) :
    ∃ it', it.decrement signed = some it' ∧
      it'.At db p (((C ++ D.take 1).reverse.find? (stops p)).filter fun k => p.isPrefixOf k) := by
  have hpos : (it.entry.lit.seek after).pos = D.head? := by
    rw [Lit.pos_seek h.snapshot, hkeys, find?_append_ge hC hD]
  cases D with
  | nil =>
    -- nothing is behind the bound: it begins at the last key
    have hinvalid : (it.entry.lit.seek after).valid = false := by rw [Lit.valid, hpos]; rfl
    have hR : db.keys.reverse = [] ++ (C ++ [].take 1).reverse := by
      rw [hkeys, List.take_nil]
      rfl
    refine decrement_end (l := (it.entry.lit.seek after).seekToLast) h hR ?_ h.snapshot ?_
    · rw [seekLast, if_pos hp, hafter]
      simp only [Option.bind_eq_bind, Option.bind_some, hinvalid, Bool.false_eq_true, if_false]
    · have hsnapshot : (it.entry.lit.seek after).snapshot = db := h.snapshot
      rw [Lit.pos_seekToLast hsnapshot, hR, List.nil_append]
  | cons d D =>
    have hvalid : (it.entry.lit.seek after).valid = true := by rw [Lit.valid, hpos]; rfl
    have hR : db.keys.reverse = D.reverse ++ (C ++ (d :: D).take 1).reverse := by
      rw [hkeys, ← List.reverse_append, List.append_assoc]
      rfl
    refine decrement_end (l := it.entry.lit.seek after) h hR ?_ h.snapshot ?_
    · rw [seekLast, if_pos hp, hafter]
      simp only [Option.bind_eq_bind, Option.bind_some, hvalid, if_true]
    · rw [hpos, List.take_succ_cons, List.take_zero, List.reverse_append]
      rfl

/-- Without a prefix the loop begins at the last key. -/
theorem decrement_nil (hs : Segment [] db.keys A M B) (h : it.At db [] none) :
    ∃ it', it.decrement signed = some it' ∧ it'.At db [] (Tour.next M.reverse none) := by
  have hR : db.keys.reverse = [] ++ (B.reverse ++ M.reverse ++ A.reverse) := by
    rw [hs.eq, List.reverse_append, List.reverse_append, List.append_assoc]
    rfl
  have hseek : seekLast signed [] it.entry.lit =
      seekBack [] (it.entry.lit.seekToLast.snapshot.keys.length + 1) it.entry.lit.seekToLast := by
    rw [seekLast, if_neg (not_not_intro rfl)]
    rfl
  have hpos : it.entry.lit.seekToLast.pos = (B.reverse ++ M.reverse ++ A.reverse).head? := by
    rw [Lit.pos_seekToLast h.snapshot, hR, List.nil_append]
  have hend := decrement_end h hR hseek h.snapshot hpos
  rwa [find?_stops hs fun b hb => hb] at hend

/-- A byte that is not `0xFF` becomes greater. -/
theorem lt_add_one {b : UInt8} (hb : b ≠ 255) : b < b + 1 := by
  have hvalue : b.toNat ≠ 255 := fun heq => hb (UInt8.toNat_inj.mp heq)
  have hlt := UInt8.toNat_lt b
  rw [UInt8.lt_iff_toNat_lt, UInt8.toNat_add]
  have hone : (1 : UInt8).toNat = 1 := rfl
  omega

/-- A bound behind the segment leads to its last key. -/
theorem decrement_bound {q : List UInt8} {b : UInt8} {j : ℕ}
    (hp : p = q ++ b :: List.replicate j (charMax signed)) (hb : b ≠ charMax signed)
    (hmax : b ≠ 255) (hs : Segment p db.keys A M B) (h : it.At db p none) :
    ∃ it', it.decrement signed = some it' ∧ it'.At db p (Tour.next M.reverse none) := by
  have hafter := carry_eq q b j hb
  rw [← hp] at hafter
  have hnext := lt_add_one hmax
  -- the keys from the bound on are behind the segment
  obtain ⟨B', hB, hB'⟩ := exists_append_ge (List.pairwise_append.mp (hs.eq ▸ db.pairwise_keys)).2.1
    (q ++ (b + 1) :: List.replicate j (charMax signed))
  have hbelow : ∀ k ∈ A ++ M ++ B', k < q ++ (b + 1) :: List.replicate j (charMax signed) := by
    intro k hk
    rcases List.mem_append.mp hk with hk | hk
    · rcases List.mem_append.mp hk with hk | hk
      · exact (hs.before k hk).trans (hp ▸ append_cons_lt hnext)
      · exact lt_of_prefix_cons (hp ▸ hs.has hk) hnext
    · exact hB' k hk
  have hkeys : db.keys = A ++ M ++ B' ++
      B.filter (q ++ (b + 1) :: List.replicate j (charMax signed) ≤ ·) := by
    rw [List.append_assoc, ← hB]
    exact hs.eq
  have hcons : p ≠ [] := by
    rw [hp]
    exact List.append_ne_nil_of_right_ne_nil q (List.cons_ne_nil _ _)
  obtain ⟨it', hx, hat⟩ := decrement_carry h hcons hafter hkeys hbelow fun k hk =>
    of_decide_eq_true (List.mem_filter.mp hk).2
  refine ⟨it', hx, ?_⟩
  rw [List.append_assoc, List.reverse_append, @List.reverse_append _ A M, ← List.append_assoc]
    at hat
  rwa [find?_stops hs] at hat
  intro k hk
  rw [hB]
  rcases List.mem_append.mp hk with hk | hk
  · exact List.mem_append_left _ hk
  · exact List.mem_append_right _ (List.mem_of_mem_take hk)

/-- A bound before the segment leads to its first key, or to the end. -/
theorem decrement_low {after : List UInt8} {C D : List (List UInt8)}
    (hp : p ≠ []) (hafter : carry signed p p.length = some after) (hlow : after < p)
    (hs : Segment p db.keys (C ++ D) M B) (hC : ∀ k ∈ C, k < after) (hD : ∀ k ∈ D, after ≤ k)
    (h : it.At db p none) :
    ∃ it', it.decrement signed = some it' ∧ it'.At db p (if D = [] then M.head? else none) := by
  have hkeys : db.keys = C ++ (D ++ M ++ B) := by
    rw [hs.eq]
    simp only [List.append_assoc]
  have hge : ∀ k ∈ D ++ M ++ B, after ≤ k := by
    intro k hk
    rcases List.mem_append.mp hk with hk | hk
    · rcases List.mem_append.mp hk with hk | hk
      · exact hD k hk
      · exact le_of_lt (lt_of_lt_of_le hlow (le_of_isPrefix (hs.has hk)))
    · exact le_of_lt (lt_of_lt_of_le hlow (hs.behind k hk).1)
  obtain ⟨it', hx, hat⟩ := decrement_carry h hp hafter hkeys hC hge
  refine ⟨it', hx, ?_⟩
  cases D with
  | cons d D =>
    -- it begins before the prefix, and stays there
    have hd : d ∈ C ++ d :: D := List.mem_append_right C List.mem_cons_self
    rw [List.cons_append, List.cons_append, List.take_succ_cons, List.take_zero,
      List.reverse_append, List.reverse_singleton, List.singleton_append,
      List.find?_cons_of_pos (stops_of_before hs hd)] at hat
    rw [if_neg (List.cons_ne_nil d D)]
    rwa [Option.filter, hs.isPrefixOf_before d hd] at hat
  | nil =>
    rw [List.append_nil] at hs
    rw [if_pos rfl]
    cases M with
    | cons m M =>
      rw [List.nil_append, List.cons_append, List.take_succ_cons, List.take_zero,
        List.reverse_append, List.reverse_singleton, List.singleton_append,
        List.find?_cons_of_pos (stops_of_has hs List.mem_cons_self)] at hat
      rwa [Option.filter, hs.isPrefixOf_has m List.mem_cons_self] at hat
    | nil =>
      have hback := find?_stops hs (N := B.take 1) fun k hk => List.mem_of_mem_take hk
      rw [List.reverse_nil, List.append_nil, ← List.reverse_append] at hback
      rwa [List.nil_append, List.nil_append, hback] at hat

end At

/-! ## Both traversals -/

/-- The traversals in both directions visit the keys with the prefix, and a step in one direction
is undone by a step in the other. -/
structure Exact (signed : Bool) (db : Database) (key : Datum) : Prop where
  ascending : ∃ fuel, Tour.visit
      (fun it => it.entry.equal (Ldb.startsWith db key).2.entry) (fun it => it.entry.position)
      increment fuel (Ldb.startsWith db key).1 =
    some ((prefixed (ldbSerialize [] key) db.keys).map some)
  descending : ∃ last, (Ldb.startsWith db key).2.decrement signed = some last ∧
    ∃ fuel, Tour.visit
        (fun it => it.entry.atEnd) (fun it => it.entry.position) (decrement signed) fuel last =
      some ((prefixed (ldbSerialize [] key) db.keys).reverse.map some)
  on_and_back : ∀ it o, At db (ldbSerialize [] key) it o →
    ∃ it', (it.increment.bind (decrement signed)) = some it' ∧ it'.At db (ldbSerialize [] key) o
  back_and_on : ∀ it o, At db (ldbSerialize [] key) it o →
    ∃ it', ((it.decrement signed).bind increment) = some it' ∧ it'.At db (ldbSerialize [] key) o

/-- The prefix is empty, or it has a byte other than `CHAR_MAX`, and incrementing the last such
byte does not wrap around, or does no harm: no key has the prefix, or a single one, with no key
between the wrapped bound and the prefix. -/
def Bounded (signed : Bool) (p : List UInt8) (L : List (List UInt8)) : Prop :=
  p = [] ∨ ∃ q b j, p = q ++ b :: List.replicate j (charMax signed) ∧ b ≠ charMax signed ∧
    (b ≠ 255 ∨ prefixed p L = [] ∨ (prefixed p L).length = 1 ∧
      ∀ k ∈ L, ¬ (q ++ 0 :: List.replicate j (charMax signed) ≤ k ∧ k < p))

section Both

variable {db : Database} {p : List UInt8} {it it' : StartsWithIterator} {o : Option (List UInt8)}
  {signed : Bool} {A M B : List (List UInt8)} {key : Datum}

/-- The loop from one position backwards, if it does not start at the end. -/
theorem visit_decrement {n : ℕ} (hs : Segment p db.keys A M B) (h : it.At db p o) :
    Tour.visit (fun it => it.entry.atEnd) (fun it => it.entry.position) (decrement signed) n it =
      Tour.visitPos M.reverse none n o := by
  refine Tour.visit_eq_visitPos (R := At db p) (fun it o h => ?_) (fun _ _ h => h.position)
    (fun it o h ho => ?_) h
  · rw [IteratorEntry.atEnd, h.valid]
    cases o <;> simp
  · cases o with
    | none => exact absurd rfl ho
    | some k => exact startsWith_decrement hs h

/-- The iterators of a prefix stand on its first key and at the end. -/
theorem startsWith_at (hs : Segment (ldbSerialize [] key) db.keys A M B) :
    (Ldb.startsWith db key).1.At db (ldbSerialize [] key) M.head? ∧
      (Ldb.startsWith db key).2.At db (ldbSerialize [] key) none := by
  have hend : (Ldb.startsWith db key).2.At db (ldbSerialize [] key) none :=
    ⟨rfl, rfl, rfl, nofun, Tour.isPos_none⟩
  refine ⟨?_, hend⟩
  -- the first iterator is the end incremented
  obtain ⟨it', hx, hat⟩ := startsWith_increment hs hend
  have hfirst : (Ldb.startsWith db key).2.increment = some (Ldb.startsWith db key).1 := rfl
  rw [hfirst, Option.some_inj] at hx
  rw [hx]
  exact hat

/-- Where the decrement from the end goes to the last key, the traversals are exact. -/
theorem exact_of_decrement (hs : Segment (ldbSerialize [] key) db.keys A M B)
    (hlast : ∀ it : StartsWithIterator, it.At db (ldbSerialize [] key) none →
      ∃ it', it.decrement signed = some it' ∧
        it'.At db (ldbSerialize [] key) (Tour.next M.reverse none)) :
    Exact signed db key := by
  obtain ⟨hfirst, hend⟩ := startsWith_at hs
  have hM : M.Nodup := by
    have hnodup := hs.nodup
    rw [hs.eq] at hnodup
    exact (List.nodup_append.mp (List.nodup_append.mp hnodup).1).2.1
  have hback : ∀ (it : StartsWithIterator) o, it.At db (ldbSerialize [] key) o →
      ∃ it', it.decrement signed = some it' ∧
        it'.At db (ldbSerialize [] key) (Tour.next M.reverse o) := by
    intro it o h
    cases o with
    | none => exact hlast it h
    | some k => exact startsWith_decrement hs h
  -- a loop from the first position of a list visits the list
  have hround : ∀ L : List (List UInt8), L.Nodup →
      ∃ n, Tour.visitPos L none n L.head? = some (L.map some) := by
    intro L hL
    have hiff := Tour.visitPos_eq_iff (A := []) (M := L) (B := []) (z := none)
      (by rwa [List.nil_append, List.append_nil]) nofun
    rw [List.nil_append, List.append_nil] at hiff
    exact hiff.mpr rfl
  constructor
  · obtain ⟨n, hn⟩ := hround M hM
    refine ⟨n, ?_⟩
    rw [hs.prefixed, ← hn]
    exact Tour.visit_eq_visitPos (R := At db (ldbSerialize [] key))
      (fun it o h => h.equal_end hend) (fun _ _ h => h.position)
      (fun it o h _ => startsWith_increment hs h) hfirst
  · obtain ⟨last, hx, hat⟩ := hlast _ hend
    obtain ⟨n, hn⟩ := hround M.reverse (List.nodup_reverse.mpr hM)
    exact ⟨last, hx, n, by rw [visit_decrement hs hat, hs.prefixed]; exact hn⟩
  · intro it o h
    obtain ⟨it', hx, hat⟩ := startsWith_increment hs h
    obtain ⟨it'', hx', hat'⟩ := hback it' _ hat
    rw [Tour.next_reverse_next hM (hs.prefixed ▸ h.isPos)] at hat'
    exact ⟨it'', by rw [hx]; exact hx', hat'⟩
  · intro it o h
    obtain ⟨it', hx, hat⟩ := hback it o h
    obtain ⟨it'', hx', hat'⟩ := startsWith_increment hs hat
    rw [Tour.next_next_reverse hM (hs.prefixed ▸ h.isPos)] at hat'
    exact ⟨it'', by rw [hx]; exact hx', hat'⟩

/-- Where the decrement from the end may go to the first key, the traversal backwards is exact
only if there is at most one key. -/
theorem length_of_descending {cond : Prop} [Decidable cond]
    (hs : Segment (ldbSerialize [] key) db.keys A M B)
    (hlow : ∃ it', (Ldb.startsWith db key).2.decrement signed = some it' ∧
      it'.At db (ldbSerialize [] key) (if cond then M.head? else none))
    (h : Exact signed db key) : M = [] ∨ M.length = 1 ∧ cond := by
  obtain ⟨last, hx, n, hn⟩ := h.descending
  obtain ⟨it', hx', hat⟩ := hlow
  obtain rfl : it' = last := Option.some_inj.mp (hx'.symm.trans hx)
  rw [visit_decrement hs hat, hs.prefixed] at hn
  by_cases hcond : cond
  · rw [if_pos hcond] at hn
    cases M with
    | nil => exact Or.inl rfl
    | cons m M =>
      -- behind the first key the loop is over
      have hm : m ∉ M.reverse := by
        have hnodup := hs.nodup
        rw [hs.eq] at hnodup
        rw [List.mem_reverse]
        exact (List.nodup_cons.mp (List.nodup_append.mp (List.nodup_append.mp hnodup).1).2.1).1
      rw [List.head?_cons, List.reverse_cons] at hn
      cases n with
      | zero => cases hn
      | succ n =>
        rw [Tour.visitPos_of_ne (Option.some_ne_none m), Tour.next_append hm] at hn
        cases n with
        | zero => cases hn
        | succ n =>
          rw [List.head?_nil, Tour.visitPos_self] at hn
          have hlen := congrArg List.length (Option.some_inj.mp hn)
          rw [List.length_map, List.length_append, List.length_reverse] at hlen
          refine Or.inr ⟨?_, hcond⟩
          rw [List.length_cons]
          exact hlen.symm
  · rw [if_neg hcond] at hn
    cases n with
    | zero => cases hn
    | succ n =>
      rw [Tour.visitPos_self] at hn
      have hlen := congrArg List.length (Option.some_inj.mp hn)
      rw [List.length_map, List.length_reverse] at hlen
      exact Or.inl (List.length_eq_zero_iff.mp hlen.symm)

/-- With a byte that wraps around, a decrement from the end goes to the first key, unless there
are keys between the bound and the prefix. -/
theorem decrement_wrapped {q : List UInt8} {j : ℕ}
    (hp : p = q ++ 255 :: List.replicate j (charMax signed)) (hmax : 255 ≠ charMax signed)
    (hs : Segment p db.keys A M B) (h : it.At db p none) :
    ∃ D : List (List UInt8),
      (D = [] ↔ ∀ k ∈ db.keys, ¬ (q ++ 0 :: List.replicate j (charMax signed) ≤ k ∧ k < p)) ∧
      ∃ it', it.decrement signed = some it' ∧ it'.At db p (if D = [] then M.head? else none) := by
  -- the byte 255 that is incremented becomes 0, and the bound lies before the prefix
  have hzero : (255 : UInt8) + 1 = 0 := rfl
  have hafter := carry_eq q 255 j hmax
  rw [hzero, ← hp] at hafter
  -- the search stops at the first key behind that bound
  obtain ⟨C, hA, hC⟩ := exists_append_ge
    (List.pairwise_append.mp (List.pairwise_append.mp (hs.eq ▸ db.pairwise_keys)).1).1
    (q ++ 0 :: List.replicate j (charMax signed))
  have hcons : p ≠ [] := by
    rw [hp]
    exact List.append_ne_nil_of_right_ne_nil q (List.cons_ne_nil _ _)
  have hlow : q ++ 0 :: List.replicate j (charMax signed) < p := by
    rw [hp]
    exact append_cons_lt (by decide)
  refine ⟨_, ?_, decrement_low hcons hafter hlow (hA ▸ hs) hC
    (fun k hk => of_decide_eq_true (List.mem_filter.mp hk).2) h⟩
  -- there is none exactly if no key lies between the bound and the prefix
  rw [List.filter_eq_nil_iff]
  constructor
  · rintro hnil k hk ⟨hge, hlt⟩
    rw [hs.eq] at hk
    rcases List.mem_append.mp hk with hk | hk
    · rcases List.mem_append.mp hk with hk | hk
      · exact hnil k hk (decide_eq_true hge)
      · exact absurd (le_of_isPrefix (hs.has hk)) (not_le_of_gt hlt)
    · exact absurd (hs.behind k hk).1 (not_le_of_gt hlt)
  · intro hnot k hk hge
    have hmem : k ∈ db.keys := by
      rw [hs.eq]
      exact List.mem_append_left B (List.mem_append_left M hk)
    exact hnot k hmem ⟨of_decide_eq_true hge, hs.before k hk⟩

/-- A prefix of nothing but `CHAR_MAX` has no decrement from the end. -/
theorem not_exact_replicate {j : ℕ}
    (hp : ldbSerialize [] key = List.replicate (j + 1) (charMax signed)) :
    ¬ Exact signed db key := by
  intro h
  obtain ⟨last, hx, -⟩ := h.descending
  obtain ⟨A, M, B, hs⟩ := exists_segment db.pairwise_keys (ldbSerialize [] key)
  have hend := (startsWith_at hs).2
  have hne : ldbSerialize [] key ≠ [] := by
    rw [hp]
    exact List.cons_ne_nil _ _
  rw [decrement, hend.valid, hend.starts, seekLast, if_pos hne, hp, List.length_replicate,
    carry_replicate_eq_none] at hx
  cases hx

/-- The traversals are exact if and only if the bound that the loop computes leads back to the
keys with the prefix. -/
theorem exact_iff (signed : Bool) (db : Database) (key : Datum) :
    Exact signed db key ↔ Bounded signed (ldbSerialize [] key) db.keys := by
  obtain ⟨A, M, B, hs⟩ := exists_segment db.pairwise_keys (ldbSerialize [] key)
  have hend := (startsWith_at hs).2
  constructor
  · intro h
    rcases exists_last (charMax signed) (ldbSerialize [] key) with ⟨j, hp⟩ | ⟨q, b, j, hp, hb⟩
    · cases j with
      | zero => exact Or.inl hp
      | succ j => exact absurd h (not_exact_replicate hp)
    · refine Or.inr ⟨q, b, j, hp, hb, ?_⟩
      by_cases hmax : b = 255
      · subst hmax
        obtain ⟨D, hD, hlow⟩ := decrement_wrapped hp hb hs hend
        rw [hs.prefixed, ← hD]
        exact Or.inr (length_of_descending hs hlow h)
      · exact Or.inl hmax
  · rintro (hnil | ⟨q, b, j, hp, hb, hcase⟩)
    · refine exact_of_decrement hs fun it hit => ?_
      rw [hnil] at hs hit ⊢
      exact decrement_nil hs hit
    · by_cases hmax : b = 255
      · subst hmax
        refine exact_of_decrement hs fun it hit => ?_
        obtain ⟨D, hD, hlow⟩ := decrement_wrapped hp hb hs hit
        rw [hs.prefixed, ← hD] at hcase
        -- the first key is the last one
        rcases hcase with hne | rfl | ⟨hone, hnil⟩
        · exact absurd rfl hne
        · rwa [List.head?_nil, ite_self] at hlow
        · obtain ⟨m, rfl⟩ := List.length_eq_one_iff.mp hone
          rwa [if_pos hnil] at hlow
      · exact exact_of_decrement hs fun it hit => decrement_bound hp hb hmax hs hit

/-- Two keys that begin with `0xFF`. -/
def twoHighKeys : Database := ⟨[([255, 1], []), ([255, 2], [])], by decide⟩

/-- Signed or not, a `char` of `0xFF` has no bound: the traversal backwards misses a key, or the
loop leaves the prefix. -/
theorem not_exact_twoHighKeys :
    ¬ Exact true twoHighKeys (.gstring [255]) ∧ ¬ Exact false twoHighKeys (.gstring [255]) := by
  constructor
  · intro h
    obtain ⟨A, M, B, hs⟩ :=
      exists_segment twoHighKeys.pairwise_keys (ldbSerialize [] (.gstring [255]))
    have hmax : 255 ≠ charMax true := by decide
    obtain ⟨D, -, hlow⟩ := decrement_wrapped (q := []) (j := 0) rfl hmax hs (startsWith_at hs).2
    have htwo : M.length = 2 := by
      rw [← hs.prefixed]
      rfl
    rcases length_of_descending hs hlow h with rfl | ⟨hone, -⟩
    · cases htwo
    · rw [htwo] at hone
      cases hone
  · exact not_exact_replicate (j := 0) rfl

end Both

end StartsWithIterator

end Glim
