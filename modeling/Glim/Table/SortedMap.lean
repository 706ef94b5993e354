import Mathlib.Order.Bounds.Basic
import Mathlib.Data.List.Nodup
import Mathlib.Data.List.Pairwise

/-!
# Sorted maps

A finite map as the list of its entries in the order of the keys.

## Main definitions

* `SortedMap`: the entries, strictly sorted by their keys
* `SortedMap.lookup`, `SortedMap.insert`, `SortedMap.erase`
* `interval`: the elements of a list between two bounds

## Main results

* `SortedMap.lookup_insert`, `SortedMap.lookup_erase`: the laws of a map
* `filter_append_filter_not`: a lower set of a sorted list is in front of the rest
* `find?_eq_some_iff_isLeast`: the first element that is not less is the least one
-/

namespace Table

/-- The entries of a map, strictly sorted by their keys. -/
structure SortedMap (κ ν : Type) [LinearOrder κ] where
  entries : List (κ × ν)
  sorted : (entries.map Prod.fst).Pairwise (· < ·)

variable {κ ν : Type} [LinearOrder κ]

/-! ## Sorted lists -/

section Sorted

variable {L : List κ}

theorem nodup_of_sorted (hL : L.Pairwise (· < ·)) : L.Nodup := hL.imp fun h => ne_of_lt h

/-- The elements of a lower set are in front of the others. -/
theorem filter_append_filter_not (hL : L.Pairwise (· < ·)) {q : κ → Bool}
    (hq : ∀ a ∈ L, ∀ b, a < b → q b = true → q a = true) :
    L.filter q ++ L.filter (fun a => !q a) = L := by
  induction L with
  | nil => rfl
  | cons a L ih =>
    obtain ⟨ha, hL⟩ := List.pairwise_cons.mp hL
    have htail := ih hL fun b hb => hq b (List.mem_cons_of_mem a hb)
    cases hqa : q a with
    | true => rw [List.filter_cons_of_pos hqa, List.filter_cons_of_neg (by simp [hqa]),
        List.cons_append, htail]
    | false =>
      -- nothing behind `a` is in the lower set
      have hnone : L.filter q = [] := by
        rw [List.filter_eq_nil_iff]
        intro b hb hqb
        rw [hq a List.mem_cons_self b (ha b hb) hqb] at hqa
        cases hqa
      rw [hnone, List.nil_append] at htail
      rw [List.filter_cons_of_neg (by simp [hqa]), hnone, List.filter_cons_of_pos (by simp [hqa]),
        htail]
      rfl

theorem filter_lt_append (hL : L.Pairwise (· < ·)) (l : κ) :
    L.filter (· < l) ++ L.filter (l ≤ ·) = L := by
  have hsplit := filter_append_filter_not hL (q := (· < l)) fun a _ b hab hb => by
    rw [decide_eq_true_eq] at hb ⊢
    exact hab.trans hb
  simpa only [← decide_not, not_lt] using hsplit

/-- The elements from `t` on are behind smaller ones. -/
theorem exists_append_ge (hL : L.Pairwise (· < ·)) (t : κ) :
    ∃ A, L = A ++ L.filter (t ≤ ·) ∧ ∀ a ∈ A, a < t := by
  refine ⟨_, (filter_lt_append hL t).symm, fun a ha => ?_⟩
  have hlt := (List.mem_filter.mp ha).2
  rwa [decide_eq_true_eq] at hlt

theorem find?_append_ge {A C : List κ} {t : κ} (hA : ∀ a ∈ A, a < t) (hC : ∀ c ∈ C, t ≤ c) :
    (A ++ C).find? (t ≤ ·) = C.head? := by
  have hnone : A.find? (t ≤ ·) = none := by
    rw [List.find?_eq_none]
    intro a ha
    rw [decide_eq_true_eq]
    exact not_le_of_gt (hA a ha)
  rw [List.find?_append, hnone, Option.none_or]
  cases C with
  | nil => rfl
  | cons c C => exact List.find?_cons_of_pos (decide_eq_true (hC c List.mem_cons_self))

/-- The elements from `l` on and below `u`. -/
def interval (l u : κ) (L : List κ) : List κ := L.filter fun a => l ≤ a ∧ a < u

theorem mem_interval {l u a : κ} : a ∈ interval l u L ↔ a ∈ L ∧ l ≤ a ∧ a < u := by
  rw [interval, List.mem_filter, decide_eq_true_eq]

/-- The elements of an interval are in front of those behind it. -/
theorem interval_append (hL : L.Pairwise (· < ·)) {l u : κ} (h : l ≤ u) :
    interval l u L ++ L.filter (u ≤ ·) = L.filter (l ≤ ·) := by
  have hsplit := filter_lt_append (hL.filter (l ≤ ·)) u
  have hin : (L.filter (l ≤ ·)).filter (· < u) = interval l u L := by
    rw [List.filter_filter, interval]
    refine List.filter_congr fun a _ => ?_
    rw [Bool.decide_and, Bool.and_comm]
  have hbehind : (L.filter (l ≤ ·)).filter (u ≤ ·) = L.filter (u ≤ ·) := by
    rw [List.filter_filter]
    refine List.filter_congr fun a _ => ?_
    rw [← Bool.decide_and, decide_eq_decide]
    exact ⟨fun hand => hand.1, fun hu => ⟨hu, h.trans hu⟩⟩
  rwa [hin, hbehind] at hsplit

/-- Two bounds find the same element, or none, if and only if there is no element between them. -/
theorem find?_ge_eq_iff (hL : L.Pairwise (· < ·)) {l u : κ} (h : l ≤ u) :
    L.find? (u ≤ ·) = L.find? (l ≤ ·) ↔ interval l u L = [] := by
  rw [← List.head?_filter, ← List.head?_filter, ← interval_append hL h]
  constructor
  · intro heq
    -- the first element of the interval would be found by both
    cases hi : interval l u L with
    | nil => rfl
    | cons a as =>
      rw [hi, List.cons_append, List.head?_cons] at heq
      have hge := (List.mem_filter.mp (List.mem_of_head? heq)).2
      have hlt := (mem_interval.mp (hi ▸ List.mem_cons_self : a ∈ interval l u L)).2.2
      rw [decide_eq_true_eq] at hge
      exact absurd hlt (not_lt_of_ge hge)
  · intro hnil
    rw [hnil, List.nil_append]

theorem interval_eq_nil_of_le {l u : κ} (h : u ≤ l) : interval l u L = [] := by
  rw [List.eq_nil_iff_forall_not_mem]
  intro a ha
  obtain ⟨-, hla, hau⟩ := mem_interval.mp ha
  exact absurd (h.trans hla) (not_le_of_gt hau)

/-- The first element that is not less than `t` is the least one. -/
theorem find?_eq_some_iff_isLeast (hL : L.Pairwise (· < ·)) {t k : κ} :
    L.find? (t ≤ ·) = some k ↔ IsLeast {a | a ∈ L ∧ t ≤ a} k := by
  rw [List.find?_eq_some_iff_append]
  constructor
  · rintro ⟨hk, as, bs, rfl, has⟩
    refine ⟨⟨List.mem_append_right as List.mem_cons_self, of_decide_eq_true hk⟩, ?_⟩
    rintro a ⟨ha, hta⟩
    rcases List.mem_append.mp ha with ha | ha
    · have hnot := has a ha
      rw [Bool.not_eq_true', decide_eq_false_iff_not] at hnot
      exact absurd hta hnot
    · rcases List.mem_cons.mp ha with rfl | ha
      · exact le_refl _
      · exact le_of_lt ((List.pairwise_cons.mp (List.pairwise_append.mp hL).2.1).1 a ha)
  · rintro ⟨⟨hk, htk⟩, hleast⟩
    obtain ⟨as, bs, rfl⟩ := List.append_of_mem hk
    refine ⟨decide_eq_true htk, as, bs, rfl, fun a ha => ?_⟩
    rw [Bool.not_eq_true', decide_eq_false_iff_not]
    intro hta
    have hlt := (List.pairwise_append.mp hL).2.2 a ha k List.mem_cons_self
    exact absurd (hleast ⟨List.mem_append_left _ ha, hta⟩) (not_le_of_gt hlt)

end Sorted

namespace SortedMap

variable {m : SortedMap κ ν} {a k : κ} {b v : ν}

/-- The empty map. -/
def empty : SortedMap κ ν := ⟨[], List.Pairwise.nil⟩

/-- The keys, in order. -/
def keys (m : SortedMap κ ν) : List κ := m.entries.map Prod.fst

theorem pairwise_keys (m : SortedMap κ ν) : m.keys.Pairwise (· < ·) := m.sorted

/-- The value of a key. -/
def lookup (k : κ) (m : SortedMap κ ν) : Option ν :=
  (m.entries.find? fun e => e.1 = k).map Prod.snd

/-- The map with another value for a key. -/
def insert (k : κ) (v : ν) (m : SortedMap κ ν) : SortedMap κ ν where
  entries := m.entries.filter (·.1 < k) ++ (k, v) :: m.entries.filter (k < ·.1)
  sorted := by
    have hsorted := List.pairwise_map.mp m.sorted
    refine List.pairwise_map.mpr (List.pairwise_append.mpr ⟨hsorted.filter _, ?_, ?_⟩)
    · refine List.pairwise_cons.mpr ⟨fun e he => ?_, hsorted.filter _⟩
      exact of_decide_eq_true (List.mem_filter.mp he).2
    · intro e he e' he'
      have hlt : e.1 < k := of_decide_eq_true (List.mem_filter.mp he).2
      rcases List.mem_cons.mp he' with rfl | he'
      · exact hlt
      · exact hlt.trans (of_decide_eq_true (List.mem_filter.mp he').2)

/-- The map without a key. -/
def erase (k : κ) (m : SortedMap κ ν) : SortedMap κ ν where
  entries := m.entries.filter (·.1 ≠ k)
  sorted := List.pairwise_map.mpr ((List.pairwise_map.mp m.sorted).filter _)

/-- A key has the value of its entry. -/
theorem lookup_eq_some_iff : m.lookup k = some v ↔ (k, v) ∈ m.entries := by
  rw [lookup, Option.map_eq_some_iff]
  constructor
  · rintro ⟨⟨k', v'⟩, he, rfl⟩
    have hk := List.find?_some he
    rw [decide_eq_true_eq] at hk
    rw [← hk]
    exact List.mem_of_find?_eq_some he
  · intro hin
    have hsome : (m.entries.find? fun e => e.1 = k).isSome :=
      List.find?_isSome.mpr ⟨(k, v), hin, decide_eq_true rfl⟩
    obtain ⟨⟨k', v'⟩, he⟩ := Option.isSome_iff_exists.mp hsome
    have hk := List.find?_some he
    rw [decide_eq_true_eq] at hk
    have hmem := List.mem_of_find?_eq_some he
    -- the keys are different, so that there is one entry of `k`
    have hone : (k', v') = (k, v) :=
      List.inj_on_of_nodup_map (nodup_of_sorted m.sorted) hmem hin hk
    cases hone
    exact ⟨_, he, rfl⟩

theorem mem_insert : (a, b) ∈ (m.insert k v).entries ↔
    (a = k ∧ b = v) ∨ (a ≠ k ∧ (a, b) ∈ m.entries) := by
  simp only [insert, List.mem_append, List.mem_cons, List.mem_filter, decide_eq_true_eq,
    Prod.mk.injEq]
  constructor
  · rintro (⟨hin, hlt⟩ | heq | ⟨hin, hlt⟩)
    · exact Or.inr ⟨ne_of_lt hlt, hin⟩
    · exact Or.inl heq
    · exact Or.inr ⟨ne_of_gt hlt, hin⟩
  · rintro (heq | ⟨hne, hin⟩)
    · exact Or.inr (Or.inl heq)
    · rcases lt_or_gt_of_ne hne with hlt | hgt
      · exact Or.inl ⟨hin, hlt⟩
      · exact Or.inr (Or.inr ⟨hin, hgt⟩)

/-- The law of `insert`. -/
theorem lookup_insert : (m.insert k v).lookup a = if a = k then some v else m.lookup a := by
  ext b
  rw [lookup_eq_some_iff, mem_insert]
  split_ifs with h
  · simp [h, eq_comm]
  · simp [h, lookup_eq_some_iff]

/-- The law of `erase`. -/
theorem lookup_erase : (m.erase k).lookup a = if a = k then none else m.lookup a := by
  ext b
  rw [lookup_eq_some_iff, erase, List.mem_filter]
  split_ifs with h
  · simp [h]
  · simp [h, lookup_eq_some_iff]

@[simp] theorem lookup_empty : (empty : SortedMap κ ν).lookup k = none := rfl

theorem mem_keys : k ∈ m.keys ↔ (m.lookup k).isSome := by
  rw [keys, List.mem_map, Option.isSome_iff_exists]
  constructor
  · rintro ⟨⟨k, v⟩, he, rfl⟩
    exact ⟨v, lookup_eq_some_iff.mpr he⟩
  · rintro ⟨v, hv⟩
    exact ⟨(k, v), lookup_eq_some_iff.mp hv, rfl⟩

end SortedMap

end Table
