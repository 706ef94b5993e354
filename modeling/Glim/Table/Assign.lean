import Mathlib.Data.List.Induction
import Mathlib.Data.List.Nodup
import Mathlib.Data.List.Pairwise
import Mathlib.Order.Lattice

/-!
# Maps that find their keys by a comparison

An ordered map takes two keys for the same if neither is less than the other. When the
comparison orders the keys by some rank, the map keeps one entry for each rank: it is the map of
the last values of its keys as long as different keys have different ranks.

## Main definitions

* `assign`, `assignAll`: `map[key] = value`, and a sequence of such assignments
* `lastValue`, `IsMapOf`: what a map of the assigned values should be

## Main results

* `isMapOf_assignAll`: with different ranks, the entries are the last values of the keys
* `not_isMapOf_assignAll`: two keys of one rank share an entry
-/

namespace Table

variable {κ ν : Type}

/-- `map[key] = value`, for the entries in the order of `less`: the key of an entry is kept. -/
def assign (less : κ → κ → Bool) (key : κ) (value : ν) (entries : List (κ × ν)) : List (κ × ν) :=
  let same := entries.find? fun e => !less e.1 key && !less key e.1
  entries.filter (fun e => less e.1 key) ++
    ((same.map Prod.fst).getD key, value) :: entries.filter fun e => less key e.1

/-- The entries after the assignments, from an empty map. -/
def assignAll (less : κ → κ → Bool) (puts : List (κ × ν)) : List (κ × ν) :=
  puts.foldl (fun entries put => assign less put.1 put.2 entries) []

/-- The value that was assigned to a key last. -/
def lastValue [DecidableEq κ] (puts : List (κ × ν)) (key : κ) : Option ν :=
  (puts.reverse.find? fun put => put.1 = key).map Prod.snd

/-- The entries are those of the map of the last values: no key has two, and none is missing. -/
structure IsMapOf [DecidableEq κ] (puts entries : List (κ × ν)) : Prop where
  nodup : (entries.map Prod.fst).Nodup
  mem_iff : ∀ key value, (key, value) ∈ entries ↔ lastValue puts key = some value

theorem assignAll_append_singleton (less : κ → κ → Bool) (puts : List (κ × ν)) (put : κ × ν) :
    assignAll less (puts ++ [put]) = assign less put.1 put.2 (assignAll less puts) := by
  rw [assignAll, assignAll, List.foldl_append]
  rfl

theorem lastValue_append_singleton [DecidableEq κ] (puts : List (κ × ν)) (put : κ × ν) (key : κ) :
    lastValue (puts ++ [put]) key = if put.1 = key then some put.2 else lastValue puts key := by
  rw [lastValue, List.reverse_append, List.reverse_singleton, List.singleton_append,
    List.find?_cons]
  by_cases h : put.1 = key
  · simp only [h, decide_true, if_true, Option.map_some]
  · simp only [h, decide_false, if_false]
    rfl

section Rank

variable {ρ : Type} [LinearOrder ρ] {rank : κ → ρ} {less : κ → κ → Bool}
  (hless : ∀ a b, less a b = true ↔ rank a < rank b) {entries puts : List (κ × ν)} {key : κ}
  {value : ν}

include hless

/-- The comparison finds neither key less if they have the same rank. -/
theorem not_less_iff (a b : κ) : (!less a b && !less b a) = true ↔ rank a = rank b := by
  simp only [Bool.and_eq_true, Bool.not_eq_true', ← Bool.not_eq_true, hless, not_lt]
  exact ⟨fun h => le_antisymm h.2 h.1, fun h => ⟨h.ge, h.le⟩⟩

/-- The entry of the key has its rank. -/
theorem rank_assigned :
    rank (((entries.find? fun e => !less e.1 key && !less key e.1).map Prod.fst).getD key) =
      rank key := by
  cases hsame : entries.find? fun e => !less e.1 key && !less key e.1 with
  | none => rfl
  | some e =>
    have hfound := List.find?_some hsame
    exact (not_less_iff hless e.1 key).mp hfound

theorem sorted_assign (h : entries.Pairwise fun e e' => rank e.1 < rank e'.1) :
    (assign less key value entries).Pairwise fun e e' => rank e.1 < rank e'.1 := by
  refine List.pairwise_append.mpr ⟨h.filter _, List.pairwise_cons.mpr ⟨?_, h.filter _⟩, ?_⟩
  · intro e he
    rw [rank_assigned hless]
    exact (hless _ _).mp (List.mem_filter.mp he).2
  · intro e he e' he'
    have hlt := (hless _ _).mp (List.mem_filter.mp he).2
    rcases List.mem_cons.mp he' with rfl | he'
    · rw [rank_assigned hless]
      exact hlt
    · exact lt_trans hlt ((hless _ _).mp (List.mem_filter.mp he').2)

theorem sorted_assignAll :
    (assignAll less puts).Pairwise fun e e' => rank e.1 < rank e'.1 := by
  induction puts using List.reverseRecOn with
  | nil => exact List.Pairwise.nil
  | append_singleton puts put ih =>
    rw [assignAll_append_singleton]
    exact sorted_assign hless ih

/-- Assigning to a key whose rank no other key has. -/
theorem mem_assign (hkey : ∀ e ∈ entries, rank e.1 = rank key → e.1 = key) {a : κ} {b : ν} :
    (a, b) ∈ assign less key value entries ↔ a = key ∧ b = value ∨ a ≠ key ∧ (a, b) ∈ entries := by
  have hname : ((entries.find? fun e => !less e.1 key && !less key e.1).map Prod.fst).getD key =
      key := by
    cases hsame : entries.find? fun e => !less e.1 key && !less key e.1 with
    | none => rfl
    | some e =>
      have hfound := List.find?_some hsame
      exact hkey e (List.mem_of_find?_eq_some hsame) ((not_less_iff hless e.1 key).mp hfound)
  simp only [assign, hname, List.mem_append, List.mem_cons, List.mem_filter, hless, Prod.mk.injEq]
  constructor
  · rintro (⟨hin, hlt⟩ | heq | ⟨hin, hlt⟩)
    · exact Or.inr ⟨fun h => absurd hlt (by rw [h]; exact lt_irrefl _), hin⟩
    · exact Or.inl heq
    · exact Or.inr ⟨fun h => absurd hlt (by rw [h]; exact lt_irrefl _), hin⟩
  · rintro (heq | ⟨hne, hin⟩)
    · exact Or.inr (Or.inl heq)
    · rcases lt_trichotomy (rank a) (rank key) with hlt | heq | hgt
      · exact Or.inl ⟨hin, hlt⟩
      · exact absurd (hkey _ hin heq) hne
      · exact Or.inr (Or.inr ⟨hin, hgt⟩)

variable [DecidableEq κ]

/-- If different keys have different ranks, the entries are the last values of the keys. -/
theorem isMapOf_assignAll
    (hinj : ∀ p ∈ puts, ∀ q ∈ puts, rank p.1 = rank q.1 → p.1 = q.1) :
    IsMapOf puts (assignAll less puts) := by
  have hmem : ∀ a b, (a, b) ∈ assignAll less puts ↔ lastValue puts a = some b := by
    induction puts using List.reverseRecOn with
    | nil => exact fun a b => ⟨nofun, nofun⟩
    | append_singleton puts put ih =>
      have ih := ih fun p hp q hq =>
        hinj p (List.mem_append_left _ hp) q (List.mem_append_left _ hq)
      -- every entry has a key that was assigned to
      have hkey : ∀ e ∈ assignAll less puts, rank e.1 = rank put.1 → e.1 = put.1 := by
        intro e he hrank
        obtain ⟨p, hp, -⟩ := Option.map_eq_some_iff.mp ((ih e.1 e.2).mp he)
        have hfound := List.find?_some hp
        have hpe : p.1 = e.1 := of_decide_eq_true hfound
        have hin : p ∈ puts := List.mem_reverse.mp (List.mem_of_find?_eq_some hp)
        rw [← hpe] at hrank ⊢
        exact hinj p (List.mem_append_left _ hin) put
          (List.mem_append_right _ (List.mem_singleton_self put)) hrank
      intro a b
      rw [assignAll_append_singleton, mem_assign hless hkey, lastValue_append_singleton, ih]
      by_cases h : put.1 = a
      · simp [h, eq_comm]
      · have ha : a ≠ put.1 := fun ha => h ha.symm
        simp [h, ha]
  refine ⟨?_, hmem⟩
  refine List.pairwise_map.mpr ((sorted_assignAll hless).imp fun hlt heq => ?_)
  rw [heq] at hlt
  exact lt_irrefl _ hlt

/-- Two keys of one rank share an entry. -/
theorem not_isMapOf_assignAll {a b : κ} (hne : a ≠ b) (hrank : rank a = rank b) (v : ν) :
    ¬ IsMapOf [(a, v), (b, v)] (assignAll less [(a, v), (b, v)]) := by
  have hself : ∀ x y, rank x = rank y → less x y = false := fun x y h => by
    rw [← Bool.not_eq_true, hless, h]
    exact lt_irrefl _
  have hentries : assignAll less [(a, v), (b, v)] = [(a, v)] := by
    simp [assignAll, assign, hself a b hrank, hself b a hrank.symm]
  intro h
  have hb := (h.mem_iff b v).mpr (by
    rw [← List.singleton_append, lastValue_append_singleton, if_pos rfl])
  rw [hentries, List.mem_singleton, Prod.mk.injEq] at hb
  exact hne hb.1.symm

end Rank

end Table
