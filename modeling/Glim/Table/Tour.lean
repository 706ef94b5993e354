import Mathlib.Data.List.Nodup
import Mathlib.Tactic.Common

/-!
# Going round a list

A cursor over a list stands on one of its elements or at the end, and going on from the end
leads to the first element again. Going the other way round is going round the reversed list.

## Main definitions

* `Tour.next`: the position behind another one
* `Tour.visit`: the items that a loop visits before it is done

## Main results

* `Tour.next_reverse_next`: going on and back again leads to the same position
* `Tour.next_segment`: going round a list inside a segment of it
* `Tour.takeWhile_eq_filter`: a segment at the beginning of a list
* `Tour.visit_eq_visitPos`: a loop over states that stand on positions visits the positions
* `Tour.visitPos_eq_iff`: a loop visits the elements up to the position where it stops
-/

namespace Table

namespace Tour

variable {α : Type} {L A M B : List α} {k : α} {o z : Option α}

/-- A position in the list. -/
def IsPos (L : List α) (o : Option α) : Prop := ∀ k, o = some k → k ∈ L

theorem isPos_none : IsPos L none := nofun

theorem isPos_some (h : k ∈ L) : IsPos L (some k) := by
  rintro _ ⟨⟩
  exact h

variable [DecidableEq α]

/-- The position behind another one: `none` is the end. -/
def next (L : List α) : Option α → Option α
  | none => L.head?
  | some k => (L.dropWhile (· ≠ k)).tail.head?

theorem next_append (hk : k ∉ A) : next (A ++ k :: B) (some k) = B.head? := by
  induction A with
  | nil => simp [next]
  | cons a A ih =>
    have hne : a ≠ k := fun h => hk (h ▸ List.mem_cons_self)
    rw [← ih fun h => hk (List.mem_cons_of_mem a h)]
    simp [next, hne]

theorem isPos_next : IsPos L (next L o) := by
  intro m hm
  cases o with
  | none => exact List.mem_of_head? hm
  | some k => exact (List.dropWhile_sublist _).subset (List.mem_of_mem_tail (List.mem_of_head? hm))

/-- Going on and back again. -/
theorem next_reverse_next (hL : L.Nodup) (ho : IsPos L o) : next L.reverse (next L o) = o := by
  cases o with
  | none =>
    cases L with
    | nil => rfl
    | cons k B =>
      have hk : k ∉ B.reverse := by
        rw [List.mem_reverse]
        exact (List.nodup_cons.mp hL).1
      have hnext : next (k :: B) none = some k := rfl
      rw [hnext, List.reverse_cons, next_append hk]
      rfl
  | some k =>
    obtain ⟨A, B, rfl, hk⟩ := List.eq_append_cons_of_mem (ho k rfl)
    rw [next_append hk]
    cases B with
    | nil =>
      rw [List.reverse_append, List.head?_nil]
      rfl
    | cons b B =>
      -- behind `b` in the reversed list comes `k`
      have hb : b ∉ B.reverse := by
        rw [List.mem_reverse]
        exact (List.nodup_cons.mp (List.nodup_cons.mp (List.nodup_append.mp hL).2.1).2).1
      have hsplit : (A ++ k :: b :: B).reverse = B.reverse ++ b :: (k :: A.reverse) := by
        simp only [List.reverse_append, List.reverse_cons, List.append_assoc, List.cons_append,
          List.nil_append]
      rw [List.head?_cons, hsplit, next_append hb]
      rfl

/-- Going back and on again. -/
theorem next_next_reverse (hL : L.Nodup) (ho : IsPos L o) : next L (next L.reverse o) = o := by
  have h := next_reverse_next (o := o) (List.nodup_reverse.mpr hL) fun k hk =>
    List.mem_reverse.mpr (ho k hk)
  rwa [List.reverse_reverse] at h

/-! ## Segments -/

/-- When whatever comes before an element of a segment is in it, the segment is at the beginning. -/
theorem takeWhile_eq_filter {α : Type} {L : List α} {q : α → Bool}
    (hL : L.Pairwise fun a b => q b = true → q a = true) : L.takeWhile q = L.filter q := by
  induction L with
  | nil => rfl
  | cons a L ih =>
    obtain ⟨ha, hL⟩ := List.pairwise_cons.mp hL
    by_cases hq : q a = true
    · rw [List.takeWhile_cons_of_pos hq, List.filter_cons_of_pos hq, ih hL]
    · have hnone : ∀ b ∈ a :: L, ¬ q b = true := by
        rintro b (_ | ⟨_, hb⟩) hqb
        exacts [hq hqb, hq (ha b hb hqb)]
      rw [List.takeWhile_cons_of_neg hq, List.filter_eq_nil_iff.mpr hnone]

section Segment

variable {q : α → Bool}

omit [DecidableEq α] in
theorem head?_append_filter (hM : ∀ m ∈ M, q m = true) (hB : ∀ b ∈ B, q b = false) :
    (M ++ B).head?.filter q = M.head? := by
  cases M with
  | nil =>
    cases B with
    | nil => rfl
    | cons b B => simp [hB b List.mem_cons_self]
  | cons m M => simp [hM m List.mem_cons_self]

/-- Going on inside a segment of the list, or leaving it. -/
theorem next_segment (hL : (A ++ M ++ B).Nodup) (hM : ∀ m ∈ M, q m = true)
    (hB : ∀ b ∈ B, q b = false) (hk : k ∈ M) :
    (next (A ++ M ++ B) (some k)).filter q = next M (some k) := by
  obtain ⟨C, D, rfl, hC⟩ := List.eq_append_cons_of_mem hk
  have hA : k ∉ A ++ C := by
    intro hin
    rcases List.mem_append.mp hin with hin | hin
    · rw [List.append_assoc, List.nodup_append] at hL
      exact hL.2.2 k hin k (List.mem_append_left B hk) rfl
    · exact hC hin
  have hsplit : A ++ (C ++ k :: D) ++ B = (A ++ C) ++ k :: (D ++ B) := by
    simp only [List.append_assoc, List.cons_append]
  rw [hsplit, next_append hA, next_append hC]
  exact head?_append_filter
    (fun m hm => hM m (List.mem_append_right C (List.mem_cons_of_mem k hm))) hB

end Segment

/-! ## Loops -/

section Visit

variable {σ β : Type}

/-- The items that a loop visits until it is done. -/
def visit (done : σ → Bool) (item : σ → β) (step : σ → Option σ) : ℕ → σ → Option (List β)
  | 0, _ => none
  | fuel + 1, s =>
    if done s then some []
    else do
      let s' ← step s
      let items ← visit done item step fuel s'
      some (item s :: items)

section

variable {done : σ → Bool} {item : σ → β} {step : σ → Option σ} {s s' : σ} {n : ℕ}

theorem visit_of_done (h : done s = true) : visit done item step (n + 1) s = some [] := if_pos h

theorem visit_of_step (h : ¬ done s = true) (hx : step s = some s') :
    visit done item step (n + 1) s = (visit done item step n s').map (item s :: ·) := by
  rw [visit, if_neg h, hx]
  cases hv : visit done item step n s' <;> simp [hv]

/-- The items of a loop may be read off other items. -/
theorem visit_comp {γ : Type} (g : β → γ) :
    visit done (fun s => g (item s)) step n s = (visit done item step n s).map (List.map g) := by
  induction n generalizing s with
  | zero => rfl
  | succ n ih =>
    rw [visit, visit]
    split_ifs with hdone
    · rfl
    · cases hx : step s with
      | none => rfl
      | some s' =>
        simp only [Option.bind_eq_bind, Option.bind_some, ih]
        cases visit done item step n s' <;> rfl

end

/-- The positions from one on, until `z`. -/
def visitPos (L : List α) (z : Option α) : ℕ → Option α → Option (List (Option α)) :=
  visit (fun o => o = z) id fun o => some (next L o)

variable {done : σ → Bool} {item : σ → Option α} {step : σ → Option σ} {R : σ → Option α → Prop}
  {s : σ} {n : ℕ} {res : List (Option α)}

theorem visitPos_self : visitPos L z (n + 1) z = some [] := visit_of_done (decide_eq_true rfl)

theorem visitPos_of_ne (h : o ≠ z) :
    visitPos L z (n + 1) o = (visitPos L z n (next L o)).map (o :: ·) :=
  visit_of_step (mt of_decide_eq_true h) rfl

/-- A loop over states that stand on positions visits the positions. -/
theorem visit_eq_visitPos (hdone : ∀ s o, R s o → (done s = true ↔ o = z))
    (hitem : ∀ s o, R s o → item s = o)
    (hstep : ∀ s o, R s o → o ≠ z → ∃ s', step s = some s' ∧ R s' (next L o)) (hs : R s o) :
    visit done item step n s = visitPos L z n o := by
  induction n generalizing s o with
  | zero => rfl
  | succ n ih =>
    by_cases hz : o = z
    · rw [visit_of_done ((hdone s o hs).mpr hz), hz, visitPos_self]
    · obtain ⟨s', hx, hs'⟩ := hstep s o hs hz
      rw [visit_of_step (mt (hdone s o hs).mp hz) hx, ih hs', visitPos_of_ne hz, hitem s o hs]

/-- A loop that would stop outside of the list does not end. -/
theorem visitPos_eq_none (hz : ¬ IsPos L z) (ho : IsPos L o) : visitPos L z n o = none := by
  induction n generalizing o with
  | zero => rfl
  | succ n ih =>
    have hne : o ≠ z := by
      rintro rfl
      exact hz ho
    rw [visitPos_of_ne hne, ih isPos_next]
    rfl

/-- The elements before `z` are visited, and the loop goes on behind them. -/
theorem exists_visitPos_iff (hL : (A ++ M ++ B).Nodup) (hz : ∀ k ∈ M, z ≠ some k) :
    (∃ n, visitPos (A ++ M ++ B) z n (M ++ B).head? = some res) ↔
      ∃ rest, res = M.map some ++ rest ∧ ∃ n, visitPos (A ++ M ++ B) z n B.head? = some rest := by
  induction M generalizing A res with
  | nil => exact ⟨fun h => ⟨res, rfl, h⟩, fun ⟨_, hres, h⟩ => by rwa [hres]⟩
  | cons k M ih =>
    have hk : k ∉ A := by
      intro hin
      rw [List.append_assoc, List.nodup_append] at hL
      exact hL.2.2 k hin k List.mem_cons_self rfl
    have hassoc : A ++ k :: M ++ B = A ++ [k] ++ M ++ B := by simp
    have hnext : next (A ++ [k] ++ M ++ B) (some k) = (M ++ B).head? := by
      rw [← hassoc, List.append_assoc, List.cons_append, next_append hk]
    have hstop : some k ≠ z := (hz k List.mem_cons_self).symm
    rw [hassoc] at hL ⊢
    have htail := fun res => @ih (A ++ [k]) res hL fun m hm => hz m (List.mem_cons_of_mem k hm)
    -- the first round visits `k`
    have hround : ∀ n, visitPos (A ++ [k] ++ M ++ B) z (n + 1) (k :: M ++ B).head? =
        (visitPos (A ++ [k] ++ M ++ B) z n (M ++ B).head?).map (some k :: ·) := by
      intro n
      rw [List.cons_append, List.head?_cons, visitPos_of_ne hstop, hnext]
    constructor
    · rintro ⟨n, hn⟩
      cases n with
      | zero => cases hn
      | succ n =>
        rw [hround] at hn
        obtain ⟨items, hitems, rfl⟩ := Option.map_eq_some_iff.mp hn
        obtain ⟨rest, rfl, hrest⟩ := (htail items).mp ⟨n, hitems⟩
        exact ⟨rest, rfl, hrest⟩
    · rintro ⟨rest, rfl, hrest⟩
      obtain ⟨n, hn⟩ := (htail _).mpr ⟨rest, rfl, hrest⟩
      exact ⟨n + 1, by rw [hround, hn]; rfl⟩

/-- A loop visits nothing if and only if it begins where it stops. -/
theorem visitPos_eq_nil_iff : (∃ n, visitPos L z n o = some []) ↔ o = z := by
  constructor
  · rintro ⟨n, hn⟩
    cases n with
    | zero => cases hn
    | succ n =>
      by_contra hne
      rw [visitPos_of_ne hne] at hn
      obtain ⟨items, -, hitems⟩ := Option.map_eq_some_iff.mp hn
      cases hitems
  · rintro rfl
    exact ⟨1, visitPos_self⟩

/-- A loop visits exactly the elements of `M` if and only if it stops behind them. -/
theorem visitPos_eq_iff (hL : (A ++ M ++ B).Nodup) (hz : ∀ k ∈ M, z ≠ some k) :
    (∃ n, visitPos (A ++ M ++ B) z n (M ++ B).head? = some (M.map some)) ↔ z = B.head? := by
  rw [exists_visitPos_iff hL hz]
  constructor
  · rintro ⟨rest, hres, hrest⟩
    have hnil : rest = [] := by
      have hlen := congrArg List.length hres
      rw [List.length_append] at hlen
      exact List.length_eq_zero_iff.mp (by omega)
    subst hnil
    exact (visitPos_eq_nil_iff.mp hrest).symm
  · rintro rfl
    exact ⟨[], (List.append_nil _).symm, visitPos_eq_nil_iff.mpr rfl⟩

end Visit

end Tour

end Table
