import Glim.Mdb.Transactions

/-!
# The owners of transactions and cursors

A transaction is open exactly if it has an owner, and it has only one: a local `Transaction`, or an
`IteratorImpl`. So it is with cursors, and the local owner of a cursor is inside the one of its
transaction. Every step that begins, ends, opens or closes something keeps this.

## Main definitions

* `World.OwnsTxn`, `World.OwnsCursor`: there is an owner
* `Stacked`: the local owners are in order, and each owns something else
* `Inv`: the invariant

## Main results

* `Inv.begun`, `Inv.ended`, `Inv.cursorOpened`, `Inv.cursorClosed`: the steps of local owners
* `Inv.adopted`, `Inv.destroyed`, `Inv.iters_congr`: the steps of iterators
-/

namespace Glim.MdbTransactions

open Machine Ledger

/-- The transaction has an owner. -/
def World.OwnsTxn (w : World) (t : ℕ) : Prop :=
  .txn (some t) ∈ w.locals ∨ ∃ impl, some impl ∈ w.iters ∧ impl.txn = t

/-- The cursor has an owner. -/
def World.OwnsCursor (w : World) (c t : ℕ) : Prop :=
  .cursor c t ∈ w.locals ∨ some ⟨t, c⟩ ∈ w.iters

/-- The local owners, the innermost first: each owns something else, and a cursor is inside its
transaction. -/
def Stacked : List Local → Prop
  | [] => True
  | .txn none :: ls => Stacked ls
  | .txn (some t) :: ls => .txn (some t) ∉ ls ∧ Stacked ls
  | .cursor c t :: ls => .txn (some t) ∈ ls ∧ (∀ t', .cursor c t' ∉ ls) ∧ Stacked ls

/-- What is open has an owner, and only one. -/
structure Inv (w : World) : Prop where
  proper : Proper w.log
  acquire_mem : ∀ t, .acquire t ∈ w.log ↔ t < w.txns
  attach_mem : ∀ c, (∃ t, .attach c t ∈ w.log) ↔ c < w.cursors
  open_iff : ∀ t, Open w.log t ↔ w.OwnsTxn t
  attached_iff : ∀ c t, Attached w.log c t ↔ w.OwnsCursor c t
  stacked : Stacked w.locals
  apart : ∀ impl, some impl ∈ w.iters → .txn (some impl.txn) ∉ w.locals
  unique : ∀ impl impl', some impl ∈ w.iters → some impl' ∈ w.iters → impl.txn = impl'.txn →
    impl = impl'

theorem Stacked.mem_of_cursor {ls : List Local} (h : Stacked ls) {c t : ℕ}
    (hc : .cursor c t ∈ ls) : .txn (some t) ∈ ls := by
  induction ls with
  | nil => cases hc
  | cons l ls ih =>
    rcases List.mem_cons.mp hc with rfl | hmem
    · exact List.mem_cons_of_mem _ h.1
    · refine List.mem_cons_of_mem _ (ih ?_ hmem)
      match l, h with
      | .txn none, h => exact h
      | .txn (some _), h => exact h.2
      | .cursor _ _, h => exact h.2.2

theorem inv_start (lmdb : Lmdb) : Inv { lmdb := lmdb } where
  proper := trivial
  acquire_mem := fun _ => ⟨nofun, nofun⟩
  attach_mem := fun _ => ⟨nofun, nofun⟩
  open_iff := fun _ => ⟨nofun, nofun⟩
  attached_iff := fun _ _ => ⟨nofun, nofun⟩
  stacked := trivial
  apart := nofun
  unique := nofun

section Steps

variable {w : World} {t c n : ℕ} {ls : List Local} {impl : IteratorImpl} {how : TxnEnd}

theorem Inv.calls (h : Inv w) (n : ℕ) : Inv { w with calls := n } :=
  ⟨h.proper, h.acquire_mem, h.attach_mem, h.open_iff, h.attached_iff, h.stacked, h.apart, h.unique⟩

theorem Inv.acquire_notMem (h : Inv w) : .acquire w.txns ∉ w.log := fun hmem =>
  Nat.lt_irrefl _ ((h.acquire_mem _).mp hmem)

theorem Inv.attach_notMem (h : Inv w) (t : ℕ) : .attach w.cursors t ∉ w.log := fun hmem =>
  Nat.lt_irrefl _ ((h.attach_mem _).mp ⟨t, hmem⟩)

/-- The next transaction has no owner yet. -/
theorem Inv.not_ownsTxn (h : Inv w) : ¬ w.OwnsTxn w.txns := fun howner =>
  h.acquire_notMem ((h.open_iff _).mpr howner).1

/-- The transaction of a cursor has an owner, too. -/
theorem Inv.ownsTxn (h : Inv w) (ho : w.OwnsCursor c t) : w.OwnsTxn t := by
  rcases ho with hmem | hmem
  · exact Or.inl (h.stacked.mem_of_cursor hmem)
  · exact Or.inr ⟨_, hmem, rfl⟩

/-- A cursor is owned in one transaction. -/
theorem Inv.owns_unique (h : Inv w) {t' : ℕ} (ho : w.OwnsCursor c t) (ho' : w.OwnsCursor c t') :
    t = t' :=
  h.proper.attach_unique ((h.attached_iff c t).mpr ho).1 ((h.attached_iff c t').mpr ho').1

/-- No cursor of an iterator has a local owner. -/
theorem Inv.cursor_apart (h : Inv w) (hi : some impl ∈ w.iters) (t : ℕ) :
    .cursor impl.cur t ∉ w.locals := by
  intro hmem
  obtain rfl : t = impl.txn := h.owns_unique (Or.inl hmem) (Or.inr hi)
  exact h.apart impl hi (h.stacked.mem_of_cursor hmem)

/-! ## Local owners -/

/-- A transaction was begun, and has a local owner. -/
theorem Inv.begun (h : Inv w) : Inv { w with
    log := .acquire w.txns :: w.log, txns := w.txns + 1,
    locals := .txn (some w.txns) :: w.locals } := by
  have hfresh := h.not_ownsTxn
  constructor
  case proper => exact ⟨h.acquire_notMem, h.proper⟩
  case acquire_mem =>
    intro t
    rw [List.mem_cons, h.acquire_mem, Entry.acquire.injEq]
    show t = w.txns ∨ t < w.txns ↔ t < w.txns + 1
    omega
  case attach_mem => simpa using h.attach_mem
  case open_iff =>
    intro t
    rw [open_acquire h.proper h.acquire_notMem, h.open_iff]
    simp [World.OwnsTxn, or_assoc]
  case attached_iff =>
    intro c t
    rw [attached_acquire, h.attached_iff]
    simp [World.OwnsCursor]
  case stacked => exact ⟨fun hmem => hfresh (Or.inl hmem), h.stacked⟩
  case apart =>
    intro impl hi hmem
    rcases List.mem_cons.mp hmem with heq | hmem
    · exact hfresh (Or.inr ⟨impl, hi, by simpa using heq⟩)
    · exact h.apart impl hi hmem
  case unique => exact h.unique

/-- What opening a cursor does to the ledger. -/
theorem Inv.attach_cons_mem (h : Inv w) (t c : ℕ) :
    (∃ t', .attach c t' ∈ .attach w.cursors t :: w.log) ↔ c < w.cursors + 1 := by
  have hmem := h.attach_mem c
  simp only [List.mem_cons, Entry.attach.injEq, exists_or, exists_and_left, exists_eq, and_true]
  rw [hmem]
  omega

/-- A cursor was opened, and has a local owner. -/
theorem Inv.cursorOpened (h : Inv w) (ht : .txn (some t) ∈ w.locals) : Inv { w with
    log := .attach w.cursors t :: w.log, cursors := w.cursors + 1,
    locals := .cursor w.cursors t :: w.locals } := by
  constructor
  case proper => exact ⟨⟨(h.open_iff t).mpr (Or.inl ht), h.attach_notMem⟩, h.proper⟩
  case acquire_mem => simpa using h.acquire_mem
  case attach_mem => exact h.attach_cons_mem t
  case open_iff =>
    intro t
    rw [open_attach, h.open_iff]
    simp [World.OwnsTxn]
  case attached_iff =>
    intro c t
    rw [attached_attach h.proper h.attach_notMem, h.attached_iff]
    simp [World.OwnsCursor, or_assoc]
  case stacked =>
    refine ⟨ht, fun t' hmem => ?_, h.stacked⟩
    exact h.attach_notMem t' ((h.attached_iff _ _).mpr (Or.inl hmem)).1
  case apart =>
    intro impl hi hmem
    exact h.apart impl hi ((List.mem_cons.mp hmem).resolve_left nofun)
  case unique => exact h.unique

/-- The innermost local owner has closed its cursor. -/
theorem Inv.cursorClosed (h : Inv w) (hl : w.locals = .cursor c t :: ls) :
    Inv { w with log := .detach c :: w.log, locals := ls } := by
  have hs := h.stacked
  rw [hl] at hs
  have hmem : .cursor c t ∈ w.locals := by rw [hl]; exact List.mem_cons_self
  constructor
  case proper => exact ⟨⟨t, (h.attached_iff c t).mpr (Or.inl hmem)⟩, h.proper⟩
  case acquire_mem => simpa using h.acquire_mem
  case attach_mem => simpa using h.attach_mem
  case open_iff =>
    intro t'
    rw [open_detach, h.open_iff]
    simp [World.OwnsTxn, hl]
  case attached_iff =>
    intro c' t'
    rw [attached_detach, h.attached_iff]
    constructor
    · rintro ⟨ho | ho, hne⟩
      · rw [hl] at ho
        exact Or.inl ((List.mem_cons.mp ho).resolve_left fun heq => hne (by cases heq; rfl))
      · exact Or.inr ho
    -- neither another holder nor an iterator owns the cursor that was closed
    · rintro (ho | ho)
      · refine ⟨Or.inl (by rw [hl]; exact List.mem_cons_of_mem _ ho), ?_⟩
        rintro rfl
        exact hs.2.1 t' ho
      · refine ⟨Or.inr ho, ?_⟩
        rintro rfl
        exact h.cursor_apart ho t hmem
  case stacked => exact hs.2.2
  case apart =>
    intro impl hi hmem
    exact h.apart impl hi (by rw [hl]; exact List.mem_cons_of_mem _ hmem)
  case unique => exact h.unique

/-- The innermost local owner has ended its transaction, in which no cursor is open. -/
theorem Inv.ended (h : Inv w) (hl : w.locals = .txn (some t) :: ls) (how : TxnEnd) :
    Inv { w with log := .release t how :: w.log, locals := ls } := by
  have hs := h.stacked
  rw [hl] at hs
  have hmem : .txn (some t) ∈ w.locals := by rw [hl]; exact List.mem_cons_self
  -- a holder would be inside, and an iterator would own the transaction, too
  have hclosed : ∀ c, ¬ Attached w.log c t := by
    intro c hatt
    rcases (h.attached_iff c t).mp hatt with ho | ho
    · rw [hl] at ho
      exact hs.1 (hs.2.mem_of_cursor ((List.mem_cons.mp ho).resolve_left nofun))
    · exact h.apart _ ho hmem
  constructor
  case proper => exact ⟨⟨(h.open_iff t).mpr (Or.inl hmem), hclosed⟩, h.proper⟩
  case acquire_mem => simpa using h.acquire_mem
  case attach_mem => simpa using h.attach_mem
  case open_iff =>
    intro t'
    rw [open_release, h.open_iff]
    constructor
    · rintro ⟨ho | ho, hne⟩
      · rw [hl] at ho
        exact Or.inl ((List.mem_cons.mp ho).resolve_left fun heq => hne (by cases heq; rfl))
      · exact Or.inr ho
    -- no one else owns the transaction that was ended
    · rintro (ho | ⟨impl, hi, rfl⟩)
      · refine ⟨Or.inl (by rw [hl]; exact List.mem_cons_of_mem _ ho), ?_⟩
        rintro rfl
        exact hs.1 ho
      · refine ⟨Or.inr ⟨impl, hi, rfl⟩, ?_⟩
        intro heq
        exact h.apart impl hi (heq ▸ hmem)
  case attached_iff =>
    intro c t'
    rw [attached_release, h.attached_iff]
    simp [World.OwnsCursor, hl]
  case stacked => exact hs.2
  case apart =>
    intro impl hi hmem
    exact h.apart impl hi (by rw [hl]; exact List.mem_cons_of_mem _ hmem)
  case unique => exact h.unique

/-- A `Transaction` that was released owns nothing. -/
theorem Inv.popped (h : Inv w) (hl : w.locals = .txn none :: ls) :
    Inv { w with locals := ls } := by
  have hs := h.stacked
  rw [hl] at hs
  constructor
  case proper => exact h.proper
  case acquire_mem => exact h.acquire_mem
  case attach_mem => exact h.attach_mem
  case open_iff => simpa [World.OwnsTxn, hl] using h.open_iff
  case attached_iff => simpa [World.OwnsCursor, hl] using h.attached_iff
  case stacked => exact hs
  case apart => simpa [hl] using h.apart
  case unique => exact h.unique

/-! ## Iterators -/

/-- What is elsewhere in a list stays in it. -/
theorem mem_set_of_ne {α : Type} {l : List α} {a b : α} {n : ℕ} (ha : a ∈ l)
    (hn : l[n]? ≠ some a) : a ∈ l.set n b := by
  obtain ⟨m, hm⟩ := List.mem_iff_getElem?.mp ha
  refine List.mem_iff_getElem?.mpr ⟨m, ?_⟩
  have hne : n ≠ m := fun he => hn (he ▸ hm)
  rw [List.getElem?_set_ne hne, hm]

/-- Only what the iterators share matters. -/
theorem Inv.iters_congr (h : Inv w) {iters : List (Option IteratorImpl)}
    (hi : ∀ impl, some impl ∈ iters ↔ some impl ∈ w.iters) : Inv { w with iters := iters } := by
  constructor
  case proper => exact h.proper
  case acquire_mem => exact h.acquire_mem
  case attach_mem => exact h.attach_mem
  case open_iff => simpa [World.OwnsTxn, hi] using h.open_iff
  case attached_iff => simpa [World.OwnsCursor, hi] using h.attached_iff
  case stacked => exact h.stacked
  case apart => simpa [hi] using h.apart
  case unique => simpa [hi] using h.unique

/-- A cursor was opened, and an iterator owns it and the transaction. -/
theorem Inv.adopted (h : Inv w) (hl : w.locals = .txn (some t) :: ls)
    (hn : w.iters[n]? = some none) : Inv { w with
      log := .attach w.cursors t :: w.log, cursors := w.cursors + 1, locals := .txn none :: ls,
      iters := w.iters.set n (some ⟨t, w.cursors⟩) } := by
  have hs := h.stacked
  rw [hl] at hs
  have hmem : .txn (some t) ∈ w.locals := by rw [hl]; exact List.mem_cons_self
  -- the new iterator stands where the null pointer has stood
  have hset : ∀ impl, some impl ∈ w.iters.set n (some ⟨t, w.cursors⟩) ↔
      impl = ⟨t, w.cursors⟩ ∨ some impl ∈ w.iters := by
    intro impl
    constructor
    · intro hi
      rcases List.mem_or_eq_of_mem_set hi with hi | heq
      · exact Or.inr hi
      · exact Or.inl (Option.some.inj heq)
    · rintro (rfl | hi)
      · exact List.mem_set (List.getElem?_eq_some_iff.mp hn).1 _
      · exact mem_set_of_ne hi (by rw [hn]; nofun)
  constructor
  case proper => exact ⟨⟨(h.open_iff t).mpr (Or.inl hmem), h.attach_notMem⟩, h.proper⟩
  case acquire_mem => simpa using h.acquire_mem
  case attach_mem => exact h.attach_cons_mem t
  -- the transaction goes over from the local variable to the iterator
  case open_iff =>
    intro t'
    rw [open_attach, h.open_iff]
    simp only [World.OwnsTxn, hset, hl, List.mem_cons, Local.txn.injEq, Option.some.injEq,
      reduceCtorEq, false_or]
    constructor
    · rintro ((rfl | ho) | ⟨impl, hi, rfl⟩)
      · exact Or.inr ⟨_, Or.inl rfl, rfl⟩
      · exact Or.inl ho
      · exact Or.inr ⟨impl, Or.inr hi, rfl⟩
    · rintro (ho | ⟨impl, rfl | hi, rfl⟩)
      · exact Or.inl (Or.inr ho)
      · exact Or.inl (Or.inl rfl)
      · exact Or.inr ⟨impl, hi, rfl⟩
  -- and its cursor is the one that has just been attached
  case attached_iff =>
    intro c t'
    rw [attached_attach h.proper h.attach_notMem, h.attached_iff]
    simp only [World.OwnsCursor, hset, hl, List.mem_cons, reduceCtorEq, false_or,
      IteratorImpl.mk.injEq]
    constructor
    · rintro (⟨rfl, rfl⟩ | ho | hi)
      · exact Or.inr (Or.inl ⟨rfl, rfl⟩)
      · exact Or.inl ho
      · exact Or.inr (Or.inr hi)
    · rintro (ho | ⟨rfl, rfl⟩ | hi)
      · exact Or.inr (Or.inl ho)
      · exact Or.inl ⟨rfl, rfl⟩
      · exact Or.inr (Or.inr hi)
  case stacked => exact hs.2
  case apart =>
    intro impl hi hmem'
    have hin := (List.mem_cons.mp hmem').resolve_left nofun
    rcases (hset impl).mp hi with rfl | hi
    · exact hs.1 hin
    · exact h.apart impl hi (by rw [hl]; exact List.mem_cons_of_mem _ hin)
  -- no other iterator has the transaction, because a local variable had it
  case unique =>
    intro impl impl' hi hi' heq
    rcases (hset impl).mp hi with rfl | hi <;> rcases (hset impl').mp hi' with rfl | hi'
    · rfl
    · exact absurd (heq ▸ hmem) (h.apart impl' hi')
    · exact absurd (heq ▸ hmem) (h.apart impl hi)
    · exact h.unique impl impl' hi hi' heq

/-- The last iterator that shared it was destroyed: its cursor was closed and its transaction
ended. -/
theorem Inv.destroyed (h : Inv w) (hn : w.iters[n]? = some (some impl))
    (hlast : some impl ∉ w.iters.set n none) (how : TxnEnd) : Inv { w with
      log := .release impl.txn how :: .detach impl.cur :: w.log,
      iters := w.iters.set n none } := by
  have hmem : some impl ∈ w.iters := List.mem_of_getElem? hn
  -- the object has no other owner, so the iterators that are left share other objects
  have hset : ∀ i, some i ∈ w.iters.set n none ↔ some i ∈ w.iters ∧ i ≠ impl := by
    intro i
    constructor
    · intro hi
      refine ⟨(List.mem_or_eq_of_mem_set hi).resolve_right nofun, ?_⟩
      rintro rfl
      exact hlast hi
    · rintro ⟨hi, hne⟩
      exact mem_set_of_ne hi (by rw [hn]; exact fun heq => hne (by cases heq; rfl))
  have hattached : Attached w.log impl.cur impl.txn := (h.attached_iff _ _).mpr (Or.inr hmem)
  have hopen : Open w.log impl.txn := (h.open_iff _).mpr (Or.inr ⟨impl, hmem, rfl⟩)
  constructor
  case proper =>
    refine ⟨⟨open_detach.mpr hopen, fun c hatt => ?_⟩, ⟨_, hattached⟩, h.proper⟩
    -- no second cursor is left in the transaction that ends
    obtain ⟨hatt, hne⟩ := attached_detach.mp hatt
    rcases (h.attached_iff _ _).mp hatt with ho | hi
    · exact h.apart impl hmem (h.stacked.mem_of_cursor ho)
    · have heq := h.unique _ _ hi hmem rfl
      exact hne (congrArg IteratorImpl.cur heq)
  case acquire_mem => simpa using h.acquire_mem
  case attach_mem => simpa using h.attach_mem
  -- the transaction of the iterator is the only one that ends
  case open_iff =>
    intro t
    rw [open_release, open_detach, h.open_iff]
    simp only [World.OwnsTxn, hset]
    constructor
    · rintro ⟨ho | ⟨i, hi, rfl⟩, hne⟩
      · exact Or.inl ho
      · exact Or.inr ⟨i, ⟨hi, fun heq => hne (congrArg _ heq)⟩, rfl⟩
    · rintro (ho | ⟨i, ⟨hi, hne⟩, rfl⟩)
      · refine ⟨Or.inl ho, ?_⟩
        rintro rfl
        exact h.apart impl hmem ho
      · exact ⟨Or.inr ⟨i, hi, rfl⟩, fun heq => hne (h.unique _ _ hi hmem heq)⟩
  -- and its cursor is the only one that is closed
  case attached_iff =>
    intro c t
    rw [attached_release, attached_detach, h.attached_iff]
    simp only [World.OwnsCursor, hset]
    constructor
    · rintro ⟨ho | hi, hne⟩
      · exact Or.inl ho
      · exact Or.inr ⟨hi, fun heq => hne (congrArg IteratorImpl.cur heq)⟩
    · rintro (ho | ⟨hi, hne⟩)
      · refine ⟨Or.inl ho, ?_⟩
        rintro rfl
        exact h.cursor_apart hmem t ho
      · refine ⟨Or.inr hi, ?_⟩
        rintro rfl
        obtain rfl : t = impl.txn := h.owns_unique (Or.inr hi) (Or.inr hmem)
        exact hne rfl
  case stacked => exact h.stacked
  case apart =>
    intro i hi
    exact h.apart i ((hset i).mp hi).1
  case unique =>
    intro i i' hi hi'
    exact h.unique i i' ((hset i).mp hi).1 ((hset i').mp hi').1

end Steps

end Glim.MdbTransactions
