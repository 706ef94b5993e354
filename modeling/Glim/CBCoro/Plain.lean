import Glim.CBCoro.Code

/-!
# Plain coroutines

A coroutine is plain if no `fun` throws and none yields itself. Then there is one yield at a time:
`_context` is the one that it has captured, and `_invokeFromYield` is set while its callback has
been called directly and it has not found out yet. So its runs are orderly.

## Main definitions

* `Plain`: no `fun` throws or yields
* `Tidy`: what is on the stack of a plain coroutine, with `_context` and `_invokeFromYield`

## Main results

* `orderly_of_plain`: plain runs are orderly
-/

namespace Glim.CBCoro

open Thread

variable {ι : Type} {s s' : CBCoro ι} {t u : ι} {b : CallId} {k : ℕ} {q' : Control}

/-- No `fun` throws, and none yields. -/
def Plain (l : ι × Action) (c : Config ι (CBCoro ι) Control) : Prop :=
  l.2 = .throws ∨ l.2 = .yield → c.shared.stack.funs = []

/-- What `_invokeFromYield` is at a point of the yield `k`. -/
def FlagAt (s : CBCoro ι) (k : ℕ) : YieldPoint → Prop
  | .test => s.invokeFromYield = true ↔ s.returns (.invoke k) ≠ []
  | .direct => True
  | _ => s.invokeFromYield = false

/-- What is on the stack of a plain coroutine: there is one yield at a time. -/
inductive Tidy (s : CBCoro ι) : Prop
  | code (hstack : s.stack = ⟨.code, []⟩) (hflag : s.invokeFromYield = false)
  | inside (k : ℕ) (hstack : s.stack = ⟨.code, [k]⟩)
      (hcontext : s.context = ⟨.yield k .captured, []⟩)
      (hflag : s.invokeFromYield = true ↔ s.returns (.invoke k) ≠ [])
  | call (k : ℕ) (p : CallPoint) (hstack : s.stack = ⟨.call (.invoke k) p, [k]⟩)
      (hcontext : s.context = ⟨.yield k .captured, []⟩)
      (hflag : s.invokeFromYield = true ↔ p = .unlock ∨ p = .returning)
  | yield (k : ℕ) (p : YieldPoint) (hstack : s.stack = ⟨.yield k p, []⟩)
      (hcontext : p.isCaptured = true → s.context = ⟨.yield k .captured, []⟩) (hflag : FlagAt s k p)
  | ended (top : Spot) (hstack : s.stack = ⟨top, []⟩) (htop : top = .ended ∨ ∃ b, top = .leaving b)
      (hflag : s.invokeFromYield = false)

/-- The yield has been revived, and is going to return or has returned. -/
def Revived (s : CBCoro ι) (k : ℕ) : Prop :=
  s.after k ≠ 0 ∨ s.stack.top = .yield k .captured ∧ s.yieldFromInvoke = true ∨
    s.stack.top = .yield k .returning

/-- A call that has lent its thread has revived its yield. -/
def Past (s : CBCoro ι) : Control → Prop
  | .idle => True
  | .call .start _ => True
  | .call (.invoke k) p => ¬ p.waits → Revived s k
  | .coroutine => ∀ k, s.borrower = some (.invoke k) → Revived s k

/-- The invariant of a plain coroutine. -/
structure PlainInv (c : Config ι (CBCoro ι) Control) : Prop where
  tidy : Tidy c.shared
  past : ∀ t, Past c.shared (c.pc t)

/-! ## What does not matter -/

/-- What the other threads do does not matter to what is on the stack. -/
theorem Tidy.congr (h : Tidy s) (hstack : s'.stack = s.stack) (hcontext : s'.context = s.context)
    (hflag : s'.invokeFromYield = s.invokeFromYield)
    (hreturns : ∀ k, Waiting s k → s'.returns (.invoke k) = s.returns (.invoke k)) : Tidy s' := by
  cases h with
  | code hs hf => exact .code (hstack.trans hs) (hflag.trans hf)
  | inside k hs hc hf =>
    -- the flag tells whether the callback of this yield has returned
    have hwait : Waiting s k := Or.inl (by rw [hs]; exact List.mem_cons_self)
    refine .inside k (hstack.trans hs) (hcontext.trans hc) ?_
    rwa [hflag, hreturns k hwait]
  | call k p hs hc hf =>
    exact .call k p (hstack.trans hs) (hcontext.trans hc) (by rwa [hflag])
  | yield k p hs hc hf =>
    refine .yield k p (hstack.trans hs) (fun hp => hcontext.trans (hc hp)) ?_
    cases p with
    | test =>
      have hwait : Waiting s k := Or.inr (Or.inl (by rw [hs]))
      unfold FlagAt at hf ⊢
      rwa [hflag, hreturns k hwait]
    | direct => exact trivial
    | _ => exact hflag.trans hf
  | ended top hs htop hf => exact .ended top (hstack.trans hs) htop (hflag.trans hf)

/-- Away from where it is revived, a yield that has been revived has returned. -/
theorem Revived.after_ne_zero (h : Revived s k) (hcaptured : s.stack.top ≠ .yield k .captured)
    (hreturning : s.stack.top ≠ .yield k .returning) : s.after k ≠ 0 := by
  rcases h with h | ⟨h, -⟩ | h
  · exact h
  · exact absurd h hcaptured
  · exact absurd h hreturning

/-- A yield that has been revived does not wait any more. -/
theorem Yields.not_waiting (h : Yields s) (hk : Revived s k) : ¬ Waiting s k := by
  -- a yield on top of the stack has not returned, so that it is about to
  have hne : ∀ p, s.stack.top = .yield k p → p = .captured ∨ p = .returning := by
    intro p hp
    rcases hk with hk | ⟨hk, -⟩ | hk
    · exact absurd (h.top k p hp).2.2.1 hk
    · exact Or.inl (Spot.yield.inj (hp.symm.trans hk)).2
    · exact Or.inr (Spot.yield.inj (hp.symm.trans hk)).2
  rintro (hmem | hp | hp | ⟨b, hp⟩)
  · obtain ⟨-, hzero, -⟩ := h.funs k hmem
    rcases hk with hk | ⟨hk, -⟩ | hk
    · exact hk hzero
    · exact (h.top k _ hk).1 hmem
    · exact (h.top k _ hk).1 hmem
  · rcases hne _ hp with hp | hp <;> cases hp
  · rcases hne _ hp with hp | hp <;> cases hp
  · rcases hne _ hp with hp | hp <;> cases hp

variable [DecidableEq ι] {c : Config ι (CBCoro ι) Control}

/-- What a step has to do. -/
theorem PlainInv.move (h : PlainInv c) (hinv : Inv c) (htidy : Tidy s') (hpast : Past s' q')
    (hrevived : ∀ k, Revived c.shared k → Revived s' k)
    (hstack : critical (c.pc t) ∨ s'.borrower = c.shared.borrower) :
    PlainInv (c.move t s' q') := by
  refine ⟨htidy, fun u => ?_⟩
  rcases eq_or_ne u t with rfl | hu
  · rwa [Config.pc_move_self]
  · rw [Config.pc_move_of_ne _ _ _ _ hu]
    have hold := h.past u
    -- what is known of another thread depends on where it is
    cases hpc : c.pc u with
    | idle => exact trivial
    | call d p =>
      rw [hpc] at hold
      cases d with
      | start => exact trivial
      | invoke k => exact fun hp => hrevived k (hold hp)
    | coroutine =>
      rw [hpc] at hold
      intro k hk
      rcases hstack with hcritical | hborrower
      · have hnot := hinv.custody.not_critical_of_ne hcritical hu
        rw [hpc] at hnot
        exact absurd trivial hnot
      · exact hrevived k (hold k (hborrower.symm.trans hk))

/-- Steps that leave the stack alone. -/
theorem PlainInv.leave (h : PlainInv c) (hinv : Inv c) (hpast : Past s' q')
    (hstack : s'.stack = c.shared.stack) (hcontext : s'.context = c.shared.context)
    (hflag : s'.invokeFromYield = c.shared.invokeFromYield)
    (hreturns : ∀ k, Waiting c.shared k → s'.returns (.invoke k) = c.shared.returns (.invoke k))
    (hafter : s'.after = c.shared.after)
    (hset : c.shared.yieldFromInvoke = true → s'.yieldFromInvoke = true)
    (hreturnTo : critical (c.pc t) ∨ s'.returnTo = c.shared.returnTo) :
    PlainInv (c.move t s' q') := by
  refine h.move hinv (h.tidy.congr hstack hcontext hflag hreturns) hpast ?_ (hreturnTo.imp_right ?_)
  · intro k hk
    unfold Revived at hk ⊢
    rw [hafter, hstack]
    exact hk.imp_right (Or.imp_left fun ⟨htop, hyes⟩ => ⟨htop, hset hyes⟩)
  · intro hreturnTo
    simp only [borrower, hstack, hreturnTo]

/-! ## The steps outside -/

omit [DecidableEq ι] in
/-- A call that waits has not lent its thread yet. -/
theorem past_of_waits {d : CallId} {p : CallPoint} (hp : p.waits) : Past s (.call d p) := by
  cases d with
  | start => exact trivial
  | invoke k => exact fun hnot => absurd hp hnot

/-- The steps of a thread that has nothing to do with the coroutine. -/
theorem plain_idle {a : Action} (h : PlainInv c) (hinv : Inv c)
    (hx : prog t .idle a c.shared = some (s', q')) : PlainInv (c.move t s' q') := by
  cases a with
  | start =>
    simp only [prog] at hx
    split_ifs at hx
    cases hx
    exact h.leave hinv trivial rfl rfl rfl (fun _ _ => rfl) rfl id (Or.inr rfl)
  | invoke k =>
    obtain ⟨s'', hcall, heq⟩ := Option.map_eq_some_iff.mp hx
    cases heq
    unfold callInvoke at hcall
    split_ifs at hcall
    cases hcall
    exact h.leave hinv (past_of_waits trivial) rfl rfl rfl (fun _ _ => rfl) rfl id (Or.inr rfl)
  | drop handle =>
    obtain ⟨s'', hdrop, heq⟩ := Option.map_eq_some_iff.mp hx
    cases heq
    unfold drop at hdrop
    split_ifs at hdrop
    cases hdrop
    exact h.leave hinv trivial rfl rfl rfl (fun _ _ => rfl) rfl id (Or.inr rfl)
  | _ => cases hx

section Call

variable {d : CallId} {p p' : CallPoint}

omit [DecidableEq ι] in
/-- A call whose yield was revived goes on. -/
theorem Past.goes (h : Past s (.call d p)) (hp : ¬ p.waits)
    (hrevived : ∀ k, Revived s k → Revived s' k) : Past s' (.call d p') := by
  cases d with
  | start => exact trivial
  | invoke k => exact fun _ => hrevived k (h hp)

variable (h : PlainInv c) (hinv : Inv c) (hpc : c.pc t = .call d p)
include h hinv hpc

omit [DecidableEq ι] in
/-- A call finds `_context` to be that of its yield. -/
theorem context_of_swap (hp : p = .swap) {k : ℕ} (hd : d = .invoke k) :
    c.shared.context = ⟨.yield k .captured, []⟩ ∧ c.shared.yieldFromInvoke = true := by
  subst hp hd
  obtain ⟨-, -, -, hcase⟩ := heldCall_of_pc hinv hpc trivial
  rcases hcase with ⟨hstart, -⟩ | ⟨-, hrest, hyes⟩
  · cases hstart
  -- the coroutine is suspended in the yield, the only one on the stack
  · refine ⟨?_, hyes⟩
    have hwait := (inCall_of_pc hinv hpc).waiting k rfl trivial
    rcases hrest with ⟨j, b, hj⟩ | ⟨⟨b, hb⟩, hfuns⟩
    · cases h.tidy with
      | yield i p hstack hcontext =>
        rw [hstack] at hj
        obtain ⟨rfl, rfl⟩ := Spot.yield.inj hj
        rcases hwait with hk | hk | hk | ⟨b', hk⟩
        · rw [hstack] at hk
          cases hk
        · rw [hstack] at hk
          cases hk
        · rw [hstack] at hk
          cases hk
        · rw [hstack] at hk
          obtain ⟨rfl, -⟩ := Spot.yield.inj hk
          exact hcontext rfl
      | code hstack => rw [hstack] at hj; cases hj
      | inside i hstack => rw [hstack] at hj; cases hj
      | call i p hstack => rw [hstack] at hj; cases hj
      | ended top hstack htop =>
        rw [hstack] at hj
        rcases htop with rfl | ⟨b', rfl⟩
        · cases hj
        · cases hj
    · rcases hwait with hk | hk | hk | ⟨b', hk⟩
      · rw [hfuns] at hk
        cases hk
      · cases hb.symm.trans hk
      · cases hb.symm.trans hk
      · cases hb.symm.trans hk

/-- The call lends its thread to the coroutine. -/
theorem plain_swap (hp : p = .swap) : PlainInv (c.move t { c.shared with
    saved := Function.update c.shared.saved d none
    stack := c.shared.context } .coroutine) := by
  subst hp
  obtain ⟨-, hreturnTo, -, hcase⟩ := heldCall_of_pc hinv hpc trivial
  have hq : critical (c.pc t) := critical_of_pc hpc trivial
  cases d with
  | start =>
    obtain ⟨hunused, hcontext⟩ : Unused c.shared ∧ c.shared.context = {} := by
      rcases hcase with ⟨-, hcase⟩ | ⟨hne, -⟩
      · exact hcase
      · exact absurd rfl hne
    -- the stack is as empty as `makecontext` has made it
    have hstack : c.shared.context = c.shared.stack := hcontext.trans hunused.1.symm
    refine h.leave hinv ?_ hstack rfl rfl (fun _ _ => rfl) rfl id (Or.inl hq)
    intro k hk
    simp only [borrower, hcontext] at hk
    cases hreturnTo.symm.trans hk
  | invoke k =>
    obtain ⟨hcontext, hyes⟩ := context_of_swap h hinv hpc rfl rfl
    obtain ⟨-, hrest, -⟩ := hcase.resolve_left fun hc => by cases hc.1
    -- no yield waits for `_invokeFromYield` while the coroutine rests
    have hflag : c.shared.invokeFromYield = false := by
      cases h.tidy with
      | code _ hflag => exact hflag
      | ended _ _ _ hflag => exact hflag
      | inside j hstack =>
        unfold Rest at hrest
        rw [hstack] at hrest
        simp at hrest
      | call j p hstack =>
        unfold Rest at hrest
        rw [hstack] at hrest
        simp at hrest
      | yield j p hstack _ hflag =>
        unfold Rest at hrest
        rw [hstack] at hrest
        rcases hrest with ⟨i, b, hi⟩ | ⟨⟨b, hb⟩, -⟩
        · obtain ⟨-, rfl⟩ := Spot.yield.inj hi
          exact hflag
        · cases hb
    refine h.move hinv (.yield k .captured hcontext (fun _ => hcontext) hflag) ?_ ?_ (Or.inl hq)
    · intro j hj
      simp only [borrower, hcontext] at hj
      obtain rfl := CallId.invoke.inj (Option.some.inj (hreturnTo.symm.trans hj))
      exact Or.inr (Or.inl ⟨by simp only [hcontext], hyes⟩)
    · intro j hj
      refine Or.inl (hj.after_ne_zero ?_ ?_)
      · rcases hrest with ⟨i, b, hi⟩ | ⟨⟨b, hb⟩, -⟩
        · rw [hi]
          rintro ⟨⟩
        · rw [hb]
          rintro ⟨⟩
      · rcases hrest with ⟨i, b, hi⟩ | ⟨⟨b, hb⟩, -⟩
        · rw [hi]
          rintro ⟨⟩
        · rw [hb]
          rintro ⟨⟩

/-- The steps of a call on the stack of its own thread. -/
theorem plain_call (hx : prog t (.call d p) .go c.shared = some (s', q')) :
    PlainInv (c.move t s' q') := by
  have hpast := h.past t
  rw [hpc] at hpast
  have hq : critical (.call d p) → critical (c.pc t) := by
    rw [hpc]
    exact id
  obtain ⟨⟨s'', next⟩, hcall, hmove⟩ := Option.map_eq_some_iff.mp hx
  cases p with
  | hold =>
    cases hcall
    cases hmove
    refine h.leave hinv (past_of_waits ?_) rfl rfl rfl (fun _ _ => rfl) rfl id (Or.inr rfl)
    cases d <;> trivial
  | make =>
    cases hcall
    cases hmove
    obtain ⟨-, -, hunused, -⟩ := heldCall_of_pc hinv hpc trivial
    have htidy : Tidy { c.shared with context := {} } := by
      cases h.tidy with
      | code hstack hflag => exact .code hstack hflag
      | inside j hstack => cases hstack.symm.trans hunused.1
      | call j p hstack => cases hstack.symm.trans hunused.1
      | yield j p hstack => cases hstack.symm.trans hunused.1
      | ended top hstack htop hflag => exact .ended top hstack htop hflag
    exact h.move hinv htidy (past_of_waits trivial) (fun _ hk => hk) (Or.inl (hq trivial))
  | setReturnTo =>
    cases hcall
    cases hmove
    exact h.leave hinv (past_of_waits trivial) rfl rfl rfl (fun _ _ => rfl) rfl id
      (Or.inl (hq trivial))
  | lock =>
    obtain ⟨mutex, -, heq⟩ := Option.map_eq_some_iff.mp hcall
    cases heq
    cases hmove
    refine h.leave hinv (past_of_waits ?_) rfl rfl rfl (fun _ _ => rfl) rfl id (Or.inr rfl)
    cases d <;> trivial
  | test =>
    cases hcall
    cases hmove
    refine h.leave hinv (past_of_waits ?_) rfl rfl rfl (fun _ _ => rfl) rfl id (Or.inr rfl)
    split <;> trivial
  | direct => exact (heldCall_of_pc hinv hpc trivial).elim
  | revive =>
    cases hcall
    cases hmove
    exact h.leave hinv (past_of_waits trivial) rfl rfl rfl (fun _ _ => rfl) rfl (fun _ => rfl)
      (Or.inl (hq trivial))
  | swap =>
    cases hcall
    cases hmove
    exact plain_swap h hinv hpc rfl
  | reset =>
    cases hcall
    cases hmove
    exact h.leave hinv (hpast.goes id fun _ hk => hk) rfl rfl rfl (fun _ _ => rfl) rfl id
      (Or.inl (hq trivial))
  | unlock =>
    obtain ⟨mutex, -, heq⟩ := Option.map_eq_some_iff.mp hcall
    cases heq
    cases hmove
    exact h.leave hinv (hpast.goes id fun _ hk => hk) rfl rfl rfl (fun _ _ => rfl) rfl id
      (Or.inr rfl)
  | returning =>
    cases hcall
    cases hmove
    refine h.leave hinv trivial rfl rfl rfl (fun k hk => ?_) rfl id (Or.inr rfl)
    -- the yield of the call has been revived, and does not wait any more
    refine Function.update_of_ne ?_ _ _
    rintro rfl
    exact hinv.yields.not_waiting (hpast id) hk

end Call

/-! ## The steps on the coroutine's stack -/

section Tops

variable {d : CallId} {p : CallPoint} {y : YieldPoint}

omit [DecidableEq ι]

/-- What is known of a plain coroutine by what is on top of its stack. -/
def TidyAt (s : CBCoro ι) : Spot → Prop
  | .code => s.stack.funs = [] ∧ s.invokeFromYield = false ∨
    ∃ k, s.stack.funs = [k] ∧ s.context = ⟨.yield k .captured, []⟩ ∧
      (s.invokeFromYield = true ↔ s.returns (.invoke k) ≠ [])
  | .yield k y => s.stack.funs = [] ∧
    (y.isCaptured = true → s.context = ⟨.yield k .captured, []⟩) ∧ FlagAt s k y
  | .call d p => ∃ k, d = .invoke k ∧ s.stack.funs = [k] ∧
    s.context = ⟨.yield k .captured, []⟩ ∧ (s.invokeFromYield = true ↔ p = .unlock ∨ p = .returning)
  | _ => s.stack.funs = [] ∧ s.invokeFromYield = false

theorem Tidy.tidyAt (h : Tidy s) : TidyAt s s.stack.top := by
  cases h with
  | code hstack hflag =>
    rw [hstack]
    exact Or.inl ⟨by rw [hstack], hflag⟩
  | inside k hstack hcontext hflag =>
    rw [hstack]
    exact Or.inr ⟨k, by rw [hstack], hcontext, hflag⟩
  | call k p hstack hcontext hflag =>
    rw [hstack]
    exact ⟨k, rfl, by rw [hstack], hcontext, hflag⟩
  | yield k p hstack hcontext hflag =>
    rw [hstack]
    exact ⟨by rw [hstack], hcontext, hflag⟩
  | ended top hstack htop hflag =>
    have hfuns : s.stack.funs = [] := by rw [hstack]
    rw [hstack]
    rcases htop with rfl | ⟨b, rfl⟩
    · exact ⟨hfuns, hflag⟩
    · exact ⟨hfuns, hflag⟩

theorem Tidy.of_top {top : Spot} (h : Tidy s) (htop : s.stack.top = top) : TidyAt s top := by
  rw [← htop]
  exact h.tidyAt

end Tops

section Coroutine

variable (h : PlainInv c) (hinv : Inv c) (hpc : c.pc t = .coroutine)
  (hrunning : Running c.shared t b)
include h hinv hpc hrunning

/-- The coroutine goes on. -/
theorem plain_run (htidy : Tidy s') (hborrower : s'.borrower = some b)
    (hrevived : ∀ k, Revived c.shared k → Revived s' k) : PlainInv (c.move t s' .coroutine) := by
  have hpast := h.past t
  rw [hpc] at hpast
  have hold := hrunning.top.borrower_eq
  refine h.move hinv htidy (fun k hk => hrevived k (hpast k ?_)) hrevived (Or.inr ?_)
  · exact hold.trans (hborrower.symm.trans hk)
  · exact hborrower.trans hold.symm

/-- The coroutine goes on, and no yield is being revived. -/
theorem plain_go (htop : ∀ j, c.shared.stack.top ≠ .yield j .captured)
    (htop' : ∀ j, c.shared.stack.top ≠ .yield j .returning) (htidy : Tidy s')
    (hborrower : s'.borrower = some b) (hafter : s'.after = c.shared.after) :
    PlainInv (c.move t s' .coroutine) := by
  refine plain_run h hinv hpc hrunning htidy hborrower fun j hj => Or.inl ?_
  rw [hafter]
  exact hj.after_ne_zero (htop j) (htop' j)

/-- The coroutine gives the thread back. -/
theorem plain_setContext : PlainInv (c.move t c.shared (.call b b.afterSwap)) := by
  have hpast := h.past t
  rw [hpc] at hpast
  have hq : critical (c.pc t) := critical_of_pc hpc trivial
  refine h.move hinv h.tidy ?_ (fun _ hk => hk) (Or.inl hq)
  cases b with
  | start => exact trivial
  | invoke k => exact fun _ => hpast k hrunning.top.borrower_eq

/-- The steps of a yield. -/
theorem plain_yield {p : YieldPoint} (htop : c.shared.stack.top = .yield k p)
    (hx : stepYield k p c.shared = (s', q')) : PlainInv (c.move t s' q') := by
  obtain ⟨hfuns, hcontext, hflag⟩ := h.tidy.of_top htop
  have hreturnTo : (∀ d, p ≠ .setContext d) → c.shared.returnTo = some b :=
    returnTo_of_yield hrunning htop
  have hpoint : ∀ p', Stack.mk (.yield k p') c.shared.stack.funs = ⟨.yield k p', []⟩ :=
    fun p' => congrArg (Stack.mk _) hfuns
  have hother : ∀ p', p ≠ p' → ∀ j, c.shared.stack.top ≠ .yield j p' := by
    intro p' hp j hj
    exact hp (Spot.yield.inj (htop.symm.trans hj)).2
  cases p with
  | hold =>
    cases hx
    exact plain_go h hinv hpc hrunning (hother _ (by simp)) (hother _ (by simp))
      (.yield k .clear (hpoint _) (fun h => by cases h) hflag) (hreturnTo (by simp)) rfl
  | clear =>
    cases hx
    exact plain_go h hinv hpc hrunning (hother _ (by simp)) (hother _ (by simp))
      (.yield k .capture (hpoint _) (fun h => by cases h) hflag) (hreturnTo (by simp)) rfl
  | capture =>
    cases hx
    exact plain_go h hinv hpc hrunning (hother _ (by simp)) (hother _ (by simp))
      (.yield k .captured (hpoint _) (fun _ => hpoint _) hflag)
      (hreturnTo (by simp)) rfl
  | captured =>
    have hreturnTo := hreturnTo (by simp)
    simp only [stepYield] at hx
    split at hx
    · cases hx
      refine plain_run h hinv hpc hrunning (.yield k .returning (hpoint _) hcontext hflag)
        hreturnTo ?_
      rintro j (hj | ⟨hj, -⟩ | hj)
      · exact Or.inl hj
      · obtain ⟨rfl, -⟩ := Spot.yield.inj (htop.symm.trans hj)
        exact Or.inr (Or.inr rfl)
      · cases htop.symm.trans hj
    · next hno =>
      cases hx
      -- the `fun` has not started, so that the callback was not called
      have hstarted := (hinv.yields.top k _ htop).2.2.2.2.1
      have hnone : c.shared.caller (.invoke k) = none := by
        by_contra hcalled
        refine hstarted.mp (hinv.yields.called k hcalled) ?_
        exact Bool.eq_false_iff.mpr hno
      have hreturns := (hinv.calls _ hnone).1
      refine plain_run h hinv hpc hrunning
        (.inside k (congrArg (fun funs => Stack.mk .code (k :: funs)) hfuns) (hcontext rfl) ?_)
        hreturnTo ?_
      · exact iff_of_false (Bool.eq_false_iff.mp hflag) fun hne => hne hreturns
      · rintro j (hj | ⟨-, hj⟩ | hj)
        · exact Or.inl hj
        · exact absurd hj hno
        · cases htop.symm.trans hj
  | test =>
    simp only [stepYield] at hx
    split at hx
    · cases hx
      exact plain_go h hinv hpc hrunning (hother _ (by simp)) (hother _ (by simp))
        (.yield k .direct (hpoint _) hcontext trivial) (hreturnTo (by simp)) rfl
    · next hno =>
      cases hx
      exact plain_go h hinv hpc hrunning (hother _ (by simp)) (hother _ (by simp))
        (.yield k .relinquish (hpoint _) hcontext (Bool.eq_false_iff.mpr hno))
        (hreturnTo (by simp)) rfl
  | direct =>
    cases hx
    exact plain_go h hinv hpc hrunning (hother _ (by simp)) (hother _ (by simp))
      (.yield k .returning (hpoint _) hcontext rfl) (hreturnTo (by simp)) rfl
  | relinquish =>
    simp only [stepYield, hreturnTo (by simp)] at hx
    cases hx
    exact plain_go h hinv hpc hrunning (hother _ (by simp)) (hother _ (by simp))
      (.yield k (.setContext b) (hpoint _) hcontext hflag) rfl rfl
  | setContext d =>
    have hruns := hrunning.top
    unfold RunsTop at hruns
    rw [htop] at hruns
    obtain ⟨-, rfl⟩ := hruns
    simp only [stepYield, setContext, hrunning.saved] at hx
    cases hx
    exact plain_setContext h hinv hpc hrunning
  | returning =>
    cases hx
    refine plain_run h hinv hpc hrunning (.code (congrArg (Stack.mk _) hfuns) hflag)
      (hreturnTo (by simp)) fun j hj => Or.inl ?_
    by_cases hjk : j = k
    · subst hjk
      simp [goTop, goAfter]
    · rcases hj with hj | ⟨hj, -⟩ | hj
      · simpa [stepYield, goTop, goAfter, hjk] using hj
      · cases htop.symm.trans hj
      · exact absurd (Spot.yield.inj (hj.symm.trans htop)).1 hjk

/-- The steps of the coroutine's code. -/
theorem plain_code {a : Action} (hplain : Plain (t, a) c) (htop : c.shared.stack.top = .code)
    (hx : stepCode t a c.shared = some s') : PlainInv (c.move t s' .coroutine) := by
  have hreturnTo := returnTo_of_code hrunning htop
  have hother : ∀ p j, c.shared.stack.top ≠ .yield j p := by
    intro p j hj
    cases htop.symm.trans hj
  have hgo : ∀ s' : CBCoro ι, Tidy s' → s'.borrower = some b → s'.after = c.shared.after →
      PlainInv (c.move t s' .coroutine) :=
    fun _ => plain_go h hinv hpc hrunning (hother _) (hother _)
  have hcases := h.tidy.of_top htop
  cases a with
  | yield =>
    cases hx
    have hfuns := hplain (Or.inr rfl)
    rcases hcases with ⟨-, hflag⟩ | ⟨k, hk, -⟩
    · exact hgo _ (.yield _ .hold (congrArg (Stack.mk _) hfuns) nofun hflag) hreturnTo rfl
    · cases hfuns.symm.trans hk
  | invoke k =>
    obtain ⟨s'', hcall, rfl⟩ := Option.map_eq_some_iff.mp hx
    unfold callInvoke at hcall
    split_ifs at hcall with hcond
    cases hcall
    -- only the yield whose `fun` runs can have its callback called
    have hmem : k ∈ c.shared.stack.funs :=
      (hinv.yields.waiting hcond.1 hcond.2).has.mem_of_ne fun p => hother p k
    rcases hcases with ⟨hfuns, -⟩ | ⟨j, hfuns, hcontext, hflag⟩
    · rw [hfuns] at hmem
      cases hmem
    · rw [hfuns] at hmem
      obtain rfl := List.mem_singleton.mp hmem
      refine hgo _ (.call k .hold (congrArg (Stack.mk _) hfuns) hcontext ?_) hreturnTo rfl
      refine iff_of_false (fun hset => ?_) ?_
      · exact hflag.mp hset (hinv.calls _ hcond.2).1
      · rintro (hp | hp) <;> cases hp
  | drop handle =>
    unfold stepCode drop at hx
    simp only at hx
    split_ifs at hx
    cases hx
    refine hgo _ (h.tidy.congr rfl rfl rfl fun _ _ => rfl) ?_ rfl
    exact hrunning.top.borrower_eq
  | finish =>
    unfold stepCode at hx
    rcases hcases with ⟨hfuns, hflag⟩ | ⟨k, hfuns, hcontext, hflag⟩
    · rw [hfuns] at hx
      cases hx
      exact hgo _ (.ended .ended (congrArg (Stack.mk _) hfuns) (Or.inl rfl) hflag) hreturnTo rfl
    · rw [hfuns] at hx
      cases hx
      exact hgo _ (.yield k .test rfl (fun _ => hcontext) hflag) hreturnTo rfl
  | throws =>
    unfold stepCode at hx
    have hfuns := hplain (Or.inl rfl)
    rcases hcases with ⟨-, hflag⟩ | ⟨k, hk, -⟩
    · rw [hfuns] at hx
      cases hx
      exact hgo _ (.ended .ended (congrArg (Stack.mk _) hfuns) (Or.inl rfl) hflag) hreturnTo rfl
    · cases hfuns.symm.trans hk
  | go => cases hx
  | start => cases hx

/-- The steps of a call that the code has made. -/
theorem plain_inner {d : CallId} {p : CallPoint} {here : Option Stack} {r : CBCoro ι × CallNext}
    (htop : c.shared.stack.top = .call d p) (hx : stepCall t d here p c.shared = some r) :
    PlainInv (match r.2 with
      | .goes p => c.move t (r.1.goTop (.call d p)) .coroutine
      | .swaps => c.move t r.1 .coroutine
      | .returns => c.move t (r.1.goTop .code) .coroutine) := by
  obtain ⟨hreturnTo, -, -, hinner⟩ := runsTop_of_call hrunning htop
  obtain ⟨k, rfl, hfuns, hcontext, hflag⟩ := h.tidy.of_top htop
  have hother : ∀ p j, c.shared.stack.top ≠ .yield j p := by
    intro p j hj
    cases htop.symm.trans hj
  have hgo : ∀ s' : CBCoro ι, Tidy s' → s'.borrower = some b → s'.after = c.shared.after →
      PlainInv (c.move t s' .coroutine) :=
    fun _ => plain_go h hinv hpc hrunning (hother _) (hother _)
  have hstack : ∀ top, Stack.mk top c.shared.stack.funs = ⟨top, [k]⟩ :=
    fun top => congrArg (Stack.mk top) hfuns
  -- the flag is set between `direct` and the return
  have hbefore : p ≠ .unlock → p ≠ .returning → ∀ p', p' ≠ CallPoint.unlock → p' ≠ .returning →
      (c.shared.invokeFromYield = true ↔ p' = .unlock ∨ p' = .returning) := by
    intro hp hp' p' hq hq'
    refine hflag.trans (iff_of_false ?_ ?_)
    · rintro (heq | heq)
      · exact hp heq
      · exact hp' heq
    · rintro (heq | heq)
      · exact hq heq
      · exact hq' heq
  cases p with
  | hold =>
    cases hx
    exact hgo _ (.call k .lock (hstack _) hcontext (hbefore nofun nofun _ nofun nofun)) hreturnTo
      rfl
  | lock =>
    obtain ⟨mutex, -, rfl⟩ := Option.map_eq_some_iff.mp hx
    exact hgo _ (.call k .test (hstack _) hcontext (hbefore nofun nofun _ nofun nofun)) hreturnTo
      rfl
  | test =>
    cases hx
    simp only [hreturnTo, reduceCtorEq, if_false]
    exact hgo _ (.call k .direct (hstack _) hcontext (hbefore nofun nofun _ nofun nofun)) hreturnTo
      rfl
  | direct =>
    cases hx
    exact hgo _ (.call k .unlock (hstack _) hcontext (iff_of_true rfl (Or.inl rfl))) hreturnTo rfl
  | unlock =>
    obtain ⟨mutex, -, rfl⟩ := Option.map_eq_some_iff.mp hx
    have hset := hflag.mpr (Or.inl rfl)
    exact hgo _ (.call k .returning (hstack _) hcontext (iff_of_true hset (Or.inr rfl))) hreturnTo
      rfl
  | returning =>
    cases hx
    have hset := hflag.mpr (Or.inr rfl)
    refine hgo _ (.inside k (hstack _) hcontext (iff_of_true hset ?_)) hreturnTo rfl
    simp [goTop]
  | make => cases hinner
  | setReturnTo => cases hinner
  | revive => cases hinner
  | swap => cases hinner
  | reset => cases hinner

/-- The steps on the coroutine's stack. -/
theorem plain_coroutine {a : Action} (hplain : Plain (t, a) c)
    (hx : stepCoroutine t a c.shared = some (s', q')) : PlainInv (c.move t s' q') := by
  have hruns := hrunning.top
  unfold stepCoroutine at hx
  cases htop : c.shared.stack.top with
  | code =>
    rw [htop] at hx
    obtain ⟨s'', hcode, heq⟩ := Option.map_eq_some_iff.mp hx
    cases heq
    exact plain_code h hinv hpc hrunning hplain htop hcode
  | yield k p =>
    rw [htop] at hx
    cases a with
    | go => exact plain_yield h hinv hpc hrunning htop (Option.some.inj hx)
    | _ => cases hx
  | call d p =>
    rw [htop] at hx
    cases a with
    | go =>
      obtain ⟨⟨s'', next⟩, hcall, heq⟩ := Option.map_eq_some_iff.mp hx
      have hplain := plain_inner h hinv hpc hrunning htop hcall
      -- the call goes on, or has returned to the code
      cases next <;> cases heq <;> exact hplain
    | _ => cases hx
  | ended =>
    unfold RunsTop at hruns
    rw [htop] at hx hruns
    -- no `fun` is on the stack when the code has ended
    obtain ⟨hfuns, hflag⟩ := h.tidy.of_top htop
    cases a with
    | go =>
      simp only [hruns.1] at hx
      cases hx
      refine plain_go h hinv hpc hrunning ?_ ?_
        (.ended (.leaving b) (congrArg (Stack.mk _) hfuns) (Or.inr ⟨b, rfl⟩) hflag) rfl rfl
      · rw [htop]
        exact nofun
      · rw [htop]
        exact nofun
    | _ => cases hx
  | leaving d =>
    unfold RunsTop at hruns
    rw [htop] at hx hruns
    obtain ⟨-, rfl, -⟩ := hruns
    cases a with
    | go =>
      simp only [setContext, hrunning.saved] at hx
      cases hx
      exact plain_setContext h hinv hpc hrunning
    | _ => cases hx

end Coroutine

/-! ## Runs -/

/-- The steps of a plain coroutine. -/
theorem plain_step {l : ι × Action} {c' : Config ι (CBCoro ι) Control} (h : PlainInv c)
    (hinv : Inv c) (hplain : Plain l c) (hx : step l c = some c') : PlainInv c' := by
  obtain ⟨t, a⟩ := l
  obtain ⟨s', q', hprog, rfl⟩ := Config.step_eq_some_iff.mp hx
  cases hpc : c.pc t with
  | idle =>
    rw [hpc] at hprog
    exact plain_idle h hinv hprog
  | call d p =>
    rw [hpc] at hprog
    cases a with
    | go => exact plain_call h hinv hpc hprog
    | _ => cases hprog
  | coroutine =>
    rw [hpc] at hprog
    obtain ⟨b, hrunning⟩ := hinv.running hpc
    exact plain_coroutine h hinv hpc hrunning hplain hprog

omit [DecidableEq ι] in
/-- What a plain coroutine does is orderly. -/
theorem orderly_of_plainInv {l : ι × Action} (h : PlainInv c) (hinv : Inv c) (hplain : Plain l c) :
    Orderly l c := by
  obtain ⟨t, a⟩ := l
  unfold Orderly
  split
  · next hpc ha =>
    obtain rfl : a = .throws := ha
    intro k funs hstack
    have hfuns := hplain (Or.inl rfl)
    rw [hstack] at hfuns
    cases hfuns
  · next hpc ha =>
    intro k htop
    exact (h.tidy.of_top htop).2.2
  · next k hpc ha =>
    obtain ⟨hcontext, -⟩ := context_of_swap h hinv hpc rfl rfl
    rw [hcontext]
  · trivial

/-- **Plain runs are orderly.** -/
theorem orderly_of_plain {ls : List (ι × Action)} {c' : Config ι (CBCoro ι) Control}
    (hr : Steps step Plain c ls c') (hinv : Inv c) (h : PlainInv c) :
    Steps step Orderly c ls c' := by
  -- each step is orderly in a state with both invariants, and keeps them
  induction hr with
  | nil s => exact .nil s
  | cons hplain hx _ ih =>
    have ho := orderly_of_plainInv h hinv hplain
    exact .cons ho hx (ih (inv_step hinv ho hx) (plain_step h hinv hplain hx))

omit [DecidableEq ι] in
theorem plainInv_initial : PlainInv (initial ι) := ⟨.code rfl rfl, fun _ => trivial⟩

end Glim.CBCoro
