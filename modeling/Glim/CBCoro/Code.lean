import Glim.CBCoro.Yielding

/-!
# The steps of the coroutine's code keep the invariant

The code of `run()` and of each `fun` may yield, return, throw, destroy handles, and call
`invokeFromCallback` itself; such a call finds the mutex locked by its own thread, and does nothing
but to set `_invokeFromYield`.

## Main results

* `inv_code`, `inv_inner_call`: the steps of the code, and of the calls that it makes
* `inv_step`: every orderly step keeps the invariant
* `inv_of_steps`: the invariant holds in every state of an orderly run
-/

namespace Glim.CBCoro

open Thread

variable {ι : Type} [DecidableEq ι] {s s' : CBCoro ι} {t u : ι} {b c : CallId} {k : ℕ}
  {p : CallPoint} {c₀ : Config ι (CBCoro ι) Control}

/-! ## The coroutine's code -/

section Other

/-- The top of the stack is not a yield. -/
def Spot.NoYield (top : Spot) : Prop := ∀ k p, top ≠ .yield k p

omit [DecidableEq ι] in
/-- What is on top of the stack does not matter to the yields, if it is not one of them. -/
theorem Yields.goTop {top : Spot} (h : Yields s) (htop : s.stack.top.NoYield)
    (htop' : top.NoYield) : Yields (s.goTop top) := by
  obtain ⟨nodup, funs, -, left, fresh, called⟩ := h
  refine ⟨nodup, funs, fun k p hp => absurd hp (htop' k p), ?_, fresh, called⟩
  intro k hk hnot
  exact left k hk fun hold => hnot (Or.inl (hold.mem_of_ne (htop k)))

omit [DecidableEq ι] in
theorem latest_of_noYield {stack : Stack} (h : stack.top.NoYield) :
    stack.latest = Stack.latest.below stack.funs := by
  unfold Stack.latest
  split
  · next k p htop => exact absurd htop (h k p)
  · rfl

omit [DecidableEq ι] in
theorem Context.goTop {top : Spot} (h : Context s) (htop : s.stack.top.NoYield)
    (htop' : top.NoYield) : Context (s.goTop top) := by
  intro k funs hk
  obtain ⟨hlt, hlatest⟩ := h k funs hk
  refine ⟨hlt, fun hhas => ?_⟩
  have hmem : k ∈ s.stack.funs := hhas.mem_of_ne (htop' k)
  rw [latest_of_noYield htop']
  rw [← hlatest (Or.inl hmem), latest_of_noYield htop]
  rfl

omit [DecidableEq ι] in
theorem Waiting.goTop {top : Spot} (h : Waiting s k) (htop : s.stack.top.NoYield) :
    Waiting (s.goTop top) k :=
  Or.inl (h.has.mem_of_ne (htop k))

end Other

section Code

variable (h : Inv c₀) (hpc : c₀.pc t = .coroutine) (hrunning : Running c₀.shared t b)
  (htop : c₀.shared.stack.top = .code)
include h hpc hrunning htop

omit [DecidableEq ι] h hpc in
theorem returnTo_of_code : c₀.shared.returnTo = some b := by
  have hruns := hrunning.top
  unfold RunsTop at hruns
  rwa [htop] at hruns

omit [DecidableEq ι] h hpc hrunning in
theorem noYield_of_code : c₀.shared.stack.top.NoYield := by
  rw [htop]
  exact nofun

omit [DecidableEq ι] h hpc in
theorem mutex_of_code : c₀.shared.mutex = .heldBy t 0 := by
  rw [hrunning.mutex, depth, htop]

/-- The code calls `yieldForCallback`. -/
theorem inv_code_yield : Inv (c₀.move t ({ c₀.shared with
    yields := c₀.shared.yields + 1 }.goTop (.yield c₀.shared.yields .hold)) .coroutine) := by
  have hlocal := h.local_of_pc hpc
  have hcode := noYield_of_code htop
  have hreturnTo := returnTo_of_code hrunning htop
  have hmutex := mutex_of_code hrunning htop
  obtain ⟨nodup, funs, top, left, fresh, called⟩ := h.yields
  obtain ⟨hstarted, hzero, hlive⟩ := fresh c₀.shared.yields le_rfl
  have hfuns : c₀.shared.yields ∉ c₀.shared.stack.funs := fun hmem => hstarted (funs _ hmem).1
  -- the new yield is on top, and has neither a handle nor a context yet
  refine inv_run h hpc ⟨hrunning.begun, hrunning.saved, hmutex, hreturnTo⟩
    ⟨nodup, funs, ?_, ?_, ?_, called⟩ ?_ h.calls
    (hlocal.run hrunning.top.borrower_eq hreturnTo rfl rfl Iff.rfl ?_ nofun) (.of_eq rfl rfl rfl) ?_
  · rintro k p ⟨⟩
    refine ⟨hfuns, Nat.lt_succ_self _, hzero, iff_of_false hlive fun hne => hne rfl,
      iff_of_false hstarted fun hlate => hlate trivial, False.elim⟩
  · intro k hk hnot
    have hne : k ≠ c₀.shared.yields := by
      rintro rfl
      exact hnot (Or.inr ⟨_, rfl⟩)
    refine left k (by change k < _ + 1 at hk; omega) fun hold => hnot ?_
    exact Or.inl (hold.mem_of_ne (hcode k))
  · exact fun k hk => fresh k (Nat.le_of_succ_le hk)
  · intro k funs' hk
    obtain ⟨hlt, hlatest⟩ := h.context k funs' hk
    refine ⟨Nat.lt_succ_of_lt hlt, fun hhas => ?_⟩
    have hmem : k ∈ c₀.shared.stack.funs := by
      rcases hhas with hmem | ⟨p, hp⟩
      · exact hmem
      · cases hp
        exact absurd hlt (Nat.lt_irrefl _)
    have heq := hlatest (Or.inl hmem)
    unfold Stack.latest at heq
    rw [htop] at heq
    exact heq
  · rw [htop]
    exact nofun
  · exact fun j _ hwait => Or.inl (hwait.has.mem_of_ne (hcode j))

/-- The innermost `fun` returns to its yield. -/
theorem inv_code_finish {funs : List ℕ} (hfuns : c₀.shared.stack.funs = k :: funs) :
    Inv (c₀.move t { c₀.shared with stack := ⟨.yield k .test, funs⟩ } .coroutine) := by
  have hlocal := h.local_of_pc hpc
  have hcode := noYield_of_code htop
  have hreturnTo := returnTo_of_code hrunning htop
  have hmutex := mutex_of_code hrunning htop
  have hhas : ∀ j, Stack.Has ⟨.yield k .test, funs⟩ j ↔ c₀.shared.stack.Has j := by
    intro j
    rw [← Stack.has_code_cons, ← htop, ← hfuns]
  -- the yield of the `fun` is on top again
  refine inv_run h hpc ⟨hrunning.begun, hrunning.saved, hmutex, hreturnTo⟩ ?_ ?_ h.calls
    (hlocal.run hrunning.top.borrower_eq hreturnTo rfl rfl Iff.rfl ?_ nofun) (.of_eq rfl rfl rfl) ?_
  · obtain ⟨nodup, hmem, top, left, fresh, called⟩ := h.yields
    rw [hfuns] at nodup hmem
    obtain ⟨hnot, nodup⟩ := List.nodup_cons.mp nodup
    obtain ⟨hstarted, hzero, hlive⟩ := hmem k List.mem_cons_self
    refine ⟨nodup, fun j hj => hmem j (List.mem_cons_of_mem k hj), ?_, ?_, fresh, called⟩
    · rintro j p ⟨⟩
      refine ⟨hnot, ?_, hzero, iff_of_true hlive nofun, iff_of_true hstarted id, False.elim⟩
      by_contra hge
      exact (fresh k (Nat.le_of_not_lt hge)).1 hstarted
    · exact fun j hj hnot => left j hj fun hold => hnot ((hhas j).mpr hold)
  · intro j funs' hj
    obtain ⟨hlt, hlatest⟩ := h.context j funs' hj
    refine ⟨hlt, fun hhas' => ?_⟩
    have heq := hlatest ((hhas j).mp hhas')
    unfold Stack.latest at heq
    rw [htop, hfuns] at heq
    exact heq
  · rw [htop]
    exact nofun
  · intro j _ hwait
    have hj := hwait.has.mem_of_ne (hcode j)
    rw [hfuns] at hj
    rcases List.mem_cons.mp hj with rfl | hj
    · exact Or.inr (Or.inl rfl)
    · exact Or.inl hj

/-- The innermost `fun` throws, after its callback has been called directly. -/
theorem inv_code_throws {funs : List ℕ} (hfuns : c₀.shared.stack.funs = k :: funs)
    (hreturns : c₀.shared.returns (.invoke k) ≠ []) :
    Inv (c₀.move t (goAfter { c₀.shared with
      stack := ⟨.code, funs⟩
      users := c₀.shared.users.destroy (.yield k) } k) .coroutine) := by
  have hlocal := h.local_of_pc hpc
  have hcode := noYield_of_code htop
  have hreturnTo := returnTo_of_code hrunning htop
  have hmutex := mutex_of_code hrunning htop
  obtain ⟨nodup, hmem, top, left, fresh, called⟩ := h.yields
  rw [hfuns] at nodup hmem
  obtain ⟨hnot, nodup⟩ := List.nodup_cons.mp nodup
  obtain ⟨hstarted, hzero, hlive⟩ := hmem k List.mem_cons_self
  have hafter : ∀ j ≠ k, Function.update c₀.shared.after k (c₀.shared.after k + 1) j =
      c₀.shared.after j := fun j hj => Function.update_of_ne hj _ _
  have hyield : ∀ j ≠ k, (.yield j ∈ (c₀.shared.users.destroy (.yield k)).live ↔
      .yield j ∈ c₀.shared.users.live) := by
    intro j hj
    simp [Users.destroy, hj]
  have hcall : ∀ c, .call c ∈ (c₀.shared.users.destroy (.yield k)).live ↔
      .call c ∈ c₀.shared.users.live := by
    intro c
    simp [Users.destroy]
  -- the yield is unwound, and destroys its handle; its callback has been called and has returned
  refine inv_run h hpc ⟨⟨hrunning.begun.1, hrunning.begun.2.destroy hlive⟩, hrunning.saved, hmutex,
    hreturnTo⟩ ⟨nodup, ?_, (fun _ _ h => by cases h), ?_, ?_, called⟩ ?_ ?_
    (hlocal.run hrunning.top.borrower_eq hreturnTo rfl rfl (hcall b) ?_ fun _ _ h => by cases h)
    ⟨fun _ _ _ => Iff.rfl, fun _ _ _ _ => rfl, fun c _ _ _ _ => hcall c⟩ ?_
  · intro j hj
    have hjk : j ≠ k := by
      rintro rfl
      exact hnot hj
    obtain ⟨hs, hz, hl⟩ := hmem j (List.mem_cons_of_mem k hj)
    exact ⟨hs, (hafter j hjk).trans hz, (hyield j hjk).mpr hl⟩
  · intro j hj hleft
    by_cases hjk : j = k
    · subst hjk
      refine ⟨?_, fun hnone => hreturns (h.calls _ hnone).1⟩
      change Function.update _ _ _ _ = 1
      rw [Function.update_self, hzero]
    · change Function.update _ _ _ _ = 1 ∧ _
      rw [hafter j hjk]
      refine left j hj fun hold => hleft ?_
      have hin := hold.mem_of_ne (hcode j)
      rw [hfuns] at hin
      exact Or.inl ((List.mem_cons.mp hin).resolve_left hjk)
  · intro j hj
    have hjk : j ≠ k := by
      rintro rfl
      exact (fresh j hj).1 hstarted
    obtain ⟨hs, hz, hl⟩ := fresh j hj
    exact ⟨hs, (hafter j hjk).trans hz, fun hl' => hl ((hyield j hjk).mp hl')⟩
  · intro j funs' hj
    obtain ⟨hlt, hlatest⟩ := h.context j funs' hj
    refine ⟨hlt, fun hhas => ?_⟩
    have hin : j ∈ funs := hhas.mem_of_code
    -- the last yield that captured its context is the one that is unwound
    have heq := hlatest (Or.inl (by rw [hfuns]; exact List.mem_cons_of_mem k hin))
    unfold Stack.latest at heq
    rw [htop, hfuns] at heq
    obtain ⟨rfl, -⟩ := Prod.mk.inj (Option.some.inj heq)
    exact absurd hin hnot
  · intro c hc
    obtain ⟨hr, hl⟩ := h.calls c hc
    exact ⟨hr, fun hl' => hl ((hcall c).mp hl')⟩
  · rw [htop]
    rintro _ _ ⟨⟩
  · intro j hnone hwait
    have hj := hwait.has.mem_of_ne (hcode j)
    rw [hfuns] at hj
    rcases List.mem_cons.mp hj with rfl | hj
    · exact absurd hnone hreturns
    · exact Or.inl hj

omit [DecidableEq ι] htop in
theorem local_of_code : Local c₀.shared t .coroutine ∧ c₀.shared.borrower = some b := by
  have hlocal := h.local_of_pc hpc
  exact ⟨hlocal, hrunning.top.borrower_eq⟩

/-- The code calls `invokeFromCallback`. -/
theorem inv_code_invoke (hx : callInvoke t k c₀.shared = some s') :
    Inv (c₀.move t (s'.goTop (.call (.invoke k) .hold)) .coroutine) := by
  unfold callInvoke at hx
  split_ifs at hx with hcond
  cases hx
  obtain ⟨hlocal, hborrower⟩ := local_of_code h hpc hrunning
  have hreturnTo := returnTo_of_code hrunning htop
  have hmutex := mutex_of_code hrunning htop
  have hcode := noYield_of_code htop
  have hin := InCall.callInvoke (t := t) rfl h.yields h.calls hcond.1 hcond.2
  have hstart : Function.update c₀.shared.caller (.invoke k) (some t) .start ≠ none := by
    simpa using hrunning.begun.1
  have hb := hlocal.inCall b _ (Or.inl ⟨hborrower, rfl⟩)
  have hbk : b ≠ .invoke k := by
    rintro rfl
    cases hb.caller.symm.trans hcond.2
  have hframe := Frame.callInvoke (t := t) rfl hcond.2
  -- the thread is in two calls now: the one that lent it, and the new one
  refine inv_run h hpc
    ⟨⟨hstart, hrunning.begun.2⟩, hrunning.saved, hmutex, hreturnTo, hbk.symm, nofun, rfl⟩
    ((h.yields.callInvoke rfl hcond.1).goTop hcode nofun) (Context.goTop h.context hcode nofun)
    (Calls.callInvoke (s := c₀.shared) rfl h.calls) ⟨?_, ?_⟩
    ⟨hframe.caller, hframe.returns, hframe.live⟩ fun j _ hwait => ?_
  · rintro d p (⟨hd, rfl⟩ | hd)
    · obtain rfl : b = d := Option.some.inj (hreturnTo.symm.trans hd)
      refine ⟨?_, hb.returns, hb.live, ?_⟩
      · simpa [goTop, hbk] using hb.caller
      · rintro j rfl hw
        exact hw.elim
    · obtain ⟨rfl, rfl⟩ := Spot.call.inj hd
      refine ⟨hin.caller, hin.returns, hin.live, fun j hj hw => ?_⟩
      exact (hin.waiting j hj hw).goTop hcode
  · intro d hd
    by_cases hdk : d = .invoke k
    · subst hdk
      exact Or.inr ⟨.hold, Or.inr rfl⟩
    · rcases hlocal.done d (by simpa [goTop, hdk] using hd) with hdone | ⟨p, ⟨hp, -⟩ | hp⟩
      · exact Or.inl hdone
      · exact Or.inr ⟨_, Or.inl ⟨hreturnTo.trans (hborrower.symm.trans hp), rfl⟩⟩
      · cases htop.symm.trans hp
  · exact hwait.goTop hcode

omit htop in
/-- The code destroys a handle. -/
theorem inv_code_drop {handle : Handle} (hx : drop handle c₀.shared = some s') :
    Inv (c₀.move t s' .coroutine) := by
  unfold drop at hx
  split_ifs at hx with hcond
  cases hx
  obtain ⟨hmem, hreturned⟩ := hcond
  obtain ⟨hlocal, -⟩ := local_of_code h hpc hrunning
  exact inv_run h hpc
    ⟨Begun.drop hmem hrunning.begun, hrunning.saved, hrunning.mutex, hrunning.top⟩
    (h.yields.drop hreturned) h.context (h.calls.drop hreturned) (hlocal.drop hreturned)
    (.drop hreturned) fun _ _ => id

/-- `run()` ends. -/
theorem inv_code_ended (hfuns : c₀.shared.stack.funs = []) :
    Inv (c₀.move t (c₀.shared.goTop .ended) .coroutine) := by
  obtain ⟨hlocal, hborrower⟩ := local_of_code h hpc hrunning
  have hreturnTo := returnTo_of_code hrunning htop
  have hmutex := mutex_of_code hrunning htop
  have hcode := noYield_of_code htop
  refine inv_run h hpc ⟨hrunning.begun, hrunning.saved, hmutex, hreturnTo, hfuns⟩
    (h.yields.goTop hcode nofun) (h.context.goTop hcode nofun) h.calls
    (hlocal.run hborrower hreturnTo rfl rfl Iff.rfl ?_ nofun) (.of_eq rfl rfl rfl)
    fun j _ hwait => hwait.goTop hcode
  rw [htop]
  exact nofun

/-- The steps of the coroutine's code keep the invariant. -/
theorem inv_code {a : Action} (ho : Orderly (t, a) c₀) (hx : stepCode t a c₀.shared = some s') :
    Inv (c₀.move t s' .coroutine) := by
  cases a with
  | yield => cases hx; exact inv_code_yield h hpc hrunning htop
  | invoke k =>
    obtain ⟨s'', hcall, rfl⟩ := Option.map_eq_some_iff.mp hx
    exact inv_code_invoke h hpc hrunning htop hcall
  | drop handle => exact inv_code_drop h hpc hrunning hx
  | finish =>
    unfold stepCode at hx
    cases hfuns : c₀.shared.stack.funs with
    | nil =>
      rw [hfuns] at hx
      cases hx
      exact inv_code_ended h hpc hrunning htop hfuns
    | cons k funs =>
      rw [hfuns] at hx
      cases hx
      exact inv_code_finish h hpc hrunning htop hfuns
  | throws =>
    unfold stepCode at hx
    cases hfuns : c₀.shared.stack.funs with
    | nil =>
      rw [hfuns] at hx
      cases hx
      exact inv_code_ended h hpc hrunning htop hfuns
    | cons k funs =>
      rw [hfuns] at hx
      cases hx
      refine inv_code_throws h hpc hrunning htop hfuns ?_
      unfold Orderly at ho
      rw [hpc] at ho
      refine ho k funs ?_
      rw [← htop, ← hfuns]
  | go => cases hx
  | start => cases hx

end Code

/-! ## Calls from inside -/

section Inner

variable (h : Inv c₀) (hpc : c₀.pc t = .coroutine) (hrunning : Running c₀.shared t b)
  (htop : c₀.shared.stack.top = .call c p)
include h hpc hrunning htop

omit [DecidableEq ι] h hpc in
theorem runsTop_of_call :
    c₀.shared.returnTo = some b ∧ c ≠ b ∧ c ≠ .start ∧ p.isInner = true := by
  have hruns := hrunning.top
  unfold RunsTop at hruns
  rwa [htop] at hruns

omit [DecidableEq ι] hrunning in
theorem inCall_of_inner : InCall c₀.shared t c p := by
  have hlocal := h.local_of_pc hpc
  exact hlocal.inCall c p (Or.inr htop)

omit [DecidableEq ι] h hpc hrunning in
theorem noYield_of_call : c₀.shared.stack.top.NoYield := by
  rw [htop]
  exact nofun

/-- The call goes on. -/
theorem inv_inner {p' : CallPoint} (hstack : s'.stack = ⟨.call c p', c₀.shared.stack.funs⟩)
    (hyields : Yields s') (hcontext : Context s') (hbegun : Begun s')
    (hsaved : s'.saved = c₀.shared.saved)
    (hmutex : s'.mutex = .heldBy t (if p'.isLocked then 1 else 0))
    (hreturnTo : s'.returnTo = c₀.shared.returnTo) (hcaller : s'.caller = c₀.shared.caller)
    (hreturns : s'.returns = c₀.shared.returns)
    (hlive : ∀ d ≠ c, .call d ∈ s'.users.live ↔ .call d ∈ c₀.shared.users.live)
    (hlivec : .call c ∈ s'.users.live ↔ p' ≠ .hold) (hinner : p'.isInner = true)
    (hwaits : p'.waits → p.waits) : Inv (c₀.move t s' .coroutine) := by
  have hlocal := h.local_of_pc hpc
  obtain ⟨hruns, hcb, hstart, -⟩ := runsTop_of_call hrunning htop
  have hin := inCall_of_inner h hpc htop
  have hb := hlocal.inCall b _ (Or.inl ⟨hrunning.top.borrower_eq, rfl⟩)
  have hborrower : s'.borrower = some b := by
    unfold borrower
    rw [hstack]
    exact hreturnTo.trans hruns
  -- the yields that wait are below the call
  have hwait : ∀ j, Waiting c₀.shared j → Waiting s' j := by
    intro j hj
    refine Or.inl ?_
    rw [hstack]
    exact hj.has.mem_of_ne (noYield_of_call htop j)
  refine inv_run h hpc (b := b) ⟨hbegun, ?_, ?_, ?_⟩ hyields hcontext ?_ ⟨?_, ?_⟩ ⟨?_, ?_, ?_⟩
    fun j _ => hwait j
  · rw [hsaved]
    exact hrunning.saved
  · rw [hmutex, depth, hstack]
  · unfold RunsTop
    rw [hstack]
    exact ⟨hreturnTo.trans hruns, hcb, hstart, hinner⟩
  · intro d hd
    rw [hcaller] at hd
    have hdc : d ≠ c := by
      rintro rfl
      cases hin.caller.symm.trans hd
    rw [hreturns, hlive d hdc]
    exact h.calls d hd
  · rintro d p'' (⟨hd, rfl⟩ | hd)
    · obtain rfl : b = d := Option.some.inj (hborrower.symm.trans hd)
      refine ⟨by rw [hcaller]; exact hb.caller, by rw [hreturns]; exact hb.returns,
        (hlive b hcb.symm).trans hb.live, ?_⟩
      rintro j rfl hw
      exact hw.elim
    · rw [hstack] at hd
      obtain ⟨rfl, rfl⟩ := Spot.call.inj hd
      exact ⟨by rw [hcaller]; exact hin.caller, by rw [hreturns]; exact hin.returns, hlivec,
        fun j hj hw => hwait j (hin.waiting j hj (hwaits hw))⟩
  · intro d hd
    rw [hcaller] at hd
    rw [hreturns]
    rcases hlocal.done d hd with hdone | ⟨p'', ⟨hp, -⟩ | hp⟩
    · exact Or.inl hdone
    · exact Or.inr ⟨_, Or.inl ⟨hborrower.trans (hrunning.top.borrower_eq.symm.trans hp), rfl⟩⟩
    · obtain ⟨rfl, -⟩ := Spot.call.inj (htop.symm.trans hp)
      exact Or.inr ⟨p', Or.inr (by rw [hstack])⟩
  · intro d u _
    rw [hcaller]
  · intro d u _ _
    rw [hreturns]
  · intro d u hu hd _
    refine hlive d ?_
    rintro rfl
    exact hu (Option.some.inj (hd.symm.trans hin.caller))

/-- The call returns to the code. -/
theorem inv_inner_returning (hp : p = .returning) :
    Inv (c₀.move t ({ c₀.shared with
      returns := Function.update c₀.shared.returns c (t :: c₀.shared.returns c) }.goTop .code)
      .coroutine) := by
  subst hp
  have hlocal := h.local_of_pc hpc
  obtain ⟨hruns, hcb, -, -⟩ := runsTop_of_call hrunning htop
  have hcall := noYield_of_call htop
  have hcode : Spot.code.NoYield := nofun
  have hin := inCall_of_inner h hpc htop
  -- the call of the code returns, and the one that has lent the thread goes on waiting
  have hb := hlocal.inCall b _ (Or.inl ⟨hrunning.top.borrower_eq, rfl⟩)
  have hupdate : ∀ d ≠ c, Function.update c₀.shared.returns c (t :: c₀.shared.returns c) d =
      c₀.shared.returns d := fun d hd => Function.update_of_ne hd _ _
  refine inv_run h hpc (b := b) ⟨hrunning.begun, hrunning.saved, ?_, hruns⟩
    ((h.yields.goTop hcall hcode).congr rfl rfl rfl rfl rfl rfl fun _ => Iff.rfl)
    ((h.context.goTop hcall hcode).congr rfl rfl rfl) ?_ ⟨?_, ?_⟩
    ⟨fun _ _ _ => Iff.rfl, ?_, fun _ _ _ _ _ => Iff.rfl⟩
    fun j _ hwait => (Waiting.congr rfl).mpr (hwait.goTop hcall)
  · change c₀.shared.mutex = .heldBy t 0
    rw [hrunning.mutex, depth, htop]
    rfl
  -- a call that has not been made is another one
  · intro d hd
    have hdc : d ≠ c := by
      rintro rfl
      cases hin.caller.symm.trans hd
    obtain ⟨hreturns, hlive⟩ := h.calls d hd
    exact ⟨(hupdate d hdc).trans hreturns, hlive⟩
  -- the thread is still in the call that has lent it
  · rintro d p (⟨hd, rfl⟩ | hd)
    · obtain rfl : b = d := Option.some.inj (hruns.symm.trans hd)
      refine ⟨hb.caller, (hupdate b hcb.symm).trans hb.returns, hb.live, ?_⟩
      rintro j rfl hw
      exact hw.elim
    · cases hd
  · intro d hd
    by_cases hdc : d = c
    · subst hdc
      exact Or.inl (by simp [goTop, hin.returns])
    · rcases hlocal.done d hd with hdone | ⟨p, ⟨hp, -⟩ | hp⟩
      · exact Or.inl ((hupdate d hdc).trans hdone)
      · exact Or.inr ⟨_, Or.inl ⟨hruns.trans (hrunning.top.borrower_eq.symm.trans hp), rfl⟩⟩
      · exact absurd (Spot.call.inj (htop.symm.trans hp)).1.symm hdc
  -- the calls of the other threads are other calls
  · intro d u hu hd
    refine hupdate d ?_
    rintro rfl
    exact hu (Option.some.inj (hd.symm.trans hin.caller))

/-- What a call does not change, or only counts. -/
theorem inv_inner_keep {p' : CallPoint} (hstack : s'.stack = ⟨.call c p', c₀.shared.stack.funs⟩)
    (hyields : s'.yields = c₀.shared.yields) (hstarted : s'.started = c₀.shared.started)
    (hafter : s'.after = c₀.shared.after) (hflag : s'.yieldFromInvoke = c₀.shared.yieldFromInvoke)
    (hcontext : s'.context = c₀.shared.context) (husers : s'.users = c₀.shared.users)
    (hsaved : s'.saved = c₀.shared.saved)
    (hmutex : s'.mutex = .heldBy t (if p'.isLocked then 1 else 0))
    (hreturnTo : s'.returnTo = c₀.shared.returnTo) (hcaller : s'.caller = c₀.shared.caller)
    (hreturns : s'.returns = c₀.shared.returns) (hp : p ≠ .hold) (hp' : p' ≠ .hold)
    (hinner : p'.isInner = true) (hwaits : p'.waits → p.waits) :
    Inv (c₀.move t s' .coroutine) := by
  have hcall := noYield_of_call htop
  have hgoing : (Spot.call c p').NoYield := nofun
  have hin := inCall_of_inner h hpc htop
  have hbegun : Begun s' := by
    unfold Begun
    rw [hcaller, husers]
    exact hrunning.begun
  refine inv_inner h hpc hrunning htop hstack ?_ ?_ hbegun hsaved hmutex hreturnTo hcaller hreturns
    (fun d _ => by rw [husers]) ?_ hinner hwaits
  · refine (h.yields.goTop hcall hgoing).congr hstack hyields hstarted hafter hflag hcaller ?_
    intro k
    rw [husers]
    rfl
  · exact (h.context.goTop hcall hgoing).congr hstack hyields hcontext
  · rw [husers, hin.live]
    exact iff_of_true hp hp'

/-- The handle of the call is created. -/
theorem inv_inner_hold (hp : p = .hold) :
    Inv (c₀.move t ({ c₀.shared with
      users := c₀.shared.users.create (.call c) }.goTop (.call c c.afterHold)) .coroutine) := by
  subst hp
  obtain ⟨-, -, hstart, -⟩ := runsTop_of_call hrunning htop
  have hcall := noYield_of_call htop
  have hgoing : (Spot.call c c.afterHold).NoYield := fun _ _ h => by cases h
  have hin := inCall_of_inner h hpc htop
  -- the call is being made, so it has no handle yet
  have hnot : .call c ∉ c₀.shared.users.live := fun hmem => hin.live.mp hmem rfl
  have hbegun : Begun { c₀.shared with users := c₀.shared.users.create (.call c) } :=
    ⟨hrunning.begun.1, hrunning.begun.2.create hnot (deletions_of_running h hpc hrunning)⟩
  have hcase : c.afterHold = .lock := by
    cases c with
    | start => exact absurd rfl hstart
    | invoke k => rfl
  refine inv_inner h hpc hrunning htop (show _ = Stack.mk (.call c c.afterHold) _ from rfl) ?_ ?_
    hbegun rfl ?_ rfl rfl rfl ?_ ?_ ?_ fun _ => trivial
  · refine (h.yields.goTop hcall hgoing).congr rfl rfl rfl rfl rfl rfl fun k => ?_
    simp [Users.create, CBCoro.goTop]
  · exact (h.context.goTop hcall hgoing).congr rfl rfl rfl
  · change c₀.shared.mutex = _
    rw [hcase, hrunning.mutex, depth, htop]
    rfl
  · intro d hd
    simp [Users.create, CBCoro.goTop, hd]
  · rw [hcase]
    exact iff_of_true (Finset.mem_insert_self _ _) (by simp)
  · rw [hcase]
    rfl

/-- **The steps of a call that the code has made** keep the invariant: it finds the mutex locked by
its own thread, and the coroutine running. -/
theorem inv_inner_call {r : CBCoro ι × CallNext} {here : Option Stack}
    (hx : stepCall t c here p c₀.shared = some r) :
    Inv (match r.2 with
      | .goes p => c₀.move t (r.1.goTop (.call c p)) .coroutine
      | .swaps => c₀.move t r.1 .coroutine
      | .returns => c₀.move t (r.1.goTop .code) .coroutine) := by
  obtain ⟨hreturnTo, -, hstart, hinner⟩ := runsTop_of_call hrunning htop
  have hmutex := hrunning.mutex
  unfold depth at hmutex
  rw [htop] at hmutex
  have hafter : c.afterLock = .test := by
    cases c with
    | start => exact absurd rfl hstart
    | invoke k => rfl
  cases p with
  | hold =>
    cases hx
    exact inv_inner_hold h hpc hrunning htop rfl
  -- the thread owns the mutex already
  | lock =>
    obtain ⟨mutex, hlock, rfl⟩ := Option.map_eq_some_iff.mp hx
    rw [hmutex] at hlock
    obtain rfl := Option.some.inj ((RecursiveMutex.lock_heldBy t 0).symm.trans hlock)
    simp only [hafter]
    exact inv_inner_keep h hpc hrunning htop rfl rfl rfl rfl rfl rfl rfl rfl rfl rfl rfl rfl nofun
      nofun rfl id
  | test =>
    cases hx
    simp only [hreturnTo, reduceCtorEq, if_false]
    exact inv_inner_keep h hpc hrunning htop rfl rfl rfl rfl rfl rfl rfl rfl hmutex rfl rfl rfl
      nofun nofun rfl id
  | direct =>
    cases hx
    exact inv_inner_keep h hpc hrunning htop rfl rfl rfl rfl rfl rfl rfl rfl hmutex rfl rfl rfl
      nofun nofun rfl False.elim
  | unlock =>
    obtain ⟨mutex, hunlock, rfl⟩ := Option.map_eq_some_iff.mp hx
    rw [hmutex] at hunlock
    obtain rfl := Option.some.inj ((RecursiveMutex.unlock_succ t 0).symm.trans hunlock)
    exact inv_inner_keep h hpc hrunning htop rfl rfl rfl rfl rfl rfl rfl rfl rfl rfl rfl rfl nofun
      nofun rfl id
  | returning =>
    cases hx
    exact inv_inner_returning h hpc hrunning htop rfl
  -- the other points are those of `start`, and of a call that revives the coroutine
  | make => cases hinner
  | setReturnTo => cases hinner
  | revive => cases hinner
  | swap => cases hinner
  | reset => cases hinner

end Inner

/-! ## The end of the coroutine -/

/-- The coroutine takes the context that it gives the thread back to. -/
theorem inv_ended (h : Inv c₀) (hpc : c₀.pc t = .coroutine) (hrunning : Running c₀.shared t b)
    (htop : c₀.shared.stack.top = .ended) :
    Inv (c₀.move t ({ c₀.shared with returnTo := none }.goTop (.leaving b)) .coroutine) := by
  have hlocal := h.local_of_pc hpc
  have hruns : c₀.shared.returnTo = some b ∧ c₀.shared.stack.funs = [] := by
    have hruns := hrunning.top
    unfold RunsTop at hruns
    rwa [htop] at hruns
  have hended : c₀.shared.stack.top.NoYield := by
    rw [htop]
    rintro _ _ ⟨⟩
  have hleaving : (Spot.leaving b).NoYield := fun _ _ h => by cases h
  refine inv_run (b := b) h hpc ⟨hrunning.begun, hrunning.saved, ?_, rfl, rfl, hruns.2⟩
    ((h.yields.goTop hended hleaving).congr rfl rfl rfl rfl rfl rfl fun _ => Iff.rfl)
    ((h.context.goTop hended hleaving).congr rfl rfl rfl) h.calls
    (hlocal.run hrunning.top.borrower_eq rfl rfl rfl Iff.rfl ?_ fun _ _ h => by cases h)
    (.of_eq rfl rfl rfl) fun j _ hwait => (Waiting.congr rfl).mpr (hwait.goTop hended)
  · change c₀.shared.mutex = .heldBy t 0
    rw [hrunning.mutex, depth, htop]
  · rw [htop]
    rintro _ _ ⟨⟩

/-- The steps on the coroutine's stack keep the invariant. -/
theorem inv_coroutine {a : Action} {q' : Control} (h : Inv c₀) (ho : Orderly (t, a) c₀)
    (hpc : c₀.pc t = .coroutine) (hx : stepCoroutine t a c₀.shared = some (s', q')) :
    Inv (c₀.move t s' q') := by
  obtain ⟨b, hrunning⟩ := h.running hpc
  have hruns := hrunning.top
  unfold stepCoroutine at hx
  -- by what is on top of the stack
  cases htop : c₀.shared.stack.top with
  | code =>
    rw [htop] at hx
    obtain ⟨s'', hcode, heq⟩ := Option.map_eq_some_iff.mp hx
    cases heq
    exact inv_code h hpc hrunning htop ho hcode
  | yield k p =>
    rw [htop] at hx
    cases a with
    | go => exact inv_yield h hpc hrunning ho htop (Option.some.inj hx)
    | _ => cases hx
  | call c p =>
    rw [htop] at hx
    cases a with
    | go =>
      obtain ⟨⟨s'', next⟩, hcall, heq⟩ := Option.map_eq_some_iff.mp hx
      have hinv := inv_inner_call h hpc hrunning htop hcall
      cases next <;> cases heq <;> exact hinv
    | _ => cases hx
  | ended =>
    unfold RunsTop at hruns
    rw [htop] at hx hruns
    cases a with
    | go =>
      simp only [hruns.1] at hx
      cases hx
      exact inv_ended h hpc hrunning htop
    | _ => cases hx
  | leaving c =>
    unfold RunsTop at hruns
    rw [htop] at hx hruns
    obtain ⟨hreturnTo, rfl, hfuns⟩ := hruns
    cases a with
    | go =>
      simp only [setContext, hrunning.saved] at hx
      cases hx
      exact inv_setContext h hpc hrunning hreturnTo (Or.inr ⟨⟨c, htop⟩, hfuns⟩)
    | _ => cases hx

/-! ## Runs -/

/-- **Every step keeps the invariant**, if it is orderly. -/
theorem inv_step {l : ι × Action} {c c' : Config ι (CBCoro ι) Control} (h : Inv c)
    (ho : Orderly l c) (hx : step l c = some c') : Inv c' := by
  obtain ⟨t, a⟩ := l
  obtain ⟨s', q', hprog, rfl⟩ := Config.step_eq_some_iff.mp hx
  cases hpc : c.pc t with
  | idle =>
    rw [hpc] at hprog
    exact inv_idle h hpc hprog
  | call d p =>
    rw [hpc] at hprog
    cases a with
    | go => exact inv_call h ho hpc hprog
    | _ => cases hprog
  | coroutine =>
    rw [hpc] at hprog
    exact inv_coroutine h ho hpc hprog

omit [DecidableEq ι] in
theorem inv_initial : Inv (initial ι) where
  custody := ⟨fun _ _ h => h.elim, fun _ => .fresh rfl rfl ⟨rfl, rfl⟩ rfl rfl, fun _ h => h.elim⟩
  yields := by
    refine ⟨List.nodup_nil, nofun, nofun, nofun, fun k _ => ⟨nofun, rfl, ?_⟩, fun k hk => ?_⟩
    · exact Finset.notMem_empty _
    · exact absurd rfl hk
  context := nofun
  calls := fun _ _ => ⟨rfl, Finset.notMem_empty _⟩
  threads := fun _ => ⟨nofun, nofun⟩

/-- The invariant holds in every state of an orderly run. -/
theorem inv_of_steps {ls : List (ι × Action)} {c : Config ι (CBCoro ι) Control}
    (hr : Steps step Orderly (initial ι) ls c) : Inv c :=
  hr.invariant (fun _ _ _ h ho hx => inv_step h ho hx) inv_initial

end Glim.CBCoro
