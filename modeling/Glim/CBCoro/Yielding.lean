import Glim.CBCoro.Calls

/-!
# The steps of yields keep the invariant

The thread that runs the coroutine has it in custody for the call that has lent the thread. A yield
is on top of the stack until it calls its `fun`, and after that has returned.

## Main results

* `inv_run`, `inv_point`: what a step on the coroutine's stack has to do to keep the invariant
* `inv_yield`: the steps of a yield
* `inv_setContext`: the coroutine gives the thread back
-/

namespace Glim.CBCoro

open Thread

variable {ι : Type} {s s' : CBCoro ι} {t u : ι} {b c : CallId} {k : ℕ} {p p' : YieldPoint}

/-! ## Running -/

/-- A coroutine that runs for the call `b` has it as its borrower. -/
theorem RunsTop.borrower_eq (h : RunsTop s b) : s.borrower = some b := by
  unfold RunsTop at h
  unfold borrower
  split at h
  · next htop => rw [htop]; exact h
  · next htop => rw [htop]; exact h.1
  · next htop => rw [htop]; exact congrArg some h.2
  · next hcapture hset htop =>
    rw [htop]
    split
    · next hset' => exact absurd hset' (by rintro ⟨⟩; exact hset _ rfl)
    · next hleave => cases hleave
    · exact h
  · next htop => rw [htop]; exact h.1
  · next htop => rw [htop]; exact h.1
  · next htop => rw [htop]; exact congrArg some h.2.1

/-- While a yield is on top of the stack, `_returnTo` is set until `cbcReturn()` has read it. -/
theorem returnTo_of_yield (h : Running s t b) (htop : s.stack.top = .yield k p)
    (hp : ∀ d, p ≠ .setContext d) : s.returnTo = some b := by
  have hborrower := h.top.borrower_eq
  unfold borrower at hborrower
  rw [htop] at hborrower
  cases p with
  | setContext d => exact absurd rfl (hp d)
  | _ => exact hborrower

/-- What is known of the thread that runs the coroutine, while no call is on top of the stack. -/
theorem Local.run (h : Local s t .coroutine) (hb : s.borrower = some b) (hb' : s'.borrower = some b)
    (hcaller : s'.caller = s.caller) (hreturns : s'.returns = s.returns)
    (hlive : .call b ∈ s'.users.live ↔ .call b ∈ s.users.live)
    (htop : ∀ c p, s.stack.top ≠ .call c p) (htop' : ∀ c p, s'.stack.top ≠ .call c p) :
    Local s' t .coroutine where
  inCall := by
    rintro c p (⟨hc, rfl⟩ | hc)
    · obtain rfl : b = c := Option.some.inj (hb'.symm.trans hc)
      have hin := h.inCall b _ (Or.inl ⟨hb, rfl⟩)
      refine ⟨by rw [hcaller]; exact hin.caller, by rw [hreturns]; exact hin.returns,
        hlive.trans hin.live, ?_⟩
      rintro k rfl hw
      exact hw.elim
    · exact absurd hc (htop' c p)
  done := by
    intro c hc
    rw [hcaller] at hc
    rw [hreturns]
    rcases h.done c hc with hdone | ⟨p, ⟨hp, -⟩ | hp⟩
    · exact Or.inl hdone
    · exact Or.inr ⟨_, Or.inl ⟨hb'.trans (hb.symm.trans hp), rfl⟩⟩
    · exact absurd hp (htop c p)

/-! ## The points of a yield -/

/-- The yield on top of the stack goes on. -/
theorem Yields.goPoint (h : Yields s) (htop : s.stack.top = .yield k p)
    (hstack : s'.stack = ⟨.yield k p', s.stack.funs⟩) (hyields : s'.yields = s.yields)
    (hstarted : s'.started = s.started) (hafter : s'.after = s.after)
    (hcaller : s'.caller = s.caller)
    (hlive : ∀ j ≠ k, .yield j ∈ s'.users.live ↔ .yield j ∈ s.users.live)
    (hlivek : .yield k ∈ s'.users.live ↔ p' ≠ .hold)
    (hearly : p'.IsEarly s'.yieldFromInvoke ↔ p.IsEarly s.yieldFromInvoke)
    (hsettled : p'.IsSettled s'.yieldFromInvoke → s.caller (.invoke k) ≠ none) : Yields s' := by
  obtain ⟨nodup, funs, top, left, fresh, called⟩ := h
  obtain ⟨hfuns, hlt, hzero, -, hstart, -⟩ := top k p htop
  constructor <;> simp only [hstack, hyields, hstarted, hafter, hcaller]
  · exact nodup
  · intro j hj
    obtain ⟨hs, hz, hl⟩ := funs j hj
    refine ⟨hs, hz, (hlive j ?_).mpr hl⟩
    rintro rfl
    exact hfuns hj
  -- the yield on top is the one that goes on
  · intro j p'' hp
    obtain ⟨rfl, rfl⟩ := Spot.yield.inj hp
    exact ⟨hfuns, hlt, hzero, hlivek, hstart.trans (not_congr hearly.symm), hsettled⟩
  · intro j hj hhas
    refine left j hj fun hold => hhas ?_
    rcases hold with hold | ⟨p'', hp⟩
    · exact Or.inl hold
    · obtain ⟨rfl, -⟩ := Spot.yield.inj (htop.symm.trans hp)
      exact Or.inr ⟨p', rfl⟩
  · intro j hj
    have hjk : j ≠ k := by omega
    obtain ⟨hs, hz, hl⟩ := fresh j hj
    exact ⟨hs, hz, fun hl' => hl ((hlive j hjk).mp hl')⟩
  · exact called

/-- A yield that goes on has captured its context before, or has still not captured it. -/
theorem Context.goPoint (h : Context s) (htop : s.stack.top = .yield k p)
    (hstack : s'.stack = ⟨.yield k p', s.stack.funs⟩) (hyields : s'.yields = s.yields)
    (hcontext : s'.context = s.context) (hcaptured : p'.isCaptured = p.isCaptured) :
    Context s' := by
  intro j funs hj
  rw [hcontext] at hj
  obtain ⟨hlt, hlatest⟩ := h j funs hj
  refine ⟨by rwa [hyields], fun hhas => ?_⟩
  have hold : s.stack.Has j := by
    rw [hstack] at hhas
    rcases hhas with hhas | ⟨p'', hp⟩
    · exact Or.inl hhas
    · obtain ⟨rfl, -⟩ := Spot.yield.inj hp
      exact Or.inr ⟨p, htop⟩
  -- whether the yield on top has captured its context has not changed
  have heq := hlatest hold
  unfold Stack.latest at heq ⊢
  rw [htop] at heq
  rw [hstack]
  simp only at heq ⊢
  rwa [hcaptured]

/-- Other yields wait as before. -/
theorem Waiting.goPoint {j : ℕ} (h : Waiting s j) (htop : s.stack.top = .yield k p)
    (hstack : s'.stack = ⟨.yield k p', s.stack.funs⟩) (hj : j ≠ k) : Waiting s' j := by
  refine Or.inl ?_
  rw [hstack]
  refine h.has.mem_of_ne fun p'' hp => ?_
  exact hj (Spot.yield.inj (hp.symm.trans htop)).1

/-- At this point a yield waits for its `invokeFromCallback`. -/
def YieldPoint.waits : YieldPoint → Prop
  | .test => True
  | .relinquish => True
  | .setContext _ => True
  | _ => False

theorem Waiting.of_waits (htop : s.stack.top = .yield k p) (hp : p.waits) : Waiting s k := by
  cases p with
  | test => exact Or.inr (Or.inl htop)
  | relinquish => exact Or.inr (Or.inr (Or.inl htop))
  | setContext b => exact Or.inr (Or.inr (Or.inr ⟨b, htop⟩))
  | _ => exact hp.elim

/-- At another point, only the yields below wait. -/
theorem Waiting.mem_funs {j : ℕ} (h : Waiting s j) (htop : s.stack.top = .yield k p)
    (hp : ¬ p.waits) : j ∈ s.stack.funs := by
  have hne : ∀ p', p'.waits → s.stack.top ≠ .yield j p' := by
    intro p' hp' hj
    obtain ⟨-, rfl⟩ := Spot.yield.inj (htop.symm.trans hj)
    exact hp hp'
  rcases h with h | h | h | ⟨b, h⟩
  · exact h
  · exact absurd h (hne _ trivial)
  · exact absurd h (hne _ trivial)
  · exact absurd h (hne _ trivial)

variable [DecidableEq ι] {c₀ : Config ι (CBCoro ι) Control}

/-- The coroutine goes on in a yield. -/
theorem inv_point (h : Inv c₀) (hpc : c₀.pc t = .coroutine) (hrunning : Running c₀.shared t b)
    (htop : c₀.shared.stack.top = .yield k p)
    (hstack : s'.stack = ⟨.yield k p', c₀.shared.stack.funs⟩) (hyields : Yields s')
    (hcontext : Context s') (hbegun : Begun s') (hmutex : s'.mutex = c₀.shared.mutex)
    (hsaved : s'.saved = c₀.shared.saved) (hruns : RunsTop s' b)
    (hcaller : s'.caller = c₀.shared.caller) (hreturns : s'.returns = c₀.shared.returns)
    (hlive : ∀ c, .call c ∈ s'.users.live ↔ .call c ∈ c₀.shared.users.live)
    (hwaiting : c₀.shared.returns (.invoke k) = [] → Waiting c₀.shared k → Waiting s' k) :
    Inv (c₀.move t s' .coroutine) := by
  have hlocal := h.local_of_pc hpc
  have hq : critical (c₀.pc t) := critical_of_pc hpc trivial
  refine h.move (h.custody.keep hq trivial fun _ => ⟨b, hbegun, ?_, ?_, hruns⟩) hyields hcontext ?_
    (hlocal.run hrunning.top.borrower_eq hruns.borrower_eq hcaller hreturns (hlive b) ?_ ?_)
    ⟨?_, ?_, fun c u _ _ _ => hlive c⟩ (Or.inl hq) ?_
  · rw [hsaved]
    exact hrunning.saved
  · rw [hmutex, hrunning.mutex, depth, depth, htop, hstack]
  · intro c hc
    rw [hcaller] at hc
    rw [hreturns, hlive]
    exact h.calls c hc
  · rw [htop]
    rintro _ _ ⟨⟩
  · rw [hstack]
    rintro _ _ ⟨⟩
  · intro c u _
    rw [hcaller]
  · intro c u _ _
    rw [hreturns]
  · intro j u _ _ hnone hwait
    by_cases hj : j = k
    · subst hj
      exact hwaiting hnone hwait
    · exact hwait.goPoint htop hstack hj

/-! ## The steps of a yield -/

section Yield

variable (h : Inv c₀) (hpc : c₀.pc t = .coroutine) (hrunning : Running c₀.shared t b)
include h hpc hrunning

omit [DecidableEq ι] in
/-- The call that has lent its thread has a handle. -/
theorem live_borrower : .call b ∈ c₀.shared.users.live := by
  have hlocal := h.local_of_pc hpc
  refine (hlocal.inCall b _ (Or.inl ⟨hrunning.top.borrower_eq, rfl⟩)).live.mpr ?_
  cases b <;> exact nofun

omit [DecidableEq ι] in
theorem deletions_of_running : c₀.shared.users.deletions = 0 :=
  hrunning.begun.2.deletions_eq_zero ⟨_, live_borrower h hpc hrunning⟩

theorem inv_yield_hold (htop : c₀.shared.stack.top = .yield k .hold) :
    Inv (c₀.move t (stepYield k .hold c₀.shared).1 .coroutine) := by
  have hreturnTo := returnTo_of_yield hrunning htop (by simp)
  obtain ⟨-, -, -, hlive, -⟩ := h.yields.top k _ htop
  have hnot : .yield k ∉ c₀.shared.users.live := fun hmem => hlive.mp hmem rfl
  -- the coroutine is there, for a call that has a handle has lent the thread
  have hcall : ∀ c, .call c ∈ (c₀.shared.users.create (.yield k)).live ↔
      .call c ∈ c₀.shared.users.live := by
    intro c
    simp [Users.create]
  refine inv_point h hpc hrunning htop rfl
    (h.yields.goPoint htop rfl rfl rfl rfl rfl (fun j hj => ?_) ?_ Iff.rfl False.elim)
    (h.context.goPoint htop rfl rfl rfl rfl)
    ⟨hrunning.begun.1, hrunning.begun.2.create hnot (deletions_of_running h hpc hrunning)⟩ rfl rfl
    hreturnTo rfl rfl hcall fun _ hwait => Or.inl (hwait.mem_funs htop id)
  · simp [stepYield, goTop, Users.create, hj]
  · exact iff_of_true (Finset.mem_insert_self _ _) (by simp)

theorem inv_yield_clear (htop : c₀.shared.stack.top = .yield k .clear) :
    Inv (c₀.move t (stepYield k .clear c₀.shared).1 .coroutine) := by
  have hreturnTo := returnTo_of_yield hrunning htop nofun
  obtain ⟨-, -, -, hlive, -⟩ := h.yields.top k _ htop
  exact inv_point h hpc hrunning htop rfl
    (h.yields.goPoint htop rfl rfl rfl rfl rfl (fun _ _ => Iff.rfl)
      (hlive.trans (iff_of_true nofun nofun)) Iff.rfl False.elim)
    (h.context.goPoint htop rfl rfl rfl rfl) hrunning.begun rfl rfl ⟨hreturnTo, rfl⟩ rfl rfl
    (fun _ => Iff.rfl) fun _ hwait => Or.inl (hwait.mem_funs htop id)

/-- The context is captured. -/
theorem inv_yield_capture (htop : c₀.shared.stack.top = .yield k .capture) :
    Inv (c₀.move t (stepYield k .capture c₀.shared).1 .coroutine) := by
  have hruns : c₀.shared.returnTo = some b ∧ c₀.shared.yieldFromInvoke = false := by
    have hruns := hrunning.top
    unfold RunsTop at hruns
    rwa [htop] at hruns
  obtain ⟨-, hlt, -, hlive, -⟩ := h.yields.top k _ htop
  -- `_yieldFromInvoke` was cleared, so that the yield is going to call its `fun`
  refine inv_point h hpc hrunning htop rfl
    (h.yields.goPoint htop rfl rfl rfl rfl rfl (fun _ _ => Iff.rfl)
      (hlive.trans (iff_of_true nofun nofun)) (iff_of_true hruns.2 trivial) fun hs => ?_)
    ?_ hrunning.begun rfl rfl hruns.1 rfl rfl
    (fun _ => Iff.rfl) fun _ hwait => Or.inl (hwait.mem_funs htop id)
  · cases hruns.2.symm.trans hs
  · rintro j funs ⟨⟩
    exact ⟨hlt, fun _ => rfl⟩

/-- A yield that has been revived returns. -/
theorem inv_yield_revived (htop : c₀.shared.stack.top = .yield k .captured)
    (hflag : c₀.shared.yieldFromInvoke = true) :
    Inv (c₀.move t (c₀.shared.goTop (.yield k .returning)) .coroutine) := by
  have hreturnTo := returnTo_of_yield hrunning htop nofun
  obtain ⟨-, -, -, hlive, -, hsettled⟩ := h.yields.top k _ htop
  refine inv_point h hpc hrunning htop rfl
    (h.yields.goPoint htop rfl rfl rfl rfl rfl (fun _ _ => Iff.rfl)
      (hlive.trans (iff_of_true nofun nofun)) (iff_of_false id fun he => ?_)
      fun _ => hsettled hflag)
    (h.context.goPoint htop rfl rfl rfl rfl) hrunning.begun rfl rfl hreturnTo rfl rfl
    (fun _ => Iff.rfl) fun _ hwait => Or.inl (hwait.mem_funs htop id)
  cases hflag.symm.trans he

/-- After its `fun`, a yield tests whether its callback has been called directly. -/
theorem inv_yield_test (ho : Orderly (t, .go) c₀) (htop : c₀.shared.stack.top = .yield k .test) :
    Inv (c₀.move t (stepYield k .test c₀.shared).1 .coroutine) := by
  have hreturnTo := returnTo_of_yield hrunning htop nofun
  have hreturned : c₀.shared.invokeFromYield = true ↔ c₀.shared.returns (.invoke k) ≠ [] := by
    unfold Orderly at ho
    rw [hpc] at ho
    exact ho k htop
  obtain ⟨-, -, -, hlive, -⟩ := h.yields.top k _ htop
  have hlive' : ∀ p', p' ≠ .hold →
      (.yield k ∈ c₀.shared.users.live ↔ p' ≠ YieldPoint.hold) :=
    fun p' hp' => hlive.trans (iff_of_true nofun hp')
  simp only [stepYield]
  cases hflag : c₀.shared.invokeFromYield with
  -- the callback was called directly: the yield returns
  | true =>
    have hreturns := hreturned.mp hflag
    refine inv_point h hpc hrunning htop rfl
      (h.yields.goPoint htop rfl rfl rfl rfl rfl (fun _ _ => Iff.rfl) (hlive' _ nofun) Iff.rfl
        fun _ hnone => hreturns (h.calls _ hnone).1)
      (h.context.goPoint htop rfl rfl rfl rfl) hrunning.begun rfl rfl hreturnTo rfl rfl
      (fun _ => Iff.rfl) fun hnone => absurd hnone hreturns
  -- the callback will be called: the yield waits for it
  | false =>
    exact inv_point h hpc hrunning htop rfl
      (h.yields.goPoint htop rfl rfl rfl rfl rfl (fun _ _ => Iff.rfl) (hlive' _ nofun) Iff.rfl
        False.elim)
      (h.context.goPoint htop rfl rfl rfl rfl) hrunning.begun rfl rfl hreturnTo rfl rfl
      (fun _ => Iff.rfl) fun _ _ => .of_waits rfl trivial

theorem inv_yield_direct (htop : c₀.shared.stack.top = .yield k .direct) :
    Inv (c₀.move t (stepYield k .direct c₀.shared).1 .coroutine) := by
  have hreturnTo := returnTo_of_yield hrunning htop nofun
  obtain ⟨-, -, -, hlive, -, hsettled⟩ := h.yields.top k _ htop
  exact inv_point h hpc hrunning htop rfl
    (h.yields.goPoint htop rfl rfl rfl rfl rfl (fun _ _ => Iff.rfl)
      (hlive.trans (iff_of_true nofun nofun)) Iff.rfl hsettled)
    (h.context.goPoint htop rfl rfl rfl rfl) hrunning.begun rfl rfl hreturnTo rfl rfl
    (fun _ => Iff.rfl) fun _ hwait => Or.inl (hwait.mem_funs htop id)

/-- A yield takes the context that it gives the thread back to. -/
theorem inv_yield_relinquish (htop : c₀.shared.stack.top = .yield k .relinquish) :
    Inv (c₀.move t (stepYield k .relinquish c₀.shared).1 .coroutine) := by
  have hreturnTo := returnTo_of_yield hrunning htop nofun
  obtain ⟨-, -, -, hlive, -⟩ := h.yields.top k _ htop
  simp only [stepYield, hreturnTo]
  exact inv_point h hpc hrunning htop rfl
    (h.yields.goPoint htop rfl rfl rfl rfl rfl (fun _ _ => Iff.rfl)
      (hlive.trans (iff_of_true nofun nofun)) Iff.rfl False.elim)
    (h.context.goPoint htop rfl rfl rfl rfl) hrunning.begun rfl rfl ⟨rfl, rfl⟩ rfl rfl
    (fun _ => Iff.rfl) fun _ _ => .of_waits rfl trivial

end Yield

/-- The coroutine goes on. -/
theorem inv_run (h : Inv c₀) (hpc : c₀.pc t = .coroutine) (hrunning : Running s' t b)
    (hyields : Yields s') (hcontext : Context s') (hcalls : Calls s')
    (hlocal : Local s' t .coroutine) (hframe : Frame t c₀.shared s')
    (hwaiting : ∀ j, c₀.shared.returns (.invoke j) = [] → Waiting c₀.shared j → Waiting s' j) :
    Inv (c₀.move t s' .coroutine) := by
  have hq : critical (c₀.pc t) := critical_of_pc hpc trivial
  exact h.move (h.custody.keep hq trivial fun _ => ⟨b, hrunning⟩) hyields hcontext hcalls hlocal
    hframe (Or.inl hq) fun j _ _ _ => hwaiting j

section Enter

variable (h : Inv c₀) (hpc : c₀.pc t = .coroutine) (hrunning : Running c₀.shared t b)
include h hpc hrunning

/-- A yield calls its `fun`. -/
theorem inv_yield_enter (htop : c₀.shared.stack.top = .yield k .captured) :
    Inv (c₀.move t { c₀.shared with
      stack := ⟨.code, k :: c₀.shared.stack.funs⟩
      started := k :: c₀.shared.started } .coroutine) := by
  have hreturnTo := returnTo_of_yield hrunning htop (by simp)
  have hlocal := h.local_of_pc hpc
  have hhas : ∀ j, Stack.Has ⟨.code, k :: c₀.shared.stack.funs⟩ j ↔ c₀.shared.stack.Has j := by
    intro j
    rw [Stack.has_code_cons j k .captured, ← htop]
  refine inv_run h hpc ⟨hrunning.begun, hrunning.saved, ?_, hreturnTo⟩ ?_ ?_ h.calls
    (hlocal.run hrunning.top.borrower_eq hreturnTo rfl rfl Iff.rfl ?_ (by simp))
    (.of_eq rfl rfl rfl) ?_
  · rw [hrunning.mutex, depth, depth, htop]
  -- the yield leaves the top of the stack for the list of those whose `fun` runs
  · obtain ⟨nodup, funs, top, left, fresh, called⟩ := h.yields
    obtain ⟨hfuns, hlt, hzero, hlive, -⟩ := top k _ htop
    refine ⟨List.nodup_cons.mpr ⟨hfuns, nodup⟩, ?_, by simp, ?_, ?_, ?_⟩
    · intro j hj
      rcases List.mem_cons.mp hj with rfl | hj
      · exact ⟨List.mem_cons_self, hzero, hlive.mpr (by simp)⟩
      · obtain ⟨hs, hz, hl⟩ := funs j hj
        exact ⟨List.mem_cons_of_mem k hs, hz, hl⟩
    · exact fun j hj hnot => left j hj fun hold => hnot ((hhas j).mpr hold)
    · intro j hj
      obtain ⟨hs, hz, hl⟩ := fresh j hj
      refine ⟨fun hmem => ?_, hz, hl⟩
      rcases List.mem_cons.mp hmem with rfl | hmem
      · exact absurd hlt (Nat.not_lt.mpr hj)
      · exact hs hmem
    · exact fun j hj => List.mem_cons_of_mem k (called j hj)
  · intro j funs hj
    obtain ⟨hlt, hlatest⟩ := h.context j funs hj
    refine ⟨hlt, fun hhas' => ?_⟩
    have heq := hlatest ((hhas j).mp hhas')
    unfold Stack.latest at heq
    rw [htop] at heq
    exact heq
  · rw [htop]
    rintro _ _ ⟨⟩
  · exact fun j _ hwait => Or.inl (List.mem_cons_of_mem k (hwait.mem_funs htop id))

/-- The code after a yield begins to run. -/
theorem inv_yield_returning (htop : c₀.shared.stack.top = .yield k .returning) :
    Inv (c₀.move t (stepYield k .returning c₀.shared).1 .coroutine) := by
  have hreturnTo := returnTo_of_yield hrunning htop (by simp)
  have hlocal := h.local_of_pc hpc
  obtain ⟨nodup, funs, top, left, fresh, called⟩ := h.yields
  obtain ⟨hfuns, hlt, hzero, -, -, hsettled⟩ := top k _ htop
  have hafter : ∀ j ≠ k, (stepYield k .returning c₀.shared).1.after j = c₀.shared.after j :=
    fun j hj => Function.update_of_ne hj _ _
  refine inv_run h hpc ⟨hrunning.begun, hrunning.saved, ?_, hreturnTo⟩
    ⟨nodup, ?_, (fun _ _ h => by cases h), ?_, ?_, called⟩ ?_ h.calls
    (hlocal.run hrunning.top.borrower_eq hreturnTo rfl rfl Iff.rfl ?_ fun _ _ h => by cases h)
    (.of_eq rfl rfl rfl) fun j _ hwait => Or.inl (hwait.mem_funs htop id)
  · change c₀.shared.mutex = .heldBy t 0
    rw [hrunning.mutex, depth, htop]
  · intro j hj
    obtain ⟨hs, hz, hl⟩ := funs j hj
    refine ⟨hs, (hafter j ?_).trans hz, hl⟩
    rintro rfl
    exact hfuns hj
  -- only the yield that returns has been left
  · intro j hj hnot
    by_cases hjk : j = k
    · subst hjk
      refine ⟨?_, hsettled trivial⟩
      change Function.update _ _ _ _ = 1
      rw [Function.update_self, hzero]
    · rw [hafter j hjk]
      refine left j hj fun hold => hnot ?_
      rcases hold with hold | ⟨p, hp⟩
      · exact Or.inl hold
      · exact absurd (Spot.yield.inj (hp.symm.trans htop)).1 hjk
  · intro j hj
    have hjk : j ≠ k := by
      rintro rfl
      exact absurd hlt (Nat.not_lt.mpr hj)
    rw [hafter j hjk]
    exact fresh j hj
  · intro j funs hj
    obtain ⟨hlt, hlatest⟩ := h.context j funs hj
    refine ⟨hlt, fun hhas => ?_⟩
    -- the last yield that captured its context was the one that returns
    have hmem : j ∈ c₀.shared.stack.funs := hhas.mem_of_code
    have heq := hlatest (Or.inl hmem)
    unfold Stack.latest at heq
    rw [htop] at heq
    obtain ⟨rfl, -⟩ := Prod.mk.inj (Option.some.inj heq)
    exact absurd hmem hfuns
  · rw [htop]
    rintro _ _ ⟨⟩

/-- The coroutine gives the thread back to the call that has lent it. -/
theorem inv_setContext (hreturnTo : c₀.shared.returnTo = none) (hrest : Rest c₀.shared) :
    Inv (c₀.move t c₀.shared (.call b b.afterSwap)) := by
  have hlocal := h.local_of_pc hpc
  have hq : critical (c₀.pc t) := critical_of_pc hpc trivial
  have hmutex : c₀.shared.mutex = .heldBy t 0 := by
    rw [hrunning.mutex, depth]
    rcases hrest with ⟨j, d, hj⟩ | ⟨⟨d, hd⟩, -⟩
    · rw [hj]
    · rw [hd]
  -- the thread was on the coroutine's stack in no other call
  have htop : ∀ c p, c₀.shared.stack.top ≠ .call c p := by
    intro c p hc
    rcases hrest with ⟨j, d, hj⟩ | ⟨⟨d, hd⟩, -⟩
    · cases hj.symm.trans hc
    · cases hd.symm.trans hc
  have hborrower := hrunning.top.borrower_eq
  have hcritical : critical (.call b b.afterSwap) := by
    cases b <;> exact trivial
  refine h.move (h.custody.keep hq hcritical fun _ => ?_) h.yields h.context h.calls ⟨?_, ?_⟩
    (.of_eq rfl rfl rfl) (Or.inl hq) fun j u _ _ _ => id
  · cases b with
    | start => exact ⟨hrunning.begun, hrest, hreturnTo, hmutex⟩
    | invoke k => exact ⟨by simp, hrunning.begun, hrest, hreturnTo, hmutex⟩
  · rintro c p ⟨rfl, rfl⟩
    exact hlocal.inCall c _ (Or.inl ⟨hborrower, rfl⟩)
  · intro c hc
    rcases hlocal.done c hc with hdone | ⟨p, ⟨hp, -⟩ | hp⟩
    · exact Or.inl hdone
    · exact Or.inr ⟨_, Option.some.inj (hp.symm.trans hborrower), rfl⟩
    · exact absurd hp (htop c p)

/-- The steps of a yield keep the invariant. -/
theorem inv_yield (ho : Orderly (t, .go) c₀) (htop : c₀.shared.stack.top = .yield k p)
    {q' : Control} (hx : stepYield k p c₀.shared = (s', q')) : Inv (c₀.move t s' q') := by
  cases p with
  | hold => cases hx; exact inv_yield_hold h hpc hrunning htop
  | clear => cases hx; exact inv_yield_clear h hpc hrunning htop
  | capture => cases hx; exact inv_yield_capture h hpc hrunning htop
  | captured =>
    simp only [stepYield] at hx
    split at hx
    · next hflag =>
      cases hx
      exact inv_yield_revived h hpc hrunning htop hflag
    · cases hx
      exact inv_yield_enter h hpc hrunning htop
  | test => cases hx; exact inv_yield_test h hpc hrunning ho htop
  | direct => cases hx; exact inv_yield_direct h hpc hrunning htop
  | relinquish =>
    have hinv := inv_yield_relinquish h hpc hrunning htop
    have hcontrol : q' = .coroutine := by
      simp only [stepYield] at hx
      split at hx <;> cases hx <;> rfl
    rw [hx] at hinv
    rwa [hcontrol]
  | setContext c =>
    have hruns := hrunning.top
    unfold RunsTop at hruns
    rw [htop] at hruns
    obtain ⟨hreturnTo, rfl⟩ := hruns
    simp only [stepYield, setContext, hrunning.saved] at hx
    cases hx
    exact inv_setContext h hpc hrunning hreturnTo (Or.inl ⟨k, c, htop⟩)
  | returning => cases hx; exact inv_yield_returning h hpc hrunning htop

end Enter

end Glim.CBCoro
