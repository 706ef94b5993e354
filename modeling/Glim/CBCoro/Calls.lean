import Glim.CBCoro.Invariant

/-!
# The steps of calls keep the invariant

A call of `start` has the coroutine in custody from the beginning, and one of `invokeFromCallback`
takes it with the mutex, which it gets when the coroutine is suspended. Counting handles, calls and
returns leaves alone what others have in custody.

## Main results

* `inv_call`: the steps of a call on the stack of its own thread
* `inv_idle`: the steps of a thread that has nothing to do with the coroutine
* `Yields.waiting`: a yield whose callback may be called is waiting for it
-/

namespace Glim.CBCoro

open Thread

variable {ι : Type} {s s' : CBCoro ι} {t u : ι} {q : Control} {c : CallId} {p p' : CallPoint}
  {k : ℕ}

/-! ## What does not matter -/

/-- More calls do not matter to what is known of the yields, and neither does the rest. -/
theorem Yields.mono (h : Yields s) (hstack : s'.stack = s.stack) (hyields : s'.yields = s.yields)
    (hstarted : s'.started = s.started) (hafter : s'.after = s.after)
    (hflag : s'.yieldFromInvoke = s.yieldFromInvoke)
    (hlive : ∀ k, .yield k ∈ s'.users.live ↔ .yield k ∈ s.users.live)
    (hcaller : ∀ k, s.caller (.invoke k) ≠ none → s'.caller (.invoke k) ≠ none)
    (hcalled : ∀ k, s'.caller (.invoke k) ≠ none → k ∈ s.started) : Yields s' := by
  obtain ⟨nodup, funs, top, left, fresh, -⟩ := h
  constructor <;> simp only [hstack, hyields, hstarted, hafter, hlive, hflag]
  · exact nodup
  · exact funs
  · intro k p hp
    obtain ⟨hfuns, hlt, hzero, hmem, hstart, hsettled⟩ := top k p hp
    exact ⟨hfuns, hlt, hzero, hmem, hstart, fun hs => hcaller k (hsettled hs)⟩
  · intro k hk hhas
    obtain ⟨hone, hcall⟩ := left k hk hhas
    exact ⟨hone, hcaller k hcall⟩
  · exact fresh
  · exact hcalled

theorem Yields.congr (h : Yields s) (hstack : s'.stack = s.stack) (hyields : s'.yields = s.yields)
    (hstarted : s'.started = s.started) (hafter : s'.after = s.after)
    (hflag : s'.yieldFromInvoke = s.yieldFromInvoke) (hcaller : s'.caller = s.caller)
    (hlive : ∀ k, .yield k ∈ s'.users.live ↔ .yield k ∈ s.users.live) : Yields s' := by
  refine h.mono hstack hyields hstarted hafter hflag hlive (fun k => ?_) fun k => ?_
  · rw [hcaller]
    exact id
  · rw [hcaller]
    exact h.called k

theorem Context.congr (h : Context s) (hstack : s'.stack = s.stack) (hyields : s'.yields = s.yields)
    (hcontext : s'.context = s.context) : Context s' := by
  unfold Context at h ⊢
  rwa [hstack, hyields, hcontext]

/-- A coroutine with a yield on its stack has been used. -/
theorem Waiting.not_unused (h : Waiting s k) : ¬ Unused s := by
  rintro ⟨hstack, -⟩
  unfold Waiting at h
  rw [hstack] at h
  simp at h

/-- A yield that is waiting has its handle. -/
theorem Yields.live_of_waiting (h : Yields s) (hk : Waiting s k) : .yield k ∈ s.users.live := by
  have htop : ∀ p, s.stack.top = .yield k p → p ≠ .hold → .yield k ∈ s.users.live :=
    fun p hp hne => (h.top k p hp).2.2.2.1.mpr hne
  rcases hk with hk | hk | hk | ⟨b, hk⟩
  · exact (h.funs k hk).2.2
  · exact htop _ hk nofun
  · exact htop _ hk nofun
  · exact htop _ hk nofun

theorem Waiting.congr (hstack : s'.stack = s.stack) : Waiting s' k ↔ Waiting s k := by
  unfold Waiting
  rw [hstack]

/-- Where the rest stays as it is, so does what holds of it in custody. -/
theorem Held.congr {users : Users Handle} {caller : CallId → Option ι} {returns : CallId → List ι}
    (h : Held u q s)
    (hbegun : Begun s → Begun { s with users, caller, returns })
    (hused : ¬ (s.users = {} ∧ Unused s)) : Held u q { s with users, caller, returns } := by
  cases q with
  | idle => exact h
  | call c p =>
    cases p with
    | hold => exact absurd ⟨h.2.1, h.2.2.1⟩ hused
    | make => exact ⟨h.1, hbegun h.2.1, h.2.2⟩
    | setReturnTo => exact ⟨h.1, hbegun h.2.1, h.2.2⟩
    | lock => exact ⟨h.1, hbegun h.2.1, h.2.2⟩
    | test => exact ⟨h.1, hbegun h.2.1, h.2.2⟩
    | revive => exact ⟨h.1, hbegun h.2.1, h.2.2⟩
    | reset => exact ⟨h.1, hbegun h.2.1, h.2.2⟩
    | swap => exact ⟨hbegun h.1, h.2⟩
    | unlock => exact ⟨hbegun h.1, h.2⟩
    | direct => exact h
    | returning => exact h
  | coroutine =>
    obtain ⟨b, hrunning⟩ := h
    exact ⟨b, hbegun hrunning.begun, hrunning.saved, hrunning.mutex, hrunning.top⟩

theorem Free.congr {users : Users Handle} {caller : CallId → Option ι} {returns : CallId → List ι}
    (h : Free s) (hbegun : Begun s → Begun { s with users, caller, returns })
    (hused : ¬ (s.users = {} ∧ Unused s)) : Free { s with users, caller, returns } := by
  cases h with
  | fresh hcaller husers hunused => exact absurd ⟨husers, hunused⟩ hused
  | rest hb hrest hreturnTo hmutex => exact .rest (hbegun hb) hrest hreturnTo hmutex

section Steps

variable [DecidableEq ι] {c₀ : Config ι (CBCoro ι) Control}

/-- A thread that does not have the coroutine in custody counts handles, calls and returns. -/
theorem custody_leave {users : Users Handle} {caller : CallId → Option ι}
    {returns : CallId → List ι} {q' : Control} (h : Inv c₀) (hq : ¬ critical (c₀.pc t))
    (hq' : ¬ critical q')
    (hbegun : Begun c₀.shared → Begun { c₀.shared with users, caller, returns })
    (hused : ¬ (c₀.shared.users = {} ∧ Unused c₀.shared)) :
    Custody critical Free Held (c₀.move t { c₀.shared with users, caller, returns } q') :=
  h.custody.leave hq hq' (fun hfree => hfree.congr hbegun hused)
    fun _ _ _ hheld => hheld.congr hbegun hused

omit [DecidableEq ι] in
/-- A call that goes on on its own stack. -/
theorem Local.goes (h : Local s t (.call c p)) (hcaller : s'.caller = s.caller)
    (hreturns : s'.returns = s.returns) (hlive : .call c ∈ s'.users.live ↔ p' ≠ .hold)
    (hwaiting : ∀ k, c = .invoke k → p'.waits → Waiting s' k) : Local s' t (.call c p') where
  inCall := by
    rintro d p'' ⟨rfl, rfl⟩
    have hin := h.inCall d p ⟨rfl, rfl⟩
    exact ⟨by rw [hcaller]; exact hin.caller, by rw [hreturns]; exact hin.returns, hlive, hwaiting⟩
  done := by
    intro d hd
    rw [hcaller] at hd
    rw [hreturns]
    rcases h.done d hd with hdone | ⟨p'', rfl, -⟩
    · exact Or.inl hdone
    · exact Or.inr ⟨p', rfl, rfl⟩

/-- The thread that has the coroutine in custody goes on in its call. -/
theorem inv_goes (h : Inv c₀) (hpc : c₀.pc t = .call c p) (hq : critical (c₀.pc t))
    (hq' : critical (.call c p')) (hheld : HeldCall s' t c p') (hyields : Yields s')
    (hcontext : Context s') (hstack : s'.stack = c₀.shared.stack)
    (hcaller : s'.caller = c₀.shared.caller) (hreturns : s'.returns = c₀.shared.returns)
    (husers : s'.users = c₀.shared.users) (hp : p ≠ .hold) (hp' : p' ≠ .hold)
    (hwaits : p'.waits → p.waits) : Inv (c₀.move t s' (.call c p')) := by
  -- the thread keeps the coroutine, and what the call knew of itself stays as it was
  have hlocal := h.local_of_pc hpc
  have hin := hlocal.inCall c p ⟨rfl, rfl⟩
  refine h.move (h.custody.keep hq hq' fun _ => hheld) hyields hcontext ?_
    (hlocal.goes hcaller hreturns ?_ ?_) (.of_eq hcaller hreturns husers) (Or.inl hq) ?_
  · intro d
    rw [hcaller, hreturns, husers]
    exact h.calls d
  · rw [husers, hin.live]
    exact iff_of_true hp hp'
  · intro k hk hw
    rw [Waiting.congr hstack]
    exact hin.waiting k hk (hwaits hw)
  · intro k u _ _ _
    rw [Waiting.congr hstack]
    exact id

omit [DecidableEq ι] in
theorem HeldCall.begun (h : HeldCall s t c p) (hp : p ≠ .hold) : Begun s := by
  cases p with
  | hold => exact absurd rfl hp
  | make => exact h.2.1
  | setReturnTo => exact h.2.1
  | lock => exact h.2.1
  | test => exact h.2.1
  | revive => exact h.2.1
  | reset => exact h.2.1
  | swap => exact h.1
  | unlock => exact h.1
  | direct => exact h.elim
  | returning => exact h.elim

omit [DecidableEq ι] in
/-- Another thread has the mutex, unless the coroutine has not run yet. -/
theorem Held.mutex_eq (h : Held u q s) (hused : ¬ Unused s) : ∃ n, s.mutex = .heldBy u n := by
  cases q with
  | idle => exact h.elim
  | call c p =>
    cases p with
    | hold => exact absurd h.2.2.1 hused
    | make => exact absurd h.2.2.1 hused
    | setReturnTo => exact absurd h.2.2.1 hused
    | lock => exact absurd h.2.2.1 hused
    | test => exact ⟨0, h.2.2.2.2⟩
    | revive => exact ⟨0, h.2.2.2.2⟩
    | reset => exact ⟨0, h.2.2.2.2⟩
    | swap => exact ⟨0, h.2.2.1⟩
    | unlock => exact ⟨0, h.2.2.2⟩
    | direct => exact h.elim
    | returning => exact h.elim
  | coroutine =>
    obtain ⟨b, hrunning⟩ := h
    exact ⟨_, hrunning.mutex⟩

omit [DecidableEq ι]

section Call

variable (h : Inv c₀) (hpc : c₀.pc t = .call c p)
include h hpc

theorem inCall_of_pc : InCall c₀.shared t c p := by
  have hlocal := h.local_of_pc hpc
  exact hlocal.inCall c p ⟨rfl, rfl⟩

theorem heldCall_of_pc (hq : critical (.call c p)) : HeldCall c₀.shared t c p := by
  have hheld := h.custody.held t (by rwa [hpc])
  rwa [hpc] at hheld

end Call

variable [DecidableEq ι]

/-- The handle of a call is created. -/
theorem inv_hold (h : Inv c₀) (hpc : c₀.pc t = .call c .hold) :
    Inv (c₀.move t { c₀.shared with users := c₀.shared.users.create (.call c) }
      (.call c c.afterHold)) := by
  have hlocal := h.local_of_pc hpc
  have hin := inCall_of_pc h hpc
  have hnot : .call c ∉ c₀.shared.users.live := fun hmem => hin.live.mp hmem rfl
  -- the handle is the thread's own, and new
  have hframe : Frame t c₀.shared
      { c₀.shared with users := c₀.shared.users.create (.call c) } := by
    refine ⟨fun d u _ => Iff.rfl, fun d u _ _ => rfl, fun d u hu hd _ => ?_⟩
    have hne : Handle.call d ≠ .call c := by
      rintro ⟨⟩
      exact hu (Option.some.inj (hd.symm.trans hin.caller))
    simp [Users.create, hne]
  have hcalls : Calls { c₀.shared with users := c₀.shared.users.create (.call c) } := by
    intro d hd
    have hne : Handle.call d ≠ .call c := by
      rintro ⟨⟩
      cases hin.caller.symm.trans hd
    simpa [Users.create, hne] using h.calls d hd
  have hyields : Yields { c₀.shared with users := c₀.shared.users.create (.call c) } :=
    h.yields.congr rfl rfl rfl rfl rfl rfl fun k => by simp [Users.create]
  have hafter : c.afterHold ≠ .hold := by
    cases c <;> exact nofun
  have hlocal' : Local { c₀.shared with users := c₀.shared.users.create (.call c) } t
      (.call c c.afterHold) := by
    refine hlocal.goes rfl rfl ?_ fun k hk _ => hin.waiting k hk trivial
    exact iff_of_true (Finset.mem_insert_self _ _) hafter
  cases c with
  | start =>
    -- `start` counts the first handle
    have hq : critical (c₀.pc t) := critical_of_pc hpc rfl
    obtain ⟨-, husers, hunused, hreturnTo, hmutex⟩ := heldCall_of_pc h hpc rfl
    refine h.move (h.custody.keep hq trivial fun _ => ?_) hyields h.context hcalls hlocal' hframe
      (Or.inl hq) fun k u _ _ _ => id
    refine ⟨rfl, ⟨?_, ?_⟩, hunused, hreturnTo, hmutex⟩
    · change c₀.shared.caller .start ≠ none
      rw [hin.caller]
      exact Option.some_ne_none t
    · change (Users.create _ _).Life
      rw [husers]
      exact Users.life_first _
  | invoke k =>
    -- `invokeFromCallback` counts its handle outside of the lock
    have hwait := hin.waiting k rfl trivial
    have hq : ¬ critical (c₀.pc t) := by
      rw [hpc]
      exact nofun
    refine h.move (custody_leave h hq nofun (fun hb => ⟨hb.1, ?_⟩) ?_) hyields h.context
      hcalls hlocal' hframe (Or.inr ⟨rfl, rfl⟩) fun k u _ _ _ => id
    -- the yield has a handle of its own, so that the coroutine is there
    · have hlive := h.yields.live_of_waiting hwait
      exact hb.2.create hnot (hb.2.deletions_eq_zero ⟨_, hlive⟩)
    · exact fun hc => hwait.not_unused hc.2

/-- The thread of `start` goes on before its lock. -/
theorem inv_make (h : Inv c₀) (hpc : c₀.pc t = .call c .make) :
    Inv (c₀.move t { c₀.shared with context := {} } (.call c .setReturnTo)) := by
  obtain ⟨hc, hbegun, hunused, hreturnTo, hmutex⟩ := heldCall_of_pc h hpc trivial
  exact inv_goes h hpc (critical_of_pc hpc trivial) trivial ⟨hc, hbegun, hunused, rfl, hmutex⟩
    (h.yields.congr rfl rfl rfl rfl rfl rfl fun _ => Iff.rfl) nofun rfl rfl rfl rfl nofun nofun id

theorem inv_setReturnTo (h : Inv c₀) (hpc : c₀.pc t = .call c .setReturnTo) :
    Inv (c₀.move t { c₀.shared with returnTo := some c } (.call c .lock)) := by
  obtain ⟨rfl, hbegun, hunused, hcontext, hmutex⟩ := heldCall_of_pc h hpc trivial
  exact inv_goes h hpc (critical_of_pc hpc trivial) rfl
    ⟨rfl, hbegun, hunused, hcontext, rfl, hmutex⟩
    (h.yields.congr rfl rfl rfl rfl rfl rfl fun _ => Iff.rfl) h.context rfl rfl rfl rfl nofun nofun
    id

/-- A call takes the mutex: `start` has the coroutine in custody already, and the others take that
when the coroutine is suspended. -/
theorem inv_lock {mutex : RecursiveMutex ι} (h : Inv c₀) (hpc : c₀.pc t = .call c .lock)
    (hlock : c₀.shared.mutex.lock t = some mutex) :
    Inv (c₀.move t { c₀.shared with mutex } (.call c c.afterLock)) := by
  have hyields : Yields { c₀.shared with mutex } :=
    h.yields.congr rfl rfl rfl rfl rfl rfl fun _ => Iff.rfl
  cases c with
  | start =>
    obtain ⟨-, hbegun, hunused, hcontext, hreturnTo, hmutex⟩ := heldCall_of_pc h hpc rfl
    rw [hmutex, RecursiveMutex.lock_free] at hlock
    cases hlock
    exact inv_goes h hpc (critical_of_pc hpc rfl) trivial
      ⟨hbegun, hreturnTo, rfl, Or.inl ⟨rfl, hunused, hcontext⟩⟩ hyields h.context rfl rfl rfl rfl
      nofun nofun id
  | invoke k =>
    -- the mutex is free only while no thread has the coroutine in custody
    have hin := inCall_of_pc h hpc
    have hwait := hin.waiting k rfl trivial
    have hlocal := h.local_of_pc hpc
    have hq : ¬ critical (c₀.pc t) := by
      rw [hpc]
      exact nofun
    refine h.move (h.custody.take hq trivial ?_ ?_) hyields h.context h.calls
      (hlocal.goes rfl rfl (hin.live.trans (iff_of_true nofun nofun)) fun j hj _ => ?_)
      (.of_eq rfl rfl rfl) (Or.inr ⟨rfl, rfl⟩) fun k u _ _ _ => id
    -- another thread would have locked the mutex
    · intro u hu _ hheld
      obtain ⟨n, hmutex⟩ := hheld.mutex_eq hwait.not_unused
      rw [hmutex, RecursiveMutex.lock_of_ne hu] at hlock
      cases hlock
    · intro hfree
      cases hfree with
      | fresh hcaller husers hunused => exact absurd hunused hwait.not_unused
      | rest hbegun hrest hreturnTo hmutex =>
        rw [hmutex, RecursiveMutex.lock_free] at hlock
        cases hlock
        exact ⟨nofun, hbegun, hrest, hreturnTo, rfl⟩
    · exact hin.waiting j hj trivial

/-- A call from outside finds the coroutine suspended. -/
theorem inv_test (h : Inv c₀) (hpc : c₀.pc t = .call c .test) :
    Inv (c₀.move t c₀.shared
      (.call c (if c₀.shared.returnTo = none then .revive else .direct))) := by
  have hheld := heldCall_of_pc h hpc trivial
  rw [if_pos hheld.2.2.2.1]
  exact inv_goes h hpc (critical_of_pc hpc trivial) trivial hheld h.yields h.context rfl rfl rfl rfl
    nofun
    nofun id

omit [DecidableEq ι] in
/-- The flag does not matter to yields that are not at `captured`. -/
theorem Yields.setFlag (h : Yields s) (hrest : Rest s) :
    Yields { s with yieldFromInvoke := true } := by
  obtain ⟨nodup, funs, top, left, fresh, called⟩ := h
  refine ⟨nodup, funs, ?_, left, fresh, called⟩
  intro k p hp
  have htop := top k p hp
  rcases hrest with ⟨j, b, hj⟩ | ⟨⟨b, hb⟩, -⟩
  · obtain ⟨-, rfl⟩ := Spot.yield.inj (hp.symm.trans hj)
    exact htop
  · cases hp.symm.trans hb

theorem inv_revive (h : Inv c₀) (hpc : c₀.pc t = .call c .revive) :
    Inv (c₀.move t { c₀.shared with returnTo := some c, yieldFromInvoke := true }
      (.call c .swap)) := by
  obtain ⟨hc, hbegun, hrest, -, hmutex⟩ := heldCall_of_pc h hpc trivial
  refine inv_goes h hpc (critical_of_pc hpc trivial) trivial
    ⟨hbegun, rfl, hmutex, Or.inr ⟨hc, hrest, rfl⟩⟩ ?_ h.context rfl rfl rfl rfl nofun nofun id
  exact (h.yields.setFlag hrest).congr rfl rfl rfl rfl rfl rfl fun _ => Iff.rfl

theorem inv_reset (h : Inv c₀) (hpc : c₀.pc t = .call c .reset) :
    Inv (c₀.move t { c₀.shared with
      returnTo := if c₀.shared.returnTo = some c then none else c₀.shared.returnTo }
      (.call c .unlock)) := by
  obtain ⟨-, hbegun, hrest, hreturnTo, hmutex⟩ := heldCall_of_pc h hpc trivial
  refine inv_goes h hpc (critical_of_pc hpc trivial) trivial ⟨hbegun, hrest, ?_, hmutex⟩
    (h.yields.congr rfl rfl rfl rfl rfl rfl fun _ => Iff.rfl) h.context rfl rfl rfl rfl nofun nofun
    id
  change ite _ _ _ = none
  rw [hreturnTo]
  rfl

/-- The mutex is unlocked, and the coroutine is not in custody any more. -/
theorem inv_unlock {mutex : RecursiveMutex ι} (h : Inv c₀) (hpc : c₀.pc t = .call c .unlock)
    (hunlock : c₀.shared.mutex.unlock t = some mutex) :
    Inv (c₀.move t { c₀.shared with mutex } (.call c .returning)) := by
  obtain ⟨hbegun, hrest, hreturnTo, hmutex⟩ := heldCall_of_pc h hpc trivial
  rw [hmutex, RecursiveMutex.unlock_zero] at hunlock
  cases hunlock
  have hin := inCall_of_pc h hpc
  have hlocal := h.local_of_pc hpc
  have hq : critical (c₀.pc t) := critical_of_pc hpc trivial
  refine h.move (h.custody.giveBack hq id fun _ => .rest hbegun hrest hreturnTo rfl)
    (h.yields.congr rfl rfl rfl rfl rfl rfl fun _ => Iff.rfl) h.context h.calls
    (hlocal.goes rfl rfl (hin.live.trans (iff_of_true nofun nofun)) fun _ _ hw => hw.elim)
    (.of_eq rfl rfl rfl) (Or.inl hq) fun k u _ _ _ => id

/-- A call returns to its thread. -/
theorem inv_returning (h : Inv c₀) (hpc : c₀.pc t = .call c .returning) :
    Inv (c₀.move t { c₀.shared with
      returns := Function.update c₀.shared.returns c (t :: c₀.shared.returns c) } .idle) := by
  have hin := inCall_of_pc h hpc
  have hlocal := h.local_of_pc hpc
  have hlive := hin.live.mpr nofun
  have hq : ¬ critical (c₀.pc t) := by
    rw [hpc]
    exact id
  refine h.move (custody_leave h hq id id ?_)
    (h.yields.congr rfl rfl rfl rfl rfl rfl fun _ => Iff.rfl) h.context ?_ ⟨nofun, ?_⟩ ?_
    (Or.inr ⟨rfl, rfl⟩) fun k u _ _ _ => id
  · rintro ⟨husers, -⟩
    rw [husers] at hlive
    exact absurd hlive (Finset.notMem_empty _)
  · intro d hd
    -- the call that returns has been made
    have hne : d ≠ c := by
      rintro rfl
      cases hin.caller.symm.trans hd
    simpa [hne] using h.calls d hd
  · intro d hd
    by_cases hdc : d = c
    · subst hdc
      simp [hin.returns]
    · rcases hlocal.done d hd with hdone | ⟨p, hp⟩
      · exact Or.inl (by simpa [hdc] using hdone)
      · exact absurd hp.1 hdc
  · refine ⟨fun d u _ => Iff.rfl, fun d u hu hd => ?_, fun d u _ _ _ => Iff.rfl⟩
    have hne : d ≠ c := by
      rintro rfl
      exact hu (Option.some.inj (hd.symm.trans hin.caller))
    simp [hne]

omit [DecidableEq ι] in
/-- The context that is revived is where the coroutine is suspended. -/
theorem context_eq_of_rest (hcontext : Context s) (hrest : Rest s) (hwait : Waiting s k)
    (htop : s.context.top = .yield k .captured) :
    s.context = ⟨.yield k .captured, s.stack.funs⟩ ∧
      ∃ b, s.stack.top = .yield k (.setContext b) := by
  have hlatest := (hcontext k s.context.funs (by rw [← htop])).2 hwait.has
  -- the yield that captured the context is the last one that did so on the stack
  unfold Stack.latest at hlatest
  rcases hrest with ⟨j, b, hj⟩ | ⟨⟨b, hb⟩, hfuns⟩
  · rw [hj] at hlatest
    obtain ⟨rfl, hfuns⟩ := Prod.mk.inj (Option.some.inj hlatest)
    exact ⟨by rw [hfuns, ← htop], b, hj⟩
  · rw [hb, hfuns] at hlatest
    cases hlatest

omit [DecidableEq ι] in
/-- The thread of a call is on the coroutine's stack. -/
theorem Local.lend (h : Local s t (.call c p)) (hcaller : s'.caller = s.caller)
    (hreturns : s'.returns = s.returns) (hlive : .call c ∈ s'.users.live)
    (hborrower : s'.borrower = some c) (htop : ∀ d p, s'.stack.top ≠ .call d p) :
    Local s' t .coroutine where
  inCall := by
    rintro d p'' (⟨hd, rfl⟩ | hd)
    · obtain rfl : c = d := Option.some.inj (hborrower.symm.trans hd)
      have hin := h.inCall c p ⟨rfl, rfl⟩
      refine ⟨by rw [hcaller]; exact hin.caller, by rw [hreturns]; exact hin.returns, ?_, ?_⟩
      · exact iff_of_true hlive (by cases c <;> exact nofun)
      · rintro k rfl hw
        exact hw.elim
    · exact absurd hd (htop d p'')
  done := by
    intro d hd
    rw [hcaller] at hd
    rw [hreturns]
    rcases h.done d hd with hdone | ⟨p'', rfl, -⟩
    · exact Or.inl hdone
    · exact Or.inr ⟨_, Or.inl ⟨hborrower, rfl⟩⟩

/-- The call of `start` lends its thread to the coroutine, which begins to run. -/
theorem inv_swap_start (h : Inv c₀) (hpc : c₀.pc t = .call .start .swap) :
    Inv (c₀.move t { c₀.shared with
      saved := Function.update c₀.shared.saved .start none
      stack := c₀.shared.context } .coroutine) := by
  obtain ⟨hbegun, hreturnTo, hmutex, hcase⟩ := heldCall_of_pc h hpc trivial
  have hlive := (inCall_of_pc h hpc).live.mpr (by simp)
  have hlocal := h.local_of_pc hpc
  have hq : critical (c₀.pc t) := critical_of_pc hpc trivial
  have hsaved : Function.update c₀.shared.saved .start none .start = none :=
    Function.update_self _ _ _
  -- `makecontext` has set the context to the beginning of `cbcRun`
  have hcontext : c₀.shared.context = {} ∧ c₀.shared.stack = {} := by
    rcases hcase with ⟨-, hunused, hcontext⟩ | ⟨hne, -⟩
    · exact ⟨hcontext, hunused.1⟩
    · exact absurd rfl hne
  have hstack : c₀.shared.context = c₀.shared.stack := hcontext.1.trans hcontext.2.symm
  refine h.move (h.custody.keep hq trivial fun _ => ⟨.start, hbegun, hsaved, ?_, ?_⟩)
    (h.yields.congr hstack rfl rfl rfl rfl rfl fun _ => Iff.rfl)
    (h.context.congr hstack rfl rfl) h.calls (hlocal.lend rfl rfl hlive ?_ ?_)
    (.of_eq rfl rfl rfl) (Or.inl hq) ?_
  · simp only [depth, hcontext.1]
    exact hmutex
  · simp only [RunsTop, hcontext.1]
    exact hreturnTo
  · simp only [borrower, hcontext.1]
    exact hreturnTo
  · intro d p
    simp only [hcontext.1]
    rintro ⟨⟩
  · exact fun k u _ _ _ => (Waiting.congr hstack).mpr

/-- The call of a callback lends its thread to the coroutine, which is revived. -/
theorem inv_swap_invoke (h : Inv c₀) (ho : Orderly (t, .go) c₀)
    (hpc : c₀.pc t = .call (.invoke k) .swap) :
    Inv (c₀.move t { c₀.shared with
      saved := Function.update c₀.shared.saved (.invoke k) none
      stack := c₀.shared.context } .coroutine) := by
  obtain ⟨hbegun, hreturnTo, hmutex, hcase⟩ := heldCall_of_pc h hpc trivial
  have hlive := (inCall_of_pc h hpc).live.mpr (by simp)
  have hlocal := h.local_of_pc hpc
  have hq : critical (c₀.pc t) := critical_of_pc hpc trivial
  have hin := inCall_of_pc h hpc
  have hsaved : Function.update c₀.shared.saved (.invoke k) none (.invoke k) = none :=
    Function.update_self _ _ _
  -- the coroutine is suspended in the yield that the callback belongs to
  have hrest : Rest c₀.shared ∧ c₀.shared.yieldFromInvoke = true := by
    rcases hcase with ⟨hc, -⟩ | ⟨-, hrest⟩
    · cases hc
    · exact hrest
  have htop : c₀.shared.context.top = .yield k .captured := by
    unfold Orderly at ho
    rw [hpc] at ho
    exact ho
  obtain ⟨hcontext, b, hsuspended⟩ :=
    context_eq_of_rest h.context hrest.1 (hin.waiting k rfl trivial) htop
  refine h.move (h.custody.keep hq trivial fun _ => ⟨.invoke k, hbegun, hsaved, ?_, ?_⟩)
    ?_ ?_ h.calls (hlocal.lend rfl rfl hlive ?_ ?_) (.of_eq rfl rfl rfl) (Or.inl hq) ?_
  · simp only [depth, hcontext]
    exact hmutex
  · simp only [RunsTop, hcontext]
    exact hreturnTo
  -- the yield goes on from where it has captured its context
  · obtain ⟨nodup, funs, top, left, fresh, called⟩ := h.yields
    obtain ⟨hfuns, hlt, hafter, hlive, hstarted, -⟩ := top k _ hsuspended
    refine ⟨?_, ?_, ?_, ?_, fresh, called⟩
    · simpa only [hcontext] using nodup
    · simpa only [hcontext] using funs
    · intro j p hj
      simp only [hcontext] at hj ⊢
      obtain ⟨rfl, rfl⟩ := Spot.yield.inj hj
      refine ⟨hfuns, hlt, hafter, hlive.trans (iff_of_true (by simp) (by simp)), ?_, fun _ => ?_⟩
      · refine hstarted.trans (iff_of_true id ?_)
        intro hearly
        cases hrest.2.symm.trans hearly
      · rw [hin.caller]
        exact Option.some_ne_none t
    · intro j hj hhas
      refine left j hj fun hold => hhas ?_
      simp only [hcontext]
      rcases hold with hold | ⟨p, hp⟩
      · exact Or.inl hold
      · obtain ⟨rfl, -⟩ := Spot.yield.inj (hsuspended.symm.trans hp)
        exact Or.inr ⟨_, rfl⟩
  · intro j funs hj
    obtain ⟨hlt, -⟩ := h.context j funs hj
    refine ⟨hlt, fun _ => ?_⟩
    change c₀.shared.context.latest = _
    change c₀.shared.context = _ at hj
    rw [hj]
    rfl
  · simp only [borrower, hcontext]
    exact hreturnTo
  · intro d p
    simp only [hcontext]
    rintro ⟨⟩
  · intro j u hu hcaller _ hwait
    refine Or.inl ?_
    simp only [hcontext]
    -- a call of another thread waits for a yield further down
    rcases hwait with hj | hj | hj | ⟨b', hj⟩
    · exact hj
    · cases hsuspended.symm.trans hj
    · cases hsuspended.symm.trans hj
    · obtain ⟨rfl, -⟩ := Spot.yield.inj (hsuspended.symm.trans hj)
      exact absurd (Option.some.inj (hcaller.symm.trans hin.caller)) hu

/-- The call lends its thread to the coroutine. -/
theorem inv_swap (h : Inv c₀) (ho : Orderly (t, .go) c₀) (hpc : c₀.pc t = .call c .swap) :
    Inv (c₀.move t { c₀.shared with
      saved := Function.update c₀.shared.saved c none
      stack := c₀.shared.context } .coroutine) := by
  cases c with
  | start => exact inv_swap_start h hpc
  | invoke k => exact inv_swap_invoke h ho hpc

/-- **The steps of a call** on the stack of its own thread keep the invariant. -/
theorem inv_call (h : Inv c₀) (ho : Orderly (t, .go) c₀) (hpc : c₀.pc t = .call c p)
    {q' : Control} (hx : prog t (.call c p) .go c₀.shared = some (s', q')) :
    Inv (c₀.move t s' q') := by
  obtain ⟨⟨s'', next⟩, hcall, hmove⟩ := Option.map_eq_some_iff.mp hx
  cases p with
  | hold => cases hcall; cases hmove; exact inv_hold h hpc
  | make => cases hcall; cases hmove; exact inv_make h hpc
  | setReturnTo => cases hcall; cases hmove; exact inv_setReturnTo h hpc
  | lock =>
    obtain ⟨mutex, hlock, heq⟩ := Option.map_eq_some_iff.mp hcall
    cases heq
    cases hmove
    exact inv_lock h hpc hlock
  | test => cases hcall; cases hmove; exact inv_test h hpc
  | direct => exact (heldCall_of_pc h hpc trivial).elim
  | revive => cases hcall; cases hmove; exact inv_revive h hpc
  | swap => cases hcall; cases hmove; exact inv_swap h ho hpc
  | reset => cases hcall; cases hmove; exact inv_reset h hpc
  | unlock =>
    obtain ⟨mutex, hunlock, heq⟩ := Option.map_eq_some_iff.mp hcall
    cases heq
    cases hmove
    exact inv_unlock h hpc hunlock
  | returning => cases hcall; cases hmove; exact inv_returning h hpc

/-! ## Threads that have nothing to do -/

/-- `start` is called. -/
theorem inv_start (h : Inv c₀) (hpc : c₀.pc t = .idle) (hnone : c₀.shared.caller .start = none) :
    Inv (c₀.move t { c₀.shared with
      caller := Function.update c₀.shared.caller .start (some t) } (.call .start .hold)) := by
  have hlocal := h.local_of_pc hpc
  obtain ⟨hreturns, hlive⟩ := h.calls .start hnone
  have hq : ¬ critical (c₀.pc t) := by
    rw [hpc]
    exact id
  refine h.move (h.custody.take hq rfl ?_ ?_) ?_ h.context ?_ ⟨?_, ?_⟩ ⟨?_, ?_, ?_⟩
    (Or.inr ⟨rfl, rfl⟩) fun k u _ _ _ => id
  -- no thread has the coroutine in custody before `start`
  · intro u hu hcritical hheld
    cases hpcu : c₀.pc u with
    | idle =>
      rw [hpcu] at hheld
      exact hheld
    | call d p =>
      rw [hpcu] at hheld
      by_cases hp : p = .hold
      · subst hp
        have hin := inCall_of_pc h hpcu
        obtain rfl : d = .start := hheld.1
        cases hin.caller.symm.trans hnone
      · exact (HeldCall.begun hheld hp).1 hnone
    | coroutine =>
      rw [hpcu] at hheld
      obtain ⟨b, hrunning⟩ := hheld
      exact hrunning.begun.1 hnone
  -- before `start` no handle has been counted
  · intro hfree
    cases hfree with
    | fresh hcaller husers hunused hreturnTo hmutex =>
      exact ⟨rfl, husers, hunused, hreturnTo, hmutex⟩
    | rest hbegun => exact absurd hnone hbegun.1
  · refine h.yields.mono rfl rfl rfl rfl rfl (fun _ => Iff.rfl) (fun k hk => ?_) fun k hk => ?_
    · simpa using hk
    · exact h.yields.called k (by simpa using hk)
  · intro d hd
    have hne : d ≠ .start := by
      rintro rfl
      simp at hd
    exact h.calls d (by simpa [hne] using hd)
  · rintro d p ⟨rfl, rfl⟩
    refine ⟨by simp, hreturns, ?_, nofun⟩
    exact iff_of_false hlive (fun hne => hne rfl)
  · intro d hd
    by_cases hdc : d = .start
    · exact Or.inr ⟨.hold, hdc, rfl⟩
    · rcases hlocal.done d (by simpa [hdc] using hd) with hdone | ⟨p, hp⟩
      · exact Or.inl hdone
      · exact hp.elim
  · intro d u hu
    by_cases hdc : d = .start
    · subst hdc
      simp [hnone, Ne.symm hu]
    · simp [hdc]
  · exact fun d u _ _ => rfl
  · exact fun d u _ _ _ => Iff.rfl

omit [DecidableEq ι] in
/-- A yield whose `fun` has started, and for which `invokeFromCallback` has not been called, is
waiting. -/
theorem Yields.waiting (h : Yields s) (hk : k ∈ s.started) (hnone : s.caller (.invoke k) = none) :
    Waiting s k := by
  have hlt : k < s.yields := by
    by_contra hge
    exact (h.fresh k (Nat.le_of_not_lt hge)).1 hk
  have hhas : s.stack.Has k := by
    by_contra hhas
    exact (h.left k hlt hhas).2 hnone
  -- the yield has not been left, for its callback has not been called
  rcases hhas with hmem | ⟨p, hp⟩
  · exact Or.inl hmem
  · obtain ⟨-, -, -, -, hstarted, hsettled⟩ := h.top k p hp
    have hlate := hstarted.mp hk
    have hopen : ¬ p.IsSettled s.yieldFromInvoke := fun hs => hsettled hs hnone
    cases p with
    | hold => exact absurd trivial hlate
    | clear => exact absurd trivial hlate
    | capture => exact absurd trivial hlate
    | captured =>
      cases hflag : s.yieldFromInvoke with
      | true => exact absurd hflag hopen
      | false => exact absurd hflag hlate
    | test => exact Or.inr (Or.inl hp)
    | direct => exact absurd trivial hopen
    | relinquish => exact Or.inr (Or.inr (Or.inl hp))
    | setContext b => exact Or.inr (Or.inr (Or.inr ⟨b, hp⟩))
    | returning => exact absurd trivial hopen

omit [DecidableEq ι]

section CallInvoke

variable {caller : CallId → Option ι}
  (hcaller : caller = Function.update s.caller (.invoke k) (some t))
include hcaller

/-- Calling `invokeFromCallback` leaves the yields alone. -/
theorem Yields.callInvoke (h : Yields s) (hk : k ∈ s.started) : Yields { s with caller } := by
  subst hcaller
  refine h.mono rfl rfl rfl rfl rfl (fun _ => Iff.rfl) (fun j hj => ?_) fun j hj => ?_
  · by_cases hjk : j = k
    · subst hjk
      simp
    · simpa [hjk] using hj
  · by_cases hjk : j = k
    · rwa [hjk]
    · exact h.called j (by simpa [hjk] using hj)

theorem Calls.callInvoke (h : Calls s) : Calls { s with caller } := by
  subst hcaller
  intro d hd
  have hne : d ≠ .invoke k := by
    rintro rfl
    simp at hd
  exact h d (by simpa [hne] using hd)

theorem Frame.callInvoke (hnone : s.caller (.invoke k) = none) : Frame t s { s with caller } := by
  subst hcaller
  refine ⟨fun d u hu => ?_, fun d u _ _ => rfl, fun d u _ _ _ => Iff.rfl⟩
  by_cases hd : d = .invoke k
  · subst hd
    simp [hnone, Ne.symm hu]
  · simp [hd]

/-- The new call of a thread. -/
theorem InCall.callInvoke (hyields : Yields s) (hcalls : Calls s) (hk : k ∈ s.started)
    (hnone : s.caller (.invoke k) = none) : InCall { s with caller } t (.invoke k) .hold := by
  subst hcaller
  obtain ⟨hreturns, hlive⟩ := hcalls _ hnone
  refine ⟨by simp, hreturns, iff_of_false hlive fun hne => hne rfl, ?_⟩
  intro j hj _
  obtain rfl := CallId.invoke.inj hj
  exact hyields.waiting hk hnone

end CallInvoke

variable [DecidableEq ι]

/-- `invokeFromCallback` is called from outside of the coroutine. -/
theorem inv_invoke (h : Inv c₀) (hpc : c₀.pc t = .idle)
    (hx : callInvoke t k c₀.shared = some s') : Inv (c₀.move t s' (.call (.invoke k) .hold)) := by
  unfold callInvoke at hx
  split_ifs at hx with hcond
  cases hx
  have hlocal := h.local_of_pc hpc
  have hq : ¬ critical (c₀.pc t) := by
    rw [hpc]
    exact id
  have hwait := h.yields.waiting hcond.1 hcond.2
  have hin := InCall.callInvoke (t := t) rfl h.yields h.calls hcond.1 hcond.2
  refine h.move (custody_leave h hq nofun (fun hb => ⟨?_, hb.2⟩) fun hc => hwait.not_unused hc.2)
    (h.yields.callInvoke rfl hcond.1) h.context (h.calls.callInvoke rfl) ⟨?_, ?_⟩
    (.callInvoke rfl hcond.2) (Or.inr ⟨rfl, rfl⟩) fun k u _ _ _ => id
  · simpa using hb.1
  · rintro d p ⟨rfl, rfl⟩
    exact hin
  · intro d hd
    by_cases hdk : d = .invoke k
    · exact Or.inr ⟨.hold, hdk, rfl⟩
    · rcases hlocal.done d (by simpa [hdk] using hd) with hdone | ⟨p, hp⟩
      · exact Or.inl hdone
      · exact hp.elim

section Drop

variable {handle : Handle} (hmem : handle ∈ s.users.live) (hreturned : s.Returned handle)
include hmem hreturned

omit [DecidableEq ι] hmem in
/-- Destroying a returned handle leaves alone those of the calls that have not returned. -/
theorem live_drop_call (hc : s.returns c = []) :
    .call c ∈ (s.users.destroy handle).live ↔ .call c ∈ s.users.live := by
  have hne : Handle.call c ≠ handle := by
    rintro rfl
    exact hreturned hc
  simp [Users.destroy, hne]

omit [DecidableEq ι] hmem in
theorem live_drop_yield (hk : s.after k = 0) :
    .yield k ∈ (s.users.destroy handle).live ↔ .yield k ∈ s.users.live := by
  have hne : Handle.yield k ≠ handle := by
    rintro rfl
    exact hreturned.ne' hk
  simp [Users.destroy, hne]

omit [DecidableEq ι] hmem in
theorem Yields.drop (h : Yields s) : Yields { s with users := s.users.destroy handle } := by
  obtain ⟨nodup, funs, top, left, fresh, called⟩ := h
  refine ⟨nodup, ?_, ?_, left, ?_, called⟩
  · intro k hk
    obtain ⟨hstarted, hafter, hlive⟩ := funs k hk
    exact ⟨hstarted, hafter, (live_drop_yield hreturned hafter).mpr hlive⟩
  · intro k p hp
    obtain ⟨hfuns, hlt, hafter, hlive, hrest⟩ := top k p hp
    exact ⟨hfuns, hlt, hafter, (live_drop_yield hreturned hafter).trans hlive, hrest⟩
  · intro k hk
    obtain ⟨hstarted, hafter, hlive⟩ := fresh k hk
    exact ⟨hstarted, hafter, fun hl => hlive ((live_drop_yield hreturned hafter).mp hl)⟩

omit [DecidableEq ι] hmem in
theorem Calls.drop (h : Calls s) : Calls { s with users := s.users.destroy handle } := by
  intro d hd
  obtain ⟨hreturns, hlive⟩ := h d hd
  exact ⟨hreturns, fun hl => hlive ((live_drop_call hreturned hreturns).mp hl)⟩

omit [DecidableEq ι] hmem in
theorem Frame.drop : Frame t s { s with users := s.users.destroy handle } :=
  ⟨fun _ _ _ => Iff.rfl, fun _ _ _ _ => rfl, fun _ _ _ _ hd => live_drop_call hreturned hd⟩

omit [DecidableEq ι] hmem in
/-- What is known of the thread that destroys the handle, too. -/
theorem Local.drop (h : Local s t q) : Local { s with users := s.users.destroy handle } t q where
  inCall := by
    intro d p hp
    have hin := h.inCall d p (by cases q <;> exact hp)
    exact ⟨hin.caller, hin.returns, (live_drop_call hreturned hin.returns).trans hin.live,
      hin.waiting⟩
  done := by
    intro d hd
    refine (h.done d hd).imp_right fun ⟨p, hp⟩ => ⟨p, ?_⟩
    cases q <;> exact hp

omit [DecidableEq ι] hreturned in
theorem Begun.drop (h : Begun s) : Begun { s with users := s.users.destroy handle } :=
  ⟨h.1, h.2.destroy hmem⟩

end Drop

/-- A thread outside of the coroutine destroys a handle. -/
theorem inv_drop {handle : Handle} (h : Inv c₀) (hpc : c₀.pc t = .idle)
    (hx : drop handle c₀.shared = some s') : Inv (c₀.move t s' .idle) := by
  unfold drop at hx
  split_ifs at hx with hcond
  cases hx
  obtain ⟨hmem, hreturned⟩ := hcond
  have hlocal := h.local_of_pc hpc
  have hq : ¬ critical (c₀.pc t) := by
    rw [hpc]
    exact id
  refine h.move (custody_leave h hq id (fun hb => Begun.drop hmem hb) ?_) (h.yields.drop hreturned)
    h.context (h.calls.drop hreturned) (hlocal.drop hreturned) (.drop hreturned)
    (Or.inr ⟨rfl, rfl⟩) fun k u _ _ _ => id
  -- a handle lives, so that the first one has been counted
  rintro ⟨husers, -⟩
  rw [husers] at hmem
  exact absurd hmem (Finset.notMem_empty _)

/-- The steps of a thread that has nothing to do with the coroutine keep the invariant. -/
theorem inv_idle {a : Action} {q' : Control} (h : Inv c₀) (hpc : c₀.pc t = .idle)
    (hx : prog t .idle a c₀.shared = some (s', q')) : Inv (c₀.move t s' q') := by
  cases a with
  | start =>
    simp only [prog] at hx
    split_ifs at hx with hnone
    cases hx
    exact inv_start h hpc hnone
  | invoke k =>
    obtain ⟨s'', hcall, heq⟩ := Option.map_eq_some_iff.mp hx
    cases heq
    exact inv_invoke h hpc hcall
  | drop handle =>
    obtain ⟨s'', hdrop, heq⟩ := Option.map_eq_some_iff.mp hx
    cases heq
    exact inv_drop h hpc hdrop
  | go => cases hx
  | yield => cases hx
  | finish => cases hx
  | throws => cases hx

end Steps

end Glim.CBCoro
