import Glim.CBCoro.Basic
import Glim.Thread.Custody

/-!
# The invariant of a coroutine

The thread that runs the coroutine, or that is in a call between its lock and its unlock, has the
coroutine in custody. While there is none, the coroutine is suspended, has not started, or is over.

## Main definitions

* `Orderly`: the condition on the steps
* `Free`, `Held`: the coroutine while no thread has it in custody, and while one does
* `Yields`, `Context`, `Calls`, `Local`: what is known of the yields, of `_context`, of the calls,
  and of a thread
* `Inv`: the invariant

## Main results

* `Inv.move`: what a step has to do to keep the invariant
-/

namespace Glim.CBCoro

open Thread

variable {ι : Type}

/-- The condition on the steps: a `fun` throws only after its own `invokeFromCallback` has
returned; `yieldForCallback` finds `_invokeFromYield` set exactly if its own `invokeFromCallback`
has returned; and `invokeFromCallback` revives the context that its own yield has captured. -/
def Orderly (l : ι × Action) (c : Config ι (CBCoro ι) Control) : Prop :=
  match c.pc l.1, l.2 with
  | .coroutine, .throws =>
    ∀ k funs, c.shared.stack = ⟨.code, k :: funs⟩ → c.shared.returns (.invoke k) ≠ []
  | .coroutine, .go =>
    ∀ k, c.shared.stack.top = .yield k .test →
      (c.shared.invokeFromYield = true ↔ c.shared.returns (.invoke k) ≠ [])
  | .call (.invoke k) .swap, .go => c.shared.context.top = .yield k .captured
  | _, _ => True

/-! ## The stack -/

/-- The yield `k` is on the stack. -/
def Stack.Has (stack : Stack) (k : ℕ) : Prop := k ∈ stack.funs ∨ ∃ p, stack.top = .yield k p

/-- The yield has captured its context. -/
def YieldPoint.isCaptured : YieldPoint → Bool
  | .hold => false
  | .clear => false
  | .capture => false
  | _ => true

/-- The last one of the yields on the stack that have captured their context, and those below. -/
def Stack.latest (stack : Stack) : Option (ℕ × List ℕ) :=
  match stack.top with
  | .yield k p => if p.isCaptured then some (k, stack.funs) else below stack.funs
  | _ => below stack.funs
where
  /-- The innermost one of the yields whose `fun` runs. -/
  below : List ℕ → Option (ℕ × List ℕ)
    | [] => none
    | k :: funs => some (k, funs)

/-- `_context` was captured by a yield; if that is still on the stack, no other has captured it
since. -/
def Context (s : CBCoro ι) : Prop :=
  ∀ k funs, s.context = ⟨.yield k .captured, funs⟩ →
    k < s.yields ∧ (s.stack.Has k → s.stack.latest = some (k, funs))

/-! ## The yields -/

/-- The `fun` of the yield has not started yet, for a value of `_yieldFromInvoke`. -/
def YieldPoint.IsEarly (yieldFromInvoke : Bool) : YieldPoint → Prop
  | .hold => True
  | .clear => True
  | .capture => True
  | .captured => yieldFromInvoke = false
  | _ => False

/-- The yield is going to return, for a value of `_yieldFromInvoke`. -/
def YieldPoint.IsSettled (yieldFromInvoke : Bool) : YieldPoint → Prop
  | .captured => yieldFromInvoke = true
  | .direct => True
  | .returning => True
  | _ => False

/-- What is known of the yields: those on the stack, those that have been left, and those that have
not begun. -/
structure Yields (s : CBCoro ι) : Prop where
  nodup : s.stack.funs.Nodup
  funs : ∀ k ∈ s.stack.funs, k ∈ s.started ∧ s.after k = 0 ∧ .yield k ∈ s.users.live
  top : ∀ k p, s.stack.top = .yield k p → k ∉ s.stack.funs ∧ k < s.yields ∧ s.after k = 0 ∧
    (.yield k ∈ s.users.live ↔ p ≠ .hold) ∧ (k ∈ s.started ↔ ¬ p.IsEarly s.yieldFromInvoke) ∧
    (p.IsSettled s.yieldFromInvoke → s.caller (.invoke k) ≠ none)
  left : ∀ k < s.yields, ¬ s.stack.Has k → s.after k = 1 ∧ s.caller (.invoke k) ≠ none
  fresh : ∀ k, s.yields ≤ k → k ∉ s.started ∧ s.after k = 0 ∧ .yield k ∉ s.users.live
  called : ∀ k, s.caller (.invoke k) ≠ none → k ∈ s.started

/-- The yield is waiting for its `invokeFromCallback`. -/
def Waiting (s : CBCoro ι) (k : ℕ) : Prop :=
  k ∈ s.stack.funs ∨ s.stack.top = .yield k .test ∨ s.stack.top = .yield k .relinquish ∨
    ∃ b, s.stack.top = .yield k (.setContext b)

theorem Stack.Has.mem_of_ne {stack : Stack} {k : ℕ} (h : stack.Has k)
    (hne : ∀ p, stack.top ≠ .yield k p) : k ∈ stack.funs := by
  rcases h with h | ⟨p, h⟩
  · exact h
  · exact absurd h (hne p)

theorem Stack.Has.mem_of_code {funs : List ℕ} {k : ℕ} (h : Stack.Has ⟨.code, funs⟩ k) : k ∈ funs :=
  h.mem_of_ne nofun

/-- The yields on the stack are the same in a `fun` and in its yield. -/
theorem Stack.has_code_cons (j k : ℕ) (p : YieldPoint) (funs : List ℕ) :
    Stack.Has ⟨.code, k :: funs⟩ j ↔ Stack.Has ⟨.yield k p, funs⟩ j := by
  constructor
  · intro h
    rcases List.mem_cons.mp h.mem_of_code with rfl | hj
    · exact Or.inr ⟨p, rfl⟩
    · exact Or.inl hj
  · rintro (hj | ⟨p', hp⟩)
    · exact Or.inl (List.mem_cons_of_mem k hj)
    · obtain ⟨rfl, -⟩ := Spot.yield.inj hp
      exact Or.inl List.mem_cons_self

/-- A yield that is waiting is on the stack. -/
theorem Waiting.has {s : CBCoro ι} {k : ℕ} (h : Waiting s k) : s.stack.Has k := by
  rcases h with h | h | h | ⟨b, h⟩
  · exact Or.inl h
  · exact Or.inr ⟨_, h⟩
  · exact Or.inr ⟨_, h⟩
  · exact Or.inr ⟨_, h⟩

/-! ## The calls -/

/-- A call that has not been made has not returned, and has no handle. -/
def Calls (s : CBCoro ι) : Prop :=
  ∀ c, s.caller c = none → s.returns c = [] ∧ .call c ∉ s.users.live

/-- The call has not found the coroutine suspended or running yet. -/
def CallPoint.waits : CallPoint → Prop
  | .reset => False
  | .unlock => False
  | .returning => False
  | _ => True

/-- The thread `t` is in the call `c`. -/
structure InCall (s : CBCoro ι) (t : ι) (c : CallId) (p : CallPoint) : Prop where
  caller : s.caller c = some t
  returns : s.returns c = []
  live : .call c ∈ s.users.live ↔ p ≠ .hold
  waiting : ∀ k, c = .invoke k → p.waits → Waiting s k

/-- The call that has lent its thread to the coroutine. -/
def borrower (s : CBCoro ι) : Option CallId :=
  match s.stack.top with
  | .yield _ (.setContext b) => some b
  | .leaving b => some b
  | _ => s.returnTo

/-- A thread at `q` is in the call `c`: on its own stack, or while it is on the coroutine's stack in
the call that lent it, and in one that the code has made. -/
def At (s : CBCoro ι) (q : Control) (c : CallId) (p : CallPoint) : Prop :=
  match q with
  | .idle => False
  | .call c' p' => c = c' ∧ p = p'
  | .coroutine => s.borrower = some c ∧ p = c.afterSwap ∨ s.stack.top = .call c p

/-- What is known of a thread: the calls that it is in, and that its other calls have returned. -/
structure Local (s : CBCoro ι) (t : ι) (q : Control) : Prop where
  inCall : ∀ c p, At s q c p → InCall s t c p
  done : ∀ c, s.caller c = some t → s.returns c = [t] ∨ ∃ p, At s q c p

/-! ## Custody -/

/-- The point of a call is after its lock and before its unlock. -/
def CallPoint.isLocked : CallPoint → Bool
  | .test => true
  | .direct => true
  | .revive => true
  | .swap => true
  | .reset => true
  | .unlock => true
  | _ => false

/-- The thread has the coroutine in custody. -/
def critical : Control → Prop
  | .idle => False
  | .call c .hold => c = .start
  | .call c .lock => c = .start
  | .call _ .returning => False
  | .call _ _ => True
  | .coroutine => True

/-- The coroutine is suspended in a yield, or is over. -/
def Rest (s : CBCoro ι) : Prop :=
  (∃ k b, s.stack.top = .yield k (.setContext b)) ∨
    (∃ b, s.stack.top = .leaving b) ∧ s.stack.funs = []

/-- The coroutine has not run yet. -/
def Unused (s : CBCoro ι) : Prop := s.stack = {} ∧ s.yields = 0

/-- `start` was called, and has counted its handle. -/
def Begun (s : CBCoro ι) : Prop := s.caller .start ≠ none ∧ s.users.Life

/-- The coroutine while no thread has it in custody. -/
inductive Free (s : CBCoro ι) : Prop
  | fresh (hcaller : s.caller .start = none) (husers : s.users = {}) (hunused : Unused s)
      (hreturnTo : s.returnTo = none) (hmutex : s.mutex = .free)
  | rest (hbegun : Begun s) (hrest : Rest s) (hreturnTo : s.returnTo = none)
      (hmutex : s.mutex = .free)

/-- The coroutine while a thread is in a call that has it in custody. -/
def HeldCall (s : CBCoro ι) (t : ι) (c : CallId) (p : CallPoint) : Prop :=
  match p with
  | .hold => c = .start ∧ s.users = {} ∧ Unused s ∧ s.returnTo = none ∧ s.mutex = .free
  | .make => c = .start ∧ Begun s ∧ Unused s ∧ s.returnTo = none ∧ s.mutex = .free
  | .setReturnTo => c = .start ∧ Begun s ∧ Unused s ∧ s.context = {} ∧ s.mutex = .free
  | .lock => c = .start ∧ Begun s ∧ Unused s ∧ s.context = {} ∧ s.returnTo = some c ∧
    s.mutex = .free
  | .swap => Begun s ∧ s.returnTo = some c ∧ s.mutex = .heldBy t 0 ∧
    (c = .start ∧ Unused s ∧ s.context = {} ∨ c ≠ .start ∧ Rest s ∧ s.yieldFromInvoke = true)
  | .test => c ≠ .start ∧ Begun s ∧ Rest s ∧ s.returnTo = none ∧ s.mutex = .heldBy t 0
  | .revive => c ≠ .start ∧ Begun s ∧ Rest s ∧ s.returnTo = none ∧ s.mutex = .heldBy t 0
  | .reset => c ≠ .start ∧ Begun s ∧ Rest s ∧ s.returnTo = none ∧ s.mutex = .heldBy t 0
  | .unlock => Begun s ∧ Rest s ∧ s.returnTo = none ∧ s.mutex = .heldBy t 0
  | .direct => False
  | .returning => False

/-- The point of a call that the code has made. -/
def CallPoint.isInner : CallPoint → Bool
  | .hold => true
  | .lock => true
  | .test => true
  | .direct => true
  | .unlock => true
  | .returning => true
  | _ => false

/-- How many times the thread that runs the coroutine has locked the mutex once more. -/
def depth (s : CBCoro ι) : ℕ :=
  match s.stack.top with
  | .call _ p => if p.isLocked then 1 else 0
  | _ => 0

/-- What is known of the top of the stack of a coroutine that runs, for the call `b`. -/
def RunsTop (s : CBCoro ι) (b : CallId) : Prop :=
  match s.stack.top with
  | .code => s.returnTo = some b
  | .yield _ .capture => s.returnTo = some b ∧ s.yieldFromInvoke = false
  | .yield _ (.setContext c) => s.returnTo = none ∧ c = b
  | .yield _ _ => s.returnTo = some b
  | .call c p => s.returnTo = some b ∧ c ≠ b ∧ c ≠ .start ∧ p.isInner = true
  | .ended => s.returnTo = some b ∧ s.stack.funs = []
  | .leaving c => s.returnTo = none ∧ c = b ∧ s.stack.funs = []

/-- The thread `t` runs the coroutine, for the call `b`. -/
structure Running (s : CBCoro ι) (t : ι) (b : CallId) : Prop where
  begun : Begun s
  saved : s.saved b = none
  mutex : s.mutex = .heldBy t (depth s)
  top : RunsTop s b

/-- The coroutine while the thread `t` has it in custody. -/
def Held (t : ι) (q : Control) (s : CBCoro ι) : Prop :=
  match q with
  | .idle => False
  | .call c p => HeldCall s t c p
  | .coroutine => ∃ b, Running s t b

/-- The invariant. -/
structure Inv (c : Config ι (CBCoro ι) Control) : Prop where
  custody : Custody critical Free Held c
  yields : Yields c.shared
  context : Context c.shared
  calls : Calls c.shared
  threads : ∀ t, Local c.shared t (c.pc t)

section Threads

variable {c : Config ι (CBCoro ι) Control} {t : ι} {q : Control}

theorem critical_of_pc (hpc : c.pc t = q) (hq : critical q) : critical (c.pc t) := by
  rwa [hpc]

theorem Inv.local_of_pc (h : Inv c) (hpc : c.pc t = q) : Local c.shared t q := by
  rw [← hpc]
  exact h.threads t

/-- A thread on the coroutine's stack runs it. -/
theorem Inv.running (h : Inv c) (hpc : c.pc t = .coroutine) : ∃ b, Running c.shared t b := by
  have hheld := h.custody.held t (critical_of_pc hpc trivial)
  rwa [hpc] at hheld

end Threads

/-! ## Frames -/

/-- What the step of the thread `t` leaves to the others. -/
structure Frame (t : ι) (s s' : CBCoro ι) : Prop where
  caller : ∀ c u, u ≠ t → (s'.caller c = some u ↔ s.caller c = some u)
  returns : ∀ c u, u ≠ t → s.caller c = some u → s'.returns c = s.returns c
  live : ∀ c u, u ≠ t → s.caller c = some u → s.returns c = [] →
    (.call c ∈ s'.users.live ↔ .call c ∈ s.users.live)

section Frame

variable {s s' : CBCoro ι} {t u : ι} {q : Control} {c : CallId} {p : CallPoint}

theorem Frame.of_eq (hcaller : s'.caller = s.caller) (hreturns : s'.returns = s.returns)
    (husers : s'.users = s.users) : Frame t s s' := by
  refine ⟨fun c u _ => ?_, fun c u _ _ => ?_, fun c u _ _ _ => ?_⟩
  · rw [hcaller]
  · rw [hreturns]
  · rw [husers]

theorem InCall.frame (h : InCall s u c p) (hframe : Frame t s s') (hu : u ≠ t)
    (hwaiting : ∀ k, c = .invoke k → Waiting s k → Waiting s' k) : InCall s' u c p where
  caller := (hframe.caller c u hu).mpr h.caller
  returns := (hframe.returns c u hu h.caller).trans h.returns
  live := (hframe.live c u hu h.caller h.returns).trans h.live
  waiting := fun k hk hp => hwaiting k hk (h.waiting k hk hp)

/-- What is known of the other threads stays known. -/
theorem Local.frame (h : Local s u q) (hframe : Frame t s s') (hu : u ≠ t)
    (hat : ∀ c p, At s' q c p ↔ At s q c p)
    (hwaiting : ∀ k, s.caller (.invoke k) = some u → s.returns (.invoke k) = [] → Waiting s k →
      Waiting s' k) : Local s' u q where
  inCall := by
    intro c p hp
    have hin := h.inCall c p ((hat c p).mp hp)
    refine hin.frame hframe hu ?_
    rintro k rfl hk
    exact hwaiting k hin.caller hin.returns hk
  done := by
    intro c hc
    rw [hframe.caller c u hu] at hc
    rw [hframe.returns c u hu hc]
    exact (h.done c hc).imp_right fun ⟨p, hp⟩ => ⟨p, (hat c p).mpr hp⟩

end Frame

variable [DecidableEq ι]

/-- **What a step has to do** to keep the invariant. -/
theorem Inv.move {c : Config ι (CBCoro ι) Control} {t : ι} {s' : CBCoro ι} {q' : Control}
    (h : Inv c) (hcustody : Custody critical Free Held (c.move t s' q')) (hyields : Yields s')
    (hcontext : Context s') (hcalls : Calls s') (hlocal : Local s' t q')
    (hframe : Frame t c.shared s')
    (hstack : critical (c.pc t) ∨ s'.stack = c.shared.stack ∧ s'.returnTo = c.shared.returnTo)
    (hwaiting : ∀ k u, u ≠ t → c.shared.caller (.invoke k) = some u →
      c.shared.returns (.invoke k) = [] → Waiting c.shared k → Waiting s' k) :
    Inv (c.move t s' q') := by
  refine ⟨hcustody, hyields, hcontext, hcalls, fun u => ?_⟩
  rcases eq_or_ne u t with rfl | hu
  · rwa [Config.pc_move_self]
  · rw [Config.pc_move_of_ne _ _ _ _ hu]
    refine (h.threads u).frame hframe hu (fun d p => ?_) fun k => hwaiting k u hu
    -- only the thread that runs the coroutine is concerned by what is on its stack
    rcases hstack with hcritical | ⟨hstack, hreturnTo⟩
    · have hnot := h.custody.not_critical_of_ne hcritical hu
      cases hpc : c.pc u with
      | idle => exact Iff.rfl
      | call d' p' => exact Iff.rfl
      | coroutine =>
        rw [hpc] at hnot
        exact absurd trivial hnot
    · cases c.pc u with
      | idle => exact Iff.rfl
      | call d' p' => exact Iff.rfl
      | coroutine => simp only [At, borrower, hstack, hreturnTo, Config.shared_move]

end Glim.CBCoro
