import Glim.CBCoro.Users
import Glim.Thread.RecursiveMutex

/-!
# Coroutines

A thread that calls `start` or `invokeFromCallback` lends itself to the coroutine: `swapcontext`
saves where the call goes on, and takes the thread to where `_context` says. The coroutine gives the
thread back by setting the context that `_returnTo` points to. A context is where a stack goes on:
the one that a call saves, and on the coroutine's stack the point it was captured at and the yields
whose `fun` runs below that. Every access to a member is a step of its own.

The coroutine's code may do whatever it likes between its calls of `yieldForCallback`: its steps,
those of the functions that it gives to it, and those of the callbacks are the actions of the
threads. `start` is called once, and `invokeFromCallback` once for each yield, after its `fun` has
started. The system calls succeed.

## Main definitions

* `CallPoint`, `YieldPoint`, `Spot`: where a call, a yield and the coroutine's stack are
* `CBCoro`: the members of the coroutine, the contexts that were saved, and what has happened
* `Control`: where a thread is
* `stepCall`, `stepYield`, `stepCode`, `step`: the steps
-/

namespace Glim.CBCoro

open Thread

/-- The call of `start`, or of `invokeFromCallback` for the yield `k`. -/
inductive CallId where
  | start
  | invoke (k : ℕ)
  deriving DecidableEq, Repr

/-- Where a call is. -/
inductive CallPoint where
  /-- Before `CBCoroPtr ptr (this)`. -/
  | hold
  /-- Before `makecontext (&_context, .., cbcRun, ..)`. -/
  | make
  /-- Before `_returnTo = &back`. -/
  | setReturnTo
  /-- Before `_mutex.lock()`. -/
  | lock
  /-- Before `if (_returnTo != nullptr)`. -/
  | test
  /-- Before `_invokeFromYield = true`. -/
  | direct
  /-- Before `_returnTo = &cbContext; _yieldFromInvoke = true`. -/
  | revive
  /-- Before `swapcontext`. -/
  | swap
  /-- Before `if (_returnTo == &cbContext) _returnTo = nullptr`. -/
  | reset
  /-- Before `_mutex.unlock()`. -/
  | unlock
  /-- Before `return ptr`. -/
  | returning
  deriving DecidableEq, Repr

/-- Where a call of `yieldForCallback` is. -/
inductive YieldPoint where
  /-- Before `CBCoroPtr ptr (this)`. -/
  | hold
  /-- Before `_yieldFromInvoke = false`. -/
  | clear
  /-- Before `getcontext (&_context)`. -/
  | capture
  /-- Before `if (_yieldFromInvoke)`; here the coroutine goes on when it is revived. -/
  | captured
  /-- Before `if (_invokeFromYield)`. -/
  | test
  /-- Before `_invokeFromYield = false`. -/
  | direct
  /-- Before `cbcReturn()`. -/
  | relinquish
  /-- Before `setcontext (returnTo)` in `cbcReturn()`. -/
  | setContext (returnTo : CallId)
  /-- Before `return ptr`. -/
  | returning
  deriving DecidableEq, Repr

/-- What is on top of the coroutine's stack. -/
inductive Spot where
  /-- `run()`, or the innermost `fun`. -/
  | code
  | yield (k : ℕ) (p : YieldPoint)
  /-- A call from inside of the code. -/
  | call (c : CallId) (p : CallPoint)
  /-- Before `cbcReturn()` at the end of `cbcRun`. -/
  | ended
  /-- Before `setcontext (returnTo)` in that. -/
  | leaving (returnTo : CallId)
  deriving DecidableEq, Repr

/-- What is on top of the coroutine's stack, and the yields whose `fun` runs, the innermost one
first. -/
structure Stack where
  top : Spot := .code
  funs : List ℕ := []
  deriving DecidableEq, Repr

/-- The `CBCoroPtr` of a call, or of a yield. -/
inductive Handle where
  | call (c : CallId)
  | yield (k : ℕ)
  deriving DecidableEq, Repr

/-- Where a thread is. -/
inductive Control where
  | idle
  /-- On its own stack, in a call. -/
  | call (c : CallId) (p : CallPoint)
  /-- On the coroutine's stack. -/
  | coroutine
  deriving DecidableEq, Repr

/-- What a thread does. -/
inductive Action where
  /-- The next step of a call or of a yield. -/
  | go
  | start
  /-- Call `invokeFromCallback` for the yield `k`. -/
  | invoke (k : ℕ)
  /-- Destroy a handle that was returned. -/
  | drop (h : Handle)
  /-- The coroutine's code calls `yieldForCallback`. -/
  | yield
  /-- The innermost `fun`, or `run()`, returns. -/
  | finish
  /-- The innermost `fun`, or `run()`, throws an exception. -/
  | throws
  deriving DecidableEq, Repr

end Glim.CBCoro

namespace Glim

open Thread CBCoro

/-- The members of a coroutine; its stack; where the contexts go on that the calls have saved,
`none` on the stack of their own thread; who has called and which threads the calls have returned
on; how many yields there were, those whose `fun` has started, and how often the code after each has
begun to run. -/
structure CBCoro (ι : Type) where
  context : Stack := {}
  returnTo : Option CallId := none
  mutex : RecursiveMutex ι := .free
  users : Users Handle := {}
  invokeFromYield : Bool := false
  yieldFromInvoke : Bool := false
  stack : Stack := {}
  saved : CallId → Option Stack := fun _ => none
  caller : CallId → Option ι := fun _ => none
  returns : CallId → List ι := fun _ => []
  yields : ℕ := 0
  started : List ℕ := []
  after : ℕ → ℕ := fun _ => 0

namespace CBCoro

variable {ι : Type}

/-- What follows the `CBCoroPtr` of a call. -/
def CallId.afterHold : CallId → CallPoint
  | .start => .make
  | .invoke _ => .lock

/-- What follows the lock of a call. -/
def CallId.afterLock : CallId → CallPoint
  | .start => .swap
  | .invoke _ => .test

/-- What follows the `swapcontext` of a call. -/
def CallId.afterSwap : CallId → CallPoint
  | .start => .unlock
  | .invoke _ => .reset

/-- Where a call goes. -/
inductive CallNext where
  | goes (p : CallPoint)
  /-- To the context of the coroutine. -/
  | swaps
  | returns
  deriving DecidableEq, Repr

/-- The top of the coroutine's stack changes. -/
def goTop (s : CBCoro ι) (top : Spot) : CBCoro ι := { s with stack := { s.stack with top } }

/-- The code after the yield `k` begins to run. -/
def goAfter (s : CBCoro ι) (k : ℕ) : CBCoro ι :=
  { s with after := Function.update s.after k (s.after k + 1) }

/-- `setcontext` to what the call `c` has saved. -/
def setContext (c : CallId) (s : CBCoro ι) : CBCoro ι × Control :=
  match s.saved c with
  | none => (s, .call c c.afterSwap)
  | some stack => ({ s with stack }, .coroutine)

/-- The steps of `yieldForCallback` for the yield `k`. -/
def stepYield (k : ℕ) (p : YieldPoint) (s : CBCoro ι) : CBCoro ι × Control :=
  match p with
  | .hold => ({ s with users := s.users.create (.yield k) }.goTop (.yield k .clear), .coroutine)
  | .clear => ({ s with yieldFromInvoke := false }.goTop (.yield k .capture), .coroutine)
  | .capture =>
    ({ s with context := { s.stack with top := .yield k .captured } }.goTop (.yield k .captured),
      .coroutine)
  | .captured =>
    if s.yieldFromInvoke then (s.goTop (.yield k .returning), .coroutine)
    else ({ s with stack := ⟨.code, k :: s.stack.funs⟩, started := k :: s.started }, .coroutine)
  | .test =>
    (s.goTop (.yield k (if s.invokeFromYield then .direct else .relinquish)), .coroutine)
  | .direct => ({ s with invokeFromYield := false }.goTop (.yield k .returning), .coroutine)
  | .relinquish =>
    match s.returnTo with
    | none => (s.goTop (.yield k .returning), .coroutine)
    | some c => ({ s with returnTo := none }.goTop (.yield k (.setContext c)), .coroutine)
  | .setContext c => s.setContext c
  | .returning => ((s.goAfter k).goTop .code, .coroutine)

/-- The handle was returned to the caller. -/
def Returned (s : CBCoro ι) : Handle → Prop
  | .call c => s.returns c ≠ []
  | .yield k => 0 < s.after k

instance [DecidableEq ι] (s : CBCoro ι) : DecidablePred s.Returned := fun h =>
  match h with
  | .call c => inferInstanceAs (Decidable (s.returns c ≠ []))
  | .yield k => inferInstanceAs (Decidable (0 < s.after k))

variable [DecidableEq ι]

/-- The steps of `start` and `invokeFromCallback`, on a stack that goes on at `here` after the
`swapcontext`. -/
def stepCall (t : ι) (c : CallId) (here : Option Stack) (p : CallPoint) (s : CBCoro ι) :
    Option (CBCoro ι × CallNext) :=
  match p with
  | .hold => some ({ s with users := s.users.create (.call c) }, .goes c.afterHold)
  | .make => some ({ s with context := {} }, .goes .setReturnTo)
  | .setReturnTo => some ({ s with returnTo := some c }, .goes .lock)
  | .lock => (s.mutex.lock t).map fun mutex => ({ s with mutex }, .goes c.afterLock)
  | .test => some (s, .goes (if s.returnTo = none then .revive else .direct))
  | .direct => some ({ s with invokeFromYield := true }, .goes .unlock)
  | .revive => some ({ s with returnTo := some c, yieldFromInvoke := true }, .goes .swap)
  | .swap =>
    some ({ s with saved := Function.update s.saved c here, stack := s.context }, .swaps)
  | .reset =>
    some ({ s with returnTo := if s.returnTo = some c then none else s.returnTo }, .goes .unlock)
  | .unlock => (s.mutex.unlock t).map fun mutex => ({ s with mutex }, .goes .returning)
  | .returning =>
    some ({ s with returns := Function.update s.returns c (t :: s.returns c) }, .returns)

/-- `invokeFromCallback` is called for the yield `k`. -/
def callInvoke (t : ι) (k : ℕ) (s : CBCoro ι) : Option (CBCoro ι) :=
  if k ∈ s.started ∧ s.caller (.invoke k) = none then
    some { s with caller := Function.update s.caller (.invoke k) (some t) }
  else none

/-- A handle that was returned is destroyed. -/
def drop (h : Handle) (s : CBCoro ι) : Option (CBCoro ι) :=
  if h ∈ s.users.live ∧ s.Returned h then some { s with users := s.users.destroy h } else none

/-- The steps of the coroutine's code. -/
def stepCode (t : ι) (a : Action) (s : CBCoro ι) : Option (CBCoro ι) :=
  match a, s.stack.funs with
  | .yield, _ => some ({ s with yields := s.yields + 1 }.goTop (.yield s.yields .hold))
  | .invoke k, _ => (callInvoke t k s).map fun s => s.goTop (.call (.invoke k) .hold)
  | .drop h, _ => drop h s
  | .finish, [] => some (s.goTop .ended)
  | .finish, k :: funs => some { s with stack := ⟨.yield k .test, funs⟩ }
  -- `cbcRun` logs the exception
  | .throws, [] => some (s.goTop .ended)
  | .throws, k :: funs =>
    some (goAfter { s with stack := ⟨.code, funs⟩, users := s.users.destroy (.yield k) } k)
  | _, _ => none

/-- The steps on the coroutine's stack. -/
def stepCoroutine (t : ι) (a : Action) (s : CBCoro ι) : Option (CBCoro ι × Control) :=
  match s.stack.top, a with
  | .code, a => (stepCode t a s).map fun s => (s, .coroutine)
  | .yield k p, .go => some (stepYield k p s)
  | .call c p, .go =>
    (stepCall t c (some { s.stack with top := .call c c.afterSwap }) p s).map fun r =>
      match r.2 with
      | .goes p => (r.1.goTop (.call c p), .coroutine)
      | .swaps => (r.1, .coroutine)
      | .returns => (r.1.goTop .code, .coroutine)
  | .ended, .go =>
    match s.returnTo with
    -- `cbcRun` returns to `uc_link`, which is `back`
    | none => some (s.setContext .start)
    | some c => some ({ s with returnTo := none }.goTop (.leaving c), .coroutine)
  | .leaving c, .go => some (s.setContext c)
  | _, _ => none

/-- The steps of the thread `t`. -/
def prog (t : ι) (p : Control) (a : Action) (s : CBCoro ι) : Option (CBCoro ι × Control) :=
  match p, a with
  | .idle, .start =>
    if s.caller .start = none then
      some ({ s with caller := Function.update s.caller .start (some t) }, .call .start .hold)
    else none
  | .idle, .invoke k => (callInvoke t k s).map fun s => (s, .call (.invoke k) .hold)
  | .idle, .drop h => (drop h s).map fun s => (s, .idle)
  | .call c p, .go =>
    (stepCall t c none p s).map fun r =>
      match r.2 with
      | .goes p => (r.1, .call c p)
      | .swaps => (r.1, .coroutine)
      | .returns => (r.1, .idle)
  | .coroutine, a => stepCoroutine t a s
  | _, _ => none

/-- A step of the thread `l.1`. -/
def step (l : ι × Action) (c : Config ι (CBCoro ι) Control) :
    Option (Config ι (CBCoro ι) Control) :=
  Config.step (prog l.1) l c

/-- A coroutine that has been constructed, and threads that have nothing to do with it yet. -/
def initial (ι : Type) : Config ι (CBCoro ι) Control := ⟨{}, fun _ => .idle⟩

end CBCoro

end Glim
