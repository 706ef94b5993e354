import Glim.Thread.Baton

/-!
# The channel

A channel holds one value. Its `_state` says whether there is one, and its `_mutex` is used as a
semaphore: it is locked while there is no value, the sender unlocks it, and the receiver locks it
again. Threads call `send` and `receive` in any order, and each compare-exchange, assignment,
lock and unlock is a step of its own. The moves of values do not throw; assignments may.

## Main definitions

* `Channel`, `Channel.History`: the members of a channel, and what has happened to it
* `Channel.Point`: where a thread is in `send` or `receive`
* `Channel.step`: the steps of a thread
-/

namespace Glim

open Thread

/-- `State`. -/
inductive ChannelState where
  | EMPTY
  | WRITING
  | FULL
  deriving DecidableEq, Repr

/-- What has happened: how many compare-exchanges succeeded; the values in the order they were
assigned to `_v`, with the numbers of their compare-exchanges, and what `receive` has returned, in
that order; whether a value was overwritten before it was received, whether the assertion in
`receive` failed, and whether the mutex was unlocked while it was not locked. -/
structure Channel.History (V : Type) where
  exchanges : ℕ := 0
  sent : List V := []
  turns : List ℕ := []
  received : List V := []
  overwritten : Bool := false
  assertionFailed : Bool := false
  unlockedTwice : Bool := false

/-- A channel: `_v`, `_mutex` and `_state`, and its history. -/
structure Channel (V : Type) where
  v : V
  locked : Bool := true
  state : ChannelState := .EMPTY
  history : Channel.History V := {}

/-- Where a thread is: outside of the channel, in `send` or in `receive`. -/
inductive Channel.Point (V : Type) where
  | outside
  /-- Before `_state.compare_exchange_weak (expectEmpty, WRITING)`. -/
  | sending (value : V)
  /-- Before `_v = std::forward<V> (v)`, with the number of the compare-exchange. -/
  | writing (value : V) (turn : ℕ)
  /-- Before `_state = EMPTY` in the `catch`. -/
  | threw
  /-- Before `_state = FULL`. -/
  | assigned
  /-- Before `_mutex.unlock ()`. -/
  | unlocking
  /-- Before `_mutex.lock ()`. -/
  | locking
  /-- Before `V tmp = std::move (_v)`. -/
  | moving
  /-- Before `assert (_state == FULL)`. -/
  | asserting (tmp : V)
  /-- Before `_state = EMPTY; return tmp;`. -/
  | emptying (tmp : V)

/-- The choices of a thread, and of the operations that may go either way. -/
inductive Channel.Point.Action (V : Type) where
  | send (value : V)
  | receive
  /-- The next step of `send` or `receive`. -/
  | go
  /-- The compare-exchange fails although the state is `EMPTY`. -/
  | spurious
  /-- The assignment throws, and leaves a value behind. -/
  | throws (left : V)
  /-- The move out of `_v`, and what it leaves there. -/
  | move (left : V)

namespace Channel

variable {V : Type}

/-- A value is assigned, or its assignment throws: the value before it must have been received. -/
def History.write (h : History V) : History V :=
  { h with overwritten := h.overwritten || h.sent.length != h.received.length }

/-- The steps of a thread. -/
def step : Point V → Point.Action V → Channel V → Option (Channel V × Point V)
  | .outside, .send value, c => some (c, .sending value)
  | .outside, .receive, c => some (c, .locking)
  -- `for (;;) {if (compare_exchange_weak) break; sleep}`
  | .sending value, .go, c =>
    if c.state = .EMPTY then
      some ({ c with
        state := .WRITING
        history := { c.history with exchanges := c.history.exchanges + 1 } },
        .writing value c.history.exchanges)
    else some (c, .sending value)
  | .sending value, .spurious, c => some (c, .sending value)
  | .writing value turn, .go, c =>
    some ({ c with
      v := value
      history := { c.history.write with
        sent := c.history.sent ++ [value]
        turns := c.history.turns ++ [turn] } }, .assigned)
  | .writing _ _, .throws left, c => some ({ c with v := left, history := c.history.write }, .threw)
  | .threw, .go, c => some ({ c with state := .EMPTY }, .outside)
  | .assigned, .go, c => some ({ c with state := .FULL }, .unlocking)
  | .unlocking, .go, c =>
    some ({ c with
      locked := false
      history := { c.history with
        unlockedTwice := c.history.unlockedTwice || !c.locked } }, .outside)
  | .locking, .go, c => if c.locked then none else some ({ c with locked := true }, .moving)
  | .moving, .move left, c => some ({ c with v := left }, .asserting c.v)
  | .asserting tmp, .go, c =>
    some ({ c with
      history := { c.history with
        assertionFailed := c.history.assertionFailed || c.state != .FULL } }, .emptying tmp)
  | .emptying tmp, .go, c =>
    some ({ c with
      state := .EMPTY
      history := { c.history with received := c.history.received ++ [tmp] } }, .outside)
  | _, _, _ => none

/-- `Channel ()`, with threads `ι` outside of it. -/
def start (ι : Type) (v : V) : Config ι (Channel V) (Point V) := ⟨{ v }, fun _ => .outside⟩

end Channel

end Glim
