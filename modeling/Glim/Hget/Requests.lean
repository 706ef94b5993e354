import Glim.Hget.Until
import Glim.Machine.Accounts
import Glim.Thread.Steps

/-!
# The requests of an event loop

`hget::go` makes a connection and a context for every request, and `hgetCB` frees both when the
request has finished and its handler has been called. The handlers of `goUntil` make further
requests, at once or when a timer fires. What libevent does next, what the handlers return and
which calls fail are the labels of the steps. Whatever is made and freed is entered in a ledger.

## Main definitions

* `Hgot.of`: what a handler is told of a request
* `Requests`: the requests, the timers, and what became of every `goUntil`
* `Requests.Label`, `Requests.step`: the steps
* `Requests.Contract`: what `goUntil` relies on
-/

namespace Glim.Hget

open Machine

/-- `hgot::error`. -/
inductive Errno where
  | ETIMEDOUT
  | ECONNREFUSED
  deriving DecidableEq, Repr

/-- `hgot`: whether there is a body, instead of the body. -/
structure Hgot where
  status : ℤ := 0
  error : Option Errno := none
  body : Bool := false
  deriving DecidableEq, Repr

/-- What the handler is told of a request with a `response_code`, or of none at all. -/
def Hgot.of : Option ℤ → Hgot
  | none => { error := some .ETIMEDOUT }
  | some 0 => { error := some .ECONNREFUSED }
  | some status => { status, body := true }

/-- A `std::runtime_error`, or an exception that is none. -/
inductive Raised where
  | runtimeError
  | other
  deriving DecidableEq, Repr

/-- How `go` ends: with a request, or with the exception of a failure or of `_requestBuilder`. -/
inductive GoResult where
  | made
  | addHeader
  | requestBuilder (raised : Raised)
  | makeRequest
  deriving DecidableEq, Repr

def GoResult.raised : GoResult → Option Raised
  | .made => none
  | .addHeader => some .runtimeError
  | .requestBuilder raised => some raised
  | .makeRequest => some .runtimeError

/-- The handler of a request: one of a user, or the function object of a `goUntil`. -/
inductive Handler (α : Type) where
  | plain
  | chain (c : ℕ) (h : HgetUntilHandler α)

/-- What is made and freed: connections, contexts, and function objects for timers. -/
inductive Resource where
  | connection (id : ℕ)
  | context (id : ℕ)
  | timer (id : ℕ)
  deriving DecidableEq, Repr

/-- What libevent has. -/
inductive Link where
  | carries (id : ℕ)
  | calls (id : ℕ)
  | fires (id : ℕ)
  deriving DecidableEq, Repr

/-- A `goUntil`: the URLs its requests were made to, what its handler was called with, and what it
returned. -/
structure Chain (α : Type) where
  urls : List α := []
  sent : List α := []
  calls : List (Hgot × α × ℕ) := []
  answers : List RetryAfterSec := []

/-- What the next thing is that happens to a `goUntil`. -/
inductive Stage where
  /-- Its request finishes. -/
  | requested
  /-- Its handler returns. -/
  | called
  /-- Its timer fires. -/
  | waiting
  deriving DecidableEq, Repr

/-- The function object of a handler. -/
def Handler.held {α : Type} (stage : Stage) : Handler α → List (ℕ × Stage × HgetUntilHandler α)
  | .plain => []
  | .chain c h => [(c, stage, h)]

/-- Where the event loop is. -/
inductive Point (α : Type) where
  | idle
  /-- In the handler of a request. -/
  | calling (id : ℕ) (handler : Handler α)
  /-- An exception has gone through libevent. -/
  | escaped

/-- The request whose handler is being called. -/
def Point.current {α : Type} : Point α → List (ℕ × Handler α)
  | .calling id handler => [(id, handler)]
  | _ => []

/-- The requests and the timers that libevent has; the requests that were not made, or whose
handler's exception went through `hgetCB`, and the function objects that got no timer; every
`goUntil`, and those that a failure has ended. -/
structure Requests (α : Type) where
  requests : List (ℕ × Handler α) := []
  timers : List (ℕ × ℕ × HgetUntilHandler α) := []
  point : Point α := .idle
  lost : List ℕ := []
  lostTimers : List ℕ := []
  chains : ℕ → Chain α := fun _ => {}
  failed : List ℕ := []
  nextChain : ℕ := 0
  next : ℕ := 0
  fault : Bool := false
  log : List (Entry Resource Link Unit) := []

namespace Requests

variable {α : Type}

/-- What happens next. -/
inductive Label (α : Type) where
  /-- A user calls `go`. -/
  | go (r : GoResult)
  /-- A user calls `goUntil`. -/
  | goUntil (urls : List α) (r : GoResult)
  /-- libevent calls `hgetCB`. -/
  | hgetCB (id : ℕ) (req : Option ℤ)
  /-- A handler ends; whether `go` and `event_base_once` fail then, if they are called. -/
  | returns (answer : Except Raised RetryAfterSec) (r : GoResult) (once : Bool)
  /-- libevent calls `hgetUntilRetryCB`. -/
  | hgetUntilRetryCB (id : ℕ) (r : GoResult)

/-- `hget::go`: nothing frees the connection and the context of a request that is not made. -/
def go (handler : Handler α) (r : GoResult) (s : Requests α) : Requests α :=
  let log := .acquire (.context s.next) :: .acquire (.connection s.next) :: s.log
  match r with
  | .made =>
    { s with
      requests := (s.next, handler) :: s.requests
      next := s.next + 1
      log := .attach (.calls s.next) (.context s.next) ::
        .attach (.carries s.next) (.connection s.next) :: log }
  | _ => { s with lost := s.next :: s.lost, next := s.next + 1, log }

/-- What became of a `goUntil` is changed. -/
def modify (c : ℕ) (f : Chain α → Chain α) (s : Requests α) : Requests α :=
  { s with chains := Function.update s.chains c (f (s.chains c)) }

/-- `HgetUntilHandler::retry`. -/
def retry (c : ℕ) (h : HgetUntilHandler α) (r : GoResult) (s : Requests α) : Requests α :=
  match h.retry with
  | some (url, h) =>
    let s := (s.modify c fun chain => { chain with sent := chain.sent ++ [url] }).go (.chain c h) r
    { s with failed := if r.raised = none then s.failed else c :: s.failed }
  | none => { s with fault := true }

/-- `hget::goUntil`. -/
def goUntil (urls : List α) (r : GoResult) (s : Requests α) : Requests α :=
  retry s.nextChain { urls } r
    { s with
      chains := Function.update s.chains s.nextChain { urls }
      nextChain := s.nextChain + 1 }

/-- `hgetCB` calls the handler. -/
def call (id : ℕ) (handler : Handler α) (req : Option ℤ) (s : Requests α) : Requests α :=
  let s := { s with
    requests := s.requests.filter (·.1 ≠ id)
    point := .calling id handler }
  match handler with
  | .plain => s
  | .chain c h =>
    match h.arguments with
    | some arguments =>
      s.modify c fun chain => { chain with calls := chain.calls ++ [(Hgot.of req, arguments)] }
    | none => { s with fault := true }

/-- `evhttp_connection_free (ctx->conn)` and `delete ctx`, behind a `catch` of
`std::runtime_error`. -/
def finish (raised : Option Raised) (id : ℕ) (s : Requests α) : Requests α :=
  let log := .detach (.calls id) :: .detach (.carries id) :: s.log
  if raised = some .other then { s with point := .escaped, lost := id :: s.lost, log }
  else { s with
    point := .idle
    log := .release (.context id) () :: .release (.connection id) () :: log }

/-- `event_base_once` with a copy of the function object, which nothing frees if that fails. -/
def wait (c : ℕ) (h : HgetUntilHandler α) (once : Bool) (s : Requests α) : Requests α :=
  let log := .acquire (.timer s.next) :: s.log
  if once then
    { s with
      timers := (s.next, c, h) :: s.timers
      next := s.next + 1
      log := .attach (.fires s.next) (.timer s.next) :: log }
  else
    { s with
      lostTimers := s.next :: s.lostTimers
      failed := c :: s.failed
      next := s.next + 1
      log }

/-- The handler ends, and with it `HgetUntilHandler::operator ()` and `hgetCB`. -/
def returns (answer : Except Raised RetryAfterSec) (r : GoResult) (once : Bool) (id : ℕ)
    (handler : Handler α) (s : Requests α) : Requests α :=
  match handler, answer with
  | .plain, .ok _ => s.finish none id
  | .plain, .error raised => s.finish (some raised) id
  | .chain c h, .ok answer =>
    let s := s.modify c fun chain => { chain with answers := chain.answers ++ [answer] }
    match answer with
    | .zero => (s.retry c h r).finish r.raised id
    -- the exception of a failed `event_base_once` is a `std::runtime_error`
    | .positive => (s.wait c h once).finish none id
    | .other => s.finish none id
  | .chain c _, .error raised => { s with failed := c :: s.failed }.finish (some raised) id

/-- `hgetUntilRetryCB`: nothing catches an exception of `retry`. -/
def fire (id c : ℕ) (h : HgetUntilHandler α) (r : GoResult) (s : Requests α) : Requests α :=
  let s := { s with
    timers := s.timers.filter (·.1 ≠ id)
    log := .detach (.fires id) :: s.log }.retry c h r
  { s with
    point := if r.raised = none then .idle else .escaped
    log := .release (.timer id) () :: s.log }

/-- The steps, until an exception has gone through libevent. The users may call `go` and `goUntil`
in a handler, too. -/
def step (l : Label α) (s : Requests α) : Option (Requests α) :=
  match l, s.point with
  | _, .escaped => none
  | .go r, _ => some (s.go .plain r)
  | .goUntil urls r, _ => some (s.goUntil urls r)
  | .hgetCB id req, .idle => (s.requests.lookup id).map fun handler => s.call id handler req
  | .returns answer r once, .calling id handler => some (s.returns answer r once id handler)
  | .hgetUntilRetryCB id r, .idle => (s.timers.lookup id).map fun (c, h) => s.fire id c h r
  | _, _ => none

/-- What a step does. -/
inductive Moves (s : Requests α) : Label α → Requests α → Prop where
  | go {r : GoResult} : Moves s (.go r) (s.go .plain r)
  | goUntil {urls : List α} {r : GoResult} : Moves s (.goUntil urls r) (s.goUntil urls r)
  | hgetCB {id : ℕ} {req : Option ℤ} {handler : Handler α} :
    s.point = .idle → s.requests.lookup id = some handler →
    Moves s (.hgetCB id req) (s.call id handler req)
  | returns {answer : Except Raised RetryAfterSec} {r : GoResult} {once : Bool} {id : ℕ}
    {handler : Handler α} : s.point = .calling id handler →
    Moves s (.returns answer r once) (s.returns answer r once id handler)
  | hgetUntilRetryCB {id c : ℕ} {h : HgetUntilHandler α} {r : GoResult} :
    s.point = .idle → s.timers.lookup id = some (c, h) →
    Moves s (.hgetUntilRetryCB id r) (s.fire id c h r)

theorem moves_of_step {l : Label α} {s s' : Requests α} (hx : step l s = some s') :
    Moves s l s' := by
  unfold step at hx
  split at hx
  · cases hx
  · cases hx
    exact .go
  · cases hx
    exact .goUntil
  · case h_4 hp =>
    obtain ⟨handler, hid, rfl⟩ := Option.map_eq_some_iff.mp hx
    exact .hgetCB hp hid
  · case h_5 hp =>
    cases hx
    exact .returns hp
  · case h_6 hp =>
    obtain ⟨⟨c, h⟩, hid, rfl⟩ := Option.map_eq_some_iff.mp hx
    exact .hgetUntilRetryCB hp hid
  · cases hx

/-! ## Which `goUntil` is where -/

def current (s : Requests α) : List (ℕ × Handler α) := s.point.current

/-- The function objects that libevent has. -/
def away (s : Requests α) : List (ℕ × Stage × HgetUntilHandler α) :=
  s.requests.flatMap (fun e => e.2.held .requested) ++
    s.timers.map fun e => (e.2.1, .waiting, e.2.2)

/-- The function objects, wherever they are. -/
def held (s : Requests α) : List (ℕ × Stage × HgetUntilHandler α) :=
  s.current.flatMap (fun e => e.2.held .called) ++ s.away

/-- There are URLs, as many as the position can go through, and the numbers of the requests do not
overflow. -/
def Contract : Label α → Requests α → Prop
  | .goUntil urls _, _ => 0 < urls.length ∧ urls.length ≤ 256
  | .returns _ _ _, s => ∀ e ∈ s.held, e.2.2.requestNum + 1 < 2 ^ 31
  | .hgetUntilRetryCB _ _, s => ∀ e ∈ s.held, e.2.2.requestNum + 1 < 2 ^ 31
  | _, _ => True

instance instDecidableContract (l : Label α) (s : Requests α) : Decidable (Contract l s) :=
  match l with
  | .goUntil urls _ => inferInstanceAs (Decidable (0 < urls.length ∧ urls.length ≤ 256))
  | .returns _ _ _ | .hgetUntilRetryCB _ _ =>
    inferInstanceAs (Decidable (∀ e ∈ s.held, e.2.2.requestNum + 1 < 2 ^ 31))
  | .go _ | .hgetCB _ _ => inferInstanceAs (Decidable True)

end Requests

end Glim.Hget
