import Glim.Machine.Accounts
import Glim.Runner.Finished
import Glim.Thread.Steps
import Mathlib.Data.Int.Notation

/-!
# The event loop of the runner

The runner works on a loop of libevent: a function that `doInEv` schedules makes the multi handle of
cURL and the timer, another one adds a transfer to it, and a last one cleans up behind the
destructor. The timer and the sockets call cURL, which calls back to have a socket watched or the
timer started; after the timer comes a pass, that handles and frees the finished transfers. The user
calls the runner at any time. What libevent, cURL, the handlers, `_errlog` and the user do next is
the label of a step. Whatever is made and freed is entered in a ledger.

## Main definitions

* `Runner.Loop`: the members of the runner, the state of cURL, and the ledger
* `Loop.Point`: where the event loop is
* `Loop.Label`, `Loop.step`: the steps
* `Loop.start`: the runner after its constructor
* `Loop.Moves`, `moves_of_step`: what a step does, and when
-/

namespace Glim.Runner

open Machine Text Table Thread

/-- What the runner makes and frees. -/
inductive Resource where
  | event (id : ℕ)
  /-- The `Dugout` of the function that the event runs. -/
  | dugout (event : ℕ)
  | multi
  | easy (curl : ℕ)
  deriving DecidableEq, Repr

/-- An easy handle is in the multi handle, which is to outlive it there, and the other way around.
-/
inductive Link where
  | inMulti (curl : ℕ)
  | inEasy (curl : ℕ)
  deriving DecidableEq, Repr

/-- The functions that `doInEv` schedules. -/
inductive Task where
  /-- Of the constructor. -/
  | init
  /-- Of `multi`. -/
  | add (curl : ℕ)
  /-- Of the destructor. -/
  | cleanup
  deriving DecidableEq, Repr

/-- `_curlm`. -/
inductive Curlm where
  | null
  | live
  /-- The multi handle has been freed. -/
  | dangling
  deriving DecidableEq, Repr

/-- How the function of the constructor gets along with cURL. -/
inductive MultiInit where
  /-- `curl_multi_init` returns null. -/
  | null
  /-- A `curl_multi_setopt` behind it fails. -/
  | setoptFails
  | ok
  deriving DecidableEq, Repr

/-- `_timer`, and the time at which its timeout expires if it is pending. -/
structure Timer where
  event : ℕ
  deadline : Option ℕ := none
  deriving DecidableEq, Repr

/-- Who has called cURL. -/
inductive Caller where
  | evTimerCB
  | evSocketCB
  /-- The function of `multi`. -/
  | add
  deriving DecidableEq, Repr

namespace Loop

/-- Where the event loop is. -/
inductive Point where
  /-- In libevent. -/
  | idle
  /-- In `curl_multi_socket_action` or `curl_multi_add_handle`. -/
  | inCurl (caller : Caller)
  /-- Before `curl_multi_info_read`. -/
  | reading
  /-- In a handler, and whether there are more messages. -/
  | handling (curl : ℕ) (more : Bool)
  /-- In the `curl_multi_remove_handle` of `~FreeCurl`, with what the handler has thrown. -/
  | removing (curl : ℕ) (thrown : Option Thrown) (more : Bool)
  /-- In `run`, behind the finished transfers. -/
  | jobs
  /-- In the loop of the function of the destructor, with the transfers that are left. -/
  | cleaning (todo : List ℕ)
  deriving DecidableEq

/-- cURL is running with work to do, for the transfers that it has. -/
def Point.inLibcurl (added : List ℕ) : Point → Bool
  | .inCurl _ => true
  | .removing _ _ _ => true
  | .cleaning todo => todo.any (· ∈ added)
  | _ => false

/-- The event loop holds the mutex, and runs nothing of the user. -/
def Point.locked : Point → Bool
  | .reading => true
  | .removing _ _ _ => true
  | _ => false

/-- What happens next. -/
inductive Label where
  /-- The time in microseconds goes on. -/
  | tick (passed : ℕ)
  /-- The call of `multi`, up to its `doInEv`. -/
  | multi (curl : ℕ)
  /-- The `doInEv` of `multi`. -/
  | doInEv (curl : ℕ)
  /-- A call of `run` by the user on the event loop. -/
  | run
  /-- A call of the destructor. -/
  | destroy
  /-- libevent runs a function of `doInEv`. -/
  | runTask (event : ℕ) (multiInit : MultiInit)
  | evTimerCB
  | evSocketCB (event : ℕ)
  | curlSocketCB (easy what : ℕ)
  /-- If the timeout is zero, then the call of cURL can fail, and `_errlog` throw. -/
  | curlTimerCB (timeoutMs : ℤ) (error : Option (List UInt8)) (logThrows : Bool)
  /-- A transfer has finished, and its message is queued. -/
  | finish (curl : ℕ)
  /-- cURL returns. If that is logged, or what a handler has thrown, then `_errlog` can throw. -/
  | curlReturns (error : Option (List UInt8)) (logThrows : Bool)
  /-- `curl_multi_info_read`. -/
  | read
  | handlerEnds (thrown : Option Thrown)
  | jobsEnd
  /-- Something escapes from `run`: what the copy of a `JobInfo` or `_errlog` throws, or what a job
  throws if it is not a `std::exception`. -/
  | jobsEscape
  /-- The next turn of the function of the destructor. -/
  | clean (curl : ℕ)
  | cleaned

end Loop

/-- The members of the runner, `_handlers` with the events of the transfers; the calls of `multi`
before their `doInEv`; the easy handles that cURL has, the transfers that it has finished, and its
messages; the transfers whose handler was called, the errors that were logged, and what was made and
freed. The function of the destructor has `_handlers` and `_curlm` from the runner. `asked` is the
deadline that was asked for last. A `fault` is undefined behaviour. -/
structure Loop where
  now : ℕ := 0
  alive : Bool := true
  fault : Bool := false
  handlers : SortedMap ℕ (Option ℕ) := .empty
  curlm : Curlm := .null
  timer : Option Timer := none
  asked : Option ℕ := none
  dugouts : List (ℕ × Task) := []
  registering : List ℕ := []
  nextEvent : ℕ := 0
  added : List ℕ := []
  finished : List ℕ := []
  messages : List ℕ := []
  handled : List ℕ := []
  errors : List (List UInt8) := []
  point : Loop.Point := .idle
  log : List (Entry Resource Link Unit) := []

namespace Loop

/-- The runner is accessed, which is undefined behaviour after its destruction. -/
def access (f : Loop → Loop) (s : Loop) : Loop := if s.alive then f s else { s with fault := true }

def record (entry : Entry Resource Link Unit) (s : Loop) : Loop :=
  { s with log := entry :: s.log }

/-- `doInEv (fun)`. -/
def doInEv (fun_ : Task) (s : Loop) : Loop :=
  { s with
    dugouts := s.dugouts ++ [(s.nextEvent, fun_)]
    nextEvent := s.nextEvent + 1
    log := .acquire (.event s.nextEvent) :: .acquire (.dugout s.nextEvent) :: s.log }

/-- `_errlog (error)`. If it throws, then the labels say so, and its caller is left. -/
def errlog (error : List UInt8) (s : Loop) : Loop := { s with errors := s.errors ++ [error] }

/-- The text of an error of `curl_multi_socket_action`. -/
def socketActionError (error : List UInt8) : List UInt8 :=
  ascii "glim::Runner: curl_multi_socket_action: " ++ error

/-- `if (rc != CURLM_OK) ..`, behind `curl_multi_socket_action`. -/
def check (error : Option (List UInt8)) (s : Loop) : Loop :=
  match error with
  | none => s
  | some error => s.errlog (socketActionError error)

/-- `event_pending (_timer, EV_TIMEOUT, &tv) && !tv.tv_sec && tv.tv_usec < nextInMicro`. What
`event_pending` gives is the time at which the timeout expires. -/
def Timer.hasShorter (nextInMicro : ℕ) (timer : Timer) : Bool :=
  match timer.deadline with
  | none => false
  | some tv => tv / 1000000 = 0 ∧ tv % 1000000 < nextInMicro

/-- `restartTimer (nextInMicro)`. -/
def restartTimer (nextInMicro : ℕ) (s : Loop) : Loop :=
  match s.timer with
  | none => { s with fault := true }
  | some timer =>
    let s := { s with asked := some (s.now + nextInMicro) }
    if Timer.hasShorter nextInMicro timer then s
    else { s with timer := some { timer with deadline := some (s.now + nextInMicro) } }

/-- The call of `multi`: `_handlers.insert`, for a new transfer. The runner owns it from now on. -/
def insertHandler (curl : ℕ) (s : Loop) : Loop :=
  let s := if (s.handlers.lookup curl).isSome then s
    else { s with handlers := s.handlers.insert curl none }
  { s.record (.acquire (.easy curl)) with registering := curl :: s.registering }

/-- cURL is called with `_curlm`. -/
def useCurlm (s : Loop) : Loop := { s with fault := s.fault || s.curlm = .dangling }

/-- cURL is running for the multi handle, and can call back. A null handle it refuses at once. -/
def inLibcurl (s : Loop) : Bool := s.curlm = .live ∧ s.point.inLibcurl s.added

/-- `curl_multi_add_handle`, which refuses a null multi handle, and an easy handle that it has. -/
def addHandle (curl : ℕ) (s : Loop) : Loop :=
  if s.curlm = .live ∧ curl ∉ s.added then
    { s with
      added := curl :: s.added
      log := .attach (.inEasy curl) (.easy curl) :: .attach (.inMulti curl) .multi :: s.log }
  else s

/-- `curl_multi_remove_handle`: the messages of the transfer are removed, too. -/
def removeHandle (curl : ℕ) (s : Loop) : Loop :=
  if curl ∈ s.added then
    { s with
      added := s.added.filter (· ≠ curl)
      messages := s.messages.filter (· ≠ curl)
      log := .detach (.inEasy curl) :: .detach (.inMulti curl) :: s.log }
  else s

/-- The function of the constructor. -/
def init (multiInit : MultiInit) (s : Loop) : Loop :=
  match multiInit with
  | .null => s
  | .setoptFails =>
    -- `check` frees the multi handle, and throws with `_curlm` as it is
    let s := { s.record (.acquire .multi) with curlm := .live }
    { s.record (.release .multi ()) with curlm := .dangling }
  | .ok =>
    let s := { s.record (.acquire .multi) with curlm := .live }
    let s := { s.record (.acquire (.event s.nextEvent)) with
      timer := some { event := s.nextEvent }
      nextEvent := s.nextEvent + 1 }
    s.restartTimer 100000

/-- The callback of `doInEv` frees the event and the `Dugout`, and goes on with the function. -/
abbrev take (event : ℕ) (s : Loop) : Loop :=
  { s with
    dugouts := s.dugouts.filter (·.1 ≠ event)
    log := .release (.dugout event) () :: .release (.event event) () :: s.log }

/-- The callback of `doInEv`. -/
def runTask (event : ℕ) (task : Task) (multiInit : MultiInit) (s : Loop) : Loop :=
  let s := s.take event
  match task with
  | .init => s.access (init multiInit)
  | .add curl => s.access fun s =>
    { s.useCurlm.addHandle curl with point := if s.curlm = .live then .inCurl .add else .idle }
  | .cleanup => { s with point := .cleaning s.handlers.keys }

/-- `evTimerCB`: the timer is not pending any more. -/
def evTimerCB (timer : Timer) (s : Loop) : Loop :=
  s.access fun s =>
    { s.useCurlm with timer := some { timer with deadline := none }, point := .inCurl .evTimerCB }

/-- The event of a transfer is deleted, if there is one. -/
def deleteEvent (event : Option ℕ) (s : Loop) : Loop :=
  match event with
  | none => s
  | some event => s.record (.release (.event event) ())

/-- `curlSocketCB (easy, sock, what)`. -/
def curlSocketCB (easy what : ℕ) (s : Loop) : Loop :=
  s.access fun s =>
    -- `CURL_POLL_REMOVE`
    if what &&& 4 ≠ 0 then
      let s := match s.handlers.lookup easy with
        | none => s
        | some event => { s.deleteEvent event with handlers := s.handlers.insert easy none }
      s.restartTimer 0
    else
      match s.handlers.lookup easy with
      | some none =>
        { s.record (.acquire (.event s.nextEvent)) with
          handlers := s.handlers.insert easy (some s.nextEvent)
          nextEvent := s.nextEvent + 1 }
      | _ => s

/-- `std::min ((uint32_t) timeout_ms, (uint32_t) 100) * 1000` -/
def timeoutMicro (timeoutMs : ℤ) : ℕ := min (timeoutMs % 2 ^ 32).toNat 100 * 1000

/-- `curlTimerCB (multi, timeout_ms)`. -/
def curlTimerCB (timeoutMs : ℤ) (error : Option (List UInt8)) (logThrows : Bool) (s : Loop) :
    Loop :=
  if timeoutMs = -1 then s
  else if timeoutMs = 0 then
    -- an exception is not to go through cURL
    s.access fun s => { s.check error with fault := s.fault || error.isSome && logThrows }
  else s.access (restartTimer (timeoutMicro timeoutMs))

/-- `~FreeCurl`, up to `curl_multi_remove_handle`. It goes on behind an access to the destroyed
runner, since it has the easy handle itself. -/
def freeCurl (curl : ℕ) (thrown : Option Thrown) (more : Bool) (s : Loop) : Loop :=
  { s with point := .removing curl thrown more }.access fun s =>
    let s := { s.deleteEvent (s.handlers.lookup curl).join with
      handlers := s.handlers.erase curl }
    s.useCurlm.removeHandle curl

/-- Behind `~FreeCurl`: the next message, the jobs, or an exception that escapes from `run`. -/
def afterFree (thrown : Option Thrown) (more logThrows : Bool) (s : Loop) : Loop :=
  match thrown with
  | none => { s with point := if more then .reading else .jobs }
  | some (.exception what) =>
    { s.errlog (handlerError what) with point := if logThrows then .idle else .jobs }
  | some .other => { s with point := .idle }

/-- The messages are read. -/
def readMessage (s : Loop) : Loop :=
  match s.messages with
  | [] => { s with point := .jobs }
  | curl :: messages =>
    let s := { s with messages }
    if (s.handlers.lookup curl).isSome then
      { s with handled := curl :: s.handled, point := .handling curl (messages ≠ []) }
    else s.freeCurl curl none (messages ≠ [])

/-- cURL returns to where it was called. -/
def curlReturns (error : Option (List UInt8)) (logThrows : Bool) : Point → Loop → Option Loop
  | .inCurl .add, s => some { s with point := .idle }
  | .inCurl .evSocketCB, s =>
    -- the runner is accessed for its `_errlog` only
    some { (if error.isSome then s.access (check error) else s) with point := .idle }
  | .inCurl .evTimerCB, s =>
    some ({ s with point := .idle }.access fun s =>
      { s.check error with point := if error.isSome && logThrows then .idle else .reading })
  | .removing curl thrown more, s =>
    some ((s.record (.release (.easy curl) ())).afterFree thrown more logThrows)
  | _, _ => none

/-- The destructor. -/
def destroy (s : Loop) : Loop :=
  let s := match s.timer with
    | none => s
    | some timer => { s.record (.release (.event timer.event) ()) with timer := none }
  { s with alive := false }.doInEv .cleanup

/-- One turn of the function of the destructor. -/
def clean (curl : ℕ) (todo : List ℕ) (s : Loop) : Loop :=
  { (s.useCurlm.removeHandle curl).record (.release (.easy curl) ()) with
    point := .cleaning (todo.filter (· ≠ curl)) }

/-- The function of the destructor ends, and its `handlers` with it. -/
def cleaned (s : Loop) : Loop :=
  let s := if s.curlm = .null then s
    else { s.useCurlm.record (.release .multi ()) with curlm := .null }
  { s with
    log := (s.handlers.entries.filterMap Prod.snd).map (fun id => .release (.event id) ()) ++ s.log
    handlers := .empty
    point := .idle }

/-- The steps. -/
def step (l : Label) (s : Loop) : Option Loop :=
  match l with
  | .tick passed => some { s with now := s.now + passed }
  | .multi curl => some (s.access (insertHandler curl))
  | .doInEv curl =>
    if curl ∈ s.registering then
      some ({ s with registering := s.registering.filter (· ≠ curl) }.access (doInEv (.add curl)))
    else none
  | .run => if s.point = .idle then some (s.access fun s => { s with point := .reading }) else none
  | .destroy => if s.alive ∧ s.point.locked = false then some s.destroy else none
  | .runTask event multiInit =>
    if s.point = .idle then (s.dugouts.lookup event).map fun task => s.runTask event task multiInit
    else none
  | .evTimerCB =>
    match s.timer with
    | none => none
    | some timer =>
      if s.point = .idle ∧ timer.deadline.any (· ≤ s.now) then some (s.evTimerCB timer) else none
  | .evSocketCB event =>
    if s.point = .idle ∧ some event ∈ s.handlers.entries.map Prod.snd then
      some (s.access fun s => { s.useCurlm with point := .inCurl .evSocketCB })
    else none
  | .curlSocketCB easy what =>
    if s.inLibcurl then some (s.curlSocketCB easy what) else none
  | .curlTimerCB timeoutMs error logThrows =>
    if s.inLibcurl then some (s.curlTimerCB timeoutMs error logThrows) else none
  | .finish curl =>
    if s.inLibcurl ∧ curl ∈ s.added ∧ curl ∉ s.finished then
      some { s with finished := curl :: s.finished, messages := s.messages ++ [curl] }
    else none
  | .curlReturns error logThrows => s.curlReturns error logThrows s.point
  | .read =>
    if s.point = .reading then
      some ({ s with point := .idle }.access fun s => s.useCurlm.readMessage)
    else none
  | .handlerEnds thrown =>
    match s.point with
    | .handling curl more => some (s.freeCurl curl thrown more)
    | _ => none
  | .jobsEnd =>
    if s.point = .jobs then some ({ s with point := .idle }.access (restartTimer 100000))
    else none
  | .jobsEscape => if s.point = .jobs then some { s with point := .idle } else none
  | .clean curl =>
    match s.point with
    | .cleaning todo => if curl ∈ todo then some (s.clean curl todo) else none
    | _ => none
  | .cleaned => if s.point = .cleaning [] then some s.cleaned else none

/-- `Runner (evbase, errlog)`, at some time. -/
def start (now : ℕ) : Loop := { now := now : Loop }.doInEv .init

/-! ## What a step does -/

section Moves

variable (s : Loop)

/-- How cURL returns, and what is done then. -/
inductive Returns (error : Option (List UInt8)) (logThrows : Bool) : Loop → Prop
  | add : s.point = .inCurl .add → Returns error logThrows { s with point := .idle }
  | evSocketCB : s.point = .inCurl .evSocketCB → Returns error logThrows
      { (if error.isSome then s.access (check error) else s) with point := .idle }
  | evTimerCB : s.point = .inCurl .evTimerCB → Returns error logThrows
      ({ s with point := .idle }.access fun s =>
        { s.check error with point := if error.isSome && logThrows then .idle else .reading })
  | removing {curl : ℕ} {thrown : Option Thrown} {more : Bool} :
    s.point = .removing curl thrown more → Returns error logThrows
      ((s.record (.release (.easy curl) ())).afterFree thrown more logThrows)

/-- What a step does, and when. -/
inductive Moves : Label → Loop → Prop
  | tick {passed : ℕ} : Moves (.tick passed) { s with now := s.now + passed }
  | multi {curl : ℕ} : Moves (.multi curl) (s.access (insertHandler curl))
  | doInEv {curl : ℕ} : curl ∈ s.registering → Moves (.doInEv curl)
      ({ s with registering := s.registering.filter (· ≠ curl) }.access (doInEv (.add curl)))
  | run : s.point = .idle → Moves .run (s.access fun s => { s with point := .reading })
  | destroy : s.alive = true → s.point.locked = false → Moves .destroy s.destroy
  | runTask {event : ℕ} {task : Task} {multiInit : MultiInit} :
    s.point = .idle → (event, task) ∈ s.dugouts →
    Moves (.runTask event multiInit) (s.runTask event task multiInit)
  | evTimerCB {timer : Timer} :
    s.timer = some timer → s.point = .idle → timer.deadline.any (· ≤ s.now) = true →
    Moves .evTimerCB (s.evTimerCB timer)
  | evSocketCB {event curl : ℕ} :
    s.point = .idle → s.handlers.lookup curl = some (some event) →
    Moves (.evSocketCB event) (s.access fun s => { s.useCurlm with point := .inCurl .evSocketCB })
  | curlSocketCB {easy what : ℕ} : s.inLibcurl = true →
    Moves (.curlSocketCB easy what) (s.curlSocketCB easy what)
  | curlTimerCB {timeoutMs : ℤ} {error : Option (List UInt8)} {logThrows : Bool} :
    s.inLibcurl = true →
    Moves (.curlTimerCB timeoutMs error logThrows) (s.curlTimerCB timeoutMs error logThrows)
  | finish {curl : ℕ} : s.inLibcurl = true → curl ∈ s.added → curl ∉ s.finished →
    Moves (.finish curl)
      { s with finished := curl :: s.finished, messages := s.messages ++ [curl] }
  | curlReturns {error : Option (List UInt8)} {logThrows : Bool} {s' : Loop} :
    Returns s error logThrows s' → Moves (.curlReturns error logThrows) s'
  | read : s.point = .reading →
    Moves .read ({ s with point := .idle }.access fun s => s.useCurlm.readMessage)
  | handlerEnds {thrown : Option Thrown} {curl : ℕ} {more : Bool} :
    s.point = .handling curl more → Moves (.handlerEnds thrown) (s.freeCurl curl thrown more)
  | jobsEnd : s.point = .jobs →
    Moves .jobsEnd ({ s with point := .idle }.access (restartTimer 100000))
  | jobsEscape : s.point = .jobs → Moves .jobsEscape { s with point := .idle }
  | clean {curl : ℕ} {todo : List ℕ} : s.point = .cleaning todo → curl ∈ todo →
    Moves (.clean curl) (s.clean curl todo)
  | cleaned : s.point = .cleaning [] → Moves .cleaned s.cleaned

variable {s} {s' : Loop} {l : Label}

theorem returns_of_curlReturns {error : Option (List UInt8)} {logThrows : Bool}
    (hx : s.curlReturns error logThrows s.point = some s') : Returns s error logThrows s' := by
  cases hp : s.point with
  | inCurl caller =>
    rw [hp] at hx
    cases caller with
    | add =>
      obtain rfl := Option.some.inj hx
      exact .add hp
    | evSocketCB =>
      obtain rfl := Option.some.inj hx
      exact .evSocketCB hp
    | evTimerCB =>
      obtain rfl := Option.some.inj hx
      exact .evTimerCB hp
  | removing curl thrown more =>
    rw [hp] at hx
    obtain rfl := Option.some.inj hx
    exact .removing hp
  | _ =>
    rw [hp] at hx
    cases hx

/-- cURL returns only where it was called. -/
theorem Returns.inLibcurl {error : Option (List UInt8)} {logThrows : Bool}
    (hr : Returns s error logThrows s') : s.point.inLibcurl s.added = true := by
  cases hr with
  | add hp | evSocketCB hp | evTimerCB hp | removing hp =>
    rw [hp]
    rfl

theorem moves_of_step (hx : step l s = some s') : Moves s l s' := by
  cases l with
  | tick passed =>
    obtain rfl := Option.some.inj hx
    exact .tick
  | multi curl =>
    obtain rfl := Option.some.inj hx
    exact .multi
  | doInEv curl =>
    rw [step] at hx
    split_ifs at hx with h
    obtain rfl := Option.some.inj hx
    exact .doInEv h
  | run =>
    rw [step] at hx
    split_ifs at hx with hp
    obtain rfl := Option.some.inj hx
    exact .run hp
  | destroy =>
    rw [step] at hx
    split_ifs at hx with h
    obtain rfl := Option.some.inj hx
    exact .destroy h.1 h.2
  | runTask event multiInit =>
    rw [step] at hx
    split_ifs at hx with hp
    obtain ⟨task, htask, rfl⟩ := Option.map_eq_some_iff.mp hx
    obtain ⟨l₁, l₂, heq, -⟩ := List.lookup_eq_some_iff.mp htask
    exact .runTask hp (by rw [heq]; simp)
  | evTimerCB =>
    rw [step] at hx
    split at hx
    case h_1 => cases hx
    case h_2 timer htimer =>
      split_ifs at hx with h
      obtain rfl := Option.some.inj hx
      exact .evTimerCB htimer h.1 h.2
  | evSocketCB event =>
    rw [step] at hx
    split_ifs at hx with h
    obtain rfl := Option.some.inj hx
    obtain ⟨⟨curl, event'⟩, hin, rfl⟩ := List.mem_map.mp h.2
    exact .evSocketCB h.1 (SortedMap.lookup_eq_some_iff.mpr hin)
  | curlSocketCB easy what =>
    rw [step] at hx
    split_ifs at hx with h
    obtain rfl := Option.some.inj hx
    exact .curlSocketCB h
  | curlTimerCB timeoutMs error logThrows =>
    rw [step] at hx
    split_ifs at hx with h
    obtain rfl := Option.some.inj hx
    exact .curlTimerCB h
  | finish curl =>
    rw [step] at hx
    split_ifs at hx with h
    obtain rfl := Option.some.inj hx
    exact .finish h.1 h.2.1 h.2.2
  | curlReturns error logThrows => exact .curlReturns (returns_of_curlReturns hx)
  | read =>
    rw [step] at hx
    split_ifs at hx with hp
    obtain rfl := Option.some.inj hx
    exact .read hp
  | handlerEnds thrown =>
    rw [step] at hx
    split at hx
    case h_1 curl more hp =>
      obtain rfl := Option.some.inj hx
      exact .handlerEnds hp
    case h_2 => cases hx
  | jobsEnd =>
    rw [step] at hx
    split_ifs at hx with hp
    obtain rfl := Option.some.inj hx
    exact .jobsEnd hp
  | jobsEscape =>
    rw [step] at hx
    split_ifs at hx with hp
    obtain rfl := Option.some.inj hx
    exact .jobsEscape hp
  | clean curl =>
    rw [step] at hx
    split at hx
    case h_1 todo hp =>
      split_ifs at hx with hcurl
      obtain rfl := Option.some.inj hx
      exact .clean hp hcurl
    case h_2 => cases hx
  | cleaned =>
    rw [step] at hx
    split_ifs at hx with hp
    obtain rfl := Option.some.inj hx
    exact .cleaned hp

end Moves

/-! ## What the parts of a step leave -/

section Frame

variable (s : Loop) (curl : ℕ) (event : Option ℕ)

/-- The function of the constructor, with a multi handle. -/
theorem init_ok : s.init .ok = restartTimer 100000 { s with
    curlm := .live
    timer := some { event := s.nextEvent }
    nextEvent := s.nextEvent + 1
    log := .acquire (.event s.nextEvent) :: .acquire .multi :: s.log } := rfl

/-- The function of the constructor, when a `curl_multi_setopt` fails. -/
theorem init_setoptFails : s.init .setoptFails = { s with
    curlm := .dangling
    log := .release .multi () :: .acquire .multi :: s.log } := rfl

@[simp] theorem point_useCurlm : s.useCurlm.point = s.point := rfl

theorem fault_useCurlm : s.useCurlm.fault = false ↔ s.fault = false ∧ s.curlm ≠ .dangling := by
  rw [useCurlm, Bool.or_eq_false_iff, decide_eq_false_iff_not]

@[simp] theorem alive_removeHandle : (s.removeHandle curl).alive = s.alive := by
  rw [removeHandle]
  split_ifs <;> rfl

@[simp] theorem point_removeHandle : (s.removeHandle curl).point = s.point := by
  rw [removeHandle]
  split_ifs <;> rfl

@[simp] theorem handled_removeHandle : (s.removeHandle curl).handled = s.handled := by
  rw [removeHandle]
  split_ifs <;> rfl

@[simp] theorem timer_removeHandle : (s.removeHandle curl).timer = s.timer := by
  rw [removeHandle]
  split_ifs <;> rfl

@[simp] theorem release_mem_removeHandle {r : Resource} :
    .release r () ∈ (s.removeHandle curl).log ↔ .release r () ∈ s.log := by
  rw [removeHandle]
  split_ifs <;> simp

@[simp] theorem fault_removeHandle : (s.removeHandle curl).fault = s.fault := by
  rw [removeHandle]
  split_ifs <;> rfl

@[simp] theorem curlm_removeHandle : (s.removeHandle curl).curlm = s.curlm := by
  rw [removeHandle]
  split_ifs <;> rfl

@[simp] theorem alive_addHandle : (s.addHandle curl).alive = s.alive := by
  rw [addHandle]
  split_ifs <;> rfl

@[simp] theorem fault_addHandle : (s.addHandle curl).fault = s.fault := by
  rw [addHandle]
  split_ifs <;> rfl

@[simp] theorem timer_addHandle : (s.addHandle curl).timer = s.timer := by
  rw [addHandle]
  split_ifs <;> rfl

@[simp] theorem curlm_addHandle : (s.addHandle curl).curlm = s.curlm := by
  rw [addHandle]
  split_ifs <;> rfl

@[simp] theorem alive_insertHandler : (s.insertHandler curl).alive = s.alive := by
  rw [insertHandler]
  split_ifs <;> rfl

@[simp] theorem fault_insertHandler : (s.insertHandler curl).fault = s.fault := by
  rw [insertHandler]
  split_ifs <;> rfl

@[simp] theorem alive_deleteEvent : (s.deleteEvent event).alive = s.alive := by
  cases event <;> rfl

@[simp] theorem fault_deleteEvent : (s.deleteEvent event).fault = s.fault := by
  cases event <;> rfl

@[simp] theorem curlm_deleteEvent : (s.deleteEvent event).curlm = s.curlm := by
  cases event <;> rfl

@[simp] theorem timer_deleteEvent : (s.deleteEvent event).timer = s.timer := by
  cases event <;> rfl

@[simp] theorem point_deleteEvent : (s.deleteEvent event).point = s.point := by
  cases event <;> rfl

@[simp] theorem handled_deleteEvent : (s.deleteEvent event).handled = s.handled := by
  cases event <;> rfl

@[simp] theorem release_mem_deleteEvent :
    .release (.easy curl) () ∈ (s.deleteEvent event).log ↔ .release (.easy curl) () ∈ s.log := by
  cases event <;> simp [deleteEvent, record]

@[simp] theorem alive_check (error : Option (List UInt8)) : (s.check error).alive = s.alive := by
  cases error <;> rfl

@[simp] theorem fault_check (error : Option (List UInt8)) : (s.check error).fault = s.fault := by
  cases error <;> rfl

@[simp] theorem timer_check (error : Option (List UInt8)) : (s.check error).timer = s.timer := by
  cases error <;> rfl

@[simp] theorem curlm_check (error : Option (List UInt8)) : (s.check error).curlm = s.curlm := by
  cases error <;> rfl

@[simp] theorem point_check (error : Option (List UInt8)) : (s.check error).point = s.point := by
  cases error <;> rfl

theorem alive_access {f : Loop → Loop} (h : (f s).alive = s.alive) :
    (s.access f).alive = s.alive := by
  rw [access]
  split_ifs
  · exact h
  · rfl

@[simp] theorem point_freeCurl (thrown : Option Thrown) (more : Bool) :
    (s.freeCurl curl thrown more).point = .removing curl thrown more := by
  rw [freeCurl, access]
  split_ifs
  · simp
  · rfl

@[simp] theorem point_restartTimer (n : ℕ) : (s.restartTimer n).point = s.point := by
  rw [restartTimer]
  cases s.timer with
  | none => rfl
  | some timer =>
    dsimp only
    split_ifs
    all_goals rfl

end Frame

/-- The runner behind its destructor. -/
theorem destroy_fields (s : Loop) : s.destroy.alive = false ∧ s.destroy.point = s.point ∧
    s.destroy.registering = s.registering ∧ s.destroy.handlers = s.handlers ∧
    s.destroy.dugouts = s.dugouts ++ [(s.nextEvent, .cleanup)] ∧ s.destroy.curlm = s.curlm ∧
    s.destroy.added = s.added ∧ s.destroy.fault = s.fault := by
  rw [destroy]
  cases s.timer with
  | none => exact ⟨rfl, rfl, rfl, rfl, rfl, rfl, rfl, rfl⟩
  | some timer => exact ⟨rfl, rfl, rfl, rfl, rfl, rfl, rfl, rfl⟩

/-! ## What a step cannot undo -/

/-- What is destroyed stays so, and what is undefined. -/
structure Later (s s' : Loop) : Prop where
  alive : s'.alive = true → s.alive = true
  fault : s.fault = true → s'.fault = true

section Later

variable {s s' s'' : Loop} {l : Label}

theorem Later.of_eq (halive : s'.alive = s.alive) (hfault : s'.fault = s.fault) : Later s s' :=
  ⟨fun h => halive ▸ h, fun h => hfault.trans h⟩

theorem Later.trans (h : Later s s') (h' : Later s' s'') : Later s s'' :=
  ⟨fun halive => h.alive (h'.alive halive), fun hfault => h'.fault (h.fault hfault)⟩

/-- What the two are about is the same in another state before. -/
theorem Later.after (h : Later s' s'') (halive : s'.alive = s.alive) (hfault : s'.fault = s.fault) :
    Later s s'' :=
  Later.trans (.of_eq halive hfault) h

theorem later_access {f : Loop → Loop} (h : Later s (f s)) : Later s (s.access f) := by
  rw [access]
  split_ifs
  · exact h
  · exact ⟨id, fun _ => rfl⟩

theorem later_useCurlm (s : Loop) : Later s s.useCurlm :=
  ⟨id, fun h => by rw [useCurlm, h, Bool.true_or]⟩

theorem later_restartTimer (s : Loop) (n : ℕ) : Later s (s.restartTimer n) := by
  rw [restartTimer]
  cases s.timer with
  | none => exact ⟨id, fun _ => rfl⟩
  | some timer =>
    dsimp only
    split_ifs
    all_goals exact .of_eq rfl rfl

theorem later_init (s : Loop) (multiInit : MultiInit) : Later s (s.init multiInit) := by
  cases multiInit with
  | null => exact .of_eq rfl rfl
  | setoptFails => exact .of_eq rfl rfl
  | ok =>
    rw [init_ok]
    exact (later_restartTimer _ _).after rfl rfl

theorem later_freeCurl (s : Loop) (curl : ℕ) (thrown : Option Thrown) (more : Bool) :
    Later s (s.freeCurl curl thrown more) := by
  have hin : Later s { s with point := .removing curl thrown more } := .of_eq rfl rfl
  refine hin.trans (later_access ⟨fun halive => ?_, fun hfault => ?_⟩)
  · rw [alive_removeHandle] at halive
    exact (alive_deleteEvent _ _).symm.trans halive
  · rw [fault_removeHandle]
    exact (later_useCurlm _).fault ((fault_deleteEvent _ _).trans hfault)

theorem later_readMessage (s : Loop) : Later s s.readMessage := by
  rw [readMessage]
  split
  · exact .of_eq rfl rfl
  · dsimp only
    split_ifs
    · exact .of_eq rfl rfl
    · exact (later_freeCurl _ _ _ _).after rfl rfl

theorem Returns.later {error : Option (List UInt8)} {logThrows : Bool}
    (hr : Returns s error logThrows s') : Later s s' := by
  cases hr with
  | add hp => exact .of_eq rfl rfl
  | evSocketCB hp =>
    have hcheck : Later s (s.access (check error)) :=
      later_access (.of_eq (alive_check s error) (fault_check s error))
    split_ifs
    · exact hcheck.trans (.of_eq rfl rfl)
    · exact .of_eq rfl rfl
  | evTimerCB hp =>
    have hidle : Later s { s with point := .idle } := .of_eq rfl rfl
    refine hidle.trans (later_access (.of_eq ?_ ?_))
    · exact alive_check _ error
    · exact fault_check _ error
  | removing hp =>
    rw [afterFree.eq_def]
    split
    all_goals exact .of_eq rfl rfl

/-- **No step undoes** the destruction, or undefined behaviour. -/
theorem later_step (hx : step l s = some s') : Later s s' := by
  cases moves_of_step hx with
  | tick => exact .of_eq rfl rfl
  | multi => exact later_access (.of_eq (by simp) (by simp))
  | @doInEv curl _ =>
    have hleave : Later s { s with registering := s.registering.filter (· ≠ curl) } :=
      .of_eq rfl rfl
    exact hleave.trans (later_access (.of_eq rfl rfl))
  | run => exact later_access (.of_eq rfl rfl)
  | destroy halive =>
    refine ⟨fun _ => halive, fun hfault => ?_⟩
    rw [destroy]
    cases s.timer <;> exact hfault
  | @runTask event task multiInit _ _ =>
    cases task with
    | init =>
      exact (later_access (later_init (s.take event) multiInit)).after rfl rfl
    | add curl =>
      have hadd : Later (s.take event) ((s.take event).useCurlm.addHandle curl) :=
        (later_useCurlm _).trans (.of_eq (alive_addHandle _ curl) (fault_addHandle _ curl))
      have hgo : Later (s.take event) { (s.take event).useCurlm.addHandle curl with
          point := if s.curlm = .live then .inCurl .add else .idle } :=
        hadd.trans (.of_eq rfl rfl)
      exact (later_access (f := fun s => { s.useCurlm.addHandle curl with
        point := if s.curlm = .live then .inCurl .add else .idle }) hgo).after rfl rfl
    | cleanup => exact .of_eq rfl rfl
  | evTimerCB => exact later_access (Later.trans (later_useCurlm s) (.of_eq rfl rfl))
  | evSocketCB => exact later_access (Later.trans (later_useCurlm s) (.of_eq rfl rfl))
  | @curlSocketCB easy what _ =>
    refine later_access ?_
    split_ifs
    · refine Later.trans ?_ (later_restartTimer _ _)
      cases s.handlers.lookup easy with
      | none => exact .of_eq rfl rfl
      | some event => exact .of_eq (alive_deleteEvent s event) (fault_deleteEvent s event)
    · split
      all_goals exact .of_eq rfl rfl
  | @curlTimerCB timeoutMs error logThrows _ =>
    rw [curlTimerCB]
    split_ifs
    · exact .of_eq rfl rfl
    · refine later_access ⟨fun halive => ?_, fun hfault => ?_⟩
      · exact (alive_check s error).symm.trans halive
      · show (s.fault || error.isSome && logThrows) = true
        rw [hfault, Bool.true_or]
    · exact later_access (later_restartTimer s _)
  | finish => exact .of_eq rfl rfl
  | curlReturns hr => exact hr.later
  | read =>
    have hidle : Later s { s with point := .idle } := .of_eq rfl rfl
    exact hidle.trans (later_access (Later.trans (later_useCurlm _) (later_readMessage _)))
  | handlerEnds => exact later_freeCurl _ _ _ _
  | jobsEnd =>
    have hidle : Later s { s with point := .idle } := .of_eq rfl rfl
    exact hidle.trans (later_access (later_restartTimer _ _))
  | jobsEscape => exact .of_eq rfl rfl
  | @clean curl _ _ _ =>
    refine Later.trans (later_useCurlm s) (.of_eq ?_ ?_)
    · exact alive_removeHandle _ curl
    · exact fault_removeHandle _ curl
  | cleaned =>
    rw [cleaned]
    split_ifs
    · exact .of_eq rfl rfl
    · exact Later.trans (later_useCurlm s) (.of_eq rfl rfl)

theorem later_of_steps {guard : Label → Loop → Prop} {ls : List Label}
    (hr : Steps step guard s ls s') : Later s s' :=
  hr.invariant (I := Later s) (fun _ _ _ h _ hx => h.trans (later_step hx)) (.of_eq rfl rfl)

end Later

end Loop

end Glim.Runner
