import Glim.Machine.Accounts
import Glim.Runner.Finished
import Glim.RunnerV2.Basic

/-!
# The transfers of the cURL runner

Any thread pushes easy handles into the queue; the run thread adds them to its multi handle, and
when cURL has finished a transfer it calls the listener that `CURLOPT_PRIVATE` points to, and then
removes and frees what the listener wants to have removed and freed. What cURL, the listeners and
the other threads do next is the label of a step. Whatever is made and freed is entered in a ledger.

## Main definitions

* `FreeOptions`, `information`: what a listener asks for
* `Transfers`: the queue, the multi handle, the listeners, and the ledger
* `Transfers.Label`, `Transfers.step`: the steps
* `Transfers.Contract`: what the users of the runner adhere to
-/

namespace Glim.RunnerV2

open Machine Thread

/-- `CurlmInformationListener::FreeOptions`. -/
abbrev FreeOptions : Type := BitVec 3

def REMOVE_CURL_FROM_CURLM : FreeOptions := 1
def CURL_CLEANUP : FreeOptions := 2
def DELETE_LISTENER : FreeOptions := 4

/-- `fop & option`. -/
def FreeOptions.has (fop option : FreeOptions) : Bool := fop &&& option ≠ 0

/-- `information (msg, curlm)` of a `FunCurlmLisneter`, whose function returns or throws, or of
another listener. -/
def information (freeOptions : Option FreeOptions) (r : Except Thrown FreeOptions) :
    Except Thrown FreeOptions :=
  match freeOptions, r with
  | none, r => r
  | some _, .error .other => .error .other
  | some freeOptions, _ => .ok freeOptions

/-- An easy handle that was pushed: the number of the push, and the listener that the handle had
then. -/
structure Transfer where
  number : ℕ
  curl : ℕ
  listener : ℕ
  deriving DecidableEq, Repr

/-- What is made and freed. -/
inductive Resource where
  | easy (curl : ℕ)
  | listener (id : ℕ)
  deriving DecidableEq, Repr

/-- A transfer uses its easy handle until that has been removed, and its listener until that has
been informed. -/
inductive Link where
  | uses (t : Transfer)
  | informs (t : Transfer)
  deriving DecidableEq, Repr

namespace Transfers

/-- Where the run thread is. -/
inductive Point where
  /-- Before `while (_references > 0)`. -/
  | looping
  /-- Before the next `_queue.pop (easy)`. -/
  | popping
  /-- In `curl_multi_perform`. -/
  | performing
  /-- Before `curl_multi_info_read`. -/
  | reading
  /-- In `information`, and whether there are messages left. -/
  | informing (t : Transfer) (id : ℕ) (left : Bool)
  /-- Behind the finished handles. -/
  | waiting
  | ended
  deriving DecidableEq, Repr

/-- What happens next. -/
inductive Label where
  /-- `curl_easy_init`. -/
  | easyInit (curl : ℕ)
  /-- A user makes a `CurlmInformationListener`. -/
  | newListener
  /-- `curl_easy_setopt (curl, CURLOPT_PRIVATE, ..)`, with a listener of the user. -/
  | setPrivate (curl id : ℕ)
  /-- `addToCURLM (easyHandle)`. -/
  | addToCURLM (curl : ℕ)
  /-- `addToCURLM (easyHandle, listener, freeOptions)`. -/
  | addListener (curl : ℕ) (freeOptions : FreeOptions)
  /-- `curl_easy_cleanup` by a user. -/
  | easyCleanup (curl : ℕ)
  /-- A user deletes a listener. -/
  | deleteListener (id : ℕ)
  /-- The loop goes on while there are references. -/
  | loop (references : Bool)
  /-- The next `_queue.pop (easy)`, and whether `curl_multi_add_handle` adds the handle. -/
  | pop (added : Bool)
  /-- `curl_multi_perform` finishes a transfer. -/
  | finish (t : Transfer)
  | performed
  /-- `curl_multi_info_read`, and whether `curl_easy_getinfo` gives the listener. -/
  | read (getinfo : Bool)
  /-- A listener removes its handle from the multi handle. -/
  | removeHandle
  | informs (r : Except Thrown FreeOptions)
  | waited

end Transfers

/-- The easy handles and the listeners that are there; the `_freeOptions` of a `FunCurlmLisneter`,
or that a listener is another one; `CURLOPT_PRIVATE`; `_queue`; the transfers in the multi handle,
before and after their messages were read, and the messages. The transfers that were pushed, were
finished, had their messages read, and how they ended: that cURL did not take the handle, that it
did not give the listener, or that a listener was informed. `terminated` is `std::terminate`. -/
structure Transfers where
  easies : List ℕ := []
  alive : List ℕ := []
  freeOptions : ℕ → Option (Option FreeOptions) := fun _ => none
  priv : ℕ → Option ℕ := fun _ => none
  queue : List Transfer := []
  running : List Transfer := []
  kept : List Transfer := []
  messages : List Transfer := []
  point : Transfers.Point := .looping
  terminated : Bool := false
  fault : Bool := false
  pushed : List Transfer := []
  finished : List Transfer := []
  read : List Transfer := []
  lost : List Transfer := []
  unread : List Transfer := []
  informed : List (Transfer × ℕ) := []
  nextListener : ℕ := 0
  log : List (Entry Resource Link Unit) := []

namespace Transfers

/-- The transfer whose listener is being informed. -/
@[simp] def Point.current : Point → List Transfer
  | .informing t _ _ => [t]
  | _ => []

def current (s : Transfers) : List Transfer := s.point.current

/-- `new` of a listener. -/
def newListener (freeOptions : Option FreeOptions) (s : Transfers) : Transfers :=
  { s with
    alive := s.nextListener :: s.alive
    freeOptions := Function.update s.freeOptions s.nextListener (some freeOptions)
    nextListener := s.nextListener + 1
    log := .acquire (.listener s.nextListener) :: s.log }

/-- `addToCURLM (easyHandle)`: the exception of a full queue leaves all as it was. -/
def addToCURLM (curl : ℕ) (s : Transfers) : Transfers :=
  if s.queue.length < capacity then
    let t : Transfer := ⟨s.pushed.length, curl, (s.priv curl).getD 0⟩
    { s with
      queue := s.queue ++ [t]
      pushed := s.pushed ++ [t]
      log := .attach (.informs t) (.listener t.listener) ::
        .attach (.uses t) (.easy curl) :: s.log }
  else s

/-- `addToCURLM (easyHandle, listener, freeOptions)`. -/
def addListener (curl : ℕ) (freeOptions : FreeOptions) (s : Transfers) : Transfers :=
  { s.newListener (some freeOptions) with
    priv := Function.update s.priv curl (some s.nextListener) }.addToCURLM curl

/-- `curl_easy_cleanup`. -/
def easyCleanup (curl : ℕ) (s : Transfers) : Transfers :=
  { s with easies := s.easies.filter (· ≠ curl), log := .release (.easy curl) () :: s.log }

/-- `delete listener`. -/
def deleteListener (id : ℕ) (s : Transfers) : Transfers :=
  { s with alive := s.alive.filter (· ≠ id), log := .release (.listener id) () :: s.log }

/-- `curl_multi_remove_handle`, of a handle that was finished. -/
def removeHandle (t : Transfer) (s : Transfers) : Transfers :=
  if t ∈ s.kept then
    { s with kept := s.kept.filter (· ≠ t), log := .detach (.uses t) :: s.log }
  else s

/-- `_queue.pop (easy)`, and `curl_multi_add_handle`. -/
def pop (added : Bool) (s : Transfers) : Transfers :=
  match s.queue with
  | [] => { s with point := .performing }
  | t :: queue =>
    if t.curl ∉ s.easies then { s with fault := true }
    else if added then { s with queue, running := t :: s.running }
    -- the result is ignored
    else { s with
      queue
      lost := t :: s.lost
      log := .detach (.informs t) :: .detach (.uses t) :: s.log }

/-- `if (messagesLeft == 0) break;` -/
def next (left : Bool) : Point := if left then .reading else .waiting

@[simp] theorem current_next (left : Bool) : (next left).current = [] := by cases left <;> rfl

/-- `curl_multi_info_read` and `curl_easy_getinfo`. -/
def readMessage (getinfo : Bool) (s : Transfers) : Transfers :=
  match s.messages with
  | [] => { s with point := .waiting }
  | t :: messages =>
    let s := { s with
      messages
      running := s.running.filter (· ≠ t)
      read := s.read ++ [t] }
    if getinfo then
      match s.priv t.curl with
      | some id =>
        if id ∈ s.alive then
          { s with kept := t :: s.kept, point := .informing t id (messages ≠ []) }
        else { s with fault := true }
      | none => { s with fault := true }
    else
      -- `curl_multi_remove_handle (_multi, curl); curl_easy_cleanup (curl);`
      { s with
        easies := s.easies.filter (· ≠ t.curl)
        unread := t :: s.unread
        point := next (messages ≠ [])
        log := .release (.easy t.curl) () :: .detach (.informs t) :: .detach (.uses t) :: s.log }

/-- What the listener has asked for. -/
def free (fop : FreeOptions) (t : Transfer) (id : ℕ) (s : Transfers) : Transfers :=
  let s := if fop.has REMOVE_CURL_FROM_CURLM then s.removeHandle t else s
  let s := if fop.has CURL_CLEANUP then s.easyCleanup t.curl else s
  if fop.has DELETE_LISTENER then s.deleteListener id else s

/-- `information` ends. -/
def informs (r : Except Thrown FreeOptions) (t : Transfer) (id : ℕ) (left : Bool) (s : Transfers) :
    Transfers :=
  let done := { s with
    point := next left
    informed := (t, id) :: s.informed
    log := .detach (.informs t) :: s.log }
  match information (s.freeOptions id).join r with
  | .ok fop => done.free fop t id
  -- the exception is logged
  | .error (.exception _) => done
  -- `run` is `noexcept`
  | .error .other => { s with terminated := true }

/-- The steps, unless the process was terminated. -/
def step (l : Label) (s : Transfers) : Option Transfers :=
  if s.terminated then none
  else match l with
  | .easyInit curl =>
    if .acquire (.easy curl) ∈ s.log then none
    else some { s with easies := curl :: s.easies, log := .acquire (.easy curl) :: s.log }
  | .newListener => some (s.newListener none)
  | .setPrivate curl id =>
    if s.freeOptions id = some none then
      some { s with priv := Function.update s.priv curl (some id) }
    else none
  | .addToCURLM curl => some (s.addToCURLM curl)
  | .addListener curl freeOptions => some (s.addListener curl freeOptions)
  | .easyCleanup curl => some (s.easyCleanup curl)
  | .deleteListener id =>
    if s.freeOptions id = some none then some (s.deleteListener id) else none
  | .loop references =>
    if s.point = .looping then some { s with point := if references then .popping else .ended }
    else none
  | .pop added => if s.point = .popping then some (s.pop added) else none
  | .finish t =>
    if s.point = .performing ∧ t ∈ s.running ∧ t ∉ s.messages then
      some { s with messages := s.messages ++ [t], finished := s.finished ++ [t] }
    else none
  | .performed => if s.point = .performing then some { s with point := .reading } else none
  | .read getinfo => if s.point = .reading then some (s.readMessage getinfo) else none
  | .removeHandle =>
    match s.point with
    | .informing t _ _ => some (s.removeHandle t)
    | _ => none
  | .informs r =>
    match s.point with
    | .informing t id left => some (s.informs r t id left)
    | _ => none
  | .waited => if s.point = .waiting then some { s with point := .looping } else none

/-- The runner has to do with the easy handle. -/
def involved (s : Transfers) : List Transfer := s.queue ++ s.running ++ s.kept ++ s.current

/-- The transfers whose listener has not been informed. -/
def pending (s : Transfers) : List Transfer := s.queue ++ s.running ++ s.current

/-- The easy handle is there, and the runner has nothing to do with it. -/
def Free (s : Transfers) (curl : ℕ) : Prop :=
  curl ∈ s.easies ∧ ∀ t ∈ s.involved, t.curl ≠ curl

/-- A listener that wants to have its handle freed has removed it, or wants that, too; and a
listener of a user that wants to be deleted has no other transfer. -/
def Allows (s : Transfers) (t : Transfer) (fop : FreeOptions) : Prop :=
  (fop.has CURL_CLEANUP → fop.has REMOVE_CURL_FROM_CURLM ∨ t ∉ s.kept) ∧
    (fop.has DELETE_LISTENER → (s.freeOptions t.listener).join = none →
      ∀ u ∈ s.pending, u ≠ t → u.listener ≠ t.listener)

/-- The users give and free easy handles that the runner has nothing to do with, and a handle that
is given has a listener. -/
def Contract : Label → Transfers → Prop
  | .setPrivate curl _, s => s.Free curl
  | .addToCURLM curl, s => s.Free curl ∧ ∃ id ∈ s.alive, s.priv curl = some id
  | .addListener curl _, s => s.Free curl
  | .easyCleanup curl, s => s.Free curl
  | .deleteListener id, s => id ∈ s.alive ∧ ∀ t ∈ s.pending, t.listener ≠ id
  | .informs r, s => ∀ t ∈ s.current, ∀ fop,
    information (s.freeOptions t.listener).join r = .ok fop → s.Allows t fop
  | _, _ => True

instance instDecidableAllows (s : Transfers) (t : Transfer) (fop : FreeOptions) :
    Decidable (s.Allows t fop) :=
  inferInstanceAs (Decidable (_ ∧ _))

instance instDecidableFree (s : Transfers) (curl : ℕ) : Decidable (s.Free curl) :=
  inferInstanceAs (Decidable (_ ∧ _))

instance instDecidableOk {α : Type} (r : Except Thrown α) (p : α → Prop) [DecidablePred p] :
    Decidable (∀ a, r = .ok a → p a) :=
  match r with
  | .ok a => decidable_of_iff (p a) ⟨fun h _ ha => Except.ok.inj ha ▸ h, fun h => h a rfl⟩
  | .error _ => isTrue (by rintro a ⟨⟩)

instance instDecidableContract (l : Label) (s : Transfers) : Decidable (Contract l s) :=
  match l with
  | .setPrivate curl _ | .addListener curl _ | .easyCleanup curl =>
    inferInstanceAs (Decidable (s.Free curl))
  | .addToCURLM curl =>
    inferInstanceAs (Decidable (s.Free curl ∧ ∃ id ∈ s.alive, s.priv curl = some id))
  | .deleteListener id =>
    inferInstanceAs (Decidable (id ∈ s.alive ∧ ∀ t ∈ s.pending, t.listener ≠ id))
  | .informs r => inferInstanceAs (Decidable (∀ t ∈ s.current, ∀ fop,
    information (s.freeOptions t.listener).join r = .ok fop → s.Allows t fop))
  | .easyInit _ | .newListener | .loop _ | .pop _ | .finish _ | .performed | .read _
  | .removeHandle | .waited => inferInstanceAs (Decidable True)

end Transfers

end Glim.RunnerV2
