import Glim.Thread.Steps
import Mathlib.Data.Int.Notation

/-!
# The lifetime of the cURL runner

The constructor starts the run thread, and the creator takes the first reference after that.
Owners copy and release references, and push handles into the queue. The last release and the
end of the run thread decide between them who deletes the runner, from `_references` and
`_running`; every read and write of these is a step of its own. A step that accesses the runner
after it has been deleted is recorded.

## Main definitions

* `RunnerV2`: the members of the runner, and what has happened to it
* `RunnerV2.RunPoint`, `RunnerV2.OwnerPoint`: where the run thread and an owner are
* `RunnerV2.stepRun`, `RunnerV2.stepOwner`, `RunnerV2.step`: their steps
-/

namespace Glim

open Thread

/-- `_references`, `_running` and `_queue`; the handles that were added to cURL and those that were
pushed; how many times the runner was deleted, and whether it was accessed after that. -/
structure RunnerV2 where
  references : ℤ := 0
  running : Bool := false
  queue : List ℕ := []
  added : List ℕ := []
  pushed : List ℕ := []
  deletions : ℕ := 0
  usedAfter : Bool := false

namespace RunnerV2

/-- A step reads or writes a member. -/
def access (o : RunnerV2) : RunnerV2 := { o with usedAfter := o.usedAfter || 0 < o.deletions }

/-- `delete this`. -/
def delete (o : RunnerV2) : RunnerV2 := { o with deletions := o.deletions + 1 }

/-- Where the run thread is. -/
inductive RunPoint where
  /-- Before `if (_references <= 0) GTHROW`. -/
  | starting
  /-- Before `_running = true`. -/
  | checked
  /-- Before `_multi = curl_multi_init ()`. -/
  | initMulti
  /-- Before `_eventFd = eventfd (..)`. -/
  | initEventFd
  /-- Before `while (_references > 0)`. -/
  | looping
  /-- Before the next `_queue.pop (easy)`. -/
  | draining
  /-- Before the rest of the loop. -/
  | performing
  /-- Before `if (_running`, at the end or after an exception. -/
  | exiting
  /-- Before `&& _references == 0)`. -/
  | exitRunning
  /-- Before `delete this`. -/
  | deleting
  /-- Before `else _running = false`. -/
  | stopping
  | ended
  deriving DecidableEq, Repr

/-- What the run thread does: its next step, or that it throws an exception. -/
inductive RunAction where
  | go
  | throws
  deriving DecidableEq, Repr

/-- Where an owner is. -/
inductive OwnerPoint where
  | none
  /-- The creator, in `instance ()`, before `++ runner->_references`. -/
  | creating
  | holding
  /-- Before `!runner->_running`, having decremented `_references` to zero. -/
  | released
  /-- Before `delete runner`. -/
  | deleting
  deriving DecidableEq, Repr

/-- What an owner does. -/
inductive OwnerAction (ι : Type) where
  /-- The next step of taking the first reference, or of releasing the last one. -/
  | go
  /-- Copy the reference for another owner. -/
  | copy (other : ι)
  /-- `addToCURLM (easyHandle)`. -/
  | push (easyHandle : ℕ)
  | release

/-- The capacity of `_queue`. -/
def capacity : ℕ := 64

/-- The steps of the run thread. -/
def stepRun : RunPoint → RunAction → RunnerV2 → Option (RunnerV2 × RunPoint)
  | .starting, .go, o => some (o, if o.references ≤ 0 then .exiting else .checked)
  | .checked, .go, o => some ({ o with running := true }, .initMulti)
  | .initMulti, .go, o => some (o, .initEventFd)
  | .initMulti, .throws, o => some (o, .exiting)
  | .initEventFd, .go, o => some (o, .looping)
  | .initEventFd, .throws, o => some (o, .exiting)
  | .looping, .go, o => some (o, if 0 < o.references then .draining else .exiting)
  | .draining, .go, o =>
    match o.queue with
    | [] => some (o, .performing)
    | easy :: queue => some ({ o with queue, added := o.added ++ [easy] }, .draining)
  | .draining, .throws, o => some (o, .exiting)
  | .performing, .go, o => some (o, .looping)
  | .performing, .throws, o => some (o, .exiting)
  | .exiting, .go, o => some (o, if o.running then .exitRunning else .stopping)
  | .exitRunning, .go, o => some (o, if o.references = 0 then .deleting else .stopping)
  | .deleting, .go, o => some (o.delete, .ended)
  | .stopping, .go, o => some ({ o with running := false }, .ended)
  | _, _, _ => none

variable {ι : Type}

/-- The runner, its run thread and its owners. -/
structure State (ι : Type) where
  object : RunnerV2
  run : RunPoint
  owner : ι → OwnerPoint

/-- Who takes a step, and which one. -/
inductive Label (ι : Type) where
  | run (a : RunAction)
  | owner (t : ι) (a : OwnerAction ι)

variable [DecidableEq ι]

/-- The owner goes to a point, and leaves the object. -/
def State.move (s : State ι) (t : ι) (o : RunnerV2) (p : OwnerPoint) : State ι :=
  { s with object := o, owner := Function.update s.owner t p }

/-- The steps of an owner. -/
def stepOwner (t : ι) (a : OwnerAction ι) (o : RunnerV2) (s : State ι) : Option (State ι) :=
  match s.owner t, a with
  -- `intrusive_ptr_add_ref`
  | .creating, .go => some (s.move t { o with references := o.references + 1 } .holding)
  | .holding, .copy u =>
    if s.owner u = .none then
      some (s.move u { o with references := o.references + 1 } .holding)
    else none
  | .holding, .push easyHandle =>
    -- a full queue is an exception of `addToCURLM`
    if o.queue.length < capacity then
      some { s with object := { o with
        queue := o.queue ++ [easyHandle]
        pushed := o.pushed ++ [easyHandle] } }
    else some { s with object := o }
  -- `intrusive_ptr_release`
  | .holding, .release =>
    some (s.move t { o with references := o.references - 1 }
      (if o.references - 1 = 0 then .released else .none))
  | .released, .go => some (s.move t o (if o.running then .none else .deleting))
  | .deleting, .go => some (s.move t o.delete .none)
  | _, _ => none

/-- The steps of all: each of them accesses the runner. -/
def step : Label ι → State ι → Option (State ι)
  | .run a, s =>
    (stepRun s.run a s.object.access).map fun r => { s with object := r.1, run := r.2 }
  | .owner t a, s => stepOwner t a s.object.access s

/-- The constructor has started the run thread, and the creator has no reference yet. -/
def start (creator : ι) : State ι :=
  ⟨{}, .starting, Function.update (fun _ => .none) creator .creating⟩

end RunnerV2

end Glim
