import Glim.Runner.Basic
import Glim.Text.Radix
import Mathlib.Tactic.MkIffOfInductiveProp

/-!
# Finished transfers

`checkForFinishedCurlJobs` takes the messages of the finished transfers from the queue, one after
the other, calls the handler of each transfer and frees it. An exception of a handler ends the loop,
so that the messages behind it stay in the queue.

## Main definitions

* `Thrown`: what is thrown
* `Runner.Transfers`: the handlers of the transfers, and what was done with these
* `Runner.checkForFinishedCurlJobs`: the loop over the messages
* `Runner.Drained`: what is to be done with the transfers of a queue

## Main results

* `Runner.checkForFinishedCurlJobs_cons`: the turn of a handler that returns
* `Runner.drained_iff`: the queue is drained exactly if no handler throws but the last one
-/

namespace Glim

open Text Table

/-- What is thrown: a `std::exception`, or something of another type. -/
inductive Thrown where
  | exception (what : List UInt8)
  | other
  deriving DecidableEq

namespace Runner

/-- A handler of a transfer: what it throws, if it does, and what it does to the jobs. -/
structure Handler where
  throws : Option Thrown := none
  does : Runner → Runner := id

/-- What happens to a transfer, and to an error. -/
inductive Event where
  | handled (curl : ℕ)
  /-- `curl_multi_remove_handle`. -/
  | removed (curl : ℕ)
  /-- `curl_easy_cleanup`. -/
  | cleaned (curl : ℕ)
  /-- `_errlog`. -/
  | logged (error : List UInt8)
  deriving DecidableEq

/-- `_handlers`, the jobs, and what has happened. -/
structure Transfers where
  handlers : SortedMap ℕ Handler := .empty
  runner : Runner := {}
  events : List Event := []

/-- The queue of the finished transfers. Each of them has one message. -/
structure Messages where
  curls : List ℕ
  nodup : curls.Nodup

/-- What appending a text to the string of an error throws, and what `_errlog` throws for it. -/
structure ErrLog where
  appends : List UInt8 → Option Thrown := fun _ => none
  logs : List UInt8 → Option Thrown := fun _ => none

/-- How `checkForFinishedCurlJobs` ends: what it throws, and the messages that are left. -/
structure Checked where
  thrown : Option Thrown
  left : List ℕ
  transfers : Transfers

namespace Transfers

/-- The exception of the handler of a transfer. -/
def throws (curl : ℕ) (s : Transfers) : Option Thrown :=
  (s.handlers.lookup curl).bind Handler.throws

/-- `it->second.first (msg)`, if there is a handler. -/
def handle (curl : ℕ) (s : Transfers) : Transfers :=
  match s.handlers.lookup curl with
  | none => s
  | some handler =>
    { s with runner := handler.does s.runner, events := s.events ++ [.handled curl] }

/-- `~FreeCurl`. -/
def freeCurl (curl : ℕ) (s : Transfers) : Transfers :=
  { s with
    handlers := s.handlers.erase curl
    events := s.events ++ [.removed curl, .cleaned curl] }

/-- An error is put together, and logged. -/
def log (e : ErrLog) (error : List UInt8) (s : Transfers) : Option Thrown × Transfers :=
  match e.appends error with
  | some thrown => (some thrown, s)
  | none => (e.logs error, { s with events := s.events ++ [.logged error] })

end Transfers

/-- The text of the exception of a handler. -/
def handlerError (what : List UInt8) : List UInt8 := ascii "glim::Runner: handler: " ++ what

/-- `checkForFinishedCurlJobs ()`, with these messages in the queue. -/
def checkForFinishedCurlJobs (e : ErrLog) : List ℕ → Transfers → Checked
  | [], s => ⟨none, [], s⟩
  | curl :: messages, s =>
    let thrown := s.throws curl
    -- the guard frees the transfer on every way out of the block
    let s := (s.handle curl).freeCurl curl
    match thrown with
    | none =>
      if 0 < messages.length then checkForFinishedCurlJobs e messages s else ⟨none, messages, s⟩
    | some (.exception what) =>
      let (thrown, s) := s.log e (handlerError what)
      ⟨thrown, messages, s⟩
    | some .other => ⟨some .other, messages, s⟩

/-- The event is an error. -/
def Event.isLogged : Event → Bool
  | .logged _ => true
  | _ => false

/-- The handler of each transfer in the queue was called once if it has one, the transfer was
removed and cleaned up once, and its entry is gone; as many errors were logged as handlers have
thrown exceptions. Nothing was done with the other transfers. -/
@[mk_iff drained_def]
structure Drained (messages : List ℕ) (s s' : Transfers) : Prop where
  handled : ∀ curl, s'.events.count (.handled curl) = s.events.count (.handled curl) +
    if curl ∈ messages ∧ (s.handlers.lookup curl).isSome then 1 else 0
  removed : ∀ curl, s'.events.count (.removed curl) = s.events.count (.removed curl) +
    if curl ∈ messages then 1 else 0
  cleaned : ∀ curl, s'.events.count (.cleaned curl) = s.events.count (.cleaned curl) +
    if curl ∈ messages then 1 else 0
  handlers : ∀ curl, s'.handlers.lookup curl =
    if curl ∈ messages then none else s.handlers.lookup curl
  logged : s'.events.countP Event.isLogged = s.events.countP Event.isLogged +
    messages.countP fun curl => (s.throws curl).isSome

/-- The exception of a handler is logged. -/
def ErrLog.Logs (e : ErrLog) : Thrown → Prop
  | .exception what => e.appends (handlerError what) = none
  | .other => False

/-! ## One transfer -/

section Turn

variable {e : ErrLog} {curl : ℕ} {messages : List ℕ} {s s' : Transfers}

/-- The transfer `curl` has been handled and freed. -/
abbrev Transfers.turn (curl : ℕ) (s : Transfers) : Transfers := (s.handle curl).freeCurl curl

theorem handlers_turn (curl : ℕ) (s : Transfers) :
    (s.turn curl).handlers = s.handlers.erase curl := by
  unfold Transfers.turn Transfers.handle Transfers.freeCurl
  cases s.handlers.lookup curl <;> rfl

theorem lookup_turn (c : ℕ) : (s.turn curl).handlers.lookup c =
    if c = curl then none else s.handlers.lookup c := by
  rw [handlers_turn, SortedMap.lookup_erase]

theorem throws_turn (c : ℕ) : (s.turn curl).throws c = if c = curl then none else s.throws c := by
  unfold Transfers.throws
  rw [lookup_turn]
  split_ifs <;> rfl

theorem events_turn (curl : ℕ) (s : Transfers) : (s.turn curl).events = s.events ++
    ((s.handlers.lookup curl).toList.map fun _ => .handled curl) ++
      [.removed curl, .cleaned curl] := by
  unfold Transfers.turn Transfers.handle Transfers.freeCurl
  cases s.handlers.lookup curl with
  | none => simp
  | some handler => simp

theorem count_handled_turn (c : ℕ) : (s.turn curl).events.count (.handled c) =
    s.events.count (.handled c) +
      if c = curl ∧ (s.handlers.lookup c).isSome then 1 else 0 := by
  rw [events_turn]
  by_cases hc : c = curl
  · subst hc
    cases hl : s.handlers.lookup c <;> simp [List.count_append]
  · have hne : Event.handled curl ≠ Event.handled c := fun h => hc (Event.handled.inj h).symm
    cases hl : s.handlers.lookup curl <;> simp [List.count_append, hc, hne]

theorem count_removed_turn (c : ℕ) : (s.turn curl).events.count (.removed c) =
    s.events.count (.removed c) + if c = curl then 1 else 0 := by
  rw [events_turn]
  by_cases hc : c = curl
  · subst hc
    cases s.handlers.lookup c <;> simp [List.count_append]
  · have hne : Event.removed curl ≠ Event.removed c := fun h => hc (Event.removed.inj h).symm
    cases s.handlers.lookup curl <;> simp [List.count_append, hc, hne]

theorem count_cleaned_turn (c : ℕ) : (s.turn curl).events.count (.cleaned c) =
    s.events.count (.cleaned c) + if c = curl then 1 else 0 := by
  rw [events_turn]
  by_cases hc : c = curl
  · subst hc
    cases s.handlers.lookup c <;> simp [List.count_append]
  · have hne : Event.cleaned curl ≠ Event.cleaned c := fun h => hc (Event.cleaned.inj h).symm
    cases s.handlers.lookup curl <;> simp [List.count_append, hc, hne]

theorem countP_logged_turn : (s.turn curl).events.countP Event.isLogged =
    s.events.countP Event.isLogged := by
  rw [events_turn]
  cases s.handlers.lookup curl <;> simp [List.countP_append, Event.isLogged]

/-- Whether a queue was drained, after its first transfer. -/
theorem drained_cons (hcurl : curl ∉ messages) (hthrows : s.throws curl = none) :
    Drained (curl :: messages) s s' ↔ Drained messages (s.turn curl) s' := by
  have hiff : ∀ c, c ∈ curl :: messages ↔ c = curl ∨ c ∈ messages := fun c => List.mem_cons
  -- the counts that are to be reached are the same ones
  have hhandled : ∀ c, (s.events.count (.handled c) +
      if c ∈ curl :: messages ∧ (s.handlers.lookup c).isSome then 1 else 0) =
      (s.turn curl).events.count (.handled c) +
        if c ∈ messages ∧ ((s.turn curl).handlers.lookup c).isSome then 1 else 0 := by
    intro c
    rw [count_handled_turn, lookup_turn]
    by_cases hc : c = curl
    · subst hc
      simp [hcurl]
    · simp [hc]
  have hfreed : ∀ c, (if c ∈ curl :: messages then 1 else 0) =
      (if c = curl then 1 else 0) + if c ∈ messages then 1 else 0 := by
    intro c
    by_cases hc : c = curl
    · subst hc
      simp [hcurl]
    · simp [hc]
  have hlookup : ∀ c, (if c ∈ curl :: messages then none else s.handlers.lookup c) =
      if c ∈ messages then none else (s.turn curl).handlers.lookup c := by
    intro c
    rw [lookup_turn]
    by_cases hc : c = curl
    · subst hc
      simp [hcurl]
    · simp [hc]
  have hlogged : ((curl :: messages).countP fun c => (s.throws c).isSome) =
      messages.countP fun c => ((s.turn curl).throws c).isSome := by
    rw [List.countP_cons_of_neg (by simp [hthrows])]
    refine List.countP_congr fun c hc => ?_
    have hne : c ≠ curl := by
      rintro rfl
      exact hcurl hc
    rw [throws_turn, if_neg hne]
  rw [drained_def, drained_def]
  refine and_congr (forall_congr' fun c => ?_) (and_congr (forall_congr' fun c => ?_)
    (and_congr (forall_congr' fun c => ?_) (and_congr (forall_congr' fun c => ?_) ?_)))
  · rw [hhandled]
  · rw [hfreed, count_removed_turn, Nat.add_assoc]
  · rw [hfreed, count_cleaned_turn, Nat.add_assoc]
  · rw [hlookup]
  · rw [hlogged, countP_logged_turn]

/-- A queue of one transfer whose handler throws is drained if one error is logged after its
turn. -/
theorem drained_singleton (events : List Event) (hthrows : (s.throws curl).isSome)
    (hhandlers : s'.handlers = (s.turn curl).handlers)
    (hevents : s'.events = (s.turn curl).events ++ events)
    (hlogged : ∀ event ∈ events, event.isLogged) : Drained [curl] s s' ↔ events.length = 1 := by
  -- the events behind the turn are logged lines only
  have hcount : ∀ event : Event, event.isLogged = false →
      s'.events.count event = (s.turn curl).events.count event := by
    intro event hevent
    have hnotin : event ∉ events := by
      intro hin
      rw [hlogged event hin] at hevent
      cases hevent
    rw [hevents, List.count_append, List.count_eq_zero.mpr hnotin, Nat.add_zero]
  have hcountP : s'.events.countP Event.isLogged =
      s.events.countP Event.isLogged + events.length := by
    rw [hevents, List.countP_append, countP_logged_turn, List.countP_eq_length.mpr hlogged]
  -- the one handler throws, so one line is to be logged
  have hone : [curl].countP (fun c => (s.throws c).isSome) = 1 := by simp [hthrows]
  constructor
  · intro h
    have heq := h.logged
    rw [hcountP, hone] at heq
    exact Nat.add_left_cancel heq
  -- all else has been done by the turn itself
  · intro hlength
    refine ⟨fun c => ?_, fun c => ?_, fun c => ?_, fun c => ?_, ?_⟩
    · rw [hcount _ rfl, count_handled_turn]
      simp only [List.mem_singleton]
    · rw [hcount _ rfl, count_removed_turn]
      simp only [List.mem_singleton]
    · rw [hcount _ rfl, count_cleaned_turn]
      simp only [List.mem_singleton]
    · rw [hhandlers, lookup_turn]
      simp only [List.mem_singleton]
    · rw [hcountP, hone, hlength]

end Turn

/-! ## The queue -/

section Queue

variable {e : ErrLog} {curl : ℕ} {messages : List ℕ} {s : Transfers}

/-- The turn of a handler that returns. -/
theorem checkForFinishedCurlJobs_cons (hthrows : s.throws curl = none) :
    checkForFinishedCurlJobs e (curl :: messages) s =
      checkForFinishedCurlJobs e messages (s.turn curl) := by
  rw [checkForFinishedCurlJobs, hthrows]
  cases messages with
  | nil => rfl
  | cons => rfl

/-- The turn of a handler that throws. -/
theorem left_of_throws {thrown : Thrown} (hthrows : s.throws curl = some thrown) :
    (checkForFinishedCurlJobs e (curl :: messages) s).left = messages := by
  rw [checkForFinishedCurlJobs, hthrows]
  cases thrown with
  | exception what => rfl
  | other => rfl

/-- The last handler of a queue throws. -/
theorem drained_of_throws {thrown : Thrown} (hthrows : s.throws curl = some thrown) :
    Drained [curl] s (checkForFinishedCurlJobs e [curl] s).transfers ↔ e.Logs thrown := by
  have hsome : (s.throws curl).isSome := by rw [hthrows]; rfl
  rw [checkForFinishedCurlJobs, hthrows]
  cases thrown with
  | other =>
    refine (drained_singleton [] hsome rfl (List.append_nil _).symm nofun).trans ?_
    exact ⟨nofun, False.elim⟩
  | exception what =>
    show Drained [curl] s ((s.turn curl).log e (handlerError what)).2 ↔
      e.appends (handlerError what) = none
    unfold Transfers.log
    cases e.appends (handlerError what) with
    | some thrown =>
      refine (drained_singleton [] hsome rfl (List.append_nil _).symm nofun).trans ?_
      exact ⟨nofun, nofun⟩
    | none =>
      show Drained [curl] s { s.turn curl with
        events := (s.turn curl).events ++ [.logged (handlerError what)] } ↔ none = none
      refine (drained_singleton [.logged (handlerError what)] hsome ?_ ?_ ?_).trans ?_
      · rfl
      · rfl
      · intro event hin
        obtain rfl := List.mem_singleton.mp hin
        rfl
      · exact ⟨fun _ => rfl, fun _ => rfl⟩

/-- When the first handler returns, the others throw what they threw before its turn. -/
theorem forall_throws_cons (hcurl : curl ∉ messages) (hthrows : s.throws curl = none)
    {P : Thrown → Prop} :
    (∀ c ∈ messages, ∀ thrown, (s.turn curl).throws c = some thrown →
        messages.getLast? = some c ∧ P thrown) ↔
      ∀ c ∈ curl :: messages, ∀ thrown, s.throws c = some thrown →
        (curl :: messages).getLast? = some c ∧ P thrown := by
  have hrest : ∀ c ∈ messages, (s.turn curl).throws c = s.throws c ∧
      (curl :: messages).getLast? = messages.getLast? := by
    intro c hc
    refine ⟨?_, List.getLast?_cons_of_ne_nil (List.ne_nil_of_mem hc)⟩
    rw [throws_turn, if_neg]
    rintro rfl
    exact hcurl hc
  constructor
  · intro h c hc thrown hthrown
    rcases List.mem_cons.mp hc with rfl | hc
    · rw [hthrows] at hthrown
      cases hthrown
    · obtain ⟨hturn, hlast⟩ := hrest c hc
      rw [hlast]
      exact h c hc thrown (hturn.trans hthrown)
  · intro h c hc thrown hthrown
    obtain ⟨hturn, hlast⟩ := hrest c hc
    rw [← hlast]
    exact h c (List.mem_cons_of_mem _ hc) thrown (hturn.symm.trans hthrown)

/-- **One call drains the queue** if and only if no handler throws except that of the last transfer
in the queue, and the exception of that one is logged. -/
theorem drained_iff (e : ErrLog) (messages : Messages) (s : Transfers) :
    ((checkForFinishedCurlJobs e messages.curls s).left = [] ∧
        Drained messages.curls s (checkForFinishedCurlJobs e messages.curls s).transfers) ↔
      ∀ curl ∈ messages.curls, ∀ thrown, s.throws curl = some thrown →
        messages.curls.getLast? = some curl ∧ e.Logs thrown := by
  obtain ⟨messages, hnodup⟩ := messages
  -- on the messages: a handler that returns leaves the rest of the queue for the next turn
  induction messages generalizing s with
  | nil =>
    refine ⟨fun _ => nofun, fun _ => ⟨rfl, ?_⟩⟩
    rw [drained_def]
    simp [checkForFinishedCurlJobs]
  | cons curl messages ih =>
    obtain ⟨hcurl, hnodup⟩ := List.nodup_cons.mp hnodup
    simp only
    cases hthrows : s.throws curl with
    | none =>
      rw [checkForFinishedCurlJobs_cons hthrows, drained_cons hcurl hthrows]
      exact (ih (s.turn curl) hnodup).trans (forall_throws_cons (P := e.Logs) hcurl hthrows)
    | some thrown =>
      rw [left_of_throws hthrows]
      constructor
      · rintro ⟨rfl, hdrained⟩ c hc thrown' hthrown
        obtain rfl := List.mem_singleton.mp hc
        obtain rfl := Option.some.inj (hthrows.symm.trans hthrown)
        exact ⟨rfl, (drained_of_throws hthrows).mp hdrained⟩
      · intro h
        obtain ⟨hlast, hlogs⟩ := h curl List.mem_cons_self thrown hthrows
        -- the transfer is the last one, as it is in the queue once
        obtain rfl : messages = [] := by
          by_contra hne
          rw [List.getLast?_cons_of_ne_nil hne] at hlast
          exact hcurl (List.mem_of_getLast? hlast)
        exact ⟨rfl, (drained_of_throws hthrows).mpr hlogs⟩

end Queue

/-- Two transfers have finished. -/
def twoFinished : Messages := ⟨[1, 2], by simp⟩

/-- The handler of the first one throws an exception. -/
def throwsFirst : Transfers :=
  { handlers := (SortedMap.empty.insert 1 { throws := some (.exception []) }).insert 2 {} }

/-- The second transfer stays in the queue, and its handler is not called. -/
theorem second_left :
    ¬ ((checkForFinishedCurlJobs {} twoFinished.curls throwsFirst).left = [] ∧
      Drained twoFinished.curls throwsFirst
        (checkForFinishedCurlJobs {} twoFinished.curls throwsFirst).transfers) := by
  rintro ⟨hleft, -⟩
  cases hleft

end Runner

end Glim
