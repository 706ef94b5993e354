import Glim.Runner.Lifecycle

/-!
# The timer and the passes of the runner

`restartTimer` is to leave a timer that expires earlier. But what it compares is the time at which
the timer expires, and not how long that is from now, so that from a second after the epoch on a
timer always gets the deadline that was asked for last. It is never more than a tenth of a second
ahead, and between two passes the timer is always pending. A pass handles one message at least, so
that a finished transfer waits for as many passes as there are messages before it.

## Main definitions

* `Loop.Waits`: what the timer is set to
* `Loop.Caught`: what is thrown is caught by the runner
* `Loop.Due`: a transfer was handled, or is near enough to the front of the messages

## Main results

* `Loop.timer_deadline`: the deadline of the timer
* `Loop.handled_within_passes`: how long a finished transfer waits
-/

namespace Glim.Runner.Loop

open Machine Ledger Table Thread

/-! ## The timer -/

/-- A pass is in work, that ends with `restartTimer`. -/
def Point.inPass : Point → Bool
  | .inCurl .evTimerCB => true
  | .reading => true
  | .handling _ _ => true
  | .removing _ _ _ => true
  | .jobs => true
  | _ => false

/-- Only a `std::exception` is thrown by a handler or a job, and nothing by `_errlog` or the copy of
a `JobInfo`. -/
def Caught : Label → Loop → Prop
  | .handlerEnds thrown, _ => thrown ≠ some .other
  | .curlTimerCB _ _ logThrows, _ => logThrows = false
  | .curlReturns _ logThrows, _ => logThrows = false
  | .jobsEscape, _ => False
  | _, _ => True

instance instDecidableCaught (l : Label) (s : Loop) : Decidable (Caught l s) :=
  match l with
  | .handlerEnds thrown => inferInstanceAs (Decidable (thrown ≠ some .other))
  | .curlTimerCB _ _ logThrows | .curlReturns _ logThrows =>
    inferInstanceAs (Decidable (logThrows = false))
  | .jobsEscape => inferInstanceAs (Decidable False)
  | .tick _ | .multi _ | .doInEv _ | .run | .destroy | .runTask _ _ | .evTimerCB | .evSocketCB _
  | .curlSocketCB _ _ | .finish _ | .read | .jobsEnd | .clean _ | .cleaned =>
    inferInstanceAs (Decidable True)

/-- New transfers, and nothing that is not caught. -/
def Regular (l : Label) (s : Loop) : Prop := Fresh l s ∧ Caught l s

instance instDecidableRegular (l : Label) (s : Loop) : Decidable (Regular l s) :=
  inferInstanceAs (Decidable (Fresh l s ∧ Caught l s))

/-- The first second of the epoch is over. What the timer is set to was asked for last, and not more
than a tenth of a second ahead. -/
structure Waits (s : Loop) : Prop where
  now : 1000000 ≤ s.now
  deadline : ∀ timer, s.timer = some timer → ∀ tv, timer.deadline = some tv →
    1000000 ≤ tv ∧ s.asked = some tv ∧ tv ≤ s.now + 100000
  pending : ∀ timer, s.timer = some timer → s.point.inPass = false → timer.deadline.isSome
  thrown : ∀ curl more, s.point ≠ .removing curl (some .other) more
  gone : s.alive = false → s.timer = none

section Timer

variable {s s' : Loop} {l : Label} {ls : List Label} {now : ℕ}

/-- The timer is set to what is asked for, when its deadline is not in the first second. -/
theorem restartTimer_eq {timer : Timer} (htimer : s.timer = some timer)
    (h : ∀ tv, timer.deadline = some tv → 1000000 ≤ tv) (n : ℕ) :
    s.restartTimer n = { s with
      asked := some (s.now + n)
      timer := some { timer with deadline := some (s.now + n) } } := by
  rw [restartTimer, htimer]
  have hshorter : Timer.hasShorter n timer = false := by
    unfold Timer.hasShorter
    cases hdeadline : timer.deadline with
    | none => rfl
    | some tv =>
      have hsecond := h tv hdeadline
      have hdiv : tv / 1000000 ≠ 0 := by omega
      simp [hdiv]
  dsimp only
  rw [hshorter]
  rfl

/-- The timer is restarted, at any point of the event loop. -/
theorem Waits.restartTimer_at (h : Waits s) {n : ℕ} (hn : n ≤ 100000) {p : Point}
    (hp : ∀ curl more, p ≠ .removing curl (some .other) more) :
    Waits (restartTimer n { s with point := p }) := by
  rcases Option.eq_none_or_eq_some s.timer with htimer | ⟨timer, htimer⟩
  · have heq : restartTimer n { s with point := p } = { s with point := p, fault := true } := by
      rw [Loop.restartTimer]
      simp only [htimer]
    rw [heq]
    refine ⟨h.now, h.deadline, fun timer ht => ?_, hp, h.gone⟩
    rw [show s.timer = some timer from ht] at htimer
    cases htimer
  · rw [restartTimer_eq (s := { s with point := p }) htimer
      fun tv htv => (h.deadline timer htimer tv htv).1]
    refine ⟨h.now, ?_, ?_, hp, fun hdead => ?_⟩
    · rintro timer' htimer' tv htv
      obtain rfl := Option.some.inj htimer'
      obtain rfl := Option.some.inj htv
      exact ⟨h.now.trans (Nat.le_add_right _ _), rfl, Nat.add_le_add_left hn _⟩
    · rintro timer' htimer' -
      obtain rfl := Option.some.inj htimer'
      rfl
    · rw [h.gone hdead] at htimer
      cases htimer

theorem Waits.restartTimer (h : Waits s) {n : ℕ} (hn : n ≤ 100000) : Waits (s.restartTimer n) :=
  h.restartTimer_at hn h.thrown

/-- The time, and what the timer is set to and was asked to. -/
def clock (s : Loop) : ℕ × Option Timer × Option ℕ := (s.now, s.timer, s.asked)

section Clock

variable (s : Loop) (curl : ℕ)

@[simp] theorem clock_addHandle : (s.addHandle curl).clock = s.clock := by
  rw [addHandle]
  split_ifs <;> rfl

@[simp] theorem clock_removeHandle : (s.removeHandle curl).clock = s.clock := by
  rw [removeHandle]
  split_ifs <;> rfl

@[simp] theorem clock_deleteEvent (event : Option ℕ) : (s.deleteEvent event).clock = s.clock := by
  cases event <;> rfl

@[simp] theorem clock_check (error : Option (List UInt8)) : (s.check error).clock = s.clock := by
  cases error <;> rfl

@[simp] theorem clock_insertHandler : (s.insertHandler curl).clock = s.clock := by
  rw [insertHandler]
  split_ifs <;> rfl

@[simp] theorem point_insertHandler : (s.insertHandler curl).point = s.point := by
  rw [insertHandler]
  split_ifs <;> rfl

end Clock

/-- What leaves the timer and the time. -/
theorem Waits.keep (h : Waits s) (hclock : s'.clock = s.clock) (halive : s'.alive = s.alive)
    (hpoint : s.alive = true → s'.point.inPass = false → s.point.inPass = false)
    (hthrown : ∀ curl more, s'.point ≠ .removing curl (some .other) more) : Waits s' := by
  obtain ⟨hnow, hrest⟩ := Prod.mk.inj hclock
  obtain ⟨htimer, hasked⟩ := Prod.mk.inj hrest
  refine ⟨hnow ▸ h.now, ?_, ?_, hthrown, ?_⟩
  · rw [htimer, hnow, hasked]
    exact h.deadline
  · intro timer ht hp
    rw [htimer] at ht
    rcases Bool.eq_false_or_eq_true s.alive with halive | halive
    · exact h.pending timer ht (hpoint halive hp)
    · rw [h.gone halive] at ht
      cases ht
  · intro hdead
    rw [htimer]
    exact h.gone (halive.symm.trans hdead)

/-- The runner is accessed at the point where the event loop is. -/
theorem Waits.access (h : Waits s) {f : Loop → Loop} (hf : s.alive = true → Waits (f s)) :
    Waits (s.access f) := by
  rw [Loop.access]
  split_ifs with halive
  · exact hf halive
  · exact h.keep rfl rfl (fun _ => id) h.thrown

/-- The event loop leaves its point, and the runner is accessed. -/
theorem Waits.leave (h : Waits s) {f : Loop → Loop}
    (hf : s.alive = true → Waits (f { s with point := .idle })) :
    Waits ({ s with point := .idle }.access f) := by
  rw [Loop.access]
  split_ifs with halive
  · exact hf halive
  · exact h.keep rfl rfl (fun halive' => absurd halive' halive) (by rintro _ _ ⟨⟩)

theorem Waits.freeCurl (h : Waits s) {curl : ℕ} {thrown : Option Thrown} {more : Bool}
    (hthrown : thrown ≠ some .other) : Waits (s.freeCurl curl thrown more) := by
  have hpoint : ∀ c more', Point.removing curl thrown more ≠ .removing c (some .other) more' := by
    rintro c more' ⟨⟩
    exact hthrown rfl
  have hmove : Waits { s with point := .removing curl thrown more } :=
    h.keep rfl rfl (by rintro _ ⟨⟩) hpoint
  refine hmove.access fun _ => hmove.keep ?_ ?_ ?_ ?_
  · exact (clock_removeHandle _ _).trans (clock_deleteEvent _ _)
  · simp [useCurlm]
  · simp [Point.inPass]
  · simpa using hpoint

/-- libevent runs a function of `doInEv`. -/
theorem Waits.runTask (h : Waits s) (hp : s.point = .idle) (event : ℕ) (task : Task)
    (multiInit : MultiInit) : Waits (s.runTask event task multiInit) := by
  have hpass : s.point.inPass = false := by rw [hp]; rfl
  have htake : Waits (s.take event) := h.keep rfl rfl (fun _ => id) h.thrown
  cases task with
  | init =>
    refine htake.access fun halive => ?_
    cases multiInit with
    | null => exact htake
    | setoptFails => exact htake.keep rfl rfl (fun _ => id) htake.thrown
    | ok =>
      -- the timer is new, and is set at once
      have hset : (s.take event).init .ok = { s.take event with
          curlm := .live
          nextEvent := s.nextEvent + 1
          log := .acquire (.event s.nextEvent) :: .acquire .multi :: (s.take event).log
          asked := some (s.now + 100000)
          timer := some { event := s.nextEvent, deadline := some (s.now + 100000) } } := rfl
      rw [hset]
      refine ⟨h.now, ?_, ?_, h.thrown, fun hdead => ?_⟩
      · rintro timer htimer tv htv
        obtain rfl := Option.some.inj htimer
        obtain rfl := Option.some.inj htv
        exact ⟨h.now.trans (Nat.le_add_right _ _), rfl, le_rfl⟩
      · rintro timer htimer -
        obtain rfl := Option.some.inj htimer
        rfl
      · rw [show s.alive = false from hdead] at halive
        cases halive
  | add curl =>
    show Waits ((s.take event).access fun s =>
      { s.useCurlm.addHandle curl with point := if s.curlm = .live then .inCurl .add else .idle })
    refine htake.access fun _ => htake.keep ?_ ?_ (fun _ _ => hpass) fun c more => ?_
    · exact clock_addHandle _ _
    · simp [useCurlm]
    · split_ifs <;> simp
  | cleanup =>
    refine htake.keep rfl rfl (fun _ _ => hpass) fun curl more => ?_
    simp [Loop.runTask]

/-- cURL returns. -/
theorem Waits.curlReturns (h : Waits s) {error : Option (List UInt8)}
    (hr : Returns s error false s') : Waits s' := by
  cases hr with
  | add hp => exact h.keep rfl rfl (fun _ _ => by rw [hp]; rfl) (by rintro _ _ ⟨⟩)
  | evSocketCB hp =>
    refine h.keep ?_ ?_ (fun _ _ => by rw [hp]; rfl) (by rintro _ _ ⟨⟩)
    · split_ifs
      · rw [Loop.access]
        split_ifs
        · exact clock_check s error
        · rfl
      · rfl
    · split_ifs
      · exact alive_access s (alive_check s error)
      · rfl
  | evTimerCB hp =>
    refine h.leave fun _ => h.keep (clock_check _ error) (alive_check _ error) (fun _ => ?_) ?_
    · simp [Point.inPass]
    · simp
  | @removing curl thrown more hp =>
    have hne := h.thrown
    rw [hp] at hne
    rw [afterFree.eq_def]
    split
    · refine h.keep rfl rfl (fun _ => ?_) fun c more' => ?_
      · split_ifs
        · rintro ⟨⟩
        · rintro ⟨⟩
      · split_ifs
        · rintro ⟨⟩
        · rintro ⟨⟩
    · exact h.keep rfl rfl (by rintro _ ⟨⟩) (by rintro _ _ ⟨⟩)
    · exact absurd rfl (hne curl more)

/-- What `curlTimerCB` asks for is a tenth of a second at most. -/
theorem timeoutMicro_le (timeoutMs : ℤ) : timeoutMicro timeoutMs ≤ 100000 :=
  Nat.mul_le_mul_right 1000 (Nat.min_le_right _ _)

theorem waits_step (h : Waits s) (hl : Caught l s) (hw : s.alive = true → Wf s)
    (hx : step l s = some s') : Waits s' := by
  cases moves_of_step hx with
  | @tick passed =>
    refine ⟨h.now.trans (Nat.le_add_right _ _), ?_, h.pending, h.thrown, h.gone⟩
    intro timer htimer tv htv
    obtain ⟨hsecond, hasked, hle⟩ := h.deadline timer htimer tv htv
    refine ⟨hsecond, hasked, hle.trans ?_⟩
    exact Nat.add_le_add_right (Nat.le_add_right _ _) _
  | multi => exact h.access fun _ => h.keep (by simp) (by simp) (by simp) (by simpa using h.thrown)
  | @doInEv curl _ =>
    have h' : Waits { s with registering := s.registering.filter (· ≠ curl) } :=
      h.keep rfl rfl (fun _ => id) h.thrown
    exact h'.access fun _ => h'.keep rfl rfl (fun _ => id) h.thrown
  | run => exact h.access fun _ => h.keep rfl rfl (by rintro _ ⟨⟩) (by rintro _ _ ⟨⟩)
  | destroy =>
    have htimer : s.destroy.timer = none := by
      rw [destroy]
      cases htimer : s.timer with
      | none => exact htimer
      | some timer => rfl
    have hfields := destroy_fields s
    refine ⟨?_, ?_, ?_, ?_, fun _ => htimer⟩
    · rw [destroy]
      cases s.timer <;> exact h.now
    · rw [htimer]
      rintro _ ⟨⟩
    · rw [htimer]
      rintro _ ⟨⟩
    · rw [hfields.2.1]
      exact h.thrown
  | runTask hp => exact h.runTask hp _ _ _
  | evTimerCB =>
    refine h.access fun halive =>
      ⟨h.now, ?_, by rintro _ _ ⟨⟩, by rintro _ _ ⟨⟩, fun hdead => ?_⟩
    · rintro timer' htimer' tv htv
      obtain rfl := Option.some.inj htimer'
      cases htv
    · rw [show s.alive = false from hdead] at halive
      cases halive
  | evSocketCB hp =>
    exact h.access fun _ => h.keep rfl rfl (fun _ _ => by rw [hp]; rfl) (by rintro _ _ ⟨⟩)
  | @curlSocketCB easy what _ =>
    refine h.access fun _ => ?_
    split_ifs
    · refine Waits.restartTimer ?_ (Nat.zero_le _)
      cases s.handlers.lookup easy with
      | none => exact h
      | some event =>
        refine h.keep (clock_deleteEvent s event) (by simp) (fun _ => ?_) ?_
        · simp
        · simpa using h.thrown
    · split
      · exact h.keep rfl rfl (fun _ => id) h.thrown
      · exact h
  | @curlTimerCB timeoutMs error logThrows _ =>
    rw [curlTimerCB]
    split_ifs
    · exact h
    · exact h.access fun _ => h.keep (clock_check s error) (alive_check s error) (by simp)
        (by simpa using h.thrown)
    · exact h.access fun _ => h.restartTimer (timeoutMicro_le timeoutMs)
  | finish => exact h.keep rfl rfl (fun _ => id) h.thrown
  | curlReturns hr =>
    obtain rfl := hl
    exact h.curlReturns hr
  | read hp =>
    refine h.leave fun halive => ?_
    rw [readMessage]
    split
    case h_1 => exact h.keep rfl rfl (by rintro _ ⟨⟩) (by rintro _ _ ⟨⟩)
    case h_2 curl messages hmessages =>
      dsimp only
      split_ifs
      · exact h.keep rfl rfl (by rintro _ ⟨⟩) (by rintro _ _ ⟨⟩)
      · have h' : Waits { s.useCurlm with messages } := h.keep rfl rfl (fun _ => id) h.thrown
        exact h'.freeCurl (by rintro ⟨⟩)
  | handlerEnds hp => exact h.freeCurl hl
  | jobsEnd hp => exact h.leave fun _ => h.restartTimer_at le_rfl (by rintro _ _ ⟨⟩)
  | jobsEscape => exact hl.elim
  | @clean curl todo hp _ =>
    refine h.keep ?_ ?_ (fun halive => ?_) (by rintro _ _ ⟨⟩)
    · exact clock_removeHandle s.useCurlm curl
    · exact alive_removeHandle s.useCurlm curl
    · rw [(hw halive).cleaning todo hp] at halive
      cases halive
  | cleaned hp =>
    refine h.keep ?_ ?_ (fun halive => ?_) ?_
    · rw [cleaned]
      split_ifs <;> rfl
    · rw [cleaned]
      split_ifs <;> rfl
    · rw [(hw halive).cleaning [] hp] at halive
      cases halive
    · rw [cleaned]
      split_ifs <;> rintro _ _ ⟨⟩

theorem waits_of_steps (hnow : 1000000 ≤ now) (hr : Steps step Regular (start now) ls s) :
    Waits s := by
  have h := hr.invariant (I := fun s => (Defined s → Wf s) ∧ Waits s) ?_ ⟨fun _ => wf_start now, ?_⟩
  · exact h.2
  · rintro l s s' ⟨hw, h⟩ ⟨hfresh, hcaught⟩ hx
    refine ⟨fun hdefined => ?_, waits_step h hcaught (fun halive => hw (Or.inl halive)) hx⟩
    exact wf_step l s s' (hw ((later_step hx).defined hdefined)) hfresh hx hdefined
  · exact ⟨hnow, nofun, nofun, nofun, nofun⟩

/-- **The deadline of the timer** is the one that was asked for last, whether or not an earlier one
was pending, and is not more than a tenth of a second ahead; between two passes there always is
one. This is so in every run that begins after the first second of the epoch, in which handlers and
jobs throw nothing but a `std::exception`, and `_errlog` and the copy of a `JobInfo` nothing. -/
theorem timer_deadline (now : ℕ) (hnow : 1000000 ≤ now) (ls : List Label) (s : Loop)
    (hr : Steps step Regular (start now) ls s) (timer : Timer) (htimer : s.timer = some timer) :
    (∀ tv, timer.deadline = some tv → s.asked = some tv ∧ tv ≤ s.now + 100000) ∧
      (s.point.inPass = false → timer.deadline.isSome) := by
  have h := waits_of_steps hnow hr
  refine ⟨fun tv htv => ?_, h.pending timer htimer⟩
  exact (h.deadline timer htimer tv htv).2

/-- cURL stops to watch a socket, so that the timer is to expire at once, and then asks for fifty
milliseconds: the later deadline remains. -/
theorem timer_deadline_later :
    let ls : List Label := [.runTask 0 .ok, .multi 7, .doInEv 7, .runTask 2 .ok,
      .curlSocketCB 7 2, .curlReturns none false, .evSocketCB 3, .curlSocketCB 7 4,
      .curlTimerCB 50 none false, .curlReturns none false]
    ∃ s timer, Steps step Regular (start 1000000) ls s ∧ s.timer = some timer ∧
      timer.deadline = some 1050000 ∧
      (∀ tv, timer.deadline = some tv → s.asked = some tv ∧ tv ≤ s.now + 100000) ∧
      (s.point.inPass = false → timer.deadline.isSome) := by
  intro ls
  obtain ⟨s, hs⟩ : ∃ s, runGuarded step Regular ls (start 1000000) = some s := ⟨_, rfl⟩
  have hr := steps_of_runGuarded hs
  have htimer : (runGuarded step Regular ls (start 1000000)).map Loop.timer =
      some (some { event := 1, deadline := some 1050000 }) := rfl
  rw [hs] at htimer
  have htimer' := Option.some.inj htimer
  exact ⟨s, _, hr, htimer', rfl, timer_deadline 1000000 le_rfl ls s hr _ htimer'⟩

end Timer

/-! ## The passes -/

/-- Whether a pass has read a message. -/
def Point.read : Point → ℕ
  | .handling _ _ => 1
  | .removing _ _ _ => 1
  | .jobs => 1
  | _ => 0

/-- The transfer was handled, or fewer messages are before its own than passes are left. -/
def Due (curl n : ℕ) (s : Loop) : Prop :=
  curl ∈ s.handled ∨ ∃ pre post, s.messages = pre ++ curl :: post ∧ pre.length + s.point.read < n

/-- A pass ends. -/
def Label.endsPass : Label → Bool
  | .jobsEnd => true
  | _ => false

section Passes

variable {s s' : Loop} {l : Label} {ls : List Label} {curl n : ℕ}

/-- The messages, and the transfers that were handled. -/
def queue (s : Loop) : List ℕ × List ℕ := (s.messages, s.handled)

section Queue

variable (s : Loop) (curl : ℕ)

@[simp] theorem queue_insertHandler : (s.insertHandler curl).queue = s.queue := by
  rw [insertHandler]
  split_ifs <;> rfl

@[simp] theorem queue_addHandle : (s.addHandle curl).queue = s.queue := by
  rw [addHandle]
  split_ifs <;> rfl

theorem messages_removeHandle : (s.removeHandle curl).messages = s.messages ∨
    (s.removeHandle curl).messages = s.messages.filter (· ≠ curl) := by
  rw [removeHandle]
  split_ifs
  · exact Or.inr rfl
  · exact Or.inl rfl

@[simp] theorem queue_deleteEvent (event : Option ℕ) : (s.deleteEvent event).queue = s.queue := by
  cases event <;> rfl

@[simp] theorem queue_check (error : Option (List UInt8)) : (s.check error).queue = s.queue := by
  cases error <;> rfl

@[simp] theorem queue_restartTimer (n : ℕ) : (s.restartTimer n).queue = s.queue := by
  rw [restartTimer]
  cases s.timer with
  | none => rfl
  | some timer =>
    dsimp only
    split_ifs <;> rfl

end Queue

/-- What leaves the messages. -/
theorem Due.keep (h : Due curl n s) (hqueue : s'.queue = s.queue)
    (hpoint : s'.point.read ≤ s.point.read) : Due curl n s' := by
  obtain ⟨hmessages, hhandled⟩ := Prod.mk.inj hqueue
  rcases h with hin | ⟨pre, post, heq, hle⟩
  · exact Or.inl (by rwa [hhandled])
  · exact Or.inr ⟨pre, post, hmessages.trans heq, (Nat.add_le_add_left hpoint _).trans_lt hle⟩

/-- The runner is there, when it is accessed. -/
theorem access_of_alive {f : Loop → Loop} (halive : s.alive = true) : s.access f = f s :=
  if_pos halive

/-- The next message is read. -/
theorem Due.readMessage (h : Due curl n s) (hw : Wf s) (hp : s.point = .idle) :
    Due curl n s.readMessage := by
  rw [Loop.readMessage]
  cases hmessages : s.messages with
  | nil =>
    rcases h with hin | ⟨pre, post, heq, -⟩
    · exact Or.inl hin
    · rw [hmessages] at heq
      exact absurd heq.symm (by simp)
  | cons c messages =>
    have hsome := hw.isSome_of_message c (by simp [hp, Point.inMap])
      (by rw [hmessages]; exact List.mem_cons_self)
    dsimp only
    rw [if_pos hsome]
    rcases h with hin | ⟨pre, post, heq, hle⟩
    · exact Or.inl (List.mem_cons_of_mem _ hin)
    · rw [hmessages] at heq
      cases pre with
      | nil => exact Or.inl (List.mem_cons.mpr (Or.inl (List.cons.inj heq).1.symm))
      | cons c' pre =>
        refine Or.inr ⟨pre, post, (List.cons.inj heq).2, lt_of_le_of_lt ?_ hle⟩
        simp [hp, Point.read]

/-- Another transfer is freed. -/
theorem Due.freeCurl (h : Due curl n s) (hw : Wf s) {c : ℕ} (hc : c ∈ s.handled)
    (hp : s.point.read = 1) (thrown : Option Thrown) (more : Bool) (halive : s.alive = true) :
    Due curl n (s.freeCurl c thrown more) := by
  obtain ⟨hmessages, hhandled⟩ := Prod.mk.inj
    (queue_deleteEvent { s with point := .removing c thrown more } (s.handlers.lookup c).join)
  have hfree : (s.freeCurl c thrown more).messages = s.messages ∨
      (s.freeCurl c thrown more).messages = s.messages.filter (· ≠ c) := by
    rw [Loop.freeCurl, access_of_alive (by exact halive)]
    refine (messages_removeHandle _ c).imp (fun heq => heq.trans hmessages) fun heq => ?_
    exact heq.trans (congrArg (List.filter (· ≠ c)) hmessages)
  have hpoint : (s.freeCurl c thrown more).point.read = 1 := by
    rw [point_freeCurl]
    rfl
  rcases h with hin | ⟨pre, post, heq, hle⟩
  · refine Or.inl ?_
    rw [Loop.freeCurl, access_of_alive (by exact halive)]
    simpa [useCurlm] using hin
  -- what has been handled has no message
  have hne : curl ≠ c := by
    rintro rfl
    exact (hw.queued curl (by rw [heq]; simp)).2.2 hc
  rw [hp] at hle
  rcases hfree with hfree | hfree
  · exact Or.inr ⟨pre, post, hfree.trans heq, by rwa [hpoint]⟩
  · refine Or.inr ⟨pre.filter (· ≠ c), post.filter (· ≠ c), ?_, ?_⟩
    · rw [hfree, heq, List.filter_append, List.filter_cons_of_pos (by simpa using hne)]
    · rw [hpoint]
      exact lt_of_le_of_lt (Nat.add_le_add_right (List.length_filter_le _ _) 1) hle

/-- cURL returns. -/
theorem Due.curlReturns (h : Due curl n s) {error : Option (List UInt8)} {logThrows : Bool}
    (halive : s.alive = true) (hr : Returns s error logThrows s') : Due curl n s' := by
  cases hr with
  | add => exact h.keep rfl (Nat.zero_le _)
  | evSocketCB =>
    rw [access_of_alive halive]
    split_ifs
    · exact h.keep (queue_check s error) (Nat.zero_le _)
    · exact h.keep rfl (Nat.zero_le _)
  | evTimerCB =>
    rw [access_of_alive (by exact halive)]
    refine h.keep (queue_check _ error) ?_
    split_ifs
    · exact Nat.zero_le _
    · exact Nat.zero_le _
  | removing hp =>
    rw [afterFree.eq_def]
    split
    · refine h.keep rfl ?_
      rw [hp]
      split_ifs
      · exact Nat.zero_le _
      · exact le_rfl
    · refine h.keep rfl ?_
      rw [hp]
      split_ifs
      · exact Nat.zero_le _
      · exact le_rfl
    · exact h.keep rfl (Nat.zero_le _)

/-- A pass that ends has read a message. -/
theorem Due.jobsEnd (h : Due curl n s) (hp : s.point = .jobs) (halive : s.alive = true) :
    Due curl (n - 1) ({ s with point := .idle }.access (Loop.restartTimer 100000)) := by
  rw [access_of_alive (by exact halive)]
  obtain ⟨hmessages, hhandled⟩ := Prod.mk.inj (queue_restartTimer { s with point := .idle } 100000)
  rcases h with hin | ⟨pre, post, heq, hle⟩
  · exact Or.inl (hhandled.symm ▸ hin)
  · refine Or.inr ⟨pre, post, hmessages.trans heq, ?_⟩
    rw [hp] at hle
    rw [Loop.point_restartTimer]
    show pre.length < n - 1
    exact Nat.lt_sub_of_add_lt hle

/-- libevent runs a function of `doInEv`. -/
theorem Due.runTask (h : Due curl n s) (halive : s.alive = true) (event : ℕ) (task : Task)
    (multiInit : MultiInit) : Due curl n (s.runTask event task multiInit) := by
  cases task with
  | init =>
    have heq : s.runTask event .init multiInit = (s.take event).init multiInit :=
      access_of_alive (by exact halive)
    rw [heq]
    cases multiInit with
    | null => exact h.keep rfl le_rfl
    | setoptFails => exact h.keep rfl le_rfl
    | ok =>
      rw [init_ok]
      exact h.keep (queue_restartTimer _ _) (by simp)
  | add c =>
    have heq : s.runTask event (.add c) multiInit = { (s.take event).useCurlm.addHandle c with
        point := if (s.take event).curlm = .live then .inCurl .add else .idle } :=
      if_pos (show (s.take event).alive = true from halive)
    rw [heq]
    refine h.keep (queue_addHandle (s.take event).useCurlm c) ?_
    split_ifs
    · exact Nat.zero_le _
    · exact Nat.zero_le _
  | cleanup => exact h.keep rfl (Nat.zero_le _)

theorem due_step (h : Due curl n s) (hw : Wf s) (hsettled : Settled s) (hx : step l s = some s')
    (halive' : s'.alive = true) : Due curl (n - l.endsPass.toNat) s' := by
  have halive := (later_step hx).alive halive'
  cases moves_of_step hx with
  | jobsEnd hp => exact h.jobsEnd hp halive
  | tick => exact h.keep rfl le_rfl
  | @multi c =>
    rw [access_of_alive halive]
    exact h.keep (queue_insertHandler s c) (by simp)
  | doInEv =>
    rw [access_of_alive (by exact halive)]
    exact h.keep rfl le_rfl
  | run =>
    rw [access_of_alive halive]
    exact h.keep rfl (Nat.zero_le _)
  | destroy =>
    rw [(destroy_fields s).1] at halive'
    cases halive'
  | runTask => exact h.runTask halive _ _ _
  | evTimerCB =>
    rw [Loop.evTimerCB, access_of_alive halive]
    exact h.keep rfl (Nat.zero_le _)
  | evSocketCB =>
    rw [access_of_alive halive]
    exact h.keep rfl (Nat.zero_le _)
  | @curlSocketCB easy what _ =>
    rw [Loop.curlSocketCB, access_of_alive halive]
    split_ifs
    · refine Due.keep ?_ (queue_restartTimer _ 0) (by simp)
      cases s.handlers.lookup easy with
      | none => exact h
      | some event => exact h.keep (queue_deleteEvent s event) (by simp)
    · split
      · exact h.keep rfl le_rfl
      · exact h
  | @curlTimerCB timeoutMs error logThrows _ =>
    rw [Loop.curlTimerCB]
    split_ifs
    · exact h
    · rw [access_of_alive halive]
      exact h.keep (queue_check s error) (by simp)
    · rw [access_of_alive halive]
      exact h.keep (queue_restartTimer s _) (by simp)
  | @finish c =>
    rcases h with hin | ⟨pre, post, heq, hle⟩
    · exact Or.inl hin
    · refine Or.inr ⟨pre, post ++ [c], ?_, hle⟩
      show s.messages ++ [c] = pre ++ curl :: (post ++ [c])
      rw [heq, List.append_assoc, List.cons_append]
  | curlReturns hr => exact h.curlReturns halive hr
  | read hp =>
    rw [access_of_alive (by exact halive)]
    have hw' : Wf { s with point := .idle } := hw.to (by simp [hp, Point.inMap]) rfl
    have h' : Due curl n { s with point := .idle }.useCurlm := h.keep rfl (Nat.zero_le _)
    exact h'.readMessage (wf_useCurlm hw') rfl
  | @handlerEnds thrown c more hp =>
    exact h.freeCurl hw (hsettled.handling c more hp) (by rw [hp]; rfl) thrown more halive
  | jobsEscape => exact h.keep rfl (Nat.zero_le _)
  | @clean _ todo hp =>
    rw [hw.cleaning todo hp] at halive
    cases halive
  | cleaned hp =>
    rw [hw.cleaning [] hp] at halive
    cases halive

/-- The passes of a run, while the runner is there. -/
theorem due_of_steps {guard : Label → Loop → Prop} (hguard : ∀ l s, guard l s → Fresh l s)
    (hr : Steps step guard s ls s') (hw : Wf s) (hsettled : Settled s) (h : Due curl n s)
    (halive' : s'.alive = true) : Due curl (n - ls.countP Label.endsPass) s' := by
  induction hr generalizing n with
  | nil => exact h
  | @cons s t s' l ls hg hx hr ih =>
    -- the runner is there in the states before, too
    have halive := (later_of_steps hr).alive halive'
    have hw' := wf_step l s t hw (hguard l s hg) hx (Or.inl halive)
    have hstep := due_step h hw hsettled hx halive
    have hrest := ih hw' (settled_step l s t hw hsettled hx) hstep halive'
    rw [List.countP_cons]
    cases hends : l.endsPass with
    | true =>
      rw [hends] at hrest
      rw [if_pos rfl, Nat.add_comm, Nat.sub_add_eq]
      exact hrest
    | false =>
      rw [hends] at hrest
      exact hrest

/-- **A finished transfer waits for as many passes as there are messages before its own**, and one:
behind these, and the one that may be in work, its handler has been called, in every run in which
the runner is given new transfers only, and as long as it is there. Neither an exception of another
handler nor one of a job makes it wait longer. -/
theorem handled_within_passes (now : ℕ) (ls ls' : List Label) (s s' : Loop)
    (hr : Steps step Fresh (start now) ls s) (curl : ℕ) (pre post : List ℕ)
    (hmessages : s.messages = pre ++ curl :: post) (hr' : Steps step Fresh s ls' s')
    (halive : s'.alive = true) (hpasses : pre.length + 2 ≤ ls'.countP Label.endsPass) :
    curl ∈ s'.handled := by
  obtain ⟨hw, hsettled⟩ := wf_of_steps hr (Or.inl ((later_of_steps hr').alive halive))
  have hdue : Due curl (pre.length + 2) s := by
    refine Or.inr ⟨pre, post, hmessages, ?_⟩
    have hread : s.point.read ≤ 1 := by
      cases s.point <;> simp [Point.read]
    exact Nat.lt_succ_of_le (Nat.add_le_add_left hread _)
  rcases due_of_steps (fun _ _ h => h) hr' hw hsettled hdue halive with hin | ⟨_, _, -, hlt⟩
  · exact hin
  · rw [Nat.sub_eq_zero_of_le hpasses] at hlt
    cases hlt

/-- Two transfers have finished, and the handler of the first one throws: three passes later the
second one has been handled. -/
theorem handled_within_passes_throws :
    let ls : List Label := [.runTask 0 .ok, .multi 7, .doInEv 7, .multi 8, .doInEv 8,
      .runTask 2 .ok, .curlReturns none false, .runTask 3 .ok, .finish 7, .finish 8,
      .curlReturns none false]
    let pass : List Label := [.run, .read, .handlerEnds (some (.exception [])),
      .curlReturns none false, .jobsEnd]
    ∃ s s', Steps step Fresh (start 0) ls s ∧ s.messages = [7, 8] ∧
      Steps step Fresh s (pass ++ pass ++ [.run, .read, .jobsEnd]) s' ∧ 8 ∈ s'.handled := by
  intro ls pass
  have hsome : (runGuarded step Fresh ls (start 0)).isSome = true := by decide +kernel
  obtain ⟨s, hs⟩ := Option.isSome_iff_exists.mp hsome
  have hmessages : (runGuarded step Fresh ls (start 0)).map Loop.messages = some [7, 8] := by
    decide +kernel
  have halive : ((runGuarded step Fresh ls (start 0)).bind
      (runGuarded step Fresh (pass ++ pass ++ [.run, .read, .jobsEnd]))).map Loop.alive =
        some true := by
    decide +kernel
  rw [hs] at hmessages
  rw [hs, Option.bind_some] at halive
  obtain ⟨s', hs', halive'⟩ := Option.map_eq_some_iff.mp halive
  have hr := steps_of_runGuarded hs
  have hr' := steps_of_runGuarded hs'
  have hmessages' := Option.some.inj hmessages
  exact ⟨s, s', hr, hmessages', hr', handled_within_passes 0 ls _ s s' hr 8 [7] [] hmessages' hr'
    halive' (by decide)⟩

end Passes

end Glim.Runner.Loop
