import Glim.Runner.Lifecycle

/-!
# The destruction of the runner

While the runner is there, nothing is undefined as long as the function of its constructor gets
along with cURL and `run` is not called before that function. The destructor frees the timer at
once, and leaves the rest to a function that runs on the event loop behind it. What libevent and
cURL still have of the runner by then accesses it after its destruction: the functions of the
constructor and of `multi`, the sockets, and the callbacks that cURL is given for the transfers in
it. The destruction is safe exactly if there is nothing of that.

## Main definitions

* `Loop.Orderly`: how the user and cURL treat the runner
* `Loop.Quiet`: there is nothing left to do for the runner
* `Loop.Unattended`: the user does not call the runner any more
* `Loop.Left`: what a quiet runner leaves behind its destructor

## Main results

* `Loop.safe_while_alive`: before the destruction, nothing is undefined
* `Loop.destroy_safe_iff`: when the runner can be destroyed
-/

namespace Glim.Runner.Loop

open Machine Table Thread

/-- The runner is given new transfers, its multi handle can be set up, `run` is called after the
timer has been made, and `_errlog` does not throw into cURL. -/
def Orderly : Label → Loop → Prop
  | .multi curl, s => .acquire (.easy curl) ∉ s.log
  | .run, s => s.timer.isSome
  | .runTask _ multiInit, _ => multiInit ≠ .setoptFails
  | .curlTimerCB _ _ logThrows, _ => logThrows = false
  | _, _ => True

instance instDecidableOrderly (l : Label) (s : Loop) : Decidable (Orderly l s) :=
  match l with
  | .multi curl => inferInstanceAs (Decidable (.acquire (.easy curl) ∉ s.log))
  | .run => inferInstanceAs (Decidable (s.timer.isSome = true))
  | .runTask _ multiInit => inferInstanceAs (Decidable (multiInit ≠ .setoptFails))
  | .curlTimerCB _ _ logThrows => inferInstanceAs (Decidable (logThrows = false))
  | .tick _ | .doInEv _ | .destroy | .evTimerCB | .evSocketCB _ | .curlSocketCB _ _ | .finish _
  | .curlReturns _ _ | .read | .handlerEnds _ | .jobsEnd | .jobsEscape | .clean _ | .cleaned =>
    inferInstanceAs (Decidable True)

theorem Orderly.fresh {l : Label} {s : Loop} (h : Orderly l s) : Fresh l s := by
  cases l with
  | multi curl => exact h
  | _ => trivial

/-- There is nothing left to do for the runner: neither the event loop nor a call of `multi` works
for it, no function of `doInEv` and no socket waits, cURL has no transfer, and there is no multi
handle that has been freed already. -/
structure Quiet (s : Loop) : Prop where
  idle : s.point = .idle
  registering : s.registering = []
  dugouts : s.dugouts = []
  added : s.added = []
  events : ∀ curl id, s.handlers.lookup curl ≠ some (some id)
  curlm : s.curlm ≠ .dangling

/-- The user does not call the runner. -/
def Unattended : Label → Loop → Prop
  | .multi _, _ => False
  | .run, _ => False
  | _, _ => True

/-! ## Before the destruction -/

/-- There is a timer and a multi handle, and there has been no undefined behaviour. -/
structure Timed (s : Loop) : Prop where
  fault : s.fault = false
  timer : s.timer.isSome
  curlm : s.curlm = .live

/-- Without a timer, the event loop does not work for the runner. -/
structure Untimed (s : Loop) : Prop where
  fault : s.fault = false
  timer : s.timer = none
  idle : s.point = .idle
  curlm : s.curlm = .null
  events : ∀ curl id, s.handlers.lookup curl ≠ some (some id)

/-- While the runner is there, it has its timer when the event loop works for it. -/
def Ready (s : Loop) : Prop := s.alive = true → Timed s ∨ Untimed s

section Ready

variable {s s' : Loop} {l : Label} {ls : List Label} {now : ℕ}

theorem Timed.restartTimer (h : Timed s) (n : ℕ) : Timed (s.restartTimer n) := by
  obtain ⟨timer, heq⟩ := Option.isSome_iff_exists.mp h.timer
  rw [Loop.restartTimer, heq]
  dsimp only
  split_ifs
  · exact ⟨h.fault, by simp, h.curlm⟩
  · exact ⟨h.fault, rfl, h.curlm⟩

/-- What leaves the timer, the multi handle and the flag. -/
theorem Timed.same (h : Timed s) (hfault : s'.fault = s.fault) (htimer : s'.timer = s.timer)
    (hcurlm : s'.curlm = s.curlm) : Timed s' := by
  refine ⟨hfault.trans h.fault, ?_, hcurlm.trans h.curlm⟩
  rw [htimer]
  exact h.timer

theorem Timed.setHandlers (h : Timed s) (handlers : SortedMap ℕ (Option ℕ)) :
    Timed { s with handlers } :=
  h.same rfl rfl rfl

theorem Timed.removeHandle (h : Timed s) (curl : ℕ) : Timed (s.removeHandle curl) :=
  h.same (by simp) (by simp) (by simp)

theorem Timed.useCurlm (h : Timed s) : Timed s.useCurlm :=
  ⟨(fault_useCurlm s).mpr ⟨h.fault, by rw [h.curlm]; rintro ⟨⟩⟩, h.timer, h.curlm⟩

theorem timed_access (halive : s.alive = true) {f : Loop → Loop} (hf : Timed (f s)) :
    Timed (s.access f) := by
  rwa [Loop.access, if_pos halive]

theorem Timed.freeCurl (h : Timed s) (halive : s.alive = true) (curl : ℕ) (thrown : Option Thrown)
    (more : Bool) : Timed (s.freeCurl curl thrown more) := by
  refine timed_access (by exact halive) ?_
  have hdelete : Timed (deleteEvent (s.handlers.lookup curl).join
      { s with point := .removing curl thrown more }) := h.same (by simp) (by simp) (by simp)
  exact (hdelete.setHandlers (s.handlers.erase curl)).useCurlm.removeHandle curl

theorem Timed.readMessage (h : Timed s) (halive : s.alive = true) : Timed s.readMessage := by
  rw [Loop.readMessage]
  split
  · exact ⟨h.fault, h.timer, h.curlm⟩
  · dsimp only
    split_ifs
    · exact ⟨h.fault, h.timer, h.curlm⟩
    · apply Timed.freeCurl
      · exact ⟨h.fault, h.timer, h.curlm⟩
      · exact halive

theorem Timed.curlReturns (h : Timed s) (halive : s.alive = true) {error : Option (List UInt8)}
    {logThrows : Bool} (hr : Returns s error logThrows s') : Timed s' := by
  cases hr with
  | add => exact ⟨h.fault, h.timer, h.curlm⟩
  | evSocketCB =>
    rw [Loop.access, if_pos halive]
    split_ifs
    · exact h.same (by simp) (by simp) (by simp)
    · exact ⟨h.fault, h.timer, h.curlm⟩
  | evTimerCB =>
    rw [Loop.access, if_pos (by exact halive)]
    exact h.same (by simp) (by simp) (by simp)
  | removing =>
    rw [afterFree.eq_def]
    split
    all_goals exact ⟨h.fault, h.timer, h.curlm⟩

/-- The steps while there is a timer. -/
theorem timed_step (h : Timed s) (halive : s.alive = true) (ho : Orderly l s)
    (hx : step l s = some s') (halive' : s'.alive = true) (hw : Wf s) : Timed s' := by
  cases moves_of_step hx with
  | tick => exact ⟨h.fault, h.timer, h.curlm⟩
  | multi =>
    refine timed_access halive ?_
    rw [insertHandler]
    split_ifs
    all_goals exact ⟨h.fault, h.timer, h.curlm⟩
  | doInEv => exact timed_access (by exact halive) ⟨h.fault, h.timer, h.curlm⟩
  | run => exact timed_access halive ⟨h.fault, h.timer, h.curlm⟩
  | destroy =>
    rw [(destroy_fields s).1] at halive'
    cases halive'
  | @runTask event task multiInit _ _ =>
    have htake : Timed (s.take event) := ⟨h.fault, h.timer, h.curlm⟩
    cases task with
    | init =>
      refine timed_access (by exact halive) ?_
      cases multiInit with
      | null => exact htake
      | setoptFails => exact absurd rfl ho
      | ok =>
        rw [init_ok]
        apply Timed.restartTimer
        exact ⟨h.fault, rfl, rfl⟩
    | add curl =>
      show Timed ((s.take event).access fun s =>
        { s.useCurlm.addHandle curl with
          point := if s.curlm = .live then .inCurl .add else .idle })
      refine timed_access (by exact halive) (htake.useCurlm.same ?_ ?_ ?_)
      all_goals simp
    | cleanup => exact ⟨h.fault, h.timer, h.curlm⟩
  | evTimerCB => exact timed_access halive ⟨h.useCurlm.fault, rfl, h.curlm⟩
  | evSocketCB => exact timed_access halive (h.useCurlm.same rfl rfl rfl)
  | @curlSocketCB easy what _ =>
    refine timed_access halive ?_
    split_ifs
    · apply Timed.restartTimer
      cases s.handlers.lookup easy with
      | none => exact h
      | some event => exact h.same (by simp) (by simp) (by simp)
    · split
      all_goals exact ⟨h.fault, h.timer, h.curlm⟩
  | curlTimerCB =>
    obtain rfl := ho
    rw [Loop.curlTimerCB]
    split_ifs
    · exact h
    · exact timed_access halive (h.same (by simp) (by simp) (by simp))
    · exact timed_access halive (h.restartTimer _)
  | finish => exact ⟨h.fault, h.timer, h.curlm⟩
  | curlReturns hr => exact h.curlReturns halive hr
  | read =>
    have h' : Timed { s with point := .idle } := ⟨h.fault, h.timer, h.curlm⟩
    exact timed_access (by exact halive) (h'.useCurlm.readMessage halive)
  | @handlerEnds thrown curl more _ => exact h.freeCurl halive curl thrown more
  | jobsEnd =>
    have h' : Timed { s with point := .idle } := ⟨h.fault, h.timer, h.curlm⟩
    exact timed_access (by exact halive) (h'.restartTimer _)
  | jobsEscape => exact ⟨h.fault, h.timer, h.curlm⟩
  | @clean _ todo hp =>
    rw [hw.cleaning todo hp] at halive
    cases halive
  | cleaned hp =>
    rw [hw.cleaning [] hp] at halive
    cases halive

/-- The steps before there is a timer. -/
theorem untimed_step (h : Untimed s) (halive : s.alive = true) (ho : Orderly l s)
    (hx : step l s = some s') (halive' : s'.alive = true) (hw : Wf s) :
    Timed s' ∨ Untimed s' := by
  cases moves_of_step hx with
  | tick => exact Or.inr ⟨h.fault, h.timer, h.idle, h.curlm, h.events⟩
  | @multi curl =>
    rw [access, if_pos halive, insertHandler]
    refine Or.inr ?_
    split_ifs
    · exact ⟨h.fault, h.timer, h.idle, h.curlm, h.events⟩
    · refine ⟨h.fault, h.timer, h.idle, h.curlm, fun c id => ?_⟩
      show (s.handlers.insert curl none).lookup c ≠ some (some id)
      rw [SortedMap.lookup_insert]
      split_ifs
      · rintro ⟨⟩
      · exact h.events c id
  | doInEv =>
    rw [access, if_pos (by exact halive)]
    exact Or.inr ⟨h.fault, h.timer, h.idle, h.curlm, h.events⟩
  | run =>
    have hsome : s.timer.isSome := ho
    rw [h.timer] at hsome
    cases hsome
  | destroy =>
    rw [(destroy_fields s).1] at halive'
    cases halive'
  | @runTask event task multiInit hp htask =>
    have htake : Untimed (s.take event) := ⟨h.fault, h.timer, h.idle, h.curlm, h.events⟩
    cases task with
    | init =>
      have heq : s.runTask event .init multiInit = (s.take event).init multiInit :=
        if_pos halive
      rw [heq]
      cases multiInit with
      | null => exact Or.inr htake
      | setoptFails => exact absurd rfl ho
      | ok =>
        rw [init_ok]
        apply Or.inl
        apply Timed.restartTimer
        exact ⟨h.fault, rfl, rfl⟩
    | add curl =>
      have heq : s.runTask event (.add curl) multiInit =
          { (s.take event).useCurlm.addHandle curl with
            point := if (s.take event).curlm = .live then .inCurl .add else .idle } :=
        if_pos halive
      -- there is no multi handle that the transfer could be added to
      have hadd : (s.take event).useCurlm.addHandle curl = (s.take event).useCurlm :=
        if_neg fun hcurlm => absurd (h.curlm.symm.trans hcurlm.1) (by rintro ⟨⟩)
      rw [heq, hadd, if_neg (by simp [h.curlm])]
      have hfault : (s.take event).useCurlm.fault = false :=
        (fault_useCurlm _).mpr ⟨h.fault, by simp [h.curlm]⟩
      exact Or.inr ⟨hfault, h.timer, rfl, h.curlm, h.events⟩
    | cleanup =>
      rw [hw.cleanup event htask] at halive
      cases halive
  | evTimerCB htimer =>
    rw [h.timer] at htimer
    cases htimer
  | evSocketCB _ hevent => exact absurd hevent (h.events _ _)
  | curlSocketCB hin | curlTimerCB hin | finish hin =>
    rw [inLibcurl, h.idle] at hin
    simp [Point.inLibcurl] at hin
  | curlReturns hr =>
    have hin := hr.inLibcurl
    rw [h.idle] at hin
    cases hin
  | read hp | handlerEnds hp | jobsEnd hp | jobsEscape hp | clean hp | cleaned hp =>
    rw [h.idle] at hp
    cases hp

/-- Before its destruction, there is no undefined behaviour. -/
theorem ready_step (h : Ready s) (ho : Orderly l s) (hx : step l s = some s') (hw : Wf s) :
    Ready s' := by
  intro halive'
  have halive := (later_step hx).alive halive'
  rcases h halive with h | h
  · exact Or.inl (timed_step h halive ho hx halive' hw)
  · exact untimed_step h halive ho hx halive' hw

theorem ready_of_steps (hr : Steps step Orderly (start now) ls s) : Ready s := by
  have h := hr.invariant (I := fun s => (Defined s → Wf s ∧ Settled s) ∧ Ready s) ?_
    ⟨fun _ => ⟨wf_start now, settled_start now⟩, fun _ => Or.inr ⟨rfl, rfl, rfl, rfl, nofun⟩⟩
  · exact h.2
  rintro l s s' ⟨hwf, h⟩ ho hx
  refine ⟨fun hdefined => ?_, fun halive' => ?_⟩
  · obtain ⟨hw, hsettled⟩ := hwf ((later_step hx).defined hdefined)
    exact ⟨wf_step l s s' hw ho.fresh hx hdefined, settled_step l s s' hw hsettled hx⟩
  · have halive := (later_step hx).alive halive'
    exact ready_step h ho hx (hwf (Or.inl halive)).1 halive'

/-- **While the runner is there, nothing is undefined**, in every run in which it is given new
transfers only, its multi handle can be set up, `run` is not called before there is a timer, and
`_errlog` does not throw while cURL calls the runner back. -/
theorem safe_while_alive (now : ℕ) (ls : List Label) (s : Loop)
    (hr : Steps step Orderly (start now) ls s) (halive : s.alive = true) : s.fault = false := by
  rcases ready_of_steps hr halive with h | h
  · exact h.fault
  · exact h.fault

/-- cURL fails and `_errlog` throws, and later a handler throws. -/
theorem safe_while_alive_throws :
    let ls : List Label := [.runTask 0 .ok, .multi 7, .doInEv 7, .runTask 2 .ok, .curlSocketCB 7 2,
      .curlTimerCB 0 (some []) false, .curlReturns none false, .evSocketCB 3, .finish 7,
      .curlReturns (some []) true, .run, .read, .handlerEnds (some .other), .curlReturns none false]
    ∃ s, Steps step Orderly (start 0) ls s ∧ s.fault = false := by
  intro ls
  obtain ⟨s, hs⟩ : ∃ s, runGuarded step Orderly ls (start 0) = some s := ⟨_, rfl⟩
  have halive : (runGuarded step Orderly ls (start 0)).map Loop.alive = some true := rfl
  rw [hs] at halive
  have hr := steps_of_runGuarded hs
  exact ⟨s, hr, safe_while_alive 0 ls s hr (Option.some.inj halive)⟩

end Ready

/-! ## Behind the destruction -/

/-- What a quiet runner leaves behind its destructor. -/
structure Left (s : Loop) : Prop where
  alive : s.alive = false
  fault : s.fault = false
  timer : s.timer = none
  registering : s.registering = []
  dugouts : ∀ d ∈ s.dugouts, d.2 = .cleanup
  added : s.added = []
  events : ∀ curl id, s.handlers.lookup curl ≠ some (some id)
  curlm : s.curlm ≠ .dangling
  point : s.point = .idle ∨ ∃ todo, s.point = .cleaning todo

section Left

variable {s s' : Loop} {l : Label} {ls : List Label} {now : ℕ}

/-- cURL has nothing to call back for. -/
theorem Left.inLibcurl (h : Left s) : s.point.inLibcurl s.added = false := by
  rw [h.added]
  rcases h.point with hp | ⟨todo, hp⟩
  · simp [hp, Point.inLibcurl]
  · simp [hp, Point.inLibcurl]

theorem Left.useCurlm (h : Left s) : Left s.useCurlm :=
  { h with fault := (fault_useCurlm s).mpr ⟨h.fault, h.curlm⟩ }

/-- Nothing of that accesses the runner. -/
theorem left_step (h : Left s) (hl : Unattended l s) (hx : step l s = some s') : Left s' := by
  cases moves_of_step hx with
  | tick => exact { h with }
  | multi => exact hl.elim
  | run => exact hl.elim
  | doInEv hin =>
    rw [h.registering] at hin
    cases hin
  | destroy halive =>
    rw [h.alive] at halive
    cases halive
  | runTask hp htask =>
    obtain rfl := h.dugouts _ htask
    exact { h with
      dugouts := fun d hd => h.dugouts d (mem_filter_dugouts.mp hd).1
      point := Or.inr ⟨_, rfl⟩ }
  | evTimerCB htimer =>
    rw [h.timer] at htimer
    cases htimer
  | evSocketCB _ hevent => exact absurd hevent (h.events _ _)
  | curlSocketCB hin | curlTimerCB hin | finish hin =>
    rw [Loop.inLibcurl, h.inLibcurl] at hin
    simp at hin
  | curlReturns hr =>
    have hin := hr.inLibcurl
    rw [h.inLibcurl] at hin
    cases hin
  | @clean curl todo hp _ =>
    have hadded : curl ∉ s.added := by
      rw [h.added]
      exact List.not_mem_nil
    -- cURL does not have the transfer
    have hremove : s.useCurlm.removeHandle curl = s.useCurlm := if_neg hadded
    rw [clean, hremove]
    exact { h.useCurlm with point := Or.inr ⟨_, rfl⟩ }
  | cleaned hp =>
    have hnone : ∀ curl id,
        (SortedMap.empty : SortedMap ℕ (Option ℕ)).lookup curl ≠ some (some id) := by simp
    rw [Loop.cleaned]
    split_ifs with hnull
    · exact { h with events := hnone, point := Or.inl rfl }
    · exact { h.useCurlm with events := hnone, curlm := by simp, point := Or.inl rfl }
  | read hp' | handlerEnds hp' | jobsEnd hp' | jobsEscape hp' =>
    -- the event loop is not at the point of such a step
    rcases h.point with hp | ⟨todo, hp⟩
    · cases hp.symm.trans hp'
    · cases hp.symm.trans hp'

theorem left_of_steps (hr : Steps step Unattended s ls s') (h : Left s) : Left s' :=
  hr.invariant (fun _ _ _ h hl hx => left_step h hl hx) h

/-- The destructor of a quiet runner. -/
theorem left_destroy (h : Quiet s) (hfault : s.fault = false) : Left s.destroy := by
  rw [destroy]
  cases htimer : s.timer with
  | none =>
    refine ⟨rfl, hfault, htimer, h.registering, fun d hd => ?_, h.added, h.events, h.curlm,
      Or.inl h.idle⟩
    obtain rfl : d = (s.nextEvent, .cleanup) := by simpa [doInEv, h.dugouts] using hd
    rfl
  | some timer =>
    refine ⟨rfl, hfault, rfl, h.registering, fun d hd => ?_, h.added, h.events, h.curlm,
      Or.inl h.idle⟩
    obtain rfl : d = (s.nextEvent, .cleanup) := by simpa [doInEv, record, h.dugouts] using hd
    rfl

end Left

/-! ## When the runner can be destroyed -/

section Destroy

variable {s : Loop}

/-- One step that is undefined. -/
theorem exists_fault {t : Loop} {l : Label} (hl : Unattended l s) (hx : step l s = some t)
    (hfault : t.fault = true) :
    ∃ ls t, Steps step Unattended s ls t ∧ t.fault = true :=
  ⟨[l], t, .cons hl hx (.nil t), hfault⟩

/-- A step before others, of which one is undefined. -/
theorem exists_fault_cons {t : Loop} {l : Label} (hl : Unattended l s) (hx : step l s = some t)
    (h : ∃ ls t', Steps step Unattended t ls t' ∧ t'.fault = true) :
    ∃ ls t, Steps step Unattended s ls t ∧ t.fault = true := by
  obtain ⟨ls, t', hr, hfault⟩ := h
  exact ⟨l :: ls, t', .cons hl hx hr, hfault⟩

theorem fault_access {f : Loop → Loop} (hdead : s.alive = false) : (s.access f).fault = true := by
  rw [access, hdead]
  rfl

/-- What cURL calls back. -/
theorem exists_fault_of_inLibcurl (hdead : s.alive = false) (hp : s.inLibcurl = true) :
    ∃ ls t, Steps step Unattended s ls t ∧ t.fault = true :=
  exists_fault (l := .curlTimerCB 1 none false) (t := s.curlTimerCB 1 none false) trivial
    (if_pos hp) (fault_access hdead)

/-- The multi handle was freed before the destruction, and its function uses it. -/
theorem exists_fault_of_dangling (hcurlm : s.curlm = .dangling) {todo : List ℕ}
    (hp : s.point = .cleaning todo) :
    ∃ ls t, Steps step Unattended s ls t ∧ t.fault = true := by
  have huse : s.useCurlm.fault = true := by
    rw [useCurlm, hcurlm]
    exact Bool.or_true _
  cases todo with
  | nil =>
    refine exists_fault (l := .cleaned) (t := s.cleaned) trivial (by rw [step, if_pos hp]) ?_
    rw [cleaned, if_neg (by rw [hcurlm]; rintro ⟨⟩)]
    exact huse
  | cons curl todo =>
    refine exists_fault (l := .clean curl) (t := s.clean curl (curl :: todo)) trivial
      (by rw [step, hp]; exact if_pos List.mem_cons_self) ?_
    exact (fault_removeHandle _ curl).trans huse

/-- Behind the destruction, the event loop is at a point from which it goes on to something
undefined. -/
theorem exists_fault_of_not_idle (hw : Wf s) (halive : s.alive = true)
    (hlocked : s.point.locked = false) (hidle : s.point ≠ .idle) :
    ∃ ls t, Steps step Unattended s.destroy ls t ∧ t.fault = true := by
  obtain ⟨hdead, hpoint, -, -, -, hcurlm, -⟩ := destroy_fields s
  cases hp : s.point with
  | idle => exact absurd hp hidle
  | inCurl caller =>
    cases caller with
    | add =>
      refine exists_fault_of_inLibcurl hdead ?_
      rw [inLibcurl, hcurlm, hpoint, hp, hw.adding hp]
      rfl
    | evTimerCB =>
      refine exists_fault (l := .curlReturns none false) trivial
        (by rw [step, hpoint, hp, curlReturns]) ?_
      exact fault_access hdead
    | evSocketCB =>
      -- an error is logged
      refine exists_fault (l := .curlReturns (some []) false) trivial
        (by rw [step, hpoint, hp, curlReturns]) ?_
      exact fault_access (f := check (some [])) hdead
  | handling curl more =>
    refine exists_fault (l := .handlerEnds none) trivial (by rw [step, hpoint, hp]) ?_
    exact fault_access hdead
  | jobs =>
    refine exists_fault (l := .jobsEnd) trivial (by rw [step, if_pos (hpoint.trans hp)]) ?_
    exact fault_access hdead
  | cleaning todo =>
    rw [hw.cleaning todo hp] at halive
    cases halive
  | _ =>
    rw [hp] at hlocked
    cases hlocked

/-- The function of the destructor has something to do that is undefined. -/
theorem exists_fault_of_cleanup (hw : Wf s) (hidle : s.point = .idle)
    (hdugouts : s.dugouts = []) (h : s.added ≠ [] ∨ s.curlm = .dangling) :
    ∃ ls t, Steps step Unattended s.destroy ls t ∧ t.fault = true := by
  obtain ⟨hdead, hpoint, -, hhandlers, hdug, hcurlm, hadded, -⟩ := destroy_fields s
  have hlookup : s.destroy.dugouts.lookup s.nextEvent = some .cleanup := by
    rw [hdug, hdugouts, List.nil_append, List.lookup_cons_self]
  have hx : step (.runTask s.nextEvent .ok) s.destroy =
      some (s.destroy.runTask s.nextEvent .cleanup .ok) := by
    rw [step, if_pos (hpoint.trans hidle), hlookup]
    rfl
  refine exists_fault_cons (l := .runTask s.nextEvent .ok) trivial hx ?_
  rcases h with h | hdangling
  · -- cURL has a transfer, that is removed from the multi handle
    obtain ⟨curl, hcurl⟩ := List.exists_mem_of_ne_nil _ h
    have hmulti : s.Owns .multi :=
      hw.balanced.owned_of_joined (show s.Joined (.inMulti curl) .multi from ⟨rfl, hcurl⟩)
    have heasy : s.Owns (.easy curl) :=
      hw.balanced.owned_of_joined (show s.Joined (.inEasy curl) (.easy curl) from ⟨rfl, hcurl⟩)
    have hsome := (hasEasy_of_inMap (by rw [hidle]; rfl) curl).mp heasy
    refine exists_fault_of_inLibcurl hdead ?_
    have hlive : s.destroy.curlm = .live := hcurlm.trans hmulti
    have hany : s.destroy.handlers.keys.any (· ∈ s.destroy.added) = true := by
      rw [hhandlers, hadded, List.any_eq_true]
      exact ⟨curl, SortedMap.mem_keys.mpr hsome, decide_eq_true hcurl⟩
    exact decide_eq_true ⟨hlive, hany⟩
  · exact exists_fault_of_dangling (hcurlm.trans hdangling) rfl

/-- If the runner is not quiet, then something is undefined behind its destruction. -/
theorem exists_fault_of_not_quiet (hw : Wf s) (halive : s.alive = true)
    (hlocked : s.point.locked = false) (h : ¬ Quiet s) :
    ∃ ls t, Steps step Unattended s.destroy ls t ∧ t.fault = true := by
  obtain ⟨hdead, hpoint, hregistering, hhandlers, hdugouts, -⟩ := destroy_fields s
  by_cases hidle : s.point = .idle
  case neg => exact exists_fault_of_not_idle hw halive hlocked hidle
  by_cases hreg : s.registering = []
  case neg =>
    obtain ⟨curl, hcurl⟩ := List.exists_mem_of_ne_nil _ hreg
    refine exists_fault (l := .doInEv curl) trivial
      (by rw [step, if_pos (by rwa [hregistering])]) ?_
    exact fault_access hdead
  cases hdug : s.dugouts with
  | cons d rest =>
    obtain ⟨event, task⟩ := d
    have hlookup : s.destroy.dugouts.lookup event = some task := by
      rw [hdugouts, hdug, List.cons_append, List.lookup_cons_self]
    have hx : step (.runTask event .ok) s.destroy = some (s.destroy.runTask event task .ok) := by
      rw [step, if_pos (hpoint.trans hidle), hlookup]
      rfl
    refine exists_fault (l := .runTask event .ok) trivial hx ?_
    cases task with
    | init => exact fault_access hdead
    | add curl => exact fault_access hdead
    | cleanup =>
      rw [hw.cleanup event (by rw [hdug]; exact List.mem_cons_self)] at halive
      cases halive
  | nil =>
    by_cases hevents : ∀ curl id, s.handlers.lookup curl ≠ some (some id)
    case neg =>
      -- a socket is watched
      obtain ⟨curl, id, hlookup⟩ : ∃ curl id, s.handlers.lookup curl = some (some id) := by
        simpa using hevents
      have hin : some id ∈ s.destroy.handlers.entries.map Prod.snd := by
        rw [hhandlers]
        exact List.mem_map.mpr ⟨(curl, some id), SortedMap.lookup_eq_some_iff.mp hlookup, rfl⟩
      refine exists_fault (l := .evSocketCB id) trivial
        (by rw [step, if_pos ⟨hpoint.trans hidle, hin⟩]) ?_
      exact fault_access hdead
    refine exists_fault_of_cleanup hw hidle hdug ?_
    by_contra hnot
    rw [not_or, not_ne_iff] at hnot
    exact h ⟨hidle, hreg, hdug, hnot.1, hevents, hnot.2⟩

/-- **The runner can be destroyed** in a run in which nothing is undefined so far, and nothing
becomes so behind its destruction, if and only if the event loop is in libevent, no call of `multi`
is in work, all functions of `doInEv` have been run, cURL has no transfer and no socket is watched,
and the multi handle has not been freed by a failing setup. -/
theorem destroy_safe_iff (now : ℕ) (ls : List Label) (s s' : Loop)
    (hr : Steps step Fresh (start now) ls s) (hfault : s.fault = false)
    (hx : step .destroy s = some s') :
    (∀ ls' t, Steps step Unattended s' ls' t → t.fault = false) ↔ Quiet s := by
  obtain ⟨hw, -⟩ := wf_of_steps hr (Or.inr hfault)
  rw [step] at hx
  split_ifs at hx with halive
  obtain rfl := Option.some.inj hx
  constructor
  · intro h
    by_contra hquiet
    obtain ⟨ls', t, hr', hfault'⟩ := exists_fault_of_not_quiet hw halive.1 halive.2 hquiet
    rw [h ls' t hr'] at hfault'
    cases hfault'
  · intro hquiet ls' t hr'
    exact (left_of_steps hr' (left_destroy hquiet hfault)).fault

/-- A runner without a multi handle can be destroyed, also if it has a transfer. -/
theorem destroy_safe_null :
    let ls : List Label := [.runTask 0 .null, .multi 7, .doInEv 7, .runTask 1 .ok]
    ∃ s s', Steps step Fresh (start 0) ls s ∧ s.fault = false ∧ step .destroy s = some s' ∧
      ((∀ ls' t, Steps step Unattended s' ls' t → t.fault = false) ↔ Quiet s) ∧ Quiet s := by
  intro ls
  obtain ⟨s, hs⟩ : ∃ s, runGuarded step Fresh ls (start 0) = some s := ⟨_, rfl⟩
  obtain ⟨s', hs'⟩ : ∃ s', (runGuarded step Fresh ls (start 0)).bind (step .destroy) = some s' :=
    ⟨_, rfl⟩
  rw [hs] at hs'
  have hr := steps_of_runGuarded hs
  have hquiet : s.fault = false ∧ Quiet s := by
    cases hs
    refine ⟨rfl, rfl, rfl, rfl, rfl, fun curl id hlookup => ?_, nofun⟩
    have hin : (curl, some id) ∈ [((7 : ℕ), (none : Option ℕ))] :=
      SortedMap.lookup_eq_some_iff.mp hlookup
    simp at hin
  exact ⟨s, s', hr, hquiet.1, hs', destroy_safe_iff 0 _ s s' hr hquiet.1 hs', hquiet.2⟩

end Destroy

end Glim.Runner.Loop
