import Glim.Runner.Loop

/-!
# What the runner owns

The runner owns its events and the functions behind them, the multi handle, and the transfers that
it was given. The invariant of the event loop is that the ledger is balanced with that; the parts of
a step keep it.

## Main definitions

* `Loop.Owns`, `Loop.Joined`: what the runner owns, and what cURL has
* `Loop.Wf`: the invariant
* `Loop.Defined`: where the invariant is kept
* `Loop.Fresh`: `multi` is called with new transfers

## Main results

* `Loop.Wf.congr`: what the invariant does not depend on
* `Loop.wf_take`, `Loop.wf_insertHandler`, `Loop.wf_addHandle`, `Loop.wf_freeCurl`: the functions of
  `doInEv`, and the way of a transfer through the runner
-/

namespace Glim.Runner.Loop

open Machine Ledger Table Thread

/-! ## What the runner owns -/

/-- Who has an event. -/
inductive Owner where
  | dugouts
  | timer
  | transfer (curl : ℕ)
  deriving DecidableEq

/-- Who has which event. -/
def Has (s : Loop) : Owner → ℕ → Prop
  | .dugouts, id => ∃ task, (id, task) ∈ s.dugouts
  | .timer, id => s.timer.map Timer.event = some id
  | .transfer curl, id => s.handlers.lookup curl = some (some id)

/-- The transfer is in `_handlers`, or is on its way out of there. -/
def HasEasy (s : Loop) (curl : ℕ) : Prop :=
  match s.point with
  | .cleaning todo => curl ∈ todo
  | .removing c _ _ => curl = c ∨ (s.handlers.lookup curl).isSome
  | _ => (s.handlers.lookup curl).isSome

/-- What the runner owns. -/
def Owns (s : Loop) : Resource → Prop
  | .event id => ∃ o, s.Has o id
  | .dugout id => s.Has .dugouts id
  | .multi => s.curlm = .live
  | .easy curl => s.HasEasy curl

/-- What cURL has. -/
def Joined (s : Loop) : Link → Resource → Prop
  | .inMulti curl, r => r = .multi ∧ curl ∈ s.added
  | .inEasy curl, r => r = .easy curl ∧ curl ∈ s.added

/-- The transfer that a function is to add. -/
def taskCurl : Task → Option ℕ
  | .add curl => some curl
  | _ => none

/-- The transfers that cURL is still to be given. -/
def pending (s : Loop) : List ℕ := s.registering ++ s.dugouts.filterMap fun d => taskCurl d.2

/-- The transfer has not been given to cURL. -/
def Unlinked (s : Loop) (curl : ℕ) : Prop :=
  ∀ r, .attach (.inMulti curl) r ∉ s.log ∧ .attach (.inEasy curl) r ∉ s.log

/-- The invariant. -/
structure Wf (s : Loop) : Prop where
  balanced : Balanced s.log s.Owns s.Joined
  ids : ∀ id, .acquire (.event id) ∈ s.log ∨ .acquire (.dugout id) ∈ s.log → id < s.nextEvent
  unique : ∀ id o o', s.Has o id → s.Has o' id → o = o'
  dugouts : (s.dugouts.map Prod.fst).Nodup
  init : ∀ id, (id, Task.init) ∈ s.dugouts → id = 0 ∧ .acquire .multi ∉ s.log ∧ s.timer = none
  cleanup : ∀ id, (id, Task.cleanup) ∈ s.dugouts → s.alive = false
  cleaning : ∀ todo, s.point = .cleaning todo → s.alive = false
  adding : s.point = .inCurl .add → s.curlm = .live
  pending : s.pending.Nodup
  waiting : ∀ curl ∈ s.pending, .acquire (.easy curl) ∈ s.log ∧ s.Unlinked curl ∧
    (s.alive = true → (s.handlers.lookup curl).isSome)
  links : ∀ curl, .acquire (.easy curl) ∉ s.log → s.Unlinked curl
  removing : ∀ curl thrown more, s.point = .removing curl thrown more →
    s.handlers.lookup curl = none ∧ curl ∉ s.added
  handling : ∀ curl more, s.point = .handling curl more → s.alive = true →
    (s.handlers.lookup curl).isSome ∧ curl ∈ s.added
  messages : s.messages.Nodup
  queued : ∀ curl ∈ s.messages, curl ∈ s.added ∧ curl ∈ s.finished ∧ curl ∉ s.handled
  handled : s.handled.Nodup
  ended : ∀ curl ∈ s.handled, curl ∈ s.finished

/-- The runner is there, or there has been no undefined behaviour. -/
def Defined (s : Loop) : Prop := s.alive = true ∨ s.fault = false

theorem Later.defined {s s' : Loop} (h : Later s s') (hdefined : Defined s') : Defined s := by
  refine hdefined.imp h.alive fun hfault => ?_
  rw [← Bool.not_eq_true] at hfault ⊢
  exact fun hfault' => hfault (h.fault hfault')

/-- `multi` is called with a transfer that the runner has not been given before. -/
def Fresh : Label → Loop → Prop
  | .multi curl, s => .acquire (.easy curl) ∉ s.log
  | _, _ => True

instance instDecidableFresh (l : Label) (s : Loop) : Decidable (Fresh l s) :=
  match l with
  | .multi curl => inferInstanceAs (Decidable (.acquire (.easy curl) ∉ s.log))
  | .tick _ | .doInEv _ | .run | .destroy | .runTask _ _ | .evTimerCB | .evSocketCB _
  | .curlSocketCB _ _ | .curlTimerCB _ _ _ | .finish _ | .curlReturns _ _ | .read | .handlerEnds _
  | .jobsEnd | .jobsEscape | .clean _ | .cleaned => inferInstanceAs (Decidable True)

/-! ## What the ledger does not depend on -/

/-- The two agree in all that the invariant is about, but for where the event loop is. -/
structure Same (s s' : Loop) : Prop where
  alive : s'.alive = s.alive
  handlers : ∀ curl, s'.handlers.lookup curl = s.handlers.lookup curl
  curlm : s'.curlm = s.curlm
  timer : s'.timer.map Timer.event = s.timer.map Timer.event
  dugouts : s'.dugouts = s.dugouts
  registering : s'.registering = s.registering
  nextEvent : s'.nextEvent = s.nextEvent
  added : s'.added = s.added
  finished : s'.finished = s.finished
  messages : s'.messages = s.messages
  handled : s'.handled = s.handled
  log : s'.log = s.log

/-- The map has the transfers, no handler is being called, and no transfer is being added. -/
def Point.plain : Point → Bool
  | .idle => true
  | .inCurl caller => caller ≠ .add
  | .reading => true
  | .jobs => true
  | _ => false

section Same

variable {s s' : Loop}

theorem Same.has (h : Same s s') (o : Owner) (id : ℕ) : s'.Has o id ↔ s.Has o id := by
  cases o with
  | dugouts => simp only [Has, h.dugouts]
  | timer => simp only [Has, h.timer]
  | transfer curl => simp only [Has, h.handlers]

theorem Same.pending (h : Same s s') : s'.pending = s.pending := by
  simp only [Loop.pending, h.registering, h.dugouts]

theorem Same.unlinked (h : Same s s') (curl : ℕ) : s'.Unlinked curl ↔ s.Unlinked curl := by
  simp only [Unlinked, h.log]

/-- The invariant, at another point of the event loop. -/
theorem Wf.congr (hw : Wf s) (h : Same s s') (heasy : ∀ curl, s'.HasEasy curl ↔ s.HasEasy curl)
    (hpoint : s'.point = s.point ∨ s'.point.plain = true) : Wf s' := by
  -- a plain point is none of those that the invariant speaks of
  have hto : ∀ p, s'.point = p → p.plain = false → s.point = p := by
    intro p hp hplain
    rcases hpoint with heq | hp'
    · exact heq ▸ hp
    · rw [hp, hplain] at hp'
      cases hp'
  refine ⟨?_, ?_, ?_, ?_, ?_, ?_, ?_, ?_, ?_, ?_, ?_, ?_, ?_, ?_, ?_, ?_, ?_⟩
  · rw [h.log]
    refine hw.balanced.congr (fun r => ?_) fun d r => ?_
    · cases r with
      | event id => exact exists_congr fun o => h.has o id
      | dugout id => exact h.has .dugouts id
      | multi => simp only [Owns, h.curlm]
      | easy curl => exact heasy curl
    · cases d with
      | inMulti curl => simp only [Joined, h.added]
      | inEasy curl => simp only [Joined, h.added]
  · rw [h.log, h.nextEvent]
    exact hw.ids
  · intro id o o' ho ho'
    exact hw.unique id o o' ((h.has o id).mp ho) ((h.has o' id).mp ho')
  · rw [h.dugouts]
    exact hw.dugouts
  · intro id hid
    rw [h.dugouts] at hid
    obtain ⟨hzero, hnot, htimer⟩ := hw.init id hid
    have hnone := h.timer
    rw [htimer, Option.map_none, Option.map_eq_none_iff] at hnone
    rw [h.log]
    exact ⟨hzero, hnot, hnone⟩
  · rw [h.dugouts, h.alive]
    exact hw.cleanup
  · intro todo htodo
    rw [h.alive]
    exact hw.cleaning todo (hto _ htodo rfl)
  · intro hp
    rw [h.curlm]
    exact hw.adding (hto _ hp rfl)
  · rw [h.pending]
    exact hw.pending
  · intro curl hcurl
    rw [h.pending] at hcurl
    rw [h.log, h.alive, h.handlers, h.unlinked]
    exact hw.waiting curl hcurl
  · intro curl hcurl
    rw [h.log] at hcurl
    exact (h.unlinked curl).mpr (hw.links curl hcurl)
  · intro curl thrown more hp
    rw [h.handlers, h.added]
    exact hw.removing curl thrown more (hto _ hp rfl)
  · intro curl more hp
    rw [h.alive, h.handlers, h.added]
    exact hw.handling curl more (hto _ hp rfl)
  · rw [h.messages]
    exact hw.messages
  · rw [h.messages, h.added, h.finished, h.handled]
    exact hw.queued
  · rw [h.handled]
    exact hw.handled
  · rw [h.handled, h.finished]
    exact hw.ended

/-- The event loop stays where it is. -/
theorem Wf.stay (hw : Wf s) (h : Same s s') (hpoint : s'.point = s.point) : Wf s' := by
  refine hw.congr h (fun curl => ?_) (Or.inl hpoint)
  simp only [HasEasy, hpoint, h.handlers]

theorem wf_useCurlm (hw : Wf s) : Wf s.useCurlm :=
  hw.stay (by constructor <;> intros <;> rfl) rfl

/-- The map has the transfers. -/
def Point.inMap : Point → Bool
  | .removing _ _ _ => false
  | .cleaning _ => false
  | _ => true

theorem hasEasy_of_inMap (h : s.point.inMap = true) (curl : ℕ) :
    s.HasEasy curl ↔ (s.handlers.lookup curl).isSome := by
  unfold HasEasy
  cases hp : s.point with
  | removing c thrown more =>
    rw [hp] at h
    cases h
  | cleaning todo =>
    rw [hp] at h
    cases h
  | _ => rfl

theorem Point.inMap_of_plain {p : Point} (h : p.plain = true) : p.inMap = true := by
  cases p with
  | removing curl thrown more => cases h
  | cleaning todo => cases h
  | _ => rfl

/-- The event loop goes on, and nothing is being freed. -/
theorem Wf.go (hw : Wf s) (h : Same s s') (hfrom : s.point.inMap = true)
    (hto : s'.point.plain = true) : Wf s' := by
  refine hw.congr h (fun curl => ?_) (Or.inr hto)
  rw [hasEasy_of_inMap hfrom, hasEasy_of_inMap (Point.inMap_of_plain hto), h.handlers]

end Same

/-! ## Events -/

section Events

variable {s s' : Loop} {o₀ : Owner} {n : ℕ}

theorem owns_event {o : Owner} (h : s.Has o n) : s.Owns (.event n) := ⟨o, h⟩

theorem Wf.lt_of_has (hw : Wf s) {o : Owner} {id : ℕ} (h : s.Has o id) : id < s.nextEvent :=
  hw.ids id (Or.inl (hw.balanced.acquire_mem (owns_event h)))

theorem Wf.not_acquired (hw : Wf s) :
    .acquire (.event s.nextEvent) ∉ s.log ∧ .acquire (.dugout s.nextEvent) ∉ s.log :=
  ⟨fun h => lt_irrefl _ (hw.ids _ (Or.inl h)), fun h => lt_irrefl _ (hw.ids _ (Or.inr h))⟩

/-- A new event has one owner. -/
theorem Wf.unique_give (hw : Wf s)
    (h : ∀ o id, s'.Has o id ↔ o = o₀ ∧ id = s.nextEvent ∨ s.Has o id) (id : ℕ) (o o' : Owner)
    (ho : s'.Has o id) (ho' : s'.Has o' id) : o = o' := by
  rcases (h o id).mp ho with ⟨rfl, rfl⟩ | ho
  · rcases (h o' _).mp ho' with ⟨rfl, -⟩ | ho'
    · rfl
    · exact absurd (hw.lt_of_has ho') (lt_irrefl _)
  · rcases (h o' id).mp ho' with ⟨rfl, rfl⟩ | ho'
    · exact absurd (hw.lt_of_has ho) (lt_irrefl _)
    · exact hw.unique id o o' ho ho'

theorem exists_has_give (h : ∀ o id, s'.Has o id ↔ o = o₀ ∧ id = n ∨ s.Has o id) (id : ℕ) :
    (∃ o, s'.Has o id) ↔ id = n ∨ ∃ o, s.Has o id := by
  simp only [h]
  constructor
  · rintro ⟨o, ⟨-, hid⟩ | ho⟩
    · exact Or.inl hid
    · exact Or.inr ⟨o, ho⟩
  · rintro (hid | ⟨o, ho⟩)
    · exact ⟨o₀, Or.inl ⟨rfl, hid⟩⟩
    · exact ⟨o, Or.inr ho⟩

/-- An event that its owner loses has none. -/
theorem Wf.has_take (hw : Wf s) (s' : Loop) (hn : s.Has o₀ n)
    (hself : ∀ id, s'.Has o₀ id ↔ s.Has o₀ id ∧ id ≠ n)
    (hother : ∀ o, o ≠ o₀ → ∀ id, s'.Has o id ↔ s.Has o id) (o : Owner) (id : ℕ) :
    s'.Has o id ↔ s.Has o id ∧ id ≠ n := by
  by_cases ho : o = o₀
  · subst ho
    exact hself id
  · rw [hother o ho]
    refine ⟨fun h => ⟨h, ?_⟩, And.left⟩
    rintro rfl
    exact ho (hw.unique id o o₀ h hn)

theorem exists_has_take (h : ∀ o id, s'.Has o id ↔ s.Has o id ∧ id ≠ n) (id : ℕ) :
    (∃ o, s'.Has o id) ↔ (∃ o, s.Has o id) ∧ id ≠ n := by
  simp only [h, exists_and_right]

end Events

/-! ## The functions of `doInEv` -/

section Tasks

variable {s : Loop} {task : Task} {id curl : ℕ}

theorem has_doInEv (o : Owner) (id : ℕ) : (s.doInEv task).Has o id ↔
    o = .dugouts ∧ id = s.nextEvent ∨ s.Has o id := by
  cases o with
  | dugouts =>
    simp only [Has, doInEv, List.mem_append, List.mem_singleton, Prod.mk.injEq, exists_or,
      exists_and_left, exists_eq, and_true, true_and]
    exact or_comm
  | timer => simp [Has, doInEv]
  | transfer curl => simp [Has, doInEv]

theorem pending_doInEv : (s.doInEv task).pending = s.pending ++ (taskCurl task).toList := by
  cases h : taskCurl task with
  | none => simp [pending, doInEv, h]
  | some curl => simp [pending, doInEv, h]

/-- Entries that attach nothing. -/
theorem unlinked_doInEv : (s.doInEv task).Unlinked curl ↔ s.Unlinked curl := by
  simp [Unlinked, doInEv]

theorem wf_doInEv (hw : Wf s) (hinit : task ≠ .init) (hcleanup : task = .cleanup → s.alive = false)
    (hcurl : ∀ curl, taskCurl task = some curl → curl ∉ s.pending ∧
      .acquire (.easy curl) ∈ s.log ∧ s.Unlinked curl ∧
        (s.alive = true → (s.handlers.lookup curl).isSome)) : Wf (s.doInEv task) := by
  obtain ⟨hevent, hdugout⟩ := hw.not_acquired
  have hmem : ∀ d : ℕ × Task, d ∈ (s.doInEv task).dugouts ↔
      d ∈ s.dugouts ∨ d = (s.nextEvent, task) := by
    intro d
    simp [doInEv]
  refine { hw with
    balanced := ?_, ids := ?_, unique := hw.unique_give has_doInEv, dugouts := ?_, init := ?_,
    cleanup := ?_, pending := ?_, waiting := ?_, links := ?_ }
  -- the event and the function behind it
  · refine ((hw.balanced.acquire hdugout).acquire (r := .event s.nextEvent)
      (by simpa using hevent)).congr (fun r => ?_) fun d r => Iff.rfl
    cases r with
    | event id => simpa [Owns] using exists_has_give has_doInEv id
    | dugout id => simpa [Owns] using has_doInEv .dugouts id
    | multi => simp [Owns, doInEv]
    | easy curl => simp [Owns, HasEasy, doInEv]
  · intro id hid
    simp only [doInEv, List.mem_cons, Entry.acquire.injEq, Resource.event.injEq,
      Resource.dugout.injEq, reduceCtorEq, false_or] at hid
    show id < s.nextEvent + 1
    rcases hid with (rfl | hid) | rfl | hid
    · exact Nat.lt_succ_self _
    · exact Nat.lt_succ_of_lt (hw.ids id (Or.inl hid))
    · exact Nat.lt_succ_self _
    · exact Nat.lt_succ_of_lt (hw.ids id (Or.inr hid))
  · show ((s.dugouts ++ [(s.nextEvent, task)]).map Prod.fst).Nodup
    rw [List.map_append, List.nodup_append]
    refine ⟨hw.dugouts, by simp, fun a ha b hb => ?_⟩
    obtain ⟨d, hd, rfl⟩ := List.mem_map.mp ha
    obtain rfl : b = s.nextEvent := by simpa using hb
    exact ne_of_lt (hw.lt_of_has (o := .dugouts) ⟨d.2, hd⟩)
  · intro id hid
    rcases (hmem _).mp hid with hid | hid
    · obtain ⟨hzero, hnot, htimer⟩ := hw.init id hid
      exact ⟨hzero, by simpa [doInEv] using hnot, htimer⟩
    · exact absurd (Prod.mk.inj hid).2.symm hinit
  · intro id hid
    rcases (hmem _).mp hid with hid | hid
    · exact hw.cleanup id hid
    · exact hcleanup (Prod.mk.inj hid).2.symm
  · rw [pending_doInEv, List.nodup_append]
    refine ⟨hw.pending, ?_, fun a ha b hb => ?_⟩
    · cases taskCurl task with
      | none => exact List.nodup_nil
      | some curl => exact List.nodup_singleton curl
    · rw [Option.mem_toList] at hb
      rintro rfl
      exact (hcurl a hb).1 ha
  · intro curl hin
    rw [unlinked_doInEv]
    have hlog : .acquire (.easy curl) ∈ (s.doInEv task).log ↔ .acquire (.easy curl) ∈ s.log := by
      simp [doInEv]
    rw [hlog]
    rw [pending_doInEv, List.mem_append, Option.mem_toList] at hin
    rcases hin with hin | hin
    · exact hw.waiting curl hin
    · exact (hcurl curl hin).2
  · intro curl hnot
    rw [unlinked_doInEv]
    exact hw.links curl (by simpa [doInEv] using hnot)

theorem mem_filter_dugouts {d : ℕ × Task} :
    d ∈ s.dugouts.filter (·.1 ≠ id) ↔ d ∈ s.dugouts ∧ d.1 ≠ id := by
  simp [List.mem_filter]

theorem sublist_pending_take : (s.take id).pending.Sublist s.pending :=
  (List.Sublist.refl _).append (List.filter_sublist.filterMap _)

theorem unlinked_take : (s.take id).Unlinked curl ↔ s.Unlinked curl := by
  simp [Unlinked]

theorem acquire_mem_take {r : Resource} :
    .acquire r ∈ (s.take id).log ↔ .acquire r ∈ s.log := by
  simp

/-- A transfer is to be added by one function. -/
theorem not_mem_pending_take (hw : Wf s) (hid : (id, task) ∈ s.dugouts)
    (hcurl : taskCurl task = some curl) : curl ∉ (s.take id).pending := by
  obtain ⟨-, hnodup, hdisjoint⟩ := List.nodup_append.mp hw.pending
  have hin : curl ∈ s.dugouts.filterMap fun d => taskCurl d.2 :=
    List.mem_filterMap.mpr ⟨_, hid, hcurl⟩
  intro hpending
  rcases List.mem_append.mp hpending with hregistering | hin'
  · exact hdisjoint curl hregistering curl hin rfl
  obtain ⟨d, hd, hcurl'⟩ := List.mem_filterMap.mp hin'
  obtain ⟨hd, hne⟩ := mem_filter_dugouts.mp hd
  -- two functions would add it twice
  have hpair := List.pairwise_filterMap.mp hnodup
  have hsymm : Std.Symm fun a b : ℕ × Task => ∀ c, taskCurl a.2 = some c →
      ∀ c', taskCurl b.2 = some c' → c ≠ c' := ⟨fun a b h c hc c' hc' => (h c' hc' c hc).symm⟩
  have hne' : d ≠ (id, task) := fun heq => hne (congrArg Prod.fst heq)
  exact hpair.forall hd hid hne' curl hcurl' curl hcurl rfl

/-- An event of libevent is freed, and the function behind it. -/
theorem wf_take (hw : Wf s) (hid : (id, task) ∈ s.dugouts) : Wf (s.take id) := by
  have hhas : s.Has .dugouts id := ⟨task, hid⟩
  have htake := hw.has_take (s.take id) hhas (fun i => by simp [Has])
    fun o ho i => by cases o <;> simp [Has] at ho ⊢
  have hnone : ∀ d, ¬ s.Joined d (.event id) ∧ ¬ s.Joined d (.dugout id) := by
    intro d
    cases d <;> simp [Joined]
  refine { hw with
    balanced := ?_, ids := ?_, unique := ?_, dugouts := ?_, init := ?_, cleanup := ?_,
    pending := hw.pending.sublist sublist_pending_take, waiting := ?_, links := ?_ }
  · have hdugout : s.Owns (.dugout id) ∧ Resource.dugout id ≠ .event id := ⟨hhas, nofun⟩
    refine ((hw.balanced.release () (owns_event hhas) fun d => (hnone d).1).release ()
      hdugout fun d => (hnone d).2).congr (fun r => ?_) fun d r => Iff.rfl
    cases r with
    | event i => simpa [Owns] using exists_has_take htake i
    | dugout i => simpa [Owns] using htake .dugouts i
    | multi => simp [Owns]
    | easy curl => simp [Owns, HasEasy]
  · intro i hi
    rw [acquire_mem_take, acquire_mem_take] at hi
    exact hw.ids i hi
  · intro i o o' ho ho'
    exact hw.unique i o o' ((htake o i).mp ho).1 ((htake o' i).mp ho').1
  · exact hw.dugouts.sublist (List.filter_sublist.map _)
  · intro i hi
    rw [acquire_mem_take]
    exact hw.init i (mem_filter_dugouts.mp hi).1
  · intro i hi
    exact hw.cleanup i (mem_filter_dugouts.mp hi).1
  · intro curl hcurl
    rw [acquire_mem_take, unlinked_take]
    exact hw.waiting curl (sublist_pending_take.subset hcurl)
  · intro curl hcurl
    rw [acquire_mem_take] at hcurl
    exact unlinked_take.mpr (hw.links curl hcurl)

end Tasks

/-! ## Transfers -/

section Transfers

variable {s : Loop} {id curl : ℕ}

/-- What is not in the map has no transfer to free. -/
theorem Wf.lookup_of_alive (hw : Wf s) (halive : s.alive = true)
    (hnot : .acquire (.easy curl) ∉ s.log) :
    s.handlers.lookup curl = none := by
  by_contra h
  have hsome := Option.isSome_iff_ne_none.mpr h
  refine hnot (hw.balanced.acquire_mem (r := .easy curl) ?_)
  show s.HasEasy curl
  unfold HasEasy
  cases hp : s.point with
  | cleaning todo =>
    rw [hw.cleaning todo hp] at halive
    cases halive
  | removing c thrown more => exact Or.inr hsome
  | _ => exact hsome

/-- The user gives a new transfer to the runner. -/
theorem wf_insertHandler (hw : Wf s) (halive : s.alive = true)
    (hnot : .acquire (.easy curl) ∉ s.log) : Wf (s.insertHandler curl) := by
  have hnone := hw.lookup_of_alive halive hnot
  have heq : s.insertHandler curl = { s with
      handlers := s.handlers.insert curl none
      registering := curl :: s.registering
      log := .acquire (.easy curl) :: s.log } := by
    rw [insertHandler, hnone]
    rfl
  rw [heq]
  have hpending : curl ∉ s.pending := fun h => hnot (hw.waiting curl h).1
  have hisSome : ∀ c, (s.handlers.lookup c).isSome →
      ((s.handlers.insert curl none).lookup c).isSome := by
    intro c hc
    rw [SortedMap.lookup_insert]
    split_ifs
    · rfl
    · exact hc
  refine { hw with
    balanced := ?_, ids := ?_, unique := ?_, init := ?_, pending := ?_, waiting := ?_, links := ?_,
    removing := ?_, handling := ?_ }
  · refine (hw.balanced.acquire hnot).congr (fun r => ?_) fun d r => Iff.rfl
    cases r with
    | event i =>
      refine Iff.trans ?_ (or_iff_right (by rintro ⟨⟩)).symm
      refine exists_congr fun o => ?_
      cases o with
      | dugouts => rfl
      | timer => rfl
      | transfer c =>
        simp only [Has, SortedMap.lookup_insert]
        split_ifs with hc
        · simp [hc, hnone]
        · rfl
    | dugout i => simp [Owns, Has]
    | multi => simp [Owns]
    | easy c =>
      simp only [Owns, HasEasy, Resource.easy.injEq, SortedMap.lookup_insert]
      cases hp : s.point with
      | cleaning todo =>
        rw [hw.cleaning todo hp] at halive
        cases halive
      | removing x thrown more =>
        by_cases hc : c = curl
        · simp [hc]
        · simp [hc]
      | _ =>
        by_cases hc : c = curl
        · simp [hc]
        · simp [hc]
  · intro i hi
    exact hw.ids i (by simpa using hi)
  · intro i o o' ho ho'
    have hhas : ∀ o, Has { s with
        handlers := s.handlers.insert curl none
        registering := curl :: s.registering
        log := .acquire (.easy curl) :: s.log } o i → s.Has o i := by
      intro o ho
      cases o with
      | dugouts => exact ho
      | timer => exact ho
      | transfer c =>
        simp only [Has, SortedMap.lookup_insert] at ho ⊢
        split_ifs at ho with hc
        · cases Option.some.inj ho
        · exact ho
    exact hw.unique i o o' (hhas o ho) (hhas o' ho')
  · intro i hi
    obtain ⟨hzero, hmulti, htimer⟩ := hw.init i hi
    exact ⟨hzero, by simpa using hmulti, htimer⟩
  · exact List.nodup_cons.mpr ⟨hpending, hw.pending⟩
  · intro c hc
    rcases List.mem_cons.mp hc with rfl | hc
    · refine ⟨List.mem_cons_self, ?_, fun _ => ?_⟩
      · simpa [Unlinked] using hw.links c hnot
      · show ((s.handlers.insert c none).lookup c).isSome
        simp [SortedMap.lookup_insert]
    · obtain ⟨hlog, hunlinked, hsome⟩ := hw.waiting c hc
      refine ⟨List.mem_cons_of_mem _ hlog, ?_, fun h => hisSome c (hsome h)⟩
      simpa [Unlinked] using hunlinked
  · intro c hc
    have hlinks := hw.links c fun h => hc (List.mem_cons_of_mem _ h)
    simpa [Unlinked] using hlinks
  · intro c thrown more hp
    obtain ⟨hlookup, hadded⟩ := hw.removing c thrown more hp
    -- the transfer that is being removed is not a new one
    have hne : c ≠ curl := by
      rintro rfl
      refine hnot (hw.balanced.acquire_mem (r := .easy c) ?_)
      show s.HasEasy c
      simp [HasEasy, show s.point = .removing c thrown more from hp]
    refine ⟨?_, hadded⟩
    show (s.handlers.insert curl none).lookup c = none
    rw [SortedMap.lookup_insert, if_neg hne]
    exact hlookup
  · intro c more hp halive
    obtain ⟨hsome, hadded⟩ := hw.handling c more hp halive
    exact ⟨hisSome c hsome, hadded⟩

/-- cURL gets the transfer. -/
theorem wf_addHandle (hw : Wf s) (curl : ℕ) (hpending : curl ∉ s.pending)
    (hlog : .acquire (.easy curl) ∈ s.log) (hunlinked : s.Unlinked curl)
    (heasy : s.HasEasy curl) (hp : s.point.plain = true) : Wf (s.addHandle curl) := by
  rw [addHandle]
  split_ifs with h
  case neg => exact hw
  obtain ⟨hcurlm, hadded⟩ := h
  have hmulti : s.Owns .multi := hcurlm
  have heasy : s.Owns (.easy curl) := heasy
  have hunlinked' : ∀ c, c ≠ curl → (Unlinked { s with
      added := curl :: s.added
      log := .attach (.inEasy curl) (.easy curl) :: .attach (.inMulti curl) .multi :: s.log } c ↔
        s.Unlinked c) := by
    intro c hc
    simp [Unlinked, hc]
  refine { hw with
    balanced := ?_, ids := ?_, init := ?_, waiting := ?_, links := ?_, removing := ?_,
    handling := ?_, queued := ?_ }
  · refine ((hw.balanced.attach hmulti fun r => (hunlinked r).1).attach (d := .inEasy curl) heasy
      fun r => ?_).congr (fun r => Iff.rfl) fun d r => ?_
    · simpa using (hunlinked r).2
    · cases d with
      | inMulti c =>
        simp only [Joined, Link.inMulti.injEq, List.mem_cons]
        constructor
        · rintro ⟨hr, hc | hc⟩
          · exact Or.inr (Or.inl ⟨hc, hr⟩)
          · exact Or.inr (Or.inr ⟨hr, hc⟩)
        · rintro (⟨hc, -⟩ | ⟨hc, hr⟩ | ⟨hr, hc⟩)
          · cases hc
          · exact ⟨hr, Or.inl hc⟩
          · exact ⟨hr, Or.inr hc⟩
      | inEasy c =>
        simp only [Joined, Link.inEasy.injEq, List.mem_cons]
        constructor
        · rintro ⟨hr, rfl | hc⟩
          · exact Or.inl ⟨rfl, hr⟩
          · exact Or.inr (Or.inr ⟨hr, hc⟩)
        · rintro (⟨rfl, hr⟩ | ⟨hc, -⟩ | ⟨hr, hc⟩)
          · exact ⟨hr, Or.inl rfl⟩
          · cases hc
          · exact ⟨hr, Or.inr hc⟩
  · intro i hi
    exact hw.ids i (by simpa using hi)
  · intro i hi
    obtain ⟨hzero, hmulti, htimer⟩ := hw.init i hi
    exact ⟨hzero, by simpa using hmulti, htimer⟩
  · intro c hc
    obtain ⟨hlog', hunlinked, hsome⟩ := hw.waiting c hc
    have hne : c ≠ curl := by
      rintro rfl
      exact hpending hc
    exact ⟨by simpa using hlog', (hunlinked' c hne).mpr hunlinked, hsome⟩
  · intro c hc
    have hc' : .acquire (.easy c) ∉ s.log := by simpa using hc
    have hne : c ≠ curl := by
      rintro rfl
      exact hc' hlog
    exact (hunlinked' c hne).mpr (hw.links c hc')
  · intro c thrown more hpoint
    have hplain : (Point.removing c thrown more).plain = true := hpoint ▸ hp
    cases hplain
  · intro c more hpoint halive
    obtain ⟨hsome, hin⟩ := hw.handling c more hpoint halive
    exact ⟨hsome, List.mem_cons_of_mem _ hin⟩
  · intro c hc
    obtain ⟨hin, hfinished, hnot⟩ := hw.queued c hc
    exact ⟨List.mem_cons_of_mem _ hin, hfinished, hnot⟩

theorem removeHandle_of_mem (h : curl ∈ s.added) : s.removeHandle curl = { s with
    added := s.added.filter (· ≠ curl)
    messages := s.messages.filter (· ≠ curl)
    log := .detach (.inEasy curl) :: .detach (.inMulti curl) :: s.log } := if_pos h

/-- cURL does not have the transfer any more. -/
theorem wf_removeHandle (hw : Wf s) (curl : ℕ) (hp : ∀ c more, s.point ≠ .handling c more) :
    Wf (s.removeHandle curl) := by
  rw [removeHandle]
  split_ifs with hadded
  case neg => exact hw
  have hjoined : s.Joined (.inMulti curl) .multi ∧ s.Joined (.inEasy curl) (.easy curl) :=
    ⟨⟨rfl, hadded⟩, rfl, hadded⟩
  have hunlinked : ∀ c, Unlinked { s with
      added := s.added.filter (· ≠ curl)
      messages := s.messages.filter (· ≠ curl)
      log := .detach (.inEasy curl) :: .detach (.inMulti curl) :: s.log } c ↔ s.Unlinked c := by
    intro c
    simp [Unlinked]
  refine { hw with
    balanced := ?_, ids := ?_, init := ?_, waiting := ?_, links := ?_, removing := ?_,
    handling := fun c more hpoint => absurd hpoint (hp c more), messages := hw.messages.filter _,
    queued := ?_ }
  · refine ((hw.balanced.detach hjoined.1).detach (d := .inEasy curl) (r := .easy curl)
      ⟨hjoined.2, by simp⟩).congr (fun r => Iff.rfl) fun d r => ?_
    cases d with
    | inMulti c =>
      simp only [Joined, List.mem_filter, ne_eq, Link.inMulti.injEq, decide_eq_true_eq,
        reduceCtorEq, not_false_eq_true, and_true, and_assoc]
    | inEasy c =>
      simp only [Joined, List.mem_filter, ne_eq, Link.inEasy.injEq, decide_eq_true_eq,
        reduceCtorEq, not_false_eq_true, and_true, and_assoc]
  · intro i hi
    exact hw.ids i (by simpa using hi)
  · intro i hi
    obtain ⟨hzero, hmulti, htimer⟩ := hw.init i hi
    exact ⟨hzero, by simpa using hmulti, htimer⟩
  · intro c hc
    rw [hunlinked]
    obtain ⟨hlog, hrest⟩ := hw.waiting c hc
    exact ⟨by simpa using hlog, hrest⟩
  · intro c hc
    rw [hunlinked]
    exact hw.links c (by simpa using hc)
  · intro c thrown more hp
    obtain ⟨hlookup, hnot⟩ := hw.removing c thrown more hp
    exact ⟨hlookup, fun h => hnot (List.mem_filter.mp h).1⟩
  · intro c hc
    obtain ⟨hin, hne⟩ := List.mem_filter.mp hc
    obtain ⟨hin, hrest⟩ := hw.queued c hin
    exact ⟨List.mem_filter.mpr ⟨hin, hne⟩, hrest⟩

/-! ### The events of the sockets -/

/-- The map with another event for a transfer that it has. -/
theorem isSome_lookup_insert {event : Option ℕ} (event' : Option ℕ)
    (h : s.handlers.lookup curl = some event) (c : ℕ) :
    ((s.handlers.insert curl event').lookup c).isSome = (s.handlers.lookup c).isSome := by
  rw [SortedMap.lookup_insert]
  split_ifs with hc
  · rw [hc, h]
    rfl
  · rfl

/-- The event of a transfer changes, and the ledger with it. -/
theorem wf_setEvent (hw : Wf s) {event event' : Option ℕ} {n : ℕ}
    (entries : List (Entry Resource Link Unit))
    (h : s.handlers.lookup curl = some event) (hn : s.nextEvent ≤ n)
    (hbalanced : Balanced (entries ++ s.log) (fun r => match r with
      | .event id => ∃ o, Has { s with handlers := s.handlers.insert curl event' } o id
      | r => s.Owns r) s.Joined)
    (hids : ∀ id, .acquire (.event id) ∈ entries → id < n)
    (hentries : ∀ entry ∈ entries, ∃ id, entry = .acquire (.event id) ∨
      entry = .release (.event id) ())
    (hunique : ∀ id o o', Has { s with handlers := s.handlers.insert curl event' } o id →
      Has { s with handlers := s.handlers.insert curl event' } o' id → o = o') :
    Wf { s with
      handlers := s.handlers.insert curl event'
      nextEvent := n
      log := entries ++ s.log } := by
  have hsome := isSome_lookup_insert event' h
  -- the entries are about events only
  have hlog : ∀ entry : Entry Resource Link Unit, (∀ id, entry ≠ .acquire (.event id)) →
      (∀ id, entry ≠ .release (.event id) ()) → (entry ∈ entries ++ s.log ↔ entry ∈ s.log) := by
    intro entry hacquire hrelease
    rw [List.mem_append, or_iff_right]
    intro hentry
    obtain ⟨id, heq | heq⟩ := hentries entry hentry
    · exact hacquire id heq
    · exact hrelease id heq
  have hattach : ∀ d r, .attach d r ∈ entries ++ s.log ↔ .attach d r ∈ s.log :=
    fun d r => hlog _ (by simp) (by simp)
  have heasy : ∀ c, .acquire (.easy c) ∈ entries ++ s.log ↔ .acquire (.easy c) ∈ s.log :=
    fun c => hlog _ (by simp) (by simp)
  have hunlinked : ∀ c, Unlinked { s with
      handlers := s.handlers.insert curl event'
      nextEvent := n
      log := entries ++ s.log } c ↔ s.Unlinked c :=
    fun c => forall_congr' fun r =>
      and_congr (not_congr (hattach _ r)) (not_congr (hattach _ r))
  refine { hw with
    balanced := ?_, ids := ?_, unique := hunique, init := ?_, waiting := ?_, links := ?_,
    removing := ?_, handling := ?_ }
  · refine hbalanced.congr (fun r => ?_) fun d r => Iff.rfl
    cases r with
    | event id => exact Iff.rfl
    | dugout id => exact Iff.rfl
    | multi => exact Iff.rfl
    | easy c =>
      simp only [Owns, HasEasy, hsome]
  · intro id hid
    rcases hid with hid | hid
    · rcases List.mem_append.mp hid with hid | hid
      · exact hids id hid
      · exact (hw.ids id (Or.inl hid)).trans_le hn
    · have hdugout := (hlog _ (by simp) (by simp)).mp hid
      exact (hw.ids id (Or.inr hdugout)).trans_le hn
  · intro id hid
    obtain ⟨hzero, hmulti, htimer⟩ := hw.init id hid
    exact ⟨hzero, fun hin => hmulti ((hlog _ (by simp) (by simp)).mp hin), htimer⟩
  · intro c hc
    obtain ⟨hacquire, hun, his⟩ := hw.waiting c hc
    refine ⟨(heasy c).mpr hacquire, (hunlinked c).mpr hun, fun halive => ?_⟩
    show ((s.handlers.insert curl event').lookup c).isSome
    rw [hsome]
    exact his halive
  · intro c hc
    exact (hunlinked c).mpr (hw.links c fun hin => hc ((heasy c).mpr hin))
  · intro c thrown more hp
    obtain ⟨hnone, hadded⟩ := hw.removing c thrown more hp
    refine ⟨?_, hadded⟩
    rw [← Option.isNone_iff_eq_none, ← Option.not_isSome] at hnone ⊢
    simpa [hsome] using hnone
  · intro c more hp halive
    show ((s.handlers.insert curl event').lookup c).isSome ∧ c ∈ s.added
    rw [hsome]
    exact hw.handling c more hp halive

/-- The socket of a transfer is not watched any more. -/
theorem wf_resetEvent (hw : Wf s) {event : Option ℕ} (h : s.handlers.lookup curl = some event) :
    Wf { s.deleteEvent event with handlers := s.handlers.insert curl none } := by
  cases event with
  | none =>
    -- there is no event to delete
    have hhas : ∀ o id, Has { s with handlers := s.handlers.insert curl none } o id ↔
        s.Has o id := by
      intro o id
      cases o with
      | dugouts => rfl
      | timer => rfl
      | transfer c =>
        simp only [Has, SortedMap.lookup_insert]
        split_ifs with hc
        · simp [hc, h]
        · rfl
    refine wf_setEvent hw [] h le_rfl ?_ (by simp) (by simp) ?_
    · refine hw.balanced.congr (fun r => ?_) fun d r => Iff.rfl
      cases r with
      | event id => exact exists_congr fun o => hhas o id
      | _ => exact Iff.rfl
    · intro id o o' ho ho'
      exact hw.unique id o o' ((hhas o id).mp ho) ((hhas o' id).mp ho')
  | some n =>
    have hn : s.Has (.transfer curl) n := h
    have hhas := hw.has_take { s with handlers := s.handlers.insert curl none } hn
      (fun id => by simp [Has, SortedMap.lookup_insert, h, eq_comm]) fun o ho id => by
        cases o with
        | dugouts => rfl
        | timer => rfl
        | transfer c =>
          have hc : c ≠ curl := fun heq => ho (heq ▸ rfl)
          simp [Has, SortedMap.lookup_insert, hc]
    have hjoined : ∀ d, ¬ s.Joined d (.event n) := by
      intro d
      cases d <;> simp [Joined]
    refine wf_setEvent hw [.release (.event n) ()] h le_rfl ?_ (by simp)
      (fun entry hentry => ⟨n, Or.inr (List.mem_singleton.mp hentry)⟩) ?_
    · refine (hw.balanced.release () (owns_event hn) hjoined).congr (fun r => ?_) fun d r => Iff.rfl
      cases r with
      | event id => simpa [Owns] using exists_has_take hhas id
      | dugout id => simp
      | multi => simp
      | easy c => simp
    · intro id o o' ho ho'
      exact hw.unique id o o' ((hhas o id).mp ho).1 ((hhas o' id).mp ho').1

/-- The socket of a transfer is watched. -/
theorem wf_newEvent (hw : Wf s) (h : s.handlers.lookup curl = some none) :
    Wf { s.record (.acquire (.event s.nextEvent)) with
      handlers := s.handlers.insert curl (some s.nextEvent)
      nextEvent := s.nextEvent + 1 } := by
  have hhas : ∀ o id, Has { s with handlers := s.handlers.insert curl (some s.nextEvent) } o id ↔
      o = .transfer curl ∧ id = s.nextEvent ∨ s.Has o id := by
    intro o id
    cases o with
    | dugouts => simp [Has]
    | timer => simp [Has]
    | transfer c =>
      simp only [Has, SortedMap.lookup_insert, Owner.transfer.injEq]
      split_ifs with hc
      · simp [hc, h, eq_comm]
      · simp [hc]
  refine wf_setEvent hw [.acquire (.event s.nextEvent)] h (Nat.le_succ _) ?_ ?_ ?_
    (hw.unique_give hhas)
  · refine (hw.balanced.acquire hw.not_acquired.1).congr (fun r => ?_) fun d r => Iff.rfl
    cases r with
    | event id => simpa [Owns] using exists_has_give hhas id
    | dugout id => simp
    | multi => simp
    | easy c => simp
  · intro id hid
    have heq : id = s.nextEvent := by simpa using hid
    exact heq ▸ Nat.lt_succ_self _
  · intro entry hentry
    exact ⟨s.nextEvent, Or.inl (List.mem_singleton.mp hentry)⟩

/-! ### The end of a transfer -/

/-- What cURL has is not still to be given to it. -/
theorem Wf.not_pending_of_added (hw : Wf s) (hadded : curl ∈ s.added) : curl ∉ s.pending :=
  fun hpending => ((hw.waiting curl hpending).2.1 .multi).1
    (hw.balanced.attach_mem (show s.Joined (.inMulti curl) .multi from ⟨rfl, hadded⟩))

/-- A transfer leaves the map. -/
theorem wf_erase (hw : Wf s) (hp : s.point.inMap = true) (h : s.handlers.lookup curl = some none)
    (hadded : curl ∉ s.added) (hpending : curl ∉ s.pending) {thrown : Option Thrown} {more : Bool}
    {handlers : SortedMap ℕ (Option ℕ)}
    (hlookup : ∀ c, handlers.lookup c = if c = curl then none else s.handlers.lookup c) :
    Wf { s with handlers, point := .removing curl thrown more } := by
  have hhas : ∀ o id, Has { s with handlers, point := .removing curl thrown more } o id ↔
      s.Has o id := by
    intro o id
    cases o with
    | dugouts => rfl
    | timer => rfl
    | transfer c =>
      simp only [Has, hlookup]
      split_ifs with hc
      · simp [hc, h]
      · rfl
  refine { hw with
    balanced := ?_, unique := ?_, cleaning := nofun, adding := nofun, waiting := ?_,
    removing := ?_, handling := nofun }
  · refine hw.balanced.congr (fun r => ?_) fun d r => Iff.rfl
    cases r with
    | event id => exact exists_congr fun o => hhas o id
    | dugout id => exact Iff.rfl
    | multi => exact Iff.rfl
    | easy c =>
      simp only [Owns]
      rw [hasEasy_of_inMap hp]
      simp only [HasEasy, hlookup]
      by_cases hc : c = curl
      · simp [hc, h]
      · simp [hc]
  · intro id o o' ho ho'
    exact hw.unique id o o' ((hhas o id).mp ho) ((hhas o' id).mp ho')
  · intro c hc
    obtain ⟨hlog, hunlinked, hsome⟩ := hw.waiting c hc
    refine ⟨hlog, hunlinked, fun halive => ?_⟩
    have hne : c ≠ curl := by
      rintro rfl
      exact hpending hc
    show (handlers.lookup c).isSome
    rw [hlookup, if_neg hne]
    exact hsome halive
  · intro c thrown' more' hpoint
    cases hpoint
    exact ⟨by simp [hlookup], hadded⟩

/-- `~FreeCurl` up to `curl_multi_remove_handle`, for a transfer that cURL has. -/
theorem wf_freeCurl (hw : Wf s) (hp : s.point.inMap = true)
    (h : s.alive = true → (s.handlers.lookup curl).isSome ∧ curl ∈ s.added)
    (thrown : Option Thrown) (more : Bool) (hdefined : Defined (s.freeCurl curl thrown more)) :
    Wf (s.freeCurl curl thrown more) := by
  have hidle : Wf { s with point := .idle } := hw.go (by constructor <;> intros <;> rfl) hp rfl
  have halive : s.alive = true := by
    -- the handler has not destroyed the runner
    by_contra hdead
    rw [freeCurl, access, if_neg (by exact hdead)] at hdefined
    rcases hdefined with halive | hfault
    · exact hdead halive
    · cases hfault
  rw [freeCurl, access, if_pos (by exact halive)]
  obtain ⟨hsome, hadded⟩ := h halive
  obtain ⟨event, hevent⟩ := Option.isSome_iff_exists.mp hsome
  have hreset := wf_resetEvent hidle hevent
  have hremove := wf_removeHandle (wf_useCurlm hreset) curl fun c more' => by simp
  simp only [hevent, Option.join_some]
  have hlookup : ∀ c, (s.handlers.erase curl).lookup c =
      if c = curl then none else (s.handlers.insert curl none).lookup c := by
    intro c
    rw [SortedMap.lookup_erase, SortedMap.lookup_insert]
    split_ifs <;> rfl
  have hpending := hw.not_pending_of_added hadded
  -- the two differ in what is left of the transfer in the map
  cases event with
  | none =>
    rw [removeHandle_of_mem (by exact hadded)] at hremove ⊢
    exact wf_erase hremove rfl (by simp [SortedMap.lookup_insert, useCurlm])
      (by simp [deleteEvent, useCurlm]) hpending hlookup
  | some event =>
    rw [removeHandle_of_mem (by exact hadded)] at hremove ⊢
    exact wf_erase hremove rfl (by simp [SortedMap.lookup_insert, useCurlm])
      (by simp [deleteEvent, record, useCurlm]) hpending hlookup

/-- A transfer is freed, and the event loop goes on. -/
theorem wf_cleanupEasy (hw : Wf s) {thrown : Option Thrown} {more : Bool}
    (hp : s.point = .removing curl thrown more) {p : Point} (hplain : p.plain = true) :
    Wf { s.record (.release (.easy curl) ()) with point := p } := by
  obtain ⟨hnone, hadded⟩ := hw.removing curl thrown more hp
  have howns : s.Owns (.easy curl) := by
    simp [Owns, HasEasy, hp]
  have hjoined : ∀ d, ¬ s.Joined d (.easy curl) := by
    intro d
    cases d with
    | inMulti c => simp [Joined]
    | inEasy c =>
      rintro ⟨heq, hin⟩
      obtain rfl := Resource.easy.inj heq
      exact hadded hin
  have hunlinked : ∀ c, Unlinked { s.record (.release (.easy curl) ()) with point := p } c ↔
      s.Unlinked c := by
    intro c
    simp [Unlinked, record]
  refine { hw with
    balanced := ?_, ids := ?_, init := ?_, cleaning := ?_, adding := ?_, waiting := ?_,
    links := ?_, removing := ?_, handling := ?_ }
  · refine (hw.balanced.release () howns hjoined).congr (fun r => ?_) fun d r => Iff.rfl
    cases r with
    | event id => exact (and_iff_left (by rintro ⟨⟩)).symm
    | dugout id => exact (and_iff_left (by rintro ⟨⟩)).symm
    | multi => exact (and_iff_left (by rintro ⟨⟩)).symm
    | easy c =>
      have hto := hasEasy_of_inMap (s := { s.record (.release (.easy curl) ()) with point := p })
        (Point.inMap_of_plain hplain) c
      refine hto.trans ?_
      simp only [Owns, HasEasy, hp, record, ne_eq, Resource.easy.injEq]
      by_cases hc : c = curl
      · simp [hc, hnone]
      · simp [hc]
  · intro id hid
    exact hw.ids id (by simpa [record] using hid)
  · intro id hid
    obtain ⟨hzero, hmulti, htimer⟩ := hw.init id hid
    exact ⟨hzero, by simpa [record] using hmulti, htimer⟩
  · rintro todo rfl
    cases hplain
  · rintro rfl
    cases hplain
  · intro c hc
    rw [hunlinked]
    obtain ⟨hlog, hrest⟩ := hw.waiting c hc
    exact ⟨List.mem_cons_of_mem _ hlog, hrest⟩
  · intro c hc
    rw [hunlinked]
    exact hw.links c fun h => hc (List.mem_cons_of_mem _ h)
  · rintro c thrown' more' rfl
    cases hplain
  · rintro c more' rfl
    cases hplain

end Transfers

/-! ## The timer and the errors -/

section Quiet

variable {s : Loop}

theorem same_restartTimer (n : ℕ) : Same s (s.restartTimer n) := by
  rw [restartTimer]
  cases h : s.timer with
  | none =>
    constructor
    all_goals simp [h]
  | some timer =>
    dsimp only
    split_ifs
    all_goals
      constructor
      all_goals simp [h]

theorem same_check (error : Option (List UInt8)) : Same s (s.check error) := by
  cases error
  all_goals
    constructor
    all_goals intros; rfl

theorem wf_restartTimer (hw : Wf s) (n : ℕ) : Wf (s.restartTimer n) :=
  hw.stay (same_restartTimer n) (point_restartTimer s n)

theorem wf_check (hw : Wf s) (error : Option (List UInt8)) : Wf (s.check error) :=
  hw.stay (same_check error) (point_check s error)

/-- An access to the runner keeps the invariant if it does so while the runner is there. -/
theorem wf_access (hw : Wf s) {f : Loop → Loop} (hf : s.alive = true → Wf (f s)) :
    Wf (s.access f) := by
  rw [access]
  split_ifs with halive
  · exact hf halive
  · exact hw.stay (by constructor <;> intros <;> rfl) rfl

/-- The event loop goes to a plain point. -/
theorem Wf.to (hw : Wf s) (hp : s.point.inMap = true) {p : Point} (hplain : p.plain = true) :
    Wf { s with point := p } :=
  hw.go (by constructor <;> intros <;> rfl) hp hplain

end Quiet

end Glim.Runner.Loop
