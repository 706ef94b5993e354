import Glim.Runner.Owned

/-!
# What the runner makes and frees

In every run of the event loop in which nothing is undefined each event, each function that was
scheduled, the multi handle and each transfer are freed once, and no transfer while cURL has it. The
handler of a transfer is called at most once, and before the transfer is freed as long as the runner
is there. When the function of the destructor is through, nothing is left.

## Main definitions

* `Loop.Settled`: which handlers were called, and what is left behind the destructor

## Main results

* `Loop.wf_step`, `Loop.settled_step`: every step keeps the two invariants
* `Loop.freed_once`: what was made is owned, or was freed once
-/

namespace Glim.Runner.Loop

open Machine Ledger Table Thread

/-! ## The beginning and the end -/

section Ends

variable {s : Loop} {id curl : ℕ}

/-- The function of the constructor, when a `curl_multi_setopt` fails. -/
theorem wf_initFails (hw : Wf s) (hp : s.point = .idle) (hinit : ∀ id, (id, Task.init) ∉ s.dugouts)
    (hmulti : .acquire .multi ∉ s.log) : Wf (s.init .setoptFails) := by
  rw [init_setoptFails]
  have hjoined : ∀ d, ¬ s.Joined d .multi := fun d hin =>
    hmulti (hw.balanced.acquire_mem (hw.balanced.owned_of_joined hin))
  have hunlinked : ∀ curl, Unlinked { s with
      curlm := .dangling
      log := .release .multi () :: .acquire .multi :: s.log } curl ↔ s.Unlinked curl := by
    intro curl
    simp [Unlinked]
  refine { hw with
    balanced := ?_, ids := ?_, init := ?_, adding := ?_, waiting := ?_, links := ?_ }
  · refine ((hw.balanced.acquire hmulti).release () (Or.inl rfl) hjoined).congr (fun r => ?_)
      fun d r => Iff.rfl
    cases r with
    | event id => simp [Owns, Has]
    | dugout id => simp [Owns, Has]
    | multi => simp [Owns]
    | easy curl => simp [Owns, HasEasy]
  · intro id hid
    exact hw.ids id (by simpa using hid)
  · intro id hid
    exact absurd hid (hinit id)
  · intro hadd
    cases hp.symm.trans hadd
  · intro curl hcurl
    rw [hunlinked]
    obtain ⟨hlog, hrest⟩ := hw.waiting curl hcurl
    exact ⟨by simpa using hlog, hrest⟩
  · intro curl hcurl
    rw [hunlinked]
    exact hw.links curl (by simpa using hcurl)

/-- The function of the constructor. -/
theorem wf_init (hw : Wf s) (hp : s.point = .idle) (hinit : ∀ id, (id, Task.init) ∉ s.dugouts)
    (hmulti : .acquire .multi ∉ s.log) (htimer : s.timer = none) (multiInit : MultiInit) :
    Wf (s.init multiInit) := by
  cases multiInit with
  | null => exact hw
  | setoptFails => exact wf_initFails hw hp hinit hmulti
  | ok =>
  rw [init_ok]
  apply wf_restartTimer
  have hhas : ∀ o id, Has { s with timer := some { event := s.nextEvent } } o id ↔
      o = .timer ∧ id = s.nextEvent ∨ s.Has o id := by
    intro o id
    cases o with
    | dugouts => simp [Has]
    | timer => simp [Has, htimer, eq_comm]
    | transfer curl => simp [Has]
  have hunlinked : ∀ curl, Unlinked { s with
      curlm := .live
      timer := some { event := s.nextEvent }
      nextEvent := s.nextEvent + 1
      log := .acquire (.event s.nextEvent) :: .acquire .multi :: s.log } curl ↔
        s.Unlinked curl := by
    intro curl
    simp [Unlinked]
  refine { hw with
    balanced := ?_, ids := ?_, unique := hw.unique_give hhas, init := ?_, adding := fun _ => rfl,
    waiting := ?_, links := ?_ }
  · refine ((hw.balanced.acquire hmulti).acquire (r := .event s.nextEvent)
      (by simpa using hw.not_acquired.1)).congr (fun r => ?_) fun d r => Iff.rfl
    cases r with
    | event id => exact (exists_has_give hhas id).trans (by simp [Owns])
    | dugout id => simp [Owns, Has]
    | multi => simp [Owns]
    | easy curl => simp [Owns, HasEasy]
  · intro id hid
    simp only [List.mem_cons, Entry.acquire.injEq, Resource.event.injEq, reduceCtorEq,
      false_or] at hid
    show id < s.nextEvent + 1
    rcases hid with (rfl | hid) | hid
    · exact Nat.lt_succ_self _
    · exact Nat.lt_succ_of_lt (hw.ids id (Or.inl hid))
    · exact Nat.lt_succ_of_lt (hw.ids id (Or.inr hid))
  · intro id hid
    exact absurd hid (hinit id)
  · intro curl hcurl
    rw [hunlinked]
    obtain ⟨hlog, hrest⟩ := hw.waiting curl hcurl
    exact ⟨by simpa using hlog, hrest⟩
  · intro curl hcurl
    rw [hunlinked]
    exact hw.links curl (by simpa using hcurl)

/-- cURL is called for a new transfer. -/
theorem wf_goAdd (hw : Wf s) (hp : s.point.inMap = true) (hlive : s.curlm = .live) :
    Wf { s with point := .inCurl .add } := by
  refine { hw with
    balanced := hw.balanced.congr (fun r => ?_) fun d r => Iff.rfl
    cleaning := by rintro _ ⟨⟩, adding := fun _ => hlive, removing := by rintro _ _ _ ⟨⟩,
    handling := by rintro _ _ ⟨⟩ }
  cases r with
  | event id => exact Iff.rfl
  | dugout id => exact Iff.rfl
  | multi => exact Iff.rfl
  | easy curl => exact (hasEasy_of_inMap hp curl).symm

/-- libevent runs a function of `doInEv`. -/
theorem wf_runTask (hw : Wf s) (hp : s.point = .idle) {task : Task} (hid : (id, task) ∈ s.dugouts)
    (multiInit : MultiInit) : Wf (s.runTask id task multiInit) := by
  have htake := wf_take hw hid
  cases task with
  | init =>
    obtain ⟨rfl, hmulti, htimer⟩ := hw.init id hid
    refine wf_access htake fun _ => wf_init htake hp ?_ (by simpa using hmulti) htimer multiInit
    -- there was one such function
    intro i hi
    obtain ⟨hi, hne⟩ := mem_filter_dugouts.mp hi
    exact hne (hw.init i hi).1
  | add curl =>
    show Wf ((s.take id).access fun s =>
      { s.useCurlm.addHandle curl with point := if s.curlm = .live then .inCurl .add else .idle })
    refine wf_access htake fun halive => ?_
    have hcurl : curl ∈ s.pending := List.mem_append_right _
      (List.mem_filterMap.mpr ⟨_, hid, rfl⟩)
    obtain ⟨hlog, hunlinked, hsome⟩ := hw.waiting curl hcurl
    have heasy : (s.take id).HasEasy curl :=
      (hasEasy_of_inMap (s := s.take id) (by simp [hp, Point.inMap]) curl).mpr (hsome halive)
    have hadd := wf_addHandle (wf_useCurlm htake) curl (not_mem_pending_take hw hid rfl)
      (by simpa [useCurlm] using hlog) (unlinked_take.mpr hunlinked) heasy
      (by simp [hp, Point.plain])
    have hin : ((s.take id).useCurlm.addHandle curl).point.inMap = true := by
      rw [addHandle]
      split_ifs <;> simp [hp, Point.inMap, useCurlm]
    split_ifs with hlive
    · exact wf_goAdd hadd hin ((curlm_addHandle _ curl).trans hlive)
    · exact hadd.to hin rfl
  | cleanup =>
    refine { htake with
      balanced := htake.balanced.congr (fun r => ?_) fun d r => Iff.rfl
      cleaning := fun _ _ => hw.cleanup id hid, adding := by rintro ⟨⟩,
      removing := by rintro _ _ _ ⟨⟩, handling := by rintro _ _ ⟨⟩ }
    cases r with
    | event id => exact Iff.rfl
    | dugout id => exact Iff.rfl
    | multi => exact Iff.rfl
    | easy curl =>
      exact SortedMap.mem_keys.trans (hasEasy_of_inMap (s := s.take id) (by simp [hp, Point.inMap])
        curl).symm

/-- The event of the timer is freed. -/
theorem wf_freeTimer (hw : Wf s) {timer : Timer} (htimer : s.timer = some timer) :
    Wf { s.record (.release (.event timer.event) ()) with timer := none } := by
  have hn : s.Has .timer timer.event := by
    show s.timer.map Timer.event = some timer.event
    rw [htimer]
    rfl
  have hhas := hw.has_take { s.record (.release (.event timer.event) ()) with
    timer := none } hn (fun id => by simp [Has, htimer, eq_comm]) fun o ho id => by
      cases o with
      | dugouts => rfl
      | timer => exact absurd rfl ho
      | transfer curl => rfl
  have hjoined : ∀ d, ¬ s.Joined d (.event timer.event) := by
    intro d
    cases d <;> simp [Joined]
  have hunlinked : ∀ curl, Unlinked { s.record (.release (.event timer.event) ()) with
      timer := none } curl ↔ s.Unlinked curl := by
    intro curl
    simp [Unlinked, record]
  refine { hw with
    balanced := ?_, ids := ?_, unique := ?_, init := ?_, waiting := ?_, links := ?_ }
  · refine (hw.balanced.release () (owns_event hn) hjoined).congr (fun r => ?_) fun d r => Iff.rfl
    cases r with
    | event id => exact (exists_has_take hhas id).trans (by simp [Owns])
    | dugout id => exact (and_iff_left (by rintro ⟨⟩)).symm
    | multi => exact (and_iff_left (by rintro ⟨⟩)).symm
    | easy curl => exact (and_iff_left (by rintro ⟨⟩)).symm
  · intro id hid
    exact hw.ids id (by simpa [record] using hid)
  · intro id o o' ho ho'
    exact hw.unique id o o' ((hhas o id).mp ho).1 ((hhas o' id).mp ho').1
  · intro id hid
    obtain ⟨hzero, hmulti, -⟩ := hw.init id hid
    exact ⟨hzero, by simpa [record] using hmulti, rfl⟩
  · intro curl hcurl
    rw [hunlinked]
    obtain ⟨hlog, hrest⟩ := hw.waiting curl hcurl
    exact ⟨List.mem_cons_of_mem _ hlog, hrest⟩
  · intro curl hcurl
    rw [hunlinked]
    exact hw.links curl fun h => hcurl (List.mem_cons_of_mem _ h)

/-- The runner is destroyed. -/
theorem wf_dead (hw : Wf s) : Wf { s with alive := false } :=
  { hw with
    cleanup := fun _ _ => rfl
    cleaning := fun _ _ => rfl
    waiting := fun curl hcurl => by
      obtain ⟨hlog, hunlinked, -⟩ := hw.waiting curl hcurl
      exact ⟨hlog, hunlinked, nofun⟩
    handling := nofun }

theorem wf_destroy (hw : Wf s) : Wf s.destroy := by
  rw [destroy]
  cases htimer : s.timer with
  | none => exact wf_doInEv (wf_dead hw) (by rintro ⟨⟩) (fun _ => rfl) (by rintro _ ⟨⟩)
  | some timer =>
    exact wf_doInEv (wf_dead (wf_freeTimer hw htimer)) (by rintro ⟨⟩) (fun _ => rfl)
      (by rintro _ ⟨⟩)

/-- The function of the destructor frees a transfer. -/
theorem wf_clean (hw : Wf s) {todo : List ℕ} (hp : s.point = .cleaning todo) (hcurl : curl ∈ todo) :
    Wf (s.clean curl todo) := by
  have hw' : Wf (s.useCurlm.removeHandle curl) := wf_removeHandle (wf_useCurlm hw) curl
    fun c more => by
      rw [point_useCurlm, hp]
      rintro ⟨⟩
  have hadded : curl ∉ (s.useCurlm.removeHandle curl).added := by
    rw [removeHandle]
    split_ifs with h
    · simp
    · exact h
  have hp' : (s.useCurlm.removeHandle curl).point = .cleaning todo :=
    (point_removeHandle _ curl).trans hp
  rw [clean]
  generalize s.useCurlm.removeHandle curl = t at hw' hadded hp'
  have howns : t.Owns (.easy curl) := by
    simpa [Owns, HasEasy, hp'] using hcurl
  have hjoined : ∀ d, ¬ t.Joined d (.easy curl) := by
    intro d
    cases d with
    | inMulti c => simp [Joined]
    | inEasy c =>
      rintro ⟨heq, hin⟩
      obtain rfl := Resource.easy.inj heq
      exact hadded hin
  have hunlinked : ∀ c, Unlinked { t.record (.release (.easy curl) ()) with
      point := .cleaning (todo.filter (· ≠ curl)) } c ↔ t.Unlinked c := by
    intro c
    simp [Unlinked, record]
  refine { hw' with
    balanced := ?_, ids := ?_, init := ?_, cleaning := fun _ _ => hw'.cleaning todo hp',
    adding := by simp, waiting := ?_, links := ?_, removing := by simp, handling := by simp }
  · refine (hw'.balanced.release () howns hjoined).congr (fun r => ?_) fun d r => Iff.rfl
    cases r with
    | event id => exact (and_iff_left (by rintro ⟨⟩)).symm
    | dugout id => exact (and_iff_left (by rintro ⟨⟩)).symm
    | multi => exact (and_iff_left (by rintro ⟨⟩)).symm
    | easy c => simp [Owns, HasEasy, hp']
  · intro id hid
    exact hw'.ids id (by simpa [record] using hid)
  · intro id hid
    obtain ⟨hzero, hmulti, htimer⟩ := hw'.init id hid
    exact ⟨hzero, by simpa [record] using hmulti, htimer⟩
  · intro c hc
    rw [hunlinked]
    obtain ⟨hlog, hrest⟩ := hw'.waiting c hc
    exact ⟨List.mem_cons_of_mem _ hlog, hrest⟩
  · intro c hc
    rw [hunlinked]
    exact hw'.links c fun h => hc (List.mem_cons_of_mem _ h)

/-- When the function of the destructor is through with the transfers, cURL has none. -/
theorem Wf.added_eq_nil (hw : Wf s) (hp : s.point = .cleaning []) : s.added = [] := by
  refine List.eq_nil_iff_forall_not_mem.mpr fun curl hadded => ?_
  have howns : s.Owns (.easy curl) :=
    hw.balanced.owned_of_joined (show s.Joined (.inEasy curl) (.easy curl) from ⟨rfl, hadded⟩)
  simp [Owns, HasEasy, hp] at howns

/-- The multi handle is cleaned up. -/
theorem wf_cleanupMulti (hw : Wf s) (hp : s.point = .cleaning []) (hlive : s.curlm = .live) :
    Wf { s.record (.release .multi ()) with curlm := .null } := by
  have hadded := hw.added_eq_nil hp
  have hjoined : ∀ d, ¬ s.Joined d .multi := by
    intro d
    cases d <;> simp [Joined, hadded]
  have hunlinked : ∀ curl, Unlinked { s.record (.release .multi ()) with curlm := .null } curl ↔
      s.Unlinked curl := by
    intro curl
    simp [Unlinked, record]
  refine { hw with
    balanced := ?_, ids := ?_, init := ?_, adding := ?_, waiting := ?_, links := ?_ }
  · refine (hw.balanced.release () (show s.Owns .multi from hlive) hjoined).congr (fun r => ?_)
      fun d r => Iff.rfl
    cases r with
    | event id => exact (and_iff_left (by rintro ⟨⟩)).symm
    | dugout id => exact (and_iff_left (by rintro ⟨⟩)).symm
    | multi => simp [Owns]
    | easy curl => exact (and_iff_left (by rintro ⟨⟩)).symm
  · intro id hid
    exact hw.ids id (by simpa [record] using hid)
  · intro id hid
    obtain ⟨hzero, hmulti, htimer⟩ := hw.init id hid
    exact ⟨hzero, by simpa [record] using hmulti, htimer⟩
  · intro hadd
    cases hp.symm.trans hadd
  · intro curl hcurl
    rw [hunlinked]
    obtain ⟨hlog, hrest⟩ := hw.waiting curl hcurl
    exact ⟨List.mem_cons_of_mem _ hlog, hrest⟩
  · intro curl hcurl
    rw [hunlinked]
    exact hw.links curl fun h => hcurl (List.mem_cons_of_mem _ h)

theorem mem_events {n : ℕ} : n ∈ s.handlers.entries.filterMap Prod.snd ↔
    ∃ curl, s.Has (.transfer curl) n := by
  rw [List.mem_filterMap]
  constructor
  · rintro ⟨⟨curl, event⟩, hin, heq⟩
    obtain rfl : event = some n := heq
    exact ⟨curl, SortedMap.lookup_eq_some_iff.mpr hin⟩
  · rintro ⟨curl, hcurl⟩
    exact ⟨(curl, some n), SortedMap.lookup_eq_some_iff.mp hcurl, rfl⟩

theorem Wf.nodup_events (hw : Wf s) : (s.handlers.entries.filterMap Prod.snd).Nodup := by
  refine List.pairwise_filterMap.mpr ?_
  refine (List.pairwise_map.mp s.handlers.sorted).imp_of_mem fun {a b} ha hb hlt => ?_
  intro id hid id' hid'
  rintro rfl
  obtain ⟨curl, event⟩ := a
  obtain ⟨curl', event'⟩ := b
  obtain rfl : event = some id := hid
  obtain rfl : event' = some id := hid'
  -- an event has one owner
  have heq := hw.unique id (.transfer curl) (.transfer curl') (SortedMap.lookup_eq_some_iff.mpr ha)
    (SortedMap.lookup_eq_some_iff.mpr hb)
  exact ne_of_lt hlt (Owner.transfer.inj heq)

/-- The events of the transfers are freed. -/
theorem wf_freeEvents (hw : Wf s) (hp : s.point = .cleaning []) :
    Wf { s with
      log := (s.handlers.entries.filterMap Prod.snd).map
        (fun id => .release (.event id) ()) ++ s.log
      handlers := .empty
      point := .idle } := by
  have hhas : ∀ o id, Has { s with
      log := (s.handlers.entries.filterMap Prod.snd).map
        (fun id => .release (.event id) ()) ++ s.log
      handlers := .empty
      point := .idle } o id ↔
        s.Has o id ∧ id ∉ s.handlers.entries.filterMap Prod.snd := by
    intro o id
    rw [mem_events]
    cases o with
    | transfer curl => exact ⟨nofun, fun ⟨h, hnot⟩ => absurd ⟨curl, h⟩ hnot⟩
    | dugouts =>
      refine ⟨fun h => ⟨h, ?_⟩, And.left⟩
      rintro ⟨curl, hcurl⟩
      cases hw.unique id .dugouts (.transfer curl) h hcurl
    | timer =>
      refine ⟨fun h => ⟨h, ?_⟩, And.left⟩
      rintro ⟨curl, hcurl⟩
      cases hw.unique id .timer (.transfer curl) h hcurl
  have hlog : ∀ entry : Entry Resource Link Unit, (∀ id, entry ≠ .release (.event id) ()) →
      (entry ∈ (s.handlers.entries.filterMap Prod.snd).map (fun id => .release (.event id) ()) ++
        s.log ↔ entry ∈ s.log) := by
    intro entry hentry
    rw [List.mem_append, or_iff_right]
    intro hin
    obtain ⟨id, -, heq⟩ := List.mem_map.mp hin
    exact hentry id heq.symm
  have hunlinked : ∀ curl, Unlinked { s with
      log := (s.handlers.entries.filterMap Prod.snd).map
        (fun id => .release (.event id) ()) ++ s.log
      handlers := .empty
      point := .idle } curl ↔ s.Unlinked curl :=
    fun curl => forall_congr' fun r =>
      and_congr (not_congr (hlog _ (by simp))) (not_congr (hlog _ (by simp)))
  have hdead := hw.cleaning [] hp
  refine { hw with
    balanced := ?_, ids := ?_, unique := ?_, init := ?_, cleaning := nofun, adding := nofun,
    waiting := ?_, links := ?_, removing := nofun, handling := nofun }
  · have hall := hw.balanced.releaseAll () (hw.nodup_events.map fun _ _ => Resource.event.inj)
      (fun r hr => ?_) (fun r hr d => ?_)
    · rw [List.map_map] at hall
      refine hall.congr (fun r => ?_) fun d r => Iff.rfl
      cases r with
      | event id => simp only [Owns, hhas, exists_and_right, List.mem_map, Resource.event.injEq,
          exists_eq_right]
      | dugout id => simp [Owns, Has]
      | multi => simp [Owns]
      | easy curl => simp [Owns, HasEasy, hp]
    · obtain ⟨id, hid, rfl⟩ := List.mem_map.mp hr
      obtain ⟨curl, hcurl⟩ := mem_events.mp hid
      exact owns_event hcurl
    · obtain ⟨id, -, rfl⟩ := List.mem_map.mp hr
      cases d <;> simp [Joined]
  · intro id hid
    rw [hlog _ (by simp), hlog _ (by simp)] at hid
    exact hw.ids id hid
  · intro id o o' ho ho'
    exact hw.unique id o o' ((hhas o id).mp ho).1 ((hhas o' id).mp ho').1
  · intro id hid
    obtain ⟨hzero, hmulti, htimer⟩ := hw.init id hid
    exact ⟨hzero, fun h => hmulti ((hlog _ (by simp)).mp h), htimer⟩
  · intro curl hcurl
    obtain ⟨hacquire, hun, -⟩ := hw.waiting curl hcurl
    refine ⟨(hlog _ (by simp)).mpr hacquire, (hunlinked curl).mpr hun, fun halive => ?_⟩
    rw [hdead] at halive
    cases halive
  · intro curl hcurl
    exact (hunlinked curl).mpr (hw.links curl fun h => hcurl ((hlog _ (by simp)).mpr h))

/-- The function of the destructor ends. A multi handle that was freed before is not freed again.
-/
theorem wf_cleaned (hw : Wf s) (hp : s.point = .cleaning []) (hdefined : Defined s.cleaned) :
    Wf s.cleaned := by
  rw [cleaned] at hdefined ⊢
  split_ifs at hdefined ⊢ with hnull
  · exact wf_freeEvents hw hp
  have hfault : s.useCurlm.fault = false := hdefined.resolve_left fun halive => by
    have hdead := hw.cleaning [] hp
    rw [show s.alive = true from halive] at hdead
    cases hdead
  have hlive : s.curlm = .live := by
    cases hcurlm : s.curlm with
    | null => exact absurd hcurlm hnull
    | live => rfl
    | dangling => exact absurd hcurlm ((fault_useCurlm s).mp hfault).2
  exact wf_freeEvents (wf_cleanupMulti (wf_useCurlm hw) hp hlive) hp

end Ends

/-! ## The steps -/

section Step

variable {s s' : Loop} {curl : ℕ}

/-- cURL has a socket watched, or not any more. -/
theorem wf_curlSocketCB (hw : Wf s) (easy what : ℕ) : Wf (s.curlSocketCB easy what) := by
  rw [curlSocketCB]
  refine wf_access hw fun _ => ?_
  split_ifs
  · apply wf_restartTimer
    cases h : s.handlers.lookup easy with
    | none => exact hw
    | some event => exact wf_resetEvent hw h
  · split
    next h => exact wf_newEvent hw h
    next => exact hw

theorem wf_curlTimerCB (hw : Wf s) (timeoutMs : ℤ) (error : Option (List UInt8))
    (logThrows : Bool) : Wf (s.curlTimerCB timeoutMs error logThrows) := by
  rw [curlTimerCB]
  split_ifs
  · exact hw
  · exact wf_access hw fun _ => (wf_check hw error).stay (by constructor <;> intros <;> rfl) rfl
  · exact wf_access hw fun _ => wf_restartTimer hw _

/-- cURL finishes a transfer. -/
theorem wf_finish (hw : Wf s) (hadded : curl ∈ s.added) (hnot : curl ∉ s.finished) :
    Wf { s with finished := curl :: s.finished, messages := s.messages ++ [curl] } := by
  refine { hw with messages := ?_, queued := ?_, ended := ?_ }
  · refine List.nodup_append.mpr ⟨hw.messages, List.nodup_singleton _, fun a ha b hb => ?_⟩
    obtain rfl := List.mem_singleton.mp hb
    rintro rfl
    exact hnot (hw.queued a ha).2.1
  · intro c hc
    rcases List.mem_append.mp hc with hc | hc
    · obtain ⟨hin, hfinished, hhandled⟩ := hw.queued c hc
      exact ⟨hin, List.mem_cons_of_mem _ hfinished, hhandled⟩
    · obtain rfl := List.mem_singleton.mp hc
      exact ⟨hadded, List.mem_cons_self, fun h => hnot (hw.ended c h)⟩
  · intro c hc
    exact List.mem_cons_of_mem _ (hw.ended c hc)

/-- A finished transfer is in the map. -/
theorem Wf.isSome_of_message (hw : Wf s) (curl : ℕ) (hp : s.point.inMap = true)
    (hcurl : curl ∈ s.messages) :
    (s.handlers.lookup curl).isSome := by
  have hjoined : s.Joined (.inEasy curl) (.easy curl) := ⟨rfl, (hw.queued curl hcurl).1⟩
  exact (hasEasy_of_inMap hp curl).mp (hw.balanced.owned_of_joined hjoined)

/-- The next message is read. -/
theorem wf_readMessage (hw : Wf s) (hp : s.point = .idle) : Wf s.readMessage := by
  rw [readMessage]
  cases h : s.messages with
  | nil =>
    refine hw.go ?_ (by simp [hp, Point.inMap]) rfl
    constructor
    all_goals simp [h]
  | cons curl messages =>
    have hnodup := hw.messages
    rw [h] at hnodup
    obtain ⟨hnotin, hnodup⟩ := List.nodup_cons.mp hnodup
    have hself := hw.queued curl (by rw [h]; exact List.mem_cons_self)
    have hrest : ∀ c ∈ messages, c ∈ s.added ∧ c ∈ s.finished ∧ c ∉ s.handled :=
      fun c hc => hw.queued c (by rw [h]; exact List.mem_cons_of_mem _ hc)
    have hw' : Wf { s with messages } := { hw with messages := hnodup, queued := hrest }
    have hsome := hw.isSome_of_message curl (by simp [hp, Point.inMap])
      (by rw [h]; exact List.mem_cons_self)
    dsimp only
    rw [if_pos hsome]
    refine { hw' with
      balanced := hw'.balanced.congr (fun r => ?_) fun d r => Iff.rfl
      cleaning := by simp, adding := by simp, removing := by simp, handling := ?_, queued := ?_,
      handled := ?_, ended := ?_ }
    · cases r with
      | easy c => simp [Owns, HasEasy, hp]
      | _ => exact Iff.rfl
    · intro c more hpoint _
      cases hpoint
      exact ⟨hsome, hself.1⟩
    · intro c hc
      obtain ⟨hin, hfinished, hhandled⟩ := hrest c hc
      refine ⟨hin, hfinished, fun hc' => ?_⟩
      rcases List.mem_cons.mp hc' with rfl | hc'
      · exact hnotin hc
      · exact hhandled hc'
    · exact List.nodup_cons.mpr ⟨hself.2.2, hw.handled⟩
    · intro c hc
      rcases List.mem_cons.mp hc with rfl | hc
      · exact hself.2.1
      · exact hw.ended c hc

/-- cURL returns. -/
theorem wf_curlReturns (hw : Wf s) {error : Option (List UInt8)} {logThrows : Bool}
    (hr : Returns s error logThrows s') : Wf s' := by
  cases hr with
  | add hp => exact hw.to (by simp [hp, Point.inMap]) rfl
  | evSocketCB hp =>
    have hin : s.point.inMap = true := by simp [hp, Point.inMap]
    split_ifs
    · have hw' := wf_access hw fun _ => wf_check hw error
      have hin' : (s.access (check error)).point.inMap = true := by
        rw [access]
        split_ifs
        · rw [point_check, hin]
        · exact hin
      exact hw'.to hin' rfl
    · exact hw.to hin rfl
  | evTimerCB hp =>
    have hin : s.point.inMap = true := by simp [hp, Point.inMap]
    refine wf_access (hw.to hin rfl) fun _ => ?_
    have hcheck := wf_check hw error
    have hin' : (s.check error).point.inMap = true := by rw [point_check, hin]
    have hgo : Wf { s.check error with
        point := if error.isSome && logThrows then .idle else .reading } :=
      hcheck.to hin' (by split_ifs <;> rfl)
    cases error
    all_goals exact hgo
  | @removing curl _ _ hp =>
    rw [afterFree.eq_def]
    split
    · exact wf_cleanupEasy hw hp (by split_ifs <;> rfl)
    · have hgo : Wf { s.record (.release (.easy curl) ()) with
          point := if logThrows then .idle else .jobs } :=
        wf_cleanupEasy hw hp (by split_ifs <;> rfl)
      exact hgo.stay (by constructor <;> intros <;> rfl) rfl
    · exact wf_cleanupEasy hw hp rfl

/-- `multi` goes on with its `doInEv`. -/
theorem wf_register (hw : Wf s) (hcurl : curl ∈ s.registering) :
    Wf ({ s with registering := s.registering.filter (· ≠ curl) }.access (doInEv (.add curl))) := by
  have hsublist : (Loop.pending { s with
      registering := s.registering.filter (· ≠ curl) }).Sublist s.pending :=
    List.filter_sublist.append (List.Sublist.refl _)
  have hw' : Wf { s with registering := s.registering.filter (· ≠ curl) } :=
    { hw with
      pending := hw.pending.sublist hsublist
      waiting := fun c hc => hw.waiting c (hsublist.subset hc) }
  refine wf_access hw' fun _ => wf_doInEv hw' nofun nofun fun c hc => ?_
  obtain rfl : curl = c := Option.some.inj hc
  refine ⟨fun hin => ?_, hw.waiting curl (List.mem_append_left _ hcurl)⟩
  obtain ⟨-, -, hdisjoint⟩ := List.nodup_append.mp hw.pending
  rcases List.mem_append.mp hin with hin | hin
  · simp at hin
  · exact hdisjoint curl hcurl curl hin rfl

/-- **Every step keeps the invariant**, unless it is undefined. -/
theorem wf_step (l : Label) (s s' : Loop) (hw : Wf s) (hfresh : Fresh l s)
    (hx : step l s = some s') (hdefined : Defined s') : Wf s' := by
  cases moves_of_step hx with
  | tick => exact hw.stay (by constructor <;> intros <;> rfl) rfl
  | multi => exact wf_access hw fun halive => wf_insertHandler hw halive hfresh
  | doInEv hregistering => exact wf_register hw hregistering
  | run hp => exact wf_access hw fun _ => hw.to (by simp [hp, Point.inMap]) rfl
  | destroy => exact wf_destroy hw
  | runTask hp htask => exact wf_runTask hw hp htask _
  | evTimerCB htimer hp =>
    refine wf_access hw fun _ => (wf_useCurlm hw).go ?_ (by simp [hp, Point.inMap]) rfl
    constructor
    case timer => exact (congrArg (Option.map Timer.event) htimer).symm
    all_goals intros; rfl
  | evSocketCB hp =>
    exact wf_access hw fun _ => (wf_useCurlm hw).to (by simp [hp, Point.inMap]) rfl
  | curlSocketCB => exact wf_curlSocketCB hw _ _
  | curlTimerCB => exact wf_curlTimerCB hw _ _ _
  | finish _ hadded hfinished => exact wf_finish hw hadded hfinished
  | curlReturns hr => exact wf_curlReturns hw hr
  | read hp =>
    have hidle : Wf { s with point := .idle } := hw.to (by simp [hp, Point.inMap]) rfl
    exact wf_access hidle fun _ => wf_readMessage (wf_useCurlm hidle) rfl
  | @handlerEnds thrown curl more hp =>
    exact wf_freeCurl hw (by simp [hp, Point.inMap]) (hw.handling curl more hp) thrown more hdefined
  | jobsEnd hp =>
    have hidle : Wf { s with point := .idle } := hw.to (by simp [hp, Point.inMap]) rfl
    exact wf_access hidle fun _ => wf_restartTimer hidle _
  | jobsEscape hp => exact hw.to (by simp [hp, Point.inMap]) rfl
  | clean hp hcurl => exact wf_clean hw hp hcurl
  | cleaned hp => exact wf_cleaned hw hp hdefined

end Step

/-! ## The handlers, and what is left behind the destructor -/

/-- The handler of a transfer that is freed was called before, as long as the runner is there.
Behind the destructor there is its function, or nothing. -/
structure Settled (s : Loop) : Prop where
  handling : ∀ curl more, s.point = .handling curl more → curl ∈ s.handled
  removing : ∀ curl thrown more, s.point = .removing curl thrown more → curl ∈ s.handled
  released : s.alive = true → ∀ curl, .release (.easy curl) () ∈ s.log → curl ∈ s.handled
  gone : s.alive = false → s.timer = none ∧ ((∃ id, (id, Task.cleanup) ∈ s.dugouts) ∨
    (∃ todo, s.point = .cleaning todo) ∨ s.handlers = .empty ∧ s.curlm = .null)

section Settled

variable {s s' : Loop} {event curl : ℕ}

/-- The transfer that is in a handler, or is being removed. -/
def Point.curl? : Point → Option ℕ
  | .handling curl _ => some curl
  | .removing curl _ _ => some curl
  | _ => none

theorem settled_iff : Settled s ↔ (∀ curl, s.point.curl? = some curl → curl ∈ s.handled) ∧
    (s.alive = true → ∀ curl, .release (.easy curl) () ∈ s.log → curl ∈ s.handled) ∧
    (s.alive = false → s.timer = none ∧ ((∃ id, (id, Task.cleanup) ∈ s.dugouts) ∨
      (∃ todo, s.point = .cleaning todo) ∨ s.handlers = .empty ∧ s.curlm = .null)) := by
  constructor
  · intro h
    refine ⟨fun curl hcurl => ?_, h.released, h.gone⟩
    cases hp : s.point with
    | handling c more =>
      rw [hp] at hcurl
      obtain rfl := Option.some.inj hcurl
      exact h.handling c more hp
    | removing c thrown more =>
      rw [hp] at hcurl
      obtain rfl := Option.some.inj hcurl
      exact h.removing c thrown more hp
    | _ =>
      rw [hp] at hcurl
      cases hcurl
  · rintro ⟨hcurl, hreleased, hgone⟩
    refine ⟨fun curl more hp => hcurl curl ?_, fun curl thrown more hp => hcurl curl ?_, hreleased,
      hgone⟩
    · rw [hp]
      rfl
    · rw [hp]
      rfl

/-- A step of the runner while it is there, that frees no transfer. -/
theorem Settled.living (h : Settled s) (halive : s.alive = true) (halive' : s'.alive = true)
    (hcurl : ∀ curl, s'.point.curl? = some curl → curl ∈ s'.handled)
    (hhandled : ∀ curl ∈ s.handled, curl ∈ s'.handled)
    (hlog : ∀ curl, .release (.easy curl) () ∈ s'.log → .release (.easy curl) () ∈ s.log) :
    Settled s' := by
  refine settled_iff.mpr ⟨hcurl, fun _ curl hin => ?_, fun hdead => ?_⟩
  · exact hhandled curl (h.released halive curl (hlog curl hin))
  · rw [halive'] at hdead
    cases hdead

/-- A step behind the destructor that is not one of its function. -/
theorem Settled.dead (h : Settled s) (hdead : s.alive = false) (hdead' : s'.alive = false)
    (hcurl : ∀ curl, s'.point.curl? = some curl → s.point.curl? = some curl)
    (hhandled : s'.handled = s.handled) (htimer : s'.timer = s.timer)
    (hdugouts : ∀ id, (id, Task.cleanup) ∈ s.dugouts → (id, Task.cleanup) ∈ s'.dugouts)
    (hpoint : ∀ todo, s.point = .cleaning todo → s'.point = s.point)
    (hhandlers : s'.handlers = s.handlers) (hcurlm : s'.curlm = s.curlm) : Settled s' := by
  obtain ⟨hcurl', -, hgone⟩ := settled_iff.mp h
  refine settled_iff.mpr ⟨fun curl hp => ?_, fun halive => ?_, fun _ => ?_⟩
  · rw [hhandled]
    exact hcurl' curl (hcurl curl hp)
  · rw [hdead'] at halive
    cases halive
  · obtain ⟨hnone, hgone⟩ := hgone hdead
    rw [htimer, hhandlers, hcurlm]
    refine ⟨hnone, ?_⟩
    rcases hgone with ⟨id, hid⟩ | ⟨todo, htodo⟩ | hempty
    · exact Or.inl ⟨id, hdugouts id hid⟩
    · exact Or.inr (Or.inl ⟨todo, (hpoint todo htodo).trans htodo⟩)
    · exact Or.inr (Or.inr hempty)

/-- What is undefined behaviour changes nothing else. -/
theorem Settled.fault (h : Settled s) (hdead : s.alive = false) :
    Settled { s with fault := true } :=
  h.dead hdead hdead (fun _ => id) rfl rfl (fun _ => id) (fun _ _ => rfl) rfl rfl

theorem Settled.access (h : Settled s) {f : Loop → Loop} (hf : s.alive = true → Settled (f s)) :
    Settled (s.access f) := by
  rw [Loop.access]
  split_ifs with halive
  · exact hf halive
  · exact h.fault (Bool.eq_false_iff.mpr halive)

/-- The event loop goes to another point. -/
theorem Settled.move (h : Settled s) {p : Point}
    (hp : ∀ curl, p.curl? = some curl → curl ∈ s.handled)
    (hfrom : ∀ todo, s.point ≠ .cleaning todo) : Settled { s with point := p } := by
  refine settled_iff.mpr ⟨hp, h.released, fun hdead => ?_⟩
  obtain ⟨htimer, hgone⟩ := h.gone hdead
  refine ⟨htimer, hgone.imp_right (Or.imp_left ?_)⟩
  rintro ⟨todo, htodo⟩
  exact absurd htodo (hfrom todo)

/-- The event loop goes to a point at which no transfer is in work. -/
theorem Settled.to (h : Settled s) {p : Point} (hp : p.curl? = none)
    (hfrom : ∀ todo, s.point ≠ .cleaning todo) : Settled { s with point := p } :=
  h.move (fun curl hcurl => by rw [hp] at hcurl; cases hcurl) hfrom

theorem Settled.useCurlm (h : Settled s) : Settled s.useCurlm := { h with }

theorem Settled.restartTimer (h : Settled s) (halive : s.alive = true) (n : ℕ) :
    Settled (s.restartTimer n) := by
  have hsame := same_restartTimer (s := s) n
  refine h.living halive (hsame.alive.trans halive) (fun curl hcurl => ?_) (fun curl hin => ?_)
    fun curl hin => ?_
  · rw [point_restartTimer] at hcurl
    rw [hsame.handled]
    exact (settled_iff.mp h).1 curl hcurl
  · rwa [hsame.handled]
  · rwa [hsame.log] at hin

theorem Settled.check (h : Settled s) (halive : s.alive = true) (error : Option (List UInt8)) :
    Settled (s.check error) := by
  have hsame := same_check (s := s) error
  refine h.living halive (hsame.alive.trans halive) (fun curl hcurl => ?_) (fun curl hin => ?_)
    fun curl hin => ?_
  · rw [point_check] at hcurl
    rw [hsame.handled]
    exact (settled_iff.mp h).1 curl hcurl
  · rwa [hsame.handled]
  · rwa [hsame.log] at hin

/-- The end of a transfer, while the runner is there. -/
theorem Settled.cleanupEasy (h : Settled s) {thrown : Option Thrown} {more : Bool}
    (hp : s.point = .removing curl thrown more) {p : Point} (hplain : p.curl? = none)
    {errors : List (List UInt8)} :
    Settled { s.record (.release (.easy curl) ()) with point := p, errors } := by
  have hin := h.removing curl thrown more hp
  rcases Bool.eq_false_or_eq_true s.alive with halive | halive
  · refine settled_iff.mpr ⟨fun c hc => ?_, fun _ c hc => ?_, fun hdead => ?_⟩
    · rw [hplain] at hc
      cases hc
    · rcases List.mem_cons.mp hc with heq | hc
      · cases heq
        exact hin
      · exact h.released halive c hc
    · rw [show s.alive = false from hdead] at halive
      cases halive
  · refine h.dead halive halive (fun c hc => ?_) rfl rfl (fun _ => id)
      (fun todo htodo => ?_) rfl rfl
    · rw [hplain] at hc
      cases hc
    · rw [hp] at htodo
      cases htodo

/-- `~FreeCurl` up to `curl_multi_remove_handle`. -/
theorem Settled.freeCurl (h : Settled s) (hin : curl ∈ s.handled)
    (hp : ∀ todo, s.point ≠ .cleaning todo) (thrown : Option Thrown) (more : Bool) :
    Settled (s.freeCurl curl thrown more) := by
  have hmove : Settled { s with point := .removing curl thrown more } :=
    h.move (fun c hc => Option.some.inj hc ▸ hin) hp
  refine hmove.access fun halive => ?_
  have halive' : s.alive = true := halive
  refine h.living halive' (by simpa [Loop.useCurlm] using halive') (fun c hc => ?_) (fun c hc => ?_)
    fun c hc => ?_
  · obtain rfl : curl = c := by simpa [Point.curl?] using hc
    simpa [Loop.useCurlm] using hin
  · simpa [Loop.useCurlm] using hc
  · simpa [Loop.useCurlm] using hc

/-- libevent runs a function of `doInEv`. -/
theorem Settled.runTask (h : Settled s) (hw : Wf s) (hp : s.point = .idle) {task : Task}
    (hevent : (event, task) ∈ s.dugouts) (multiInit : MultiInit) :
    Settled (s.runTask event task multiInit) := by
  have hcurl := (settled_iff.mp h).1
  have hlog : ∀ c, .release (.easy c) () ∈ (s.take event).log → .release (.easy c) () ∈ s.log := by
    intro c hc
    simpa using hc
  -- behind the destructor, the other functions do not matter
  have htake : task ≠ .cleanup → Settled (s.take event) := by
    intro hne
    rcases Bool.eq_false_or_eq_true s.alive with halive | halive
    · exact h.living halive halive hcurl (fun _ => id) hlog
    · refine h.dead halive halive (fun _ => id) rfl rfl (fun i hi => ?_) (fun _ _ => rfl) rfl rfl
      refine mem_filter_dugouts.mpr ⟨hi, fun heq => hne ?_⟩
      have hone := List.inj_on_of_nodup_map hw.dugouts hi hevent heq
      exact (Prod.mk.inj hone).2.symm
  cases task with
  | init =>
    refine (htake (by rintro ⟨⟩)).access fun halive => ?_
    cases multiInit with
    | null => exact htake (by rintro ⟨⟩)
    | setoptFails =>
      rw [init_setoptFails]
      refine (htake (by rintro ⟨⟩)).living halive halive hcurl (fun _ => id) fun c hc => ?_
      simpa using hc
    | ok =>
      have hinit : Settled { s.take event with
          curlm := .live
          timer := some { event := s.nextEvent }
          nextEvent := s.nextEvent + 1
          log := .acquire (.event s.nextEvent) :: .acquire .multi :: (s.take event).log } := by
        refine (htake (by rintro ⟨⟩)).living halive halive hcurl (fun _ => id) fun c hc => ?_
        simpa using hc
      exact hinit.restartTimer halive 100000
  | add curl =>
    show Settled ((s.take event).access fun s =>
      { s.useCurlm.addHandle curl with point := if s.curlm = .live then .inCurl .add else .idle })
    refine (htake (by rintro ⟨⟩)).access fun halive => ?_
    have huse := (htake (by rintro ⟨⟩)).useCurlm
    have hadd : Settled ((s.take event).useCurlm.addHandle curl) := by
      rw [addHandle]
      split_ifs
      · refine huse.living halive halive hcurl (fun _ => id) fun c hc => ?_
        simpa using hc
      · exact huse
    refine hadd.to ?_ fun todo => ?_
    · split_ifs <;> rfl
    · rw [addHandle]
      split_ifs <;> simp [hp, Loop.useCurlm]
  | cleanup =>
    have hdead := hw.cleanup event hevent
    obtain ⟨htimer, -⟩ := h.gone hdead
    refine settled_iff.mpr ⟨by rintro _ ⟨⟩, fun halive => ?_,
      fun _ => ⟨htimer, Or.inr (Or.inl ⟨_, rfl⟩)⟩⟩
    rw [show s.alive = true from halive] at hdead
    cases hdead

/-- cURL returns. -/
theorem Settled.curlReturns (h : Settled s) {error : Option (List UInt8)} {logThrows : Bool}
    (hr : Returns s error logThrows s') : Settled s' := by
  cases hr with
  | add hp => exact h.to rfl fun todo => by simp [hp]
  | evSocketCB hp =>
    have hfrom : ∀ todo, s.point ≠ .cleaning todo := by
      intro todo
      simp [hp]
    split_ifs
    · refine (h.access fun halive => h.check halive error).to rfl fun todo => ?_
      rw [Loop.access]
      split_ifs
      · rw [point_check]
        exact hfrom todo
      · exact hfrom todo
    · exact h.to rfl hfrom
  | evTimerCB hp =>
    have hidle : Settled { s with point := .idle } := h.to rfl fun todo => by simp [hp]
    refine hidle.access fun halive => (hidle.check halive error).to ?_ fun todo => ?_
    · split_ifs <;> rfl
    · rw [point_check]
      rintro ⟨⟩
  | removing hp =>
    rw [afterFree.eq_def]
    split
    · exact h.cleanupEasy hp (by split_ifs <;> rfl)
    · exact h.cleanupEasy hp (by split_ifs <;> rfl)
    · exact h.cleanupEasy hp rfl

/-- The next message is read. -/
theorem Settled.readMessage (h : Settled s) (hw : Wf s) (hp : s.point = .idle)
    (halive : s.alive = true) : Settled s.readMessage := by
  rw [Loop.readMessage]
  cases hmessages : s.messages with
  | nil =>
    refine h.living halive halive (fun curl hcurl => ?_) (fun _ => id) fun _ => id
    cases hcurl
  | cons curl messages =>
    have hsome := hw.isSome_of_message curl (by simp [hp, Point.inMap])
      (by rw [hmessages]; exact List.mem_cons_self)
    dsimp only
    rw [if_pos hsome]
    refine h.living halive halive (fun c hc => ?_) (fun c hc => List.mem_cons_of_mem _ hc)
      fun _ => id
    obtain rfl := Option.some.inj hc
    exact List.mem_cons_self

/-- The destructor leaves its function. -/
theorem Settled.destroy (h : Settled s) : Settled s.destroy := by
  have hcurl := (settled_iff.mp h).1
  rw [Loop.destroy]
  cases htimer : s.timer with
  | none =>
    refine settled_iff.mpr ⟨hcurl, (by rintro ⟨⟩), fun _ => ⟨htimer, Or.inl ⟨s.nextEvent, ?_⟩⟩⟩
    simp [Loop.doInEv]
  | some timer =>
    refine settled_iff.mpr ⟨hcurl, (by rintro ⟨⟩), fun _ => ⟨rfl, Or.inl ⟨s.nextEvent, ?_⟩⟩⟩
    simp [Loop.doInEv, record]

/-- cURL has a socket watched, or not any more. -/
theorem Settled.curlSocketCB (h : Settled s) (easy what : ℕ) :
    Settled (s.curlSocketCB easy what) := by
  have hcurl := (settled_iff.mp h).1
  rw [Loop.curlSocketCB]
  refine h.access fun halive => ?_
  split_ifs
  · have hreset : ∀ event, Settled { s.deleteEvent event with
        handlers := s.handlers.insert easy none } := by
      intro event
      refine h.living halive (by simpa using halive) (fun c hc => ?_) (fun c hc => ?_)
        fun c hc => ?_
      · simpa using hcurl c (by simpa using hc)
      · simpa using hc
      · simpa using hc
    cases s.handlers.lookup easy with
    | none => exact h.restartTimer halive 0
    | some event => exact (hreset event).restartTimer (by simpa using halive) 0
  · split
    · refine h.living halive halive hcurl (fun _ => id) fun c hc => ?_
      simpa [record] using hc
    · exact h

/-- The function of the destructor frees a transfer. -/
theorem Settled.clean (h : Settled s) (hdead : s.alive = false) (curl : ℕ) (todo : List ℕ) :
    Settled (s.clean curl todo) := by
  refine settled_iff.mpr ⟨nofun, fun halive => ?_, fun _ => ⟨?_, Or.inr (Or.inl ⟨_, rfl⟩)⟩⟩
  · have halive' : (s.useCurlm.removeHandle curl).alive = true := halive
    rw [alive_removeHandle, show s.useCurlm.alive = false from hdead] at halive'
    cases halive'
  · exact (timer_removeHandle s.useCurlm curl).trans (h.gone hdead).1

/-- The function of the destructor ends. -/
theorem Settled.cleaned (h : Settled s) (hdead : s.alive = false) : Settled s.cleaned := by
  have halive : s.cleaned.alive = false := by
    rw [Loop.cleaned]
    split_ifs <;> exact hdead
  have htimer : s.cleaned.timer = none := by
    rw [Loop.cleaned]
    split_ifs <;> exact (h.gone hdead).1
  refine settled_iff.mpr ⟨by rintro _ ⟨⟩, fun halive' => ?_,
    fun _ => ⟨htimer, Or.inr (Or.inr ⟨rfl, ?_⟩)⟩⟩
  · rw [halive] at halive'
    cases halive'
  · rw [Loop.cleaned]
    split_ifs with hcurlm
    · exact hcurlm
    · rfl

theorem settled_step (l : Label) (s s' : Loop) (hw : Wf s) (h : Settled s)
    (hx : step l s = some s') : Settled s' := by
  have hcurl := (settled_iff.mp h).1
  cases moves_of_step hx with
  | tick => exact { h with }
  | multi =>
    refine h.access fun halive => ?_
    rw [insertHandler]
    split_ifs
    all_goals
      refine h.living halive halive hcurl (fun _ => id) fun c hc => ?_
      simpa [record] using hc
  | @doInEv curl _ =>
    have h' : Settled { s with registering := s.registering.filter (· ≠ curl) } :=
      { h with }
    refine h'.access fun halive => ?_
    refine h'.living halive halive hcurl (fun _ => id) fun c hc => ?_
    simpa [Loop.doInEv] using hc
  | run hp => exact h.access fun _ => h.to rfl fun todo => by simp [hp]
  | destroy => exact h.destroy
  | runTask hp htask => exact h.runTask hw hp htask _
  | evTimerCB =>
    refine h.access fun halive => ?_
    exact h.living halive halive (by rintro _ ⟨⟩) (fun _ => id) fun _ => id
  | evSocketCB hp => exact h.access fun _ => h.useCurlm.to rfl fun todo => by simp [hp]
  | curlSocketCB => exact h.curlSocketCB _ _
  | @curlTimerCB timeoutMs error logThrows _ =>
    rw [Loop.curlTimerCB]
    split_ifs
    · exact h
    · exact h.access fun halive => { h.check halive error with }
    · exact h.access fun halive => h.restartTimer halive _
  | finish => exact { h with }
  | curlReturns hr => exact h.curlReturns hr
  | read hp =>
    have hw' : Wf { s with point := .idle } := hw.to (by simp [hp, Point.inMap]) rfl
    have h' : Settled { s with point := .idle } := h.to rfl fun todo => by simp [hp]
    exact h'.access fun halive => h'.useCurlm.readMessage (wf_useCurlm hw') rfl halive
  | @handlerEnds thrown curl more hp =>
    exact h.freeCurl (h.handling curl more hp) (fun todo => by simp [hp]) thrown more
  | jobsEnd hp =>
    have h' : Settled { s with point := .idle } := h.to rfl fun todo => by simp [hp]
    exact h'.access fun halive => h'.restartTimer halive _
  | jobsEscape hp => exact h.to rfl fun todo => by simp [hp]
  | @clean curl todo hp _ => exact h.clean (hw.cleaning todo hp) curl todo
  | cleaned hp => exact h.cleaned (hw.cleaning [] hp)

end Settled

/-! ## Every run -/

section Runs

variable {now : ℕ} {ls : List Label} {s : Loop}

theorem has_start (o : Owner) (id : ℕ) : (start now).Has o id ↔ o = .dugouts ∧ id = 0 := by
  cases o <;> simp [Has, start, doInEv]

theorem wf_start (now : ℕ) : Wf (start now) where
  balanced := by
    have hempty : Balanced ([] : List (Entry Resource Link Unit)) (fun _ => False)
      fun _ _ => False := Balanced.nil
    refine ((hempty.acquire (r := .dugout 0) List.not_mem_nil).acquire
      (r := .event 0) (by simp)).congr (fun r => ?_) fun d r => ?_
    · cases r with
      | event id => simp [Owns, has_start]
      | dugout id => simp [Owns, has_start]
      | multi => simp [Owns, start, doInEv]
      | easy curl => simp [Owns, HasEasy, start, doInEv]
    · cases d <;> simp [Joined, start, doInEv]
  ids := fun id hid => by
    obtain rfl : id = 0 := by simpa [start, doInEv] using hid
    exact Nat.zero_lt_one
  unique := fun id o o' ho ho' => ((has_start o id).mp ho).1.trans ((has_start o' id).mp ho').1.symm
  dugouts := List.nodup_singleton _
  init := fun id hid => by
    obtain ⟨rfl, -⟩ : id = 0 ∧ True := by simpa [start, doInEv] using hid
    exact ⟨rfl, by simp [start, doInEv], rfl⟩
  cleanup := fun id hid => by simp [start, doInEv] at hid
  cleaning := nofun
  adding := nofun
  pending := List.nodup_nil
  waiting := nofun
  links := fun curl _ r => by simp [start, doInEv]
  removing := nofun
  handling := nofun
  messages := List.nodup_nil
  queued := nofun
  handled := List.nodup_nil
  ended := nofun

theorem settled_start (now : ℕ) : Settled (start now) :=
  settled_iff.mpr ⟨nofun, fun _ curl hin => by simp [start, doInEv] at hin, nofun⟩

theorem wf_of_steps (hr : Steps step Fresh (start now) ls s) (hdefined : Defined s) :
    Wf s ∧ Settled s := by
  refine hr.invariant (I := fun s => Defined s → Wf s ∧ Settled s) ?_
    (fun _ => ⟨wf_start now, settled_start now⟩) hdefined
  intro l s s' h hfresh hx hdefined'
  -- it was defined before
  obtain ⟨hw, h⟩ := h ((later_step hx).defined hdefined')
  exact ⟨wf_step l s s' hw hfresh hx hdefined', settled_step l s s' hw h hx⟩

/-- When the function of the destructor is through, nothing is left. -/
theorem Settled.not_owns (h : Settled s) (hdead : s.alive = false) (hp : s.point = .idle)
    (hdugouts : s.dugouts = []) (r : Resource) : ¬ s.Owns r := by
  obtain ⟨htimer, ⟨id, hid⟩ | ⟨todo, htodo⟩ | ⟨hhandlers, hcurlm⟩⟩ := h.gone hdead
  · rw [hdugouts] at hid
    cases hid
  · rw [hp] at htodo
    cases htodo
  · cases r with
    | event id =>
      rintro ⟨o, ho⟩
      cases o with
      | dugouts => simp [Has, hdugouts] at ho
      | timer => simp [Has, htimer] at ho
      | transfer curl => simp [Has, hhandlers] at ho
    | dugout id => simp [Owns, Has, hdugouts]
    | multi => simp [Owns, hcurlm]
    | easy curl => simp [Owns, HasEasy, hp, hhandlers]

/-- **What the runner makes is freed once**, in every run in which it is given new transfers only
and nothing is undefined: the events, the functions that were scheduled, the multi handle and the
transfers. No transfer is freed while cURL has it, and the multi handle is not freed before the
transfers in it. A handler is called at most once, and before its transfer is freed, as long as the
runner is there. When the function of the destructor is through, all has been freed. -/
theorem freed_once (now : ℕ) (ls : List Label) (s : Loop)
    (hr : Steps step Fresh (start now) ls s) (hfault : s.fault = false) :
    Proper s.log ∧ s.handled.Nodup ∧
      (∀ r, .acquire r ∈ s.log → s.Owns r ∧ s.log.countP (Entry.releases r) = 0 ∨
        ¬ s.Owns r ∧ s.log.countP (Entry.releases r) = 1) ∧
      (s.alive = true → ∀ curl, .release (.easy curl) () ∈ s.log → curl ∈ s.handled) ∧
      (s.alive = false → s.point = .idle → s.dugouts = [] → ∀ r, ¬ s.Owns r) := by
  obtain ⟨hw, h⟩ := wf_of_steps hr (Or.inr hfault)
  refine ⟨hw.balanced.proper, hw.handled, fun r hr => ?_, h.released, h.not_owns⟩
  by_cases howns : s.Owns r
  · exact Or.inl ⟨howns, hw.balanced.countP_releases_of_owned howns⟩
  · exact Or.inr ⟨howns, hw.balanced.countP_releases hr howns⟩

/-- A transfer from `multi` to its end, and the destructor behind it. -/
theorem freed_once_transfer :
    let ls : List Label := [.runTask 0 .ok, .multi 7, .doInEv 7, .runTask 2 .ok,
      .curlSocketCB 7 2, .curlReturns none false, .evSocketCB 3, .finish 7, .curlSocketCB 7 4,
      .curlReturns none false, .evTimerCB, .curlReturns none false, .read, .handlerEnds none,
      .curlReturns none false, .jobsEnd, .destroy, .runTask 4 .ok, .cleaned]
    ∃ s, Steps step Fresh (start 0) ls s ∧ s.handled = [7] ∧
      Proper s.log ∧ s.handled.Nodup ∧
      (∀ r, .acquire r ∈ s.log → s.Owns r ∧ s.log.countP (Entry.releases r) = 0 ∨
        ¬ s.Owns r ∧ s.log.countP (Entry.releases r) = 1) ∧
      (s.alive = true → ∀ curl, .release (.easy curl) () ∈ s.log → curl ∈ s.handled) ∧
      (s.alive = false → s.point = .idle → s.dugouts = [] → ∀ r, ¬ s.Owns r) := by
  intro ls
  obtain ⟨s, hs⟩ : ∃ s, runGuarded step Fresh ls (start 0) = some s := ⟨_, rfl⟩
  have hr := steps_of_runGuarded hs
  have hfields : (runGuarded step Fresh ls (start 0)).map (fun s => (s.handled, s.fault)) =
      some ([7], false) := rfl
  rw [hs] at hfields
  obtain ⟨hhandled, hfault⟩ := Prod.mk.inj (Option.some.inj hfields)
  exact ⟨s, hr, hhandled, freed_once 0 ls s hr hfault⟩

/-- The handler of a transfer destroys the runner, and `~FreeCurl` behind it frees the easy handle,
that the function of the destructor frees, too. -/
example :
    (runGuarded step Fresh [.runTask 0 .ok, .multi 7, .doInEv 7, .runTask 2 .ok, .finish 7,
      .curlReturns none false, .run, .read, .destroy, .handlerEnds none, .curlReturns none false,
      .jobsEnd, .runTask 3 .ok, .clean 7] (start 0)).map
        (fun s => (s.fault, s.log.countP (Entry.releases (.easy 7)))) = some (true, 2) := rfl

end Runs

end Glim.Runner.Loop
