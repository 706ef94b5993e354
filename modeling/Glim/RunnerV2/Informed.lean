import Glim.RunnerV2.Listeners

/-!
# What becomes of the transfers

The runner deletes a `FunCurlmLisneter` when it has informed it, if the listener is to be deleted at
all; one that the runner never informs, since the queue was full, or since cURL did not take the
handle or did not give the listener, is leaked. The messages of the transfers are handled in the
order in which the transfers were finished, and all of them before the run thread waits again,
whatever the listeners throw.

## Main definitions

* `Transfers.Deleted`: which listeners of the runner were deleted
* `Transfers.Ordered`: which messages were read, and what came of them

## Main results

* `Transfers.transfers_accounted`: what becomes of transfers, handles and listeners
* `Transfers.messages_handled_in_order`: what becomes of the messages
-/

namespace Glim.RunnerV2.Transfers

open Machine Machine.Ledger Thread

/-- The runner deletes the listeners that it made, when they have been informed. -/
def Deleted (s : Transfers) : Prop :=
  ∀ id fop, s.freeOptions id = some (some fop) →
    (.release (.listener id) () ∈ s.log ↔ fop.has DELETE_LISTENER ∧ ∃ e ∈ s.informed, e.2 = id)

/-- The messages that were read, and what came of them. -/
structure Ordered (s : Transfers) : Prop where
  finished : s.finished = s.read ++ s.messages
  read : s.read.Perm (s.current ++ s.informed.map Prod.fst ++ s.unread)
  informed : (s.current ++ s.informed.map Prod.fst).reverse.Sublist s.read
  left : ∀ t id left, s.point = .informing t id left → left = decide (s.messages ≠ [])
  through : s.point ≠ .performing → s.point ≠ .reading → s.current = [] → s.messages = []

variable {s s' : Transfers} {t : Transfer} {curl id : ℕ} {fop : FreeOptions} {l : Label}

/-! ## The listeners that are deleted -/

section Deleted

/-- What neither makes, informs nor deletes a listener. -/
theorem Deleted.of_eq (h : Deleted s) (hoptions : s'.freeOptions = s.freeOptions)
    (hinformed : s'.informed = s.informed)
    (hlog : ∀ id, .release (.listener id) () ∈ s'.log ↔ .release (.listener id) () ∈ s.log) :
    Deleted s' := by
  intro id fop hid
  rw [hoptions] at hid
  rw [hlog, hinformed]
  exact h id fop hid

theorem deleted_newListener (hw : Wf s) (h : Deleted s) (freeOptions : Option FreeOptions) :
    Deleted (s.newListener freeOptions) := by
  intro id fop hid
  simp only [newListener, Function.update_apply] at hid
  simp only [newListener, List.mem_cons, reduceCtorEq, false_or]
  split_ifs at hid with hnew
  · subst hnew
    refine iff_of_false (fun hlog => ?_) ?_
    · exact lt_irrefl _ (hw.ids _ (hw.balanced.proper.acquire_mem hlog))
    · rintro ⟨-, e, he, heq⟩
      exact lt_irrefl _ (heq ▸ hw.informed_lt he)
  · exact h id fop hid

theorem deleted_addToCURLM (h : Deleted s) (curl : ℕ) : Deleted (s.addToCURLM curl) := by
  rw [addToCURLM]
  split_ifs
  · exact h.of_eq rfl rfl fun id => by simp
  · exact h

theorem deleted_pop (h : Deleted s) (added : Bool) : Deleted (s.pop added) := by
  rw [pop]
  split
  · exact h
  · split_ifs
    · exact h
    · exact h.of_eq rfl rfl fun id => by simp
    · exact h

theorem deleted_readMessage (h : Deleted s) (getinfo : Bool) : Deleted (s.readMessage getinfo) := by
  rw [readMessage]
  split
  · exact h
  · dsimp only
    split_ifs
    · split
      · split_ifs
        · exact h
        · exact h
      · exact h
    · exact h.of_eq rfl rfl fun id => by simp

theorem deleted_removeHandle (h : Deleted s) (t : Transfer) : Deleted (s.removeHandle t) := by
  obtain ⟨log, heq, hlog⟩ := removeHandle_eq s t
  rw [heq]
  exact h.of_eq rfl rfl fun id => hlog _

/-- A listener is deleted if it asks for that. -/
theorem free_eq (s : Transfers) (fop : FreeOptions) (t : Transfer) (id : ℕ) :
    ∃ easies alive kept log, s.free fop t id = { s with easies, alive, kept, log } ∧
      ∀ i, .release (.listener i) () ∈ log ↔
        .release (.listener i) () ∈ s.log ∨ fop.has DELETE_LISTENER ∧ i = id := by
  obtain ⟨kept, log, heq, hlog⟩ :
      ∃ kept log, (if fop.has REMOVE_CURL_FROM_CURLM then s.removeHandle t else s) =
        { s with kept, log } ∧ ∀ r, .release r () ∈ log ↔ .release r () ∈ s.log := by
    split_ifs
    · obtain ⟨log, heq⟩ := removeHandle_eq s t
      exact ⟨_, log, heq⟩
    · exact ⟨_, _, rfl, fun r => Iff.rfl⟩
  rw [free, heq]
  split_ifs with hdelete
  all_goals refine ⟨_, _, _, _, rfl, fun i => ?_⟩
  all_goals simp [easyCleanup, hlog, hdelete, or_comm]

theorem deleted_informs (hw : Wf s) (h : Deleted s) {left : Bool}
    (hp : s.point = .informing t id left) (r : Except Thrown FreeOptions) :
    Deleted (s.informs r t id left) := by
  obtain ⟨-, rfl⟩ := hw.current t id left hp
  have hpending : t ∈ s.pending :=
    mem_pending.mpr (Or.inr (Or.inr (mem_current.mpr ⟨_, left, hp⟩)))
  -- the listener is there
  have hnot : .release (.listener t.listener) () ∉ s.log := fun hlog =>
    ((hw.balanced.open_iff (.listener t.listener)).mpr (hw.mem_alive hpending)).2 () hlog
  rw [informs]
  split
  case h_1 asked hinfo =>
    intro i fop hi
    obtain ⟨easies, alive, kept, log, heq, hlog⟩ := free_eq { s with
      point := next left
      informed := (t, t.listener) :: s.informed
      log := .detach (.informs t) :: s.log } asked t t.listener
    rw [heq] at hi ⊢
    simp only [hlog, List.mem_cons, reduceCtorEq, false_or, exists_eq_or_imp]
    by_cases hit : i = t.listener
    · subst hit
      -- a listener of the runner asks for what it was made with
      have hasked : asked = fop := by
        have hjoin : (s.freeOptions t.listener).join = some fop := by
          rw [Option.join_eq_some_iff]
          exact hi
        rw [hjoin] at hinfo
        cases r with
        | ok _ => exact (Except.ok.inj hinfo).symm
        | error thrown =>
          cases thrown with
          | exception _ => exact (Except.ok.inj hinfo).symm
          | other => cases hinfo
      simp [hnot, hasked]
    · simp only [hit, and_false, or_false, Ne.symm hit, false_or]
      exact h i fop hi
  case h_2 thrown hinfo =>
    intro i fop hi
    have hit : t.listener ≠ i := by
      rintro rfl
      have hjoin : (s.freeOptions t.listener).join = some fop := by
        rw [Option.join_eq_some_iff]
        exact hi
      rw [hjoin] at hinfo
      cases r with
      | ok _ => cases hinfo
      | error thrown => cases thrown <;> cases hinfo
    simp only [List.mem_cons, reduceCtorEq, false_or, exists_eq_or_imp, hit]
    exact h i fop hi
  case h_3 => exact h

theorem deleted_step (hw : Wf s) (h : Deleted s) (hx : Moves s l s') : Deleted s' := by
  cases hx with
  | easyInit => exact h.of_eq rfl rfl fun id => by simp
  | newListener => exact deleted_newListener hw h none
  | setPrivate => exact h
  | addToCURLM => exact deleted_addToCURLM h _
  | @addListener curl fop =>
    have hnew : Deleted { s.newListener (some fop) with
        priv := Function.update s.priv curl (some s.nextListener) } :=
      deleted_newListener hw h (some fop)
    exact deleted_addToCURLM hnew curl
  | easyCleanup => exact h.of_eq rfl rfl fun id => by simp [easyCleanup]
  | @deleteListener id hid =>
    intro i fop hi
    -- a user deletes a listener of its own
    have hne : i ≠ id := by
      rintro rfl
      have hi : s.freeOptions i = some (some fop) := hi
      rw [hid] at hi
      cases hi
    simp only [deleteListener, List.mem_cons, Entry.release.injEq, Resource.listener.injEq, hne,
      false_and, false_or]
    exact h i fop hi
  | loop => exact h
  | pop => exact deleted_pop h _
  | finish => exact h
  | performed => exact h
  | read => exact deleted_readMessage h _
  | removeHandle => exact deleted_removeHandle h _
  | informs hp => exact deleted_informs hw h hp _
  | waited => exact h

end Deleted

/-! ## The messages -/

section Ordered

theorem Ordered.of_eq (h : Ordered s) (hfinished : s'.finished = s.finished)
    (hread : s'.read = s.read) (hmessages : s'.messages = s.messages)
    (hinformed : s'.informed = s.informed) (hunread : s'.unread = s.unread)
    (hpoint : s'.point = s.point) : Ordered s' where
  finished := by rw [hfinished, hread, hmessages, h.finished]
  read := by rw [hread, hinformed, hunread, current, hpoint]; exact h.read
  informed := by rw [hread, hinformed, current, hpoint]; exact h.informed
  left := by rw [hpoint, hmessages]; exact h.left
  through := by rw [current, hpoint, hmessages]; exact h.through

/-- The run thread goes on, when there are no messages left, or to where they are read. -/
theorem ordered_go (h : Ordered s) (hcurrent : s.current = []) {p : Point} (hp : p.current = [])
    (hthrough : p ≠ .performing → p ≠ .reading → s.messages = []) :
    Ordered { s with point := p } where
  finished := h.finished
  read := by
    have hread := h.read
    rw [hcurrent] at hread
    simpa only [Transfers.current, hp] using hread
  informed := by
    have hinformed := h.informed
    rw [hcurrent] at hinformed
    simpa only [Transfers.current, hp] using hinformed
  left := by
    rintro t id left rfl
    cases hp
  through := fun hne hne' _ => hthrough hne hne'

theorem ordered_pop (h : Ordered s) (hp : s.point = .popping) (added : Bool) :
    Ordered (s.pop added) := by
  rw [pop]
  split
  · exact ordered_go h (p := .performing) (by simp [current, hp]) rfl fun hne => absurd rfl hne
  · split_ifs
    · exact h.of_eq rfl rfl rfl rfl rfl rfl
    · exact h.of_eq rfl rfl rfl rfl rfl rfl
    · exact h.of_eq rfl rfl rfl rfl rfl rfl

/-- The message that is read is that of the transfer that was finished first. -/
theorem ordered_readMessage (hw : Wf s) (h : Ordered s) (hp : s.point = .reading) (getinfo : Bool) :
    Ordered (s.readMessage getinfo) := by
  have hcurrent : s.current = [] := by simp [current, hp]
  have hread := h.read
  have hinformed := h.informed
  rw [hcurrent, List.nil_append] at hread hinformed
  rw [readMessage]
  split
  case h_1 hm => exact ordered_go h hcurrent (p := .waiting) rfl fun _ _ => hm
  case h_2 t messages hm =>
    have hpending : t ∈ s.pending :=
      mem_pending.mpr (Or.inr (Or.inl (hw.finished t (hm ▸ List.mem_cons_self))))
    have hfinished : s.finished = (s.read ++ [t]) ++ messages := by
      rw [h.finished, hm, List.append_assoc, List.singleton_append]
    have hperm : (s.read ++ [t]).Perm (t :: (s.informed.map Prod.fst ++ s.unread)) :=
      (List.perm_append_singleton t s.read).trans (hread.cons t)
    split
    case isTrue =>
      dsimp only
      rw [hw.priv t hpending]
      dsimp only
      rw [if_pos (hw.mem_alive hpending)]
      refine ⟨hfinished, hperm, ?_, ?_, ?_⟩
      · simp only [Transfers.current, Point.current, List.singleton_append, List.reverse_cons]
        exact hinformed.append (.refl [t])
      · rintro u id left hinforming
        cases hinforming
        rfl
      · rintro - - hnil
        cases hnil
    case isFalse =>
      dsimp only
      refine ⟨hfinished, ?_, ?_, ?_, ?_⟩
      · simp only [Transfers.current, current_next, List.nil_append]
        exact hperm.trans List.perm_middle.symm
      · simp only [Transfers.current, current_next, List.nil_append]
        exact hinformed.trans (List.sublist_append_left _ _)
      · rintro u id left hinforming
        simp only [next] at hinforming
        split_ifs at hinforming
      · rintro - hne -
        simpa [next] using hne

theorem ordered_informed (h : Ordered s) {left : Bool} (hp : s.point = .informing t id left) :
    Ordered { s with
      point := next left
      informed := (t, id) :: s.informed
      log := .detach (.informs t) :: s.log } := by
  have hcurrent : s.current = [t] := by simp [current, hp]
  have hread := h.read
  have hinformed := h.informed
  rw [hcurrent, List.singleton_append] at hread hinformed
  refine ⟨h.finished, ?_, ?_, ?_, ?_⟩
  · simpa only [Transfers.current, current_next, List.map_cons, List.nil_append] using hread
  · simpa only [Transfers.current, current_next, List.map_cons, List.nil_append] using hinformed
  · rintro u i l hinforming
    have hinforming : next left = .informing u i l := hinforming
    rw [next] at hinforming
    split_ifs at hinforming
  · rintro - hne -
    have hleft := h.left t id left hp
    simpa [next, hleft] using hne

theorem ordered_informs (h : Ordered s) {left : Bool} (hp : s.point = .informing t id left)
    (r : Except Thrown FreeOptions) : Ordered (s.informs r t id left) := by
  rw [informs]
  split
  case h_1 fop _ =>
    obtain ⟨easies, alive, kept, log, heq, -⟩ := free_eq { s with
      point := next left
      informed := (t, id) :: s.informed
      log := .detach (.informs t) :: s.log } fop t id
    rw [heq]
    exact (ordered_informed h hp).of_eq rfl rfl rfl rfl rfl rfl
  case h_2 => exact ordered_informed h hp
  case h_3 => exact h.of_eq rfl rfl rfl rfl rfl rfl

theorem ordered_addToCURLM (h : Ordered s) (curl : ℕ) : Ordered (s.addToCURLM curl) := by
  rw [addToCURLM]
  split_ifs
  · exact h.of_eq rfl rfl rfl rfl rfl rfl
  · exact h

theorem ordered_step (hw : Wf s) (h : Ordered s) (hx : Moves s l s') : Ordered s' := by
  cases hx with
  | easyInit => exact h.of_eq rfl rfl rfl rfl rfl rfl
  | newListener => exact h.of_eq rfl rfl rfl rfl rfl rfl
  | setPrivate => exact h.of_eq rfl rfl rfl rfl rfl rfl
  | addToCURLM => exact ordered_addToCURLM h _
  | @addListener curl fop =>
    have hnew : Ordered { s.newListener (some fop) with
        priv := Function.update s.priv curl (some s.nextListener) } :=
      h.of_eq rfl rfl rfl rfl rfl rfl
    exact ordered_addToCURLM hnew curl
  | easyCleanup => exact h.of_eq rfl rfl rfl rfl rfl rfl
  | deleteListener => exact h.of_eq rfl rfl rfl rfl rfl rfl
  | loop hp =>
    refine ordered_go h (by simp [current, hp]) ?_ fun _ _ => ?_
    · split_ifs <;> rfl
    · exact h.through (by simp [hp]) (by simp [hp]) (by simp [current, hp])
  | pop hp => exact ordered_pop h hp _
  | @finish t hp hrunning hnot =>
    refine ⟨?_, h.read, h.informed, ?_, fun hne => absurd hp hne⟩
    · rw [h.finished, List.append_assoc]
    · rintro u id left hinforming
      rw [hp] at hinforming
      cases hinforming
  | performed hp => exact ordered_go h (by simp [current, hp]) rfl fun _ hne => absurd rfl hne
  | read hp => exact ordered_readMessage hw h hp _
  | @removeHandle t _ _ hp =>
    obtain ⟨log, heq, -⟩ := removeHandle_eq s t
    rw [heq]
    exact h.of_eq rfl rfl rfl rfl rfl rfl
  | informs hp => exact ordered_informs h hp _
  | waited hp =>
    refine ordered_go h (by simp [current, hp]) rfl fun _ _ => ?_
    exact h.through (by simp [hp]) (by simp [hp]) (by simp [current, hp])

end Ordered

/-! ## Every run -/

section Runs

variable {ls : List Label}

theorem wf_start : Wf {} where
  balanced := by
    refine Balanced.nil.congr (fun r => ?_) fun d r => ?_
    · cases r <;> simp [Owns]
    · rcases d with t | t <;> cases r <;> simp [Joined, pending, current]
  places := List.Perm.nil
  numbers := rfl
  listeners := by simp
  links := by simp
  kept := by simp
  curls := by simp [involved, current]
  priv := by simp [pending, current]
  current := by rintro t id left ⟨⟩
  ids := by simp
  options := fun _ _ => rfl
  private_lt := by rintro curl id ⟨⟩
  owner := by rintro curl curl' id fop ⟨⟩
  informed := by simp
  messages := List.nodup_nil
  finished := by simp
  fault := rfl

theorem deleted_start : Deleted {} := by rintro id fop ⟨⟩

theorem ordered_start : Ordered {} where
  finished := rfl
  read := .refl _
  informed := .refl _
  left := by rintro t id left ⟨⟩
  through := fun _ _ _ => rfl

theorem wf_of_steps (hr : Steps step Contract {} ls s) : Wf s ∧ Deleted s ∧ Ordered s := by
  refine hr.invariant (I := fun s => Wf s ∧ Deleted s ∧ Ordered s) ?_
    ⟨wf_start, deleted_start, ordered_start⟩
  rintro l s s' ⟨hw, hd, ho⟩ hc hx
  have hm := moves_of_step hx
  exact ⟨wf_step hw hc hm, deleted_step hw hd hm, ordered_step hw ho hm⟩

/-- **Every transfer is at one place, and all that is freed is freed once**, in every run in which
the users adhere to the contract: the transfers that were pushed, and no others, wait in the queue,
run, have their listeners informed, were informed of, or got lost, since cURL did not take the
handle or did not give the listener. Neither an easy handle nor a listener is used after it was
freed, a transfer's listener is the one that the handle had when it was pushed, and the runner
deletes the listeners that it made if they are to be deleted and have been informed, and no
others. -/
theorem transfers_accounted (ls : List Label) (s : Transfers)
    (hr : Steps step Contract {} ls s) :
    s.fault = false ∧ Proper s.log ∧
      (s.queue ++ s.running ++ s.current ++ s.informed.map Prod.fst ++ s.unread ++ s.lost).Perm
        s.pushed ∧
      s.pushed.Nodup ∧ (∀ e ∈ s.informed, e.2 = e.1.listener) ∧
      (∀ r, .acquire r ∈ s.log → s.Owns r ∧ s.log.countP (Entry.releases r) = 0 ∨
        ¬ s.Owns r ∧ s.log.countP (Entry.releases r) = 1) ∧
      ∀ id fop, s.freeOptions id = some (some fop) →
        (.release (.listener id) () ∈ s.log ↔
          fop.has DELETE_LISTENER ∧ ∃ e ∈ s.informed, e.2 = id) := by
  obtain ⟨hw, hd, -⟩ := wf_of_steps hr
  refine ⟨hw.fault, hw.balanced.proper, ?_, hw.nodup_pushed, hw.informed, fun r hr => ?_, hd⟩
  · have hplaces := hw.places
    simpa only [Transfers.places, pending, List.append_assoc] using hplaces
  · by_cases howns : s.Owns r
    · exact Or.inl ⟨howns, hw.balanced.countP_releases_of_owned howns⟩
    · exact Or.inr ⟨howns, hw.balanced.countP_releases hr howns⟩

/-- A transfer whose listener throws, another one whose handle cURL does not take, and a third one
that waits. -/
theorem transfers_accounted_lost :
    let ls : List Label := [.easyInit 7, .easyInit 8, .easyInit 9, .addListener 7 5,
      .addListener 8 5, .loop true, .pop true, .pop false, .pop true, .finish ⟨0, 7, 0⟩, .performed,
      .read true, .informs (.error (.exception [])), .addListener 9 5]
    ∃ s, Steps step Contract {} ls s ∧ s.informed = [(⟨0, 7, 0⟩, 0)] ∧
      s.fault = false ∧ Proper s.log ∧
      (s.queue ++ s.running ++ s.current ++ s.informed.map Prod.fst ++ s.unread ++ s.lost).Perm
        s.pushed ∧
      s.pushed.Nodup ∧ (∀ e ∈ s.informed, e.2 = e.1.listener) ∧
      (∀ r, .acquire r ∈ s.log → s.Owns r ∧ s.log.countP (Entry.releases r) = 0 ∨
        ¬ s.Owns r ∧ s.log.countP (Entry.releases r) = 1) ∧
      ∀ id fop, s.freeOptions id = some (some fop) →
        (.release (.listener id) () ∈ s.log ↔
          fop.has DELETE_LISTENER ∧ ∃ e ∈ s.informed, e.2 = id) := by
  intro ls
  have hinformed : (runGuarded step Contract ls {}).map Transfers.informed =
      some [(⟨0, 7, 0⟩, 0)] := by decide +kernel
  obtain ⟨s, hs, hinformed⟩ := Option.map_eq_some_iff.mp hinformed
  have hr := steps_of_runGuarded hs
  exact ⟨s, hr, hinformed, transfers_accounted ls s hr⟩

/-- **The messages are handled in order, and all of them before the run thread waits**, whatever the
listeners throw: those that were read are the first that came, each of them has had its listener
informed, in that order, or did not give it, and while the run thread does not perform transfers,
read messages or inform a listener, nothing is left. -/
theorem messages_handled_in_order (ls : List Label) (s : Transfers)
    (hr : Steps step Contract {} ls s) :
    s.finished = s.read ++ s.messages ∧
      s.read.Perm (s.current ++ s.informed.map Prod.fst ++ s.unread) ∧
      (s.current ++ s.informed.map Prod.fst).reverse.Sublist s.read ∧
      (s.point ≠ .performing → s.point ≠ .reading → s.current = [] →
        s.finished.Perm (s.informed.map Prod.fst ++ s.unread)) := by
  obtain ⟨-, -, ho⟩ := wf_of_steps hr
  refine ⟨ho.finished, ho.read, ho.informed, fun hperforming hreading hcurrent => ?_⟩
  have hread := ho.read
  rw [hcurrent, List.nil_append] at hread
  rw [ho.finished, ho.through hperforming hreading hcurrent, List.append_nil]
  exact hread

/-- Two transfers are finished at once, and the listener of the first one throws. -/
theorem messages_handled_in_order_throws :
    let ls : List Label := [.easyInit 7, .easyInit 8, .addListener 7 5, .addListener 8 5,
      .loop true, .pop true, .pop true, .pop true, .finish ⟨1, 8, 1⟩, .finish ⟨0, 7, 0⟩, .performed,
      .read true, .informs (.error (.exception [])), .read true, .informs (.ok 0)]
    ∃ s, Steps step Contract {} ls s ∧ s.point = .waiting ∧
      s.finished = s.read ++ s.messages ∧
      s.read.Perm (s.current ++ s.informed.map Prod.fst ++ s.unread) ∧
      (s.current ++ s.informed.map Prod.fst).reverse.Sublist s.read ∧
      (s.point ≠ .performing → s.point ≠ .reading → s.current = [] →
        s.finished.Perm (s.informed.map Prod.fst ++ s.unread)) := by
  intro ls
  have hpoint : (runGuarded step Contract ls {}).map Transfers.point = some .waiting := by
    decide +kernel
  obtain ⟨s, hs, hpoint⟩ := Option.map_eq_some_iff.mp hpoint
  have hr := steps_of_runGuarded hs
  exact ⟨s, hr, hpoint, messages_handled_in_order ls s hr⟩

end Runs

end Glim.RunnerV2.Transfers
