import Glim.RunnerV2.Transfers

/-!
# The listeners of the cURL runner

Every transfer that was pushed is at one place, from the queue to the listener that was informed of
it. A listener is informed of the transfers that were pushed with it, once of each, and while it is
there; the runner deletes a `FunCurlmLisneter` when it has been informed, if it is to do so at all.

## Main definitions

* `Transfers.places`: the transfers, wherever they are
* `Transfers.Wf`: the invariant

## Main results

* `Transfers.wf_step`: every step keeps the invariant, as long as the users adhere to the contract
-/

namespace Glim.RunnerV2.Transfers

open Machine Machine.Ledger Thread

/-- What is there. -/
def Owns (s : Transfers) : Resource → Prop
  | .easy curl => curl ∈ s.easies
  | .listener id => id ∈ s.alive

/-- The transfers that use their easy handles, and those that are to inform their listeners. -/
def Joined (s : Transfers) : Link → Resource → Prop
  | .uses t, .easy curl => t.curl = curl ∧ t ∈ s.queue ++ s.running ++ s.kept
  | .informs t, .listener id => t.listener = id ∧ t ∈ s.pending
  | _, _ => False

/-- The transfers, wherever they are. -/
def places (s : Transfers) : List Transfer :=
  s.pending ++ (s.informed.map Prod.fst ++ (s.unread ++ s.lost))

/-- The invariant. -/
structure Wf (s : Transfers) : Prop where
  balanced : Balanced s.log s.Owns s.Joined
  places : s.places.Perm s.pushed
  numbers : s.pushed.map Transfer.number = List.range s.pushed.length
  listeners : ∀ t ∈ s.pushed, t.listener < s.nextListener
  links : ∀ t r, .attach (.uses t) r ∈ s.log ∨ .attach (.informs t) r ∈ s.log → t ∈ s.pushed
  kept : ∀ t ∈ s.kept, t ∈ s.current ∨ t ∈ s.informed.map Prod.fst
  curls : ∀ t ∈ s.involved, ∀ u ∈ s.involved, t.curl = u.curl → t = u
  priv : ∀ t ∈ s.pending, s.priv t.curl = some t.listener
  current : ∀ t id left, s.point = .informing t id left → t.curl ∈ s.easies ∧ id = t.listener
  ids : ∀ id, .acquire (.listener id) ∈ s.log → id < s.nextListener
  options : ∀ id, s.nextListener ≤ id → s.freeOptions id = none
  private_lt : ∀ curl id, s.priv curl = some id → id < s.nextListener
  owner : ∀ curl curl' id fop, s.priv curl = some id → s.priv curl' = some id →
    s.freeOptions id = some (some fop) → curl = curl'
  informed : ∀ e ∈ s.informed, e.2 = e.1.listener
  messages : s.messages.Nodup
  finished : ∀ t ∈ s.messages, t ∈ s.running
  fault : s.fault = false

/-- What a step does. -/
inductive Moves (s : Transfers) : Label → Transfers → Prop where
  | easyInit {curl : ℕ} : .acquire (.easy curl) ∉ s.log →
    Moves s (.easyInit curl)
      { s with easies := curl :: s.easies, log := .acquire (.easy curl) :: s.log }
  | newListener : Moves s .newListener (s.newListener none)
  | setPrivate {curl id : ℕ} : s.freeOptions id = some none →
    Moves s (.setPrivate curl id) { s with priv := Function.update s.priv curl (some id) }
  | addToCURLM {curl : ℕ} : Moves s (.addToCURLM curl) (s.addToCURLM curl)
  | addListener {curl : ℕ} {fop : FreeOptions} :
    Moves s (.addListener curl fop) (s.addListener curl fop)
  | easyCleanup {curl : ℕ} : Moves s (.easyCleanup curl) (s.easyCleanup curl)
  | deleteListener {id : ℕ} : s.freeOptions id = some none →
    Moves s (.deleteListener id) (s.deleteListener id)
  | loop {references : Bool} : s.point = .looping →
    Moves s (.loop references) { s with point := if references then .popping else .ended }
  | pop {added : Bool} : s.point = .popping → Moves s (.pop added) (s.pop added)
  | finish {t : Transfer} : s.point = .performing → t ∈ s.running → t ∉ s.messages →
    Moves s (.finish t) { s with messages := s.messages ++ [t], finished := s.finished ++ [t] }
  | performed : s.point = .performing → Moves s .performed { s with point := .reading }
  | read {getinfo : Bool} : s.point = .reading → Moves s (.read getinfo) (s.readMessage getinfo)
  | removeHandle {t : Transfer} {id : ℕ} {left : Bool} : s.point = .informing t id left →
    Moves s .removeHandle (s.removeHandle t)
  | informs {t : Transfer} {id : ℕ} {left : Bool} {r : Except Thrown FreeOptions} :
    s.point = .informing t id left → Moves s (.informs r) (s.informs r t id left)
  | waited : s.point = .waiting → Moves s .waited { s with point := .looping }

variable {s s' : Transfers} {t u : Transfer} {curl id : ℕ} {fop : FreeOptions}

section Wf

theorem Wf.nodup_pushed (hw : Wf s) : s.pushed.Nodup :=
  .of_map Transfer.number (hw.numbers ▸ List.nodup_range)

theorem Wf.nodup_places (hw : Wf s) : s.places.Nodup := hw.places.nodup_iff.mpr hw.nodup_pushed

/-- The next transfer is a new one. -/
theorem Wf.new_notMem (hw : Wf s) (ht : t.number = s.pushed.length) : t ∉ s.pushed := by
  intro hmem
  have hnumber : t.number ∈ List.range s.pushed.length := hw.numbers ▸ List.mem_map_of_mem hmem
  rw [ht, List.mem_range] at hnumber
  exact lt_irrefl _ hnumber

theorem Wf.mem_pushed (hw : Wf s) (ht : t ∈ s.places) : t ∈ s.pushed := hw.places.mem_iff.mp ht

theorem Wf.new_notMem_log (hw : Wf s) (ht : t ∉ s.pushed) (r : Resource) :
    .attach (.uses t) r ∉ s.log ∧ .attach (.informs t) r ∉ s.log :=
  ⟨fun h => ht (hw.links t r (Or.inl h)), fun h => ht (hw.links t r (Or.inr h))⟩

theorem mem_involved : t ∈ s.involved ↔
    t ∈ s.queue ∨ t ∈ s.running ∨ t ∈ s.kept ∨ t ∈ s.current := by
  simp [involved]

theorem mem_pending : t ∈ s.pending ↔ t ∈ s.queue ∨ t ∈ s.running ∨ t ∈ s.current := by
  simp [pending]

theorem mem_involved_of_pending (h : t ∈ s.pending) : t ∈ s.involved := by
  rw [mem_pending] at h
  rw [mem_involved]
  rcases h with h | h | h
  · exact Or.inl h
  · exact Or.inr (Or.inl h)
  · exact Or.inr (Or.inr (Or.inr h))

theorem Wf.informed_lt (hw : Wf s) {e : Transfer × ℕ} (he : e ∈ s.informed) :
    e.2 < s.nextListener := by
  rw [hw.informed e he]
  refine hw.listeners e.1 (hw.mem_pushed ?_)
  simp only [Transfers.places, List.mem_append]
  exact Or.inr (Or.inl (List.mem_map_of_mem he))

/-- A transfer that has had its message read is not in the queue any more, nor running. -/
theorem Wf.notMem_of_kept (hw : Wf s) (ht : t ∈ s.kept ∨ t ∈ s.current) :
    t ∉ s.queue ∧ t ∉ s.running := by
  have hnodup := hw.nodup_places
  simp only [Transfers.places, pending, List.nodup_append, List.mem_append] at hnodup
  obtain ⟨⟨⟨-, -, -⟩, -, hcurrent⟩, -, hinformed⟩ := hnodup
  have hplace : t ∈ s.current ∨ t ∈ s.informed.map Prod.fst := ht.elim (hw.kept t) Or.inl
  constructor
  · intro hq
    rcases hplace with h | h
    · exact hcurrent t (Or.inl hq) t h rfl
    · exact hinformed t (Or.inl (Or.inl hq)) t (Or.inl h) rfl
  · intro hr
    rcases hplace with h | h
    · exact hcurrent t (Or.inr hr) t h rfl
    · exact hinformed t (Or.inl (Or.inr hr)) t (Or.inl h) rfl

end Wf

/-! ## What the users do -/

section Users

theorem wf_easyInit (hw : Wf s) (hnew : .acquire (.easy curl) ∉ s.log) :
    Wf { s with easies := curl :: s.easies, log := .acquire (.easy curl) :: s.log } := by
  refine { hw with balanced := ?_, links := ?_, current := ?_, ids := ?_ }
  · refine (hw.balanced.acquire hnew).congr (fun r => ?_) fun d r => Iff.rfl
    cases r with
    | easy c => simp [Owns]
    | listener id => simp [Owns]
  · simpa using hw.links
  · intro t id left hp
    exact (hw.current t id left hp).imp_left (List.mem_cons_of_mem _)
  · simpa using hw.ids

theorem wf_newListener (hw : Wf s) (freeOptions : Option FreeOptions) :
    Wf (s.newListener freeOptions) := by
  have hnew : .acquire (.listener s.nextListener) ∉ s.log := fun h =>
    lt_irrefl _ (hw.ids _ h)
  refine { hw with
    balanced := ?_, listeners := ?_, links := ?_, ids := ?_, options := ?_, private_lt := ?_,
    owner := ?_ }
  · refine (hw.balanced.acquire hnew).congr (fun r => ?_) fun d r => Iff.rfl
    cases r with
    | easy c => simp [Owns, newListener]
    | listener id => simp [Owns, newListener]
  · exact fun t ht => Nat.lt_succ_of_lt (hw.listeners t ht)
  · simpa [newListener] using hw.links
  · intro id hid
    simp only [newListener, List.mem_cons, Entry.acquire.injEq, Resource.listener.injEq] at hid ⊢
    rcases hid with rfl | hid
    · exact Nat.lt_succ_self _
    · exact Nat.lt_succ_of_lt (hw.ids id hid)
  · intro id hid
    have hle : s.nextListener + 1 ≤ id := hid
    simp only [newListener]
    rw [Function.update_of_ne (by omega)]
    exact hw.options id (by omega)
  · exact fun c id h => Nat.lt_succ_of_lt (hw.private_lt c id h)
  · intro c c' id fop hc hc' hid
    have hlt := hw.private_lt c id hc
    simp only [newListener] at hid
    rw [Function.update_of_ne hlt.ne] at hid
    exact hw.owner c c' id fop hc hc' hid

/-- A handle that the runner has nothing to do with gets a listener that is not, as one of the
runner's, the listener of another handle. -/
theorem wf_setPrivate (hw : Wf s) (hfree : s.Free curl) (hid : id < s.nextListener)
    (hown : ∀ c fop, s.priv c = some id → s.freeOptions id = some (some fop) → c = curl) :
    Wf { s with priv := Function.update s.priv curl (some id) } := by
  refine { hw with priv := ?_, private_lt := ?_, owner := ?_ }
  · intro t ht
    show Function.update s.priv curl (some id) t.curl = some t.listener
    rw [Function.update_of_ne (hfree.2 t (mem_involved_of_pending ht))]
    exact hw.priv t ht
  · intro c i hc
    simp only [Function.update_apply] at hc
    split_ifs at hc
    · cases hc
      exact hid
    · exact hw.private_lt c i hc
  · intro c c' i fop hc hc' hi
    simp only [Function.update_apply] at hc hc'
    split_ifs at hc hc' with h h' h'
    · exact h.trans h'.symm
    · cases hc
      exact h.trans (hown c' fop hc' hi).symm
    · cases hc'
      exact (hown c fop hc hi).trans h'.symm
    · exact hw.owner c c' i fop hc hc' hi

theorem Wf.lt_nextListener (hw : Wf s) {options : Option FreeOptions}
    (hid : s.freeOptions id = some options) : id < s.nextListener := by
  by_contra hge
  rw [hw.options id (not_lt.mp hge)] at hid
  cases hid

theorem wf_easyCleanup (hw : Wf s) (hcurl : curl ∈ s.easies)
    (hnone : ∀ t ∈ s.queue ++ s.running ++ s.kept ++ s.current, t.curl ≠ curl) :
    Wf (s.easyCleanup curl) := by
  refine { hw with balanced := ?_, links := ?_, current := ?_, ids := ?_ }
  · have hjoined : ∀ d, ¬ s.Joined d (.easy curl) := by
      rintro (t | t) hd
      · exact hnone t (List.mem_append_left _ hd.2) hd.1
      · exact hd
    refine (hw.balanced.release () (show s.Owns (.easy curl) from hcurl) hjoined).congr
      (fun r => ?_) fun d r => Iff.rfl
    cases r with
    | easy c => simp [Owns, easyCleanup]
    | listener id => simp [Owns, easyCleanup]
  · simpa [easyCleanup] using hw.links
  · intro t id left hp
    obtain ⟨hmem, heq⟩ := hw.current t id left hp
    have ht : t ∈ s.current := by
      have hp' : s.point = .informing t id left := hp
      simp [Transfers.current, hp']
    refine ⟨List.mem_filter.mpr ⟨hmem, ?_⟩, heq⟩
    simpa using hnone t (List.mem_append_right _ ht)
  · simpa [easyCleanup] using hw.ids

theorem wf_deleteListener (hw : Wf s) (hid : id ∈ s.alive)
    (hnone : ∀ t ∈ s.pending, t.listener ≠ id) : Wf (s.deleteListener id) := by
  refine { hw with balanced := ?_, links := ?_, ids := ?_ }
  · have hjoined : ∀ d, ¬ s.Joined d (.listener id) := by
      rintro (t | t) hd
      · exact hd
      · exact hnone t hd.2 hd.1
    refine (hw.balanced.release () (show s.Owns (.listener id) from hid) hjoined).congr
      (fun r => ?_) fun d r => Iff.rfl
    cases r with
    | easy c => simp [Owns, deleteListener]
    | listener id => simp [Owns, deleteListener]
  · simpa [deleteListener] using hw.links
  · simpa [deleteListener] using hw.ids

/-- A handle is pushed, or the queue is full. -/
theorem wf_addToCURLM (hw : Wf s) (hfree : s.Free curl) (hid : id ∈ s.alive)
    (hpriv : s.priv curl = some id) : Wf (s.addToCURLM curl) := by
  rw [addToCURLM]
  split_ifs
  case neg => exact hw
  rw [hpriv, Option.getD_some]
  have hnew : (⟨s.pushed.length, curl, id⟩ : Transfer) ∉ s.pushed := hw.new_notMem rfl
  generalize ht : (⟨s.pushed.length, curl, id⟩ : Transfer) = t at hnew
  obtain ⟨hnumber, hcurl, hlistener⟩ : t.number = s.pushed.length ∧ t.curl = curl ∧
      t.listener = id := by
    subst ht
    exact ⟨rfl, rfl, rfl⟩
  have hlt : id < s.nextListener :=
    hw.ids id (hw.balanced.acquire_mem (show s.Owns (.listener id) from hid))
  refine { hw with
    balanced := ?_, places := ?_, numbers := ?_, listeners := ?_, links := ?_, curls := ?_,
    priv := ?_, ids := ?_ }
  · have huses := hw.balanced.attach (d := .uses t) (show s.Owns (.easy curl) from hfree.1)
      fun r => (hw.new_notMem_log hnew r).1
    refine (huses.attach (d := .informs t) (show s.Owns (.listener t.listener) from hlistener ▸ hid)
      fun r => ?_).congr (fun r => Iff.rfl) fun d r => ?_
    · simpa using (hw.new_notMem_log hnew r).2
    · rcases d with u | u <;> cases r <;>
        simp only [Joined, pending, Transfers.current, List.append_assoc, List.mem_append,
          List.mem_singleton, Link.uses.injEq, Link.informs.injEq, Resource.easy.injEq,
          Resource.listener.injEq, reduceCtorEq, false_and, and_false, false_or, or_false]
      · constructor
        · rintro ⟨hu, hq | rfl | hr⟩
          · exact Or.inr ⟨hu, Or.inl hq⟩
          · exact Or.inl ⟨rfl, hu.symm.trans hcurl⟩
          · exact Or.inr ⟨hu, Or.inr hr⟩
        · rintro (⟨rfl, rfl⟩ | ⟨hu, hq | hr⟩)
          · exact ⟨hcurl, Or.inr (Or.inl rfl)⟩
          · exact ⟨hu, Or.inl hq⟩
          · exact ⟨hu, Or.inr (Or.inr hr)⟩
      · constructor
        · rintro ⟨hu, hq | rfl | hr⟩
          · exact Or.inr ⟨hu, Or.inl hq⟩
          · exact Or.inl ⟨rfl, hu.symm⟩
          · exact Or.inr ⟨hu, Or.inr hr⟩
        · rintro (⟨rfl, rfl⟩ | ⟨hu, hq | hr⟩)
          · exact ⟨rfl, Or.inr (Or.inl rfl)⟩
          · exact ⟨hu, Or.inl hq⟩
          · exact ⟨hu, Or.inr (Or.inr hr)⟩
  · have hplaces := (hw.places.append_right [t])
    refine List.Perm.trans ?_ hplaces
    simp only [Transfers.places, pending, Transfers.current, List.append_assoc]
    refine List.Perm.append_left _ ?_
    refine List.perm_append_comm.trans ?_
    simp only [List.append_assoc]
    exact .refl _
  · rw [List.map_append, hw.numbers, List.length_append, List.length_singleton, List.range_succ,
      List.map_singleton, hnumber]
  · intro u hu
    rcases List.mem_append.mp hu with hu | hu
    · exact hw.listeners u hu
    · rw [List.mem_singleton.mp hu, hlistener]
      exact hlt
  · intro u r hr
    simp only [List.mem_cons, Entry.attach.injEq, Link.uses.injEq, Link.informs.injEq,
      reduceCtorEq, false_and, false_or] at hr
    refine List.mem_append.mpr ?_
    rcases hr with (⟨rfl, -⟩ | hr) | (⟨rfl, -⟩ | hr)
    · exact Or.inr List.mem_cons_self
    · exact Or.inl (hw.links u r (Or.inl hr))
    · exact Or.inr List.mem_cons_self
    · exact Or.inl (hw.links u r (Or.inr hr))
  · -- the runner had nothing to do with the handle
    have hinvolved : ∀ u, u ∈ (s.queue ++ [t]) ++ s.running ++ s.kept ++ s.current ↔
        u = t ∨ u ∈ s.involved := by
      intro u
      simp only [involved, List.mem_append, List.mem_singleton]
      tauto
    intro u hu v hv heq
    rcases (hinvolved u).mp hu with hut | hu' <;> rcases (hinvolved v).mp hv with hvt | hv'
    · exact hut.trans hvt.symm
    · exact absurd (heq.symm.trans (hut ▸ hcurl)) (hfree.2 v hv')
    · exact absurd (heq.trans (hvt ▸ hcurl)) (hfree.2 u hu')
    · exact hw.curls u hu' v hv' heq
  · intro u hu
    have hu' : u = t ∨ u ∈ s.pending := by
      simp only [pending, Transfers.current, List.mem_append, List.mem_singleton] at hu ⊢
      tauto
    rcases hu' with rfl | hu'
    · rw [hcurl, hlistener]
      exact hpriv
    · exact hw.priv u hu'
  · simpa using hw.ids

theorem wf_addListener (hw : Wf s) (hfree : s.Free curl) (freeOptions : FreeOptions) :
    Wf (s.addListener curl freeOptions) := by
  have hnew := wf_newListener hw (some freeOptions)
  have hset := @wf_setPrivate _ curl s.nextListener hnew hfree (Nat.lt_succ_self _)
    fun c fop hc _ => absurd (hw.private_lt c _ hc) (lt_irrefl _)
  exact wf_addToCURLM hset hfree List.mem_cons_self (Function.update_self _ _ _)

end Users

/-! ## What the run thread does -/

section Run

/-- A transfer is informed of by one listener at a time. -/
theorem mem_current {u : Transfer} : u ∈ s.current ↔ ∃ id left, s.point = .informing u id left := by
  rw [current]
  cases s.point <;> simp [eq_comm]

/-- The run thread goes on, outside of the listeners. -/
theorem wf_go (hw : Wf s) {p : Point} (hp : s.current = [])
    (hp' : current { s with point := p } = []) : Wf { s with point := p } := by
  have hcurrent : current { s with point := p } = s.current := hp'.trans hp.symm
  have hpending : pending { s with point := p } = s.pending := by
    rw [pending, hcurrent, pending]
  have hinvolved : involved { s with point := p } = s.involved := by
    rw [involved, hcurrent, involved]
  refine { hw with
    balanced := hw.balanced.congr (fun r => ?_) fun d r => ?_, places := ?_, kept := ?_,
    curls := ?_, priv := ?_, current := ?_ }
  · cases r <;> exact Iff.rfl
  · rcases d with t | t <;> cases r <;> simp only [Joined, hpending]
  · rw [Transfers.places, hpending]
    exact hw.places
  · rw [hcurrent]
    exact hw.kept
  · rw [hinvolved]
    exact hw.curls
  · rw [hpending]
    exact hw.priv
  · intro t id left hinforming
    have hmem : t ∈ current { s with point := p } := mem_current.mpr ⟨id, left, hinforming⟩
    rw [hp'] at hmem
    cases hmem

theorem Wf.mem_easies (hw : Wf s) (ht : t ∈ s.queue ++ s.running ++ s.kept) : t.curl ∈ s.easies :=
  hw.balanced.owned_of_joined (show s.Joined (.uses t) (.easy t.curl) from ⟨rfl, ht⟩)

theorem Wf.mem_alive (hw : Wf s) (ht : t ∈ s.pending) : t.listener ∈ s.alive :=
  hw.balanced.owned_of_joined (show s.Joined (.informs t) (.listener t.listener) from ⟨rfl, ht⟩)

/-- A handle goes from the queue to cURL, or gets lost. -/
theorem wf_pop (hw : Wf s) (hp : s.point = .popping) (added : Bool) : Wf (s.pop added) := by
  have hcurrent : s.current = [] := by simp [current, hp]
  rw [pop]
  split
  case h_1 => exact wf_go hw hcurrent rfl
  case h_2 t queue hq =>
    have ht : t ∈ s.queue := by
      rw [hq]
      exact List.mem_cons_self
    have halive : t.curl ∈ s.easies := hw.mem_easies (by simp [ht])
    rw [if_neg (not_not.mpr halive)]
    have hmem (u : Transfer) : u ∈ s.queue ↔ u = t ∨ u ∈ queue := by rw [hq, List.mem_cons]
    split_ifs
    · have hpending (u : Transfer) : u ∈ pending { s with queue, running := t :: s.running } ↔
          u ∈ s.pending := by
        rw [mem_pending, mem_pending, hmem, List.mem_cons]
        exact by tauto
      have hinvolved (u : Transfer) : u ∈ involved { s with queue, running := t :: s.running } ↔
          u ∈ s.involved := by
        rw [mem_involved, mem_involved, hmem, List.mem_cons]
        exact by tauto
      refine { hw with
        balanced := hw.balanced.congr (fun r => ?_) fun d r => ?_, places := ?_, curls := ?_,
        priv := ?_, finished := ?_ }
      · cases r <;> exact Iff.rfl
      · rcases d with u | u <;> cases r <;>
          simp only [Joined, hpending, List.mem_append, hmem, List.mem_cons]
        exact by tauto
      · refine List.Perm.trans (List.perm_iff_count.mpr fun u => ?_) hw.places
        simp only [Transfers.places, pending, current, hq, List.count_append, List.count_cons]
        omega
      · intro u hu v hv
        exact hw.curls u ((hinvolved u).mp hu) v ((hinvolved v).mp hv)
      · exact fun u hu => hw.priv u ((hpending u).mp hu)
      · exact fun u hu => List.mem_cons_of_mem _ (hw.finished u hu)
    · have hnodup := hw.nodup_places
      simp only [Transfers.places, pending, hq, hcurrent, List.append_nil, List.cons_append,
        List.nodup_cons, List.mem_append, not_or] at hnodup
      obtain ⟨⟨⟨hqueue, hrunning⟩, -⟩, -⟩ := hnodup
      have hkept : t ∉ s.kept := fun h => (hw.notMem_of_kept (Or.inl h)).1 ht
      have hpending (u : Transfer) : u ∈ pending { s with queue } ↔ u ∈ s.pending ∧ u ≠ t := by
        rw [mem_pending, mem_pending, hmem, hcurrent]
        by_cases hu : u = t
        · simp [hu, hqueue, hrunning, Transfers.current, hp]
        · simp [hu, Transfers.current, hp]
      refine { hw with
        balanced := ?_, places := ?_, links := ?_, curls := ?_, priv := ?_, ids := ?_ }
      · have huses : s.Joined (.uses t) (.easy t.curl) := ⟨rfl, by simp [ht]⟩
        have hinforms : s.Joined (.informs t) (.listener t.listener) := ⟨rfl, by simp [pending, ht]⟩
        refine ((hw.balanced.detach huses).detach ⟨hinforms, by simp⟩).congr
          (fun r => ?_) fun d r => ?_
        · cases r <;> exact Iff.rfl
        · rcases d with u | u <;> cases r <;>
            simp only [Joined, false_and, ne_eq, Link.uses.injEq, Link.informs.injEq,
              reduceCtorEq, not_false_eq_true, and_true]
          · simp only [List.mem_append, hmem]
            by_cases hu : u = t
            · simp [hu, hqueue, hrunning, hkept]
            · simp [hu]
          · rw [and_assoc]
            exact and_congr_right fun _ => hpending u
      · refine List.Perm.trans (List.perm_iff_count.mpr fun u => ?_) hw.places
        simp only [Transfers.places, pending, current, hq, List.count_append, List.count_cons]
        omega
      · simpa using hw.links
      · intro u hu v hv
        have hinvolved (u : Transfer) (hu : u ∈ involved { s with queue }) : u ∈ s.involved := by
          rw [mem_involved] at hu ⊢
          exact hu.imp_left fun h => (hmem u).mpr (Or.inr h)
        exact hw.curls u (hinvolved u hu) v (hinvolved v hv)
      · exact fun u hu => hw.priv u ((hpending u).mp hu).1
      · simpa using hw.ids

/-- `curl_multi_remove_handle`, which does nothing to a handle that was removed. -/
theorem wf_removeHandle (hw : Wf s) (t : Transfer) : Wf (s.removeHandle t) := by
  rw [removeHandle]
  split_ifs with hkept
  case neg => exact hw
  obtain ⟨hqueue, hrunning⟩ := hw.notMem_of_kept (Or.inl hkept)
  refine { hw with balanced := ?_, links := ?_, kept := ?_, curls := ?_, ids := ?_ }
  · have huses : s.Joined (.uses t) (.easy t.curl) := ⟨rfl, by simp [hkept]⟩
    refine (hw.balanced.detach huses).congr (fun r => ?_) fun d r => ?_
    · cases r <;> exact Iff.rfl
    · rcases d with u | u <;> cases r <;>
        simp only [Joined, false_and, ne_eq, Link.uses.injEq, reduceCtorEq, not_false_eq_true,
          and_true]
      · simp only [List.mem_append, List.mem_filter, decide_eq_true_eq]
        by_cases hu : u = t
        · simp [hu, hqueue, hrunning]
        · simp [hu]
      · exact Iff.rfl
  · simpa using hw.links
  · exact fun u hu => hw.kept u (List.mem_filter.mp hu).1
  · intro u hu v hv
    have hinvolved (u : Transfer) (hu : u ∈ involved { s with
        kept := s.kept.filter (· ≠ t) }) : u ∈ s.involved := by
      rw [mem_involved] at hu ⊢
      simp only [List.mem_filter] at hu
      rcases hu with hu | hu | hu | hu
      · exact Or.inl hu
      · exact Or.inr (Or.inl hu)
      · exact Or.inr (Or.inr (Or.inl hu.1))
      · exact Or.inr (Or.inr (Or.inr hu))
    exact hw.curls u (hinvolved u hu) v (hinvolved v hv)
  · simpa using hw.ids

theorem wf_finish (hw : Wf s) (hrunning : t ∈ s.running) (hnot : t ∉ s.messages) :
    Wf { s with messages := s.messages ++ [t], finished := s.finished ++ [t] } := by
  refine { hw with messages := ?_, finished := ?_ }
  · refine List.nodup_append.mpr ⟨hw.messages, List.nodup_singleton t, fun u hu v hv => ?_⟩
    rw [List.mem_singleton.mp hv]
    rintro rfl
    exact hnot hu
  · intro u hu
    rcases List.mem_append.mp hu with hu | hu
    · exact hw.finished u hu
    · rw [List.mem_singleton.mp hu]
      exact hrunning

/-- The running transfers, and one that was taken out of them. -/
theorem perm_cons_filter {L : List Transfer} (hn : L.Nodup) (ht : t ∈ L) :
    L.Perm (t :: L.filter (· ≠ t)) := by
  refine (List.perm_cons_erase ht).trans ?_
  rw [hn.erase_eq_filter]
  refine .of_eq (congrArg _ (List.filter_congr fun u _ => ?_))
  by_cases hu : u = t <;> simp [hu]

theorem current_reading : Point.reading.current = [] := rfl

theorem current_informing (t : Transfer) (id : ℕ) (left : Bool) :
    (Point.informing t id left).current = [t] := rfl

/-- The transfer whose message is read next is running, and nowhere else. -/
theorem Wf.message (hw : Wf s) (hp : s.point = .reading) {messages : List Transfer}
    (hm : s.messages = t :: messages) :
    t ∈ s.running ∧ t ∉ s.queue ∧ t ∉ s.kept ∧ s.running.Perm (t :: s.running.filter (· ≠ t)) ∧
      messages.Nodup ∧ ∀ u ∈ messages, u ∈ s.running.filter (· ≠ t) := by
  have ht : t ∈ s.running := hw.finished t (by simp [hm])
  have hmessages := hw.messages
  rw [hm] at hmessages
  obtain ⟨hnot, hmessages⟩ := List.nodup_cons.mp hmessages
  have hnodup := hw.nodup_places
  simp only [Transfers.places, pending, Transfers.current, hp, current_reading, List.append_nil,
    List.nodup_append, List.mem_append] at hnodup
  obtain ⟨⟨-, hrunning, hqueue⟩, -, -⟩ := hnodup
  refine ⟨ht, fun h => hqueue t h t ht rfl, fun h => (hw.notMem_of_kept (Or.inl h)).2 ht,
    perm_cons_filter hrunning ht, hmessages, fun u hu => ?_⟩
  refine List.mem_filter.mpr ⟨hw.finished u (by simp [hm, hu]), ?_⟩
  simp only [decide_eq_true_eq]
  rintro rfl
  exact hnot hu

/-- The listener of the transfer is to be informed. -/
theorem wf_informing (hw : Wf s) (hp : s.point = .reading) {messages : List Transfer}
    (hm : s.messages = t :: messages) :
    Wf { s with
      messages
      running := s.running.filter (· ≠ t)
      read := s.read ++ [t]
      kept := t :: s.kept
      point := .informing t t.listener (messages ≠ []) } := by
  obtain ⟨ht, hqueue, hkept, hperm, hmessages, hfinished⟩ := hw.message hp hm
  have hmem (u : Transfer) : u ∈ s.running ↔ u = t ∨ u ∈ s.running.filter (· ≠ t) := by
    rw [hperm.mem_iff, List.mem_cons]
  refine { hw with
    balanced := hw.balanced.congr (fun r => ?_) fun d r => ?_, places := ?_, kept := ?_,
    curls := ?_, priv := ?_, current := ?_, messages := hmessages, finished := hfinished }
  · cases r <;> exact Iff.rfl
  · rcases d with u | u <;> cases r <;>
      simp only [Joined, mem_pending, List.mem_append, hmem u, List.mem_cons,
        Transfers.current, Point.current, hp, List.not_mem_nil, or_false]
    · exact by tauto
    · exact by tauto
  · refine List.Perm.trans (List.perm_iff_count.mpr fun u => ?_) hw.places
    have hcount := hperm.count_eq u
    simp only [Transfers.places, pending, Transfers.current, Point.current, hp,
      List.count_append, List.count_cons, List.count_nil] at hcount ⊢
    omega
  · intro u hu
    rcases List.mem_cons.mp hu with rfl | hu
    · exact Or.inl List.mem_cons_self
    · refine Or.inr ((hw.kept u hu).resolve_left ?_)
      rw [Transfers.current, hp]
      exact List.not_mem_nil
  · have hinvolved (u : Transfer) (hu : u ∈ involved { s with
        running := s.running.filter (· ≠ t), kept := t :: s.kept
        point := .informing t t.listener (messages ≠ []) }) : u ∈ s.involved := by
      simp only [mem_involved, hmem u, List.mem_cons, Transfers.current, Point.current, hp,
        List.not_mem_nil, or_false] at hu ⊢
      tauto
    exact fun u hu v hv => hw.curls u (hinvolved u hu) v (hinvolved v hv)
  · intro u hu
    refine hw.priv u ?_
    simp only [mem_pending, hmem u, Transfers.current, Point.current, hp, List.mem_cons,
      List.not_mem_nil, or_false] at hu ⊢
    tauto
  · intro u id left hinforming
    cases hinforming
    exact ⟨hw.mem_easies (by simp [ht]), rfl⟩

/-- cURL has not given the listener of the transfer. -/
theorem wf_unread (hw : Wf s) (hp : s.point = .reading) {messages : List Transfer}
    (hm : s.messages = t :: messages) :
    Wf { s with
      messages
      running := s.running.filter (· ≠ t)
      read := s.read ++ [t]
      easies := s.easies.filter (· ≠ t.curl)
      unread := t :: s.unread
      point := next (messages ≠ [])
      log := .release (.easy t.curl) () ::
        .detach (.informs t) :: .detach (.uses t) :: s.log } := by
  obtain ⟨ht, hqueue, hkept, hperm, hmessages, hfinished⟩ := hw.message hp hm
  have hpending : t ∈ s.pending := mem_pending.mpr (Or.inr (Or.inl ht))
  have hmem (u : Transfer) : u ∈ s.running ↔ u = t ∨ u ∈ s.running.filter (· ≠ t) := by
    rw [hperm.mem_iff, List.mem_cons]
  -- no other transfer has the handle
  have hcurl (u : Transfer) (hu : u ∈ s.involved) (hut : u ≠ t) : u.curl ≠ t.curl :=
    fun h => hut (hw.curls u hu t (mem_involved_of_pending hpending) h)
  refine { hw with
    balanced := ?_, places := ?_, links := ?_, kept := ?_, curls := ?_, priv := ?_,
    current := ?_, ids := ?_, messages := hmessages, finished := hfinished }
  · have huses : s.Joined (.uses t) (.easy t.curl) := ⟨rfl, by simp [ht]⟩
    have hinforms : s.Joined (.informs t) (.listener t.listener) := ⟨rfl, hpending⟩
    have halive : s.Owns (.easy t.curl) := hw.mem_easies (by simp [ht])
    have hbalanced := (hw.balanced.detach huses).detach ⟨hinforms, by simp⟩
    refine (hbalanced.release () halive ?_).congr (fun r => ?_) fun d r => ?_
    · rintro (u | u) ⟨⟨⟨hu, hmem⟩, hut⟩, -⟩
      refine hcurl u ?_ (by simpa using hut) hu
      simp only [List.mem_append] at hmem
      rw [mem_involved]
      tauto
    · cases r <;> simp [Owns]
    · rcases d with u | u <;> cases r <;>
        simp only [Joined, false_and, ne_eq, Link.uses.injEq, Link.informs.injEq,
          reduceCtorEq, not_false_eq_true, and_true]
      · simp only [List.mem_append, hmem u]
        by_cases hu : u = t
        · simp [hu, hqueue, hkept]
        · simp [hu]
      · simp only [mem_pending, Transfers.current, current_next, hp, hmem u]
        by_cases hu : u = t
        · simp [hu, hqueue]
        · simp [hu]
  · refine List.Perm.trans (List.perm_iff_count.mpr fun u => ?_) hw.places
    have hcount := hperm.count_eq u
    simp only [Transfers.places, pending, Transfers.current, current_next, hp, current_reading,
      List.count_append, List.count_cons, List.count_nil] at hcount ⊢
    omega
  · simpa using hw.links
  · intro u hu
    have hu' := hw.kept u hu
    rwa [Transfers.current, hp, current_reading, ← current_next (messages ≠ [])] at hu'
  · have hinvolved (u : Transfer) (hu : u ∈ involved { s with
        running := s.running.filter (· ≠ t), point := next (messages ≠ []) }) :
        u ∈ s.involved := by
      simp only [mem_involved, hmem u, Transfers.current, current_next, hp,
        current_reading] at hu ⊢
      tauto
    exact fun u hu v hv => hw.curls u (hinvolved u hu) v (hinvolved v hv)
  · intro u hu
    refine hw.priv u ?_
    simp only [mem_pending, hmem u, Transfers.current, current_next, hp, current_reading] at hu ⊢
    tauto
  · intro u id left hinforming
    have hu : u ∈ current { s with
        running := s.running.filter (· ≠ t), point := next (messages ≠ []) } :=
      mem_current.mpr ⟨id, left, hinforming⟩
    rw [Transfers.current, current_next] at hu
    cases hu
  · simpa using hw.ids

/-- The next message is read. -/
theorem wf_readMessage (hw : Wf s) (hp : s.point = .reading) (getinfo : Bool) :
    Wf (s.readMessage getinfo) := by
  rw [readMessage]
  split
  case h_1 => exact wf_go hw (by simp [current, hp]) rfl
  case h_2 t messages hm =>
    have hpending : t ∈ s.pending := mem_pending.mpr (Or.inr (Or.inl (hw.message hp hm).1))
    split
    case isTrue =>
      dsimp only
      rw [hw.priv t hpending]
      dsimp only
      rw [if_pos (hw.mem_alive hpending)]
      exact wf_informing hw hp hm
    case isFalse => exact wf_unread hw hp hm

/-- The listener has returned, or thrown. -/
theorem wf_informed (hw : Wf s) {left : Bool} (hp : s.point = .informing t id left) :
    Wf { s with
      point := next left
      informed := (t, id) :: s.informed
      log := .detach (.informs t) :: s.log } := by
  have hcurrent : s.current = [t] := by rw [Transfers.current, hp, Point.current]
  have ht : t ∈ s.current := hcurrent ▸ List.mem_singleton_self t
  obtain ⟨hqueue, hrunning⟩ := hw.notMem_of_kept (Or.inr ht)
  obtain ⟨-, rfl⟩ := hw.current t id left hp
  refine { hw with
    balanced := ?_, places := ?_, links := ?_, kept := ?_, curls := ?_, priv := ?_, current := ?_,
    ids := ?_, informed := ?_ }
  · have hinforms : s.Joined (.informs t) (.listener t.listener) := ⟨rfl, by simp [pending, ht]⟩
    refine (hw.balanced.detach hinforms).congr (fun r => ?_) fun d r => ?_
    · cases r <;> exact Iff.rfl
    · rcases d with u | u <;> cases r <;>
        simp only [Joined, false_and, ne_eq, Link.informs.injEq, reduceCtorEq, not_false_eq_true,
          and_true]
      simp only [mem_pending, Transfers.current, current_next, hp, current_informing,
        List.mem_singleton]
      by_cases hu : u = t
      · simp [hu, hqueue, hrunning]
      · simp [hu]
  · refine List.Perm.trans (List.perm_iff_count.mpr fun u => ?_) hw.places
    simp only [Transfers.places, pending, Transfers.current, current_next, hp,
      current_informing, List.map_cons, List.count_append, List.count_cons, List.count_nil]
    omega
  · simpa using hw.links
  · intro u hu
    refine Or.inr ?_
    rw [List.map_cons, List.mem_cons]
    refine (hw.kept u hu).imp_left fun h => ?_
    rwa [hcurrent, List.mem_singleton] at h
  · have hinvolved (u : Transfer) (hu : u ∈ involved { s with point := next left }) :
        u ∈ s.involved := by
      simp only [mem_involved, Transfers.current, current_next] at hu ⊢
      tauto
    exact fun u hu v hv => hw.curls u (hinvolved u hu) v (hinvolved v hv)
  · intro u hu
    refine hw.priv u ?_
    simp only [mem_pending, Transfers.current, current_next] at hu ⊢
    tauto
  · intro u i l hinforming
    have hu : u ∈ current { s with point := next left } := mem_current.mpr ⟨i, l, hinforming⟩
    rw [Transfers.current, current_next] at hu
    cases hu
  · simpa using hw.ids
  · intro e he
    rcases List.mem_cons.mp he with rfl | he
    · rfl
    · exact hw.informed e he

theorem removeHandle_eq (s : Transfers) (t : Transfer) :
    ∃ log, s.removeHandle t = { s with kept := s.kept.filter (· ≠ t), log } ∧
      ∀ r, .release r () ∈ log ↔ .release r () ∈ s.log := by
  rw [removeHandle]
  split_ifs with h
  · exact ⟨_, rfl, fun r => by simp⟩
  · have hfilter : s.kept.filter (· ≠ t) = s.kept :=
      List.filter_eq_self.mpr fun u hu => decide_eq_true (ne_of_mem_of_not_mem hu h)
    exact ⟨s.log, by rw [hfilter], fun r => Iff.rfl⟩

/-- What a listener asks for is done to a transfer that no other one shares with. -/
theorem wf_free (hw : Wf s) (ht : t ∉ s.pending)
    (hcurl : fop.has CURL_CLEANUP → t.curl ∈ s.easies ∧
      (fop.has REMOVE_CURL_FROM_CURLM ∨ t ∉ s.kept) ∧ ∀ u ∈ s.involved, u.curl = t.curl → u = t)
    (hid : fop.has DELETE_LISTENER → id ∈ s.alive ∧ ∀ u ∈ s.pending, u.listener ≠ id) :
    Wf (s.free fop t id) := by
  -- the handle is removed
  obtain ⟨s₁, hs₁, hw₁, heasies₁, halive₁, hpending₁, hcurrent₁, hkept₁⟩ :
      ∃ s₁, (if fop.has REMOVE_CURL_FROM_CURLM then s.removeHandle t else s) = s₁ ∧ Wf s₁ ∧
        s₁.easies = s.easies ∧ s₁.alive = s.alive ∧ s₁.pending = s.pending ∧
        s₁.current = s.current ∧
        ∀ u ∈ s₁.kept, u ∈ s.kept ∧ (fop.has REMOVE_CURL_FROM_CURLM → u ≠ t) := by
    refine ⟨_, rfl, ?_⟩
    split_ifs with hremove
    · refine ⟨wf_removeHandle hw t, ?_⟩
      obtain ⟨log, heq, -⟩ := removeHandle_eq s t
      rw [heq]
      refine ⟨rfl, rfl, rfl, rfl, fun u hu => ?_⟩
      obtain ⟨hu, hut⟩ := List.mem_filter.mp hu
      exact ⟨hu, fun _ => by simpa using hut⟩
    · exact ⟨hw, rfl, rfl, rfl, rfl, fun u hu => ⟨hu, fun h => absurd h hremove⟩⟩
  -- and freed
  obtain ⟨s₂, hs₂, hw₂, halive₂, hpending₂⟩ :
      ∃ s₂, (if fop.has CURL_CLEANUP then s₁.easyCleanup t.curl else s₁) = s₂ ∧ Wf s₂ ∧
        s₂.alive = s.alive ∧ s₂.pending = s.pending := by
    refine ⟨_, rfl, ?_⟩
    split_ifs with hcleanup
    · obtain ⟨halive, hremove, huse⟩ := hcurl hcleanup
      refine ⟨wf_easyCleanup hw₁ (heasies₁ ▸ halive) fun u hu h => ?_, halive₁, hpending₁⟩
      have hu' : u ∈ s.pending ∨ u ∈ s₁.kept := by
        have hu : u ∈ s₁.involved := hu
        rw [← hpending₁, mem_pending]
        rw [mem_involved] at hu
        tauto
      rcases hu' with hu' | hu'
      · obtain rfl := huse u (mem_involved_of_pending hu') h
        exact ht hu'
      · obtain ⟨hu', hne⟩ := hkept₁ u hu'
        obtain rfl := huse u (mem_involved.mpr (Or.inr (Or.inr (Or.inl hu')))) h
        exact hremove.elim (fun h => hne h rfl) fun h => h hu'
    · exact ⟨hw₁, halive₁, hpending₁⟩
  rw [free, hs₁, hs₂]
  split_ifs with hdelete
  · obtain ⟨halive, hnone⟩ := hid hdelete
    exact wf_deleteListener hw₂ (halive₂ ▸ halive) (hpending₂ ▸ hnone)
  · exact hw₂

/-- What the listener has asked for is done. -/
theorem wf_informs (hw : Wf s) {r : Except Thrown FreeOptions} {left : Bool}
    (hp : s.point = .informing t id left) (hc : Contract (.informs r) s) :
    Wf (s.informs r t id left) := by
  have ht : t ∈ s.current := mem_current.mpr ⟨id, left, hp⟩
  have hpending : t ∈ s.pending := mem_pending.mpr (Or.inr (Or.inr ht))
  obtain ⟨hqueue, hrunning⟩ := hw.notMem_of_kept (Or.inr ht)
  have hinformed := wf_informed hw hp
  obtain ⟨halive, rfl⟩ := hw.current t id left hp
  rw [informs]
  split
  case h_1 fop hinfo =>
    obtain ⟨hremove, hdelete⟩ := hc t ht fop hinfo
    have hsub (u : Transfer) (hu : u ∈ pending { s with point := next left }) :
        u ∈ s.pending ∧ u ≠ t := by
      simp only [mem_pending, Transfers.current, current_next, List.not_mem_nil, or_false] at hu ⊢
      refine ⟨hu.elim Or.inl fun h => Or.inr (Or.inl h), ?_⟩
      rintro rfl
      exact hu.elim hqueue hrunning
    refine wf_free hinformed (fun h => (hsub t h).2 rfl) (fun h => ?_) fun h => ?_
    · refine ⟨halive, hremove h, fun u hu hcurl => ?_⟩
      refine hw.curls u ?_ t (mem_involved_of_pending hpending) hcurl
      have hu : u ∈ involved { s with point := next left } := hu
      simp only [mem_involved, Transfers.current, current_next, List.not_mem_nil, or_false] at hu ⊢
      tauto
    · refine ⟨hw.mem_alive hpending, fun u hu hlistener => ?_⟩
      obtain ⟨hu, hne⟩ := hsub u hu
      cases hoptions : (s.freeOptions t.listener).join with
      | none => exact hdelete h hoptions u hu hne hlistener
      | some options =>
        -- a listener of the runner has one handle
        have hu' := hw.priv u hu
        rw [hlistener] at hu'
        have hcurl := hw.owner u.curl t.curl t.listener options hu' (hw.priv t hpending)
          (Option.join_eq_some_iff.mp hoptions)
        exact hne (hw.curls u (mem_involved_of_pending hu) t (mem_involved_of_pending hpending)
          hcurl)
  case h_2 => exact hinformed
  case h_3 => exact { hw with }

end Run

/-! ## Every step -/

section Steps

variable {l : Label}

theorem moves_of_step (hx : step l s = some s') : Moves s l s' := by
  unfold step at hx
  split at hx
  · cases hx
  cases l with
  | newListener => cases hx; exact .newListener
  | addToCURLM curl => cases hx; exact .addToCURLM
  | addListener curl fop => cases hx; exact .addListener
  | easyCleanup curl => cases hx; exact .easyCleanup
  | easyInit curl =>
    simp only [Option.ite_none_left_eq_some, Option.some.injEq] at hx
    obtain ⟨hnew, rfl⟩ := hx
    exact .easyInit hnew
  | finish t =>
    simp only [Option.ite_none_right_eq_some, Option.some.injEq] at hx
    obtain ⟨⟨hp, hrunning, hnot⟩, rfl⟩ := hx
    exact .finish hp hrunning hnot
  | removeHandle =>
    dsimp only at hx
    split at hx
    · case h_1 hp => cases hx; exact .removeHandle hp
    · cases hx
  | informs r =>
    dsimp only at hx
    split at hx
    · case h_1 hp => cases hx; exact .informs hp
    · cases hx
  | setPrivate curl id =>
    simp only [Option.ite_none_right_eq_some, Option.some.injEq] at hx
    obtain ⟨h, rfl⟩ := hx
    exact .setPrivate h
  | deleteListener id =>
    simp only [Option.ite_none_right_eq_some, Option.some.injEq] at hx
    obtain ⟨h, rfl⟩ := hx
    exact .deleteListener h
  | loop references =>
    simp only [Option.ite_none_right_eq_some, Option.some.injEq] at hx
    obtain ⟨hp, rfl⟩ := hx
    exact .loop hp
  | pop added =>
    simp only [Option.ite_none_right_eq_some, Option.some.injEq] at hx
    obtain ⟨hp, rfl⟩ := hx
    exact .pop hp
  | performed =>
    simp only [Option.ite_none_right_eq_some, Option.some.injEq] at hx
    obtain ⟨hp, rfl⟩ := hx
    exact .performed hp
  | read getinfo =>
    simp only [Option.ite_none_right_eq_some, Option.some.injEq] at hx
    obtain ⟨hp, rfl⟩ := hx
    exact .read hp
  | waited =>
    simp only [Option.ite_none_right_eq_some, Option.some.injEq] at hx
    obtain ⟨hp, rfl⟩ := hx
    exact .waited hp

theorem wf_step (hw : Wf s) (hc : Contract l s) (hx : Moves s l s') : Wf s' := by
  cases hx with
  | easyInit hnew => exact wf_easyInit hw hnew
  | newListener => exact wf_newListener hw none
  | setPrivate hid =>
    refine wf_setPrivate hw hc (hw.lt_nextListener hid) fun c fop _ h => ?_
    rw [hid] at h
    cases h
  | addToCURLM =>
    obtain ⟨hfree, id, hid, hpriv⟩ := hc
    exact wf_addToCURLM hw hfree hid hpriv
  | addListener => exact wf_addListener hw hc _
  | easyCleanup => exact wf_easyCleanup hw hc.1 hc.2
  | deleteListener => exact wf_deleteListener hw hc.1 hc.2
  | loop hp =>
    refine wf_go hw (by simp [current, hp]) ?_
    show Point.current (if _ then _ else _) = []
    split_ifs <;> rfl
  | pop hp => exact wf_pop hw hp _
  | finish hp hrunning hnot => exact wf_finish hw hrunning hnot
  | performed hp => exact wf_go hw (by simp [current, hp]) rfl
  | read hp => exact wf_readMessage hw hp _
  | removeHandle => exact wf_removeHandle hw _
  | informs hp => exact wf_informs hw hp hc
  | waited hp => exact wf_go hw (by simp [current, hp]) rfl

end Steps

end Glim.RunnerV2.Transfers
