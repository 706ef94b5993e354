import Mathlib.Data.List.Perm.Basic
import Glim.Hget.Requests

/-!
# What the requests free

A connection and a context are freed once, when the handler of the request has returned, and a
function object is freed once, when its timer has fired. Those of a request that `go` does not make
are never freed, nor are those of a handler whose exception is no `std::runtime_error`, nor a
function object for which `event_base_once` fails.

## Main definitions

* `Account`: the ledger, and what there is of connections, contexts and function objects
* `Requests.active`: the requests whose handlers have not returned

## Main results

* `Requests.account_step`: every step keeps the account
* `Requests.requests_freed_once`: what is freed, and what is not
-/

namespace Glim.Hget

open Machine Machine.Ledger Thread

/-- The number that something was made with. -/
def Resource.number : Resource → ℕ
  | .connection id | .context id | .timer id => id

def Link.number : Link → ℕ
  | .carries id | .calls id | .fires id => id

/-- What is there. -/
def Owned (ids timerIds : List ℕ) : Resource → Prop
  | .connection id | .context id => id ∈ ids
  | .timer id => id ∈ timerIds

/-- What libevent has. -/
def Joined (active timers : List ℕ) : Link → Resource → Prop
  | .carries id, .connection id' | .calls id, .context id' => id = id' ∧ id' ∈ active
  | .fires id, .timer id' => id = id' ∧ id' ∈ timers
  | _, _ => False

/-- What has one thing more. -/
theorem eq_and_mem_cons {i j n : ℕ} {L : List ℕ} :
    i = j ∧ (j = n ∨ j ∈ L) ↔ i = n ∧ j = n ∨ i = j ∧ j ∈ L := by
  constructor
  · rintro ⟨rfl, rfl | hmem⟩
    · exact Or.inl ⟨rfl, rfl⟩
    · exact Or.inr ⟨rfl, hmem⟩
  · rintro (⟨rfl, rfl⟩ | ⟨rfl, hmem⟩)
    · exact ⟨rfl, Or.inl rfl⟩
    · exact ⟨rfl, Or.inr hmem⟩

/-- What has one thing less. -/
theorem eq_and_mem_iff {i j n : ℕ} {L : List ℕ} (hnot : n ∉ L) :
    i = j ∧ j ∈ L ↔ (i = j ∧ (j = n ∨ j ∈ L)) ∧ i ≠ n := by
  constructor
  · rintro ⟨rfl, hmem⟩
    exact ⟨⟨rfl, Or.inr hmem⟩, ne_of_mem_of_not_mem hmem hnot⟩
  · rintro ⟨⟨rfl, hmem⟩, hne⟩
    exact ⟨rfl, hmem.resolve_left hne⟩

/-- The account of the requests and timers: those that libevent has, and those that nothing will
free. -/
structure Account (log : List (Entry Resource Link Unit)) (next : ℕ)
    (active lost timers lostTimers : List ℕ) : Prop where
  balanced : Balanced log (Owned (active ++ lost) (timers ++ lostTimers)) (Joined active timers)
  ids : (active ++ lost).Nodup
  timerIds : (timers ++ lostTimers).Nodup
  numbers : ∀ r, .acquire r ∈ log → r.number < next
  links : ∀ d r, .attach d r ∈ log → d.number < next

namespace Account

variable {log : List (Entry Resource Link Unit)} {next id : ℕ}
  {active active' lost timers timers' lostTimers : List ℕ}

theorem start : Account [] 0 [] [] [] [] where
  balanced := Balanced.nil.congr (fun r => by cases r <;> simp [Owned])
    fun d r => by cases d <;> cases r <;> simp [Joined]
  ids := List.nodup_nil
  timerIds := List.nodup_nil
  numbers := by simp
  links := by simp

theorem perm (h : Account log next active lost timers lostTimers) (hactive : active'.Perm active)
    (htimers : timers'.Perm timers) : Account log next active' lost timers' lostTimers where
  balanced := by
    refine h.balanced.congr (fun r => ?_) fun d r => ?_
    · cases r <;> simp [Owned, hactive.mem_iff, htimers.mem_iff]
    · cases d <;> cases r <;> simp [Joined, hactive.mem_iff, htimers.mem_iff]
  ids := (hactive.append_right lost).nodup_iff.mpr h.ids
  timerIds := (htimers.append_right lostTimers).nodup_iff.mpr h.timerIds
  numbers := h.numbers
  links := h.links

theorem new_resource (h : Account log next active lost timers lostTimers) {r : Resource}
    (hr : r.number = next) : .acquire r ∉ log := fun hmem => (h.numbers r hmem).ne hr

theorem new_link (h : Account log next active lost timers lostTimers) {d : Link}
    (hd : d.number = next) (r : Resource) : .attach d r ∉ log :=
  fun hmem => (h.links d r hmem).ne hd

theorem next_notMem (h : Account log next active lost timers lostTimers) :
    next ∉ active ++ lost := by
  intro hmem
  have howned : Owned (active ++ lost) (timers ++ lostTimers) (.connection next) := hmem
  exact h.new_resource rfl (h.balanced.acquire_mem howned)

theorem next_notMem_timers (h : Account log next active lost timers lostTimers) :
    next ∉ timers ++ lostTimers := by
  intro hmem
  have howned : Owned (active ++ lost) (timers ++ lostTimers) (.timer next) := hmem
  exact h.new_resource rfl (h.balanced.acquire_mem howned)

/-- A connection and a context are made. -/
theorem open_request (h : Account log next active lost timers lostTimers) :
    Balanced (.acquire (.context next) :: .acquire (.connection next) :: log)
      (Owned (next :: (active ++ lost)) (timers ++ lostTimers)) (Joined active timers) := by
  have hcontext : .acquire (.context next) ∉
      (.acquire (.connection next) :: log : List (Entry Resource Link Unit)) := by
    simpa using h.new_resource (r := .context next) rfl
  refine ((h.balanced.acquire (h.new_resource (r := .connection next) rfl)).acquire
    hcontext).congr (fun r => ?_) fun d r => Iff.rfl
  cases r <;> simp [Owned]

theorem numbers_open (h : Account log next active lost timers lostTimers) (r : Resource)
    (hr : .acquire r ∈ (.acquire (.context next) :: .acquire (.connection next) :: log :
      List (Entry Resource Link Unit))) : r.number < next + 1 := by
  simp only [List.mem_cons, Entry.acquire.injEq] at hr
  rcases hr with rfl | rfl | hr
  · exact Nat.lt_succ_self _
  · exact Nat.lt_succ_self _
  · exact Nat.lt_succ_of_lt (h.numbers r hr)

/-- A request that is not made. -/
theorem lose (h : Account log next active lost timers lostTimers) :
    Account (.acquire (.context next) :: .acquire (.connection next) :: log) (next + 1) active
      (next :: lost) timers lostTimers where
  balanced := by
    refine h.open_request.congr (fun r => ?_) fun d r => Iff.rfl
    cases r <;> simp [Owned, or_left_comm]
  ids := List.perm_middle.nodup_iff.mpr (List.nodup_cons.mpr ⟨h.next_notMem, h.ids⟩)
  timerIds := h.timerIds
  numbers := h.numbers_open
  links := fun d r hd => Nat.lt_succ_of_lt (h.links d r (by simpa using hd))

/-- A request that is made. -/
theorem made (h : Account log next active lost timers lostTimers) :
    Account (.attach (.calls next) (.context next) :: .attach (.carries next) (.connection next) ::
      .acquire (.context next) :: .acquire (.connection next) :: log) (next + 1) (next :: active)
      lost timers lostTimers where
  balanced := by
    have hnew (d : Link) (hd : d.number = next) (r : Resource) : .attach d r ∉
        (.acquire (.context next) :: .acquire (.connection next) :: log :
          List (Entry Resource Link Unit)) := by
      simpa using h.new_link hd r
    have hcarries := h.open_request.attach (d := .carries next) (r := .connection next)
      List.mem_cons_self (hnew _ rfl)
    refine (hcarries.attach (d := .calls next) (r := .context next) List.mem_cons_self
      fun r => ?_).congr (fun r => Iff.rfl) fun d r => ?_
    · simpa using hnew (.calls next) rfl r
    · cases d <;> cases r <;> simp [Joined, eq_and_mem_cons]
  ids := List.nodup_cons.mpr ⟨h.next_notMem, h.ids⟩
  timerIds := h.timerIds
  numbers := fun r hr => h.numbers_open r (by simpa using hr)
  links := by
    intro d r hd
    simp only [List.mem_cons, Entry.attach.injEq, reduceCtorEq, false_or] at hd
    rcases hd with ⟨rfl, -⟩ | ⟨rfl, -⟩ | hd
    · exact Nat.lt_succ_self _
    · exact Nat.lt_succ_self _
    · exact Nat.lt_succ_of_lt (h.links d r hd)

/-- libevent does not have the request any more. -/
theorem leave (h : Account log next (id :: active) lost timers lostTimers) :
    Balanced (.detach (.calls id) :: .detach (.carries id) :: log)
      (Owned (id :: (active ++ lost)) (timers ++ lostTimers)) (Joined active timers) := by
  have hnot : id ∉ active := fun hmem =>
    (List.nodup_cons.mp h.ids).1 (List.mem_append_left _ hmem)
  have hcarries : Joined (id :: active) timers (.carries id) (.connection id) :=
    ⟨rfl, List.mem_cons_self⟩
  have hcalls : Joined (id :: active) timers (.calls id) (.context id) :=
    ⟨rfl, List.mem_cons_self⟩
  refine ((h.balanced.detach hcarries).detach ⟨hcalls, by simp⟩).congr
    (fun r => Iff.rfl) fun d r => ?_
  cases d <;> cases r <;> simp [Joined, eq_and_mem_iff hnot]

/-- A handler has returned. -/
theorem finish (h : Account log next (id :: active) lost timers lostTimers) :
    Account (.release (.context id) () :: .release (.connection id) () :: .detach (.calls id) ::
      .detach (.carries id) :: log) next active lost timers lostTimers where
  balanced := by
    have hnot : id ∉ active ++ lost := (List.nodup_cons.mp h.ids).1
    have hnone (d : Link) : ¬ Joined active timers d (.connection id) ∧
        ¬ Joined active timers d (.context id) := by
      have hid : id ∉ active := fun hmem => hnot (List.mem_append_left _ hmem)
      cases d <;> simp [Joined, hid]
    have hconnection := h.leave.release (r := .connection id) () List.mem_cons_self
      fun d => (hnone d).1
    refine (hconnection.release (r := .context id) () ⟨List.mem_cons_self, by simp⟩
      fun d => (hnone d).2).congr (fun r => ?_) fun d r => Iff.rfl
    cases r with
    | connection i =>
      simp only [Owned, List.mem_cons, ne_eq, Resource.connection.injEq, reduceCtorEq,
        not_false_eq_true, and_true]
      exact ⟨fun hmem => ⟨Or.inr hmem, fun h => hnot (h ▸ hmem)⟩, fun ⟨hmem, hne⟩ =>
        hmem.resolve_left hne⟩
    | context i =>
      simp only [Owned, List.mem_cons, ne_eq, Resource.context.injEq, reduceCtorEq,
        not_false_eq_true, and_true]
      exact ⟨fun hmem => ⟨Or.inr hmem, fun h => hnot (h ▸ hmem)⟩, fun ⟨hmem, hne⟩ =>
        hmem.resolve_left hne⟩
    | timer i => simp [Owned]
  ids := (List.nodup_cons.mp h.ids).2
  timerIds := h.timerIds
  numbers := fun r hr => h.numbers r (by simpa using hr)
  links := fun d r hd => h.links d r (by simpa using hd)

/-- The exception of a handler has gone through `hgetCB`. -/
theorem escape (h : Account log next (id :: active) lost timers lostTimers) :
    Account (.detach (.calls id) :: .detach (.carries id) :: log) next active (id :: lost) timers
      lostTimers where
  balanced := by
    refine h.leave.congr (fun r => ?_) fun d r => Iff.rfl
    cases r <;> simp [Owned, or_left_comm]
  ids := List.perm_middle.nodup_iff.mpr h.ids
  timerIds := h.timerIds
  numbers := fun r hr => h.numbers r (by simpa using hr)
  links := fun d r hd => h.links d r (by simpa using hd)

/-- A function object for which `event_base_once` fails. -/
theorem loseTimer (h : Account log next active lost timers lostTimers) :
    Account (.acquire (.timer next) :: log) (next + 1) active lost timers
      (next :: lostTimers) where
  balanced := by
    refine (h.balanced.acquire (h.new_resource (r := .timer next) rfl)).congr
      (fun r => ?_) fun d r => Iff.rfl
    cases r <;> simp [Owned, or_left_comm]
  ids := h.ids
  timerIds := List.perm_middle.nodup_iff.mpr
    (List.nodup_cons.mpr ⟨h.next_notMem_timers, h.timerIds⟩)
  numbers := by
    intro r hr
    rcases List.mem_cons.mp hr with hr | hr
    · cases hr
      exact Nat.lt_succ_self _
    · exact Nat.lt_succ_of_lt (h.numbers r hr)
  links := fun d r hd => Nat.lt_succ_of_lt (h.links d r (by simpa using hd))

/-- A function object that is in no list of libevent's gets a timer. -/
theorem arm (h : Account log (next + 1) active lost timers (id :: lostTimers))
    (hnew : ∀ r, .attach (.fires id) r ∉ log) (hid : id < next + 1) :
    Account (.attach (.fires id) (.timer id) :: log) (next + 1) active lost (id :: timers)
      lostTimers where
  balanced := by
    have howned : Owned (active ++ lost) (timers ++ id :: lostTimers) (.timer id) :=
      List.mem_append_right _ List.mem_cons_self
    refine (h.balanced.attach howned hnew).congr (fun r => ?_) fun d r => ?_
    · cases r <;> simp [Owned, or_left_comm]
    · cases d <;> cases r <;> simp [Joined, eq_and_mem_cons]
  ids := h.ids
  timerIds := List.perm_middle.nodup_iff.mp h.timerIds
  numbers := fun r hr => h.numbers r (by simpa using hr)
  links := by
    intro d r hd
    rcases List.mem_cons.mp hd with hd | hd
    · cases hd
      exact hid
    · exact h.links d r hd

/-- A timer fires. -/
theorem fire (h : Account log next active lost (id :: timers) lostTimers) :
    Account (.detach (.fires id) :: log) next active lost timers (id :: lostTimers) where
  balanced := by
    have hnot : id ∉ timers := fun hmem =>
      (List.nodup_cons.mp h.timerIds).1 (List.mem_append_left _ hmem)
    have hfires : Joined active (id :: timers) (.fires id) (.timer id) := ⟨rfl, List.mem_cons_self⟩
    refine (h.balanced.detach hfires).congr (fun r => ?_) fun d r => ?_
    · cases r <;> simp [Owned, or_left_comm]
    · cases d <;> cases r <;> simp [Joined, eq_and_mem_iff hnot]
  ids := h.ids
  timerIds := List.perm_middle.nodup_iff.mpr h.timerIds
  numbers := fun r hr => h.numbers r (by simpa using hr)
  links := fun d r hd => h.links d r (by simpa using hd)

/-- The function object of a timer that has fired is freed. -/
theorem freeTimer (h : Account log next active lost timers (id :: lostTimers)) :
    Account (.release (.timer id) () :: log) next active lost timers lostTimers where
  balanced := by
    obtain ⟨hnot, -⟩ := List.nodup_cons.mp (List.perm_middle.nodup_iff.mp h.timerIds)
    have hnone (d : Link) : ¬ Joined active timers d (.timer id) := by
      have hid : id ∉ timers := fun hmem => hnot (List.mem_append_left _ hmem)
      cases d <;> simp [Joined, hid]
    have howned : Owned (active ++ lost) (timers ++ id :: lostTimers) (.timer id) :=
      List.mem_append_right _ List.mem_cons_self
    refine (h.balanced.release () howned hnone).congr (fun r => ?_) fun d r => Iff.rfl
    cases r with
    | timer i =>
      simp only [Owned, List.mem_append, List.mem_cons, ne_eq, Resource.timer.injEq]
      have hne : i ∈ timers ∨ i ∈ lostTimers → i ≠ id := fun hmem h =>
        hnot (h ▸ List.mem_append.mpr hmem)
      tauto
    | connection i => simp [Owned]
    | context i => simp [Owned]
  ids := h.ids
  timerIds := (List.nodup_cons.mp (List.perm_middle.nodup_iff.mp h.timerIds)).2
  numbers := fun r hr => h.numbers r (by simpa using hr)
  links := fun d r hd => h.links d r (by simpa using hd)

end Account

/-! ## The steps -/

section Steps

variable {α β : Type} {s s' : Requests α} {id c : ℕ} {handler : Handler α} {h : HgetUntilHandler α}
  {r : GoResult}

/-- What is found under a number, and the rest. -/
theorem perm_of_lookup {L : List (ℕ × β)} {b : β} (hn : (L.map Prod.fst).Nodup)
    (hb : L.lookup id = some b) : L.Perm ((id, b) :: L.filter (·.1 ≠ id)) := by
  induction L with
  | nil => cases hb
  | cons e L ih =>
    obtain ⟨hnot, hrest⟩ := List.nodup_cons.mp hn
    obtain ⟨i, b'⟩ := e
    by_cases hi : i = id
    · subst hi
      have hfilter : L.filter (·.1 ≠ i) = L := by
        refine List.filter_eq_self.mpr fun e he => ?_
        exact decide_eq_true (ne_of_mem_of_not_mem (List.mem_map_of_mem he) hnot)
      rw [List.lookup_cons_self] at hb
      cases hb
      rw [List.filter_cons_of_neg (by simp), hfilter]
    · have hne : (id == i) = false := by simpa using Ne.symm hi
      rw [List.lookup_cons, hne] at hb
      rw [List.filter_cons_of_pos (by simpa using hi)]
      exact ((ih hrest hb).cons _).trans (.swap _ _ _)

namespace Requests

/-- The requests whose handlers have not returned. -/
def active (s : Requests α) : List ℕ := s.requests.map Prod.fst ++ s.current.map Prod.fst

/-- The account of a state. -/
def Accounted (s : Requests α) : Prop :=
  Account s.log s.next s.active s.lost (s.timers.map Prod.fst) s.lostTimers

theorem accounted_go (ha : Accounted s) (handler : Handler α) (r : GoResult) :
    Accounted (s.go handler r) := by
  cases r with
  | made => exact ha.made
  | addHeader => exact ha.lose
  | requestBuilder raised => exact ha.lose
  | makeRequest => exact ha.lose

theorem accounted_retry (ha : Accounted s) (c : ℕ) (h : HgetUntilHandler α) (r : GoResult) :
    Accounted (s.retry c h r) := by
  rw [retry]
  split
  case h_1 url h' _ =>
    have hsent : Accounted (s.modify c fun chain => { chain with sent := chain.sent ++ [url] }) :=
      ha
    exact accounted_go hsent (.chain c h') r
  case h_2 => exact ha

theorem accounted_call (ha : Accounted s) (hp : s.current = []) 
    (hid : s.requests.lookup id = some handler) (req : Option ℤ) :
    Accounted (s.call id handler req) := by
  have hn : (s.requests.map Prod.fst).Nodup := by
    have hids := ha.ids
    rw [active, hp] at hids
    exact (List.nodup_append.mp (List.nodup_append.mp hids).1).1
  have hperm := (perm_of_lookup hn hid).map Prod.fst
  have hcall : Accounted { s with
      requests := s.requests.filter (·.1 ≠ id), point := .calling id handler } := by
    refine ha.perm ?_ (.refl _)
    simp only [active, hp, List.map_nil, List.append_nil]
    exact List.perm_append_comm.trans hperm.symm
  cases handler with
  | plain => exact hcall
  | chain c h =>
    rw [call]
    split
    · exact hcall
    · exact hcall

theorem accounted_finish (ha : Accounted s) (hp : s.point = .calling id handler)
    (raised : Option Raised) : Accounted (s.finish raised id) := by
  have hactive : Account s.log s.next (id :: s.requests.map Prod.fst) s.lost
      (s.timers.map Prod.fst) s.lostTimers := by
    refine ha.perm ?_ (.refl _)
    rw [active, current, hp]
    exact (List.perm_append_singleton id _).symm
  rw [finish]
  split_ifs
  · refine hactive.escape.perm ?_ (.refl _)
    exact .of_eq (List.append_nil _)
  · refine hactive.finish.perm ?_ (.refl _)
    exact .of_eq (List.append_nil _)

theorem accounted_wait (ha : Accounted s) (c : ℕ) (h : HgetUntilHandler α) (once : Bool) :
    Accounted (s.wait c h once) := by
  rw [wait]
  split_ifs
  · refine ha.loseTimer.arm (fun r => ?_) (Nat.lt_succ_self _)
    simpa using ha.new_link (d := .fires s.next) rfl r
  · exact ha.loseTimer

theorem wait_point (s : Requests α) (c : ℕ) (h : HgetUntilHandler α) (once : Bool) :
    (s.wait c h once).point = s.point := by
  rw [wait]
  split_ifs <;> rfl

theorem retry_point (s : Requests α) (c : ℕ) (h : HgetUntilHandler α) (r : GoResult) :
    (s.retry c h r).point = s.point := by
  rw [retry]
  split
  · cases r <;> rfl
  · rfl

theorem accounted_returns (ha : Accounted s) (hp : s.point = .calling id handler)
    (answer : Except Raised RetryAfterSec) (r : GoResult) (once : Bool) :
    Accounted (s.returns answer r once id handler) := by
  cases handler with
  | plain =>
    cases answer with
    | ok _ => exact accounted_finish ha hp none
    | error raised => exact accounted_finish ha hp (some raised)
  | chain c h =>
    cases answer with
    | error raised =>
      have hfailed : Accounted { s with failed := c :: s.failed } := ha
      exact accounted_finish hfailed hp (some raised)
    | ok answer =>
      have hanswer : Accounted (s.modify c fun chain => { chain with
          answers := chain.answers ++ [answer] }) := ha
      cases answer with
      | zero =>
        exact accounted_finish (accounted_retry hanswer c h r) ((retry_point ..).trans hp) _
      | positive =>
        exact accounted_finish (accounted_wait hanswer c h once) ((wait_point ..).trans hp) _
      | other => exact accounted_finish hanswer hp none

/-- A retry has nothing to do with the function objects of timers. -/
theorem retry_lostTimers (s : Requests α) (c : ℕ) (h : HgetUntilHandler α) (r : GoResult)
    (lostTimers : List ℕ) :
    { s with lostTimers }.retry c h r = { s.retry c h r with lostTimers } := by
  rw [retry, retry]
  split
  · cases r <;> rfl
  · rfl

theorem accounted_fire (ha : Accounted s) (hp : s.current = [])
    (hid : s.timers.lookup id = some (c, h)) (r : GoResult) : Accounted (s.fire id c h r) := by
  have hperm := (perm_of_lookup (List.nodup_append.mp ha.timerIds).1 hid).map Prod.fst
  generalize hs₁ : { s with
    timers := s.timers.filter (·.1 ≠ id)
    log := .detach (.fires id) :: s.log } = s₁
  have hfired : Accounted { s₁ with lostTimers := id :: s.lostTimers } := by
    rw [← hs₁]
    exact (ha.perm (.refl _) hperm.symm).fire
  have hretry := accounted_retry hfired c h r
  rw [retry_lostTimers] at hretry
  have hlost : (s₁.retry c h r).lostTimers = s.lostTimers := by
    have heq := retry_lostTimers s₁ c h r s.lostTimers
    have hs : { s₁ with lostTimers := s.lostTimers } = s₁ := by rw [← hs₁]
    rw [hs] at heq
    rw [heq]
  have hcurrent : (s₁.retry c h r).current = [] := by
    rw [← hp, current, current, retry_point, ← hs₁]
  have hfree := hretry.freeTimer
  rw [← hlost] at hfree
  rw [fire, hs₁]
  refine hfree.perm (.of_eq ?_) (.refl _)
  show (s₁.retry c h r).requests.map Prod.fst ++ _ = (s₁.retry c h r).requests.map Prod.fst ++
    (s₁.retry c h r).current.map Prod.fst
  rw [hcurrent]
  congr 1
  rw [current]
  dsimp only
  split_ifs <;> rfl

theorem accounted_step {l : Label α} (ha : Accounted s) (hx : Moves s l s') : Accounted s' := by
  cases hx with
  | go => exact accounted_go ha .plain _
  | @goUntil urls r =>
    have hnew : Accounted { s with
        chains := Function.update s.chains s.nextChain { urls }
        nextChain := s.nextChain + 1 } := ha
    exact accounted_retry hnew s.nextChain { urls } r
  | hgetCB hp hid => exact accounted_call ha (by rw [current, hp]; rfl) hid _
  | returns hp => exact accounted_returns ha hp _ _ _
  | hgetUntilRetryCB hp hid => exact accounted_fire ha (by rw [current, hp]; rfl) hid _

/-! ## What is lost -/

/-- `go` or `event_base_once` fails, or a handler's exception is no `std::runtime_error`. -/
def Label.Fails : Label α → Prop
  | .go r | .goUntil _ r | .hgetUntilRetryCB _ r => r ≠ .made
  | .hgetCB _ _ => False
  | .returns answer r once => answer = .error .other ∨ r ≠ .made ∨ once = false

/-- Nothing is lost. -/
def Kept (s : Requests α) : Prop := s.lost = [] ∧ s.lostTimers = []

theorem kept_retry (hk : Kept s) (c : ℕ) (h : HgetUntilHandler α) :
    Kept (s.retry c h .made) := by
  rw [retry]
  split
  · exact hk
  · exact hk

theorem kept_finish (hk : Kept s) {raised : Option Raised} (hraised : raised ≠ some .other) :
    Kept (s.finish raised id) := by
  rw [finish, if_neg hraised]
  exact hk

theorem kept_finish_none (hk : Kept s) : Kept (s.finish none id) := kept_finish hk (by simp)

theorem kept_step {l : Label α} (hk : Kept s) (hl : ¬ l.Fails) (hx : Moves s l s') : Kept s' := by
  cases hx with
  | go =>
    obtain rfl := not_not.mp hl
    exact hk
  | @goUntil urls r =>
    obtain rfl := not_not.mp hl
    have hnew : Kept { s with
        chains := Function.update s.chains s.nextChain { urls }
        nextChain := s.nextChain + 1 } := hk
    exact kept_retry hnew _ _
  | @hgetCB id req handler _ _ =>
    cases handler with
    | plain => exact hk
    | chain c h =>
      rw [call]
      split
      · exact hk
      · exact hk
  | @returns answer r once id handler _ =>
    simp only [Label.Fails, not_or, not_not, Bool.not_eq_false] at hl
    obtain ⟨hanswer, rfl, rfl⟩ := hl
    have hraised (raised : Raised) (h : answer = .error raised) : some raised ≠ some .other := by
      rintro ⟨⟩
      exact hanswer h
    cases handler with
    | plain =>
      cases answer with
      | ok _ => exact kept_finish_none hk
      | error raised => exact kept_finish hk (hraised raised rfl)
    | chain c h =>
      cases answer with
      | error raised =>
        have hfailed : Kept { s with failed := c :: s.failed } := hk
        exact kept_finish hfailed (hraised raised rfl)
      | ok answer =>
        have hanswer : Kept (s.modify c fun chain => { chain with
            answers := chain.answers ++ [answer] }) := hk
        cases answer with
        | zero => exact kept_finish_none (kept_retry hanswer c h)
        | positive =>
          have hwait := hanswer
          exact kept_finish_none (show Kept (wait c h true _) from hwait)
        | other => exact kept_finish_none hanswer
  | @hgetUntilRetryCB id c h _ _ _ =>
    obtain rfl := not_not.mp hl
    have hfired : Kept { s with
        timers := s.timers.filter (·.1 ≠ id)
        log := .detach (.fires id) :: s.log } := hk
    exact kept_retry hfired c h

/-! ## Every run -/

/-- What is there. -/
def Owns (s : Requests α) : Resource → Prop :=
  Owned (s.active ++ s.lost) (s.timers.map Prod.fst ++ s.lostTimers)

/-- **A connection, a context and a function object are freed once**, in every run, whatever the
handlers return or throw and which calls fail: a connection and a context when the handler of their
request has ended, and a function object when its timer has fired. Nothing is lost unless `go` or
`event_base_once` fails, or a handler's exception is no `std::runtime_error`. -/
theorem requests_freed_once (ls : List (Label α)) (s : Requests α)
    (hr : AllSteps step {} ls s) :
    Proper s.log ∧
      (∀ r, .acquire r ∈ s.log → s.Owns r ∧ s.log.countP (Entry.releases r) = 0 ∨
        ¬ s.Owns r ∧ s.log.countP (Entry.releases r) = 1) ∧
      ((∀ l ∈ ls, ¬ l.Fails) → s.lost = [] ∧ s.lostTimers = []) := by
  have ha : Accounted s := hr.invariant
    (fun l s s' ha _ hx => accounted_step ha (moves_of_step hx)) Account.start
  refine ⟨ha.balanced.proper, fun r hmem => ?_, fun hls => ?_⟩
  · by_cases howns : s.Owns r
    · exact Or.inl ⟨howns, ha.balanced.countP_releases_of_owned howns⟩
    · exact Or.inr ⟨howns, ha.balanced.countP_releases hmem howns⟩
  · exact (hr.of_forall_mem hls).invariant (I := Kept)
      (fun l s s' hk hl hx => kept_step hk hl (moves_of_step hx)) ⟨rfl, rfl⟩

/-- A request that is retried when a timer fires, and one that is not made. -/
theorem requests_freed_once_retry :
    let ls : List (Label ℕ) := [.goUntil [80] .made, .hgetCB 0 none,
      .returns (.ok .positive) .made true, .go .makeRequest, .hgetUntilRetryCB 1 .made,
      .hgetCB 3 (some 200), .returns (.ok .other) .made true]
    ∃ s, AllSteps step {} ls s ∧ s.lost = [2] ∧ Proper s.log ∧
      (∀ r, .acquire r ∈ s.log → s.Owns r ∧ s.log.countP (Entry.releases r) = 0 ∨
        ¬ s.Owns r ∧ s.log.countP (Entry.releases r) = 1) ∧
      ((∀ l ∈ ls, ¬ l.Fails) → s.lost = [] ∧ s.lostTimers = []) := by
  intro ls
  have hlost : (runAll step ls {}).map Requests.lost = some [2] := by decide +kernel
  obtain ⟨s, hs, hlost⟩ := Option.map_eq_some_iff.mp hlost
  have hr := steps_of_runAll hs
  exact ⟨s, hr, hlost, requests_freed_once ls s hr⟩

end Requests

end Steps

end Glim.Hget
