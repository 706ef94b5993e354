import Glim.Channel.Delivery

/-!
# Throwing moves

Where the move of a value out of the channel throws, `receive` ends without the channel being empty
again: `send` takes its state back when the assignment throws, and `receive` does not. Then the
channel is full and its mutex locked while no thread holds it, and it stays so.

## Main definitions

* `Channel.stepThrowing`: the steps of a thread, when the move may throw
* `Channel.Rests`: a channel that no thread holds is empty and locked, or full and unlocked
* `Channel.Blocked`: no thread holds the channel, and none can

## Main results

* `Channel.rests_iff`: the channel rests all along if and only if no move throws
* `Channel.blocked_of_steps`: a blocked channel stays blocked
-/

namespace Glim.Channel

open Thread

variable {V ι : Type}

/-- What a thread does. -/
inductive ThrowingAction (V : Type) where
  | plain (a : Point.Action V)
  /-- The move out of `_v` throws, and what it leaves there. -/
  | moveThrows (left : V)

/-- The action is not a throwing move. -/
def ThrowingAction.isPlain : ThrowingAction V → Prop
  | .plain _ => True
  | .moveThrows _ => False

/-- The steps of a thread. The exception leaves `receive` behind its `_mutex.lock ()`. -/
def stepThrowing : Point V → ThrowingAction V → Channel V → Option (Channel V × Point V)
  | p, .plain a, c => step p a c
  | .moving, .moveThrows left, c => some ({ c with v := left }, .outside)
  | _, .moveThrows _, _ => none

/-- No thread is between its compare-exchange and the end of `send`, or between its lock and the
end of `receive`. -/
def Unheld (c : Config ι (Channel V) (Point V)) : Prop := ∀ t, ¬ (c.pc t).critical

/-- Unless a thread holds the channel, one can send or one can receive. -/
def Rests (c : Config ι (Channel V) (Point V)) : Prop :=
  Unheld c → c.shared.state = .EMPTY ∧ c.shared.locked = true ∨
    c.shared.state = .FULL ∧ c.shared.locked = false

/-- Nobody holds the channel, which is full and locked. -/
structure Blocked (c : Config ι (Channel V) (Point V)) : Prop where
  unheld : Unheld c
  full : c.shared.state = .FULL
  locked : c.shared.locked = true

variable {c c' : Config ι (Channel V) (Point V)}

/-- A channel whose baton is passed on rests. -/
theorem Rests.of_baton (h : Baton Point.critical Free Held c) : Rests c := by
  intro hnone
  cases h with
  | free _ hfree =>
    rcases hfree with ⟨hempty, hlocked, -⟩ | ⟨hfull, hlocked, -⟩
    · exact .inl ⟨hempty, hlocked⟩
    · exact .inr ⟨hfull, hlocked⟩
  | held t ht => exact absurd ht (hnone t)

theorem Blocked.not_rests (h : Blocked c) : ¬ Rests c := by
  intro hrests
  rcases hrests h.unheld with ⟨hempty, -⟩ | ⟨-, hunlocked⟩
  · rw [h.full] at hempty
    cases hempty
  · rw [h.locked] at hunlocked
    cases hunlocked

theorem baton_start (v : V) : Baton Point.critical Free Held (start ι v) :=
  .free (fun _ => id) (.inl ⟨rfl, rfl, ⟨rfl, List.Pairwise.nil, nofun, rfl, rfl, rfl⟩, rfl⟩)

section Runs

variable [DecidableEq ι] {t : ι} {left : V} {ls : List (ι × ThrowingAction V)}

/-- A step in which no move throws passes the baton. -/
theorem baton_step {l : ι × ThrowingAction V} (h : Baton Point.critical Free Held c)
    (hl : l.2.isPlain) (hx : Config.step stepThrowing l c = some c') :
    Baton Point.critical Free Held c' := by
  obtain ⟨t, a⟩ := l
  obtain ⟨s, p, hp, rfl⟩ := Config.step_eq_some_iff.mp hx
  cases a with
  | plain a => exact h.step (step_passes hp)
  | moveThrows left => exact hl.elim

/-- After a throwing move the channel is blocked. -/
theorem blocked_of_moveThrows (h : Baton Point.critical Free Held c)
    (hx : Config.step stepThrowing (t, .moveThrows left) c = some c') : Blocked c' := by
  obtain ⟨s, p, hp, rfl⟩ := Config.step_eq_some_iff.mp hx
  unfold stepThrowing at hp
  split at hp
  · next heq => cases heq
  · next hmoving heq =>
    cases heq
    cases hp
    -- the thread holds the channel alone, which is full
    cases h with
    | free hnone _ => exact absurd (hmoving ▸ trivial) (hnone t)
    | held u hu honly hheld =>
      have ht : (c.pc t).critical := by rw [hmoving]; trivial
      obtain rfl := honly t ht
      rw [hmoving] at hheld
      refine ⟨fun u hu => ?_, hheld.1, hheld.2.1⟩
      rcases eq_or_ne u t with rfl | hne
      · rw [Config.pc_move_self] at hu
        exact hu
      · rw [Config.pc_move_of_ne _ _ _ _ hne] at hu
        exact hne (honly u hu)
  · cases hp

/-- Where the channel rests all along, no move throws. -/
theorem isPlain_of_allAlong (hr : AllSteps (Config.step stepThrowing) c ls c')
    (h : Baton Point.critical Free Held c)
    (hrests : AllAlong (Config.step stepThrowing) Rests ls c) : ∀ l ∈ ls, l.2.isPlain := by
  -- the first throwing move leaves a blocked channel
  induction hr with
  | nil => exact nofun
  | @cons d d' d'' l ls _ hx _ ih =>
    have hrest := hrests.2 d' hx
    obtain ⟨t, a⟩ := l
    cases a with
    | plain a =>
      have hbaton := baton_step (l := (t, .plain a)) h trivial hx
      exact List.forall_mem_cons.mpr ⟨trivial, ih hbaton hrest⟩
    | moveThrows left =>
      refine absurd ?_ (blocked_of_moveThrows h hx).not_rests
      cases ls with
      | nil => exact hrest
      | cons l ls => exact hrest.1

/-- **A channel that no thread holds is ready** to be sent to or received from, in every state of a
run, if and only if no move out of the channel throws in the run. -/
theorem rests_iff {v : V} (hr : AllSteps (Config.step stepThrowing) (start ι v) ls c) :
    AllAlong (Config.step stepThrowing) Rests ls (start ι v) ↔ ∀ l ∈ ls, l.2.isPlain := by
  constructor
  · exact isPlain_of_allAlong hr (baton_start v)
  · intro hplain
    exact (hr.of_forall_mem hplain).allAlong (I := Baton Point.critical Free Held)
      (fun _ _ _ h hl hx => baton_step h hl hx) (fun _ => Rests.of_baton) (baton_start v)

/-- A sender, and a receiver that comes before it. -/
theorem rests_seven :
    let ls : List (ℕ × ThrowingAction ℕ) := sevenSteps.map fun l => (l.1, .plain l.2)
    AllAlong (Config.step stepThrowing) Rests ls (start ℕ 0) := by
  intro ls
  obtain ⟨c, hx⟩ : ∃ c, runAll (Config.step stepThrowing) ls (start ℕ 0) = some c := ⟨_, rfl⟩
  refine (rests_iff (steps_of_runAll hx)).mpr fun l hl => ?_
  obtain ⟨_, -, rfl⟩ := List.mem_map.mp hl
  trivial

/-- A value is sent, and its move out of the channel throws: nobody holds the channel, and it is
neither empty nor unlocked. -/
theorem move_throws_blocks :
    let ls : List (ℕ × ThrowingAction ℕ) := [(0, .plain (.send 7)), (0, .plain .go),
      (0, .plain .go), (0, .plain .go), (0, .plain .go), (1, .plain .receive), (1, .plain .go),
      (1, .moveThrows 0)]
    ∃ c, AllSteps (Config.step stepThrowing) (start ℕ 0) ls c ∧ Unheld c ∧ ¬ Rests c := by
  intro ls
  obtain ⟨c, hx⟩ : ∃ c, runAll (Config.step stepThrowing) ls (start ℕ 0) = some c := ⟨_, rfl⟩
  have hblocked : Blocked c := by
    cases hx
    refine ⟨fun t => ?_, rfl, rfl⟩
    match t with
    | 0 => exact id
    | 1 => exact id
    | t + 2 => exact id
  exact ⟨c, steps_of_runAll hx, hblocked.unheld, hblocked.not_rests⟩

/-! ## Blocked channels -/

/-- In a blocked channel, a thread can only call `send` and `receive`, and wait. -/
theorem Blocked.step {l : ι × ThrowingAction V} (h : Blocked c)
    (hx : Config.step stepThrowing l c = some c') : Blocked c' ∧ c'.shared = c.shared := by
  obtain ⟨t, a⟩ := l
  obtain ⟨s, p, hp, rfl⟩ := Config.step_eq_some_iff.mp hx
  have hwait : ¬ p.critical ∧ s = c.shared := by
    have ht := h.unheld t
    cases a with
    | plain a =>
      replace hp : Channel.step (c.pc t) a c.shared = some (s, p) := hp
      cases hpc : c.pc t <;> rw [hpc] at ht hp
      case outside =>
        cases a <;> cases hp <;> exact ⟨id, rfl⟩
      case sending value =>
        -- the compare-exchange fails
        have hfull : ¬ c.shared.state = .EMPTY := by
          rw [h.full]
          exact nofun
        cases a <;> try cases hp
        case go =>
          rw [Channel.step, if_neg hfull] at hp
          cases hp
          exact ⟨id, rfl⟩
        case spurious => exact ⟨id, rfl⟩
      case locking =>
        cases a <;> try cases hp
        case go =>
          rw [Channel.step, if_pos h.locked] at hp
          cases hp
      all_goals exact absurd trivial ht
    | moveThrows left =>
      unfold stepThrowing at hp
      split at hp
      · next heq => cases heq
      · next hmoving heq =>
        rw [hmoving] at ht
        exact absurd trivial ht
      · cases hp
  obtain ⟨hp', rfl⟩ := hwait
  refine ⟨⟨fun u hu => ?_, h.full, h.locked⟩, rfl⟩
  rcases eq_or_ne u t with rfl | hne
  · rw [Config.pc_move_self] at hu
    exact hp' hu
  · rw [Config.pc_move_of_ne _ _ _ _ hne] at hu
    exact h.unheld u hu

/-- A blocked channel stays blocked: no value is sent or received any more. -/
theorem blocked_of_steps (hr : AllSteps (Config.step stepThrowing) c ls c') (h : Blocked c) :
    Blocked c' ∧ c'.shared = c.shared := by
  induction hr with
  | nil => exact ⟨h, rfl⟩
  | cons _ hx _ ih =>
    obtain ⟨h', hshared⟩ := h.step hx
    obtain ⟨hblocked, heq⟩ := ih h'
    exact ⟨hblocked, heq.trans hshared⟩

end Runs

end Glim.Channel
