import Glim.Channel.Basic

/-!
# Delivery

At most one thread is between its compare-exchange and the end of `send`, or between its lock and
the end of `receive`; it holds the channel. While no thread holds the channel, it is empty and its
mutex locked, or it is full and its mutex unlocked.

## Main definitions

* `Channel.Point.critical`: the thread holds the channel
* `Channel.Free`, `Channel.Held`: the channel while no thread holds it, and while one does

## Main results

* `Channel.step_passes`: what the steps of a thread do with the channel
* `delivers`: every value is received once, in order
-/

namespace Glim

open Thread

variable {V : Type}

/-- The thread holds the channel. -/
def Channel.Point.critical : Channel.Point V → Prop
  | .outside => False
  | .sending _ => False
  | .locking => False
  | _ => True

namespace Channel

/-- Nothing that must not happen has happened, and the values were sent in the order of their
compare-exchanges. -/
structure History.Good (h : History V) : Prop where
  turns_length : h.turns.length = h.sent.length
  ordered : h.turns.Pairwise (· < ·)
  turns_lt : ∀ turn ∈ h.turns, turn < h.exchanges
  overwritten : h.overwritten = false
  assertionFailed : h.assertionFailed = false
  unlockedTwice : h.unlockedTwice = false

/-- All values that were sent have been received. -/
def Drained (c : Channel V) : Prop := c.history.Good ∧ c.history.sent = c.history.received

/-- All values but one have been received. -/
def Carries (value : V) (c : Channel V) : Prop :=
  c.history.Good ∧ c.history.sent = c.history.received ++ [value]

/-- All values but the one in the channel have been received. -/
def Loaded (c : Channel V) : Prop := c.Carries c.v

/-- The channel while no thread holds it. -/
def Free (c : Channel V) : Prop :=
  c.state = .EMPTY ∧ c.locked = true ∧ c.Drained ∨ c.state = .FULL ∧ c.locked = false ∧ c.Loaded

/-- The channel while a thread holds it at a point. -/
def Held : Point V → Channel V → Prop
  | .writing _ turn, c => c.state = .WRITING ∧ c.locked = true ∧ c.Drained ∧
    turn < c.history.exchanges ∧ ∀ earlier ∈ c.history.turns, earlier < turn
  | .threw, c => c.state = .WRITING ∧ c.locked = true ∧ c.Drained
  | .assigned, c => c.state = .WRITING ∧ c.locked = true ∧ c.Loaded
  | .unlocking, c => c.state = .FULL ∧ c.locked = true ∧ c.Loaded
  | .moving, c => c.state = .FULL ∧ c.locked = true ∧ c.Loaded
  | .asserting tmp, c => c.state = .FULL ∧ c.locked = true ∧ c.Carries tmp
  | .emptying tmp, c => c.state = .FULL ∧ c.locked = true ∧ c.Carries tmp
  | _, _ => False

theorem Held.state_ne_empty {p : Point V} {c : Channel V} (h : Held p c) : c.state ≠ .EMPTY := by
  cases p <;> first | exact h.elim | (rw [h.1]; exact nofun)

theorem Held.locked {p : Point V} {c : Channel V} (h : Held p c) : c.locked = true := by
  cases p <;> first | exact h.elim | exact h.2.1

/-- Where nothing is left to receive, a write overwrites nothing. -/
theorem Drained.write {c : Channel V} (h : c.Drained) : c.history.write.Good := by
  refine { h.1 with overwritten := ?_ }
  unfold History.write
  rw [h.1.overwritten, h.2]
  simp

/-- What the steps of a thread do with the channel. -/
theorem step_passes {p p' : Point V} {a : Point.Action V} {c c' : Channel V}
    (hx : step p a c = some (c', p')) : Baton.Passes Point.critical Free Held p p' c c' := by
  unfold step at hx
  split at hx
  -- `send` and `receive` are called
  · cases hx
    exact .of_leave id id
  · cases hx
    exact .of_leave id id
  -- the compare-exchange
  · split at hx
    · next hempty =>
      cases hx
      refine .of_take id trivial (fun q hq => hq.state_ne_empty hempty) ?_
      rintro (⟨-, hlocked, hgood, hsent⟩ | ⟨hfull, -, -⟩)
      · refine ⟨rfl, hlocked, ⟨{ hgood with turns_lt := ?_ }, hsent⟩, Nat.lt_succ_self _,
          hgood.turns_lt⟩
        exact fun turn hturn => Nat.lt_succ_of_lt (hgood.turns_lt turn hturn)
      · rw [hempty] at hfull
        cases hfull
    · cases hx
      exact .of_leave id id
  · cases hx
    exact .of_leave id id
  -- the value is assigned
  · next value turn =>
    cases hx
    refine .of_keep trivial trivial ?_
    rintro ⟨hwriting, hlocked, hdrained, hturn, hearlier⟩
    have hgood := hdrained.write
    refine ⟨hwriting, hlocked, { hgood with turns_length := ?_, ordered := ?_, turns_lt := ?_ },
      congrArg (· ++ [value]) hdrained.2⟩
    · simp only [List.length_append, List.length_singleton, hdrained.1.turns_length]
    · refine List.pairwise_append.mpr ⟨hgood.ordered, List.pairwise_singleton _ _, ?_⟩
      intro earlier hin later hlater
      obtain rfl := List.mem_singleton.mp hlater
      exact hearlier earlier hin
    · intro later hin
      rcases List.mem_append.mp hin with hin | hin
      · exact hgood.turns_lt later hin
      · obtain rfl := List.mem_singleton.mp hin
        exact hturn
  -- the assignment throws
  · cases hx
    refine .of_keep trivial trivial ?_
    rintro ⟨hwriting, hlocked, hdrained, -⟩
    exact ⟨hwriting, hlocked, hdrained.write, hdrained.2⟩
  · cases hx
    refine .of_giveBack trivial id ?_
    rintro ⟨-, hlocked, hdrained⟩
    exact Or.inl ⟨rfl, hlocked, hdrained⟩
  · cases hx
    refine .of_keep trivial trivial ?_
    rintro ⟨-, hlocked, hloaded⟩
    exact ⟨rfl, hlocked, hloaded⟩
  -- the mutex is unlocked, once
  · cases hx
    refine .of_giveBack trivial id ?_
    rintro ⟨hfull, hlocked, hgood, hsent⟩
    refine Or.inr ⟨hfull, rfl, { hgood with unlockedTwice := ?_ }, hsent⟩
    simp only [hgood.unlockedTwice, hlocked, Bool.not_true, Bool.or_false]
  -- the mutex is locked
  · split at hx
    · cases hx
    · next hunlocked =>
      cases hx
      refine .of_take id trivial (fun q hq => hunlocked hq.locked) ?_
      rintro (⟨-, hlocked, -⟩ | ⟨hfull, -, hloaded⟩)
      · exact absurd hlocked hunlocked
      · exact ⟨hfull, rfl, hloaded⟩
  -- the value is moved out
  · cases hx
    refine .of_keep trivial trivial ?_
    exact id
  -- the assertion
  · cases hx
    refine .of_keep trivial trivial ?_
    rintro ⟨hfull, hlocked, hgood, hsent⟩
    refine ⟨hfull, hlocked, { hgood with assertionFailed := ?_ }, hsent⟩
    simp only [hgood.assertionFailed, hfull, bne_self_eq_false, Bool.or_false]
  -- and it is returned
  · cases hx
    refine .of_giveBack trivial id ?_
    rintro ⟨-, hlocked, hgood, hsent⟩
    exact Or.inl ⟨rfl, hlocked, { hgood with }, hsent⟩
  · cases hx

/-- The baton is kept by all threads. -/
theorem baton_of_steps {ι : Type} [DecidableEq ι] {v : V} {ls : List (ι × Point.Action V)}
    {c : Config ι (Channel V) (Point V)} (hr : AllSteps (Config.step step) (start ι v) ls c) :
    Baton Point.critical Free Held c := by
  refine Baton.of_steps (fun p a s s' p' => step_passes) hr (.free (fun _ => id) (Or.inl ?_))
  exact ⟨rfl, rfl, ⟨rfl, List.Pairwise.nil, nofun, rfl, rfl, rfl⟩, rfl⟩

end Channel

/-- **Every value is delivered once.** In every interleaving the values that `receive` returns are
the sent ones in their order, up to one that is in the channel or on its way; none is overwritten
before it is received; the assertion does not fail, and the mutex is never unlocked while it is not
locked. -/
theorem delivers {ι : Type} [DecidableEq ι] {v : V} {ls : List (ι × Channel.Point.Action V)}
    {c : Config ι (Channel V) (Channel.Point V)}
    (hr : AllSteps (Config.step Channel.step) (Channel.start ι v) ls c) :
    c.shared.history.received <+: c.shared.history.sent ∧
      c.shared.history.sent.length ≤ c.shared.history.received.length + 1 ∧
      c.shared.history.Good := by
  -- whoever has the channel in hand, its history is that of an empty or of a full one
  have hcase : c.shared.Drained ∨ ∃ value, c.shared.Carries value := by
    cases Channel.baton_of_steps hr with
    | free _ hfree =>
      rcases hfree with ⟨-, -, hdrained⟩ | ⟨-, -, hloaded⟩
      · exact Or.inl hdrained
      · exact Or.inr ⟨_, hloaded⟩
    | held t ht _ hheld =>
      cases hpc : c.pc t <;> rw [hpc] at hheld <;>
        first
        | exact hheld.elim
        | exact Or.inl hheld.2.2
        | exact Or.inr ⟨_, hheld.2.2⟩
        | exact Or.inl hheld.2.2.1
  -- the value that has not been received, if there is one, is the last one that was sent
  rcases hcase with ⟨hgood, hsent⟩ | ⟨value, hgood, hsent⟩
  · rw [hsent]
    exact ⟨List.prefix_rfl, Nat.le_succ _, hgood⟩
  · rw [hsent]
    refine ⟨List.prefix_append _ _, ?_, hgood⟩
    exact Nat.le_of_eq List.length_append

/-- A sender and a receiver, which waits for the value. -/
def sevenSteps : List (ℕ × Channel.Point.Action ℕ) :=
  [(0, .send 7), (1, .receive), (0, .spurious), (0, .go), (0, .go), (0, .go), (0, .go), (1, .go),
    (1, .move 0), (1, .go), (1, .go)]

theorem delivers_seven : ∃ c : Config ℕ (Channel ℕ) (Channel.Point ℕ),
    runAll (Config.step Channel.step) sevenSteps (Channel.start ℕ 0) = some c ∧
    c.shared.history.received = [7] ∧ c.shared.history.received <+: c.shared.history.sent ∧
      c.shared.history.sent.length ≤ 2 ∧ c.shared.history.Good := by
  obtain ⟨c, hx⟩ : ∃ c, runAll (Config.step Channel.step) sevenSteps (Channel.start ℕ 0) = some c :=
    ⟨_, rfl⟩
  have hreceived : c.shared.history.received = [7] := by
    cases hx
    rfl
  obtain ⟨hprefixed, hlength, hgood⟩ := delivers (steps_of_runAll hx)
  rw [hreceived] at hlength
  exact ⟨c, hx, hreceived, hprefixed, hlength, hgood⟩

end Glim
