import Glim.Hget.Freed

/-!
# The requests of many `goUntil`

The requests, handlers and timers of any number of `goUntil` take their turns in one event loop.
Each of them still asks its own URLs in turn, and its handler is told the URL and the number of the
request that has finished. Its function object is always in one place: with a request, with a
handler that is called, or with a timer, unless the handler has not asked for a retry or a failure
has ended it.

## Main definitions

* `Chain.InTurn`: what a `goUntil` has done so far
* `Chain.At`: a function object at a stage of its `goUntil`
* `Turns`: every `goUntil` is in turn, and its function object is in one place

## Main results

* `Turns.retry`, `Turns.call`, `Turns.answer`: what a `goUntil` does next
* `Requests.turns_step`: every step keeps the `goUntil`s in turn
* `Requests.asked_in_turn`: what every `goUntil` has done in every run
-/

namespace Glim.Hget

open Machine Thread

variable {α : Type}

/-! ## One `goUntil` -/

/-- The requests went to the URLs in turn, the handler was called with the URL and the number of
each, and it has asked for a retry every time but perhaps the last. -/
structure Chain.InTurn (chain : Chain α) : Prop where
  nonempty : chain.urls ≠ []
  few : chain.urls.length ≤ 256
  sent : ∀ k url, chain.sent[k]? = some url → chain.urls[k % chain.urls.length]? = some url
  called : ∀ k call, chain.calls[k]? = some call →
    chain.sent[k]? = some call.2.1 ∧ call.2.2 = k + 1
  asked : .other ∉ chain.answers.dropLast
  answers_le : chain.answers.length ≤ chain.calls.length
  calls_le : chain.calls.length ≤ chain.sent.length
  sent_le : chain.sent.length ≤ chain.answers.length + 1

/-- How many requests the handler has not been called for. -/
def Stage.uncalled : Stage → ℕ
  | .requested => 1
  | .called | .waiting => 0

/-- How many requests the handler has not answered. -/
def Stage.unanswered : Stage → ℕ
  | .requested | .called => 1
  | .waiting => 0

/-- The function object at a stage, while no answer has ended the `goUntil`. -/
structure Chain.At (chain : Chain α) (stage : Stage) (h : HgetUntilHandler α) : Prop where
  handler : h = handlerAt chain.urls chain.sent.length
  calls : chain.sent.length = chain.calls.length + stage.uncalled
  answers : chain.sent.length = chain.answers.length + stage.unanswered
  asks : .other ∉ chain.answers

section Lists

variable {β : Type} {l : List β} {a b : β} {k : ℕ}

theorem getElem?_concat_eq_some_iff :
    (l ++ [a])[k]? = some b ↔ l[k]? = some b ∨ k = l.length ∧ a = b := by
  rcases Nat.lt_trichotomy k l.length with hlt | rfl | hgt
  · rw [List.getElem?_append_left hlt]
    exact ⟨Or.inl, fun h => h.resolve_right fun h => hlt.ne h.1⟩
  · simp
  · have hout : l.length + 1 ≤ k := hgt
    rw [List.getElem?_eq_none (by simpa using hout), List.getElem?_eq_none hgt.le]
    exact iff_of_false nofun fun h => h.elim nofun fun h => hgt.ne' h.1

theorem getElem?_concat_of_some (h : l[k]? = some b) : (l ++ [a])[k]? = some b :=
  getElem?_concat_eq_some_iff.mpr (Or.inl h)

end Lists

section Chain

variable {chain : Chain α} {h : HgetUntilHandler α} {urls : List α}

/-- A `goUntil` that has made no request. -/
theorem Chain.inTurn_start (hne : urls ≠ []) (hfew : urls.length ≤ 256) :
    Chain.InTurn { urls } :=
  ⟨hne, hfew, nofun, nofun, nofun, le_rfl, le_rfl, Nat.zero_le _⟩

theorem Chain.at_start (urls : List α) : Chain.At { urls } .waiting { urls } := by
  refine ⟨?_, rfl, rfl, nofun⟩
  rw [handlerAt, List.length_nil, Nat.zero_mod]
  rfl

/-- The next request goes to the URL whose turn it is. -/
theorem Chain.At.retry (hat : chain.At .waiting h) (hin : chain.InTurn)
    (hsmall : h.requestNum + 1 < 2 ^ 31) :
    ∃ url h', h.retry = some (url, h') ∧
      { chain with sent := chain.sent ++ [url] }.InTurn ∧
      { chain with sent := chain.sent ++ [url] }.At .requested h' := by
  obtain ⟨url, hurl⟩ := exists_url hin.nonempty chain.sent.length
  have hretry := retry_handlerAt hin.nonempty hurl
  rw [hat.handler] at hsmall
  rw [if_pos (show chain.sent.length + 1 < 2 ^ 31 from hsmall), ← hat.handler] at hretry
  have hcalls : chain.sent.length = chain.calls.length := hat.calls
  have hanswers : chain.sent.length = chain.answers.length := hat.answers
  rw [reach_of_le hin.few] at hurl
  refine ⟨url, _, hretry, ?_, ?_⟩
  · refine { hin with sent := ?_, called := ?_, calls_le := ?_, sent_le := ?_ }
    · intro k url' hk
      rcases getElem?_concat_eq_some_iff.mp hk with hk | ⟨rfl, rfl⟩
      · exact hin.sent k url' hk
      · exact hurl
    · intro k call hk
      obtain ⟨hsent, hnum⟩ := hin.called k call hk
      exact ⟨getElem?_concat_of_some hsent, hnum⟩
    · exact hin.calls_le.trans (by simp)
    · simp [hanswers]
  · refine ⟨?_, ?_, ?_, hat.asks⟩
    · rw [List.length_append]
      rfl
    · simp [hcalls, Stage.uncalled]
    · simp [hanswers, Stage.unanswered]

/-- The handler is called with the URL and the number of the request that has finished. -/
theorem Chain.At.call (hat : chain.At .requested h) (hin : chain.InTurn) (got : Hgot) :
    ∃ arguments, h.arguments = some arguments ∧
      { chain with calls := chain.calls ++ [(got, arguments)] }.InTurn ∧
      { chain with calls := chain.calls ++ [(got, arguments)] }.At .called h := by
  have hsent : chain.sent.length = chain.calls.length + 1 := hat.calls
  have hanswers : chain.sent.length = chain.answers.length + 1 := hat.answers
  obtain ⟨url, hurl⟩ : ∃ url, chain.sent[chain.calls.length]? = some url :=
    ⟨_, List.getElem?_eq_getElem (by omega)⟩
  have harguments : h.arguments = some (url, chain.calls.length + 1) := by
    rw [hat.handler, hsent, arguments_handlerAt hin.nonempty, told_of_le hin.nonempty hin.few]
    exact hin.sent _ _ hurl
  refine ⟨_, harguments, ?_, ?_⟩
  · refine { hin with called := ?_, answers_le := ?_, calls_le := ?_ }
    · intro k call hk
      rcases getElem?_concat_eq_some_iff.mp hk with hk | ⟨rfl, rfl⟩
      · exact hin.called k call hk
      · exact ⟨hurl, rfl⟩
    · exact hin.answers_le.trans (by simp)
    · simp [hsent]
  · refine ⟨hat.handler, ?_, hat.answers, hat.asks⟩
    simp [hsent, Stage.uncalled]

/-- The handler answers. -/
theorem Chain.At.answer (hat : chain.At .called h) (hin : chain.InTurn) (answer : RetryAfterSec) :
    { chain with answers := chain.answers ++ [answer] }.InTurn ∧
      (answer ≠ .other →
        { chain with answers := chain.answers ++ [answer] }.At .waiting h) := by
  have hsent : chain.sent.length = chain.calls.length := hat.calls
  have hanswers : chain.sent.length = chain.answers.length + 1 := hat.answers
  refine ⟨{ hin with asked := ?_, answers_le := ?_, sent_le := ?_ }, fun hother => ?_⟩
  · rw [List.dropLast_concat]
    exact hat.asks
  · simp [← hsent, hanswers]
  · simp [hanswers]
  · refine ⟨hat.handler, hat.calls, ?_, ?_⟩
    · simp [hanswers, Stage.unanswered]
    · rw [List.mem_append, List.mem_singleton, not_or]
      exact ⟨hat.asks, hother.symm⟩

end Chain

/-! ## All of them -/

/-- Every `goUntil` is in turn, and its function object is in one place, unless it has ended. -/
structure Turns (held : List (ℕ × Stage × HgetUntilHandler α)) (chains : ℕ → Chain α)
    (failed : List ℕ) (next : ℕ) : Prop where
  inTurn : ∀ c < next, (chains c).InTurn
  lt_held : ∀ e ∈ held, e.1 < next
  lt_failed : ∀ c ∈ failed, c < next
  at_held : ∀ e ∈ held, (chains e.1).At e.2.1 e.2.2
  once : ∀ c < next, (held.map Prod.fst).count c + failed.count c +
    (if .other ∈ (chains c).answers then 1 else 0) = 1

namespace Turns

variable {held held' : List (ℕ × Stage × HgetUntilHandler α)} {chains : ℕ → Chain α}
  {failed : List ℕ} {next c : ℕ} {stage : Stage} {h : HgetUntilHandler α}

theorem nil : Turns (α := α) [] (fun _ => {}) [] 0 :=
  ⟨nofun, nofun, nofun, nofun, nofun⟩

theorem perm (ht : Turns held chains failed next) (hp : held.Perm held') :
    Turns held' chains failed next where
  inTurn := ht.inTurn
  lt_held e he := ht.lt_held e (hp.mem_iff.mpr he)
  lt_failed := ht.lt_failed
  at_held e he := ht.at_held e (hp.mem_iff.mpr he)
  once c hc := by rw [← (hp.map Prod.fst).count_eq c, ht.once c hc]

/-- The function object is nowhere else. -/
theorem count_held (ht : Turns ((c, stage, h) :: held) chains failed next) :
    (held.map Prod.fst).count c = 0 ∧ failed.count c = 0 := by
  have honce := ht.once c (ht.lt_held _ List.mem_cons_self)
  rw [List.map_cons, List.count_cons_self] at honce
  omega

theorem ne_of_mem (ht : Turns ((c, stage, h) :: held) chains failed next)
    {e : ℕ × Stage × HgetUntilHandler α} (he : e ∈ held) : e.1 ≠ c := by
  rintro rfl
  exact List.count_eq_zero.mp ht.count_held.1 (List.mem_map_of_mem he)

/-- A new `goUntil`. -/
theorem start (ht : Turns held chains failed next) {urls : List α} (hne : urls ≠ [])
    (hfew : urls.length ≤ 256) :
    Turns ((next, .waiting, { urls }) :: held) (Function.update chains next { urls }) failed
      (next + 1) := by
  have hold : ∀ c < next, Function.update chains next { urls } c = chains c := fun c hc =>
    Function.update_of_ne hc.ne _ _
  have hnew : ∀ c < next + 1, c = next ∨ c < next := fun c hc => by omega
  refine ⟨fun c hc => ?_, fun e he => ?_, fun c hc => ?_, fun e he => ?_, fun c hc => ?_⟩
  · rcases hnew c hc with rfl | hc
    · rw [Function.update_self]
      exact Chain.inTurn_start hne hfew
    · rw [hold c hc]
      exact ht.inTurn c hc
  · rcases List.mem_cons.mp he with rfl | he
    · exact Nat.lt_succ_self _
    · exact (ht.lt_held e he).trans (Nat.lt_succ_self _)
  · exact (ht.lt_failed c hc).trans (Nat.lt_succ_self _)
  · rcases List.mem_cons.mp he with rfl | he
    · rw [Function.update_self]
      exact Chain.at_start urls
    · rw [hold _ (ht.lt_held e he)]
      exact ht.at_held e he
  · rw [List.map_cons]
    rcases hnew c hc with rfl | hc
    · -- nothing knows its number yet
      have hheld : (held.map Prod.fst).count c = 0 := List.count_eq_zero.mpr fun hmem => by
        obtain ⟨e, he, rfl⟩ := List.mem_map.mp hmem
        exact (ht.lt_held e he).false
      have hfailed : failed.count c = 0 :=
        List.count_eq_zero.mpr fun hmem => (ht.lt_failed c hmem).false
      rw [List.count_cons_self, hheld, hfailed, Function.update_self]
      rfl
    · rw [List.count_cons_of_ne hc.ne', hold c hc, ht.once c hc]

/-- What happens to one `goUntil`, whose function object goes somewhere else or is lost. -/
theorem change (ht : Turns ((c, stage, h) :: held) chains failed next) {chain : Chain α}
    (hin : chain.InTurn) {held' : List (ℕ × Stage × HgetUntilHandler α)} {failed' : List ℕ}
    (hheld : ∀ e ∈ held', e ∈ held ∨ e.1 = c ∧ chain.At e.2.1 e.2.2)
    (hfailed : ∀ i ∈ failed', i ∈ failed ∨ i = c)
    (hcount : ∀ i ≠ c, (held'.map Prod.fst).count i = (held.map Prod.fst).count i ∧
      failed'.count i = failed.count i)
    (honce : (held'.map Prod.fst).count c + failed'.count c +
      (if .other ∈ chain.answers then 1 else 0) = 1) :
    Turns held' (Function.update chains c chain) failed' next := by
  have hc : c < next := ht.lt_held _ List.mem_cons_self
  refine ⟨fun i hi => ?_, fun e he => ?_, fun i hi => ?_, fun e he => ?_, fun i hi => ?_⟩
  · by_cases heq : i = c
    · rw [heq, Function.update_self]
      exact hin
    · rw [Function.update_of_ne heq]
      exact ht.inTurn i hi
  · rcases hheld e he with he | ⟨heq, -⟩
    · exact ht.lt_held e (List.mem_cons_of_mem _ he)
    · exact heq ▸ hc
  · rcases hfailed i hi with hi | rfl
    · exact ht.lt_failed i hi
    · exact hc
  · rcases hheld e he with he | ⟨heq, hat⟩
    · rw [Function.update_of_ne (ht.ne_of_mem he)]
      exact ht.at_held e (List.mem_cons_of_mem _ he)
    · rw [heq, Function.update_self]
      exact hat
  · by_cases heq : i = c
    · rw [heq, Function.update_self, honce]
    · have hi' := ht.once i hi
      rw [List.map_cons, List.count_cons_of_ne (Ne.symm heq)] at hi'
      rw [Function.update_of_ne heq, (hcount i heq).1, (hcount i heq).2, hi']

/-- The function object goes somewhere else. -/
theorem move (ht : Turns ((c, stage, h) :: held) chains failed next) {chain : Chain α}
    (hin : chain.InTurn) {stage' : Stage} {h' : HgetUntilHandler α} (hat : chain.At stage' h') :
    Turns ((c, stage', h') :: held) (Function.update chains c chain) failed next := by
  refine ht.change hin (fun e he => ?_) (fun i hi => Or.inl hi) (fun i hi => ⟨?_, rfl⟩) ?_
  · rcases List.mem_cons.mp he with rfl | he
    · exact Or.inr ⟨rfl, hat⟩
    · exact Or.inl he
  · rw [List.map_cons, List.count_cons_of_ne (Ne.symm hi)]
  · rw [List.map_cons, List.count_cons_self, ht.count_held.1, ht.count_held.2, if_neg hat.asks]

/-- The handler has not asked for a retry. -/
theorem stop (ht : Turns ((c, stage, h) :: held) chains failed next) {chain : Chain α}
    (hin : chain.InTurn) (hother : .other ∈ chain.answers) :
    Turns held (Function.update chains c chain) failed next := by
  refine ht.change hin (fun e he => Or.inl he) (fun i hi => Or.inl hi) (fun i hi => ⟨rfl, rfl⟩) ?_
  rw [ht.count_held.1, ht.count_held.2, if_pos hother]

/-- A failure has ended the `goUntil`. -/
theorem fail (ht : Turns ((c, stage, h) :: held) chains failed next) {chain : Chain α}
    (hin : chain.InTurn) (hasks : .other ∉ chain.answers) :
    Turns held (Function.update chains c chain) (c :: failed) next := by
  refine ht.change hin (fun e he => Or.inl he) (fun i hi => ?_) (fun i hi => ⟨rfl, ?_⟩) ?_
  · exact (List.mem_cons.mp hi).symm
  · rw [List.count_cons_of_ne (Ne.symm hi)]
  · rw [List.count_cons_self, ht.count_held.1, ht.count_held.2, if_neg hasks]

theorem fail_self (ht : Turns ((c, stage, h) :: held) chains failed next) :
    Turns held chains (c :: failed) next := by
  have hfail := ht.fail (ht.inTurn c (ht.lt_held _ List.mem_cons_self))
    (ht.at_held _ List.mem_cons_self).asks
  rwa [Function.update_eq_self] at hfail

end Turns

/-! ## The steps -/

namespace Requests

variable {s s' : Requests α} {l : Label α} {id c : ℕ} {handler : Handler α}
  {h : HgetUntilHandler α} {K : List (ℕ × Stage × HgetUntilHandler α)}

/-- Nothing undefined has happened, and every `goUntil` is in turn. -/
structure InTurn (s : Requests α) : Prop where
  fault : s.fault = false
  turns : Turns s.held s.chains s.failed s.nextChain

/-- A retry makes a request with the function object of a timer or of a handler that has answered,
or fails. -/
theorem turns_retry (hf : s.fault = false)
    (ht : Turns ((c, .waiting, h) :: (K ++ s.away)) s.chains s.failed s.nextChain)
    (hsmall : h.requestNum + 1 < 2 ^ 31) (r : GoResult) :
    (s.retry c h r).fault = false ∧ Turns (K ++ (s.retry c h r).away) (s.retry c h r).chains
      (s.retry c h r).failed (s.retry c h r).nextChain := by
  have hat := ht.at_held _ List.mem_cons_self
  have hin := ht.inTurn c (ht.lt_held _ List.mem_cons_self)
  obtain ⟨url, h', hretry, hin', hat'⟩ := Chain.At.retry hat hin hsmall
  have hmade := (ht.move hin' hat').perm List.perm_middle.symm
  have hfailed := ht.fail hin' hat'.asks
  rw [Requests.retry, hretry]
  cases r with
  | made => exact ⟨hf, hmade⟩
  | addHeader => exact ⟨hf, hfailed⟩
  | requestBuilder raised => exact ⟨hf, hfailed⟩
  | makeRequest => exact ⟨hf, hfailed⟩

theorem turns_wait (hf : s.fault = false)
    (ht : Turns ((c, .waiting, h) :: s.away) s.chains s.failed s.nextChain) (once : Bool) :
    (s.wait c h once).fault = false ∧ Turns (s.wait c h once).away (s.wait c h once).chains
      (s.wait c h once).failed (s.wait c h once).nextChain := by
  rw [wait]
  split_ifs
  · exact ⟨hf, ht.perm List.perm_middle.symm⟩
  · exact ⟨hf, ht.fail_self⟩

/-- `hgetCB` ends. -/
theorem inTurn_finish (hf : s.fault = false)
    (ht : Turns s.away s.chains s.failed s.nextChain) (raised : Option Raised) :
    InTurn (s.finish raised id) := by
  rw [finish]
  split_ifs
  · exact ⟨hf, ht⟩
  · exact ⟨hf, ht⟩

theorem held_perm_of_lookup {L : List (ℕ × Handler α)} (hn : (L.map Prod.fst).Nodup)
    (hid : L.lookup id = some handler) (stage : Stage) :
    (L.flatMap fun e => e.2.held stage).Perm
      (handler.held stage ++ (L.filter (·.1 ≠ id)).flatMap fun e => e.2.held stage) :=
  (perm_of_lookup hn hid).flatMap_right _

theorem inTurn_go (hi : InTurn s) (r : GoResult) : InTurn (s.go .plain r) := by
  cases r with
  | made => exact ⟨hi.fault, hi.turns⟩
  | addHeader | requestBuilder _ | makeRequest => exact ⟨hi.fault, hi.turns⟩

theorem inTurn_goUntil (hi : InTurn s) {urls : List α} (hpos : 0 < urls.length)
    (hfew : urls.length ≤ 256) (r : GoResult) : InTurn (s.goUntil urls r) := by
  generalize hs₁ : { s with
    chains := Function.update s.chains s.nextChain { urls }
    nextChain := s.nextChain + 1 } = s₁
  have hstart : Turns ((s.nextChain, .waiting, { urls }) ::
      (s.current.flatMap (fun e => e.2.held .called) ++ s₁.away)) s₁.chains s₁.failed
      s₁.nextChain := by
    rw [← hs₁]
    exact hi.turns.start (List.length_pos_iff.mp hpos) hfew
  have hf : s₁.fault = false := by
    rw [← hs₁]
    exact hi.fault
  obtain ⟨hf', ht'⟩ := turns_retry hf hstart (show 0 + 1 < 2 ^ 31 by decide) r
  have hcurrent : (s₁.retry s.nextChain { urls } r).current = s.current := by
    rw [current, retry_point, ← hs₁]
    rfl
  rw [goUntil, hs₁]
  refine ⟨hf', ?_⟩
  rw [held, hcurrent]
  exact ht'

theorem inTurn_call (hi : InTurn s) (hn : (s.requests.map Prod.fst).Nodup)
    (hp : s.point = .idle) (hid : s.requests.lookup id = some handler) (req : Option ℤ) :
    InTurn (s.call id handler req) := by
  have hperm := held_perm_of_lookup hn hid .requested
  have hheld : s.held.Perm (handler.held .requested ++
      ((s.requests.filter (·.1 ≠ id)).flatMap (fun e => e.2.held .requested) ++
        s.timers.map fun e => (e.2.1, .waiting, e.2.2))) := by
    rw [held, away, current, hp]
    exact (hperm.append_right _).trans (.of_eq (List.append_assoc _ _ _))
  have ht := hi.turns.perm hheld
  cases handler with
  | plain => exact ⟨hi.fault, ht⟩
  | chain c h =>
    have hat := ht.at_held _ List.mem_cons_self
    have hin := ht.inTurn c (ht.lt_held _ List.mem_cons_self)
    obtain ⟨arguments, harguments, hin', hat'⟩ := Chain.At.call hat hin (Hgot.of req)
    rw [call, harguments]
    exact ⟨hi.fault, ht.move hin' hat'⟩

theorem inTurn_returns (hi : InTurn s) (hp : s.point = .calling id handler)
    {answer : Except Raised RetryAfterSec} {r : GoResult} {once : Bool}
    (hc : Contract (.returns answer r once) s) :
    InTurn (s.returns answer r once id handler) := by
  have hheld : s.held = handler.held .called ++ s.away := by
    rw [held, current, hp]
    simp [Point.current]
  have ht := hi.turns
  rw [hheld] at ht
  cases handler with
  | plain =>
    cases answer with
    | ok _ => exact inTurn_finish hi.fault ht none
    | error raised => exact inTurn_finish hi.fault ht (some raised)
  | chain c h =>
    have hsmall : h.requestNum + 1 < 2 ^ 31 := by
      refine hc (c, .called, h) ?_
      rw [hheld]
      exact List.mem_cons_self
    cases answer with
    | error raised =>
      have hf : { s with failed := c :: s.failed }.fault = false := hi.fault
      exact inTurn_finish hf ht.fail_self _
    | ok answer =>
      have hat := ht.at_held _ List.mem_cons_self
      have hin := ht.inTurn c (ht.lt_held _ List.mem_cons_self)
      obtain ⟨hin', hat'⟩ := Chain.At.answer hat hin answer
      have hf : (s.modify c fun chain => { chain with
        answers := chain.answers ++ [answer] }).fault = false := hi.fault
      cases answer with
      | zero =>
        obtain ⟨hf', ht'⟩ := turns_retry (K := []) hf (ht.move hin' (hat' (by simp))) hsmall r
        exact inTurn_finish hf' ht' r.raised
      | positive =>
        obtain ⟨hf', ht'⟩ := turns_wait hf (ht.move hin' (hat' (by simp))) once
        exact inTurn_finish hf' ht' none
      | other => exact inTurn_finish hf (ht.stop hin' (by simp)) none

theorem inTurn_fire (hi : InTurn s) (hn : (s.timers.map Prod.fst).Nodup) (hp : s.point = .idle)
    (hid : s.timers.lookup id = some (c, h)) {r : GoResult}
    (hc : Contract (.hgetUntilRetryCB id r) s) : InTurn (s.fire id c h r) := by
  have hperm := (perm_of_lookup hn hid).map
    fun e => ((e.2.1, .waiting, e.2.2) : ℕ × Stage × HgetUntilHandler α)
  have hheld : s.held.Perm ((c, .waiting, h) ::
      (s.requests.flatMap (fun e => e.2.held .requested) ++
        (s.timers.filter (·.1 ≠ id)).map fun e => (e.2.1, .waiting, e.2.2))) := by
    rw [held, away, current, hp]
    exact (hperm.append_left _).trans List.perm_middle
  have hsmall : h.requestNum + 1 < 2 ^ 31 :=
    hc (c, .waiting, h) (hheld.mem_iff.mpr List.mem_cons_self)
  generalize hs₁ : { s with
    timers := s.timers.filter (·.1 ≠ id)
    log := .detach (.fires id) :: s.log } = s₁
  have ht : Turns ((c, .waiting, h) :: ([] ++ s₁.away)) s₁.chains s₁.failed s₁.nextChain := by
    rw [← hs₁]
    exact hi.turns.perm hheld
  have hf : s₁.fault = false := by
    rw [← hs₁]
    exact hi.fault
  obtain ⟨hf', ht'⟩ := turns_retry hf ht hsmall r
  rw [fire, hs₁]
  refine ⟨hf', ?_⟩
  -- nothing is called when the timer has fired
  have hcurrent : ∀ point, point = Point.idle ∨ point = Point.escaped →
      (Point.current point : List (ℕ × Handler α)) = [] := by
    rintro _ (rfl | rfl) <;> rfl
  rw [held, current, hcurrent _ (by dsimp only; split_ifs <;> simp)]
  exact ht'

/-- **A step** keeps the `goUntil`s in turn, as long as the users adhere to the contract. -/
theorem turns_step (ha : Accounted s) (hi : InTurn s) (hc : Contract l s) (hx : Moves s l s') :
    InTurn s' := by
  have hids := (List.nodup_append.mp ha.ids).1
  cases hx with
  | go => exact inTurn_go hi _
  | goUntil => exact inTurn_goUntil hi hc.1 hc.2 _
  | hgetCB hp hid => exact inTurn_call hi (List.nodup_append.mp hids).1 hp hid _
  | returns hp => exact inTurn_returns hi hp hc
  | hgetUntilRetryCB hp hid => exact inTurn_fire hi (List.nodup_append.mp ha.timerIds).1 hp hid hc

/-! ## Every run -/

/-- **Every `goUntil` asks its URLs in turn**, in every run of any number of requests and `goUntil`s
under the contract: its handler is told the URL and the number of the request that has finished, and
has asked for a retry every time but perhaps the last. Its function object is in one place, unless
the handler has not asked for a retry or a failure has ended it. -/
theorem asked_in_turn (ls : List (Label α)) (s : Requests α) (hr : Steps step Contract {} ls s) :
    s.fault = false ∧ ∀ c < s.nextChain, (s.chains c).InTurn ∧
      (s.held.map Prod.fst).count c + s.failed.count c +
        (if .other ∈ (s.chains c).answers then 1 else 0) = 1 := by
  have hi : Accounted s ∧ InTurn s := hr.invariant
    (I := fun s => Accounted s ∧ InTurn s)
    (fun l s s' hi hc hx => ⟨accounted_step hi.1 (moves_of_step hx),
      turns_step hi.1 hi.2 hc (moves_of_step hx)⟩) ⟨Account.start, rfl, Turns.nil⟩
  exact ⟨hi.2.fault, fun c hc => ⟨hi.2.turns.inTurn c hc, hi.2.turns.once c hc⟩⟩

/-- A retry when a timer fires and one at once, and another `goUntil` meanwhile. -/
theorem asked_in_turn_retries :
    let ls : List (Label ℕ) := [.goUntil [80, 81] .made, .goUntil [90] .made, .hgetCB 0 none,
      .returns (.ok .positive) .made true, .hgetCB 1 (some 200), .returns (.ok .other) .made true,
      .hgetUntilRetryCB 2 .made, .hgetCB 3 (some 500), .returns (.ok .zero) .made true]
    ∃ s, Steps step Contract {} ls s ∧ (s.chains 0).sent = [80, 81, 80] ∧ s.fault = false ∧
      ∀ c < s.nextChain, (s.chains c).InTurn ∧
        (s.held.map Prod.fst).count c + s.failed.count c +
          (if .other ∈ (s.chains c).answers then 1 else 0) = 1 := by
  intro ls
  have hsent : (runGuarded step Contract ls {}).map (fun s => (s.chains 0).sent) =
      some [80, 81, 80] := by decide +kernel
  obtain ⟨s, hs, hsent⟩ := Option.map_eq_some_iff.mp hsent
  have hr := steps_of_runGuarded hs
  exact ⟨s, hr, hsent, asked_in_turn ls s hr⟩

end Requests

end Glim.Hget
