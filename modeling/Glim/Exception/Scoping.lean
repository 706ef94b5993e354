import Glim.Exception.Basic
import Mathlib.Data.List.TakeWhile

/-!
# Options as an environment

The options and the handler of a thread are what the innermost scope around has set. A program with
`ExceptionControl` and `ExceptionHandler` does what one does that has no variables: it is given the
options, passes other ones on to its scopes, and an exception has a text from when it is thrown.

## Main definitions

* `Exception.textOf`: the text of an exception
* `Program.meaning`: a program that is given the options

## Main results

* `Exception.what_make`, `Exception.what_what`: what `what` returns, every time
* `exec_agrees`: a program, and what it is to do
-/

namespace Glim.Exception

open Machine Text

variable {σ : Type}

/-! ## The text of an exception -/

/-- The file and the line, as far as they are known. -/
def place (file : Option (List UInt8)) (line : ℤ) : List UInt8 :=
  if file ≠ none ∨ 0 < line then
    ascii "[" ++ file.getD [] ++ (if 0 ≤ line then ascii ":" ++ signed line else []) ++ ascii "] "
  else []

/-- The text of an exception that is thrown with these options. -/
def textOf (message : List UInt8) (file : Option (List UInt8)) (line : ℤ) (options : UInt32)
    (strings : List (List UInt8)) : List UInt8 :=
  cStr <|
    if has options PLAIN_WHAT then message
    else
      place file line ++ (if has options CAPTURE_TRACE then
        ascii "[at " ++ captureBacktrace strings [] ++ ascii "] " else []) ++ message

theorem appendLine_eq (e : Exception) (buf : List UInt8) :
    e.appendLine buf = buf ++ place e.file e.line := by
  rw [appendLine, place]
  by_cases h : e.file ≠ none ∨ 0 < e.line
  · rw [if_pos h, if_pos h]
  · rw [if_neg h, if_neg h, List.append_nil]

theorem captureBacktrace_eq (strings : List (List UInt8)) (buf : List UInt8) :
    captureBacktrace strings buf = buf ++ captureBacktrace strings [] := by
  rw [captureBacktrace, captureBacktrace, List.nil_append]

theorem cStr_cons (b : UInt8) (s : List UInt8) :
    cStr (b :: s) = if b = 0 then [] else b :: cStr s := by
  by_cases hb : b = 0
  · rw [if_pos hb, cStr, List.takeWhile_cons_of_neg (by simp [hb])]
  · rw [if_neg hb, cStr, List.takeWhile_cons_of_pos (by simp [hb]), cStr]

/-- A text is cut at its first zero, wherever it was put together. -/
theorem cStr_append_cStr (s t : List UInt8) : cStr (s ++ cStr t) = cStr (s ++ t) := by
  induction s with
  | nil =>
    exact List.takeWhile_eq_self_iff.mpr fun b hb =>
      List.mem_takeWhile_imp (p := fun b => decide (b ≠ 0)) hb
  | cons b s ih => rw [List.cons_append, List.cons_append, cStr_cons, cStr_cons, ih]

section What

variable {e : Exception}

theorem what_of_plain (h : has e.options PLAIN_WHAT = true) : e.what = (cStr e.message, e) :=
  if_pos h

theorem what_of_buf (h : ¬ has e.options PLAIN_WHAT = true) (hbuf : e.buf ≠ []) :
    e.what = (cStr e.buf, e) := by
  rw [what, if_neg h, if_neg hbuf]

theorem what_of_nil (h : ¬ has e.options PLAIN_WHAT = true) (hbuf : e.buf = []) :
    e.what = (cStr (place e.file e.line ++ cStr e.message),
      { e with buf := place e.file e.line ++ cStr e.message }) := by
  rw [what, if_neg h, if_pos hbuf, appendLine_eq, hbuf, List.nil_append]

/-- The text is made at the first call, and stays. -/
theorem what_what (e : Exception) : e.what.2.what = e.what := by
  by_cases hplain : has e.options PLAIN_WHAT = true
  · rw [what_of_plain hplain, what_of_plain hplain]
  · by_cases hbuf : e.buf = []
    · rw [what_of_nil hplain hbuf]
      by_cases hmade : place e.file e.line ++ cStr e.message = []
      · exact what_of_nil hplain hmade
      · exact what_of_buf hplain hmade
    · rw [what_of_buf hplain hbuf, what_of_buf hplain hbuf]

end What

theorem options_what (e : Exception) : e.what.2.options = e.options := by
  rw [what]
  split_ifs <;> rfl

/-- Whatever captures the trace, and whenever `what` is called. -/
theorem what_make (message : List UInt8) (file : Option (List UInt8)) (line : ℤ)
    (options : UInt32) (strings : List (List UInt8)) :
    (make message file line options strings).what.1 =
      textOf message file line options strings := by
  rw [make, capture, textOf]
  by_cases htrace : has options CAPTURE_TRACE = true
  · rw [if_pos htrace, if_pos htrace]
    by_cases hplain : has options PLAIN_WHAT = true
    · rw [what_of_plain hplain, if_pos hplain]
    · rw [what_of_buf hplain (by simp [ascii]), if_neg hplain]
      have hcut := cStr_append_cStr
        (place file line ++ (ascii "[at " ++ captureBacktrace strings [] ++ ascii "] ")) message
      simpa only [appendLine_eq, List.nil_append, captureBacktrace_eq strings (_ ++ _),
        List.append_assoc] using hcut
  · rw [if_neg htrace, if_neg htrace]
    by_cases hplain : has options PLAIN_WHAT = true
    · rw [what_of_plain hplain, if_pos hplain]
    · rw [what_of_nil hplain rfl, if_neg hplain, List.append_nil]
      exact cStr_append_cStr _ _

theorem options_make (message : List UInt8) (file : Option (List UInt8)) (line : ℤ)
    (options : UInt32) (strings : List (List UInt8)) :
    (make message file line options strings).options = options := by
  rw [make, capture]
  split_ifs <;> rfl

/-! ## What programs are to do -/

/-- An exception: its text, and whether there is a rendezvous when it is asked for it. -/
structure Message where
  text : List UInt8
  rendezvous : Bool := false
  deriving DecidableEq, Repr

/-- The exception is thrown. -/
def throwMessage (host : Host σ) (message : List UInt8) (file : Option (List UInt8)) (line : ℤ)
    (l : Locals) (w : World σ Message) : Message × World σ Message :=
  let w := rendezvous l.options w
  (⟨textOf message file line l.options (host.backtraceSymbols w.user), has l.options RENDEZVOUS⟩,
    cxaThrow host l w)

/-- Its text is shown. -/
def showMessage (w : World σ Message) : World σ Message :=
  match w.caught with
  | [] => w
  | m :: _ => { w with
      events := .shown m.text :: (if m.rendezvous then .rendezvous :: w.events else w.events) }

/-- What a program does, if it is given the options. -/
def Program.meaning (host : Host σ) : Program σ → Environment Locals (World σ Message) Message
  | act f => .act fun _ w => { w with user := f w.user }
  | seq p q => (p.meaning host).seq (q.meaning host)
  | ite c p q => .ite (fun w => c w.user) (p.meaning host) (q.meaning host)
  | loop count p => .loop (fun w => count w.user) (p.meaning host)
  | control newOptions p => .scope (ExceptionControl.set newOptions) (p.meaning host)
  | handler newOptions fn arg p => .scope (ExceptionHandler.set newOptions fn arg) (p.meaning host)
  | gthrow message file line => .throwing (throwMessage host message file line)
  | throwOther text => .throwing fun l w => (⟨cStr text, false⟩, cxaThrow host l w)
  | tryCatch p q => .catching World.push World.pop (p.meaning host) (q.meaning host)
  | what => .act fun _ => showMessage
  | rethrow => .rethrow fun w => w.caught.head?

/-! ## Programs do what they are to do -/

/-- The exception has the text. -/
def Object.Means : Object → Message → Prop
  | .glim e, m => e.what.1 = m.text ∧ has e.options RENDEZVOUS = m.rendezvous
  | .other text, m => cStr text = m.text ∧ m.rendezvous = false

/-- The worlds differ in the exceptions that are being handled only. -/
structure World.Rel (w : World σ Object) (w' : World σ Message) : Prop where
  user : w.user = w'.user
  events : w.events = w'.events
  caught : List.Forall₂ Object.Means w.caught w'.caught

section Rel

variable {host : Host σ} {l : Locals} {w : World σ Object} {w' : World σ Message}

theorem World.Rel.rendezvous (h : w.Rel w') (options : UInt32) :
    (Exception.rendezvous options w).Rel (Exception.rendezvous options w') := by
  rw [Exception.rendezvous, Exception.rendezvous]
  split_ifs
  · exact ⟨h.user, congrArg _ h.events, h.caught⟩
  · exact h

theorem World.Rel.cxaThrow (h : w.Rel w') :
    (Exception.cxaThrow host l w).Rel (Exception.cxaThrow host l w') := by
  have hr := h.rendezvous l.options
  rw [Exception.cxaThrow, Exception.cxaThrow]
  split_ifs
  · cases l.handler with
    | none => exact hr
    | some fn => exact ⟨congrArg _ hr.user, congrArg _ hr.events, hr.caught⟩
  · exact hr
  · exact h

theorem World.Rel.throwGlim (h : w.Rel w') (message : List UInt8) (file : Option (List UInt8))
    (line : ℤ) :
    (throwGlim host message file line l w).1.Means (throwMessage host message file line l w').1 ∧
      (Exception.throwGlim host message file line l w).2.Rel
        (throwMessage host message file line l w').2 := by
  have hr := h.rendezvous l.options
  refine ⟨⟨?_, congrArg (has · RENDEZVOUS) (options_make _ _ _ _ _)⟩, hr.cxaThrow⟩
  rw [what_make, hr.user]
  rfl

/-- The text stays the same when it is shown, however often. -/
theorem World.Rel.showWhat (h : w.Rel w') : (showWhat w).Rel (showMessage w') := by
  rw [Exception.showWhat, showMessage]
  obtain ⟨huser, hevents, hcaught⟩ := h
  rcases hw : w.caught with _ | ⟨o, caught⟩ <;> rcases hw' : w'.caught with _ | ⟨m, caught'⟩ <;>
    rw [hw, hw'] at hcaught <;> cases hcaught
  case nil.nil.nil => exact ⟨huser, hevents, by rw [hw, hw']; exact .nil⟩
  case cons.cons.cons hmeans hcaught =>
    cases o with
    | glim e =>
      obtain ⟨htext, hrendezvous⟩ := hmeans
      dsimp only
      have hshown : (Object.glim e.what.2).Means m :=
        ⟨by rw [what_what, htext], by rw [options_what, hrendezvous]⟩
      refine ⟨?_, ?_, ?_⟩
      · rw [Exception.rendezvous]
        split_ifs <;> exact huser
      · rw [Exception.rendezvous, hrendezvous, htext, ← hevents]
        split_ifs <;> rfl
      · exact .cons hshown hcaught
    | other text =>
      obtain ⟨htext, hrendezvous⟩ := hmeans
      refine ⟨huser, by simp [htext, hrendezvous, hevents], ?_⟩
      exact .cons ⟨htext, hrendezvous⟩ hcaught

end Rel

section Caught

variable {os : List Object} {ms : List Message}

theorem forall₂_tail (h : List.Forall₂ Object.Means os ms) :
    List.Forall₂ Object.Means os.tail ms.tail := by
  cases h with
  | nil => exact .nil
  | cons _ h => exact h

theorem rel_head? (h : List.Forall₂ Object.Means os ms) :
    Option.Rel Object.Means os.head? ms.head? := by
  cases h with
  | nil => exact .none
  | cons h _ => exact .some h

end Caught

/-- A program does what it is to do, from related worlds. -/
theorem agrees_exec (host : Host σ) (p : Program σ) :
    Agrees World.Rel Object.Means (p.exec host) (p.meaning host) := by
  induction p with
  | act f => exact .act fun l w w' h => ⟨congrArg f h.user, h.events, h.caught⟩
  | seq p q ihp ihq => exact ihp.seq ihq
  | ite c p q ihp ihq => exact .ite (fun w w' h => congrArg c h.user) ihp ihq
  | loop count p ih => exact .loop (fun w w' h => congrArg count h.user) ih
  | control newOptions p ih => exact .scope (fun l => rfl) ih
  | handler newOptions fn arg p ih => exact .scope (fun l => rfl) ih
  | gthrow message file line =>
    exact .throwing fun l w w' h => h.throwGlim message file line
  | throwOther text => exact .throwing fun l w w' h => ⟨⟨rfl, rfl⟩, h.cxaThrow⟩
  | tryCatch p q ihp ihq =>
    apply Agrees.catching _ _ ihp ihq
    · exact fun o m w w' ho h => ⟨h.user, h.events, .cons ho h.caught⟩
    · refine fun w w' h => ⟨h.user, h.events, ?_⟩
      rw [World.pop, World.pop]
      exact forall₂_tail h.caught
  | what => exact .act fun l w w' h => h.showWhat
  | rethrow =>
    apply Agrees.rethrow
    exact fun w w' h => rel_head? h.caught

/-- **The options of an exception are those of the innermost scope around its throw**, whatever was
thrown and caught before: a program shows, and hands to its exception handlers, what it does if it
is given the options and its exceptions have a text from the beginning. It ends as that one, with
the same state of the user, and with the variables as it has found them, unless it is terminated. -/
theorem exec_eq_meaning (host : Host σ) (p : Program σ) (l : Locals) (s : σ) :
    (p.exec host l ⟨s, [], []⟩).2.2.events = (p.meaning host l ⟨s, [], []⟩).2.events ∧
      (p.exec host l ⟨s, [], []⟩).2.2.user = (p.meaning host l ⟨s, [], []⟩).2.user ∧
      Leaving.Rel Object.Means (p.exec host l ⟨s, [], []⟩).1 (p.meaning host l ⟨s, [], []⟩).1 ∧
      ((p.exec host l ⟨s, [], []⟩).1 ≠ .terminated → (p.exec host l ⟨s, [], []⟩).2.1 = l) := by
  obtain ⟨hleaving, hrel, hlocals⟩ := agrees_exec host p l ⟨s, [], []⟩ ⟨s, [], []⟩ ⟨rfl, rfl, .nil⟩
  exact ⟨hrel.events, hrel.user, hleaving, hlocals⟩

end Glim.Exception
