import Glim.Machine.Dynamic
import Glim.Text.Radix

/-!
# Exceptions with options

An exception takes the options of the thread when it is constructed, and makes its text from the
message, the place and these options: at once if it captures a trace, otherwise when it is first
asked for it. `ExceptionControl` and `ExceptionHandler` set the options, and the handler of thrown
exceptions, for a scope.

## Main definitions

* `Exception`, `Exception.make`, `Exception.what`: the class, its constructor and its text
* `Locals`, `ExceptionControl`, `ExceptionHandler`: the thread-local variables, and what sets them
* `cxaThrow`: what `__cxa_throw` does
* `Program`, `Program.exec`: programs with scopes, exceptions and their handlers
-/

namespace Glim

open Machine Text

/-- What a `const char*` is read as: the bytes before the first zero. -/
def cStr (s : List UInt8) : List UInt8 := s.takeWhile (· ≠ 0)

namespace Exception

/-! ## The options -/

def PLAIN_WHAT : UInt32 := 1
def HANDLE_ALL : UInt32 := (1 : UInt32) <<< 1
def CAPTURE_TRACE : UInt32 := (1 : UInt32) <<< 2
def RENDEZVOUS : UInt32 := (1 : UInt32) <<< 3

/-- `options & option`. -/
def has (options option : UInt32) : Bool := options &&& option ≠ 0

end Exception

/-- A `glim::Exception`: the message of its `std::runtime_error`, `_file`, `_line`, `_what` and
`_options`. -/
structure Exception where
  message : List UInt8
  file : Option (List UInt8) := none
  line : ℤ := -1
  buf : List UInt8 := []
  options : UInt32
  deriving DecidableEq, Repr

namespace Exception

/-- `appendLine (buf)`. -/
def appendLine (e : Exception) (buf : List UInt8) : List UInt8 :=
  if e.file ≠ none ∨ 0 < e.line then
    buf ++ (ascii "[" ++ e.file.getD [] ++
      (if 0 ≤ e.line then ascii ":" ++ signed e.line else []) ++ ascii "] ")
  else buf

/-- `captureBacktrace (&buf)`, with the result of `backtrace_symbols`. -/
def captureBacktrace (strings : List (List UInt8)) (buf : List UInt8) : List UInt8 :=
  buf ++ strings.flatMap fun string => cStr string ++ ascii ";"

/-- `capture ()`, after the `rendezvous`. -/
def capture (strings : List (List UInt8)) (e : Exception) : Exception :=
  if has e.options CAPTURE_TRACE then
    { e with
      buf := captureBacktrace strings (e.appendLine e.buf ++ ascii "[at ") ++ ascii "] " ++
        cStr e.message }
  else e

/-- `Exception (message, file, line)`. Without a file and a line, these are null and -1. -/
def make (message : List UInt8) (file : Option (List UInt8)) (line : ℤ) (options : UInt32)
    (strings : List (List UInt8)) : Exception :=
  capture strings ⟨message, file, line, [], options⟩

/-- `what ()`, after the `rendezvous`: the text, and the exception after that. -/
def what (e : Exception) : List UInt8 × Exception :=
  if has e.options PLAIN_WHAT then (cStr e.message, e)
  else
    let buf := if e.buf = [] then e.appendLine e.buf ++ cStr e.message else e.buf
    (cStr buf, { e with buf })

end Exception

/-! ## The thread-local variables -/

/-- `options ()`, `handler ()` and `handlerArg ()`. A handler is the number of a function. -/
structure Locals where
  options : UInt32 := 0
  handler : Option ℕ := none
  handlerArg : ℕ := 0
  deriving DecidableEq, Repr

/-- `ExceptionControl (newOptions)`. -/
def ExceptionControl.set (newOptions : UInt32) (l : Locals) : Locals :=
  { l with options := newOptions }

/-- `~ExceptionControl`, with what was saved. -/
def ExceptionControl.restore (saved l : Locals) : Locals := { l with options := saved.options }

/-- `ExceptionHandler (newOptions, handler, handlerArg)`. -/
def ExceptionHandler.set (newOptions : UInt32) (handler : Option ℕ) (handlerArg : ℕ)
    (_ : Locals) : Locals :=
  ⟨newOptions, handler, handlerArg⟩

/-- `~ExceptionHandler`, with what was saved. -/
def ExceptionHandler.restore (saved _ : Locals) : Locals := saved

namespace Exception

/-! ## Throwing -/

/-- What is thrown: a `glim::Exception`, or another `std::exception`. -/
inductive Object where
  | glim (e : Exception)
  | other (text : List UInt8)
  deriving DecidableEq, Repr

/-- What can be seen from outside. -/
inductive Event where
  /-- What a handler has printed of its exception. -/
  | shown (text : List UInt8)
  /-- `rendezvous ()`. -/
  | rendezvous
  /-- The exception handler `fn` was called with its argument. -/
  | handled (fn arg : ℕ)
  deriving DecidableEq, Repr

/-- The rest of the process: what is seen, newest first, the exceptions that are being handled,
the innermost first, and the state of the user. -/
structure World (σ ο : Type) where
  user : σ
  events : List Event := []
  caught : List ο := []

/-- The parts of the process that are not here: the frames of the stack, what the exception handlers
do, and whether the process has the special handler for all exceptions. -/
structure Host (σ : Type) where
  backtraceSymbols : σ → List (List UInt8)
  handle : ℕ → ℕ → σ → σ
  allExceptions : Bool

variable {σ ο : Type}

/-- `if (options & RENDEZVOUS) rendezvous ()`. -/
def rendezvous (options : UInt32) (w : World σ ο) : World σ ο :=
  if has options RENDEZVOUS then { w with events := .rendezvous :: w.events } else w

/-- `__cxa_throw`, up to the native one. -/
def cxaThrow (host : Host σ) (l : Locals) (w : World σ ο) : World σ ο :=
  if host.allExceptions then
    let w := rendezvous l.options w
    if has l.options HANDLE_ALL then
      match l.handler with
      | some fn => { w with
          user := host.handle fn l.handlerArg w.user
          events := .handled fn l.handlerArg :: w.events }
      | none => w
    else w
  else w

/-! ## Programs -/

/-- Programs of a thread. -/
inductive Program (σ : Type) where
  /-- Whatever has nothing to do with exceptions. -/
  | act (f : σ → σ)
  | seq (p q : Program σ)
  | ite (c : σ → Bool) (p q : Program σ)
  | loop (count : σ → ℕ) (p : Program σ)
  /-- `{ExceptionControl control (newOptions); p}` -/
  | control (newOptions : UInt32) (p : Program σ)
  /-- `{ExceptionHandler handler (newOptions, fn, arg); p}` -/
  | handler (newOptions : UInt32) (fn : Option ℕ) (arg : ℕ) (p : Program σ)
  /-- `throw glim::Exception (message, file, line)`, as `GTHROW` does. -/
  | gthrow (message : List UInt8) (file : Option (List UInt8)) (line : ℤ)
  /-- Throw another `std::exception`. -/
  | throwOther (text : List UInt8)
  /-- `try {p} catch (const std::exception& ex) {q}` -/
  | tryCatch (p q : Program σ)
  /-- Print `ex.what ()`. -/
  | what
  /-- `throw;` -/
  | rethrow

/-- Print the text of the exception that is being handled. -/
def showWhat (w : World σ Object) : World σ Object :=
  match w.caught with
  | [] => w
  | .glim e :: caught =>
    let w := rendezvous e.options w
    { w with events := .shown e.what.1 :: w.events, caught := .glim e.what.2 :: caught }
  | .other text :: _ => { w with events := .shown (cStr text) :: w.events }

/-- The constructor of an exception, and `__cxa_throw`. -/
def throwGlim (host : Host σ) (message : List UInt8) (file : Option (List UInt8)) (line : ℤ)
    (l : Locals) (w : World σ Object) : Object × World σ Object :=
  let w := rendezvous l.options w
  let e := make message file line l.options (host.backtraceSymbols w.user)
  (.glim e, cxaThrow host l w)

/-- An exception is handled. -/
def World.push (o : ο) (w : World σ ο) : World σ ο := { w with caught := o :: w.caught }

/-- The handler of the innermost exception has ended. -/
def World.pop (w : World σ ο) : World σ ο := { w with caught := w.caught.tail }

/-- Executing a program. -/
def Program.exec (host : Host σ) : Program σ → Dynamic Locals (World σ Object) Object
  | act f => .act fun _ w => { w with user := f w.user }
  | seq p q => (p.exec host).seq (q.exec host)
  | ite c p q => .ite (fun w => c w.user) (p.exec host) (q.exec host)
  | loop count p => .loop (fun w => count w.user) (p.exec host)
  | control newOptions p =>
    .scope (ExceptionControl.set newOptions) ExceptionControl.restore (p.exec host)
  | handler newOptions fn arg p =>
    .scope (ExceptionHandler.set newOptions fn arg) ExceptionHandler.restore (p.exec host)
  | gthrow message file line => .throwing (throwGlim host message file line)
  | throwOther text => .throwing fun l w => (.other text, cxaThrow host l w)
  | tryCatch p q => .catching World.push World.pop (p.exec host) (q.exec host)
  | what => .act fun _ => showWhat
  | rethrow => .rethrow fun w => w.caught.head?

end Exception

end Glim
