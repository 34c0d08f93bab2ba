/-
  Moo-code console — running a program for someone.

  A session runs a machine in slices.  It writes what the run prints, asks for a
  line when the run waits for input, and stops when the run does or when it is
  interrupted.  The output is flushed before a line is asked for and before the
  session stops, so that nothing printed is lost; a failure to write is reported
  in place of anything else.

  * `Session.turn`: one slice and what it leads to (`Turn`).
  * `Session.interrupt`: the stop asked for by the interrupt key.
  * `Port`: what a session reaches outside, and `Session.stepIn port`: a turn that
    does.  It is the same step that runs on a terminal and on a given input.
  * `Session.run signal fuel`: turn after turn on a given standard input; `signal`
    says when the interrupt key is noticed.
-/
import MooCode.Console.FileTree
import MooCode.Console.Lines
import MooCode.Console.Log
import MooCode.Console.Output

namespace MooCode.Console

/-- How a session stops. -/
inductive Exit where
  /-- The run came to its end. -/
  | finished
  /-- The session was interrupted with the cursor in the line `line`. -/
  | interrupted (line : Nat)
  /-- Something went wrong. -/
  | failed (fault : Fault)
  deriving DecidableEq

/-- The exit status of a command that stopped in this way. -/
def Exit.status : Exit → Nat
  | finished => 0
  | interrupted _ => 130
  | failed _ => 1

/-- What is said about the way a command stopped. -/
def Exit.notice (style : Style) : Exit → String
  | finished => ""
  | interrupted line => style.boldLine ("BREAK IN " ++ Text.Numeral.text line)
  | failed fault => style.boldLine ("?" ++ fault.message)

/-- The fault of surroundings that failed with the text `message`. -/
def surroundings (message : String) : Fault where
  cause := .internalError
  detail := message

/-- The fault of an output that cannot be written. -/
def unwritable : Fault :=
  surroundings SystemError.noSpace.message

/-- The fault of a line of input that is no text. -/
def unreadable : Fault :=
  surroundings "stream did not contain valid UTF-8"

/-- A program being run for someone. -/
structure Session where
  /-- The machine that runs it. -/
  machine : Machine
  /-- Where it prints to. -/
  output : Output
  /-- How much is logged. -/
  verbosity : Nat
  /-- What has been logged. -/
  log : Array Record
  deriving DecidableEq

/-- What a turn leads to. -/
inductive Turn where
  /-- Another turn. -/
  | again
  /-- A line of input, then another turn. -/
  | wantsLine
  /-- The end of the session. -/
  | stop (exit : Exit)
  deriving DecidableEq

/-- How the session stops, if the turn leads to its end. -/
def Turn.exit? : Turn → Option Exit
  | stop exit => some exit
  | _ => none

/-- The number of cycles in a turn. -/
def turnCycles : Nat := 5000

namespace Session

/-- What shows of the log. -/
def shown (style : Style) (s : Session) : String :=
  style.written s.verbosity s.log.toList

/-- The session with what follows if its output is flushed. -/
def flushed (s : Session) (next : Turn) : Session × Turn :=
  match s with
  | ⟨machine, output, verbosity, log⟩ =>
    match output.flush with
    | (output, true) => (⟨machine, output, verbosity, log⟩, next)
    | (output, false) => (⟨machine, output, verbosity, log⟩, .stop (.failed unwritable))

/-- The session after the run printed `text`. -/
def print (s : Session) (text : String) : Session × Turn :=
  match s with
  | ⟨machine, output, verbosity, log⟩ =>
    match output.write (Text.Utf8.encode text.toList) with
    | (output, true) => (⟨machine, output, verbosity, log⟩, .again)
    | (output, false) => (⟨machine, output, verbosity, log⟩, .stop (.failed unwritable))

/-- What shows of a slice that leads to the event, where no details do: that a run
    is given up. -/
def givenUp : Event → List Entry
  | .failed f => [.aborted f]
  | _ => []

/-- What is logged of a turn of the machine `m` that leads to the event `e`. -/
def journal (verbosity : Nat) (m : Machine) (e : Event) : List Entry :=
  if Level.debug.shownAt verbosity then m.journal turnCycles else givenUp e

/-- What an event leads to. -/
def follow (s : Session) : Event → Session × Turn
  | .running => (s, .again)
  | .print text => s.print text
  | .input _ => s.flushed .wantsLine
  | .failed f => s.flushed (.stop (.failed f))
  | .ended | .stopped => s.flushed (.stop .finished)

/-- One turn: a slice of the run and what it leads to. -/
def turn : Session → Session × Turn
  | ⟨machine, output, verbosity, log⟩ =>
    let after := machine.execute turnCycles
    let records := (journal verbosity machine after.2).map Record.ofEntry
    follow ⟨after.1, output, verbosity, log ++ records⟩ after.2

/-- The session stopped by the interrupt key. -/
def interrupt (s : Session) : Session × Turn :=
  s.flushed (.stop (.interrupted s.machine.program.cursor))

/-- The line `text` entered. -/
def enter (s : Session) (text : String) : Session :=
  { s with machine := s.machine.enter text }

/-- No more input comes. -/
def closeInput (s : Session) : Session :=
  { s with machine := s.machine.closeInput }

/-- What becomes of a session that wanted a line. -/
def supplied (s : Session) : Supply → Session × Turn
  | .line text => (s.enter text, .again)
  | .nothing => (s.closeInput, .again)
  | .malformed => (s, .stop (.failed unreadable))

end Session

/-- What a session reaches outside. -/
structure Port (m : Type → Type) where
  /-- What the session has passed on and logged is sent out. -/
  drain : Session → m Session
  /-- The next line of standard input. -/
  next : m Supply

/-- A standard input that is given, and an outside that sends nothing out before
    the session stops. -/
def Port.given : Port (StateM (List UInt8)) where
  drain := pure
  next := Supply.next

/-- A turn: the session after it, and how the session stops if it does. -/
def Session.stepIn {m : Type → Type} [Monad m] (port : Port m) (s : Session) (interrupted : Bool) :
    m (Session × Option Exit) := do
  let (s, turn) := if interrupted then s.interrupt else s.turn
  let s ← port.drain s
  match turn with
  | .wantsLine =>
    let (s, turn) := s.supplied (← port.next)
    return (s, turn.exit?)
  | turn => return (s, turn.exit?)

/-- A turn with the standard input `stdin`: the session after it, the input that
    is left, and how the session stops if it does. -/
def Session.step (s : Session) (interrupted : Bool) (stdin : List UInt8) :
    Session × List UInt8 × Option Exit :=
  let ((s, exit?), stdin) := s.stepIn .given interrupted stdin
  (s, stdin, exit?)

/-- Whether the interrupt key is noticed before a turn, given the number of turns
    and of bytes that have come out before it. -/
abbrev Signal := (turns bytes : Nat) → Bool

/-- At most `fuel` turns, of which `turns` have been before: the session when it
    stops, and how, unless it goes on for longer. -/
def Session.run (signal : Signal) :
    (fuel turns : Nat) → Session → (stdin : List UInt8) → Option (Session × Exit)
  | 0, _, _, _ => none
  | fuel + 1, turns, s, stdin =>
    match s.step (signal turns s.output.sink.received.size) stdin with
    | (s, _, some exit) => some (s, exit)
    | (s, stdin, none) => Session.run signal fuel (turns + 1) s stdin

end MooCode.Console
