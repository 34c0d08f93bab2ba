/-
  Moo-code console — the command as a program.

  Everything is decided elsewhere; here arguments, files, the three streams and the
  interrupt are joined to it.  `main` returns the exit status.
-/
import MooCode.Console.Command

namespace MooCode.Console

/-- The text of an error that the system reports. -/
def systemMessage : IO.Error → String
  | .noFileOrDirectory .. => SystemError.notFound.message
  | .inappropriateType _ code details | .resourceExhausted _ code details =>
    details ++ " (os error " ++ Text.Numeral.text code.toNat ++ ")"
  | e => toString e

/-- The fault of a stream that failed. -/
def broken (e : IO.Error) : Fault :=
  surroundings (systemMessage e)

/-- An action whose failure is the fault that `fault` makes of it. -/
def guarded {α : Type} (fault : IO.Error → Fault) (action : IO α) : ExceptT Fault IO α :=
  ExceptT.mk do
    try return .ok (← action)
    catch e => return .error (fault e)

/-- The text of the source file `path`. -/
def loadFile (path : String) : ExceptT Fault IO String := do
  let content ← guarded
    (fun
      | .noFileOrDirectory .. => unloadable path .notFound
      | e => surroundings (path ++ ": " ++ systemMessage e))
    (do (← IO.FS.Handle.mk path .read).readBinToEnd)
  return String.ofList (Text.Utf8.decodeLossy content.toList)

/-- Where the output goes, and the buffer before it. -/
def openStream : Option String → ExceptT Fault IO (IO.FS.Stream × Output)
  | none => return (← IO.getStdout, .empty .line none)
  | some path => do
    let handle ← guarded (fun e => surroundings (path ++ ": " ++ systemMessage e))
      (IO.FS.Handle.mk path .write)
    return (.ofHandle handle, .empty .block none)

/-- What a session has passed on and logged is sent out. -/
def sendOut (style : Style) (out : IO.FS.Stream) (s : Session) : ExceptT Fault IO Session := do
  IO.eprint (s.shown style)
  let received := s.output.sink.received
  unless received.isEmpty do
    guarded broken do
      out.write ⟨received⟩
      out.flush
  return { s with log := #[], output := { s.output with sink := .empty none } }

/-- The bytes of standard input up to the next newline, after the bytes `bs`. -/
partial def readLine (stdin : IO.FS.Stream) (bs : Array UInt8) : IO (Array UInt8) := do
  let b ← stdin.read 1
  if b.isEmpty then return bs
  let bs := bs ++ b.data
  if bs.back? = some 0x0A then return bs else readLine stdin bs

/-- The next line of standard input. -/
def nextSupply : ExceptT Fault IO Supply :=
  guarded broken do
    return (Supply.next (← readLine (← IO.getStdin) #[]).toList).1

/-- Standard input, and the stream `out` for the output. -/
def Port.streams (style : Style) (out : IO.FS.Stream) : Port (ExceptT Fault IO) where
  drain := sendOut style out
  next := nextSupply

/-- Turn after turn, until the session stops.  Before each of them `interrupted` says
    whether the interrupt has been asked for. -/
partial def pump (port : Port (ExceptT Fault IO)) (interrupted : IO Bool) (s : Session) :
    ExceptT Fault IO Exit := do
  match ← s.stepIn port (← interrupted) with
  | (_, some exit) => return exit
  | (s, none) => pump port interrupted s

/-- What the options ask for. -/
def Options.perform (style : Style) (interrupted : IO Bool) (o : Options) :
    ExceptT Fault IO Exit := do
  match ← o.prepare loadFile openStream with
  | .inl listing =>
    IO.print listing
    return .finished
  | .inr (out, s) => pump (.streams style out) interrupted s

/-- The command with the arguments `args`, and its exit status. -/
def command (style : Style) (interrupted : IO Bool) (args : List String) : IO UInt32 := do
  match Invocation.ofArguments args with
  | .help => IO.print helpText; return 0
  | .version => IO.print versionText; return 0
  | .mistaken => IO.eprint usageLine; return 2
  | .run o =>
    let exit ← match ← (o.perform style interrupted).run with
      | .ok exit => pure exit
      | .error f => pure (.failed f)
    IO.eprint (exit.notice style)
    return UInt32.ofNat exit.status

end MooCode.Console

/-- The command, which is interrupted when its task is cancelled. -/
def main (args : List String) : IO UInt32 :=
  MooCode.Console.command .plain IO.checkCanceled args
