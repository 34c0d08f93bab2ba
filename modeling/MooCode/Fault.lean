/-
  Moo-code — what can go wrong.

  A fault has a cause, the line of the program it arose in if there is one, and
  a detail that is empty if there is nothing to add.

  * `Cause`: the twelve causes, each with a number (`Cause.code`) and a headline.
  * `Fault.message f`: the text shown for a fault.
-/
import MooCode.Text.Numeral

namespace MooCode

/-- Why something went wrong. -/
inductive Cause where
  /-- A tape was asked for that has no cells. -/
  | invalidCapacity
  /-- The machine was asked to start or to reset during a run. -/
  | alreadyRunning
  /-- The pointer was moved off the tape. -/
  | outOfBounds
  /-- A return has no marker before it. -/
  | noMarker
  /-- A marker has no return to skip past. -/
  | unterminatedMarker
  /-- An execute instruction found its own code. -/
  | selfReference
  /-- A cell would leave its range. -/
  | overflow
  /-- A cell that is no character was printed as one. -/
  | illegalCharacter
  /-- A read found that no more input comes. -/
  | inputPastEnd
  /-- A line of input is no integer, or none that a cell can hold. -/
  | illegalInput
  /-- The surroundings failed. -/
  | internalError
  /-- There is no such source file. -/
  | fileNotFound
  deriving DecidableEq

/-- The number of a cause. -/
def Cause.code : Cause → Nat
  | invalidCapacity => 1
  | alreadyRunning => 2
  | outOfBounds => 3
  | noMarker => 4
  | unterminatedMarker => 5
  | selfReference => 6
  | overflow => 7
  | illegalCharacter => 8
  | inputPastEnd => 9
  | illegalInput => 10
  | internalError => 51
  | fileNotFound => 53

/-- The headline of a cause. -/
def Cause.headline : Cause → String
  | invalidCapacity => "INVALID TAPE CAPACITY"
  | alreadyRunning => "ALREADY RUNNING"
  | outOfBounds => "POINTER OUT OF BOUNDS"
  | noMarker => "NO MARKER TO RETURN TO"
  | unterminatedMarker => "MARKER WITHOUT RETURN"
  | selfReference => "SELF-REFERENCING EXECUTE"
  | overflow => "OVERFLOW"
  | illegalCharacter => "ILLEGAL CHARACTER"
  | inputPastEnd => "INPUT PAST END"
  | illegalInput => "ILLEGAL INPUT"
  | internalError => "INTERNAL ERROR"
  | fileNotFound => "FILE NOT FOUND"

/-- Something that went wrong. -/
structure Fault where
  /-- Why. -/
  cause : Cause
  /-- The line of the program it arose in. -/
  line : Option Nat := none
  /-- What there is to add; empty for nothing. -/
  detail : String := ""
  deriving DecidableEq

namespace Fault

/-- The same fault, placed in a line of the program. -/
def inLine (f : Fault) (line : Nat) : Fault :=
  { f with line := some line }

/-- The place of a fault, as it follows the headline. -/
def place (f : Fault) : String :=
  match f.line with
  | some line => " IN " ++ Text.Numeral.text line
  | none => ""

/-- The detail of a fault, as it ends the message. -/
def addendum (f : Fault) : String :=
  if f.detail = "" then "" else "; " ++ f.detail

/-- The text shown for a fault: its headline, its place and its detail. -/
def message (f : Fault) : String :=
  f.cause.headline ++ f.place ++ f.addendum

end Fault

end MooCode
