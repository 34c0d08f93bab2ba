/-
  Moo-code — names and summaries, for those who look inside.

  * `Instruction.name`, `Cause.name`: one word for an instruction or a cause.
  * `Fault.summary`, `Tape.summary`, `Program.summary`: one line each.
-/
import MooCode.Program
import MooCode.Tape

namespace MooCode

/-- One word for an instruction. -/
def Instruction.name : Instruction → String
  | jumpBack => "GotoPreviousMoo"
  | left => "MoveMemoryBack"
  | right => "MoveMemoryForward"
  | exec => "ExecuteMemory"
  | character => "PrintOrWriteAscii"
  | decrement => "DecrementMemory"
  | increment => "IncrementMemory"
  | mark => "Mark"
  | clear => "SetMemoryToZero"
  | transfer => "ReadOrWriteRegister"
  | printInt => "PrintInt"
  | readInt => "WriteInt"
  | halt => "End"

/-- One word for a cause. -/
def Cause.name : Cause → String
  | invalidCapacity => "InvalidCapacity"
  | alreadyRunning => "AlreadyRunning"
  | outOfBounds => "OutOfBounds"
  | noMarker => "NoMarker"
  | unterminatedMarker => "UnterminatedMarker"
  | selfReference => "SelfReference"
  | overflow => "Overflow"
  | illegalCharacter => "IllegalCharacter"
  | inputPastEnd => "InputPastEnd"
  | illegalInput => "IllegalInput"
  | internalError => "InternalError"
  | fileNotFound => "FileNotFound"

/-- A titled group of words in braces. -/
def braced (title body : String) : String :=
  title ++ " \x7b " ++ body ++ " \x7d"

/-- A fault in one line. -/
def Fault.summary (f : Fault) : String :=
  braced "Error" f.message

/-- A tape in one line, without its cells. -/
def Tape.summary (t : Tape) : String :=
  braced "Tape" ("pointer: " ++ Text.Numeral.text t.pointer ++ ", capacity: " ++ Text.Numeral.text t.capacity)

/-- A program in one line. -/
def Program.summary (p : Program) : String :=
  braced "Program"
    ("instructions: [" ++ ", ".intercalate (p.instructions.toList.map Instruction.name) ++
      "], line: " ++ Text.Numeral.text p.cursor)

end MooCode
