/-
  Moo-code — the machine.

  A machine has a tape, a register, a program, and a queue of characters entered
  but not read.  It is idle, in the middle of a run, or waiting in the middle of
  a run for input that has not been entered.

  * `Machine`, with `Machine.blank capacity` and the default machine.
  * `Request`: what a read asks for, and `Status`: what the machine is doing.
  * `Event`: what a run tells the outside.
-/
import MooCode.Program
import MooCode.Tape

namespace MooCode

/-- What a read asks for. -/
inductive Request where
  /-- One character, stored as its code point. -/
  | char
  /-- One line, stored as the integer it is a numeral of. -/
  | integer
  deriving DecidableEq

/-- What a machine is doing. -/
inductive Status where
  /-- No run is on. -/
  | idle
  /-- A run is on. -/
  | running
  /-- A run is on, and the instruction in the line `line` waits for input. -/
  | waiting (request : Request) (line : Nat)
  deriving DecidableEq

/-- What a run tells the outside.  A run ends with the first event that is
    `ended` or `failed`. -/
inductive Event where
  /-- There is no run to go on with. -/
  | stopped
  /-- The run has used up its cycles and can go on. -/
  | running
  /-- The run printed `text`. -/
  | print (text : String)
  /-- The run waits for input. -/
  | input (request : Request)
  /-- The run came to its end. -/
  | ended
  /-- The run was given up. -/
  | failed (fault : Fault)
  deriving DecidableEq

/-- Whether a run can simply go on after the event. -/
def Event.isPassing : Event → Bool
  | print _ | running => true
  | _ => false

/-- A machine. -/
structure Machine where
  /-- The memory. -/
  tape : Tape
  /-- The register; zero is the empty register. -/
  register : Cell
  /-- The program of the current or the most recent run. -/
  program : Program
  /-- What the machine is doing. -/
  status : Status
  /-- The characters entered but not read, the next one first. -/
  input : List Char
  /-- Whether no more input comes. -/
  closed : Bool
  deriving DecidableEq

namespace Machine

/-- An idle machine with the tape `t`, an empty register and no input. -/
def ofTape (t : Tape) : Machine :=
  ⟨t, 0, default, .idle, [], false⟩

/-- An idle machine with a blank tape of `capacity` cells, at least one. -/
def blank (capacity : Nat) : Except Fault Machine :=
  (Tape.blank capacity).map ofTape

instance : Inhabited Machine :=
  ⟨ofTape default⟩

/-- Whether a run is on. -/
def isActive (m : Machine) : Bool :=
  m.status != .idle

end Machine

end MooCode
