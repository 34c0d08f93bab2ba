/-
  Moo-code — one cycle of a run.

  * `Machine.read r`: an attempt to serve a request from the entered input.
  * `Machine.perform i line`: what an instruction does to the machine, and its
    `Effect` on the run.
  * `Machine.dispatch i line`: the same for the instruction as it stands in the
    program, where an execute instruction stands for the one whose code is in
    the current cell.
  * `Machine.cycle`: fetch the instruction at the cursor, move the cursor on, and
    dispatch.
-/
import MooCode.Machine.Basic
import MooCode.Text.Blank

namespace MooCode

/-- How an attempt to serve a request came out. -/
inductive Reading where
  /-- The current cell holds what was read. -/
  | taken
  /-- There is not enough input yet. -/
  | pending
  /-- The input cannot be read, now or later. -/
  | refused (fault : Fault)
  deriving DecidableEq

/-- What an instruction means for the run. -/
inductive Effect where
  /-- The run goes on. -/
  | next
  /-- The run prints `text` and goes on. -/
  | print (text : String)
  /-- The run waits for input. -/
  | await (request : Request)
  /-- The run is at its end. -/
  | halt
  /-- The run cannot go on. -/
  | fail (fault : Fault)
  deriving DecidableEq

namespace Machine

/-! ## Input -/

/-- The line that an integer read would take from the input, and what stays.  A
    line ends with a newline; once no more input comes, the rest is a line
    too. -/
def nextLine? (m : Machine) : Option (List Char × List Char) :=
  match m.input.span (· ≠ '\n') with
  | (line, newline :: rest) => some (line ++ [newline], rest)
  | (line, []) => if m.closed ∧ line ≠ [] then some (line, []) else none

/-- An attempt that found no input. -/
def starve (m : Machine) : Machine × Reading :=
  (m, if m.closed then .refused { cause := .inputPastEnd } else .pending)

/-- An attempt to read a character into the current cell. -/
def readChar (m : Machine) : Machine × Reading :=
  match m.input with
  | c :: rest => ({ m with tape := m.tape.set (Cell.ofChar c), input := rest }, .taken)
  | [] => m.starve

/-- An attempt to read an integer into the current cell.  A line that is no
    integer is used up all the same. -/
def readInteger (m : Machine) : Machine × Reading :=
  match m.nextLine? with
  | some (line, rest) =>
    let text := Text.trim line
    match Cell.ofDecimal? text with
    | some v => ({ m with tape := m.tape.set v, input := rest }, .taken)
    | none =>
      ({ m with input := rest },
        .refused { cause := .illegalInput, detail := String.ofList text })
  | none => m.starve

/-- An attempt to serve the request `r`. -/
def read (m : Machine) : (r : Request) → Machine × Reading
  | .char => m.readChar
  | .integer => m.readInteger

/-! ## Instructions -/

/-- The machine with a new tape, or the reason why there is none. -/
def withTape (m : Machine) : Except Fault Tape → Machine × Effect
  | .ok t => ({ m with tape := t }, .next)
  | .error f => (m, .fail f)

/-- The machine with the cursor in the line `line`. -/
def jump (m : Machine) (line : Nat) : Machine × Effect :=
  match m.program.goto line with
  | .ok p => ({ m with program := p }, .next)
  | .error f => (m, .fail f)

/-- The machine after an attempt to serve the request `r`. -/
def demand (m : Machine) (r : Request) : Machine × Effect :=
  match m.read r with
  | (m, .taken) => (m, .next)
  | (m, .pending) => (m, .await r)
  | (m, .refused f) => (m, .fail f)

/-- The character in the current cell printed. -/
def printChar (m : Machine) : Machine × Effect :=
  match Cell.toChar? m.tape.here with
  | some c => (m, .print (String.singleton c))
  | none =>
    (m, .fail { cause := .illegalCharacter, detail := String.ofList (Cell.decimal m.tape.here) })

/-- What the instruction `i`, placed in the line `line`, does.  An execute
    instruction that is left to perform has found its own code. -/
def perform (m : Machine) (i : Instruction) (line : Nat) : Machine × Effect :=
  match i with
  | .jumpBack =>
    match m.program.loopStart line with
    | some mark => m.jump mark
    | none => (m, .fail { cause := .noMarker })
  | .left => m.withTape m.tape.back
  | .right => m.withTape m.tape.forward
  | .exec => (m, .fail { cause := .selfReference })
  | .character => if m.tape.here = 0 then m.demand .char else m.printChar
  | .decrement => m.withTape m.tape.decrement
  | .increment => m.withTape m.tape.increment
  | .mark =>
    if m.tape.here = 0 then
      match m.program.loopExit line with
      | some resume => m.jump resume
      | none => (m, .fail { cause := .unterminatedMarker })
    else (m, .next)
  | .clear => ({ m with tape := m.tape.set 0 }, .next)
  | .transfer =>
    if m.register = 0 then ({ m with register := m.tape.here }, .next)
    else ({ m with tape := m.tape.set m.register, register := 0 }, .next)
  | .printInt => (m, .print (String.ofList (Cell.decimal m.tape.here)))
  | .readInt => m.demand .integer
  | .halt => (m, .halt)

/-- What the instruction `i` in the line `line` of the program does. -/
def dispatch (m : Machine) (i : Instruction) (line : Nat) : Machine × Effect :=
  m.perform (i.resolve m.tape.here) line

/-! ## Cycles -/

/-- The machine with the cursor moved on. -/
def fetched (m : Machine) : Machine :=
  { m with program := m.program.advance }

/-- The run given up in the line `line`. -/
def abort (m : Machine) (f : Fault) (line : Nat) : Machine × Event :=
  ({ m with status := .idle }, .failed (f.inLine line))

/-- What the effect of the instruction in the line `line` leads to: an event, or
    nothing if the run just goes on. -/
def settle (m : Machine) (line : Nat) : Effect → Machine × Option Event
  | .next => (m, none)
  | .print text => (m, some (.print text))
  | .await r => ({ m with status := .waiting r line }, some (.input r))
  | .halt => ({ m with status := .idle }, some .ended)
  | .fail f => ((m.abort f line).1, some (m.abort f line).2)

/-- One cycle of a run. -/
def cycle (m : Machine) : Machine × Option Event :=
  let line := m.program.cursor
  let after := m.fetched.dispatch m.program.peek line
  after.1.settle line after.2

end Machine

end MooCode
