/-
  Moo-code — the journal of a run.

  * `Entry`: something worth a line in a log.
  * `Machine.journal cycles`: what the slice `Machine.execute cycles` goes
    through, in the order it happens.
-/
import MooCode.Machine.Execute

namespace MooCode

/-- Something worth a line in a log. -/
inductive Entry where
  /-- A run of a program of `instructions` instructions begins. -/
  | started (instructions capacity : Nat)
  /-- The instruction `instruction` is about to take effect. -/
  | dispatched (line : Nat) (instruction : Instruction) (pointer : Nat)
  /-- The run came to its end in the line `line`. -/
  | ended (line : Nat)
  /-- The run was given up. -/
  | aborted (fault : Fault)
  deriving DecidableEq

namespace Machine

/-- What the next cycle goes through before it takes effect: the instruction at
    the cursor and, if that is an execute instruction, the one it stands for.  An
    execute instruction that finds its own code stands for none. -/
def dispatches (m : Machine) : List Entry :=
  let i := m.program.peek
  let j := i.resolve m.tape.here
  let entry (i : Instruction) : Entry := .dispatched m.program.cursor i m.tape.pointer
  if i = .exec ∧ j ≠ .exec then [entry i, entry j] else [entry i]

/-- What the end of a slice adds, when its last instruction is in the line
    `line`. -/
def closing (line : Nat) : Event → List Entry
  | .ended => [.ended line]
  | .failed f => [.aborted f]
  | _ => []

/-- What `Machine.advance cycles` goes through. -/
def advanceJournal : (cycles : Nat) → Machine → List Entry
  | 0, _ => []
  | n + 1, m =>
    m.dispatches ++
      match m.cycle with
      | (m, none) => advanceJournal n m
      | (_, some e) => closing m.program.cursor e

/-- What `Machine.execute cycles` goes through. -/
def journal (m : Machine) (cycles : Nat) : List Entry :=
  match m.status with
  | .idle => []
  | .running => advanceJournal cycles m
  | .waiting r line =>
    match m.read r with
    | (m, .taken) => advanceJournal cycles { m with status := .running }
    | (_, .pending) => []
    | (m, .refused f) => closing line (m.abort f line).2

end Machine

end MooCode
