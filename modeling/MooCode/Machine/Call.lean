/-
  Moo-code — the machine from the outside.

  * `Call`: what can be asked of a machine, and `Reply`: what it answers.
  * `Machine.call c`: the machine after a call, and its answer.
  * `Machine.calls cs`: the same for calls in a row; a call that is refused does
    not stop those after it.
-/
import MooCode.Machine.Execute

namespace MooCode

/-- What can be asked of a machine. -/
inductive Call where
  /-- Begin a run of a source text. -/
  | start (text : String)
  /-- Clear the tape and the register. -/
  | reset
  /-- Enter a line. -/
  | enter (text : String)
  /-- Say that no more input comes. -/
  | closeInput
  /-- Go on with the run for some cycles. -/
  | execute (cycles : Nat)
  deriving DecidableEq

/-- What a machine answers. -/
inductive Reply where
  /-- It is done. -/
  | done
  /-- It is not possible now. -/
  | refused (fault : Fault)
  /-- The run has come to an event. -/
  | event (event : Event)
  deriving DecidableEq

namespace Machine

/-- The machine that an attempt led to; a refused attempt changes nothing. -/
def attempt (m : Machine) : Except Fault Machine → Machine × Reply
  | .ok m => (m, .done)
  | .error f => (m, .refused f)

/-- The machine after the call `c`, and its answer. -/
def call (m : Machine) (c : Call) : Machine × Reply :=
  match c with
  | .start text => m.attempt (m.start text)
  | .reset => m.attempt m.reset
  | .enter text => (m.enter text, .done)
  | .closeInput => (m.closeInput, .done)
  | .execute cycles =>
    let after := m.execute cycles
    (after.1, .event after.2)

/-- The machine after the calls `cs`, and its answers. -/
def calls (m : Machine) : (cs : List Call) → Machine × List Reply
  | [] => (m, [])
  | c :: cs =>
    let after := m.call c
    let rest := after.1.calls cs
    (rest.1, after.2 :: rest.2)

end Machine

end MooCode
