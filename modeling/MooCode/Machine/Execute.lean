/-
  Moo-code — runs in slices.

  * `Machine.start text`: begin a run of a source text, and `Machine.reset`: a
    blank tape and an empty register.  Neither is possible during a run.
  * `Machine.enter text`, `Machine.closeInput`: input from the outside.
  * `Machine.execute cycles`: go on with the run for some cycles, up to the first
    event.
  * `Machine.drive budgets`: go on slice by slice, up to the first event that is
    neither a print nor the end of a slice.
-/
import MooCode.Machine.Cycle

namespace MooCode.Machine

/-! ## Between slices -/

/-- The fault of a call that is not possible during a run. -/
def busy : Fault where
  cause := .alreadyRunning

/-- A blank tape and an empty register. -/
def reset (m : Machine) : Except Fault Machine :=
  if m.isActive then .error busy else .ok { m with tape := m.tape.clear, register := 0 }

/-- A run of the source text `text`.  Tape, register and input are those that
    the last run left. -/
def start (m : Machine) (text : String) : Except Fault Machine :=
  if m.isActive then .error busy
  else .ok { m with program := Program.ofSource text, status := .running }

/-- The line `text` entered, with a newline after it. -/
def enter (m : Machine) (text : String) : Machine :=
  { m with input := m.input ++ text.toList ++ ['\n'] }

/-- No more input comes. -/
def closeInput (m : Machine) : Machine :=
  { m with closed := true }

/-! ## Slices -/

/-- At most `cycles` cycles, up to the first event. -/
def advance : (cycles : Nat) → Machine → Machine × Event
  | 0, m => (m, .running)
  | n + 1, m =>
    match m.cycle with
    | (m, none) => advance n m
    | (m, some e) => (m, e)

/-- Go on with the run for at most `cycles` cycles, up to the first event.  A run
    that waits is first served what it waits for, which takes no cycle. -/
def execute (m : Machine) (cycles : Nat) : Machine × Event :=
  match m.status with
  | .idle => (m, .stopped)
  | .running => advance cycles m
  | .waiting r line =>
    match m.read r with
    | (m, .taken) => advance cycles { m with status := .running }
    | (m, .pending) => (m, .input r)
    | (m, .refused f) => m.abort f line

/-- The events of slices with the given budgets, up to the first one after which
    the run cannot simply go on. -/
def drive (m : Machine) : (budgets : List Nat) → Machine × List Event
  | [] => (m, [])
  | cycles :: budgets =>
    let (m, e) := m.execute cycles
    if e.isPassing then
      let (m, es) := m.drive budgets
      (m, e :: es)
    else (m, [e])

end MooCode.Machine
